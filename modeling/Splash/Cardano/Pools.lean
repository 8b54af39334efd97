import Splash.Cardano.Ledger
import Splash.Cardano.PoolMath
import Splash.LiquidityBook.Laws

/-!
# Pools

The makers of the order book agent: constant product pools (classic, with a fee switch, with
royalties), weighted pools and stable pools. Each has assets `x` and `y` in an order of its own,
and trades are booked on the reserves of the canonical base and quote.

* `exchange_spec` — a trade adds its input to the reserves and takes its output out of them.
* `AnyPool.swap_spec` — so does the swap of every pool.
-/

namespace Splash.Cardano

open Lib LiquidityBook Exec

/-! ## Trades on the reserves of a pool -/

section

variable (assetX assetY : AssetClass) (outputAmount : AssetClass → ℕ → Exec ℕ) (input : OnSide ℕ)

def absoluteReserves (reservesX reservesY : ℕ) : AbsoluteReserves :=
  if (orderCanonical assetX assetY).1 = assetX then ⟨reservesX, reservesY⟩
  else ⟨reservesY, reservesX⟩

def inputAsset : OnSide ℕ → AssetClass
  | .bid _ => (orderCanonical assetX assetY).2
  | .ask _ => (orderCanonical assetX assetY).1

/-- A trade that pays asset `x` in: an ask when `x` is the base, a bid when it is the quote. -/
def paysX : OnSide ℕ → Bool
  | .bid _ => (orderCanonical assetX assetY).1 ≠ assetX
  | .ask _ => (orderCanonical assetX assetY).1 = assetX

def exchange (reservesX reservesY : ℕ) (input : OnSide ℕ) (output : ℕ) : Exec (ℕ × ℕ) := do
  if paysX assetX assetY input then
    let reservesX ← addU64 reservesX input.unwrap
    let reservesY ← subU64 reservesY output
    return (reservesX, reservesY)
  else
    let reservesY ← addU64 reservesY input.unwrap
    let reservesX ← subU64 reservesX output
    return (reservesX, reservesY)

/-- Two counters, of `x` and of `y`, after `fee` was added for the asset that a trade pays in. -/
def charge (counterX counterY : ℕ) (input : OnSide ℕ) (fee : ℕ) : Exec (ℕ × ℕ) := do
  if paysX assetX assetY input then return (← addU64 counterX fee, counterY)
  else return (counterX, ← addU64 counterY fee)

def realPriceOf : Exec (Option AbsolutePrice) := do
  let output ← outputAmount (inputAsset assetX assetY input) input.unwrap
  return input.priceFor output

def estimatedTradeOf : Exec (Option AvailableLiquidity) := do
  let output ← outputAmount (inputAsset assetX assetY input) input.unwrap
  return some ⟨input.unwrap, output⟩

def reservesPrice (availableX availableY : ℕ) : AbsolutePrice :=
  if availableX = availableY then 1
  else if (orderCanonical assetX assetY).1 = assetX then (availableY : ℚ≥0) / availableX
  else (availableX : ℚ≥0) / availableY

/-- Enough of the native asset, if it is one of the two. -/
def nativeBound (reservesX reservesY minLovelace : ℕ) : Bool :=
  if assetX.isNative then minLovelace ≤ reservesX
  else if assetY.isNative then minLovelace ≤ reservesY
  else true

end

/-- Reserves before and after a trade that took `input` and gave `output`. -/
def Traded (before after : AbsoluteReserves) (input : OnSide ℕ) (output : ℕ) : Prop :=
  match input with
  | .bid input => after.quote = before.quote + input ∧ before.base = after.base + output
  | .ask input => after.base = before.base + input ∧ before.quote = after.quote + output

section Exchange

variable {assetX assetY : AssetClass} {x y x' y' : ℕ} {input : OnSide ℕ}

/-- The reserves after a trade that pays `x` in, and after one that pays `y` in. -/
theorem exchange_eq_ok {output : ℕ} :
    exchange assetX assetY x y input output = .ok (x', y') ↔
      if paysX assetX assetY input then
        x + input.unwrap ≤ u64Max ∧ x' = x + input.unwrap ∧ y = y' + output
      else y + input.unwrap ≤ u64Max ∧ y' = y + input.unwrap ∧ x = x' + output := by
  unfold exchange
  split <;>
  · simp only [bind_eq_ok, addU64_eq_ok, subU64_eq_ok, pure_eq_ok, Prod.mk.injEq]
    constructor
    · rintro ⟨_, ⟨hle, rfl⟩, _, hrest, rfl, rfl⟩
      exact ⟨hle, rfl, hrest⟩
    · rintro ⟨hle, rfl, hrest⟩
      exact ⟨_, ⟨hle, rfl⟩, _, hrest, rfl, rfl⟩

theorem charge_eq_ok {fee : ℕ} : charge assetX assetY x y input fee = .ok (x', y') ↔
    if paysX assetX assetY input then x + fee ≤ u64Max ∧ x' = x + fee ∧ y' = y
    else y + fee ≤ u64Max ∧ y' = y + fee ∧ x' = x := by
  unfold charge
  split <;> simp only [bind_eq_ok, addU64_eq_ok, pure_eq_ok] <;> grind

theorem exchange_spec {output : ℕ} (h : exchange assetX assetY x y input output = .ok (x', y')) :
    Traded (absoluteReserves assetX assetY x y) (absoluteReserves assetX assetY x' y') input
      output := by
  rw [exchange_eq_ok] at h
  cases input <;> split at h <;> simp_all [paysX, absoluteReserves, Traded]

end Exchange

/-- Counters of `x` and of `y` before and after the part `fee` of the input of a trade was charged. -/
def Charged (assetX assetY : AssetClass) (fee : Ratio) (input : OnSide ℕ) (before after : ℕ × ℕ) :
    Prop :=
  ∃ part, fee.of input.unwrap = .ok part ∧
    charge assetX assetY before.1 before.2 input part = .ok after

namespace Charged

variable {assetX assetY : AssetClass} {fee : Ratio} {input : OnSide ℕ} {before after : ℕ × ℕ}

section

variable (h : Charged assetX assetY fee input before after)
include h

/-- One of the counters grows, and stays in range. -/
theorem cases :
    ∃ part, fee.of input.unwrap = .ok part ∧
      ((after = (before.1 + part, before.2) ∧ before.1 + part ≤ u64Max) ∨
        (after = (before.1, before.2 + part) ∧ before.2 + part ≤ u64Max)) := by
  obtain ⟨part, hpart, h⟩ := h
  refine ⟨part, hpart, ?_⟩
  obtain ⟨x', y'⟩ := after
  rw [charge_eq_ok] at h
  split at h <;> obtain ⟨hle, rfl, rfl⟩ := h
  · exact .inl ⟨rfl, hle⟩
  · exact .inr ⟨rfl, hle⟩

theorem le (hx : before.1 ≤ u64Max)
    (hy : before.2 ≤ u64Max) : after.1 ≤ u64Max ∧ after.2 ≤ u64Max := by
  obtain ⟨part, -, ⟨rfl, hle⟩ | ⟨rfl, hle⟩⟩ := h.cases
  · exact ⟨hle, hy⟩
  · exact ⟨hx, hle⟩

theorem eq_of_numer_eq_zero
    (hfee : fee.numer = 0) : after = before := by
  obtain ⟨part, hpart, h⟩ := h.cases
  obtain ⟨product, hproduct, hpart⟩ := bind_eq_ok.1 hpart
  obtain ⟨-, rfl⟩ := fit_eq_ok.1 hproduct
  obtain ⟨-, rfl⟩ := divide_eq_ok.1 hpart
  simpa [hfee, Nat.zero_div] using h.imp And.left And.left

end

end Charged

/-! ## Constant product pools -/

structure PoolValidation where
  minN2tLovelace : ℕ
  minT2tLovelace : ℕ
  deriving DecidableEq, Repr

inductive ClassicPoolVer where
  | v1
  | v2
  deriving DecidableEq, Repr

structure ClassicPool where
  id : Token
  reservesX : ℕ
  reservesY : ℕ
  liquidity : ℕ
  assetX : AssetClass
  assetY : AssetClass
  assetLq : AssetClass
  lpFee : Ratio
  lqLowerBound : ℕ
  ver : ClassicPoolVer
  marginalCost : ExUnits
  bounds : PoolValidation
  stakePartScriptHash : Option ScriptHash
  deriving DecidableEq

namespace ClassicPool

def outputAmount (p : ClassicPool) (baseAsset : AssetClass) (baseAmount : ℕ) : Exec ℕ :=
  classicCfmmOutputAmount p.assetX p.assetY p.reservesX p.reservesY baseAsset baseAmount p.lpFee
    p.lpFee

def swap (p : ClassicPool) (input : OnSide ℕ) : Exec ClassicPool := do
  let output ← p.outputAmount (inputAsset p.assetX p.assetY input) input.unwrap
  let (reservesX, reservesY) ← exchange p.assetX p.assetY p.reservesX p.reservesY input output
  return { p with reservesX, reservesY }

def staticPrice (p : ClassicPool) : Exec AbsolutePrice :=
  .ok (reservesPrice p.assetX p.assetY p.reservesX p.reservesY)

def isActive (p : ClassicPool) : Bool :=
  p.lqLowerBound ≤ p.reservesX * 2 &&
    nativeBound p.assetX p.assetY p.reservesX p.reservesY p.bounds.minN2tLovelace

end ClassicPool

inductive FeeSwitchPoolVer where
  | v1
  | v2
  | biDirV1
  deriving DecidableEq, Repr

structure FeeSwitchPool where
  id : Token
  reservesX : ℕ
  reservesY : ℕ
  liquidity : ℕ
  assetX : AssetClass
  assetY : AssetClass
  assetLq : AssetClass
  lpFeeX : Ratio
  lpFeeY : Ratio
  treasuryFee : Ratio
  treasuryX : ℕ
  treasuryY : ℕ
  lqLowerBound : ℕ
  ver : FeeSwitchPoolVer
  marginalCost : ExUnits
  bounds : PoolValidation
  nonce : ℕ
  stakePartScriptHash : Option ScriptHash
  deriving DecidableEq

namespace FeeSwitchPool

section

variable (p : FeeSwitchPool) (input : OnSide ℕ)

def outputAmount (baseAsset : AssetClass) (baseAmount : ℕ) : Exec ℕ := do
  classicCfmmOutputAmount p.assetX p.assetY (← subU64 p.reservesX p.treasuryX)
    (← subU64 p.reservesY p.treasuryY) baseAsset baseAmount (← p.lpFeeX.sub p.treasuryFee)
    (← p.lpFeeY.sub p.treasuryFee)

def swap : Exec FeeSwitchPool := do
  let output ← p.outputAmount (inputAsset p.assetX p.assetY input) input.unwrap
  let (reservesX, reservesY) ← exchange p.assetX p.assetY p.reservesX p.reservesY input output
  let fee ← p.treasuryFee.of input.unwrap
  let (treasuryX, treasuryY) ← charge p.assetX p.assetY p.treasuryX p.treasuryY input fee
  return { p with reservesX, reservesY, treasuryX, treasuryY }

def staticPrice : Exec AbsolutePrice := do
  return reservesPrice p.assetX p.assetY (← subU64 p.reservesX p.treasuryX)
    (← subU64 p.reservesY p.treasuryY)

def isActive : Bool :=
  p.lqLowerBound ≤ p.reservesX * 2 &&
    nativeBound p.assetX p.assetY p.reservesX p.reservesY p.bounds.minN2tLovelace

end

end FeeSwitchPool

inductive RoyaltyPoolVer where
  | v1
  | v1LedgerFixed
  | v2
  deriving DecidableEq, Repr

structure RoyaltyPool where
  id : Token
  reservesX : ℕ
  reservesY : ℕ
  liquidity : ℕ
  assetX : AssetClass
  assetY : AssetClass
  assetLq : AssetClass
  lpFee : Ratio
  treasuryFee : Ratio
  treasuryX : ℕ
  treasuryY : ℕ
  firstRoyaltyFee : Ratio
  secondRoyaltyFee : Ratio
  firstRoyaltyX : ℕ
  firstRoyaltyY : ℕ
  secondRoyaltyX : ℕ
  secondRoyaltyY : ℕ
  lqLowerBound : ℕ
  adminAddress : ScriptHash
  treasuryAddress : ScriptHash
  firstRoyaltyPubKey : Ed25519PublicKey
  secondRoyaltyPubKey : Ed25519PublicKey
  ver : RoyaltyPoolVer
  marginalCost : ExUnits
  bounds : PoolValidation
  nonce : ℕ
  stakePartScriptHash : Option ScriptHash
  deriving DecidableEq

namespace RoyaltyPool

variable (p : RoyaltyPool)

/-- Reserves of `x` that are not reserved for the treasury or royalties. -/
def availableX : Exec ℕ := do
  subU64 (← subU64 (← subU64 p.reservesX p.treasuryX) p.firstRoyaltyX) p.secondRoyaltyX

/-- Reserves of `y` that are not reserved for the treasury or royalties. -/
def availableY : Exec ℕ := do
  subU64 (← subU64 (← subU64 p.reservesY p.treasuryY) p.firstRoyaltyY) p.secondRoyaltyY

def poolFee : Exec Ratio := do
  (← (← p.lpFee.sub p.treasuryFee).sub p.firstRoyaltyFee).sub p.secondRoyaltyFee

def outputAmount (baseAsset : AssetClass) (baseAmount : ℕ) : Exec ℕ := do
  classicCfmmOutputAmount p.assetX p.assetY (← p.availableX) (← p.availableY) baseAsset baseAmount
    (← p.poolFee) (← p.poolFee)

def swap (input : OnSide ℕ) : Exec RoyaltyPool := do
  let output ← p.outputAmount (inputAsset p.assetX p.assetY input) input.unwrap
  let (reservesX, reservesY) ← exchange p.assetX p.assetY p.reservesX p.reservesY input output
  let fee ← p.treasuryFee.of input.unwrap
  let (treasuryX, treasuryY) ← charge p.assetX p.assetY p.treasuryX p.treasuryY input fee
  let first ← p.firstRoyaltyFee.of input.unwrap
  let (firstRoyaltyX, firstRoyaltyY) ←
    charge p.assetX p.assetY p.firstRoyaltyX p.firstRoyaltyY input first
  let second ← p.secondRoyaltyFee.of input.unwrap
  let (secondRoyaltyX, secondRoyaltyY) ←
    charge p.assetX p.assetY p.secondRoyaltyX p.secondRoyaltyY input second
  return { p with
    reservesX, reservesY, treasuryX, treasuryY, firstRoyaltyX, firstRoyaltyY, secondRoyaltyX,
    secondRoyaltyY }

def staticPrice : Exec AbsolutePrice := do
  return reservesPrice p.assetX p.assetY (← p.availableX) (← p.availableY)

def isActive : Bool :=
  p.lqLowerBound ≤ p.reservesX * 2 &&
    nativeBound p.assetX p.assetY p.reservesX p.reservesY p.bounds.minN2tLovelace

end RoyaltyPool

inductive ConstFnPool where
  | classic (p : ClassicPool)
  | feeSwitch (p : FeeSwitchPool)
  | royalty (p : RoyaltyPool)
  deriving DecidableEq

/-! ## Weighted pools -/

def weightFeeDen : ℕ := 5

inductive BalancePoolVer where
  | v1
  | v2
  deriving DecidableEq, Repr

structure BalancePool where
  id : Token
  reservesX : ℕ
  weightX : ℕ
  reservesY : ℕ
  weightY : ℕ
  liquidity : ℕ
  assetX : AssetClass
  assetY : AssetClass
  assetLq : AssetClass
  lpFeeX : Ratio
  lpFeeY : Ratio
  treasuryFee : Ratio
  treasuryX : ℕ
  treasuryY : ℕ
  ver : BalancePoolVer
  marginalCost : ExUnits
  minPoolLovelace : ℕ
  deriving DecidableEq

namespace BalancePool

def outputAmount [Numerics] (p : BalancePool) (baseAsset : AssetClass) (baseAmount : ℕ) :
    Exec ℕ := do
  balanceCfmmOutputAmount p.assetX (← subU64 p.reservesX p.treasuryX) p.weightX
    (← subU64 p.reservesY p.treasuryY) p.weightY baseAsset baseAmount
    (← p.lpFeeX.sub p.treasuryFee) (← p.lpFeeY.sub p.treasuryFee)

def swap [Numerics] (p : BalancePool) (input : OnSide ℕ) : Exec BalancePool := do
  let output ← p.outputAmount (inputAsset p.assetX p.assetY input) input.unwrap
  let (reservesX, reservesY) ← exchange p.assetX p.assetY p.reservesX p.reservesY input output
  let fee ← p.treasuryFee.of input.unwrap
  let (treasuryX, treasuryY) ← charge p.assetX p.assetY p.treasuryX p.treasuryY input fee
  return { p with reservesX, reservesY, treasuryX, treasuryY }

def staticPrice (p : BalancePool) : Exec AbsolutePrice := do
  let availableX ← fit u64Max ((← subU64 p.reservesX p.treasuryX) * weightFeeDen)
  let availableY ← fit u64Max ((← subU64 p.reservesY p.treasuryY) * weightFeeDen)
  let weighedX ← divide availableX p.weightX
  let weighedY ← divide availableY p.weightY
  if (orderCanonical p.assetX p.assetY).1 = p.assetX then return (weighedY : ℚ≥0) / weighedX
  else return (weighedX : ℚ≥0) / weighedY

def isActive (p : BalancePool) : Bool :=
  nativeBound p.assetX p.assetY p.reservesX p.reservesY p.minPoolLovelace

end BalancePool

/-! ## Stable pools -/

inductive StablePoolT2TVer where
  | v1
  deriving DecidableEq, Repr

/-- A pool of two assets of about the same value. -/
structure StablePoolT2T where
  id : Token
  an2n : ℕ
  reservesX : ℕ
  multiplierX : ℕ
  reservesY : ℕ
  multiplierY : ℕ
  liquidity : ℕ
  assetX : AssetClass
  assetY : AssetClass
  assetLq : AssetClass
  lpFeeX : Ratio
  lpFeeY : Ratio
  treasuryFee : Ratio
  treasuryX : ℕ
  treasuryY : ℕ
  ver : StablePoolT2TVer
  marginalCost : ExUnits
  deriving DecidableEq

namespace StablePoolT2T

def outputAmount [Numerics] (p : StablePoolT2T) (baseAsset : AssetClass) (baseAmount : ℕ) :
    Exec ℕ := do
  let output ← calcStableSwap p.assetX (← subU64 p.reservesX p.treasuryX) p.multiplierX
    (← subU64 p.reservesY p.treasuryY) p.multiplierY baseAsset baseAmount p.an2n
  return output.getD 0

def validTreasuryFee (treasuryNumer fRev treasuryFee quoteTotalDelta : ℕ) : Exec Bool := do
  let charged ← fit u64Max (treasuryFee * fRev)
  let due ← fit u64Max (quoteTotalDelta * treasuryNumer)
  return due ≤ charged

def raiseTreasuryFee (treasuryNumer fRev afterLp treasuryFee : ℕ) : Exec (Iter ℕ ℕ) := do
  let treasuryFee := treasuryFee + 1
  let quoteTotalDelta ← subU64 afterLp treasuryFee
  if ← validTreasuryFee treasuryNumer fRev treasuryFee quoteTotalDelta then return .done treasuryFee
  else return .again treasuryFee

def fees [Numerics] (p : StablePoolT2T) (lpFee : Ratio) (pureOutput : ℕ) : Exec (ℕ × ℕ) := do
  let lpFees ← addU64 (← lpFee.of pureOutput) 1
  let treasuryFee ← p.treasuryFee.of pureOutput
  let fRev ← subU64 (← subU64 lpFee.denom p.treasuryFee.numer) lpFee.numer
  let afterLp ← subU64 pureOutput lpFees
  let quoteTotalDelta ← subU64 (← subU64 afterLp treasuryFee) 1
  let valid ← validTreasuryFee p.treasuryFee.numer fRev treasuryFee quoteTotalDelta
  if valid ∨ p.treasuryFee.numer = 0 then return (treasuryFee, lpFees)
  else
    return (← iterate (raiseTreasuryFee p.treasuryFee.numer fRev afterLp) treasuryFee, lpFees)

def swap [Numerics] (p : StablePoolT2T) (input : OnSide ℕ) : Exec StablePoolT2T := do
  let pureOutput ← p.outputAmount (inputAsset p.assetX p.assetY input) input.unwrap
  -- the source charges the fee of the same asset for both sides of a trade
  let lpFee := if (orderCanonical p.assetX p.assetY).1 = p.assetX then p.lpFeeY else p.lpFeeX
  let (treasuryFee, lpFees) ← p.fees lpFee pureOutput
  let output ← subU64 (← subU64 pureOutput treasuryFee) lpFees
  let (reservesX, reservesY) ← exchange p.assetX p.assetY p.reservesX p.reservesY input output
  match input with
  | .bid _ => return { p with reservesX, reservesY, treasuryX := ← addU64 p.treasuryX treasuryFee }
  | .ask _ => return { p with reservesX, reservesY, treasuryY := ← addU64 p.treasuryY treasuryFee }

def staticPrice [Numerics] (p : StablePoolT2T) : Exec AbsolutePrice := do
  let xCalc ← fit u64Max ((← subU64 p.reservesX p.treasuryX) * p.multiplierX)
  let yCalc ← fit u64Max ((← subU64 p.reservesY p.treasuryY) * p.multiplierY)
  let ann := p.an2n / 4
  let d ← expect "Invalid pool state" (← calculateInvariant xCalc yCalc p.an2n)
  let dn1 ← fit u512Max (d * d * d)
  let partX ← fit u64Max (← divide dn1 (4 * xCalc ^ 2 * yCalc))
  let partY ← fit u64Max (← divide dn1 (4 * yCalc ^ 2 * xCalc))
  let priceNum ← addU64 ann partX
  let priceDenom ← fit u64Max (p.treasuryFee.denom * (← addU64 ann partY))
  if (orderCanonical p.assetX p.assetY).1 = p.assetX then
    let reversedFee ← subU64 (← subU64 p.treasuryFee.denom p.lpFeeX.numer) p.treasuryFee.numer
    return ((← fit u64Max (priceNum * reversedFee) : ℕ) : ℚ≥0) / priceDenom
  else
    let reversedFee ← subU64 (← subU64 p.treasuryFee.denom p.lpFeeY.numer) p.treasuryFee.numer
    return (priceDenom : ℚ≥0) / (← fit u64Max (reversedFee * priceNum) : ℕ)

end StablePoolT2T

/-! ## Any pool -/

inductive AnyPool where
  | pureCFMM (p : ConstFnPool)
  | balancedCFMM (p : BalancePool)
  | stableCFMM (p : StablePoolT2T)
  deriving DecidableEq

/-- What pools report as available at a price or better. The source computes it with floating point
numbers and decimals of arbitrary precision. -/
class LiquidityEstimates where
  availableLiquidityOnSide : AnyPool → OnSide AbsolutePrice → Option AvailableLiquidity

namespace AnyPool

def assetX : AnyPool → AssetClass
  | .pureCFMM (.classic p) => p.assetX
  | .pureCFMM (.feeSwitch p) => p.assetX
  | .pureCFMM (.royalty p) => p.assetX
  | .balancedCFMM p => p.assetX
  | .stableCFMM p => p.assetX

def assetY : AnyPool → AssetClass
  | .pureCFMM (.classic p) => p.assetY
  | .pureCFMM (.feeSwitch p) => p.assetY
  | .pureCFMM (.royalty p) => p.assetY
  | .balancedCFMM p => p.assetY
  | .stableCFMM p => p.assetY

def reservesX : AnyPool → ℕ
  | .pureCFMM (.classic p) => p.reservesX
  | .pureCFMM (.feeSwitch p) => p.reservesX
  | .pureCFMM (.royalty p) => p.reservesX
  | .balancedCFMM p => p.reservesX
  | .stableCFMM p => p.reservesX

def reservesY : AnyPool → ℕ
  | .pureCFMM (.classic p) => p.reservesY
  | .pureCFMM (.feeSwitch p) => p.reservesY
  | .pureCFMM (.royalty p) => p.reservesY
  | .balancedCFMM p => p.reservesY
  | .stableCFMM p => p.reservesY

def pairId (p : AnyPool) : PairId := .canonical p.assetX p.assetY

def liquidity (p : AnyPool) : AbsoluteReserves :=
  absoluteReserves p.assetX p.assetY p.reservesX p.reservesY

section Trades

variable [Numerics]

def outputAmount : AnyPool → AssetClass → ℕ → Exec ℕ
  | .pureCFMM (.classic p) => p.outputAmount
  | .pureCFMM (.feeSwitch p) => p.outputAmount
  | .pureCFMM (.royalty p) => p.outputAmount
  | .balancedCFMM p => p.outputAmount
  | .stableCFMM p => p.outputAmount

def swap : AnyPool → OnSide ℕ → Exec AnyPool
  | .pureCFMM (.classic p), input => return .pureCFMM (.classic (← p.swap input))
  | .pureCFMM (.feeSwitch p), input => return .pureCFMM (.feeSwitch (← p.swap input))
  | .pureCFMM (.royalty p), input => return .pureCFMM (.royalty (← p.swap input))
  | .balancedCFMM p, input => return .balancedCFMM (← p.swap input)
  | .stableCFMM p, input => return .stableCFMM (← p.swap input)

def realPrice (p : AnyPool) (input : OnSide ℕ) : Exec (Option AbsolutePrice) :=
  realPriceOf p.assetX p.assetY p.outputAmount input

/-- Stable pools give no estimate. -/
def estimatedTrade (p : AnyPool) (input : OnSide ℕ) : Exec (Option AvailableLiquidity) :=
  match p with
  | .stableCFMM _ => .ok none
  | p => estimatedTradeOf p.assetX p.assetY p.outputAmount input

def staticPrice : AnyPool → Exec AbsolutePrice
  | .pureCFMM (.classic p) => p.staticPrice
  | .pureCFMM (.feeSwitch p) => p.staticPrice
  | .pureCFMM (.royalty p) => p.staticPrice
  | .balancedCFMM p => p.staticPrice
  | .stableCFMM p => p.staticPrice

end Trades

def quality : AnyPool → ℕ
  | .pureCFMM (.classic p) => p.liquidity
  | .pureCFMM (.feeSwitch p) => p.liquidity
  | .pureCFMM (.royalty p) => p.liquidity
  | .balancedCFMM p => p.liquidity
  | .stableCFMM p => p.liquidity

def marginalCost : AnyPool → ExUnits
  | .pureCFMM (.classic p) => p.marginalCost
  | .pureCFMM (.feeSwitch p) => p.marginalCost
  | .pureCFMM (.royalty p) => p.marginalCost
  | .balancedCFMM p => p.marginalCost
  | .stableCFMM p => p.marginalCost

def isActive : AnyPool → Bool
  | .pureCFMM (.classic p) => p.isActive
  | .pureCFMM (.feeSwitch p) => p.isActive
  | .pureCFMM (.royalty p) => p.isActive
  | .balancedCFMM p => p.isActive
  | .stableCFMM _ => true

def id : AnyPool → Token
  | .pureCFMM (.classic p) => p.id
  | .pureCFMM (.feeSwitch p) => p.id
  | .pureCFMM (.royalty p) => p.id
  | .balancedCFMM p => p.id
  | .stableCFMM p => p.id

instance : Stable AnyPool Token where
  stableId := id
  isQuasiPermanent _ := true

variable [Numerics] [LiquidityEstimates]

instance : MarketMaker AnyPool ExUnits where
  staticPrice := staticPrice
  realPrice := realPrice
  effectivePrice p _ input := p.realPrice input
  quality := quality
  marginalCostHint := marginalCost
  liquidity := liquidity
  availableLiquidityOnSide := LiquidityEstimates.availableLiquidityOnSide
  estimatedTrade := estimatedTrade
  isActive := isActive

instance : MakerBehavior AnyPool where
  swap := swap
  preservePreviewMetadata _ _ rebalanced := rebalanced
  swapWithTaker taker p input := defaultSwapWithTaker swap taker p input

end AnyPool

/-! ## What a swap does -/

section Swap

variable {input : OnSide ℕ}

theorem ClassicPool.swap_spec {p p' : ClassicPool} (h : p.swap input = .ok p') :
    ∃ output reservesX reservesY,
      p.outputAmount (inputAsset p.assetX p.assetY input) input.unwrap = .ok output ∧
      exchange p.assetX p.assetY p.reservesX p.reservesY input output = .ok (reservesX, reservesY) ∧
      p' = { p with reservesX, reservesY } := by
  unfold ClassicPool.swap at h
  obtain ⟨output, hout, h⟩ := bind_eq_ok.1 h
  obtain ⟨⟨rx, ry⟩, hres, h⟩ := bind_eq_ok.1 h
  cases h
  exact ⟨output, rx, ry, hout, hres, rfl⟩

theorem FeeSwitchPool.swap_spec {p p' : FeeSwitchPool} (h : p.swap input = .ok p') :
    ∃ output reservesX reservesY treasuryX treasuryY,
      p.outputAmount (inputAsset p.assetX p.assetY input) input.unwrap = .ok output ∧
      exchange p.assetX p.assetY p.reservesX p.reservesY input output = .ok (reservesX, reservesY) ∧
      Charged p.assetX p.assetY p.treasuryFee input (p.treasuryX, p.treasuryY)
        (treasuryX, treasuryY) ∧
      p' = { p with reservesX, reservesY, treasuryX, treasuryY } := by
  unfold FeeSwitchPool.swap at h
  obtain ⟨output, hout, h⟩ := bind_eq_ok.1 h
  obtain ⟨⟨rx, ry⟩, hres, h⟩ := bind_eq_ok.1 h
  obtain ⟨fee, hfee, h⟩ := bind_eq_ok.1 h
  obtain ⟨⟨tx, ty⟩, ht, h⟩ := bind_eq_ok.1 h
  cases h
  exact ⟨output, rx, ry, tx, ty, hout, hres, ⟨fee, hfee, ht⟩, rfl⟩

theorem RoyaltyPool.swap_spec {p p' : RoyaltyPool} (h : p.swap input = .ok p') :
    ∃ output reservesX reservesY treasuryX treasuryY firstX firstY secondX secondY,
      p.outputAmount (inputAsset p.assetX p.assetY input) input.unwrap = .ok output ∧
      exchange p.assetX p.assetY p.reservesX p.reservesY input output = .ok (reservesX, reservesY) ∧
      Charged p.assetX p.assetY p.treasuryFee input (p.treasuryX, p.treasuryY)
        (treasuryX, treasuryY) ∧
      Charged p.assetX p.assetY p.firstRoyaltyFee input (p.firstRoyaltyX, p.firstRoyaltyY)
        (firstX, firstY) ∧
      Charged p.assetX p.assetY p.secondRoyaltyFee input (p.secondRoyaltyX, p.secondRoyaltyY)
        (secondX, secondY) ∧
      p' = { p with
        reservesX, reservesY, treasuryX, treasuryY, firstRoyaltyX := firstX,
        firstRoyaltyY := firstY, secondRoyaltyX := secondX, secondRoyaltyY := secondY } := by
  unfold RoyaltyPool.swap at h
  obtain ⟨output, hout, h⟩ := bind_eq_ok.1 h
  obtain ⟨⟨rx, ry⟩, hres, h⟩ := bind_eq_ok.1 h
  obtain ⟨fee, hfee, h⟩ := bind_eq_ok.1 h
  obtain ⟨⟨tx, ty⟩, ht, h⟩ := bind_eq_ok.1 h
  obtain ⟨first, hfirst, h⟩ := bind_eq_ok.1 h
  obtain ⟨⟨fx, fy⟩, hf, h⟩ := bind_eq_ok.1 h
  obtain ⟨second, hsecond, h⟩ := bind_eq_ok.1 h
  obtain ⟨⟨sx, sy⟩, hs, h⟩ := bind_eq_ok.1 h
  cases h
  exact ⟨output, rx, ry, tx, ty, fx, fy, sx, sy, hout, hres, ⟨fee, hfee, ht⟩,
    ⟨first, hfirst, hf⟩, ⟨second, hsecond, hs⟩, rfl⟩

variable [Numerics]

theorem BalancePool.swap_spec {p p' : BalancePool} (h : p.swap input = .ok p') :
    ∃ output reservesX reservesY treasuryX treasuryY,
      p.outputAmount (inputAsset p.assetX p.assetY input) input.unwrap = .ok output ∧
      exchange p.assetX p.assetY p.reservesX p.reservesY input output = .ok (reservesX, reservesY) ∧
      Charged p.assetX p.assetY p.treasuryFee input (p.treasuryX, p.treasuryY)
        (treasuryX, treasuryY) ∧
      p' = { p with reservesX, reservesY, treasuryX, treasuryY } := by
  unfold BalancePool.swap at h
  obtain ⟨output, hout, h⟩ := bind_eq_ok.1 h
  obtain ⟨⟨rx, ry⟩, hres, h⟩ := bind_eq_ok.1 h
  obtain ⟨fee, hfee, h⟩ := bind_eq_ok.1 h
  obtain ⟨⟨tx, ty⟩, ht, h⟩ := bind_eq_ok.1 h
  cases h
  exact ⟨output, rx, ry, tx, ty, hout, hres, ⟨fee, hfee, ht⟩, rfl⟩

theorem StablePoolT2T.fees_pos {p : StablePoolT2T} {lpFee : Ratio} {pureOutput : ℕ} {f : ℕ × ℕ}
    (h : p.fees lpFee pureOutput = .ok f) : 0 < f.2 := by
  unfold StablePoolT2T.fees at h
  obtain ⟨lp, -, h⟩ := bind_eq_ok.1 h
  obtain ⟨lpFees, hlp, h⟩ := bind_eq_ok.1 h
  obtain ⟨-, rfl⟩ := addU64_eq_ok.1 hlp
  obtain ⟨treasury, -, h⟩ := bind_eq_ok.1 h
  obtain ⟨a, -, h⟩ := bind_eq_ok.1 h
  obtain ⟨b, -, h⟩ := bind_eq_ok.1 h
  obtain ⟨c, -, h⟩ := bind_eq_ok.1 h
  obtain ⟨d, -, h⟩ := bind_eq_ok.1 h
  obtain ⟨e, -, h⟩ := bind_eq_ok.1 h
  obtain ⟨valid, -, h⟩ := bind_eq_ok.1 h
  split at h
  · cases h
    exact Nat.succ_pos _
  · obtain ⟨raised, -, h⟩ := bind_eq_ok.1 h
    cases h
    exact Nat.succ_pos _

theorem StablePoolT2T.swap_spec {p p' : StablePoolT2T} (h : p.swap input = .ok p') :
    ∃ pureOutput output reservesX reservesY treasuryX treasuryY,
      p.outputAmount (inputAsset p.assetX p.assetY input) input.unwrap = .ok pureOutput ∧
      output < pureOutput ∧
      exchange p.assetX p.assetY p.reservesX p.reservesY input output = .ok (reservesX, reservesY) ∧
      (p.treasuryX ≤ u64Max → treasuryX ≤ u64Max) ∧ (p.treasuryY ≤ u64Max → treasuryY ≤ u64Max) ∧
      p' = { p with reservesX, reservesY, treasuryX, treasuryY } := by
  unfold StablePoolT2T.swap at h
  obtain ⟨pureOutput, hpure, h⟩ := bind_eq_ok.1 h
  obtain ⟨⟨treasuryFee, lpFees⟩, hfees, h⟩ := bind_eq_ok.1 h
  obtain ⟨afterTreasury, hafter, h⟩ := bind_eq_ok.1 h
  obtain ⟨output, hout, h⟩ := bind_eq_ok.1 h
  obtain ⟨⟨rx, ry⟩, hres, h⟩ := bind_eq_ok.1 h
  have hlt : output < pureOutput := by
    have hpos : 0 < lpFees := fees_pos hfees
    have hafter := subU64_eq_ok.1 hafter
    have hout := subU64_eq_ok.1 hout
    omega
  cases input with
  | bid i =>
    obtain ⟨tx, htx, h⟩ := bind_eq_ok.1 h
    obtain ⟨hle, rfl⟩ := addU64_eq_ok.1 htx
    cases h
    exact ⟨pureOutput, output, rx, ry, _, p.treasuryY, hpure, hlt, hres, fun _ => hle, fun h => h,
      rfl⟩
  | ask i =>
    obtain ⟨ty, hty, h⟩ := bind_eq_ok.1 h
    obtain ⟨hle, rfl⟩ := addU64_eq_ok.1 hty
    cases h
    exact ⟨pureOutput, output, rx, ry, p.treasuryX, _, hpure, hlt, hres, fun h => h, fun _ => hle,
      rfl⟩

namespace AnyPool

theorem swap_spec {p p' : AnyPool} (h : p.swap input = .ok p') :
    p'.id = p.id ∧ p'.pairId = p.pairId ∧
      ∃ output, Traded p.liquidity p'.liquidity input output := by
  match p with
  | .pureCFMM (.classic p) =>
    obtain ⟨q, hq, h⟩ := bind_eq_ok.1 h
    cases h
    obtain ⟨output, rx, ry, -, hres, rfl⟩ := ClassicPool.swap_spec hq
    exact ⟨rfl, rfl, output, exchange_spec hres⟩
  | .pureCFMM (.feeSwitch p) =>
    obtain ⟨q, hq, h⟩ := bind_eq_ok.1 h
    cases h
    obtain ⟨output, rx, ry, tx, ty, -, hres, -, rfl⟩ := FeeSwitchPool.swap_spec hq
    exact ⟨rfl, rfl, output, exchange_spec hres⟩
  | .pureCFMM (.royalty p) =>
    obtain ⟨q, hq, h⟩ := bind_eq_ok.1 h
    cases h
    obtain ⟨output, rx, ry, tx, ty, fx, fy, sx, sy, -, hres, -, -, -, rfl⟩ :=
      RoyaltyPool.swap_spec hq
    exact ⟨rfl, rfl, output, exchange_spec hres⟩
  | .balancedCFMM p =>
    obtain ⟨q, hq, h⟩ := bind_eq_ok.1 h
    cases h
    obtain ⟨output, rx, ry, tx, ty, -, hres, -, rfl⟩ := BalancePool.swap_spec hq
    exact ⟨rfl, rfl, output, exchange_spec hres⟩
  | .stableCFMM p =>
    obtain ⟨q, hq, h⟩ := bind_eq_ok.1 h
    cases h
    obtain ⟨quoted, output, rx, ry, tx, ty, -, -, hres, -, -, rfl⟩ :=
      StablePoolT2T.swap_spec hq
    exact ⟨rfl, rfl, output, exchange_spec hres⟩

end AnyPool

end Swap

end Splash.Cardano
