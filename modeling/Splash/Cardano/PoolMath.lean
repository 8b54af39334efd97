import Splash.Lib.Loop
import Splash.Cardano.Assets

/-!
# Formulas of the pools

How much a pool gives for an input. Constant product pools round down a quotient, weighted pools
take a root and lower the result until the invariant is kept, stable pools solve their invariant by
Newton's method.

* `cfmmQuote_le` — a constant product pool gives no more than its reserves.
-/

namespace Splash.Cardano

open Lib LiquidityBook

/-- Results of computations with decimals of arbitrary precision, and how many iterations of a
numeric loop are waited for. -/
class Numerics where
  /-- The integer part of the `weight`-th root of `invariant / part`. -/
  quoteRoot : (invariant part weight : ℕ) → Exec ℕ
  patience : ℕ

/-! ## Ratios -/

/-- A ratio as it is kept in memory, not necessarily reduced. -/
structure Ratio where
  numer : ℕ
  denom : ℕ
  deriving DecidableEq, Repr

namespace Ratio

def new (numer denom : ℕ) : Exec Ratio :=
  if denom = 0 then .error (.explicit "denominator == 0")
  else .ok ⟨numer / numer.gcd denom, denom / numer.gcd denom⟩

def sub (a b : Ratio) : Exec Ratio := do
  if a.denom = b.denom then
    let numer ← subU64 a.numer b.numer
    new numer b.denom
  else
    let lcm ← fit u64Max (a.denom.lcm b.denom)
    let numerA ← fit u64Max (a.numer * (lcm / a.denom))
    let numerB ← fit u64Max (b.numer * (lcm / b.denom))
    let numer ← subU64 numerA numerB
    new numer lcm

/-- The part of an amount that the ratio makes up. -/
def of (fee : Ratio) (amount : ℕ) : Exec ℕ := do
  let product ← fit u64Max (amount * fee.numer)
  divide product fee.denom

end Ratio

/-! ## Constant product -/

def untouchableLovelaceAmount : ℕ := 3000000

/-- What a constant product pool gives before the native asset is capped. -/
def cfmmQuote (inReserves outReserves amount : ℕ) (fee : Ratio) : Exec ℕ := do
  let numer ← fit u128Max (outReserves * amount * fee.numer)
  let denom ← fit u128Max (inReserves * fee.denom + amount * fee.numer)
  divide numer denom

/-- An output that leaves the untouchable amount of the native asset in the pool. -/
def cappedQuote (outputAsset : AssetClass) (liquidity quote : ℕ) : Exec ℕ := do
  if outputAsset.isNative then
    let amountLeft ← subU64 liquidity quote
    if amountLeft < untouchableLovelaceAmount then subU64 liquidity untouchableLovelaceAmount
    else return quote
  else return quote

def classicCfmmOutputAmount (assetX assetY : AssetClass) (reservesX reservesY : ℕ)
    (baseAsset : AssetClass) (baseAmount : ℕ) (poolFeeX poolFeeY : Ratio) : Exec ℕ := do
  if baseAsset = assetX then
    let quote ← cfmmQuote reservesX reservesY baseAmount poolFeeX
    cappedQuote assetY reservesY quote
  else
    let quote ← cfmmQuote reservesY reservesX baseAmount poolFeeY
    cappedQuote assetX reservesX quote

theorem cfmmQuote_le {inReserves outReserves amount quote : ℕ} {fee : Ratio}
    (h : cfmmQuote inReserves outReserves amount fee = .ok quote) : quote ≤ outReserves := by
  unfold cfmmQuote at h
  obtain ⟨numer, hnumer, h⟩ := Exec.bind_eq_ok.1 h
  obtain ⟨denom, hdenom, h⟩ := Exec.bind_eq_ok.1 h
  obtain ⟨-, rfl⟩ := fit_eq_ok.1 hnumer
  obtain ⟨-, rfl⟩ := fit_eq_ok.1 hdenom
  obtain ⟨-, rfl⟩ := divide_eq_ok.1 h
  refine Nat.div_le_of_le_mul ?_
  calc outReserves * amount * fee.numer = amount * fee.numer * outReserves := by ring
    _ ≤ (inReserves * fee.denom + amount * fee.numer) * outReserves :=
      Nat.mul_le_mul_right _ (Nat.le_add_left _ _)

/-! ## Weighted product -/

def calculateBasePartWithFee (baseReserves baseWeight baseAmount : ℕ) (poolFee : Ratio) :
    Exec ℕ := do
  let added ← divide (baseAmount * poolFee.numer) poolFee.denom
  fit u512Max ((baseReserves + added) ^ baseWeight)

def calculateNewInvariant (baseReserves baseWeight baseAmount quoteReserves quoteWeight
    quoteOutput : ℕ) (poolFee : Ratio) : Exec ℕ := do
  let additionalPart ← poolFee.of baseAmount
  let baseNewPart ← fit u512Max ((baseReserves + additionalPart) ^ baseWeight)
  let quoteLeft ← subU512 quoteReserves quoteOutput
  let quotePart ← fit u512Max (quoteLeft ^ quoteWeight)
  fit u512Max (baseNewPart * quotePart)

def lowerOutput (newInvariant : ℕ → Exec ℕ) (invariant : ℕ) : ℕ → Exec ℕ
  | 0 => do
    if (← newInvariant 0) < invariant then .error .overflow else return 0
  | output + 1 => do
    if (← newInvariant (output + 1)) < invariant then lowerOutput newInvariant invariant output
    else return output + 1

/-- What a weighted pool gives. -/
def balanceQuote [Numerics] (baseReserves baseWeight quoteReserves quoteWeight baseAmount : ℕ)
    (poolFee : Ratio) : Exec ℕ := do
  let invariant ← fit u512Max (baseReserves ^ baseWeight * quoteReserves ^ quoteWeight)
  let baseNewPart ← calculateBasePartWithFee baseReserves baseWeight baseAmount poolFee
  let deltaY ← Numerics.quoteRoot invariant baseNewPart quoteWeight
  let preOutputAmount ← subU64 quoteReserves deltaY
  lowerOutput (calculateNewInvariant baseReserves baseWeight baseAmount quoteReserves quoteWeight ·
    poolFee) invariant preOutputAmount

def balanceCfmmOutputAmount [Numerics] (assetX : AssetClass) (reservesX weightX reservesY
    weightY : ℕ) (baseAsset : AssetClass) (baseAmount : ℕ) (poolFeeX poolFeeY : Ratio) :
    Exec ℕ :=
  if baseAsset = assetX then
    balanceQuote reservesX weightX reservesY weightY baseAmount poolFeeX
  else balanceQuote reservesY weightY reservesX weightX baseAmount poolFeeY

/-! ## Stable swap -/

/-- Runs a numeric loop for as long as it is waited for. -/
def iterate [Numerics] {σ ρ : Type} (step : σ → Exec (Iter σ ρ)) (s : σ) : Exec ρ :=
  (Loop.run step Numerics.patience s).getD (.error .diverged)

def invariantStep (ann s p d : ℕ) : Exec (Iter ℕ ℕ) := do
  let dn1 ← fit u512Max (d * d * d)
  let dP ← divide (dn1 / 4) p
  let dNum ← fit u512Max ((ann * s + 2 * dP) * d)
  let annLess ← subU512 ann 1
  let dDen ← fit u512Max (annLess * d + 3 * dP)
  let next ← divide dNum dDen
  -- the loop goes on as long as the absolute error is at least one
  if next = d then return .done next else return .again next

/-- Is the invariant equation satisfied from above. -/
def calculateInvariantErrorSgn (xCalc yCalc d ann : ℕ) : Exec Bool := do
  let dn1 ← fit u512Max (d * d * d)
  let quotient ← divide dn1 (4 * xCalc * yCalc)
  let invRight ← fit u512Max (d * ann + quotient)
  let invLeft ← fit u512Max (ann * (xCalc + yCalc) + d)
  return invLeft ≤ invRight

def raiseInvariant (xCalc yCalc ann d : ℕ) : Exec (Iter ℕ ℕ) := do
  if ← calculateInvariantErrorSgn xCalc yCalc d ann then return .done d else return .again (d + 1)

def calculateInvariant [Numerics] (xCalc yCalc an2n : ℕ) : Exec (Option ℕ) := do
  if xCalc = 0 ∨ yCalc = 0 ∨ an2n = 0 then return none
  else
    let ann := an2n / 4
    let d ← iterate (invariantStep ann (xCalc + yCalc) (xCalc * yCalc)) (xCalc + yCalc)
    let invErr ← calculateInvariantErrorSgn xCalc yCalc d ann
    let invErrUpper ← calculateInvariantErrorSgn xCalc yCalc (d + 1) ann
    if invErr ∧ ¬ invErrUpper then return some d
    else return some (← iterate (raiseInvariant xCalc yCalc ann) d)

def maxSwapError : ℕ := 2

def checkExactInvariant (quoteMult baseBefore quoteBefore baseAfter quoteAfter d an2n : ℕ) :
    Exec (Option Bool) := do
  let an2nNn ← subU512 an2n 4
  let dn1 ← fit u512Max (d * d * d)
  let prodBefore := baseBefore * quoteBefore
  let betaBefore ← fit u512Max (an2n * prodBefore * (baseBefore + quoteBefore))
  let prodAfter := baseAfter * quoteAfter
  let betaAfter ← fit u512Max (an2n * prodAfter * (baseAfter + quoteAfter))
  let maxQuoteError := maxSwapError * quoteMult
  if maxQuoteError ≤ quoteAfter then
    let quoteShifted := quoteAfter - maxQuoteError
    let prodShifted := baseAfter * quoteShifted
    let betaShifted := an2n * prodShifted * (baseAfter + quoteShifted)
    return some (betaBefore ≤ dn1 + an2nNn * prodBefore * d ∧
      dn1 + an2nNn * prodAfter * d ≤ betaAfter ∧
      betaShifted ≤ dn1 + an2nNn * prodShifted * d)
  else return none

/-- One step of Newton's method for the reserves that are left. -/
def assetToStep (b c d assetTo : ℕ) : Exec (Iter ℕ ℕ) := do
  let numer ← fit u512Max (assetTo * assetTo + c)
  let denom ← subU512 (2 * assetTo + b) d
  let next ← divide numer denom
  if next = assetTo then return .done next else return .again next

/-- Raises the reserves that are left until the invariant is kept, at most `n` times. -/
def raiseAssetTo (valid : ℕ → Exec (Option Bool)) : ℕ → ℕ → Exec (Option ℕ)
  | 0, assetTo => return some assetTo
  | n + 1, assetTo => do
    match ← valid (assetTo + 1) with
    | none => return none
    | some true => return some (assetTo + 1)
    | some false => raiseAssetTo valid n (assetTo + 1)

/-- What a stable pool gives, with both reserves in common units. -/
def stableQuote [Numerics] (baseInitial baseCalc quoteCalc quoteMult an2n : ℕ) :
    Exec (Option ℕ) := do
  match ← calculateInvariant baseInitial quoteCalc an2n with
  | none => return none
  | some d =>
    let ann := an2n / 4
    let b := baseCalc + (← divide d ann)
    let dn1 ← fit u512Max (d * d * d)
    let c ← divide (← divide (dn1 / 4) baseCalc) ann
    let assetTo ← iterate (assetToStep b c d) quoteCalc
    match ← calculateInvariant baseCalc assetTo an2n with
    | none => return none
    | some dNew =>
      let dAfter := if d < dNew then dNew else d
      let valid := (checkExactInvariant quoteMult baseInitial quoteCalc baseCalc · dAfter an2n)
      match ← valid assetTo with
      | none => return none
      | some true => return some assetTo
      | some false => raiseAssetTo valid 255 assetTo

def calcStableSwap [Numerics] (assetX : AssetClass) (reservesX xMult reservesY yMult : ℕ)
    (baseAsset : AssetClass) (baseAmount an2n : ℕ) : Exec (Option ℕ) := do
  if an2n = 0 ∧ xMult = 0 ∧ yMult = 0 then return none
  else
    let (baseReserves, baseMult, quoteReserves, quoteMult) :=
      if baseAsset = assetX then (reservesX, xMult, reservesY, yMult)
      else (reservesY, yMult, reservesX, xMult)
    let quoteCalc ← fit u64Max (quoteReserves * quoteMult)
    let baseInitial ← fit u64Max (baseReserves * baseMult)
    let baseAdded ← fit u64Max (baseAmount * baseMult)
    match ← stableQuote baseInitial (baseInitial + baseAdded) quoteCalc quoteMult an2n with
    | none => return none
    | some assetTo =>
      let delta ← subU512 quoteCalc assetTo
      let output ← divide delta quoteMult
      return some (← fit u64Max output)

end Splash.Cardano
