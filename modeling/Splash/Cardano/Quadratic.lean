import Splash.Cardano.Pools

/-!
# Quadratic pools

Pools that sell a fixed emission of a token along a curve until a cap is reached. A pool of two
tokens also keeps a fee of asset `x`, from the input or from the output of a trade.

* `QuadraticPool.swap_spec` — a swap changes the reserves, and the kept fee of a pool of two tokens.
-/

namespace Splash.Cardano

open Lib LiquidityBook Exec

def minAda : ℕ := 3000000

def tokenEmission : ℕ := 1000000000

def t2tFeeNum : ℕ := 1

def t2tFeeDenom : ℕ := 100

/-- Results of computations with decimals of arbitrary precision on the curve. -/
class CurveNumerics where
  /-- The integer part of what the curve gives for an input of `x`, or of the token. -/
  curveOutput : (paysX : Bool) → (supply amount aNum bNum : ℕ) → Exec ℕ

def degenQuadraticOutputAmount [CurveNumerics] (assetX : AssetClass) (reservesY : ℕ)
    (baseAsset : AssetClass) (baseAmount aNum bNum : ℕ) : Exec ℕ := do
  let supply ← subU64 tokenEmission reservesY
  CurveNumerics.curveOutput (baseAsset = assetX) supply baseAmount aNum bNum

inductive QuadraticPoolVer where
  | v1
  | v1T2T
  deriving DecidableEq, Repr

/-- A pool that sells a token along a curve. -/
structure QuadraticPool where
  id : Token
  reservesX : ℕ
  reservesY : ℕ
  assetX : AssetClass
  assetY : AssetClass
  aNum : ℕ
  bNum : ℕ
  capThr : ℕ
  ver : QuadraticPoolVer
  accumulatedXFee : ℕ
  xFeeNum : ℕ
  marginalCost : ExUnits
  bounds : PoolValidation
  virgin : Bool
  capped : Bool
  deriving DecidableEq

namespace QuadraticPool

def adjustedXInput (xFeeNum input : ℕ) : Exec ℕ := do
  let inputNum ← subU64 t2tFeeDenom xFeeNum
  let product ← fit u64Max (input * inputNum)
  subU64 (product / t2tFeeDenom) (if product % t2tFeeDenom = 0 then 2 else 1)

def adjustXOutput (xFeeNum output : ℕ) : Exec ℕ := do
  let outputNum ← subU64 t2tFeeDenom xFeeNum
  let product ← fit u64Max (output * outputNum)
  subU64 (product / t2tFeeDenom) (if product % t2tFeeDenom = 0 then 1 else 0)

def adjustXFee (xFeeNum input : ℕ) : Exec ℕ := do
  let product ← fit u64Max (input * xFeeNum)
  addU64 (product / t2tFeeDenom) (if product % t2tFeeDenom = 0 then 0 else 1)

variable (p : QuadraticPool)

def liquidity : AbsoluteReserves :=
  absoluteReserves p.assetX p.assetY p.reservesX p.reservesY

section

variable (input : OnSide ℕ) (candidate : ℕ)

/-- A trade whose fee is taken from the input. -/
def feeFromInput : Bool :=
  inputAsset p.assetX p.assetY input = p.assetX

/-- The output that is given of a candidate by a pool that keeps lovelace. -/
def safeOutput : Exec ℕ := do
  match input with
  | .bid _ =>
    if (← addU64 candidate minAda) ≤ p.liquidity.base then return candidate
    else return p.liquidity.base
  | .ask _ => return min candidate p.liquidity.quote

/-- The output that is given of a candidate by a pool of two tokens. -/
def safeOutputT2T : ℕ :=
  match input with
  | .bid _ => candidate
  | .ask _ => min candidate p.liquidity.quote

def swappedInput : Exec ℕ :=
  if p.feeFromInput input then adjustedXInput p.xFeeNum input.unwrap else .ok input.unwrap

def paidOutput (output : ℕ) : Exec ℕ :=
  if p.feeFromInput input then .ok output else adjustXOutput p.xFeeNum output

end

section Swap

variable [CurveNumerics]

section

variable (p : QuadraticPool) (input : OnSide ℕ)

def outputAmount (baseAsset : AssetClass) (baseAmount : ℕ) : Exec ℕ :=
  degenQuadraticOutputAmount p.assetX p.reservesY baseAsset baseAmount p.aNum p.bNum

def swapV1 : Exec QuadraticPool := do
  let candidate ← p.outputAmount (inputAsset p.assetX p.assetY input) input.unwrap
  let output ← p.safeOutput input candidate
  let (reservesX, reservesY) ← exchange p.assetX p.assetY p.reservesX p.reservesY input output
  return { p with reservesX, reservesY }

def swapT2T : Exec QuadraticPool := do
  let adjustedInput ← p.swappedInput input
  let candidate ← p.outputAmount (inputAsset p.assetX p.assetY input) adjustedInput
  let output := p.safeOutputT2T input candidate
  let fee ← adjustXFee p.xFeeNum (if p.feeFromInput input then input.unwrap else output)
  let accumulatedXFee ← addU64 p.accumulatedXFee fee
  let paidOut ← p.paidOutput input output
  let (reservesX, reservesY) ← exchange p.assetX p.assetY p.reservesX p.reservesY input paidOut
  return { p with reservesX, reservesY, accumulatedXFee }

def swap : Exec QuadraticPool :=
  match p.ver with
  | .v1 => p.swapV1 input
  | .v1T2T => p.swapT2T input

end

theorem swap_spec {p p' : QuadraticPool} {input : OnSide ℕ} (h : p.swap input = .ok p') :
    ∃ reservesX reservesY accumulatedXFee,
      p' = { p with reservesX, reservesY, accumulatedXFee } ∧
      (p.ver = .v1 → accumulatedXFee = p.accumulatedXFee) := by
  unfold swap at h
  split at h
  · unfold swapV1 at h
    obtain ⟨candidate, -, h⟩ := bind_eq_ok.1 h
    obtain ⟨output, -, h⟩ := bind_eq_ok.1 h
    obtain ⟨⟨reservesX, reservesY⟩, -, h⟩ := bind_eq_ok.1 h
    cases h
    exact ⟨reservesX, reservesY, p.accumulatedXFee, rfl, fun _ => rfl⟩
  · next hver =>
    unfold swapT2T at h
    obtain ⟨adjusted, -, h⟩ := bind_eq_ok.1 h
    obtain ⟨candidate, -, h⟩ := bind_eq_ok.1 h
    obtain ⟨fee, -, h⟩ := bind_eq_ok.1 h
    obtain ⟨accumulated, -, h⟩ := bind_eq_ok.1 h
    obtain ⟨paidOut, -, h⟩ := bind_eq_ok.1 h
    obtain ⟨⟨reservesX, reservesY⟩, -, h⟩ := bind_eq_ok.1 h
    cases h
    exact ⟨reservesX, reservesY, accumulated, rfl, fun hv => nomatch hver.symm.trans hv⟩

end Swap

end QuadraticPool

end Splash.Cardano
