import Splash.Cardano.Classified
import Splash.Cardano.Orders

/-!
# The book of the order book agent

The agent keeps one book for each pair, over orders of any kind and classified pools. To run the
book on given orders and pools, this file also has what a classic pool can take at a price, and
orders and pools to run it on.
-/

namespace Splash.Agent

open Lib LiquidityBook Cardano

abbrev Book := TLBState AnyOrder ClassifiedPool Token

abbrev SettledBook := IdleState AnyOrder ClassifiedPool Token

def settledBook [Numerics] [LiquidityEstimates] (orders : List AnyOrder)
    (pools : List ClassifiedPool) : SettledBook where
  takers := ⟨0, MarketTakers.new.insertAll orders, .empty⟩
  makers := pools.foldl MarketMakers.updatePool .new

/-- A run of an attempt that returns a recipe which passes the check. -/
theorem exists_recipe [Numerics] [LiquidityEstimates] (ord : HashOrder)
    (conf : ExecutionConfig ExUnits) (st : SettledBook) (n : ℕ)
    (check : MatchmakingRecipe AnyOrder ClassifiedPool → Book → Bool)
    (h : Loop.returnsWith (attemptStep (I := Token) ord conf) n (TLBState.idle st).beginAttempt
      (fun r => r.1.any (check · r.2)) = true) :
    ∃ recipe after, (TLBState.idle st).Attempt (I := Token) ord conf (some recipe) after ∧
      check recipe after = true := by
  obtain ⟨⟨o, after⟩, hreturns, hcheck⟩ := Loop.exists_of_returnsWith h
  obtain ⟨recipe, rfl, hcheck⟩ := (Option.any_eq_true _ _).1 hcheck
  exact ⟨recipe, after, hreturns, hcheck⟩

/-- An output that leaves the untouchable amount in the pool, whatever the asset is. -/
def cappedEstimate (reserves output : ℕ) : Option ℕ := do
  let remaining ← checkedSub reserves output
  if remaining ≤ untouchableLovelaceAmount then checkedSub reserves untouchableLovelaceAmount
  else return output

/-- What a classic pool takes and gives until its average price is the worst acceptable one. -/
def availableInClassic (p : ClassicPool) (worstPrice : OnSide AbsolutePrice) :
    Option AvailableLiquidity := do
  let reserves := absoluteReserves p.assetX p.assetY p.reservesX p.reservesY
  let (reservesIn, reservesOut, avgPrice) := match worstPrice with
    | .bid price => (reserves.quote, reserves.base, price⁻¹)
    | .ask price => (reserves.base, reserves.quote, price)
  let fee : ℚ := (p.lpFee.numer : ℚ) / p.lpFee.denom
  let input : ℚ := (fee * reservesOut / avgPrice - reservesIn) / fee
  let output : ℚ := reservesOut - avgPrice / fee * reservesIn
  if 0 ≤ input ∧ 0 ≤ output then
    let capped ← cappedEstimate reservesOut ⌊output⌋₊
    return ⟨⌊input⌋₊, capped⟩
  else none

/-! ## Sample orders and pools -/

namespace Sample

scoped instance : Numerics := ⟨fun _ _ _ => .error .diverged, 255⟩

scoped instance : LiquidityEstimates where
  availableLiquidityOnSide
    | .pureCFMM (.classic p), worstPrice => availableInClassic p worstPrice
    | _, _ => none

def tokenA : AssetClass := .token ⟨1, 0⟩

def tokenB : AssetClass := .token ⟨2, 0⟩

/-- A limit order that pays `amount` for at least `numer / denom` times as much. -/
def order (beacon : ℕ) (inputAsset outputAsset : AssetClass) (amount numer denom : ℕ)
    (minMarginalOutput : ℕ) : AnyOrder :=
  .limit
    { beacon, inputAsset, outputAsset, minMarginalOutput
      inputAmount := amount
      outputAmount := 0
      basePrice := (numer : ℚ≥0) / denom
      executionBudget := 1000000
      fee := 0
      maxCostPerExStep := 500000
      marginalCost := ⟨1, 1⟩ }

def pool (base quote : AssetClass) (reservesX reservesY : ℕ) : ClassifiedPool where
  inner := .pureCFMM (.classic
    { id := ⟨9, 9⟩
      liquidity := 1000000
      assetX := base
      assetY := quote
      assetLq := .token ⟨9, 8⟩
      lpFee := ⟨997, 1000⟩
      lqLowerBound := 0
      ver := .v1
      marginalCost := ⟨1, 1⟩
      bounds := ⟨0, 0⟩
      stakePartScriptHash := none
      reservesX, reservesY })
  origin := .direct
  feeConfig := ⟨false, 0⟩
  pendingOperatorFee := 0

/-- The pool as a graduated one with an operator fee of one percent. -/
def graduated (p : ClassifiedPool) : ClassifiedPool :=
  { p with
    origin := .snekGraduated
    feeConfig := ⟨true, 1⟩ }

def config : ExecutionConfig ExUnits where
  executionCap := ⟨⟨1000, 1000⟩, ⟨1000, 1000⟩⟩
  o2oAllowed := true
  baseStepBudget := 500000

end Sample

end Splash.Agent
