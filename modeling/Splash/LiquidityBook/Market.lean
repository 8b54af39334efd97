import Splash.LiquidityBook.Types

/-!
# Takers and makers

What the book knows of the orders and pools it works with, and how a maker is traded against.
A taker is a discrete fragment of liquidity, an order at one point of its life; a maker is pooled
liquidity.
-/

namespace Splash.LiquidityBook

open Lib

/-- An entity with an identifier that persists among its versions. -/
class Stable (α : Type) (I : outParam Type) where
  stableId : α → I
  /-- Some entities are more stable than others. This flag marks these. -/
  isQuasiPermanent : α → Bool

export Stable (stableId)

/-! ## Takers -/

/-- Discrete fragment of liquidity available at a specified price. -/
class MarketTaker (T : Type) (U : outParam Type) where
  /-- Side of the fragment relative to the pair it maps to. -/
  side : T → Side
  /-- Amount of input asset remaining. -/
  input : T → ℕ
  /-- Amount of output asset accumulated. -/
  output : T → ℕ
  /-- Price of base asset in quote asset. -/
  price : T → AbsolutePrice
  /-- Operator fee for the given part of the input. -/
  operatorFee : T → ℕ → ℕ
  /-- Amount of fee asset reserved as operator premium. -/
  fee : T → ℕ
  consumableBudget : T → ℕ
  /-- How much (approximately) execution of this fragment will cost. -/
  marginalCostHint : T → U
  /-- Minimal amount of output per execution step. -/
  minMarginalOutput : T → ℕ
  timeBounds : T → TimeBounds

/-- Order as a state machine. -/
class TakerBehaviour (T : Type) where
  withAppliedTrade : T → (removedInput addedOutput : ℕ) → Exec (Next T TerminalTake)
  withBudgetCorrected : T → ℤ → ℤ × T
  withFeeCharged : T → ℕ → Exec T
  withOutputAdded : T → ℕ → Exec T
  tryTerminate : T → Next T TerminalTake
  graduatedSplashFeeEligible : T → Bool

/-- The order in which a book keeps its takers, best first. Takers are compared only with takers
of their own side, and a bid compares prices the other way round than an ask. -/
class FrontierOrd (T : Type) where
  cmp : Side → T → T → Ordering
  trans : ∀ s, Std.TransCmp (cmp s)

attribute [instance] FrontierOrd.trans

/-! ## Makers -/

/-- Amounts of the two assets of a pair. -/
structure AbsoluteReserves where
  base : ℕ
  quote : ℕ
  deriving DecidableEq, Repr

/-- What a maker takes and gives in a trade. -/
structure AvailableLiquidity where
  input : ℕ
  output : ℕ
  deriving DecidableEq, Repr

/-- Pooled liquidity. -/
class MarketMaker (M : Type) (U : outParam Type) where
  /-- Static price (regardless of the traded volume) in this pool. -/
  staticPrice : M → Exec AbsolutePrice
  /-- Real price of a swap. -/
  realPrice : M → OnSide ℕ → Exec (Option AbsolutePrice)
  /-- Real price as seen by a specific taker. -/
  effectivePrice : {T V : Type} → [MarketTaker T V] → [TakerBehaviour T] →
    M → T → OnSide ℕ → Exec (Option AbsolutePrice)
  /-- Quality of the pool. -/
  quality : M → ℕ
  /-- How much (approximately) execution of this maker will cost. -/
  marginalCostHint : M → U
  /-- How much base and quote asset is available. -/
  liquidity : M → AbsoluteReserves
  /-- How much is available at the given price or better. -/
  availableLiquidityOnSide : M → OnSide AbsolutePrice → Option AvailableLiquidity
  /-- How much is available for the given input. -/
  estimatedTrade : M → OnSide ℕ → Exec (Option AvailableLiquidity)
  /-- Is this maker active at the moment or not. -/
  isActive : M → Bool

namespace MakeInProgress

variable {M U : Type} [MarketMaker M U]

open MarketMaker (liquidity)

def tradeSide (make : MakeInProgress M) : Option Side :=
  let succ := liquidity make.result
  let init := liquidity make.target
  if succ.base < init.base ∧ init.quote < succ.quote then some .bid
  else if init.base < succ.base ∧ succ.quote < init.quote then some .ask
  else none

def isZero (make : MakeInProgress M) : Bool := (tradeSide make).isNone

def loss (make : MakeInProgress M) : Option (OnSide ℕ) :=
  let succ := liquidity make.result
  let init := liquidity make.target
  ((checkedSub init.base succ.base).map OnSide.bid).or
    ((checkedSub init.quote succ.quote).map OnSide.ask)

end MakeInProgress

/-- Trades `input` of the taker against the maker, by the maker's `swap`. -/
def defaultSwapWithTaker {M U T V : Type} [MarketMaker M U] [MarketTaker T V] [TakerBehaviour T]
    (swap : M → OnSide ℕ → Exec M) (targetTaker : T) (maker : M) (input : OnSide ℕ) :
    Exec (TakeInProgress T × MakeInProgress M) := do
  let nextMaker ← swap maker input
  let make : MakeInProgress M := ⟨maker, nextMaker⟩
  let tradeOutput := ((MakeInProgress.loss make).map OnSide.unwrap).getD 0
  let nextTaker ← TakerBehaviour.withAppliedTrade targetTaker input.unwrap tradeOutput
  return (⟨targetTaker, nextTaker⟩, make)

/-- Pooled liquidity as a state machine. -/
class MakerBehavior (M : Type) {U : outParam Type} [MarketMaker M U] where
  /-- The maker after a swap. -/
  swap : M → OnSide ℕ → Exec M
  /-- Carries what a preview recorded over to the rebalanced maker. -/
  preservePreviewMetadata : (target previewed rebalanced : M) → M
  /-- Trades `input` of a taker against the maker. -/
  swapWithTaker : {T V : Type} → [MarketTaker T V] → [TakerBehaviour T] →
    T → M → OnSide ℕ → Exec (TakeInProgress T × MakeInProgress M)

/-! ## Configuration -/

/-- What a matchmaking attempt may spend. -/
structure ExecutionCap (U : Type) where
  soft : U
  hard : U

structure ExecutionConfig (U : Type) where
  executionCap : ExecutionCap U
  /-- Order-order matchmaking allowed. -/
  o2oAllowed : Bool
  baseStepBudget : ℕ

end Splash.LiquidityBook
