import Splash.Lib.OrdMap
import Splash.LiquidityBook.Market

/-!
# Matchmaking attempts and recipes

A matchmaking attempt collects the fills of one batch. Fills of the same taker, or of the same
maker, are merged into one transition from the first state to the last one. To become a recipe the
batch is finalized: every make is executed once more as a single swap of the maker's first state,
and what this leaves over goes to a taker on the side that receives it.
-/

namespace Splash.LiquidityBook

open Lib MarketTaker TakerBehaviour
open MarketMaker (liquidity)
open MakerBehavior (swap preservePreviewMetadata)

variable {T M I J U : Type} [MarketTaker T U] [TakerBehaviour T] [MarketMaker M U]
  [MakerBehavior M]

/-! ## Takes -/

namespace TakeInProgress

variable (take : TakeInProgress T)

def remainingInput : ℕ :=
  match take.result with
  | .succ next => input next
  | .term term => term.remainingInput

def accumulatedOutput : ℕ :=
  match take.result with
  | .succ next => output next
  | .term term => term.accumulatedOutput

def removedInput : Exec ℕ :=
  Exec.expect "Input cannot increase" (checkedSub (input take.target) (remainingInput take))

def addedOutput : Exec ℕ :=
  Exec.expect "Output cannot decrease" (checkedSub (accumulatedOutput take) (output take.target))

/-- Adds the excess, charges the operator fee and the budget. -/
def finalized (excess : ℕ) : Exec (TakeInProgress T) := do
  let removedInput ← removedInput take
  let fee := operatorFee take.target removedInput
  let budget : ℤ := consumableBudget take.target
  match take.result with
  | .succ next =>
    let next ← withOutputAdded next excess
    let next ← withFeeCharged next fee
    let (_, next) := withBudgetCorrected next (-budget)
    return ⟨take.target, tryTerminate next⟩
  | .term term =>
    let term ← term.withOutputAdded excess
    let term ← term.withFeeCharged fee
    let (_, term) := term.withBudgetCorrected (-budget)
    return ⟨take.target, .term term⟩

end TakeInProgress

/-! ## Makes -/

/-- What rebalancing of a make leaves over. -/
structure Excess where
  base : ℕ
  quote : ℕ
  deriving DecidableEq, Repr

namespace MakeInProgress

/-- Executes the make as one swap of its target. -/
def finalized (make : MakeInProgress M) : Exec (Option (MakeInProgress M × Excess)) := do
  let target := make.target
  let next := make.result
  match checkedSub (liquidity next).base (liquidity target).base with
  | some tradeInput =>
    let rebalanced ← swap target (.ask tradeInput)
    let rebalanced := preservePreviewMetadata target next rebalanced
    match checkedSub (liquidity next).quote (liquidity rebalanced).quote with
    | some excessQuote => return some (⟨target, rebalanced⟩, ⟨0, excessQuote⟩)
    | none => return none
  | none =>
    match checkedSub (liquidity next).quote (liquidity target).quote with
    | some tradeInput =>
      let rebalanced ← swap target (.bid tradeInput)
      let rebalanced := preservePreviewMetadata target next rebalanced
      match checkedSub (liquidity next).base (liquidity rebalanced).base with
      | some excessBase => return some (⟨target, rebalanced⟩, ⟨excessBase, 0⟩)
      | none => return none
    | none => return none

end MakeInProgress

/-! ## Attempts -/

/-- The fills of one batch. -/
structure MatchmakingAttempt (T M I J U : Type) [LinearOrder I] [LinearOrder J] where
  takes : OrdMap I (TakeInProgress T)
  makes : OrdMap J (MakeInProgress M)
  /-- Takers in the order of their first fill. -/
  ordering : List I
  executionUnitsConsumed : U
  /-- Number of makes merged into an earlier one. -/
  numAggregatedMakes : ℕ

/-- A finalized batch. Its takes and makes are the entries of two hash maps. -/
structure FinalRecipe (T M I J : Type) where
  takes : List (I × TakeInProgress T)
  makes : List (J × MakeInProgress M)
  ordering : List I

/-- What the interpreter executes. -/
structure MatchmakingRecipe (T M : Type) where
  instructions : List (TakeInProgress T ⊕ MakeInProgress M)
  deriving DecidableEq, Repr

namespace MatchmakingRecipe

def takes (recipe : MatchmakingRecipe T M) : List (TakeInProgress T) :=
  recipe.instructions.filterMap Sum.getLeft?

def makes (recipe : MatchmakingRecipe T M) : List (MakeInProgress M) :=
  recipe.instructions.filterMap Sum.getRight?

end MatchmakingRecipe

namespace MatchmakingAttempt

variable [LinearOrder I] [LinearOrder J] [Stable T I] [Stable M J] [Zero U] [Add U]

def empty : MatchmakingAttempt T M I J U where
  takes := .empty
  makes := .empty
  ordering := []
  executionUnitsConsumed := 0
  numAggregatedMakes := 0

variable (a : MatchmakingAttempt T M I J U)

def isComplete : Bool :=
  1 < a.takes.size || (a.takes.size == 1 && 0 < a.makes.size)

def numTakes : ℕ := a.takes.size

/-- A transition that extends an earlier one, when there is one. -/
def merged {X R : Type} (earlier : Option (Trans X R)) (trans : Trans X R) : Trans X R :=
  match earlier with
  | none => trans
  | some existing => existing.combine trans

@[simp] theorem result_merged {X R : Type} (earlier : Option (Trans X R)) (trans : Trans X R) :
    (merged earlier trans).result = trans.result := by
  cases earlier <;> rfl

/-- Records a take; a further fill of a taker extends its earlier take. -/
def addTake (take : TakeInProgress T) :
    MatchmakingAttempt T M I J U :=
  let sid := stableId take.target
  let earlier := a.takes.get? sid
  { a with
    takes := a.takes.insert sid (merged earlier take)
    ordering := if earlier.isNone then a.ordering ++ [sid] else a.ordering
    executionUnitsConsumed :=
      if earlier.isNone then a.executionUnitsConsumed + marginalCostHint take.target
      else a.executionUnitsConsumed }

def addMake (make : MakeInProgress M) :
    MatchmakingAttempt T M I J U :=
  let sid := stableId make.target
  let earlier := a.makes.get? sid
  { a with
    makes := a.makes.insert sid (merged earlier make)
    executionUnitsConsumed :=
      if earlier.isNone then a.executionUnitsConsumed + MarketMaker.marginalCostHint make.target
      else a.executionUnitsConsumed
    numAggregatedMakes :=
      if earlier.isNone then a.numAggregatedMakes else a.numAggregatedMakes + 1 }

section Views

variable {a : MatchmakingAttempt T M I J U} {take : TakeInProgress T} {make : MakeInProgress M}

section

omit [TakerBehaviour T] [MarketMaker M U] [MakerBehavior M] [Stable M J] [Zero U]

@[simp] theorem get?_takes_addTake (id : I) : (a.addTake take).takes.get? id =
    if id = stableId take.target then some (merged (a.takes.get? (stableId take.target)) take)
    else a.takes.get? id :=
  OrdMap.get?_insert ..

theorem takes_addTake_cases {take' : TakeInProgress T} {id : I}
    (h : (a.addTake take).takes.get? id = some take') :
    (id = stableId take.target ∧ take' = merged (a.takes.get? (stableId take.target)) take) ∨
      (id ≠ stableId take.target ∧ a.takes.get? id = some take') := by
  rw [get?_takes_addTake] at h
  split at h
  case isTrue hid => exact .inl ⟨hid, (Option.some.inj h).symm⟩
  case isFalse hid => exact .inr ⟨hid, h⟩

@[simp] theorem makes_addTake : (a.addTake take).makes = a.makes := rfl

end

omit [MarketTaker T U] [TakerBehaviour T] [MakerBehavior M] [Stable T I] [Zero U] in
@[simp] theorem get?_makes_addMake (id : J) : (a.addMake make).makes.get? id =
    if id = stableId make.target then some (merged (a.makes.get? (stableId make.target)) make)
    else a.makes.get? id :=
  OrdMap.get?_insert ..

end Views

def finalizeMakes (excess : Excess) :
    List (J × MakeInProgress M) → Exec (Option (List (J × MakeInProgress M) × Excess))
  | [] => .ok (some ([], excess))
  | (id, make) :: rest => do
    match ← MakeInProgress.finalized make with
    | none => return none
    | some (finalMake, e) =>
      let base ← addU64 excess.base e.base
      let quote ← addU64 excess.quote e.quote
      match ← finalizeMakes ⟨base, quote⟩ rest with
      | none => return none
      | some (balanced, total) => return some ((id, finalMake) :: balanced, total)

/-- Finalizes the takes one by one; the first take of a side gets the whole excess it receives. -/
def finalizeTakes (excess : Excess) :
    List (I × TakeInProgress T) → Exec (List (I × TakeInProgress T) × Excess)
  | [] => .ok ([], excess)
  | (id, take) :: rest => do
    match side take.target with
    | .bid =>
      let finalTake ← TakeInProgress.finalized take excess.base
      let (balanced, left) ← finalizeTakes { excess with base := 0 } rest
      return ((id, finalTake) :: balanced, left)
    | .ask =>
      let finalTake ← TakeInProgress.finalized take excess.quote
      let (balanced, left) ← finalizeTakes { excess with quote := 0 } rest
      return ((id, finalTake) :: balanced, left)

/-- Rebalances the batch; absent when a make cannot be rebalanced or some excess is left. -/
def finalized (ord : HashOrder) (a : MatchmakingAttempt T M I J U) :
    Exec (Option (FinalRecipe T M I J)) := do
  match ← finalizeMakes ⟨0, 0⟩ (ord.arrange a.makes.toList) with
  | none => return none
  | some (makes, excess) =>
    let (takes, left) ← finalizeTakes excess (ord.arrange a.takes.toList)
    if left.base = 0 ∧ left.quote = 0 then return some ⟨takes, makes, a.ordering⟩
    else return none

end MatchmakingAttempt

/-! ## Recipes -/

namespace FinalRecipe

/-- The targets among `takes` that get less than their minimal marginal output. -/
def dissatisfied : List (I × TakeInProgress T) → Exec (List T)
  | [] => .ok []
  | (_, take) :: rest => do
    let addedOutput ← TakeInProgress.addedOutput take
    let others ← dissatisfied rest
    if addedOutput < minMarginalOutput take.target then return take.target :: others
    else return others

def unsatisfiedFragments (ord : HashOrder) (recipe : FinalRecipe T M I J) : Exec (List T) :=
  dissatisfied (ord.arrange recipe.takes)

end FinalRecipe

/-- The outcome of turning a batch into a recipe. -/
inductive Verdict (T M : Type) where
  | recipe (r : MatchmakingRecipe T M)
  | failed
  /-- Takers that require deeper execution than the current recipe provides. -/
  | dissatisfied (takers : List T)
  /-- The recipe turned out to be too expensive for the available budget. -/
  | downgradeNeeded

namespace MatchmakingRecipe

/-- The least ratio of takes to makes, weighed by their budget. -/
def baseTakeToMakeRatio : ℚ≥0 := 1 / 2

def checkRecipeComplexity (recipe : FinalRecipe T M I J) (baseStepBudget : ℕ) : Bool :=
  let numTakes := recipe.takes.length
  let numMakes := recipe.makes.length
  if 0 < numMakes then
    let takesToMakes : ℚ≥0 := (numTakes : ℚ≥0) / numMakes
    let baseBudget := max baseStepBudget 1
    let totalBudget := (recipe.takes.map fun e => consumableBudget e.2.target).sum
    let budgetRatio : ℚ≥0 := (totalBudget : ℚ≥0) / baseBudget
    baseTakeToMakeRatio ≤ takesToMakes * budgetRatio
  else true

variable [LinearOrder I] [LinearOrder J] [Stable T I]

def orderTakes (ordering : List I) (takes : List (TakeInProgress T)) :
    Exec (List (TakeInProgress T)) :=
  if takes.all (stableId ·.target ∈ ordering) then
    .ok (takes.insertionSort fun x y =>
      ordering.idxOf (stableId x.target) ≤ ordering.idxOf (stableId y.target))
  else .error (.explicit "Recipe is inconsistent")

/-- Forms a recipe out of a batch, if the batch is worth executing. -/
def tryFrom (ord : HashOrder) (conf : ExecutionConfig U) (attempt : MatchmakingAttempt T M I J U) :
    Exec (Verdict T M) := do
  if attempt.isComplete then
    match ← attempt.finalized ord with
    | none => return .failed
    | some finalRecipe =>
      let unsatisfied ← finalRecipe.unsatisfiedFragments ord
      if unsatisfied.isEmpty then
        let complexityOk := checkRecipeComplexity finalRecipe conf.baseStepBudget
        let takes ← orderTakes finalRecipe.ordering ((ord.arrange finalRecipe.takes).map Prod.snd)
        let makes := (ord.arrange finalRecipe.makes).map Prod.snd
        if makes.any MakeInProgress.isZero then return .failed
        else if complexityOk then return .recipe ⟨takes.map .inl ++ makes.map .inr⟩
        else return .downgradeNeeded
      else return .dissatisfied unsatisfied
  else return .failed

end MatchmakingRecipe

end Splash.LiquidityBook
