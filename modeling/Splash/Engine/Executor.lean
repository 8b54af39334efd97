import Splash.Engine.Backlog
import Splash.Engine.Transition
import Splash.LiquidityBook.Core

/-!
# The executor

The executor keeps the books and the backlogs of all pairs in line with the events it is told, and
executes what they come up with. It emits one transaction at a time and waits for the feedback on
it: the stream of transactions is polled again only after the feedback of the last one was sent, so
the feedback is the first thing a poll finds.

One iteration of a poll is a `step`: the feedback on the pending transaction, an event of a pair, an
event of a funding box, or a round of matchmaking, which takes place when the state is synced and no
rollback is in progress. Books, interpreters and the prover are parameters (`Env`).
-/

namespace Splash.Engine

open Lib Data LiquidityBook SpecializedOrder

/-! ## Entities and effects -/

/-- An entity paired with a computed version. -/
structure Baked (T V : Type) where
  entity : T
  version : V

/-- Entity bundled with its source. -/
structure Bundled (T B : Type) where
  entity : T
  bearer : B

abbrev EvolvingEntity (T M V B : Type) := Bundled (Baked T V ⊕ Baked M V) B

/-- A ledger output knows its reference. -/
class HasVersion (B : Type) (V : outParam Type) where
  select : B → V

variable {PR T M SO I V B K Bk TX : Type}

instance [Stable T I] [Stable M I] : EntitySnapshot (EvolvingEntity T M V B) I V where
  stableId e := e.entity.elim (fun o => stableId o.entity) fun p => stableId p.entity
  version e := e.entity.elim Baked.version Baked.version
  isQuasiPermanent e := e.entity.elim (fun o => Stable.isQuasiPermanent o.entity)
    fun p => Stable.isQuasiPermanent p.entity

instance [SpecializedOrder SO V I] : SpecializedOrder (Bundled SO B) V I where
  selfRef o := selfRef o.entity
  poolRef o := poolRef o.entity
  weight o := weight o.entity

inductive ExecutionEff (E : Type) where
  | updated (elim upd : E)
  | eliminated (elim : E)

inductive FundingEvent (B : Type) where
  | consumed (bearer : B)
  | produced (bearer : B)
  deriving DecidableEq

/-- What a transaction does with the funding box it was given. -/
inductive FundingIo (B : Type) where
  /-- The box is replaced with a new one. -/
  | replaced (consumed produced : B)
  /-- The box was not used, plus a new one is created. -/
  | added (unused produced : B)
  /-- The box was not used. -/
  | notUsed (unused : B)

def FundingIo.intoEffects : FundingIo B → Option B × List (FundingEvent B)
  | replaced consumed produced => (none, [.consumed consumed, .produced produced])
  | added unused produced => (some unused, [.produced produced])
  | notUsed unused => (some unused, [])

inductive ExecutionEffects (T M SO V B : Type) where
  | fromLiquidityBook (effects : List (ExecutionEff (EvolvingEntity T M V B)))
  | fromBacklog (updatedPool : Bundled (Baked M V) B) (consumedOrd : Bundled SO B)

structure Effects (PR T M SO V B : Type) where
  pair : PR
  consumedVersions : List V
  execution : ExecutionEffects T M SO V B
  funding : List (FundingEvent B)

/-! ## Pairs to process -/

/-- A queue of pairs without repetition. -/
structure FocusSet (PR : Type) where
  queue : List PR
  filter : Finset PR

namespace FocusSet

variable [DecidableEq PR]

def new : FocusSet PR := ⟨[], ∅⟩

def pushBack (f : FocusSet PR) (a : PR) : FocusSet PR :=
  if a ∈ f.filter then f else ⟨f.queue ++ [a], insert a f.filter⟩

def popFront (f : FocusSet PR) : Option (PR × FocusSet PR) :=
  match f.queue with
  | [] => none
  | a :: queue => some (a, ⟨queue, f.filter.erase a⟩)

end FocusSet

/-! ## The environment -/

/-- A linked recipe: the targets of its instructions come with their sources. -/
abbrev ExecutionRecipe (T M B : Type) :=
  List (Trans (Bundled T B) (Next T TerminalTake) ⊕ Trans (Bundled M B) M)

/-- What an interpreter makes of a recipe. -/
structure ExecutionResult (T M V B TX : Type) where
  tx : TX
  matchmakingEffects : List (ExecutionEff (EvolvingEntity T M V B))
  fundingIo : FundingIo B

structure BookOps (Bk T M : Type) where
  attempt : Bk → Exec (Option (MatchmakingRecipe T M) × Bk)
  onRecipeSucceeded : Bk → Bk
  onRecipeFailed : Bk → Bk
  updateTaker : T → Bk → Exec Bk
  removeTaker : T → Bk → Exec Bk
  updateMaker : M → Bk → Exec Bk
  removeMaker : M → Bk → Exec Bk

/-- What the executor is instantiated with. -/
structure Env (PR T M SO V B Bk TX : Type) where
  ord : HashOrder
  makeBook : PR → Bk
  backlogCapacity : ℕ
  book : BookOps Bk T M
  tradeInterpreter : ExecutionRecipe T M B → B → ExecutionResult T M V B TX
  specInterpreter : Bundled M B → Bundled SO B →
    Option (TX × Bundled (Baked M V) B × Bundled SO B)

/-- The interpreter of specialized orders: runs the order on its pool, the order itself is what
is consumed. -/
def viaRunOrder (tryRun : Bundled M B → Bundled SO B → Option (TX × Bundled (Baked M V) B))
    (pool : Bundled M B) (order : Bundled SO B) :
    Option (TX × Bundled (Baked M V) B × Bundled SO B) :=
  (tryRun pool order).map fun r => (r.1, r.2, order)

/-- Why the executor stopped. -/
inductive Fault (V : Type) where
  /-- A book panicked in an attempt. -/
  | attempt (p : Panic)
  /-- A book panicked when it was mutated externally. -/
  | externalMutation (p : Panic)
  /-- "Detected state inconsistency while invalidating". -/
  | stateInconsistency (unknownBearers : List V)
  /-- An order became out of a pool. -/
  | unreachable

/-! ## The state -/

variable [LinearOrder PR] [LinearOrder V] [LinearOrder B] [LinearOrder K]

structure Executor (PR T M SO V B K Bk : Type) [LinearOrder PR] [LinearOrder V] [LinearOrder B]
    [LinearOrder K] where
  /-- Storage for all on-chain states, and the versions that were processed already. -/
  states : States (EvolvingEntity T M V B) V K
  /-- Separate books for each pair. -/
  multiBook : OrdMap PR Bk
  /-- Separate backlogs for each pair. -/
  multiBacklog : OrdMap PR (HotPriorityBacklog (Bundled SO B) V)
  fundingPool : OrdSet (compare (α := B))
  /-- Effects of the transaction whose feedback is awaited. -/
  pendingEffects : Option (Effects PR T M SO V B)
  focusSet : FocusSet PR

namespace Executor

def new : Executor PR T M SO V B K Bk where
  states := ⟨.new, .new⟩
  multiBook := .empty
  multiBacklog := .empty
  fundingPool := .empty
  pendingEffects := none
  focusSet := .new

variable (env : Env PR T M SO V B Bk TX) (s : Executor PR T M SO V B K Bk)

section

variable (pair : PR) (tr : Option (Ior (EvolvingEntity T M V B) (EvolvingEntity T M V B)))

def bookOf : Bk := (s.multiBook.get? pair).getD (env.makeBook pair)

def setBook (book : Bk) : Executor PR T M SO V B K Bk :=
  { s with multiBook := s.multiBook.insert pair book }

def backlogOf : HotPriorityBacklog (Bundled SO B) V :=
  (s.multiBacklog.get? pair).getD (.new env.backlogCapacity)

def setBacklog (backlog : HotPriorityBacklog (Bundled SO B) V) : Executor PR T M SO V B K Bk :=
  { s with multiBacklog := s.multiBacklog.insert pair backlog }

def mutateBook (f : Bk → Exec Bk) : Except (Fault V) (Executor PR T M SO V B K Bk) :=
  match f (s.bookOf env pair) with
  | .ok book => .ok (s.setBook pair book)
  | .error p => .error (.externalMutation p)

/-! ## Books and backlogs in line with the events -/

def syncBook : Ior (EvolvingEntity T M V B) (EvolvingEntity T M V B) →
      Except (Fault V) (Executor PR T M SO V B K Bk)
  | .left ⟨.inl o, _⟩ => s.mutateBook env pair (env.book.removeTaker o.entity)
  | .left ⟨.inr p, _⟩ => s.mutateBook env pair (env.book.removeMaker p.entity)
  | .both ⟨.inl old, _⟩ ⟨.inl new, _⟩ => do
    let s ← s.mutateBook env pair (env.book.removeTaker old.entity)
    s.mutateBook env pair (env.book.updateTaker new.entity)
  | .both _ ⟨.inr new, _⟩ => s.mutateBook env pair (env.book.updateMaker new.entity)
  | .both ⟨.inr _, _⟩ ⟨.inl _, _⟩ => .error .unreachable
  | .right ⟨.inl new, _⟩ => s.mutateBook env pair (env.book.updateTaker new.entity)
  | .right ⟨.inr new, _⟩ => s.mutateBook env pair (env.book.updateMaker new.entity)

/-- Applies a determined transition to the book of a pair. -/
def syncTransition : Except (Fault V) (Executor PR T M SO V B K Bk) :=
  tr.elim (.ok s) (s.syncBook env pair)

end

section Handlers

variable [RawId I K] [Stable T I] [Stable M I] [SpecializedOrder SO V I] [HasVersion B V]

def invalidateVersion (pair : PR) (ver : V) :
    Except (Fault V) (Executor PR T M SO V B K Bk × Bool) :=
  match s.states.index.getState ver with
  | none => return (s, false)
  | some state => do
    let id := EntitySnapshot.stableId state
    let index := s.states.index.invalidateVersion ver
    let tr := toTransition (resolveState id s.states.index) (resolveState id index)
    let s ← { s with states := { s.states with index } }.syncTransition env pair tr
    return (s, true)

def invalidateVersions (pair : PR) : List V → Executor PR T M SO V B K Bk →
    Except (Fault V) (Executor PR T M SO V B K Bk × List V)
  | [], s => return (s, [])
  | ver :: versions, s => do
    let (s, known) ← s.invalidateVersion env pair ver
    let (s, missing) ← invalidateVersions pair versions s
    return (s, if known then missing else ver :: missing)

/-- Takes note of a transition of an entity and brings the book in line with it. -/
def processTransition (pair : PR) (channel : Channel)
    (upd : Transition (EvolvingEntity T M V B)) :
    Except (Fault V) (Executor PR T M SO V B K Bk) :=
  let (states, tr) := s.states.updateState channel upd
  { s with states }.syncTransition env pair tr

def onEntityProcessed (ver : V) : Executor PR T M SO V B K Bk :=
  { s with states := { s.states with skipFilter := (s.states.skipFilter.add ver).1 } }

/-! ## Feedback -/

def applyEffect (pair : PR) :
    ExecutionEff (EvolvingEntity T M V B) → Except (Fault V) (Executor PR T M SO V B K Bk)
  | .updated elim upd =>
    (s.onEntityProcessed (EntitySnapshot.version elim)).processTransition env pair .localTxSubmit
      (.forward (.both elim upd))
  | .eliminated elim =>
    (s.onEntityProcessed (EntitySnapshot.version elim)).processTransition env pair .localTxSubmit
      (.forward (.left elim))

def applyEffects (pair : PR) : List (ExecutionEff (EvolvingEntity T M V B)) →
    Executor PR T M SO V B K Bk → Except (Fault V) (Executor PR T M SO V B K Bk)
  | [], s => return s
  | eff :: effects, s => do
    let s ← s.applyEffect env pair eff
    applyEffects pair effects s

def onExecutionEffectsSuccess (eff : Effects PR T M SO V B) :
    Except (Fault V) (Executor PR T M SO V B K Bk) :=
  match eff.execution with
  | .fromLiquidityBook effects =>
    -- the effects are popped from the end
    (s.setBook eff.pair (env.book.onRecipeSucceeded (s.bookOf env eff.pair))).applyEffects env
      eff.pair effects.reverse
  | .fromBacklog newPool consumedOrd =>
    let s := s.onEntityProcessed (selfRef consumedOrd)
    let (states, _) := s.states.updateState .localTxSubmit
      (.forward (.right ⟨.inr newPool.entity, newPool.bearer⟩))
    return { s with states }

def consumedOrders (effects : List (ExecutionEff (EvolvingEntity T M V B))) : List T :=
  effects.filterMap fun
    | .updated ⟨.inl o, _⟩ _ | .eliminated ⟨.inl o, _⟩ => some o.entity
    | .updated ⟨.inr _, _⟩ _ | .eliminated ⟨.inr _, _⟩ => none

def removeTakers (pair : PR) : List T → Executor PR T M SO V B K Bk →
    Except (Fault V) (Executor PR T M SO V B K Bk)
  | [], s => return s
  | t :: takers, s => do
    let s ← s.mutateBook env pair (env.book.removeTaker t)
    removeTakers pair takers s

def failRecipe (pair : PR) : Executor PR T M SO V B K Bk :=
  s.setBook pair (env.book.onRecipeFailed (s.bookOf env pair))

/-- Returns a consumed order to its backlog, or evicts it when it is reported missing. -/
def returnOrder (pair : PR) (missingInputs : List V) (order : Bundled SO B) :
    Executor PR T M SO V B K Bk :=
  let id := selfRef order
  let backlog := s.backlogOf env pair
  s.setBacklog pair (if missingInputs.contains id then backlog.softEvict id else backlog.put order)

/-- Invalidates the consumed versions that are reported missing. -/
def invalidateMissing (eff : Effects PR T M SO V B) (missingInputs : List V) :
    Except (Fault V) (Executor PR T M SO V B K Bk × List V) :=
  invalidateVersions env eff.pair
    (env.ord.arrange (missingInputs.dedup.filter eff.consumedVersions.contains)) s

/-- The transaction was rejected, `missing` holds the inputs that are missing if this was the
reason. -/
def onExecutionEffectsFailure (missing : Option (List V)) (eff : Effects PR T M SO V B) :
    Except (Fault V) (Executor PR T M SO V B K Bk) :=
  match missing, eff.execution with
  | some missingInputs, .fromLiquidityBook _ => do
    let (s, unknown) ← (s.failRecipe env eff.pair).invalidateMissing env eff missingInputs
    if unknown ≠ [] then throw (.stateInconsistency unknown)
    return s
  | some missingInputs, .fromBacklog _ order => do
    let (s, _) ← (s.returnOrder env eff.pair missingInputs order).invalidateMissing env eff
      missingInputs
    return s
  | none, .fromLiquidityBook effects =>
    -- the orders are potentially poisonous
    removeTakers env eff.pair (consumedOrders effects) (s.failRecipe env eff.pair)
  | none, .fromBacklog _ order => return s.returnOrder env eff.pair [] order

def onFundingEffectsSuccess (effects : List (FundingEvent B)) : Executor PR T M SO V B K Bk :=
  { s with
    fundingPool := effects.reverse.foldl (fun pool eff =>
      match eff with
      | .consumed _ => pool
      | .produced funding => pool.insert funding) s.fundingPool }

def onFundingEffectsFailure (missing : Option (List V)) (effects : List (FundingEvent B)) :
    Executor PR T M SO V B K Bk :=
  { s with
    fundingPool := effects.reverse.foldl (fun pool eff =>
      match eff with
      | .produced _ => pool
      | .consumed funding =>
        if (missing.getD []).contains (HasVersion.select funding) then pool else pool.insert funding)
      s.fundingPool }

/-- Result of the submission of a transaction. -/
inductive Feedback (V : Type) where
  | accepted
  | rejected (missing : Option (List V))

def onFeedback (feedback : Feedback V) : Except (Fault V) (Executor PR T M SO V B K Bk) :=
  match s.pendingEffects with
  | none => return s
  | some eff =>
    let s := { s with pendingEffects := none }
    match feedback with
    | .accepted => do
      let s ← s.onExecutionEffectsSuccess env eff
      return s.onFundingEffectsSuccess eff.funding
    | .rejected missing => do
      let s ← s.onExecutionEffectsFailure env missing eff
      return s.onFundingEffectsFailure missing eff.funding

/-! ## Events -/

inductive OrderUpdate (SO B : Type) where
  | created (order : Bundled SO B)
  | eliminated (order : SO)

inductive PairEvent (T M SO V B : Type) where
  | entity (channel : Channel) (upd : Transition (EvolvingEntity T M V B))
  | order (channel : Channel) (upd : OrderUpdate SO B)

def syncBacklog (pair : PR) (channel : Channel) :
    OrderUpdate SO B → Executor PR T M SO V B K Bk
  | .created newOrder =>
    if s.states.skipFilter.contains (selfRef newOrder) then s
    else s.setBacklog pair ((s.backlogOf env pair).put newOrder)
  | .eliminated elimOrder =>
    let id := selfRef elimOrder
    let backlog := s.backlogOf env pair
    s.setBacklog pair (if channel = .ledger then backlog.remove id else backlog.softEvict id)

def syncEvent (pair : PR) :
    PairEvent T M SO V B → Except (Fault V) (Executor PR T M SO V B K Bk)
  | .entity channel upd => s.processTransition env pair channel upd
  | .order channel upd => .ok (s.syncBacklog env pair channel upd)

def onPairEvent (pair : PR) (event : PairEvent T M SO V B) :
    Except (Fault V) (Executor PR T M SO V B K Bk) := do
  let s ← s.syncEvent env pair event
  return { s with focusSet := s.focusSet.pushBack pair }

def onFundingEvent : FundingEvent B → Executor PR T M SO V B K Bk
  | .consumed bearer => { s with fundingPool := s.fundingPool.erase bearer }
  | .produced bearer => { s with fundingPool := s.fundingPool.insert bearer }

/-! ## Matchmaking -/

/-- The version and the source of the resolved state of an entity. -/
def resolved (id : I) : Option (V × B) :=
  (resolveState id s.states.index).map fun e => (EntitySnapshot.version e, e.bearer)

/-- A target that is not linked to its source. -/
abbrev Orphan (T M : Type) := T ⊕ M

/-- Links the instructions of a recipe to the sources of their targets: what was linked, the
consumed versions, and the targets that have no source. -/
def linkAll : List (TakeInProgress T ⊕ MakeInProgress M) →
    ExecutionRecipe T M B × List V × List (Orphan T M)
  | [] => ([], [], [])
  | .inl take :: rest =>
    let (linked, consumed, orphans) := linkAll rest
    (s.resolved (stableId take.target)).elim (linked, consumed, .inl take.target :: orphans)
      fun r => (.inl ⟨⟨take.target, r.2⟩, take.result⟩ :: linked, r.1 :: consumed, orphans)
  | .inr make :: rest =>
    let (linked, consumed, orphans) := linkAll rest
    (s.resolved (stableId make.target)).elim (linked, consumed, .inr make.target :: orphans)
      fun r => (.inr ⟨⟨make.target, r.2⟩, make.result⟩ :: linked, r.1 :: consumed, orphans)

def removeOrphans (pair : PR) : List (Orphan T M) → Executor PR T M SO V B K Bk →
    Except (Fault V) (Executor PR T M SO V B K Bk)
  | [], s => return s
  | .inl taker :: orphans, s => do
    let s ← s.mutateBook env pair (env.book.removeTaker taker)
    removeOrphans pair orphans s
  | .inr maker :: orphans, s => do
    let s ← s.mutateBook env pair (env.book.removeMaker maker)
    removeOrphans pair orphans s

def onLinkageFailure (pair : PR) (orphans : List (Orphan T M)) :
    Except (Fault V) (Executor PR T M SO V B K Bk) :=
  removeOrphans env pair orphans (s.failRecipe env pair)

/-- Hands a linked recipe and a funding box to the interpreter. -/
def emitTrade (pair : PR) (linked : ExecutionRecipe T M B) (consumedVersions : List V)
    (funding : B) : Executor PR T M SO V B K Bk × TX :=
  let result := env.tradeInterpreter linked funding
  let (unused, effects) := result.fundingIo.intoEffects
  ({ s with
      fundingPool := unused.elim (s.fundingPool.erase funding)
        (s.fundingPool.erase funding).insert
      pendingEffects := some ⟨pair, consumedVersions.dedup,
        .fromLiquidityBook result.matchmakingEffects, effects⟩
      focusSet := s.focusSet.pushBack pair },
    result.tx)

def executeRecipe (pair : PR) (recipe : MatchmakingRecipe T M) :
    Except (Fault V) (Executor PR T M SO V B K Bk × Option TX) :=
  match s.linkAll recipe.instructions with
  | (linked, consumedVersions, []) =>
    match s.fundingPool.first? with
    | some funding =>
      let (s, tx) := s.emitTrade env pair linked consumedVersions funding
      return (s, some tx)
    -- cannot matchmake without funding box
    | none => return (s.failRecipe env pair, none)
  | (_, _, orphans) => do
    let s ← s.onLinkageFailure env pair orphans
    return (s, none)

def tryBook (pair : PR) : Except (Fault V) (Executor PR T M SO V B K Bk × Option TX) :=
  match env.book.attempt (s.bookOf env pair) with
  | .error p => throw (.attempt p)
  | .ok (none, book) => return (s.setBook pair book, none)
  | .ok (some recipe, book) => (s.setBook pair book).executeRecipe env pair recipe

def resolvedPool (order : Bundled SO B) : Option (Bundled (Baked M V) B) :=
  (resolveState (poolRef order) s.states.index).bind fun
    | ⟨.inr pool, bearer⟩ => some ⟨pool, bearer⟩
    | ⟨.inl _, _⟩ => none

def executeOrder (pair : PR) (order : Bundled SO B) :
    Executor PR T M SO V B K Bk × Option TX :=
  ((s.resolvedPool order).bind fun pool =>
    (env.specInterpreter ⟨pool.entity.entity, pool.bearer⟩ order).map fun
      (tx, updatedPool, consumedOrd) =>
        ({ s with
            pendingEffects := some ⟨pair,
              [pool.entity.version, selfRef consumedOrd].dedup,
              .fromBacklog updatedPool consumedOrd, []⟩
            focusSet := s.focusSet.pushBack pair }, some tx)).getD (s, none)

def tryBacklog (pair : PR) : Executor PR T M SO V B K Bk × Option TX :=
  let (order, backlog) := (s.backlogOf env pair).tryPop env.ord
  order.elim (s.setBacklog pair backlog, none) ((s.setBacklog pair backlog).executeOrder env pair)

/-- The turn of a pair: its book first, then its backlog. -/
def takeTurn (pair : PR) : Except (Fault V) (Executor PR T M SO V B K Bk × Option TX) := do
  let (s, tx) ← s.tryBook env pair
  if tx.isSome then return (s, tx)
  return s.tryBacklog env pair

/-- Pops pairs until one of them has a transaction to emit, at most `n` pairs. -/
def matchmakeLoop : ℕ → Executor PR T M SO V B K Bk →
    Except (Fault V) (Executor PR T M SO V B K Bk × Option TX)
  | 0, s => return (s, none)
  | n + 1, s =>
    match s.focusSet.popFront with
    | none => return (s, none)
    | some (pair, focusSet) => do
      let (s, tx) ← { s with focusSet }.takeTurn env pair
      if tx.isSome then return (s, tx)
      matchmakeLoop n s

def matchmake : Except (Fault V) (Executor PR T M SO V B K Bk × Option TX) :=
  matchmakeLoop env s.focusSet.queue.length s

/-! ## Steps -/

/-- What an iteration of a poll finds. -/
inductive Input (PR T M SO V B : Type) where
  | feedback (feedback : Feedback V)
  | pairEvent (pair : PR) (event : PairEvent T M SO V B)
  | fundingEvent (event : FundingEvent B)
  | matchmake

def step : Input PR T M SO V B →
    Except (Fault V) (Executor PR T M SO V B K Bk × Option TX)
  | .feedback feedback => do
    let s ← s.onFeedback env feedback
    return (s, none)
  | .pairEvent pair event => do
    let s ← s.onPairEvent env pair event
    return (s, none)
  | .fundingEvent event => return (s.onFundingEvent event, none)
  | .matchmake => s.matchmake env

/-- The feedback on an emitted transaction comes before anything else. -/
def Expects : Input PR T M SO V B → Prop
  | .feedback _ => s.pendingEffects.isSome = true
  | _ => s.pendingEffects = none

/-- `Reaches env s₀ s`: steps lead from `s₀` to `s`. -/
inductive Reaches (env : Env PR T M SO V B Bk TX) (s₀ : Executor PR T M SO V B K Bk) :
    Executor PR T M SO V B K Bk → Prop where
  | refl : Reaches env s₀ s₀
  | step {s s' : Executor PR T M SO V B K Bk} {input : Input PR T M SO V B} {tx : Option TX}
      (hreach : Reaches env s₀ s) (hexpects : s.Expects input)
      (hstep : s.step env input = .ok (s', tx)) : Reaches env s₀ s'

/-- `ReachesVia env allowed s₀ s`: steps with allowed inputs lead from `s₀` to `s`. -/
inductive ReachesVia (env : Env PR T M SO V B Bk TX)
    (allowed : Executor PR T M SO V B K Bk → Input PR T M SO V B → Prop)
    (s₀ : Executor PR T M SO V B K Bk) : Executor PR T M SO V B K Bk → Prop where
  | refl : ReachesVia env allowed s₀ s₀
  | step {s s' : Executor PR T M SO V B K Bk} {input : Input PR T M SO V B} {tx : Option TX}
      (hreach : ReachesVia env allowed s₀ s) (hexpects : s.Expects input)
      (hallowed : allowed s input) (hstep : s.step env input = .ok (s', tx)) :
      ReachesVia env allowed s₀ s'

variable {env : Env PR T M SO V B Bk TX} {inputs : List (Input PR T M SO V B)}
  {s₀ s s' : Executor PR T M SO V B K Bk}

theorem ReachesVia.reaches {allowed : Executor PR T M SO V B K Bk → Input PR T M SO V B → Prop}
    (h : ReachesVia env allowed s s')
    (hreach : Reaches env s₀ s) : Reaches env s₀ s' := by
  induction h with
  | refl => exact hreach
  | step _ hexpects _ hstep ih => exact .step ih hexpects hstep

instance (s : Executor PR T M SO V B K Bk) (input : Input PR T M SO V B) :
    Decidable (s.Expects input) :=
  match input with
  | .feedback _ => inferInstanceAs (Decidable (s.pendingEffects.isSome = true))
  | .pairEvent _ _ | .fundingEvent _ | .matchmake =>
    decidable_of_iff (s.pendingEffects.isNone = true) Option.isNone_iff_eq_none

def steps (env : Env PR T M SO V B Bk TX) :
    List (Input PR T M SO V B) → Executor PR T M SO V B K Bk → Option (Executor PR T M SO V B K Bk)
  | [], s => some s
  | input :: inputs, s =>
    if s.Expects input then (s.step env input).toOption.bind fun r => steps env inputs r.1 else none

theorem steps_cons {input : Input PR T M SO V B} {s s' : Executor PR T M SO V B K Bk}
    (h : steps env (input :: inputs) s = some s') :
    ∃ s₁ tx, s.Expects input ∧ s.step env input = .ok (s₁, tx) ∧ steps env inputs s₁ = some s' := by
  rw [steps] at h
  split at h
  · next hexpects =>
    cases hstep : s.step env input with
    | error e =>
      rw [hstep] at h
      cases h
    | ok r =>
      rw [hstep] at h
      exact ⟨r.1, r.2, hexpects, rfl, h⟩
  · cases h

theorem reaches_of_steps (hreach : Reaches env s₀ s)
    (h : steps env inputs s = some s') : Reaches env s₀ s' := by
  induction inputs generalizing s with
  | nil =>
    cases h
    exact hreach
  | cons input inputs ih =>
    obtain ⟨s₁, tx, hexpects, hstep, h⟩ := steps_cons h
    exact ih (.step hreach hexpects hstep) h

theorem exists_of_steps (env : Env PR T M SO V B Bk TX) (inputs : List (Input PR T M SO V B))
    (check : Executor PR T M SO V B K Bk → Bool) (h : (steps env inputs new).any check = true) :
    ∃ s, Reaches env new s ∧ check s = true := by
  obtain ⟨s, hs, hcheck⟩ := (Option.any_eq_true _ _).1 h
  exact ⟨s, reaches_of_steps .refl hs, hcheck⟩

end Handlers

end Executor

end Splash.Engine
