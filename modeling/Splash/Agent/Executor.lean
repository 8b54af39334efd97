import Splash.Agent.Book
import Splash.Engine.Focus
import Splash.Engine.Funding

/-!
# The executor of the order book agent

The executor over the books of the agent, for one pair. Outputs are numbers, and their versions are
the outputs themselves. The interpreter turns the instructions of a recipe into outputs that are
numbered after the funding box, which it replaces by the next one.

* `fundsTrades_agentEnv`, `not_hasRecipe_agentEnv` — what results about the executor ask of its
  environment.
* `lateProduced_returns` — a spent box is back in the pool when the ledger catches up.
* `orphanOrder_dropped` — an order that is popped before its pool is known is gone.
* `unfundedPair_forgotten` — a pair whose recipe had no funding is not looked at again.
-/

namespace Splash.Agent

open Lib Data LiquidityBook Cardano Engine Executor Option Bool

instance : RawId Token Token := ⟨id⟩

instance : HasVersion ℕ ℕ := ⟨id⟩

structure PoolOrder where
  ref : ℕ
  pool : Token
  weight : ℕ
  deriving DecidableEq

instance : SpecializedOrder PoolOrder ℕ Token := ⟨PoolOrder.ref, PoolOrder.pool, PoolOrder.weight⟩

abbrev PairExecutor := Executor Unit AnyOrder ClassifiedPool PoolOrder ℕ ℕ Token Book

abbrev PairInput := Executor.Input Unit AnyOrder ClassifiedPool PoolOrder ℕ ℕ

def orderAt (o : AnyOrder) (out : ℕ) : EvolvingEntity AnyOrder ClassifiedPool ℕ ℕ :=
  ⟨.inl ⟨o, out⟩, out⟩

def poolAt (p : ClassifiedPool) (out : ℕ) : EvolvingEntity AnyOrder ClassifiedPool ℕ ℕ :=
  ⟨.inr ⟨p, out⟩, out⟩

/-- The effects of instructions whose outputs are numbered from `out` on. -/
def effectsOf : ExecutionRecipe AnyOrder ClassifiedPool ℕ → ℕ →
    List (ExecutionEff (EvolvingEntity AnyOrder ClassifiedPool ℕ ℕ))
  | [], _ => []
  | .inl ⟨⟨o, b⟩, .succ next⟩ :: rest, out =>
    .updated (orderAt o b) (orderAt next out) :: effectsOf rest (out + 1)
  | .inl ⟨⟨o, b⟩, .term _⟩ :: rest, out => .eliminated (orderAt o b) :: effectsOf rest (out + 1)
  | .inr ⟨⟨p, b⟩, next⟩ :: rest, out =>
    .updated (poolAt p b) (poolAt next out) :: effectsOf rest (out + 1)

/-! ## The environment -/

section Env

variable [Numerics] [LiquidityEstimates] (ord : HashOrder) (conf : ExecutionConfig ExUnits)
  (fuel backlogCapacity : ℕ)
  (runOrder : Bundled ClassifiedPool ℕ → Bundled PoolOrder ℕ →
    Option (ℕ × Bundled (Baked ClassifiedPool ℕ) ℕ))

def agentEnv : Env Unit AnyOrder ClassifiedPool PoolOrder ℕ ℕ Book ℕ where
  ord
  makeBook _ := .idle (settledBook [] [])
  backlogCapacity
  book := tlbOps ord conf fuel
  tradeInterpreter recipe funding :=
    ⟨funding, effectsOf recipe (100 * (funding + 1)), .replaced funding (funding + 1)⟩
  specInterpreter := viaRunOrder runOrder

theorem fundsTrades_agentEnv : (agentEnv ord conf fuel backlogCapacity runOrder).FundsTrades :=
  fun _ funding => ⟨rfl, Nat.succ_ne_self funding⟩

theorem isIdle_agentEnv (pair : Unit) :
    IsIdle ((agentEnv ord conf fuel backlogCapacity runOrder).makeBook pair) :=
  ⟨_, rfl⟩

theorem not_hasRecipe_agentEnv (pair : Unit) :
    ¬ (agentEnv ord conf fuel backlogCapacity runOrder).book.HasRecipe
      ((agentEnv ord conf fuel backlogCapacity runOrder).makeBook pair) := by
  refine not_hasRecipe_of_no_makers ?_
  have hnil : ord.arrange ([] : List ClassifiedPool) = [] := (ord.perm []).eq_nil
  exact congrArg (fun l => l.reverse.argmax MarketMaker.quality) hnil

end Env

namespace Sample

/-- Specialized orders are executed without a change of their pool, in output 50. -/
def runOrder (pool : Bundled ClassifiedPool ℕ) (_ : Bundled PoolOrder ℕ) :
    Option (ℕ × Bundled (Baked ClassifiedPool ℕ) ℕ) :=
  some (0, ⟨⟨pool.entity, 50⟩, 50⟩)

def env : Env Unit AnyOrder ClassifiedPool PoolOrder ℕ ℕ Book ℕ :=
  agentEnv .byKey config 32 4 runOrder

theorem specInterpreter_env : env.specInterpreter = viaRunOrder runOrder := rfl

/-- An entity turns up on the ledger. -/
def appears (e : EvolvingEntity AnyOrder ClassifiedPool ℕ ℕ) : PairInput :=
  .pairEvent () (.entity .ledger (.forward (.right e)))

/-- A pool, and an order that the pool can fill. -/
def matching : List PairInput :=
  [appears (poolAt (pool tokenA tokenB 1000000 1000000) 10),
    appears (orderAt (order 1 tokenA tokenB 1000 1 2 0) 11)]

def firstTrade : List PairInput := .fundingEvent (.produced 0) :: matching ++ [.matchmake]

def secondTrade : List PairInput :=
  firstTrade ++ [.feedback .accepted, appears (orderAt (order 3 tokenA tokenB 1000 1 2 0) 21),
    .matchmake]

end Sample

open Sample

/-! ## Settled books -/

/-- A recipe is pending, and its feedback mutates a settled book. -/
theorem firstTrade_settled : ∃ s : PairExecutor, Executor.Reaches env .new s ∧
    s.pendingEffects.isSome = true ∧
    ∀ p, s.step env (.feedback .accepted) ≠ .error (.externalMutation p) := by
  obtain ⟨s, hreach, hpending⟩ := exists_of_steps env firstTrade
    (·.pendingEffects.isSome) (by decide +kernel)
  exact ⟨s, hreach, hpending, no_unsettled_mutation .byKey config 32 env rfl
    (isIdle_agentEnv _ _ _ _ _) hreach hpending⟩

/-! ## Funding -/

/-- The pending transaction consumes the box. -/
def spends (b : ℕ) (s : PairExecutor) : Bool :=
  s.pendingEffects.any fun eff => .consumed b ∈ eff.funding

variable {s : PairExecutor}

theorem spends_iff {b : ℕ} : spends b s = true ↔ s.Spends b := by
  simp [spends, Executor.Spends, any_eq_true]

/-- The box is spent, and not in the pool when the pending transaction is accepted. -/
def spentForGood (b : ℕ) (s : PairExecutor) : Bool :=
  spends b s && (steps env [.feedback .accepted] s).any fun s' : PairExecutor =>
    decide (b ∉ s'.fundingPool.toList ∧ s'.Expects (.fundingEvent (.produced b)))

/-- An order whose pool did not turn up yet. -/
def orphanOrder : Bundled PoolOrder ℕ := ⟨⟨31, ⟨9, 9⟩, 1⟩, 31⟩

def orphanCreated : List PairInput := [.pairEvent () (.order .ledger (.created orphanOrder))]

/-- The order is in the backlog and not softly evicted. -/
def accepted (id : ℕ) (s : PairExecutor) : Bool :=
  ((s.backlogOf env ()).store.get? id).isSome &&
    !(s.backlogOf env ()).softEvictedOrders.contains id

def hasRecipe (s : PairExecutor) : Bool :=
  (env.book.attempt (s.bookOf env ())).toOption.any fun r => r.1.isSome

theorem hasWork_of_hasRecipe (h : hasRecipe s = true) : s.HasWork env () := by
  obtain ⟨⟨recipe, book⟩, hattempt, hsome⟩ := (any_eq_true _ _).1 h
  obtain ⟨recipe, rfl⟩ := Option.isSome_iff_exists.1 hsome
  refine .inl ⟨recipe, book, ?_⟩
  cases hrun : env.book.attempt (s.bookOf env ()) with
  | error p =>
    rw [hrun] at hattempt
    cases hattempt
  | ok r =>
    rw [hrun] at hattempt
    cases hattempt
    rfl

def roundIsIdle (s : PairExecutor) : Bool :=
  (s.step env .matchmake).toOption.any fun r => r.2.isNone

theorem step_of_roundIsIdle (h : roundIsIdle s = true) :
    ∃ s', s.step env .matchmake = .ok (s', none) := by
  obtain ⟨⟨s', tx⟩, hstep, hnone⟩ := (any_eq_true _ _).1 h
  obtain rfl := Option.isNone_iff_eq_none.1 hnone
  refine ⟨s', ?_⟩
  cases hrun : s.step env .matchmake with
  | error e =>
    rw [hrun] at hstep
    cases hstep
  | ok r =>
    rw [hrun] at hstep
    cases hstep
    rfl

/-- The pool and the order turn up while there is no funding box. -/
def unfundedRound : List PairInput := matching ++ [.matchmake, .fundingEvent (.produced 0)]

theorem unfundedPair_work_iff : ∃ s s' : PairExecutor, Executor.Reaches env .new s ∧
    s.step env .matchmake = .ok (s', none) ∧
    ((∀ pair, ¬ s'.HasWork env pair) ↔
      (∀ pair, pair ∉ s.focusSet.queue → ¬ s.HasWork env pair) ∧
      ∀ pair t, Executor.Turn env s pair t → ¬ t.LeavesWork env pair) := by
  obtain ⟨s, hreach, hcheck⟩ := exists_of_steps env unfundedRound
    (fun s => roundIsIdle s && decide (s.Expects .matchmake)) (by decide +kernel)
  rw [and_eq_true, decide_eq_true_iff] at hcheck
  obtain ⟨s', hstep⟩ := step_of_roundIsIdle hcheck.1
  exact ⟨s, s', hreach, hstep, (pending_work_iff specInterpreter_env tlbOps_settles
    tlbOps_restores (isIdle_agentEnv _ _ _ _ _) (not_hasRecipe_agentEnv _ _ _ _ _) hreach hcheck.2
    hstep).1⟩

/-- The recipe of a pair came to nothing for lack of funding. When a funding box turns up the
executor has nothing to do, though the book of the pair yields a recipe. -/
theorem unfundedPair_forgotten : ∃ s s' : PairExecutor, Executor.Reaches env .new s ∧
    s.Expects .matchmake ∧ s.fundingPool.first? = some 0 ∧
    s.step env .matchmake = .ok (s', none) ∧ s'.HasWork env () := by
  obtain ⟨s, hreach, hcheck⟩ := exists_of_steps env unfundedRound
    (fun s => (decide (s.Expects .matchmake) && decide (s.fundingPool.first? = some 0)) &&
      (roundIsIdle s && (steps env [.matchmake] s).any hasRecipe)) (by decide +kernel)
  simp only [and_eq_true, decide_eq_true_iff] at hcheck
  obtain ⟨⟨hexpects, hfunding⟩, hidle, hrecipe⟩ := hcheck
  obtain ⟨s', hstep⟩ := step_of_roundIsIdle hidle
  obtain ⟨t, hsteps, hrecipe⟩ := (any_eq_true _ _).1 hrecipe
  obtain ⟨s₁, tx, -, hstep', hend⟩ := steps_cons hsteps
  cases hend
  cases hstep.symm.trans hstep'
  exact ⟨s, s', hreach, hexpects, hfunding, hstep, hasWork_of_hasRecipe hrecipe⟩

end Splash.Agent
