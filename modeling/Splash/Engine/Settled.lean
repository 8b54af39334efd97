import Splash.Engine.Frame
import Splash.LiquidityBook.Rollback

/-!
# External mutations reach settled books only

A book refuses external mutations while it has uncommitted changes. The executor mutates books on
events of their pairs and on feedback, and starts attempts in between. Since the feedback on a
transaction comes first, the attempt that led to it is over before the next mutation.

* `BookOps.Settles` — what the executor relies on: feedback settles a book, and so does an attempt
  without a recipe.
* `SettledInv` — all books are settled, but for the one whose recipe is pending.
* `no_unsettled_mutation` — no step from a reachable state mutates a book with uncommitted changes.
-/

set_option linter.unusedSectionVars false

namespace Splash.Engine

open Lib Data LiquidityBook

variable {PR T M SO I V B K Bk TX : Type}

structure BookOps.Settles (ops : BookOps Bk T M) (Settled : Bk → Prop) : Prop where
  respects : ops.Respects Settled fun _ => False
  attempt_none : ∀ b b', Settled b → ops.attempt b = .ok (none, b') → Settled b'
  succeeded : ∀ b, Settled (ops.onRecipeSucceeded b)
  failed : ∀ b, Settled (ops.onRecipeFailed b)

variable [LinearOrder PR] [LinearOrder V] [LinearOrder B] [LinearOrder K]

namespace Executor

/-- A fault other than an external mutation that was refused. -/
abbrev Tolerated : Fault V → Prop := Fault.Allowed fun _ => False

variable {eff : Effects PR T M SO V B}

section Inv

variable {env : Env PR T M SO V B Bk TX} {s s' : Executor PR T M SO V B K Bk} {pair : PR}
  {Settled : Bk → Prop}

section

variable (env : Env PR T M SO V B Bk TX) (Settled : Bk → Prop) (s : Executor PR T M SO V B K Bk)

def AllSettled : Prop :=
  ∀ pair, Settled (s.bookOf env pair)

/-- All books are settled, but for the one whose recipe is pending. -/
def SettledInv : Prop :=
  ∀ pair, (∀ eff effects, s.pendingEffects = some eff → eff.execution = .fromLiquidityBook effects →
    pair ≠ eff.pair) → Settled (s.bookOf env pair)

end

theorem SettledInv.allSettled (h : SettledInv env Settled s) (hnone : s.pendingEffects = none) :
    AllSettled env Settled s :=
  fun pair => h pair fun eff effects heff => by
    rw [hnone] at heff
    cases heff

theorem AllSettled.inv (h : AllSettled env Settled s) : SettledInv env Settled s :=
  fun pair _ => h pair

theorem AllSettled.work (h : AllSettled env Settled s) (hw : Work env Settled pair s s') :
    AllSettled env Settled s' := by
  intro p
  by_cases hp : p = pair
  · subst hp
    exact hw.keeps (h p)
  · rw [hw.others p hp]
    exact h p

theorem AllSettled.setBook (h : AllSettled env Settled s) {book : Bk} (hbook : Settled book) :
    AllSettled env Settled (s.setBook pair book) := by
  intro p
  rw [bookOf_setBook]
  split
  · exact hbook
  · exact h p

theorem SettledInv.setBook (h : SettledInv env Settled s) (heff : s.pendingEffects = some eff)
    {book : Bk} (hbook : Settled book) :
    AllSettled env Settled ({ s with pendingEffects := none }.setBook eff.pair book) := by
  intro p
  rw [bookOf_setBook]
  split
  · exact hbook
  · next hp =>
    refine h p fun eff' effects heff' _ => ?_
    cases heff.symm.trans heff'
    exact hp

theorem SettledInv.fromBacklog (h : SettledInv env Settled s) (heff : s.pendingEffects = some eff)
    {pool : Bundled (Baked M V) B} {order : Bundled SO B} (hexec : eff.execution = .fromBacklog pool order) :
    AllSettled env Settled { s with pendingEffects := none } := by
  refine fun p => h p fun eff' effects heff' hexec' => ?_
  cases heff.symm.trans heff'
  rw [hexec] at hexec'
  cases hexec'

end Inv

section Steps

variable [RawId I K] [Stable T I] [Stable M I] [SpecializedOrder SO V I]
  {env : Env PR T M SO V B Bk TX} {s s' : Executor PR T M SO V B K Bk} {pair : PR}
  {Settled : Bk → Prop}

section

variable (hops : env.book.Settles Settled) (h : AllSettled env Settled s)
  (hnone : s.pendingEffects = none)
include hops h hnone

omit hops hnone in
theorem AllSettled.works {r : Except (Fault V) (Executor PR T M SO V B K Bk)}
    (hr : Works env Settled (fun _ => False) pair s r) :
    Exec.Meets r (AllSettled env Settled) Tolerated :=
  (hr (h pair)).mono fun _ hw => h.work hw

omit h hnone in
theorem meets_onExecutionEffectsSuccess (h : SettledInv env Settled s)
    (heff : s.pendingEffects = some eff) :
    Exec.Meets (onExecutionEffectsSuccess env { s with pendingEffects := none } eff)
      (AllSettled env Settled) Tolerated := by
  unfold onExecutionEffectsSuccess
  split
  case h_1 effects _ =>
    have hall := h.setBook heff (hops.succeeded (s.bookOf env eff.pair))
    exact hall.works (works_applyEffects hops.respects _ _)
  case h_2 pool order hexec =>
    exact h.fromBacklog heff hexec

omit h hnone in
theorem meets_onExecutionEffectsFailure (h : SettledInv env Settled s)
    (heff : s.pendingEffects = some eff) (missing : Option (List V)) :
    Exec.Meets (onExecutionEffectsFailure env { s with pendingEffects := none } missing eff)
      (AllSettled env Settled) Tolerated := by
  have hfailed := h.setBook heff (hops.failed (s.bookOf env eff.pair))
  unfold onExecutionEffectsFailure
  split
  case h_1 missingInputs effects _ =>
    refine (meets_invalidateVersions hops.respects _ _ (hfailed eff.pair)).bind fun r hw => ?_
    dsimp only
    split
    · exact trivial
    · exact hfailed.work hw
  case h_2 missingInputs pool order hexec =>
    have hall : AllSettled env Settled
        (returnOrder env { s with pendingEffects := none } eff.pair missingInputs order) :=
      h.fromBacklog heff hexec
    exact (meets_invalidateVersions hops.respects _ _ (hall eff.pair)).bind fun r hw => hall.work hw
  case h_3 effects _ =>
    exact hfailed.works (works_removeTakers hops.respects _ _)
  case h_4 pool order hexec =>
    exact h.fromBacklog heff hexec

omit hnone in
theorem meets_onPairEvent (pair : PR) (event : PairEvent T M SO V B) :
    Exec.Meets (s.onPairEvent env pair event) (SettledInv env Settled) Tolerated := by
  have hall : Exec.Meets (s.syncEvent env pair event) (AllSettled env Settled) Tolerated := by
    cases event with
    | entity channel upd => exact h.works (works_processTransition hops.respects s channel upd)
    | order channel upd =>
      intro p
      have hbooks : (s.syncBacklog env pair channel upd).bookOf env p = s.bookOf env p := by
        cases upd with
        | created order =>
          simp only [syncBacklog]
          split <;> rfl
        | eliminated order => rfl
      rw [hbooks]
      exact h p
  exact hall.bind fun s' hs' => AllSettled.inv hs'

/-- What a turn leaves behind: all books settled when it emits nothing. -/
def TurnSettled (env : Env PR T M SO V B Bk TX) (Settled : Bk → Prop)
    (r : Executor PR T M SO V B K Bk × Option TX) : Prop :=
  SettledInv env Settled r.1 ∧ (r.2 = none → AllSettled env Settled r.1 ∧ r.1.pendingEffects = none)

omit hops h hnone in
theorem turnSettled_of_allSettled {r : Executor PR T M SO V B K Bk × Option TX}
    (h : AllSettled env Settled r.1) (hnone : r.1.pendingEffects = none) :
    TurnSettled env Settled r :=
  ⟨h.inv, fun _ => ⟨h, hnone⟩⟩

omit h hnone in
theorem meets_executeRecipe (h : ∀ p, p ≠ pair → Settled (s.bookOf env p))
    (hnone : s.pendingEffects = none) (recipe : MatchmakingRecipe T M) :
    Exec.Meets (s.executeRecipe env pair recipe) (TurnSettled env Settled) Tolerated := by
  have hfailed : AllSettled env Settled (s.failRecipe env pair) := by
    intro p
    rw [failRecipe, bookOf_setBook]
    split
    · exact hops.failed _
    · next hp => exact h p hp
  unfold executeRecipe
  split
  case h_1 linked consumed _ =>
    split
    case h_1 funding _ =>
      refine ⟨fun p hp => ?_, fun htx => by cases htx⟩
      exact h p (hp _ _ rfl rfl)
    case h_2 => exact turnSettled_of_allSettled hfailed hnone
  case h_2 linked consumed orphans _ _ =>
    refine (works_removeOrphans hops.respects orphans _ (hfailed pair)).bind fun s' hw => ?_
    exact turnSettled_of_allSettled (hfailed.work hw) (hw.pendingEffects.trans hnone)

theorem meets_tryBook (pair : PR) :
    Exec.Meets (s.tryBook env pair) (TurnSettled env Settled) Tolerated := by
  unfold tryBook
  split
  case h_1 => exact trivial
  case h_2 book hattempt =>
    exact turnSettled_of_allSettled (h.setBook (hops.attempt_none _ _ (h pair) hattempt)) hnone
  case h_3 recipe book hattempt =>
    refine meets_executeRecipe (s := s.setBook pair book) hops (fun p hp => ?_) hnone recipe
    rw [bookOf_setBook, if_neg hp]
    exact h p

omit hops in
theorem turnSettled_tryBacklog (pair : PR) : TurnSettled env Settled (s.tryBacklog env pair) := by
  have hdrop : ∀ backlog, TurnSettled env Settled (s.setBacklog pair backlog, (none : Option TX)) :=
    fun backlog => turnSettled_of_allSettled h hnone
  unfold tryBacklog
  cases (s.backlogOf env pair).tryPop env.ord with
  | mk order backlog =>
    cases order with
    | none => exact hdrop backlog
    | some order =>
      simp only [Option.elim_some, executeOrder]
      cases (s.setBacklog pair backlog).resolvedPool order with
      | none => exact hdrop backlog
      | some pool =>
        simp only [Option.bind_some]
        cases env.specInterpreter ⟨pool.entity.entity, pool.bearer⟩ order with
        | none => exact hdrop backlog
        | some r => exact ⟨fun p _ => h p, fun htx => by cases htx⟩

theorem meets_takeTurn (pair : PR) :
    Exec.Meets (s.takeTurn env pair) (TurnSettled env Settled) Tolerated := by
  refine (meets_tryBook hops h hnone pair).bind fun r hr => ?_
  obtain ⟨s', tx⟩ := r
  cases tx with
  | some tx => exact hr
  | none =>
    obtain ⟨hall, hnone'⟩ := hr.2 rfl
    exact turnSettled_tryBacklog hall hnone' pair

omit h hnone in
theorem meets_matchmakeLoop (n : ℕ) (h : AllSettled env Settled s) (hnone : s.pendingEffects = none) :
    Exec.Meets (matchmakeLoop env n s) (fun r => SettledInv env Settled r.1) Tolerated := by
  induction n generalizing s with
  | zero => exact h.inv
  | succ n ih =>
    unfold matchmakeLoop
    split
    case h_1 => exact h.inv
    case h_2 pair focusSet _ =>
      have hturn := meets_takeTurn (s := { s with focusSet }) hops h hnone pair
      refine hturn.bind fun r hr => ?_
      obtain ⟨s', tx⟩ := r
      cases tx with
      | some tx => exact hr.1
      | none =>
        obtain ⟨hall, hnone'⟩ := hr.2 rfl
        exact ih hall hnone'

end

variable [HasVersion B V]

section

variable (hops : env.book.Settles Settled)
include hops

theorem meets_onFeedback (h : SettledInv env Settled s)
    (feedback : Feedback V) :
    Exec.Meets (s.onFeedback env feedback) (SettledInv env Settled) Tolerated := by
  unfold onFeedback
  split
  case h_1 => exact h
  case h_2 eff heff =>
    cases feedback with
    | accepted =>
      exact (meets_onExecutionEffectsSuccess hops h heff).bind fun s' hall => AllSettled.inv hall
    | rejected missing =>
      exact (meets_onExecutionEffectsFailure hops h heff missing).bind fun s' hall =>
        AllSettled.inv hall

variable {input : Input PR T M SO V B}

theorem meets_step (h : SettledInv env Settled s) (hexpects : s.Expects input) :
    Exec.Meets (s.step env input) (fun r => SettledInv env Settled r.1) Tolerated := by
  cases input with
  | feedback feedback => exact (meets_onFeedback hops h feedback).bind fun s' hs' => hs'
  | pairEvent pair event =>
    exact (meets_onPairEvent hops (h.allSettled hexpects) pair event).bind fun s' hs' => hs'
  | fundingEvent event =>
    have hall := h.allSettled hexpects
    cases event with
    | consumed bearer => exact AllSettled.inv hall
    | produced bearer => exact AllSettled.inv hall
  | matchmake => exact meets_matchmakeLoop hops _ (h.allSettled hexpects) hexpects

theorem settledInv_of_reaches
    (hmake : ∀ pair, Settled (env.makeBook pair)) (hreach : Reaches env new s) :
    SettledInv env Settled s := by
  induction hreach with
  | refl => exact AllSettled.inv fun pair => hmake pair
  | step _ hexpects hstep ih => exact (meets_step hops ih hexpects).ok hstep

theorem step_ne_externalMutation (hmake : ∀ pair, Settled (env.makeBook pair))
    (hreach : Reaches env new s) (hexpects : s.Expects input) (p : Panic) :
    s.step env input ≠ .error (.externalMutation p) := by
  intro herror
  have hmeets := meets_step hops (settledInv_of_reaches hops hmake hreach) hexpects
  rw [herror] at hmeets
  exact hmeets

end

end Steps

end Executor

/-! ## The time-aware book -/

section Book

variable {U : Type} [MarketTaker T U] [TakerBehaviour T] [FrontierOrd T] [LinearOrder I]
  [Stable T I] [Stable M I] [MarketMaker M U] [MakerBehavior M] [Zero U] [Add U] [LT U]
  [DecidableLT U]

/-- The operations of a time-aware book; an attempt is given up after `fuel` iterations. -/
def tlbOps (ord : HashOrder) (conf : ExecutionConfig U) (fuel : ℕ) :
    BookOps (TLBState T M I) T M where
  attempt book := (Loop.run (attemptStep (I := I) ord conf) fuel book.beginAttempt).getD
    (.error .diverged)
  onRecipeSucceeded := TLBState.onRecipeSucceeded
  onRecipeFailed := TLBState.onRecipeFailed
  updateTaker := TLBState.updateTaker
  removeTaker := TLBState.removeTaker
  updateMaker := TLBState.updateMaker
  removeMaker := TLBState.removeMaker

variable {ord : HashOrder} {conf : ExecutionConfig U} {fuel : ℕ}

theorem tlbOps_attempt {book after : TLBState T M I} {recipe : Option (MatchmakingRecipe T M)}
    (h : (tlbOps ord conf fuel).attempt book = .ok (recipe, after)) :
    book.Attempt (I := I) ord conf recipe after := by
  refine ⟨fuel, ?_⟩
  simp only [tlbOps] at h
  cases hrun : Loop.run (attemptStep (I := I) ord conf) fuel book.beginAttempt with
  | none =>
    rw [hrun] at h
    cases h
  | some r =>
    rw [hrun] at h
    exact congrArg some h

/-- The book has no uncommitted changes. -/
def IsIdle (book : TLBState T M I) : Prop := ∃ st, book = .idle st

theorem isIdle_rollback (book : TLBState T M I) : IsIdle (book.rollback .unstash) := by
  cases book with
  | idle st => exact ⟨st, rfl⟩
  | partialPreview st => exact ⟨_, rfl⟩
  | preview st => exact ⟨_, rfl⟩

theorem isIdle_commit (book : TLBState T M I) : IsIdle book.commit := by
  cases book with
  | idle st => exact ⟨st, rfl⟩
  | partialPreview st => exact ⟨_, rfl⟩
  | preview st => exact ⟨_, rfl⟩

theorem meets_requiringSettledState (f : IdleState T M I → IdleState T M I)
    {book : TLBState T M I} (h : IsIdle book) :
    Exec.Meets (TLBState.requiringSettledState f book) IsIdle fun _ => False := by
  obtain ⟨st, rfl⟩ := h
  exact ⟨f st, rfl⟩

theorem tlbOps_settles :
    (tlbOps ord conf fuel : BookOps (TLBState T M I) T M).Settles IsIdle where
  respects :=
    ⟨fun _ _ => meets_requiringSettledState _, fun _ _ => meets_requiringSettledState _,
      fun _ _ => meets_requiringSettledState _, fun _ _ => meets_requiringSettledState _⟩
  attempt_none b b' _ h := by
    obtain ⟨s, -, hs⟩ := Loop.path_of_returns (tlbOps_attempt h)
    rcases attemptStep_cases hs with ⟨s', fill, hs', -⟩ | ⟨book, -, hconclusion⟩
    · cases hs'
    · cases hconclusion
      exact isIdle_rollback book
  succeeded b := isIdle_commit b
  failed b := isIdle_rollback b

/-- **External mutations reach settled books only.** Over every run of the executor with time-aware
books, whatever its interpreters do, a step never ends in the panic of a book that is mutated while
it has uncommitted changes. -/
theorem no_unsettled_mutation [RawId I K] [SpecializedOrder SO V I] [HasVersion B V] (ord : HashOrder)
    (conf : ExecutionConfig U) (fuel : ℕ) (env : Env PR T M SO V B (TLBState T M I) TX)
    (hbook : env.book = tlbOps ord conf fuel) (hmake : ∀ pair, IsIdle (env.makeBook pair))
    {s : Executor PR T M SO V B K (TLBState T M I)} (hreach : Executor.Reaches env .new s)
    {input : Executor.Input PR T M SO V B} (hexpects : s.Expects input) (p : Panic) :
    s.step env input ≠ .error (.externalMutation p) :=
  Executor.step_ne_externalMutation (hbook ▸ tlbOps_settles) hmake hreach hexpects p

end Book

end Splash.Engine
