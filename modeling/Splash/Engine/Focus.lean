import Splash.Engine.Custody
import Splash.Engine.Settled

/-!
# Work that is left behind

A pair has work when its book yields a recipe or its backlog holds an order whose pool is known. The
executor looks at the pairs of its focus set only, and takes each of them out before its turn. A turn
that comes to nothing may leave work behind: when there is no funding box, when the recipe could not
be linked, and when the popped order was dropped.

* `hasWork_takeTurn` — which turns leave work behind.
* `pending_work_iff` — after a round without a transaction no pair has work just when none was left
  behind.
-/

set_option linter.unusedSectionVars false

namespace Splash.Engine

open Lib Data LiquidityBook SpecializedOrder Exec List

variable {PR T M SO I V B K Bk TX : Type}

/-- An attempt without a recipe, or with one that failed, leaves the book as it was. -/
structure BookOps.Restores (ops : BookOps Bk T M) (Settled : Bk → Prop) : Prop where
  none : ∀ b b', Settled b → ops.attempt b = .ok (none, b') → b' = b
  failed : ∀ b b' recipe, Settled b → ops.attempt b = .ok (some recipe, b') →
    ops.onRecipeFailed b' = b

/-- The book would yield a recipe on an attempt. -/
def BookOps.HasRecipe (ops : BookOps Bk T M) (book : Bk) : Prop :=
  ∃ recipe book', ops.attempt book = .ok (some recipe, book')

variable [LinearOrder PR] [LinearOrder V] [LinearOrder B] [LinearOrder K] [RawId I K] [Stable T I]
  [Stable M I] [SpecializedOrder SO V I]

namespace Executor

/-! ## Work -/

variable (env : Env PR T M SO V B Bk TX)

variable (s : Executor PR T M SO V B K Bk)

/-- The backlog of the pair holds an order whose pool is resolvable. -/
def HasOrder (pair : PR) : Prop :=
  ∃ id order, (s.backlogOf env pair).store.get? id = some order ∧
    (s.resolvedPool order).isSome = true

/-- There is something to do for the pair. -/
def HasWork (pair : PR) : Prop :=
  env.book.HasRecipe (s.bookOf env pair) ∨ s.HasOrder env pair

/-- The turn has a recipe that comes to nothing for lack of funding, or the book still yields a
recipe when the orphans of this one are gone. -/
def LeavesRecipe (pair : PR) :
    Prop :=
  ∃ recipe book linked consumed orphans,
    env.book.attempt (s.bookOf env pair) = .ok (some recipe, book) ∧
    s.linkAll recipe.instructions = (linked, consumed, orphans) ∧
    ((orphans = [] ∧ s.fundingPool.first? = none) ∨
      (orphans ≠ [] ∧ ∃ s₁, (s.setBook pair book).onLinkageFailure env pair orphans = .ok s₁ ∧
        env.book.HasRecipe (s₁.bookOf env pair)))

/-- The turn drops the order it pops, and another order of the backlog could be executed. -/
def LeavesOrder (pair : PR) :
    Prop :=
  ∃ id, (s.Strands env pair id ∨ s.Rejects env pair id) ∧
    ∃ k order, k ≠ id ∧ (s.backlogOf env pair).store.get? k = some order ∧
      (s.resolvedPool order).isSome = true

def LeavesWork (pair : PR) :
    Prop :=
  s.LeavesRecipe env pair ∨ s.LeavesOrder env pair

variable {env : Env PR T M SO V B Bk TX} {s s' t : Executor PR T M SO V B K Bk} {pair p : PR}
  {run : Bundled M B → Bundled SO B → Option (TX × Bundled (Baked M V) B)} {Settled : Bk → Prop}
  {tx : Option TX}

/-! ## Turns -/

theorem states_takeTurn (h : s.takeTurn env pair = .ok (s', tx)) : s'.states = s.states := by
  rcases takeTurn_cases h with ⟨tx', rfl, -, htrade⟩ | ⟨s₁, -, hturn, hback⟩
  · obtain ⟨recipe, book, linked, consumed, funding, -, -, -, heq⟩ := htrade
    obtain ⟨rfl, -⟩ := Prod.mk.inj heq
    rfl
  · rw [← hturn.onlyBook.states]
    cases hback <;> rfl

theorem resolvedPool_congr (h : s'.states = s.states)
    (order : Bundled SO B) : s'.resolvedPool order = s.resolvedPool order := by
  unfold resolvedPool
  rw [h]

theorem bookOf_takeTurn (h : s.takeTurn env pair = .ok (s', tx)) (hp : p ≠ pair) :
    s'.bookOf env p = s.bookOf env p := by
  rcases takeTurn_cases h with ⟨tx', rfl, -, htrade⟩ | ⟨s₁, -, hturn, hback⟩
  · obtain ⟨recipe, book, linked, consumed, funding, -, -, -, heq⟩ := htrade
    obtain ⟨rfl, -⟩ := Prod.mk.inj heq
    have hset : ((s.setBook pair book).bookOf env p) = s.bookOf env p := by
      rw [bookOf_setBook, if_neg hp]
    exact hset
  · rw [← hturn.onlyBook.work.others p hp]
    cases hback <;> rfl

theorem hasWork_congr (hbook : s'.bookOf env p = s.bookOf env p)
    (hbacklog : s'.backlogOf env p = s.backlogOf env p) (hstates : s'.states = s.states) :
    s'.HasWork env p ↔ s.HasWork env p := by
  unfold HasWork HasOrder
  simp only [hbook, hbacklog, resolvedPool_congr hstates]

section

variable (hspec : env.specInterpreter = viaRunOrder run) (hrestores : env.book.Restores Settled)
  (hsettled : Settled (s.bookOf env pair)) (hqueued : (s.backlogOf env pair).Queued)
  (hnone : s.pendingEffects = none)
include hspec hrestores hsettled hqueued hnone

omit hspec hqueued hnone in
theorem hasRecipe_bookTurn (h : BookTurn env s pair s') :
    env.book.HasRecipe (s'.bookOf env pair) ↔ s.LeavesRecipe env pair := by
  cases h with
  | @exhausted book hattempt =>
    have hbook := hrestores.none _ _ hsettled hattempt
    rw [bookOf_setBook, if_pos rfl, hbook]
    constructor
    · rintro ⟨recipe, book', hattempt'⟩
      cases hattempt.symm.trans hattempt'
    · rintro ⟨recipe, book', linked, consumed, orphans, hattempt', -⟩
      cases hattempt.symm.trans hattempt'
  | @unfunded recipe book linked consumed hattempt hlink hfunding =>
    have hbook := hrestores.failed _ _ _ hsettled hattempt
    rw [failRecipe, bookOf_setBook, if_pos rfl, bookOf_setBook, if_pos rfl, hbook]
    refine iff_of_true ⟨recipe, book, hattempt⟩ ?_
    exact ⟨recipe, book, linked, consumed, [], hattempt, hlink, .inl ⟨rfl, hfunding⟩⟩
  | @orphaned recipe book linked consumed orphans _ hattempt hlink hne hremove =>
    constructor
    · intro hrecipe
      exact ⟨recipe, book, linked, consumed, orphans, hattempt, hlink, .inr ⟨hne, s', hremove, hrecipe⟩⟩
    · rintro ⟨recipe', book', linked', consumed', orphans', hattempt', hlink', hcase⟩
      cases hattempt.symm.trans hattempt'
      cases hlink.symm.trans hlink'
      rcases hcase with ⟨hnil, -⟩ | ⟨-, s₁, hremove', hrecipe⟩
      · exact absurd hnil hne
      · cases hremove.symm.trans hremove'
        exact hrecipe

omit hspec hrestores hsettled hnone in
/-- A turn without a transaction leaves an executable order just when one is left behind. -/
theorem hasOrder_orderTurn (hstates : s'.states = s.states)
    (h : OrderTurn env s pair s' (none : Option TX)) :
    s'.HasOrder env pair ↔ s.LeavesOrder env pair := by
  unfold HasOrder
  simp only [resolvedPool_congr hstates]
  cases h with
  | idle hpop _ hstore _ _ =>
    have hempty : ∀ id, (s.backlogOf env pair).store.get? id = none := by
      have htryPop : (s.backlogOf env pair).tryPop env.ord
          = (none, ((s.backlogOf env pair).tryPop env.ord).2) := Prod.ext hpop rfl
      exact (HotPriorityBacklog.tryPop_eq_none hqueued htryPop).1
    rw [hstore]
    constructor
    · rintro ⟨id, order, hget, -⟩
      cases (hempty id).symm.trans hget
    · rintro ⟨id, -, k, order, -, hget, -⟩
      cases (hempty k).symm.trans hget
  | @lost order hpop hleft _ hwhy _ =>
    rw [hleft.store]
    constructor
    · rintro ⟨k, other, hget, hpool⟩
      rw [OrdMap.get?_erase] at hget
      split at hget
      · cases hget
      · next hne => exact ⟨selfRef order, hwhy, k, other, hne, hget, hpool⟩
    · rintro ⟨id, hgone, k, other, hne, hget, hpool⟩
      have hid : id = selfRef order := by
        rcases hgone with ⟨order', hpop', rfl, -⟩ | ⟨order', pool, hpop', rfl, -⟩
        · cases hpop.2.symm.trans hpop'.2
          rfl
        · cases hpop.2.symm.trans hpop'.2
          rfl
      refine ⟨k, other, ?_, hpool⟩
      rw [OrdMap.get?_erase, if_neg (hid ▸ hne)]
      exact hget

/-- **Which turns leave work behind.** After a turn without a transaction the pair has work just when
the turn leaves some behind; the work of other pairs is as it was. -/
theorem hasWork_takeTurn (h : s.takeTurn env pair = .ok (s', none)) :
    s'.HasWork env pair ↔ s.LeavesWork env pair := by
  obtain ⟨hord, -⟩ := orderTurn_of_takeTurn hspec hnone hqueued h
  refine or_congr ?_ (hasOrder_orderTurn hqueued (states_takeTurn h) hord)
  rcases takeTurn_cases h with ⟨tx', hcontra, -⟩ | ⟨s₁, -, hturn, hback⟩
  · cases hcontra
  · rw [← hasRecipe_bookTurn hrestores hsettled hturn]
    have hbook : s'.bookOf env pair = s₁.bookOf env pair := by cases hback <;> rfl
    rw [hbook]

omit hrestores hsettled in
theorem hasWork_takeTurn_other (h : s.takeTurn env pair = .ok (s', tx)) (hp : p ≠ pair) :
    s'.HasWork env p ↔ s.HasWork env p :=
  hasWork_congr (bookOf_takeTurn h hp) ((orderTurn_of_takeTurn hspec hnone hqueued h).1.others hp)
    (states_takeTurn h)

end

/-! ## The focus set -/

/-- The queue has no pair twice, and its filter knows the pairs in it. -/
structure Focused (f : FocusSet PR) : Prop where
  nodup : f.queue.Nodup
  mem_filter : ∀ a, a ∈ f.filter ↔ a ∈ f.queue

theorem mem_pushBack {f : FocusSet PR} (h : Focused f) (a b : PR) :
    b ∈ (f.pushBack a).queue ↔ b ∈ f.queue ∨ b = a := by
  unfold FocusSet.pushBack
  split
  · next ha =>
    rw [h.mem_filter] at ha
    constructor
    · exact .inl
    · rintro (hb | rfl)
      · exact hb
      · exact ha
  · simp

theorem Focused.pushBack {f : FocusSet PR} (h : Focused f) (a : PR) : Focused (f.pushBack a) := by
  refine ⟨?_, fun b => ?_⟩
  · unfold FocusSet.pushBack
    split
    · exact h.nodup
    · next ha =>
      rw [h.mem_filter] at ha
      exact nodup_append.2 ⟨h.nodup, nodup_singleton a, fun x hx y hy hxy => by
        rw [mem_singleton.1 hy] at hxy
        exact ha (hxy ▸ hx)⟩
  · rw [mem_pushBack h]
    unfold FocusSet.pushBack
    split
    · next ha =>
      rw [h.mem_filter]
      rw [h.mem_filter] at ha
      constructor
      · exact .inl
      · rintro (hb | rfl)
        · exact hb
        · exact ha
    · rw [Finset.mem_insert, h.mem_filter, or_comm]

theorem Focused.popFront {f f' : FocusSet PR} {a : PR} (h : Focused f)
    (hpop : f.popFront = some (a, f')) : Focused f' ∧ a ∉ f'.queue ∧
      ∀ b, b ∈ f.queue ↔ b = a ∨ b ∈ f'.queue := by
  have hqueue := FocusSet.queue_popFront hpop
  have hfilter : f'.filter = f.filter.erase a := by
    unfold FocusSet.popFront at hpop
    split at hpop
    · cases hpop
    · cases hpop
      rfl
  have hnodup := h.nodup
  rw [hqueue, nodup_cons] at hnodup
  refine ⟨⟨hnodup.2, fun b => ?_⟩, hnodup.1, fun b => by rw [hqueue, mem_cons]⟩
  rw [hfilter, Finset.mem_erase, h.mem_filter, hqueue, mem_cons]
  constructor
  · rintro ⟨hne, hb⟩
    exact hb.resolve_left hne
  · intro hb
    exact ⟨fun heq => hnodup.1 (heq ▸ hb), .inr hb⟩

theorem emits_takeTurn {tx : TX} (h : s.takeTurn env pair = .ok (s', some tx)) :
    s'.focusSet = s.focusSet.pushBack pair ∧ ∃ eff, s'.pendingEffects = some eff ∧ eff.pair = pair := by
  rcases takeTurn_cases h with ⟨tx', -, -, htrade⟩ | ⟨s₁, -, hturn, hback⟩
  · obtain ⟨recipe, book, linked, consumed, funding, -, -, -, heq⟩ := htrade
    obtain ⟨rfl, -⟩ := Prod.mk.inj heq
    exact ⟨rfl, _, rfl, rfl⟩
  · cases hback with
    | emitted hpop hpool hrun =>
      refine ⟨?_, _, rfl, rfl⟩
      rw [← hturn.onlyBook.work.focusSet]

theorem mem_queue_of_turn (h : Turn env s pair t) : pair ∈ s.focusSet.queue := by
  induction h with
  | now hpop =>
    rw [FocusSet.queue_popFront hpop]
    exact mem_cons_self
  | later hpop hturn _ ih =>
    rw [focusSet_takeTurn hturn] at ih
    rw [FocusSet.queue_popFront hpop]
    exact mem_cons_of_mem _ ih

/-! ## Rounds -/

/-- A state in which a round may begin. -/
structure Ready (env : Env PR T M SO V B Bk TX) (Settled : Bk → Prop)
    (s : Executor PR T M SO V B K Bk) : Prop where
  settled : AllSettled env Settled s
  custody : CustodyInv env s
  idle : s.pendingEffects = none
  focused : Focused s.focusSet

theorem Ready.takeTurn (hready : Ready env Settled s) (hspec : env.specInterpreter = viaRunOrder run)
    (hops : env.book.Settles Settled) (h : s.takeTurn env pair = .ok (s', none)) :
    Ready env Settled s' := by
  obtain ⟨hord, hqueued⟩ := orderTurn_of_takeTurn hspec hready.idle (hready.custody.queued pair) h
  obtain ⟨hsettled, hidle⟩ := ((meets_takeTurn hops hready.settled hready.idle pair).ok h).2 rfl
  refine ⟨hsettled, custodyInv_orderTurn hready.custody hord hqueued, hidle, ?_⟩
  rw [focusSet_takeTurn h]
  exact hready.focused

/-- **Which rounds leave work behind.** For a pair that is not in the focus set after the round:
if it was not there before, its work is as it was; otherwise it had its turn, and has work just when
its turn left some behind. -/
theorem hasWork_round (hspec : env.specInterpreter = viaRunOrder run)
    (hops : env.book.Settles Settled) (hrestores : env.book.Restores Settled)
    (h : Round env s s' tx) (hready : Ready env Settled s) (hp : p ∉ s'.focusSet.queue) :
    (p ∉ s.focusSet.queue → (s'.HasWork env p ↔ s.HasWork env p)) ∧
    (p ∈ s.focusSet.queue → (s'.HasWork env p ↔ ∃ t t', Turn env s p t ∧
      t.takeTurn env p = .ok (t', none) ∧ t.LeavesWork env p)) := by
  induction h with
  | done hpop =>
    exact ⟨fun _ => Iff.rfl, fun hmem => absurd hmem hp⟩
  | @emit s s' first focusSet tx hpop hturn =>
    obtain ⟨hfocused, -, hqueue⟩ := hready.focused.popFront hpop
    rw [(emits_takeTurn hturn).1, mem_pushBack hfocused, not_or] at hp
    refine ⟨fun _ => ?_, fun hmem => ?_⟩
    · exact hasWork_takeTurn_other (s := { s with focusSet }) hspec (hready.custody.queued first)
        hready.idle hturn hp.2
    · exact absurd ((hqueue p).1 hmem) (not_or.2 ⟨hp.2, hp.1⟩)
  | @skip s s₁ s' first focusSet tx hpop hturn _ ih =>
    obtain ⟨hfocused, hfirst, hqueue⟩ := hready.focused.popFront hpop
    have hready' : Ready env Settled { s with focusSet } :=
      ⟨hready.settled, ⟨hready.custody.queued, hready.custody.room⟩, hready.idle, hfocused⟩
    have hrest : s₁.focusSet = focusSet := focusSet_takeTurn hturn
    obtain ⟨hout, hin⟩ := ih (hready'.takeTurn hspec hops hturn) hp
    rw [hrest] at hout hin
    by_cases heq : p = first
    · subst heq
      have hwork := hasWork_takeTurn (s := { s with focusSet }) hspec hrestores (hready.settled p)
        (hready.custody.queued p) hready.idle hturn
      refine ⟨fun hmem => absurd ((hqueue p).2 (.inl rfl)) hmem, fun _ => ?_⟩
      rw [hout hfirst, hwork]
      constructor
      · exact fun hleaves => ⟨_, _, .now hpop, hturn, hleaves⟩
      · rintro ⟨t, t', ht, -, hleaves⟩
        rcases (turn_iff hpop).1 ht with ⟨-, rfl⟩ | ⟨_, hturn', ht⟩
        · exact hleaves
        · cases hturn.symm.trans hturn'
          exact absurd (mem_queue_of_turn ht) (hrest ▸ hfirst)
    · have hother : s₁.HasWork env p ↔ s.HasWork env p :=
        hasWork_takeTurn_other (s := { s with focusSet }) hspec (hready.custody.queued first)
          hready.idle hturn heq
      have hmem : p ∈ s.focusSet.queue ↔ p ∈ focusSet.queue := by
        rw [hqueue, or_iff_right heq]
      have hturns : ∀ t, Turn env s p t ↔ Turn env s₁ p t := by
        intro t
        rw [turn_iff hpop, or_iff_right fun ht => heq ht.1, hturn]
        simp
      rw [hmem]
      refine ⟨fun hnot => (hout hnot).trans hother, fun hyes => ?_⟩
      simp only [hturns]
      exact hin hyes

theorem queue_of_round (h : Round env s s' (none : Option TX)) : s'.focusSet.queue = [] := by
  generalize htx : (none : Option TX) = tx at h
  induction h with
  | @done s hpop =>
    unfold FocusSet.popFront at hpop
    split at hpop
    · assumption
    · cases hpop
  | emit _ _ => cases htx
  | skip _ _ _ ih => exact ih htx

theorem takeTurn_of_turn (ht : Turn env s pair t) (h : Round env s s' (none : Option TX)) :
    ∃ t', t.takeTurn env pair = .ok (t', none) := by
  induction ht with
  | now hpop =>
    cases h with
    | done hpop' => cases hpop.symm.trans hpop'
    | skip hpop' hturn _ =>
      cases hpop.symm.trans hpop'
      exact ⟨_, hturn⟩
  | later hpop hturn _ ih =>
    cases h with
    | done hpop' => cases hpop.symm.trans hpop'
    | skip hpop' hturn' hrest =>
      cases hpop.symm.trans hpop'
      cases hturn.symm.trans hturn'
      exact ih hrest

/-! ## Runs -/

/-- The pair whose transaction is pending is in the focus set. -/
structure FocusInv (s : Executor PR T M SO V B K Bk) : Prop where
  focused : Focused s.focusSet
  pending : ∀ eff, s.pendingEffects = some eff → eff.pair ∈ s.focusSet.queue

theorem FocusInv.of_idle (hfocused : Focused s.focusSet) (hidle : s.pendingEffects = none) :
    FocusInv s :=
  ⟨hfocused, fun eff heff => by cases hidle.symm.trans heff⟩

theorem focusInv_round (h : Round env s s' tx) (hinv : FocusInv s) (hidle : s.pendingEffects = none)
    (hspec : env.specInterpreter = viaRunOrder run) (hcustody : CustodyInv env s) : FocusInv s' := by
  induction h with
  | done _ => exact hinv
  | @emit s s' first focusSet tx hpop hturn =>
    obtain ⟨hfocused, -, -⟩ := hinv.focused.popFront hpop
    obtain ⟨hfocus, eff, heff, rfl⟩ := emits_takeTurn hturn
    refine ⟨hfocus ▸ hfocused.pushBack _, fun eff' heff' => ?_⟩
    cases heff.symm.trans heff'
    rw [hfocus, mem_pushBack hfocused]
    exact .inr rfl
  | @skip s s₁ s' first focusSet tx hpop hturn _ ih =>
    obtain ⟨hfocused, -, -⟩ := hinv.focused.popFront hpop
    obtain ⟨hord, hqueued⟩ := orderTurn_of_takeTurn (s := { s with focusSet }) hspec hidle
      (hcustody.queued first) hturn
    have hidle₁ := hord.pendingEffects_eq_none
    have hcustody' : CustodyInv env { s with focusSet } := ⟨hcustody.queued, hcustody.room⟩
    refine ih (.of_idle ?_ hidle₁) hidle₁ (custodyInv_orderTurn hcustody' hord hqueued)
    rw [focusSet_takeTurn hturn]
    exact hfocused

variable [HasVersion B V] {input : Input PR T M SO V B}

/-- Feedback works on the pair of the pending transaction, and leaves its focus. -/
theorem onFeedback_frame {eff : Effects PR T M SO V B} (heff : s.pendingEffects = some eff)
    {feedback : Feedback V} (h : s.onFeedback env feedback = .ok s') :
    s'.focusSet = s.focusSet ∧ s'.pendingEffects = none ∧ ∀ p, p ≠ eff.pair →
      s'.bookOf env p = s.bookOf env p ∧ s'.backlogOf env p = s.backlogOf env p := by
  simp only [onFeedback, heff] at h
  cases feedback with
  | accepted =>
    obtain ⟨s₁, hrun, h⟩ := bind_eq_ok.1 h
    cases h
    have hwork := work_onExecutionEffectsSuccess hrun
    exact ⟨hwork.focusSet, hwork.pendingEffects, fun p hp =>
      ⟨hwork.others p hp, backlogOf_congr hwork.multiBacklog p⟩⟩
  | rejected missing =>
    obtain ⟨s₁, hrun, h⟩ := bind_eq_ok.1 h
    cases h
    have hwork := work_onExecutionEffectsFailure hrun
    refine ⟨hwork.focusSet.trans (giveBack_focusSet _ _ _ _),
      hwork.pendingEffects.trans (giveBack_pendingEffects _ _ _ _), fun p hp => ⟨?_, ?_⟩⟩
    · exact (hwork.others p hp).trans (bookOf_giveBack _ _ _ _ p)
    · exact (backlogOf_congr hwork.multiBacklog p).trans (backlogOf_giveBack _ _ _ _ hp)

/-- An event of a pair works on this pair, and puts it into the focus set. -/
theorem onPairEvent_frame {q : PR} {event : PairEvent T M SO V B}
    (h : s.onPairEvent env q event = .ok s') :
    s'.focusSet = s.focusSet.pushBack q ∧ s'.pendingEffects = s.pendingEffects ∧ ∀ p, p ≠ q →
      s'.bookOf env p = s.bookOf env p ∧ s'.backlogOf env p = s.backlogOf env p := by
  obtain ⟨s₁, hsync, h⟩ := bind_eq_ok.1 h
  cases h
  cases event with
  | entity channel upd =>
    have hwork := (works_processTransition env.book.respects_true s channel upd trivial).ok hsync
    exact ⟨congrArg (·.pushBack q) hwork.focusSet, hwork.pendingEffects, fun p hp =>
      ⟨hwork.others p hp, backlogOf_congr hwork.multiBacklog p⟩⟩
  | order channel upd =>
    cases hsync
    have hset : ∀ backlog p, p ≠ q →
        (s.setBacklog q backlog).backlogOf env p = s.backlogOf env p := by
      intro backlog p hp
      rw [backlogOf_setBacklog, if_neg hp]
    cases upd with
    | created order =>
      simp only [syncBacklog]
      split
      · exact ⟨rfl, rfl, fun p _ => ⟨rfl, rfl⟩⟩
      · exact ⟨rfl, rfl, fun p hp => ⟨rfl, hset _ p hp⟩⟩
    | eliminated order => exact ⟨rfl, rfl, fun p hp => ⟨rfl, hset _ p hp⟩⟩

theorem focusInv_step (hspec : env.specInterpreter = viaRunOrder run) (hinv : FocusInv s)
    (hcustody : CustodyInv env s) (hexpects : s.Expects input)
    (h : s.step env input = .ok (s', tx)) : FocusInv s' := by
  cases input with
  | feedback feedback =>
    obtain ⟨s₁, hrun, h⟩ := bind_eq_ok.1 h
    cases h
    obtain ⟨eff, heff⟩ := Option.isSome_iff_exists.1 hexpects
    obtain ⟨hfocus, hidle, -⟩ := onFeedback_frame heff hrun
    exact .of_idle (hfocus ▸ hinv.focused) hidle
  | pairEvent q event =>
    obtain ⟨s₁, hrun, h⟩ := bind_eq_ok.1 h
    cases h
    obtain ⟨hfocus, hpending, -⟩ := onPairEvent_frame hrun
    exact .of_idle (hfocus ▸ hinv.focused.pushBack q) (hpending.trans hexpects)
  | fundingEvent event =>
    cases h
    cases event with
    | consumed b | produced b => exact .of_idle hinv.focused hexpects
  | matchmake => exact focusInv_round (round_of_matchmake h) hinv hexpects hspec hcustody

theorem focusInv_of_reaches (hspec : env.specInterpreter = viaRunOrder run)
    (h : Reaches env new s) : FocusInv s := by
  induction h with
  | refl => exact .of_idle ⟨nodup_nil, fun a => by simp [new, FocusSet.new]⟩ rfl
  | step hreach hexpects hstep ih =>
    exact focusInv_step hspec ih (custodyInv_of_reaches hspec hreach) hexpects hstep

section

variable (hspec : env.specInterpreter = viaRunOrder run) (hops : env.book.Settles Settled)
  (hrestores : env.book.Restores Settled) (hmake : ∀ pair, Settled (env.makeBook pair))
include hspec hops hrestores hmake

omit hrestores in
theorem ready_of_reaches (hreach : Reaches env new s) (hidle : s.pendingEffects = none) :
    Ready env Settled s :=
  ⟨(settledInv_of_reaches hops hmake hreach).allSettled hidle, custodyInv_of_reaches hspec hreach,
    hidle, (focusInv_of_reaches hspec hreach).focused⟩

/-- What is done for one pair does not make the pools of other pairs' orders known. -/
def Local (env : Env PR T M SO V B Bk TX) (q : PR) (s s' : Executor PR T M SO V B K Bk) : Prop :=
  ∀ p, p ≠ q → ∀ id order, (s.backlogOf env p).store.get? id = some order →
    s.resolvedPool order = none → s'.resolvedPool order = none

/-- The step concerns its own pair only, and none of its turns leaves work behind. -/
def Careful (env : Env PR T M SO V B Bk TX) (s : Executor PR T M SO V B K Bk) :
    Input PR T M SO V B → Prop
  | .feedback feedback => ∀ eff s', s.pendingEffects = some eff →
      s.onFeedback env feedback = .ok s' → Local env eff.pair s s'
  | .pairEvent q event => ∀ s', s.onPairEvent env q event = .ok s' → Local env q s s'
  | .fundingEvent _ => True
  | .matchmake => ∀ pair t t', Turn env s pair t → t.takeTurn env pair = .ok (t', none) →
      ¬ t.LeavesWork env pair

omit hspec hops hrestores hmake in
theorem not_hasWork_of_local {q : PR} (hlocal : Local env q s s') (hp : p ≠ q)
    (hbook : s'.bookOf env p = s.bookOf env p) (hbacklog : s'.backlogOf env p = s.backlogOf env p)
    (hwork : ¬ s.HasWork env p) : ¬ s'.HasWork env p := by
  rintro (hrecipe | ⟨id, order, hget, hpool⟩)
  · exact hwork (.inl (hbook ▸ hrecipe))
  · rw [hbacklog] at hget
    cases hresolved : s.resolvedPool order with
    | none =>
      rw [hlocal p hp id order hget hresolved] at hpool
      cases hpool
    | some pool => exact hwork (.inr ⟨id, order, hget, by rw [hresolved]; rfl⟩)

theorem careful_step (hreach : Reaches env new s) (hexpects : s.Expects input)
    (hcareful : s.Careful env input) (hidle : ∀ p, p ∉ s.focusSet.queue → ¬ s.HasWork env p)
    (h : s.step env input = .ok (s', tx)) (hp : p ∉ s'.focusSet.queue) : ¬ s'.HasWork env p := by
  have hinv := focusInv_of_reaches hspec hreach
  cases input with
  | feedback feedback =>
    obtain ⟨s₁, hrun, h⟩ := bind_eq_ok.1 h
    cases h
    obtain ⟨eff, heff⟩ := Option.isSome_iff_exists.1 hexpects
    obtain ⟨hfocus, -, hothers⟩ := onFeedback_frame heff hrun
    rw [hfocus] at hp
    have hne : p ≠ eff.pair := fun heq => hp (heq ▸ hinv.pending eff heff)
    obtain ⟨hbook, hbacklog⟩ := hothers p hne
    exact not_hasWork_of_local (hcareful eff s' heff hrun) hne hbook hbacklog (hidle p hp)
  | pairEvent q event =>
    obtain ⟨s₁, hrun, h⟩ := bind_eq_ok.1 h
    cases h
    obtain ⟨hfocus, -, hothers⟩ := onPairEvent_frame hrun
    rw [hfocus, mem_pushBack hinv.focused, not_or] at hp
    obtain ⟨hbook, hbacklog⟩ := hothers p hp.2
    exact not_hasWork_of_local (hcareful s' hrun) hp.2 hbook hbacklog (hidle p hp.1)
  | fundingEvent event =>
    cases h
    cases event with
    | consumed b | produced b => exact hidle p hp
  | matchmake =>
    have hready := ready_of_reaches hspec hops hmake hreach hexpects
    obtain ⟨hout, hin⟩ := hasWork_round hspec hops hrestores (round_of_matchmake h) hready hp
    by_cases hmem : p ∈ s.focusSet.queue
    · rw [hin hmem]
      rintro ⟨t, t', hturn, hrun, hleaves⟩
      exact hcareful p t t' hturn hrun hleaves
    · rw [hout hmem]
      exact hidle p hmem

theorem idle_of_careful (hmakeIdle : ∀ pair, ¬ env.book.HasRecipe (env.makeBook pair))
    (hreach : ReachesVia env (fun t input => t.Careful env input) new s) :
    ∀ p, p ∉ s.focusSet.queue → ¬ s.HasWork env p := by
  induction hreach with
  | refl =>
    rintro p - (hrecipe | ⟨id, order, hget, -⟩)
    · exact hmakeIdle p hrecipe
    · cases hget
  | step hreach hexpects hcareful hstep ih =>
    intro p hp
    exact careful_step hspec hops hrestores hmake (hreach.reaches .refl) hexpects hcareful ih hstep hp

/-- **Work is left behind just where a turn leaves it.** After a round without a transaction, no
pair has work just when no pair outside of the focus set had work before the round, and no turn of
the round left work behind: for lack of funding, by a recipe that could not be linked while another
one was there, or by an order that was dropped while another one could be executed. Outside of the
focus set there is no work as long as this is so in all rounds of the run, and events concern their
own pair only. -/
theorem pending_work_iff (hmakeIdle : ∀ pair, ¬ env.book.HasRecipe (env.makeBook pair))
    (hreach : Reaches env new s) (hexpects : s.Expects .matchmake)
    (h : s.step env .matchmake = .ok (s', none)) :
    ((∀ pair, ¬ s'.HasWork env pair) ↔
      (∀ pair, pair ∉ s.focusSet.queue → ¬ s.HasWork env pair) ∧
      ∀ pair t, Turn env s pair t → ¬ t.LeavesWork env pair) ∧
    (ReachesVia env (fun t input => t.Careful env input) new s →
      ∀ pair, pair ∉ s.focusSet.queue → ¬ s.HasWork env pair) := by
  have hround := round_of_matchmake h
  have hready := ready_of_reaches hspec hops hmake hreach hexpects
  have hgone : ∀ p, p ∉ s'.focusSet.queue := by
    intro p
    rw [queue_of_round hround]
    exact not_mem_nil
  refine ⟨⟨fun hwork => ⟨fun p hp => ?_, fun p t hturn hleaves => ?_⟩, fun ⟨hout, hturns⟩ p => ?_⟩,
    idle_of_careful hspec hops hrestores hmake hmakeIdle⟩
  · rw [← (hasWork_round hspec hops hrestores hround hready (hgone p)).1 hp]
    exact hwork p
  · refine hwork p (((hasWork_round hspec hops hrestores hround hready (hgone p)).2
      (mem_queue_of_turn hturn)).2 ?_)
    obtain ⟨t', hrun⟩ := takeTurn_of_turn hturn hround
    exact ⟨t, t', hturn, hrun, hleaves⟩
  · obtain ⟨hsame, hturned⟩ := hasWork_round hspec hops hrestores hround hready (hgone p)
    by_cases hp : p ∈ s.focusSet.queue
    · rw [hturned hp]
      rintro ⟨t, t', hturn, -, hleaves⟩
      exact hturns p t hturn hleaves
    · rw [hsame hp]
      exact hout p hp

end

end Executor

/-! ## The time-aware book -/

section Book

variable {U : Type} [MarketTaker T U] [TakerBehaviour T] [FrontierOrd T] [LinearOrder I]
  [MarketMaker M U] [MakerBehavior M] [Zero U] [Add U] [LT U] [DecidableLT U] [LawfulTaker T]
  [LawfulMaker M] {ord : HashOrder} {conf : ExecutionConfig U} {fuel : ℕ}

theorem tlbOps_restores :
    (tlbOps ord conf fuel : BookOps (TLBState T M I) T M).Restores IsIdle where
  none b b' hidle h := by
    obtain ⟨st, rfl⟩ := hidle
    obtain ⟨s, book, -, -, hb, -, hconclusion⟩ := attempt_cases (tlbOps_attempt h)
    cases hconclusion with
    | failed _ => exact rollback_unstash hb
  failed b b' recipe hidle h := by
    obtain ⟨st, rfl⟩ := hidle
    obtain ⟨s, book, -, -, hb, -, hconclusion⟩ := attempt_cases (tlbOps_attempt h)
    cases hconclusion with
    | recipe _ => exact rollback_unstash hb

theorem not_hasRecipe_of_no_makers {st : IdleState T M I}
    (h : (TLBState.idle st).bestMarketMaker ord = none) :
    ¬ (tlbOps ord conf fuel : BookOps (TLBState T M I) T M).HasRecipe (.idle st) := by
  have hconclude : ∀ s : Matching T M I I U, s.batch = .empty → ∀ book,
      conclude ord conf s book = .ok (.done (none, book.rollback .unstash)) := by
    intro s hs book
    simp only [conclude, MatchmakingRecipe.tryFrom, hs]
    rfl
  have hstep : attemptStep (I := I) ord conf (TLBState.idle st).beginAttempt
      = .ok (.done (none, (TLBState.idle st).rollback .unstash)) := by
    unfold attemptStep
    split
    · have hmatch : matchStep (I := I) ord conf (TLBState.idle st).beginAttempt
          = .ok (.done (.idle st)) := by
        simp only [matchStep, TLBState.beginAttempt, h]
        rfl
      rw [hmatch]
      exact hconclude (TLBState.idle st).beginAttempt rfl (.idle st)
    · exact hconclude (TLBState.idle st).beginAttempt rfl (.idle st)
  rintro ⟨recipe, book, hattempt⟩
  simp only [tlbOps] at hattempt
  cases fuel with
  | zero => cases hattempt
  | succ n =>
    rw [Loop.run, hstep] at hattempt
    cases hattempt

end Book

end Splash.Engine
