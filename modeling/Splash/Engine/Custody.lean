import Splash.Engine.Turn

/-!
# Custody of specialized orders

An order that a backlog accepted is in the backlog, or in the effects of the pending transaction,
until there is a reason for it to go. The one way in which an order goes without a reason is a turn
that pops it while its pool cannot be resolved.

* `step_custody` — what a step does to an order in custody.
* `backlog_keeps_iff` — orders stay just as long as none of them is popped without its pool.
-/

set_option linter.unusedSectionVars false

namespace Splash.Engine

open Lib Data LiquidityBook SpecializedOrder HotPriorityBacklog Exec

variable {PR T M SO I V B K Bk TX : Type} [LinearOrder PR] [LinearOrder V] [LinearOrder B]
  [LinearOrder K] [RawId I K] [Stable T I] [Stable M I] [SpecializedOrder SO V I]

namespace Executor

/-! ## Orders in custody -/

section

variable (env : Env PR T M SO V B Bk TX) (s : Executor PR T M SO V B K Bk) (pair : PR) (id : V)

def InPending : Prop :=
  ∃ eff pool order, s.pendingEffects = some eff ∧ eff.pair = pair ∧
    eff.execution = .fromBacklog pool order ∧ selfRef order = id

/-- The order is in the backlog of the pair, or in the pending effects. -/
def Holds : Prop :=
  ((s.backlogOf env pair).store.get? id).isSome = true ∨ s.InPending pair id

/-- The book has nothing to emit and the order is popped from the backlog. -/
def Pops (order : Bundled SO B) : Prop :=
  (∃ s₁, s.tryBook env pair = .ok (s₁, none)) ∧
    ((s.backlogOf env pair).tryPop env.ord).1 = some order

/-- The turn pops the order while its pool cannot be resolved. -/
def Strands : Prop :=
  ∃ order, s.Pops env pair order ∧ selfRef order = id ∧ s.resolvedPool order = none

/-- The turn pops the order and its interpreter rejects it. -/
def Rejects : Prop :=
  ∃ order pool, s.Pops env pair order ∧ selfRef order = id ∧ s.resolvedPool order = some pool ∧
    env.specInterpreter ⟨pool.entity.entity, pool.bearer⟩ order = none

/-- The reasons for an order to go: it is eliminated or softly evicted by an event, consumed by an
accepted transaction, reported missing, or rejected by its interpreter. -/
def Excused : Input PR T M SO V B → Prop
  | .pairEvent p (.order _ (.eliminated order)) => p = pair ∧ selfRef order = id
  | .feedback .accepted => s.InPending pair id
  | .feedback (.rejected missing) => s.InPending pair id ∧ id ∈ missing.getD []
  | .matchmake => ∃ t, Turn env s pair t ∧ t.Rejects env pair id
  | _ => False

/-- The order is popped without its pool. -/
def Drops : Input PR T M SO V B → Prop
  | .matchmake => ∃ t, Turn env s pair t ∧ t.Strands env pair id
  | _ => False

/-- The order is held and was not softly evicted. -/
structure InCustody : Prop where
  holds : s.Holds env pair id
  fresh : id ∉ (s.backlogOf env pair).softEvictedOrders.filter

end

/-- Backlogs are in order, and the one the pending order came from has room for it. -/
structure CustodyInv (env : Env PR T M SO V B Bk TX) (s : Executor PR T M SO V B K Bk) : Prop where
  queued : ∀ pair, (s.backlogOf env pair).Queued
  room : ∀ pair id, s.InPending pair id →
    0 < (s.backlogOf env pair).capacity ∧ (s.backlogOf env pair).store.get? id = none

variable {env : Env PR T M SO V B Bk TX} {s s' : Executor PR T M SO V B K Bk} {pair p : PR} {id : V}
  {run : Bundled M B → Bundled SO B → Option (TX × Bundled (Baked M V) B)}

theorem not_inPending (hnone : s.pendingEffects = none) : ¬ s.InPending pair id := by
  rintro ⟨eff, pool, order, heff, -⟩
  rw [hnone] at heff
  cases heff

theorem backlogOf_congr (h : s'.multiBacklog = s.multiBacklog) (pair : PR) :
    s'.backlogOf env pair = s.backlogOf env pair := by
  unfold backlogOf
  rw [h]

theorem InCustody.of_keeps (hcustody : s.InCustody env pair id) (hpending : ¬ s.InPending pair id)
    (hkeeps : HotPriorityBacklog.Keeps id (s.backlogOf env pair) (s'.backlogOf env pair)) :
    s'.InCustody env pair id :=
  ⟨.inl (hkeeps.stored (hcustody.holds.resolve_right hpending)), hkeeps.fresh hcustody.fresh⟩

/-! ## Turns -/

/-- The backlog a popped order leaves behind. -/
structure Popped (b b' : HotPriorityBacklog (Bundled SO B) V) (order : Bundled SO B) : Prop where
  stored : b.store.get? (selfRef order) = some order
  store : b'.store = b.store.erase (selfRef order)
  capacity : b'.capacity = b.capacity + 1
  softEvicted : b'.softEvictedOrders = b.softEvictedOrders

/-- What the turn of a pair does to the orders in custody. -/
inductive OrderTurn (env : Env PR T M SO V B Bk TX) (s : Executor PR T M SO V B K Bk) (pair : PR)
    (s' : Executor PR T M SO V B K Bk) : Option TX → Prop where
  | trade {tx : TX} (hbook : s.tryBook env pair = .ok (s', some tx))
      (hbacklog : ∀ p, s'.backlogOf env p = s.backlogOf env p)
      (hpending : ∀ p id, ¬ s'.InPending p id) : OrderTurn env s pair s' (some tx)
  | idle (hpop : ((s.backlogOf env pair).tryPop env.ord).1 = none)
      (hothers : ∀ p, p ≠ pair → s'.backlogOf env p = s.backlogOf env p)
      (hstore : (s'.backlogOf env pair).store = (s.backlogOf env pair).store)
      (hsoft : (s'.backlogOf env pair).softEvictedOrders
        = (s.backlogOf env pair).softEvictedOrders)
      (hnone : s'.pendingEffects = none) : OrderTurn env s pair s' none
  | lost {order : Bundled SO B} (hpop : s.Pops env pair order)
      (hleft : Popped (s.backlogOf env pair) (s'.backlogOf env pair) order)
      (hothers : ∀ p, p ≠ pair → s'.backlogOf env p = s.backlogOf env p)
      (hwhy : s.Strands env pair (selfRef order) ∨ s.Rejects env pair (selfRef order))
      (hnone : s'.pendingEffects = none) : OrderTurn env s pair s' none
  | sent {order : Bundled SO B} {tx : TX} (hpop : s.Pops env pair order)
      (hleft : Popped (s.backlogOf env pair) (s'.backlogOf env pair) order)
      (hothers : ∀ p, p ≠ pair → s'.backlogOf env p = s.backlogOf env p)
      (hresolved : s.resolvedPool order ≠ none)
      (hpending : ∀ p id, s'.InPending p id ↔ p = pair ∧ id = selfRef order) :
      OrderTurn env s pair s' (some tx)

theorem orderTurn_of_takeTurn (hspec : env.specInterpreter = viaRunOrder run) {tx : Option TX}
    (hnone : s.pendingEffects = none) (hqueued : (s.backlogOf env pair).Queued)
    (h : s.takeTurn env pair = .ok (s', tx)) :
    OrderTurn env s pair s' tx ∧ (s'.backlogOf env pair).Queued := by
  rcases takeTurn_cases h with ⟨tx', rfl, hbook, htrade⟩ | ⟨s₁, hbook, hturn, hback⟩
  · obtain ⟨recipe, book, linked, consumed, funding, -, -, -, heq⟩ := htrade
    obtain ⟨rfl, rfl⟩ := Prod.mk.inj heq
    refine ⟨.trade hbook (fun p => rfl) ?_, hqueued⟩
    rintro p id ⟨eff, pool, order, ⟨⟩, -, ⟨⟩, -⟩
  · have hwork := hturn.onlyBook.work
    have hpending : s₁.pendingEffects = none := hwork.pendingEffects.trans hnone
    have hbacklog : ∀ p, s₁.backlogOf env p = s.backlogOf env p :=
      backlogOf_congr hwork.multiBacklog
    have hpool : ∀ order : Bundled SO B, s₁.resolvedPool order = s.resolvedPool order := by
      intro order
      unfold resolvedPool
      rw [hturn.onlyBook.states]
    -- what becomes of the backlogs when the backlog of the pair is replaced
    have hother : ∀ backlog p, p ≠ pair →
        (s₁.setBacklog pair backlog).backlogOf env p = s.backlogOf env p := by
      intro backlog p hp
      rw [backlogOf_setBacklog, if_neg hp, hbacklog]
    have hself : ∀ backlog, (s₁.setBacklog pair backlog).backlogOf env pair = backlog := by
      intro backlog
      rw [backlogOf_setBacklog, if_pos rfl]
    have hleft : ∀ {order backlog}, (s₁.backlogOf env pair).tryPop env.ord = (some order, backlog) →
        Popped (s.backlogOf env pair) backlog order ∧ s.Pops env pair order := by
      intro order backlog hpop
      rw [hbacklog] at hpop
      obtain ⟨hstored, hstore, hcap, hsoft⟩ := tryPop_eq_some hqueued hpop
      exact ⟨⟨hstored, hstore, hcap, hsoft⟩, ⟨⟨s₁, hbook⟩, by rw [hpop]⟩⟩
    have htidy : ∀ {order backlog}, (s₁.backlogOf env pair).tryPop env.ord = (order, backlog) →
        backlog.Queued := by
      intro order backlog hpop
      have hkept := hqueued.tryPop env.ord
      rw [← hbacklog, hpop] at hkept
      exact hkept
    cases hback with
    | empty hpop =>
      obtain ⟨-, hstore, -, hsoft⟩ := tryPop_eq_none hqueued (hbacklog pair ▸ hpop)
      refine ⟨.idle ?_ (hother _) ?_ ?_ hpending, (hself _).symm ▸ htidy hpop⟩
      · rw [← hbacklog, hpop]
      · rw [hself, hstore]
      · rw [hself, hsoft]
    | unresolved hpop hresolved =>
      obtain ⟨hpopped, hpops⟩ := hleft hpop
      refine ⟨.lost hpops ((hself _).symm ▸ hpopped) (hother _) ?_ hpending,
        (hself _).symm ▸ htidy hpop⟩
      exact .inl ⟨_, hpops, rfl, (hpool _).symm.trans hresolved⟩
    | rejected hpop hresolved hrun =>
      obtain ⟨hpopped, hpops⟩ := hleft hpop
      refine ⟨.lost hpops ((hself _).symm ▸ hpopped) (hother _) ?_ hpending,
        (hself _).symm ▸ htidy hpop⟩
      exact .inr ⟨_, _, hpops, rfl, (hpool _).symm.trans hresolved, hrun⟩
    | emitted hpop hresolved hrun =>
      obtain ⟨hpopped, hpops⟩ := hleft hpop
      rw [hspec, viaRunOrder, Option.map_eq_some_iff] at hrun
      obtain ⟨r, -, ⟨⟩⟩ := hrun
      refine ⟨.sent hpops ?_ (hother _) ?_ fun p id => ⟨?_, ?_⟩, ?_⟩
      · exact (hself _).symm ▸ hpopped
      · rw [← hpool, hresolved]
        exact Option.some_ne_none _
      · rintro ⟨eff, pool, order, ⟨⟩, rfl, ⟨⟩, rfl⟩
        exact ⟨rfl, rfl⟩
      · rintro ⟨rfl, rfl⟩
        exact ⟨_, _, _, rfl, rfl, rfl, rfl⟩
      · exact (hself _).symm ▸ htidy hpop

section Turns

variable {tx : Option TX}

section

variable (h : OrderTurn env s pair s' tx)
include h

theorem OrderTurn.others (hp : p ≠ pair) :
    s'.backlogOf env p = s.backlogOf env p := by
  cases h with
  | trade _ hbacklog _ => exact hbacklog p
  | idle _ hothers _ _ _ => exact hothers p hp
  | lost _ _ hothers _ _ => exact hothers p hp
  | sent _ _ hothers _ _ => exact hothers p hp

theorem OrderTurn.pending (hp : s'.InPending p id) :
    p = pair ∧ 0 < (s'.backlogOf env pair).capacity ∧
      (s'.backlogOf env pair).store.get? id = none ∧
      ((s.backlogOf env pair).store.get? id).isSome = true := by
  cases h with
  | trade _ _ hpending => exact absurd hp (hpending p id)
  | idle _ _ _ _ hnone => exact absurd hp (not_inPending hnone)
  | lost _ _ _ _ hnone => exact absurd hp (not_inPending hnone)
  | sent _ hleft _ _ hpending =>
    obtain ⟨rfl, rfl⟩ := (hpending p id).1 hp
    refine ⟨rfl, ?_, ?_, ?_⟩
    · rw [hleft.capacity]
      exact Nat.succ_pos _
    · rw [hleft.store, OrdMap.get?_erase, if_pos rfl]
    · rw [hleft.stored]
      rfl

omit h in
theorem custodyInv_orderTurn (hinv : CustodyInv env s) (h : OrderTurn env s pair s' tx)
    (hqueued : (s'.backlogOf env pair).Queued) : CustodyInv env s' := by
  refine ⟨fun p => ?_, fun p id hp => ?_⟩
  · by_cases hp : p = pair
    · exact hp ▸ hqueued
    · exact h.others hp ▸ hinv.queued p
  · obtain ⟨rfl, hcap, hstore, -⟩ := h.pending hp
    exact ⟨hcap, hstore⟩

theorem OrderTurn.stored_of_holds (hholds : s'.Holds env p id) :
    ((s.backlogOf env p).store.get? id).isSome = true := by
  rcases hholds with hstored | hpending
  · by_cases hp : p = pair
    · subst hp
      cases h with
      | trade _ hbacklog _ => exact hbacklog p ▸ hstored
      | idle _ _ hstore _ _ => exact hstore ▸ hstored
      | lost _ hleft _ _ _ | sent _ hleft _ _ _ =>
        rw [hleft.store, OrdMap.get?_erase] at hstored
        split at hstored
        · cases hstored
        · exact hstored
    · exact h.others hp ▸ hstored
  · obtain ⟨rfl, -, -, hstored⟩ := h.pending hpending
    exact hstored

theorem OrderTurn.inCustody (hnone : s.pendingEffects = none) (hcustody : s.InCustody env p id)
    (hkept : p = pair → ¬ s.Strands env pair id ∧ ¬ s.Rejects env pair id) :
    s'.InCustody env p id := by
  have hstored : ((s.backlogOf env p).store.get? id).isSome = true :=
    hcustody.holds.resolve_right (not_inPending hnone)
  by_cases hp : p = pair
  · subst hp
    obtain ⟨hstrands, hrejects⟩ := hkept rfl
    cases h with
    | trade _ hbacklog _ => exact hcustody.of_keeps (not_inPending hnone) (keeps_of_eq (hbacklog p) _)
    | idle _ _ hstore hsoft _ =>
      refine ⟨.inl ?_, ?_⟩
      · exact hstore.symm ▸ hstored
      · exact hsoft.symm ▸ hcustody.fresh
    | @lost order _ hleft _ hwhy _ =>
      have hne : id ≠ selfRef order := by
        rintro rfl
        exact hwhy.elim hstrands hrejects
      refine ⟨.inl ?_, hleft.softEvicted.symm ▸ hcustody.fresh⟩
      rw [hleft.store, OrdMap.get?_erase, if_neg hne]
      exact hstored
    | @sent order _ _ hleft _ _ hpending =>
      refine ⟨?_, hleft.softEvicted.symm ▸ hcustody.fresh⟩
      by_cases heq : id = selfRef order
      · exact .inr ((hpending p id).2 ⟨rfl, heq⟩)
      · refine .inl ?_
        rw [hleft.store, OrdMap.get?_erase, if_neg heq]
        exact hstored
  · exact hcustody.of_keeps (not_inPending hnone) (keeps_of_eq (h.others hp) _)

theorem OrderTurn.not_holds (hstrands : s.Strands env pair id) :
    ¬ s'.Holds env pair id := by
  obtain ⟨order, ⟨⟨s₁, hbook⟩, hpop⟩, rfl, hpool⟩ := hstrands
  cases h with
  | trade hbook' _ _ => cases hbook.symm.trans hbook'
  | idle hpop' _ _ _ _ => cases hpop.symm.trans hpop'
  | lost hpop' hleft _ _ hnone =>
    cases hpop.symm.trans hpop'.2
    rintro (hstored | hpending)
    · rw [hleft.store, OrdMap.get?_erase, if_pos rfl] at hstored
      cases hstored
    · exact not_inPending hnone hpending
  | sent hpop' _ _ hresolved _ =>
    cases hpop.symm.trans hpop'.2
    exact absurd hpool hresolved

end

theorem OrderTurn.pendingEffects_eq_none (h : OrderTurn env s pair s' (none : Option TX)) :
    s'.pendingEffects = none := by
  cases h with
  | idle _ _ _ _ hnone => exact hnone
  | lost _ _ _ _ hnone => exact hnone

/-- What a round does to an order in custody, and to one that is not. -/
theorem round_custody (hspec : env.specInterpreter = viaRunOrder run) (h : Round env s s' tx)
    (hinv : CustodyInv env s) (hnone : s.pendingEffects = none) :
    CustodyInv env s' ∧ ∀ pair id,
      (s.InCustody env pair id → (¬ ∃ t, Turn env s pair t ∧ t.Rejects env pair id) →
        (¬ ∃ t, Turn env s pair t ∧ t.Strands env pair id) → s'.InCustody env pair id) ∧
      ((∃ t, Turn env s pair t ∧ t.Strands env pair id) → ¬ s'.Holds env pair id) ∧
      (((s.backlogOf env pair).store.get? id).isSome = false → ¬ s'.Holds env pair id) := by
  induction h with
  | done hpop =>
    refine ⟨hinv, fun pair id => ⟨fun hcustody _ _ => hcustody, ?_, fun hgone hholds => ?_⟩⟩
    · rintro ⟨t, hturn, -⟩
      exact absurd hturn (not_turn_of_popFront hpop)
    · rcases hholds with hstored | hpending
      · rw [hgone] at hstored
        cases hstored
      · exact not_inPending hnone hpending
  | @emit s s' first focusSet tx hpop hturn =>
    obtain ⟨hord, hqueued⟩ := orderTurn_of_takeTurn (s := { s with focusSet }) hspec hnone
      (hinv.queued first) hturn
    have hinv' : CustodyInv env { s with focusSet } := ⟨hinv.queued, hinv.room⟩
    refine ⟨custodyInv_orderTurn hinv' hord hqueued, fun pair id =>
      ⟨fun hcustody hrejects hstrands => ?_, ?_, fun hgone hholds => ?_⟩⟩
    · refine hord.inCustody hnone ⟨hcustody.holds, hcustody.fresh⟩ ?_
      rintro rfl
      exact ⟨fun hs => hstrands ⟨_, .now hpop, hs⟩, fun hr => hrejects ⟨_, .now hpop, hr⟩⟩
    · rintro ⟨t, ht, hstrands⟩
      rcases (turn_iff hpop).1 ht with ⟨rfl, rfl⟩ | ⟨_, hturn', -⟩
      · exact hord.not_holds hstrands
      · cases hturn.symm.trans hturn'
    · have hstored : ((s.backlogOf env pair).store.get? id).isSome = true :=
        hord.stored_of_holds hholds
      rw [hgone] at hstored
      cases hstored
  | @skip s s₁ s' first focusSet tx hpop hturn _ ih =>
    obtain ⟨hord, hqueued⟩ := orderTurn_of_takeTurn (s := { s with focusSet }) hspec hnone
      (hinv.queued first) hturn
    have hinv' : CustodyInv env { s with focusSet } := ⟨hinv.queued, hinv.room⟩
    obtain ⟨hinv₁, hrest⟩ := ih (custodyInv_orderTurn hinv' hord hqueued)
      hord.pendingEffects_eq_none
    refine ⟨hinv₁, fun pair id => ?_⟩
    obtain ⟨hcustody₁, hstrands₁, hgone₁⟩ := hrest pair id
    have hlater : ∀ {t}, Turn env s₁ pair t → Turn env s pair t := fun ht => .later hpop hturn ht
    refine ⟨fun hcustody hrejects hstrands => ?_, ?_, fun hgone => ?_⟩
    · refine hcustody₁ (hord.inCustody hnone ⟨hcustody.holds, hcustody.fresh⟩ ?_) ?_ ?_
      · rintro rfl
        exact ⟨fun hs => hstrands ⟨_, .now hpop, hs⟩, fun hr => hrejects ⟨_, .now hpop, hr⟩⟩
      · rintro ⟨t, ht, hr⟩
        exact hrejects ⟨t, hlater ht, hr⟩
      · rintro ⟨t, ht, hs⟩
        exact hstrands ⟨t, hlater ht, hs⟩
    · rintro ⟨t, ht, hs⟩
      rcases (turn_iff hpop).1 ht with ⟨rfl, rfl⟩ | ⟨_, hturn', ht⟩
      · refine hgone₁ (Bool.not_eq_true _ ▸ fun hstored => ?_)
        exact hord.not_holds hs (.inl hstored)
      · cases hturn.symm.trans hturn'
        exact hstrands₁ ⟨t, ht, hs⟩
    · refine hgone₁ (Bool.not_eq_true _ ▸ fun hstored => ?_)
      have hbefore : ((s.backlogOf env pair).store.get? id).isSome = true :=
        hord.stored_of_holds (.inl hstored)
      rw [hgone] at hbefore
      cases hbefore

end Turns

/-! ## Steps -/

section Steps

variable [HasVersion B V] {tx : Option TX} {input : Input PR T M SO V B}

variable {backlog : HotPriorityBacklog (Bundled SO B) V}

theorem keeps_setBacklog
    (h : p = pair → HotPriorityBacklog.Keeps id (s.backlogOf env pair) backlog) :
    HotPriorityBacklog.Keeps id (s.backlogOf env p) ((s.setBacklog pair backlog).backlogOf env p) := by
  rw [backlogOf_setBacklog]
  split
  · next hp => exact hp ▸ h hp
  · exact keeps_of_eq rfl id

theorem queued_setBacklog
    (h : ∀ p, (s.backlogOf env p).Queued) (hbacklog : backlog.Queued) (p : PR) :
    ((s.setBacklog pair backlog).backlogOf env p).Queued := by
  rw [backlogOf_setBacklog]
  split
  · exact hbacklog
  · exact h p

theorem giveBack_custody {eff : Effects PR T M SO V B} (heff : s.pendingEffects = some eff)
    (hinv : CustodyInv env s) (missing : List V) :
    (∀ p, (({ s with pendingEffects := none }.giveBack env eff missing).backlogOf env p).Queued) ∧
    ∀ pair id, s.InCustody env pair id → (s.InPending pair id → id ∉ missing) →
      ({ s with pendingEffects := none }.giveBack env eff missing).InCustody env pair id := by
  unfold giveBack
  split
  case h_1 effects hexec =>
    have hpending : ∀ pair id, ¬ s.InPending pair id := by
      rintro pair id ⟨eff', pool, order, heff', -, hexec', -⟩
      cases heff.symm.trans heff'
      cases hexec.symm.trans hexec'
    refine ⟨hinv.queued, fun pair id hcustody _ => hcustody.of_keeps (hpending pair id) ?_⟩
    exact keeps_of_eq rfl id
  case h_2 pool order hexec =>
    have hmine : s.InPending eff.pair (selfRef order) := ⟨eff, pool, order, heff, rfl, hexec, rfl⟩
    obtain ⟨hcap, hstore⟩ := hinv.room _ _ hmine
    refine ⟨queued_setBacklog hinv.queued ?_, fun pair id hcustody hmissing => ?_⟩
    · split
      · exact (hinv.queued _).softEvict _
      · exact (hinv.queued _).put _
    by_cases hpending : s.InPending pair id
    · obtain ⟨eff', pool', order', heff', rfl, hexec', rfl⟩ := hpending
      cases heff.symm.trans heff'
      cases hexec.symm.trans hexec'
      have haccepts : (s.backlogOf env eff.pair).Accepts (selfRef order) :=
        ⟨hcap, hstore, Bool.eq_false_iff.2 fun h =>
          hcustody.fresh (CircularFilter.contains_iff.1 h)⟩
      have hput := get?_put_self haccepts
      have hfresh := (keeps_put (s.backlogOf env eff.pair) order
        (selfRef order)).fresh hcustody.fresh
      have hnot : ¬ missing.contains (selfRef order) = true := by
        rw [List.contains_iff_mem]
        exact hmissing hmine
      simp only [returnOrder, if_neg hnot]
      refine ⟨.inl ?_, ?_⟩
      · rw [backlogOf_setBacklog, if_pos rfl]
        exact hput ▸ rfl
      · rw [backlogOf_setBacklog, if_pos rfl]
        exact hfresh
    · refine hcustody.of_keeps hpending (keeps_setBacklog (s := s) fun hp => ?_)
      have hne : selfRef order ≠ id := by
        rintro rfl
        exact hpending (hp ▸ hmine)
      split
      · exact keeps_softEvict _ hne
      · exact keeps_put _ _ _

theorem onFeedback_custody {feedback : Feedback V} (hinv : CustodyInv env s)
    (hsome : s.pendingEffects.isSome = true) (h : s.onFeedback env feedback = .ok s') :
    CustodyInv env s' ∧ ∀ pair id, s.InCustody env pair id →
      ¬ s.Excused env pair id (.feedback feedback) → s'.InCustody env pair id := by
  obtain ⟨eff, heff⟩ := Option.isSome_iff_exists.1 hsome
  simp only [onFeedback, heff] at h
  cases feedback with
  | accepted =>
    obtain ⟨s₁, hrun, h⟩ := bind_eq_ok.1 h
    cases h
    have hwork := work_onExecutionEffectsSuccess hrun
    have hbacklog : ∀ p, s₁.backlogOf env p = s.backlogOf env p :=
      backlogOf_congr hwork.multiBacklog
    refine ⟨⟨fun p => ?_, fun p k hp => absurd hp (not_inPending hwork.pendingEffects)⟩,
      fun pair id hcustody hexcused => hcustody.of_keeps hexcused ?_⟩
    · exact (hbacklog p).symm ▸ hinv.queued p
    · exact keeps_of_eq (hbacklog pair) id
  | rejected missing =>
    obtain ⟨s₁, hrun, h⟩ := bind_eq_ok.1 h
    cases h
    have hwork := work_onExecutionEffectsFailure hrun
    have hbacklog : ∀ p, s₁.backlogOf env p = _ := backlogOf_congr hwork.multiBacklog
    obtain ⟨hqueued, hback⟩ := giveBack_custody heff hinv (missing.getD [])
    have hnone : ({ s with pendingEffects := none }.giveBack env eff
        (missing.getD [])).pendingEffects = none := giveBack_pendingEffects _ _ _ _
    refine ⟨⟨fun p => ?_, fun p k hp => ?_⟩, fun pair id hcustody hexcused => ?_⟩
    · exact (hbacklog p).symm ▸ hqueued p
    · exact absurd hp (not_inPending (hwork.pendingEffects.trans hnone))
    · have hkept := hback pair id hcustody fun hpending hmissing => hexcused ⟨hpending, hmissing⟩
      refine hkept.of_keeps (not_inPending hnone) ?_
      exact keeps_of_eq (hbacklog pair) id

theorem onPairEvent_custody {q : PR} {event : PairEvent T M SO V B} (hinv : CustodyInv env s)
    (hnone : s.pendingEffects = none) (h : s.onPairEvent env q event = .ok s') :
    CustodyInv env s' ∧ ∀ pair id, s.InCustody env pair id →
      ¬ s.Excused env pair id (.pairEvent q event) → s'.InCustody env pair id := by
  obtain ⟨s₁, hsync, h⟩ := bind_eq_ok.1 h
  cases h
  cases event with
  | entity channel upd =>
    have hwork := (works_processTransition env.book.respects_true s channel upd trivial).ok hsync
    have hbacklog : ∀ p, s₁.backlogOf env p = s.backlogOf env p :=
      backlogOf_congr hwork.multiBacklog
    refine ⟨⟨fun p => ?_, fun p k hp => ?_⟩, fun pair id hcustody _ => ?_⟩
    · exact (hbacklog p).symm ▸ hinv.queued p
    · exact absurd hp (not_inPending (hwork.pendingEffects.trans hnone))
    · refine hcustody.of_keeps (not_inPending hnone) ?_
      exact keeps_of_eq (hbacklog pair) id
  | order channel upd =>
    cases hsync
    cases upd with
    | created order =>
      simp only [syncBacklog]
      split
      · exact ⟨⟨hinv.queued, hinv.room⟩, fun _ _ hcustody _ => ⟨hcustody.holds, hcustody.fresh⟩⟩
      · refine ⟨⟨queued_setBacklog hinv.queued ((hinv.queued q).put order), fun p k hp => ?_⟩,
          fun pair id hcustody _ => ?_⟩
        · exact absurd hp (not_inPending hnone)
        · exact hcustody.of_keeps (not_inPending hnone)
            (keeps_setBacklog (s := s) fun _ => keeps_put _ _ _)
    | eliminated order =>
      simp only [syncBacklog]
      refine ⟨⟨queued_setBacklog hinv.queued ?_, fun p k hp => ?_⟩,
        fun pair id hcustody hexcused => ?_⟩
      · split
        · exact (hinv.queued q).remove _
        · exact (hinv.queued q).softEvict _
      · exact absurd hp (not_inPending hnone)
      · refine hcustody.of_keeps (not_inPending hnone) (keeps_setBacklog (s := s) fun hp => ?_)
        have hne : selfRef order ≠ id := fun hid => hexcused ⟨hp.symm, hid⟩
        split
        · exact keeps_remove _ hne
        · exact keeps_softEvict _ hne

section

variable (hspec : env.specInterpreter = viaRunOrder run)
include hspec

/-- **What a step does to an order in custody.** Unless there is a reason for it to go, it stays
just when it is not popped without its pool. -/
theorem step_custody (hinv : CustodyInv env s) (hexpects : s.Expects input)
    (h : s.step env input = .ok (s', tx)) :
    CustodyInv env s' ∧ ∀ pair id, s.InCustody env pair id → ¬ s.Excused env pair id input →
      (s.Drops env pair id input → ¬ s'.Holds env pair id) ∧
      (¬ s.Drops env pair id input → s'.InCustody env pair id) := by
  cases input with
  | feedback feedback =>
    obtain ⟨s₁, hrun, h⟩ := bind_eq_ok.1 h
    cases h
    obtain ⟨hinv', hkept⟩ := onFeedback_custody hinv hexpects hrun
    exact ⟨hinv', fun pair id hcustody hexcused =>
      ⟨False.elim, fun _ => hkept pair id hcustody hexcused⟩⟩
  | pairEvent q event =>
    obtain ⟨s₁, hrun, h⟩ := bind_eq_ok.1 h
    cases h
    obtain ⟨hinv', hkept⟩ := onPairEvent_custody hinv hexpects hrun
    exact ⟨hinv', fun pair id hcustody hexcused =>
      ⟨False.elim, fun _ => hkept pair id hcustody hexcused⟩⟩
  | fundingEvent event =>
    cases h
    cases event with
    | consumed b | produced b =>
      exact ⟨⟨hinv.queued, hinv.room⟩, fun _ _ hcustody _ =>
        ⟨False.elim, fun _ => ⟨hcustody.holds, hcustody.fresh⟩⟩⟩
  | matchmake =>
    obtain ⟨hinv', hround⟩ := round_custody hspec (round_of_matchmake h) hinv hexpects
    refine ⟨hinv', fun pair id hcustody hexcused => ?_⟩
    obtain ⟨hkept, hgone, -⟩ := hround pair id
    exact ⟨hgone, fun hdrops => hkept hcustody hexcused hdrops⟩

theorem custodyInv_of_reaches (h : Reaches env new s) : CustodyInv env s := by
  induction h with
  | refl =>
    refine ⟨fun pair => queued_new _, ?_⟩
    rintro pair id ⟨eff, pool, order, ⟨⟩, -⟩
  | step _ hexpects hstep ih => exact (step_custody hspec ih hexpects hstep).1

end

end Steps

end Executor

end Splash.Engine
