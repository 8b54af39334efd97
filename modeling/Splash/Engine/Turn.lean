import Splash.Engine.Frame

/-!
# Turns of a round of matchmaking

What the turn of a pair can do: `BookTurn` lists the ways in which its book is left without a
transaction, `BacklogTurn` what comes of its backlog. `Turn` says which pairs get their turn in a
round, and in which state.

* `takeTurn_cases` — a turn emits the recipe of the book, or goes on with the backlog.
* `round_of_matchmake` — matchmaking goes through a `Round`.
-/

set_option linter.unusedSectionVars false

namespace Splash.Engine

open Lib Data LiquidityBook Exec

variable {PR T M SO I V B K Bk TX : Type} [LinearOrder PR] [LinearOrder V] [LinearOrder B]
  [LinearOrder K]

namespace Executor

variable [RawId I K] [Stable T I] [Stable M I] {env : Env PR T M SO V B Bk TX}
  {s s' t : Executor PR T M SO V B K Bk} {pair : PR} {tx : Option TX}

/-! ## The book of a pair -/

inductive BookTurn (env : Env PR T M SO V B Bk TX) (s : Executor PR T M SO V B K Bk) (pair : PR) :
    Executor PR T M SO V B K Bk → Prop where
  | exhausted {book : Bk} (hattempt : env.book.attempt (s.bookOf env pair) = .ok (none, book)) :
      BookTurn env s pair (s.setBook pair book)
  | unfunded {recipe : MatchmakingRecipe T M} {book : Bk} {linked : ExecutionRecipe T M B}
      {consumed : List V}
      (hattempt : env.book.attempt (s.bookOf env pair) = .ok (some recipe, book))
      (hlink : s.linkAll recipe.instructions = (linked, consumed, []))
      (hfunding : s.fundingPool.first? = none) :
      BookTurn env s pair ((s.setBook pair book).failRecipe env pair)
  | orphaned {recipe : MatchmakingRecipe T M} {book : Bk} {linked : ExecutionRecipe T M B}
      {consumed : List V} {orphans : List (Orphan T M)} {s' : Executor PR T M SO V B K Bk}
      (hattempt : env.book.attempt (s.bookOf env pair) = .ok (some recipe, book))
      (hlink : s.linkAll recipe.instructions = (linked, consumed, orphans)) (hne : orphans ≠ [])
      (hremove : (s.setBook pair book).onLinkageFailure env pair orphans = .ok s') :
      BookTurn env s pair s'

/-- A trade is emitted: the recipe of the book is linked and there is a funding box. -/
structure EmitsTrade (env : Env PR T M SO V B Bk TX) (s : Executor PR T M SO V B K Bk) (pair : PR)
    (s' : Executor PR T M SO V B K Bk) (tx : TX) : Prop where
  trade : ∃ recipe book linked consumed funding,
    env.book.attempt (s.bookOf env pair) = .ok (some recipe, book) ∧
    s.linkAll recipe.instructions = (linked, consumed, []) ∧
    s.fundingPool.first? = some funding ∧
    (s', tx) = (s.setBook pair book).emitTrade env pair linked consumed funding

theorem linkAll_congr (h : s.states = t.states)
    (instructions : List (TakeInProgress T ⊕ MakeInProgress M)) :
    s.linkAll instructions = t.linkAll instructions := by
  induction instructions with
  | nil => rfl
  | cons i rest ih => cases i <;> simp only [linkAll, ih, resolved, h]

theorem tryBook_cases (h : s.tryBook env pair = .ok (s', tx)) :
    (∃ tx', tx = some tx' ∧ EmitsTrade env s pair s' tx') ∨ (tx = none ∧ BookTurn env s pair s') := by
  unfold tryBook at h
  split at h
  case h_1 => cases h
  case h_2 book hattempt =>
    cases h
    exact .inr ⟨rfl, .exhausted hattempt⟩
  case h_3 recipe book hattempt =>
    have hlinkAll := linkAll_congr (s := s.setBook pair book) (t := s) rfl recipe.instructions
    unfold executeRecipe at h
    split at h
    case h_1 linked consumed hlink =>
      rw [hlinkAll] at hlink
      split at h
      case h_1 funding hfunding =>
        cases h
        exact .inl ⟨_, rfl, ⟨recipe, book, linked, consumed, funding, hattempt, hlink, hfunding, rfl⟩⟩
      case h_2 hfunding =>
        cases h
        exact .inr ⟨rfl, .unfunded hattempt hlink hfunding⟩
    case h_2 linked consumed orphans hne hlink =>
      rw [hlinkAll] at hlink
      obtain ⟨s₁, hremove, hs₁⟩ := bind_eq_ok.1 h
      cases hs₁
      exact .inr ⟨rfl, .orphaned hattempt hlink hne hremove⟩

theorem states_removeOrphans {orphans : List (Orphan T M)}
    (h : removeOrphans env pair orphans s = .ok s') : s'.states = s.states := by
  induction orphans generalizing s with
  | nil =>
    cases h
    rfl
  | cons o orphans ih =>
    have hone : ∀ {f : Bk → Exec Bk} {s₁}, s.mutateBook env pair f = .ok s₁ →
        s₁.states = s.states := by
      intro f s₁ hs₁
      unfold mutateBook at hs₁
      split at hs₁
      · cases hs₁
        rfl
      · cases hs₁
    cases o with
    | inl taker =>
      obtain ⟨s₁, hs₁, h⟩ := bind_eq_ok.1 h
      exact (ih h).trans (hone hs₁)
    | inr maker =>
      obtain ⟨s₁, hs₁, h⟩ := bind_eq_ok.1 h
      exact (ih h).trans (hone hs₁)

/-- A turn without a transaction leaves everything but the book of its pair. -/
structure OnlyBook (env : Env PR T M SO V B Bk TX) (pair : PR)
    (s s' : Executor PR T M SO V B K Bk) : Prop where
  states : s'.states = s.states
  work : Work env (fun _ => True) pair s s'

theorem OnlyBook.setBook (s : Executor PR T M SO V B K Bk) (book : Bk) :
    OnlyBook env pair s (s.setBook pair book) :=
  ⟨rfl, Work.ofBook s fun _ => trivial⟩

theorem OnlyBook.trans {s'' : Executor PR T M SO V B K Bk} (h : OnlyBook env pair s s')
    (h' : OnlyBook env pair s' s'') : OnlyBook env pair s s'' :=
  ⟨h'.states.trans h.states, h.work.trans h'.work⟩

theorem BookTurn.onlyBook (h : BookTurn env s pair s') : OnlyBook env pair s s' := by
  cases h with
  | exhausted hattempt => exact OnlyBook.setBook s _
  | unfunded hattempt hlink hfunding =>
    exact (OnlyBook.setBook s _).trans (OnlyBook.setBook _ _)
  | orphaned hattempt hlink hne hremove =>
    have hpurge : OnlyBook env pair _ s' :=
      ⟨states_removeOrphans hremove,
        (works_removeOrphans env.book.respects_true _ _ trivial).ok hremove⟩
    exact ((OnlyBook.setBook s _).trans (OnlyBook.setBook _ _)).trans hpurge

/-! ## The backlog of a pair -/

variable [SpecializedOrder SO V I]

inductive BacklogTurn (env : Env PR T M SO V B Bk TX) (s : Executor PR T M SO V B K Bk)
    (pair : PR) : Executor PR T M SO V B K Bk × Option TX → Prop where
  | empty {backlog : HotPriorityBacklog (Bundled SO B) V}
      (hpop : (s.backlogOf env pair).tryPop env.ord = (none, backlog)) :
      BacklogTurn env s pair (s.setBacklog pair backlog, none)
  | unresolved {order : Bundled SO B} {backlog : HotPriorityBacklog (Bundled SO B) V}
      (hpop : (s.backlogOf env pair).tryPop env.ord = (some order, backlog))
      (hpool : s.resolvedPool order = none) :
      BacklogTurn env s pair (s.setBacklog pair backlog, none)
  | rejected {order : Bundled SO B} {backlog : HotPriorityBacklog (Bundled SO B) V}
      {pool : Bundled (Baked M V) B}
      (hpop : (s.backlogOf env pair).tryPop env.ord = (some order, backlog))
      (hpool : s.resolvedPool order = some pool)
      (hrun : env.specInterpreter ⟨pool.entity.entity, pool.bearer⟩ order = none) :
      BacklogTurn env s pair (s.setBacklog pair backlog, none)
  | emitted {order : Bundled SO B} {backlog : HotPriorityBacklog (Bundled SO B) V}
      {pool updatedPool : Bundled (Baked M V) B} {consumedOrd : Bundled SO B} {tx : TX}
      (hpop : (s.backlogOf env pair).tryPop env.ord = (some order, backlog))
      (hpool : s.resolvedPool order = some pool)
      (hrun : env.specInterpreter ⟨pool.entity.entity, pool.bearer⟩ order
        = some (tx, updatedPool, consumedOrd)) :
      BacklogTurn env s pair
        ({ s.setBacklog pair backlog with
            pendingEffects := some ⟨pair,
              [pool.entity.version, SpecializedOrder.selfRef consumedOrd].dedup,
              .fromBacklog updatedPool consumedOrd, []⟩
            focusSet := s.focusSet.pushBack pair }, some tx)

theorem tryBacklog_cases (s : Executor PR T M SO V B K Bk) (pair : PR) :
    BacklogTurn env s pair (s.tryBacklog env pair) := by
  unfold tryBacklog
  cases hpop : (s.backlogOf env pair).tryPop env.ord with
  | mk order backlog =>
    cases order with
    | none => exact .empty hpop
    | some order =>
      simp only [Option.elim_some, executeOrder]
      cases hpool : s.resolvedPool order with
      | none =>
        have hpool' : (s.setBacklog pair backlog).resolvedPool order = none := hpool
        simp only [hpool', Option.bind_none, Option.getD_none]
        exact .unresolved hpop hpool
      | some pool =>
        have hpool' : (s.setBacklog pair backlog).resolvedPool order = some pool := hpool
        simp only [hpool', Option.bind_some]
        cases hrun : env.specInterpreter ⟨pool.entity.entity, pool.bearer⟩ order with
        | none => exact .rejected hpop hpool hrun
        | some r => exact .emitted hpop hpool hrun

/-- **A turn emits the recipe of the book, or goes on with the backlog.** -/
theorem takeTurn_cases (h : s.takeTurn env pair = .ok (s', tx)) :
    (∃ tx', tx = some tx' ∧ s.tryBook env pair = .ok (s', some tx') ∧
      EmitsTrade env s pair s' tx') ∨
    ∃ s₁, s.tryBook env pair = .ok (s₁, none) ∧ BookTurn env s pair s₁ ∧
      BacklogTurn env s₁ pair (s', tx) := by
  obtain ⟨⟨s₁, tx₁⟩, hbook, h⟩ := bind_eq_ok.1 h
  rcases tryBook_cases hbook with ⟨tx', rfl, htrade⟩ | ⟨rfl, hturn⟩
  · cases h
    exact .inl ⟨tx', rfl, hbook, htrade⟩
  · have hback : BacklogTurn env s₁ pair (s₁.tryBacklog env pair) := tryBacklog_cases s₁ pair
    have heq : s₁.tryBacklog env pair = (s', tx) := Except.ok.inj h
    rw [heq] at hback
    exact .inr ⟨s₁, hbook, hturn, hback⟩

/-! ## Rounds -/

/-- In a round that starts in `s`, the pair gets its turn in state `t`. -/
inductive Turn (env : Env PR T M SO V B Bk TX) :
    Executor PR T M SO V B K Bk → PR → Executor PR T M SO V B K Bk → Prop where
  | now {s : Executor PR T M SO V B K Bk} {pair : PR} {focusSet : FocusSet PR}
      (hpop : s.focusSet.popFront = some (pair, focusSet)) : Turn env s pair { s with focusSet }
  | later {s s₁ t : Executor PR T M SO V B K Bk} {first pair : PR} {focusSet : FocusSet PR}
      (hpop : s.focusSet.popFront = some (first, focusSet))
      (hturn : ({ s with focusSet } : Executor PR T M SO V B K Bk).takeTurn env first = .ok (s₁, none))
      (hrest : Turn env s₁ pair t) : Turn env s pair t

/-- A round: the pairs of the queue have their turns one after another, until one of them emits a
transaction. -/
inductive Round (env : Env PR T M SO V B Bk TX) :
    Executor PR T M SO V B K Bk → Executor PR T M SO V B K Bk → Option TX → Prop where
  | done {s : Executor PR T M SO V B K Bk} (hpop : s.focusSet.popFront = none) : Round env s s none
  | emit {s s' : Executor PR T M SO V B K Bk} {pair : PR} {focusSet : FocusSet PR} {tx : TX}
      (hpop : s.focusSet.popFront = some (pair, focusSet))
      (hturn : ({ s with focusSet } : Executor PR T M SO V B K Bk).takeTurn env pair
        = .ok (s', some tx)) : Round env s s' (some tx)
  | skip {s s₁ s' : Executor PR T M SO V B K Bk} {pair : PR} {focusSet : FocusSet PR}
      {tx : Option TX} (hpop : s.focusSet.popFront = some (pair, focusSet))
      (hturn : ({ s with focusSet } : Executor PR T M SO V B K Bk).takeTurn env pair
        = .ok (s₁, none))
      (hrest : Round env s₁ s' tx) : Round env s s' tx

theorem FocusSet.queue_popFront {f f' : FocusSet PR} {pair : PR}
    (h : f.popFront = some (pair, f')) : f.queue = pair :: f'.queue := by
  unfold FocusSet.popFront at h
  split at h
  · cases h
  · next hq =>
    cases h
    exact hq

theorem focusSet_takeTurn (h : s.takeTurn env pair = .ok (s', none)) :
    s'.focusSet = s.focusSet := by
  rcases takeTurn_cases h with ⟨tx', htx, -⟩ | ⟨s₁, -, hbook, hback⟩
  · cases htx
  · have hfocus : s'.focusSet = s₁.focusSet := by cases hback <;> rfl
    rw [hfocus, hbook.onlyBook.work.focusSet]

theorem round_of_matchmakeLoop {n : ℕ} (hn : n = s.focusSet.queue.length)
    (h : matchmakeLoop env n s = .ok (s', tx)) : Round env s s' tx := by
  induction n generalizing s with
  | zero =>
    have hq : s.focusSet.queue = [] := List.eq_nil_of_length_eq_zero hn.symm
    cases h
    exact .done (by simp [FocusSet.popFront, hq])
  | succ n ih =>
    unfold matchmakeLoop at h
    split at h
    case h_1 hpop =>
      cases h
      exact .done hpop
    case h_2 pair focusSet hpop =>
      obtain ⟨⟨s₁, tx₁⟩, hturn, h⟩ := bind_eq_ok.1 h
      cases tx₁ with
      | some tx' =>
        cases h
        exact .emit hpop hturn
      | none =>
        have hlen : n = s₁.focusSet.queue.length := by
          have hq := FocusSet.queue_popFront hpop
          rw [focusSet_takeTurn hturn]
          rw [hq, List.length_cons] at hn
          exact Nat.succ.inj hn
        exact .skip hpop hturn (ih hlen h)

/-- **Matchmaking goes through a round.** -/
theorem round_of_matchmake (h : s.matchmake env = .ok (s', tx)) : Round env s s' tx :=
  round_of_matchmakeLoop rfl h

/-! ## The turns of a round -/

theorem not_turn_of_popFront (hpop : s.focusSet.popFront = none) : ¬ Turn env s pair t := by
  intro h
  cases h with
  | now hpop' => cases hpop.symm.trans hpop'
  | later hpop' _ _ => cases hpop.symm.trans hpop'

theorem turn_iff {first : PR} {focusSet : FocusSet PR}
    (hpop : s.focusSet.popFront = some (first, focusSet)) :
    Turn env s pair t ↔ (pair = first ∧ t = { s with focusSet }) ∨
      ∃ s₁, ({ s with focusSet } : Executor PR T M SO V B K Bk).takeTurn env first = .ok (s₁, none) ∧
        Turn env s₁ pair t := by
  constructor
  · intro h
    cases h with
    | now hpop' =>
      cases hpop.symm.trans hpop'
      exact .inl ⟨rfl, rfl⟩
    | later hpop' hturn hrest =>
      cases hpop.symm.trans hpop'
      exact .inr ⟨_, hturn, hrest⟩
  · rintro (⟨rfl, rfl⟩ | ⟨s₁, hturn, hrest⟩)
    · exact .now hpop
    · exact .later hpop hturn hrest

end Executor

end Splash.Engine
