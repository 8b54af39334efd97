import Splash.LiquidityBook.Laws

/-!
# Rounds of an attempt

A round is the part of an attempt between two rollbacks. What a rollback restores is called the
base of the book here; nothing that happens in a round changes it.

* `base_pick`, `base_onTake` — the base survives the operations of the matching loop.
* `RoundInv` — every taker of the book is one of the base or was traded in this round, and every
  take of the batch starts from a taker of the base.
* `RoundInv.step`, `RoundInv.done` — the invariant through an iteration and out of the loop.
-/

namespace Splash.LiquidityBook

open Lib MarketTaker TakerBehaviour MarketTakers List TLBState

variable {T M I J U : Type} [MarketTaker T U] [FrontierOrd T] [LinearOrder J] [Stable M J]

/-! ## The base of a book -/

/-- What a rollback restores. -/
structure Base (T M J : Type) {U : outParam Type} [MarketTaker T U] [FrontierOrd T]
    [LinearOrder J] [Stable M J] where
  takers : Chronology T
  stash : List T
  makers : MarketMakers M J

namespace TLBState

def base : TLBState T M J → Base T M J
  | .idle st => ⟨st.takers, [], st.makers⟩
  | .partialPreview st =>
    ⟨{ st.takersPreview with
        active := st.takersPreview.active.insertAll st.consumedActiveTakers.reverse },
      st.stashedActiveTakers, st.makersIntact⟩
  | .preview st => ⟨st.takersIntact, st.stashedActiveTakers, st.makersIntact⟩

def isIdle : TLBState T M J → Bool
  | .idle _ => true
  | _ => false

variable {book : TLBState T M J} {t : T} {pid : J}

@[simp] theorem base_stash : book.base.stash = book.stashedActiveTakers := by cases book <;> rfl

@[simp] theorem base_timeNow : book.base.takers.timeNow = book.currentTime := by cases book <;> rfl

theorem base_pick (ht : t ∈ book.activeFragments) : (book.pick t).base = book.base := by
  have hput : (book.activeFragments.remove t).insert t = book.activeFragments :=
    insert_remove ht
  cases book with
  | idle st =>
    simp only [pick, pickedActive, base, reverse_singleton, insertAll,
      foldl_cons, foldl_nil]
    exact congrArg (fun a => (⟨{ st.takers with active := a }, [], st.makers⟩ : Base T M J)) hput
  | partialPreview st =>
    simp only [pick, pickedActive, base, reverse_append, reverse_singleton,
      insertAll, singleton_append, foldl_cons]
    rw [hput]
    rfl
  | preview st => rfl

@[simp] theorem base_moveIntoPreview : (TLBState.preview book.moveIntoPreview).base = book.base := by
  cases book <;> rfl

@[simp] theorem base_preAddTaker : (book.preAddTaker t).base = book.base := by
  unfold preAddTaker PreviewState.addTaker
  split <;> exact base_moveIntoPreview

@[simp] theorem base_preAddMaker [MarketMaker M U] {m : M} : (book.preAddMaker m).base = book.base :=
  base_moveIntoPreview

@[simp] theorem base_pickMakerById : (book.pickMakerById pid).2.base = book.base := by
  cases book <;> rfl

variable {next : Next T TerminalTake} {makers : MarketMakers M J} {stash : List T}
  {takers : Chronology T}

@[simp] theorem base_onTake : (book.onTake next).base = book.base := by
  cases next with
  | succ t => exact base_preAddTaker
  | term _ => rfl

@[simp] theorem isIdle_pick : (book.pick t).isIdle = false := by cases book <;> rfl

@[simp] theorem isIdle_preAddTaker : (book.preAddTaker t).isIdle = false := rfl

/-- A rollback works on the base alone. Of an idle book nothing can be stashed. -/
theorem rollback_eq {opt : StashingOption T}
    (hopt : book.isIdle → opt = .unstash ∨ opt = .stash []) :
    book.rollback opt =
      let (active, stash) := opt.apply book.base.takers.active book.base.stash
      .settled { book.base.takers with active := active } stash book.base.makers := by
  cases book with
  | idle st => rcases hopt rfl with rfl | rfl <;> rfl
  | partialPreview st => rfl
  | preview st => rfl

@[simp] theorem base_settled :
    (settled takers stash makers).base = ⟨takers, stash, makers⟩ := by
  unfold settled
  split
  case isTrue h => rw [isEmpty_iff.1 h]; rfl
  case isFalse => rfl

@[simp] theorem activeFragments_settled
    : (settled takers stash makers).activeFragments = takers.active := by
  unfold settled
  split <;> rfl

@[simp] theorem pools_settled : (settled takers stash makers).pools = makers := by
  unfold settled
  split <;> rfl

theorem pools_rollback {opt : StashingOption T} :
    (book.rollback opt).pools = book.base.makers := by
  cases book with
  | idle st => rfl
  | partialPreview st => exact pools_settled
  | preview st => exact pools_settled

/-! ## Takers shown by a book -/

/-- Takers that become active later and are not committed yet. -/
def changeset : TLBState T M J → List (ℕ × T)
  | .preview st => st.inactiveTakersChangeset
  | _ => []

/-- The book has the taker among its active takers or in its changeset. -/
def Shows (book : TLBState T M J) (t : T) : Prop :=
  t ∈ book.activeFragments ∨ ∃ time, (time, t) ∈ book.changeset

variable {x : T}

@[simp] theorem changeset_pick : (book.pick t).changeset = book.changeset := by cases book <;> rfl

theorem shows_of_shows_pick (h : (book.pick t).Shows x) : book.Shows x := by
  unfold Shows at h ⊢
  rw [activeFragments_pick, changeset_pick] at h
  exact h.imp_left fun hx => (mem_remove.1 hx).1

theorem Shows.pick (ht : t ∈ book.activeFragments) (h : book.Shows x) :
    (book.pick t).Shows x ∨ x = t := by
  unfold Shows
  rw [activeFragments_pick, changeset_pick]
  rcases h with hx | hx
  · by_cases hxt : x = t
    · exact .inr hxt
    · exact .inl (.inl ((mem_remove_of_mem ht).2 ⟨hx, hxt⟩))
  · exact .inl (.inr hx)

theorem changeset_moveIntoPreview :
    book.moveIntoPreview.inactiveTakersChangeset = book.changeset := by
  cases book <;> rfl

theorem changeset_preAddTaker : (book.preAddTaker t).changeset =
    match (timeBounds t).futureBound book.currentTime with
    | some lowerBound => book.changeset ++ [(lowerBound, t)]
    | none => book.changeset := by
  unfold preAddTaker PreviewState.addTaker
  cases (timeBounds t).futureBound book.currentTime <;>
    simp only [changeset, changeset_moveIntoPreview]

theorem shows_preAddTaker_cases (h : (book.preAddTaker t).Shows x) : book.Shows x ∨ x = t := by
  unfold Shows at h ⊢
  rw [activeFragments_preAddTaker, changeset_preAddTaker] at h
  cases hb : (timeBounds t).futureBound book.currentTime with
  | some lowerBound =>
    simp only [hb, Option.isSome_some, if_true, mem_append, mem_singleton,
      Prod.mk.injEq] at h
    grind
  | none =>
    simp only [hb, Option.isSome_none, Bool.false_eq_true, if_false, mem_insert] at h
    grind

theorem Shows.preAddTaker (h : book.Shows x) : (book.preAddTaker t).Shows x := by
  unfold Shows at h ⊢
  rw [activeFragments_preAddTaker, changeset_preAddTaker]
  cases hb : (timeBounds t).futureBound book.currentTime with
  | some lowerBound => simpa [hb] using h.imp_right fun ⟨time, htime⟩ => ⟨time, .inl htime⟩
  | none => simpa [hb] using h.imp_left fun hx => mem_insert.2 (.inl hx)

theorem shows_preAddTaker_self (h : ∀ y ∈ book.activeFragments, ¬ MarketTakers.Collide t y) :
    (book.preAddTaker t).Shows t := by
  unfold Shows
  rw [activeFragments_preAddTaker, changeset_preAddTaker]
  cases hb : (timeBounds t).futureBound book.currentTime with
  | some lowerBound => exact .inr ⟨lowerBound, by simp⟩
  | none => exact .inl (by simpa [mem_insert] using .inr h)

theorem shows_onTake_cases (h : (book.onTake next).Shows x) :
    book.Shows x ∨ next = .succ x := by
  cases next with
  | succ t => exact (shows_preAddTaker_cases h).imp_right (congrArg Next.succ ·.symm)
  | term _ => exact .inl h

theorem Shows.onTake (h : book.Shows x) :
    (book.onTake next).Shows x := by
  cases next with
  | succ t => exact h.preAddTaker
  | term _ => exact h

theorem mem_activeFragments_onTake
    (h : x ∈ (book.onTake next).activeFragments) : x ∈ book.activeFragments ∨ next = .succ x := by
  cases next with
  | term _ => exact .inl h
  | succ t =>
    rw [onTake, activeFragments_preAddTaker] at h
    split at h
    · exact .inl h
    · rcases mem_insert.1 h with h | ⟨rfl, -⟩
      · exact .inl h
      · exact .inr rfl

@[simp] theorem pools_onTake :
    (book.onTake next).pools = book.pools := by
  cases next with
  | term _ => rfl
  | succ t => exact pools_preAddTaker

@[simp] theorem shows_pickMakerById : (book.pickMakerById pid).2.Shows x ↔ book.Shows x := by
  cases book <;> rfl

@[simp] theorem shows_preAddMaker [MarketMaker M U] {m : M} :
    (book.preAddMaker m).Shows x ↔ book.Shows x := by
  cases book <;> rfl

end TLBState

/-! ## The invariant of a round -/

section Round

variable [LinearOrder I] [Stable T I]

/-- What holds throughout a round that started from the base `b`, while the takers `held` are
picked and neither traded nor put back yet. -/
structure RoundInv (b : Base T M J) (held : List T) (book : TLBState T M J)
    (batch : MatchmakingAttempt T M I J U) : Prop where
  base_eq : book.base = b
  /-- Every take starts from a taker of the base. -/
  take_base : ∀ {id take}, batch.takes.get? id = some take →
    take.target ∈ b.takers.active ∧ stableId take.target = id
  /-- Every taker at hand is one of the base or a later version of a traded one. -/
  known : ∀ {t}, book.Shows t ∨ t ∈ held →
    t ∈ b.takers.active ∨ (batch.takes.get? (stableId t)).isSome
  /-- Every taker of the base is at hand or was traded. -/
  kept : ∀ {t}, t ∈ b.takers.active →
    (book.Shows t ∨ t ∈ held) ∨ (batch.takes.get? (stableId t)).isSome
  /-- Nothing was traded while the book is idle. -/
  busy : book.isIdle → ∀ id, batch.takes.get? id = none

namespace RoundInv

variable {b : Base T M J} {held : List T} {book : TLBState T M J}
  {batch : MatchmakingAttempt T M I J U} {t : T}

section

variable (h : RoundInv b held book batch)
include h

theorem pick (ht : t ∈ book.activeFragments) :
    RoundInv b (t :: held) (book.pick t) batch where
  base_eq := (base_pick ht).trans h.base_eq
  take_base := h.take_base
  known := by
    rintro x (hx | hx)
    · exact h.known (.inl (shows_of_shows_pick hx))
    · rcases mem_cons.1 hx with rfl | hx
      · exact h.known (.inl (.inl ht))
      · exact h.known (.inr hx)
  kept := by
    intro x hx
    rcases h.kept hx with (hs | hheld) | htaken
    · rcases hs.pick ht with hs | rfl
      · exact .inl (.inl hs)
      · exact .inl (.inr mem_cons_self)
    · exact .inl (.inr (mem_cons_of_mem _ hheld))
    · exact .inr htaken
  busy hidle := by simp at hidle

theorem putBack (ht : t ∈ book.activeFragments) :
    RoundInv b held ((book.pick t).preAddTaker t) batch := by
  have hp := h.pick ht
  refine ⟨base_preAddTaker.trans hp.base_eq, h.take_base, ?_, ?_, fun hidle => ?_⟩
  · rintro x (hx | hx)
    · rcases shows_preAddTaker_cases hx with hx | rfl
      · exact hp.known (.inl hx)
      · exact hp.known (.inr mem_cons_self)
    · exact h.known (.inr hx)
  · intro x hx
    rcases hp.kept hx with (hs | hheld) | htaken
    · exact .inl (.inl hs.preAddTaker)
    · rcases mem_cons.1 hheld with rfl | hheld
      · refine .inl (.inl (shows_preAddTaker_self fun y hy => ?_))
        rw [activeFragments_pick] at hy
        exact (mem_remove.1 hy).2
      · exact .inl (.inr hheld)
    · exact .inr htaken
  · cases hidle

theorem congr_held {held' : List T}
    (hheld : ∀ x, x ∈ held ↔ x ∈ held') : RoundInv b held' book batch where
  base_eq := h.base_eq
  take_base := h.take_base
  known ht := h.known (ht.imp_right (hheld _).2)
  kept ht := (h.kept ht).imp_left (Or.imp_right (hheld _).1)
  busy := h.busy

theorem onMake [MarketMaker M U] {m : M} :
    RoundInv b held (book.onMake m) batch where
  base_eq := base_preAddMaker.trans h.base_eq
  take_base := h.take_base
  known := by
    intro t ht
    rw [TLBState.onMake, shows_preAddMaker] at ht
    exact h.known ht
  kept := by
    intro t ht
    rw [TLBState.onMake, shows_preAddMaker]
    exact h.kept ht
  busy hidle := by cases hidle

end

variable [Add U]

theorem settle {take : TakeInProgress T} (h : RoundInv b (take.target :: held) book batch)
    (hidle : book.isIdle = false)
    (hid : ∀ {t'}, take.result = .succ t' → stableId t' = stableId take.target) :
    RoundInv b held (book.onTake take.result) (batch.addTake take) := by
  have hgrow : ∀ {id}, (batch.takes.get? id).isSome →
      ((batch.addTake take).takes.get? id).isSome := by
    intro id hsome
    rw [MatchmakingAttempt.get?_takes_addTake]
    split
    · rfl
    · exact hsome
  have hself : ∀ {id}, id = stableId take.target →
      ((batch.addTake take).takes.get? id).isSome := by
    rintro id rfl
    simp
  refine ⟨base_onTake.trans h.base_eq, ?_, ?_, ?_, fun hbusy => ?_⟩
  · intro id tk htk
    rw [MatchmakingAttempt.get?_takes_addTake] at htk
    split at htk
    case isFalse => exact h.take_base htk
    case isTrue hsid =>
      subst hsid
      cases Option.some.inj htk
      cases hearlier : batch.takes.get? (stableId take.target) with
      | some existing =>
        have hexisting := h.take_base hearlier
        exact hexisting
      | none =>
        -- the first fill of this taker, so it is a taker of the base
        rcases h.known (.inr mem_cons_self) with hbase | hsome
        · exact ⟨hbase, rfl⟩
        · simp [hearlier] at hsome
  · rintro x (hx | hx)
    · rcases shows_onTake_cases hx with hx | hx
      · exact (h.known (.inl hx)).imp_right hgrow
      · exact .inr (hself (hid hx))
    · exact (h.known (.inr (mem_cons_of_mem _ hx))).imp_right hgrow
  · intro x hx
    rcases h.kept hx with (hs | hheld) | htaken
    · exact .inl (.inl hs.onTake)
    · rcases mem_cons.1 hheld with rfl | hheld
      · exact .inr (hself rfl)
      · exact .inl (.inr hheld)
    · exact .inr (hgrow htaken)
  · cases hres : take.result with
    | succ t => simp [TLBState.onTake, hres] at hbusy
    | term _ => simp [TLBState.onTake, hres, hidle] at hbusy

/-- Makers play no part in the invariant. -/
theorem onMaker [MarketMaker M U] {pid : J} {make : MakeInProgress M}
    (h : RoundInv b held book batch) :
    RoundInv b held (book.pickMakerById pid).2 (batch.addMake make) where
  base_eq := base_pickMakerById.trans h.base_eq
  take_base := h.take_base
  known := by
    intro t ht
    rw [shows_pickMakerById] at ht
    exact h.known ht
  kept := by
    intro t ht
    rw [shows_pickMakerById]
    exact h.kept ht
  busy hidle := by cases book <;> cases hidle

variable [TakerBehaviour T] [MarketMaker M U] [MakerBehavior M] {s s' : Matching T M I J U}

theorem leave {book : TLBState T M J} (h : RoundInv b [] s.book s.batch)
    (hcase : MatchCase s (.done book)) : RoundInv b [] book s.batch := by
  cases hcase with
  | stop => exact h
  | unmatched htarget => exact h.putBack htarget

variable [LawfulTaker T] [LawfulMaker M]

theorem fill {fill : Fill T M} (h : RoundInv b [] s.book s.batch) (hfill : Filled s fill s') :
    RoundInv b [] s'.book s'.batch := by
  cases hfill with
  | @taker target counter takeA takeB spot htarget hcounter hside hprice hexec =>
    have hheld : RoundInv b [counter, target] ((s.book.pick target).pick counter) s.batch :=
      (h.pick htarget).pick (by rwa [activeFragments_pick])
    obtain ⟨base, quote, -, hask, hbid, hsides⟩ := executeWithTaker_spec hexec
    have hheld : RoundInv b [takeA.target, takeB.target]
        ((s.book.pick target).pick counter) s.batch := by
      rcases hsides with ⟨-, ha, hb⟩ | ⟨-, ha, hb⟩
      · rw [ha, hb]
        exact hheld.congr_held fun x => by simp [or_comm]
      · rwa [ha, hb]
    have hA := hheld.settle (by simp) fun {t'} hres =>
      LawfulTaker.stableId_withAppliedTrade (hask.trans (congrArg Except.ok hres))
    refine hA.settle ?_ fun {t'} hres =>
      LawfulTaker.stableId_withAppliedTrade (hbid.trans (congrArg Except.ok hres))
    cases takeA.result <;> simp [TLBState.onTake]
  | @maker target maker sid preview take make htarget hmaker hpreview hprice hswap =>
    obtain ⟨rfl, rfl, -⟩ := LawfulMaker.swapWithTaker_target hswap
    have hid : ∀ {t'}, take.result = .succ t' → stableId t' = stableId take.target := by
      intro t' hres
      rcases LawfulMaker.swapWithTaker_fill hswap with ⟨hsame, -⟩ | ⟨out, hout⟩
      · cases hsame.symm.trans hres
        rfl
      · exact LawfulTaker.stableId_withAppliedTrade (hout.trans (congrArg _ hres))
    refine RoundInv.onMake (settle (h.pick htarget).onMaker ?_ hid)
    cases s.book <;> rfl

end RoundInv

end Round

end Splash.LiquidityBook
