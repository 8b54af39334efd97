import Splash.LiquidityBook.Recipe
import Splash.LiquidityBook.Round

/-!
# Whole attempts

An attempt is a sequence of rounds. Each round starts from a base that, together with the stash, has
the takers of the settled book the attempt began with.

* `attemptStep_cases` — what one iteration of an attempt can do.
* `AttemptInv`, `AttemptInv.step` — the invariant of an attempt.
* `rollback_unstash`, `attempt_cases` — rolling back leads to the settled book, and where attempts end.
-/

namespace Splash.LiquidityBook

open Lib MarketTaker TakerBehaviour MatchmakingRecipe

variable {T M I J U : Type} [MarketTaker T U] [FrontierOrd T] [LinearOrder J] [Stable M J]
  {st : IdleState T M J} {book : TLBState T M J}

/-! ## The base of a round -/

/-- The base of a round of an attempt that began with the settled book `st`. -/
structure BaseOf (st : IdleState T M J) (b : Base T M J) : Prop where
  timeNow : b.takers.timeNow = st.takers.timeNow
  inactive : b.takers.inactive = st.takers.inactive
  makers : b.makers = st.makers
  /-- The active takers are those of the base and those that are stashed. -/
  mem_iff : ∀ t, t ∈ st.takers.active ↔ t ∈ b.takers.active ∨ t ∈ b.stash
  disjoint : ∀ t ∈ b.stash, t ∉ b.takers.active

namespace BaseOf

variable {b : Base T M J}

theorem unstash (h : BaseOf st b) :
    TLBState.settled { b.takers with active := b.takers.active.insertAll b.stash } [] b.makers =
      .idle st := by
  have hactive : b.takers.active.insertAll b.stash = st.takers.active :=
    MarketTakers.ext_mem fun x => by
      rw [MarketTakers.mem_insertAll_of_subset (fun x hx => (h.mem_iff x).2 (.inl hx))
        (fun x hx => (h.mem_iff x).2 (.inr hx)), h.mem_iff]
  rw [hactive, h.makers]
  obtain ⟨⟨timeNow, active, inactive⟩, makers⟩ := st
  simp only [TLBState.settled, List.isEmpty_nil, if_true, h.timeNow, h.inactive]

theorem stash (h : BaseOf st b) {ts : List T} (hts : ∀ t ∈ ts, t ∈ b.takers.active) :
    BaseOf st ⟨{ b.takers with active := b.takers.active.removeAll ts }, b.stash ++ ts, b.makers⟩ := by
  have hmem : ∀ x, x ∈ b.takers.active.removeAll ts ↔ x ∈ b.takers.active ∧ x ∉ ts := fun x =>
    MarketTakers.mem_removeAll_of_subset (fun x hx => hx) hts
  refine ⟨h.timeNow, h.inactive, h.makers, fun x => ?_, fun x hx => ?_⟩
  · rw [h.mem_iff, hmem, List.mem_append]
    by_cases hx : x ∈ ts
    · exact iff_of_true (.inl (hts x hx)) (.inr (.inr hx))
    · simp [hx]
  · rw [hmem]
    rintro ⟨hact, hnot⟩
    rcases List.mem_append.1 hx with hx | hx
    · exact h.disjoint x hx hact
    · exact hnot hx

end BaseOf

theorem rollback_unstash (hb : BaseOf st book.base) : book.rollback .unstash = .idle st :=
  (TLBState.rollback_eq fun _ => .inl rfl).trans hb.unstash

/-! ## The start of a round -/

variable [LinearOrder I] [Stable T I]

/-- What holds throughout an attempt that began with the settled book `st`. -/
structure AttemptInv (st : IdleState T M J) (s : Matching T M I J U) : Prop where
  baseOf : BaseOf st s.book.base
  round : RoundInv s.book.base [] s.book s.batch

theorem AttemptInv.leave [TakerBehaviour T] [MarketMaker M U] [MakerBehavior M] [Add U]
    {s : Matching T M I J U} (h : AttemptInv st s) (hcase : MatchCase s (.done book)) :
    book.base = s.book.base ∧ RoundInv s.book.base [] book s.batch :=
  have hround := h.round.leave hcase
  ⟨hround.base_eq, hround⟩

variable [Zero U]

theorem RoundInv.start {takers : Chronology T} {stash : List T} {makers : MarketMakers M J} :
    RoundInv ⟨takers, stash, makers⟩ [] (TLBState.settled takers stash makers)
      (.empty : MatchmakingAttempt T M I J U) := by
  have hshows : ∀ t, (TLBState.settled takers stash makers).Shows t ↔ t ∈ takers.active := by
    intro t
    have hchanges : (TLBState.settled takers stash makers).changeset = [] := by
      unfold TLBState.settled
      split <;> rfl
    simp [TLBState.Shows, hchanges]
  refine ⟨TLBState.base_settled, fun h => ?_, fun {t} ht => ?_, fun {t} ht => ?_, fun _ _ => rfl⟩
  · cases h
  · exact .inl ((hshows t).1 (ht.resolve_right List.not_mem_nil))
  · exact .inl (.inl ((hshows t).2 ht))

namespace AttemptInv

theorem start : AttemptInv st ((TLBState.idle st).beginAttempt : Matching T M I J U) where
  baseOf := ⟨rfl, rfl, rfl, fun t => by simp [TLBState.beginAttempt, TLBState.base],
    fun t ht => by cases ht⟩
  round := RoundInv.start

theorem restart (hb : BaseOf st book.base) {ts : List T}
    (hts : ∀ t ∈ ts, t ∈ book.base.takers.active) (hidle : book.isIdle → ts = []) (o : Bool) :
    AttemptInv st (⟨book.rollback (.stash ts), .empty, o⟩ : Matching T M I J U) := by
  rw [TLBState.rollback_eq fun hi => .inr (congrArg _ (hidle hi))]
  constructor
  · rw [TLBState.base_settled]
    exact hb.stash hts
  · rw [TLBState.base_settled]
    exact RoundInv.start

end AttemptInv

/-! ## One iteration of an attempt -/

variable [TakerBehaviour T] [MarketMaker M U] [MakerBehavior M] {ord : HashOrder}
  {conf : ExecutionConfig U} {s s' : Matching T M I J U}

/-- What `conclude` does for each verdict. -/
inductive Conclusion (ord : HashOrder) (conf : ExecutionConfig U) (s : Matching T M I J U)
    (book : TLBState T M J) :
    Iter (Matching T M I J U) (Option (MatchmakingRecipe T M) × TLBState T M J) → Prop where
  | recipe {r : MatchmakingRecipe T M}
      (hverdict : tryFrom ord conf s.batch = .ok (.recipe r)) :
      Conclusion ord conf s book (.done (some r, book))
  | failed (hverdict : tryFrom ord conf s.batch = .ok .failed) :
      Conclusion ord conf s book (.done (none, book.rollback .unstash))
  | dissatisfied {ts : List T}
      (hverdict : tryFrom ord conf s.batch = .ok (.dissatisfied ts)) :
      Conclusion ord conf s book (.again ⟨book.rollback (.stash ts), .empty, s.optimized⟩)
  | downgradeNeeded (hverdict : tryFrom ord conf s.batch = .ok .downgradeNeeded) :
      Conclusion ord conf s book (.again ⟨book.rollback (.stash []), .empty, false⟩)

variable {r : Iter (Matching T M I J U) (Option (MatchmakingRecipe T M) × TLBState T M J)}

theorem conclude_cases (h : conclude ord conf s book = .ok r) : Conclusion ord conf s book r := by
  unfold conclude at h
  obtain ⟨v, hv, h⟩ := Exec.bind_eq_ok.1 h
  cases v with
  | recipe r => cases h; exact .recipe hv
  | failed => cases h; exact .failed hv
  | dissatisfied ts => cases h; exact .dissatisfied hv
  | downgradeNeeded => cases h; exact .downgradeNeeded hv

variable [Add U] [LT U] [DecidableLT U]

/-- An iteration fills takers, or leaves the matching loop and concludes the batch. -/
theorem attemptStep_cases (h : attemptStep ord conf s = .ok r) :
    (∃ s' fill, r = .again s' ∧ Filled s fill s') ∨
      ∃ book, MatchCase s (.done book) ∧ Conclusion ord conf s book r := by
  unfold attemptStep at h
  split at h
  case isTrue =>
    obtain ⟨i, hi, h⟩ := Exec.bind_eq_ok.1 h
    cases i with
    | again s' =>
      cases h
      cases matchStep_cases hi with
      | fill hfill => exact .inl ⟨s', _, rfl, hfill⟩
    | done book => exact .inr ⟨book, matchStep_cases hi, conclude_cases h⟩
  case isFalse => exact .inr ⟨s.book, .stop, conclude_cases h⟩

/-! ## Whole attempts -/

variable [LawfulTaker T] [LawfulMaker M]

namespace AttemptInv

theorem step (h : AttemptInv st s) (hstep : attemptStep ord conf s = .ok (.again s')) :
    AttemptInv st s' := by
  rcases attemptStep_cases hstep with ⟨s₁, fill, hs₁, hfill⟩ | ⟨book, hcase, hconclusion⟩
  · cases hs₁
    have hround := h.round.fill hfill
    exact ⟨hround.base_eq ▸ h.baseOf, hround.base_eq.symm ▸ hround⟩
  · obtain ⟨hbase, hround⟩ := h.leave hcase
    have hb : BaseOf st book.base := hbase ▸ h.baseOf
    cases hconclusion with
    | dissatisfied hverdict =>
      have htargets : ∀ t ∈ _, _ := fun t ht =>
        mem_targets.1 ((tryFrom_eq_dissatisfied hverdict).2.subset ht)
      refine restart hb (fun t ht => ?_) (fun hidle => ?_) _
      · obtain ⟨id, take, htake, rfl⟩ := htargets t ht
        exact hbase.symm ▸ (hround.take_base htake).1
      · refine List.eq_nil_iff_forall_not_mem.2 fun t ht => ?_
        obtain ⟨id, take, htake, -⟩ := htargets t ht
        rw [hround.busy hidle] at htake
        cases htake
    | downgradeNeeded _ => exact restart hb (fun t ht => by cases ht) (fun _ => rfl) _

theorem reaches (hreach : Loop.Reaches (attemptStep ord conf) (TLBState.idle st).beginAttempt s) :
    AttemptInv st s :=
  hreach.invariant start fun _ h hstep => h.step hstep

end AttemptInv

/-- What an attempt that returned has left behind: the state before its last iteration, the book
that iteration concluded with, and its verdict. -/
theorem attempt_cases {recipe : Option (MatchmakingRecipe T M)} {after : TLBState T M J}
    (h : (TLBState.idle st).Attempt (I := I) ord conf recipe after) :
    ∃ (s : Matching T M I J U) (book : TLBState T M J),
      Loop.Reaches (attemptStep ord conf) (TLBState.idle st).beginAttempt s ∧
      MatchCase s (.done book) ∧ BaseOf st book.base ∧ RoundInv book.base [] book s.batch ∧
      Conclusion ord conf s book (.done (recipe, after)) := by
  obtain ⟨s, hreach, hs⟩ := Loop.path_of_returns h
  have hinv := AttemptInv.reaches hreach
  rcases attemptStep_cases hs with ⟨s', fill, hs', -⟩ | ⟨book, hcase, hconclusion⟩
  · cases hs'
  · obtain ⟨hbase, hround⟩ := hinv.leave hcase
    exact ⟨s, book, hreach, hcase, hbase ▸ hinv.baseOf, hbase.symm ▸ hround, hconclusion⟩

end Splash.LiquidityBook
