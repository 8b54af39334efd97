import Splash.LiquidityBook.Rollback

/-!
# Committing a recipe

A successful recipe makes the preview of the book permanent. A full preview returns the stashed
takers when it is committed, a partial preview forgets them.

* `TLBState.commit_eq` — what is committed, as long as no stash is forgotten.
* `holds_committed`, `exists_lost` — which takers survive.
-/

namespace Splash.LiquidityBook

open Lib MarketTaker TakerBehaviour

variable {T M I J U : Type} [MarketTaker T U] [FrontierOrd T] [LinearOrder J] [Stable M J]
  {st : IdleState T M J} {book : TLBState T M J}

namespace TLBState

/-- A partial preview with stashed takers. -/
def LosesStash : TLBState T M J → Prop
  | .partialPreview st => st.stashedActiveTakers ≠ []
  | _ => False

/-- The takers that are committed when no stash is forgotten. -/
def committed (book : TLBState T M J) : Chronology T :=
  { book.base.takers with
    active := book.activeFragments.insertAll book.stashedActiveTakers
    inactive := Chronology.addAllInactive book.base.takers.inactive book.changeset.reverse }

theorem commit_eq (h : ¬ book.LosesStash) : book.commit = .idle ⟨book.committed, book.pools⟩ := by
  cases book with
  | idle st => rfl
  | partialPreview st =>
    have hstash : st.stashedActiveTakers = [] := not_not.1 h
    simp only [commit, PartialPreviewState.commit, committed, pools, activeFragments,
      stashedActiveTakers, hstash, base, changeset]
    rfl
  | preview st => rfl

end TLBState

section Distinct

variable [Stable T I]

/-- No stable identifier occurs twice among the takers of the book. -/
def Chronology.DistinctIds (c : Chronology T) : Prop := (c.takers.map stableId).Nodup

variable {c : Chronology T}

instance [DecidableEq I] : Decidable c.DistinctIds := inferInstanceAs (Decidable (List.Nodup _))

theorem Chronology.DistinctIds.eq_of_stableId (h : c.DistinctIds) {t u : T} (ht : c.Holds t)
    (hu : c.Holds u) (hid : stableId t = stableId u) : t = u :=
  List.inj_on_of_nodup_map h (mem_takers_iff.2 ht) (mem_takers_iff.2 hu) hid

theorem Chronology.DistinctIds.not_heldInactive (h : c.DistinctIds) {t : T} (ht : t ∈ c.active) :
    ¬ HeldInactive c.inactive t := fun hinactive =>
  List.disjoint_of_nodup_append (List.Nodup.of_map _ h) (MarketTakers.mem_toList.2 ht)
    (mem_inactive_iff.2 hinactive)

end Distinct

section Attempt

variable [LinearOrder I] [Stable T I] {batch : MatchmakingAttempt T M I J U} {t : T}

section

variable (hids : st.takers.DistinctIds) (hb : BaseOf st book.base)
  (hround : RoundInv book.base [] book batch) (ht : st.takers.Holds t)
  (huntraded : ∀ id take, batch.takes.get? id = some take → take.target ≠ t)
include hids hb hround ht huntraded

theorem eq_of_stableId_of_untraded {y : T}
    (hy : book.Shows y ∨ y ∈ book.stashedActiveTakers ∨
      Chronology.HeldInactive st.takers.inactive y) (hid : stableId y = stableId t) : y = t := by
  have hbase : ∀ {x}, x ∈ book.base.takers.active → st.takers.Holds x := fun hx =>
    .inl ((hb.mem_iff _).2 (.inl hx))
  rcases hy with hy | hy | hy
  · rcases hround.known (.inl hy) with hy | hy
    · exact hids.eq_of_stableId (hbase hy) ht hid
    · obtain ⟨take, htake⟩ := Option.isSome_iff_exists.1 hy
      obtain ⟨hmem, hsid⟩ := hround.take_base htake
      exact absurd (hids.eq_of_stableId (hbase hmem) ht (hsid.trans hid)) (huntraded _ _ htake)
  · exact hids.eq_of_stableId (.inl ((hb.mem_iff y).2 (.inr (by simpa using hy)))) ht hid
  · exact hids.eq_of_stableId (.inr hy) ht hid

theorem holds_committed [LawfulOrd T] :
    book.committed.Holds t := by
  have hfree : ∀ {y}, book.Shows y ∨ y ∈ book.stashedActiveTakers ∨
      Chronology.HeldInactive st.takers.inactive y → MarketTakers.Collide t y → y = t :=
    fun hy hcol => eq_of_stableId_of_untraded hids hb hround ht huntraded hy
      (LawfulOrd.stableId_of_cmp hcol.2)
  have hactive : t ∈ book.activeFragments ∨ t ∈ book.stashedActiveTakers →
      t ∈ book.committed.active := fun hmem =>
    MarketTakers.mem_insertAll
      (fun y hy => hfree (hy.elim (fun hy => .inl (.inl hy)) fun hy => .inr (.inl hy))) hmem
  have hinactive : Chronology.HeldInactive st.takers.inactive t ∨
      (∃ time, (time, t) ∈ book.changeset) →
      Chronology.HeldInactive book.committed.inactive t := fun hmem => by
    refine Chronology.heldInactive_addAllInactive (fun y hy => hfree ?_) ?_
    · rw [hb.inactive] at hy
      rcases hy with hy | ⟨time, hy⟩
      · exact .inr (.inr hy)
      · exact .inl (.inr ⟨time, List.mem_reverse.1 hy⟩)
    · rw [hb.inactive]
      exact hmem.imp_right fun ⟨time, htime⟩ => ⟨time, List.mem_reverse.2 htime⟩
  rcases ht with ht | ht
  · rcases (hb.mem_iff t).1 ht with hbase | hstash
    · rcases hround.kept hbase with hshows | htraded
      · rcases hshows.resolve_right List.not_mem_nil with hmem | hmem
        · exact .inl (hactive (.inl hmem))
        · exact .inr (hinactive (.inr hmem))
      · obtain ⟨take, htake⟩ := Option.isSome_iff_exists.1 htraded
        obtain ⟨hmem, hsid⟩ := hround.take_base htake
        exact absurd (hids.eq_of_stableId (.inl ((hb.mem_iff _).2 (.inl hmem))) (.inl ht) hsid)
          (huntraded _ _ htake)
    · exact .inl (hactive (.inr (by simpa using hstash)))
  · exact .inr (hinactive (.inl ht))

omit ht huntraded in
theorem exists_lost (hloses : book.LosesStash) :
    ∃ t st', st.takers.Holds t ∧ (∀ id take, batch.takes.get? id = some take → take.target ≠ t) ∧
      book.commit = .idle st' ∧ ¬ st'.takers.Holds t := by
  cases book with
  | idle _ => cases hloses
  | preview _ => cases hloses
  | partialPreview ps =>
    obtain ⟨t, ht⟩ := List.exists_mem_of_ne_nil _ hloses
    have hactive : t ∈ st.takers.active := (hb.mem_iff t).2 (.inr ht)
    have hnot := hb.disjoint t ht
    refine ⟨t, ps.commit, .inl hactive, ?_, rfl, ?_⟩
    · rintro id take htake rfl
      exact hnot (hround.take_base htake).1
    · rintro (hmem | hmem)
      · -- what a partial preview shows is part of its base
        exact hnot (MarketTakers.mem_insertAll_of_mem hmem)
      · refine hids.not_heldInactive hactive ?_
        rw [← hb.inactive]
        exact hmem

end

end Attempt

end Splash.LiquidityBook
