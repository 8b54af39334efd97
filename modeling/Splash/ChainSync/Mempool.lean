import Mathlib

/-!
# Deduplication of the mempool

The mempool is read snapshot by snapshot. A transaction is not yielded if it is in the current or in
the previous projection, and enters the current one when it is yielded.

* `readSnapshot_spec` — what a snapshot yields.
* `deduplicates_iff` — when each snapshot yields what the one before does not have.
-/

namespace Splash.ChainSync

open List

/-- The transactions, by their hashes, that were yielded last. -/
structure MempoolProjection (H : Type) where
  prevProjection : Finset H
  currentProjection : Finset H
  slot : ℕ

namespace MempoolProjection

variable {H : Type} [DecidableEq H]

def new : MempoolProjection H := ⟨∅, ∅, 0⟩

def advance (m : MempoolProjection H) (slot : ℕ) : MempoolProjection H :=
  if m.slot < slot then ⟨m.currentProjection, ∅, slot⟩ else m

/-- Registers a transaction, with whether it is known already. -/
def register (m : MempoolProjection H) (tx : H) (slot : ℕ) : Bool × MempoolProjection H :=
  let m := m.advance slot
  if tx ∈ m.prevProjection ∨ tx ∈ m.currentProjection then (true, m)
  else (false, { m with currentProjection := insert tx m.currentProjection })

/-- What a snapshot yields. -/
def readSnapshot (seqNum : ℕ) : MempoolProjection H → List H → List H × MempoolProjection H
  | m, [] => ([], m)
  | m, tx :: txs =>
    let next := readSnapshot seqNum (m.register tx seqNum).2 txs
    (if (m.register tx seqNum).1 then next.1 else tx :: next.1, next.2)

/-- Every snapshot yields, once each, the transactions that are not in the one before. -/
def Deduplicates (seqNum : ℕ) (m : MempoolProjection H) (before : List H) : List (List H) → Prop
  | [] => True
  | s :: ss => (m.readSnapshot seqNum s).1.Nodup ∧
    (∀ tx, tx ∈ (m.readSnapshot seqNum s).1 ↔ tx ∈ s ∧ tx ∉ before) ∧
    Deduplicates (seqNum + 1) (m.readSnapshot seqNum s).2 s ss

/-- A transaction of a snapshot is in the one before just when it is `fresh`, that is, new in the
last one that is not empty. -/
def Alternates (fresh before : List H) : List (List H) → Prop
  | [] => True
  | s :: ss => (∀ tx ∈ s, tx ∈ before ↔ tx ∈ fresh) ∧
    Alternates (if s = [] then fresh else s.filter (· ∉ before)) s ss

variable {m : MempoolProjection H} {seqNum : ℕ} {s fresh before : List H}

theorem readSnapshot_advance (tx : H) (s : List H) :
    m.readSnapshot seqNum (tx :: s) = (m.advance seqNum).readSnapshot seqNum (tx :: s) := by
  have hadvance : (m.advance seqNum).advance seqNum = m.advance seqNum := by
    unfold advance
    split_ifs <;> simp_all
  have hregister : (m.advance seqNum).register tx seqNum = m.register tx seqNum := by
    unfold register
    rw [hadvance]
  rw [readSnapshot, readSnapshot, hregister]

theorem readSnapshot_same (h : m.slot = seqNum) :
    (m.readSnapshot seqNum s).1.Nodup ∧ (∀ tx, tx ∈ (m.readSnapshot seqNum s).1 ↔
      tx ∈ s ∧ tx ∉ m.prevProjection ∧ tx ∉ m.currentProjection) ∧
    (m.readSnapshot seqNum s).2 = { m with
      currentProjection := m.currentProjection ∪ (m.readSnapshot seqNum s).1.toFinset } := by
  induction s generalizing m with
  | nil => simp [readSnapshot]
  | cons tx s ih =>
    have hadvance : m.advance seqNum = m := if_neg (by omega)
    unfold readSnapshot register
    rw [hadvance]
    by_cases hknown : tx ∈ m.prevProjection ∨ tx ∈ m.currentProjection
    · obtain ⟨hnodup, hmem, hnext⟩ := ih h
      simp only [if_pos hknown, if_true]
      refine ⟨hnodup, fun x => ?_, hnext⟩
      rw [hmem, mem_cons]
      grind
    · obtain ⟨hnodup, hmem, hnext⟩ := ih (m := { m with
        currentProjection := insert tx m.currentProjection }) h
      simp only [if_neg hknown, Bool.false_eq_true, if_false]
      refine ⟨List.nodup_cons.2 ⟨by simp [hmem], hnodup⟩, fun x => ?_, ?_⟩
      · rw [mem_cons, mem_cons, hmem]
        grind
      · rw [hnext]
        simp

/-- What a snapshot yields after earlier ones: what was not yielded by the last one that is not
empty. -/
theorem readSnapshot_spec (h : m.slot < seqNum ∨ m = new ∧ seqNum = 0) :
    (m.readSnapshot seqNum s).1.Nodup ∧
      (∀ tx, tx ∈ (m.readSnapshot seqNum s).1 ↔ tx ∈ s ∧ tx ∉ m.currentProjection) ∧
      (m.readSnapshot seqNum s).2.slot < seqNum + 1 ∧
      (m.readSnapshot seqNum s).2.currentProjection =
        if s = [] then m.currentProjection else (m.readSnapshot seqNum s).1.toFinset := by
  cases s with
  | nil =>
    refine ⟨nodup_nil, by simp [readSnapshot], ?_, rfl⟩
    rcases h with h | ⟨rfl, rfl⟩
    · exact h.trans (Nat.lt_succ_self _)
    · exact Nat.one_pos
  | cons tx s =>
    have hstart : m.advance seqNum = ⟨m.currentProjection, ∅, seqNum⟩ := by
      rcases h with h | ⟨rfl, rfl⟩
      · exact if_pos h
      · rfl
    rw [readSnapshot_advance, hstart]
    obtain ⟨hnodup, hmem, hnext⟩ := readSnapshot_same (m := ⟨m.currentProjection, ∅, seqNum⟩)
      (s := tx :: s) rfl
    refine ⟨hnodup, by simpa using hmem, ?_, ?_⟩
    · rw [hnext]
      exact Nat.lt_succ_self _
    · rw [hnext, if_neg (cons_ne_nil _ _), Finset.empty_union]

theorem deduplicates_iff_of {ss : List (List H)} (h : m.slot < seqNum ∨ m = new ∧ seqNum = 0)
    (hfresh : ∀ tx, tx ∈ fresh ↔ tx ∈ m.currentProjection) :
    Deduplicates seqNum m before ss ↔ Alternates fresh before ss := by
  induction ss generalizing m seqNum fresh before with
  | nil => exact Iff.rfl
  | cons s ss ih =>
    obtain ⟨hnodup, hmem, hslot, hcurrent⟩ := readSnapshot_spec (s := s) h
    have hhead : (∀ tx, tx ∈ (m.readSnapshot seqNum s).1 ↔ tx ∈ s ∧ tx ∉ before) ↔
        ∀ tx ∈ s, tx ∈ before ↔ tx ∈ fresh := by
      simp only [hmem, hfresh]
      grind
    unfold Deduplicates Alternates
    rw [hhead, and_iff_right hnodup]
    refine and_congr_right fun hall => ih (.inl hslot) fun tx => ?_
    rw [hcurrent]
    split_ifs
    · exact hfresh tx
    · rw [mem_toFinset, hhead.2 hall tx]
      simp

/-- **When the mempool is deduplicated.** -/
theorem deduplicates_iff (ss : List (List H)) : Deduplicates 0 new [] ss ↔ Alternates [] [] ss :=
  deduplicates_iff_of (.inr ⟨rfl, rfl⟩) (by simp [new])

/-- A transaction that stays is yielded by every other snapshot. -/
theorem staying_yielded_again : ¬ Deduplicates 0 new [] [[1], [1], [1]] := by
  rintro ⟨-, -, -, -, -, hthird, -⟩
  exact ((hthird 1).1 (by decide)).2 (by decide)

end MempoolProjection

end Splash.ChainSync
