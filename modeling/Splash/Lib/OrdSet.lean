import Mathlib

/-!
# Ordered sets

A finite set kept as a list that strictly increases for a comparison `cmp`. The comparison may
hold two different elements for equal; of such elements the set keeps the one that came first.
Membership is that of the list, so two sets with the same members are the same set.

* `mem_insert`, `mem_erase` — what the two updates do to membership.
* `ext_mem` — sets with the same members are equal.
-/

namespace Splash.Lib

open Std List

/-- A finite set in increasing order of `cmp`. -/
structure OrdSet {α : Type*} (cmp : α → α → Ordering) where
  toList : List α
  sorted : toList.Pairwise fun a b => cmp a b = .lt

namespace OrdSet

variable {α : Type*} {cmp : α → α → Ordering}

instance : Membership α (OrdSet cmp) := ⟨fun s a => a ∈ s.toList⟩

instance [DecidableEq α] (a : α) (s : OrdSet cmp) : Decidable (a ∈ s) :=
  inferInstanceAs (Decidable (a ∈ s.toList))

instance [DecidableEq α] : DecidableEq (OrdSet cmp) := fun s t =>
  decidable_of_iff (s.toList = t.toList) ⟨fun h => by cases s; cases t; cases h; rfl, congrArg _⟩

variable {s : OrdSet cmp}

@[simp] theorem mem_toList {a : α} : a ∈ s.toList ↔ a ∈ s := Iff.rfl

def empty : OrdSet cmp := ⟨[], .nil⟩

@[simp] theorem not_mem_empty (a : α) : a ∉ (empty : OrdSet cmp) := not_mem_nil

def first? (s : OrdSet cmp) : Option α := s.toList.head?

theorem mem_of_first? {a : α} (h : s.first? = some a) : a ∈ s :=
  mem_of_head? h

/-- Ordered insertion that keeps a member already equal to the new one. -/
def insertList (cmp : α → α → Ordering) (a : α) : List α → List α
  | [] => [a]
  | b :: l =>
    match cmp a b with
    | .lt => a :: b :: l
    | .eq => b :: l
    | .gt => b :: insertList cmp a l

section Trans

variable [TransCmp cmp]

theorem mem_insertList {a x : α} : ∀ {l : List α}, l.Pairwise (fun a b => cmp a b = .lt) →
    (x ∈ insertList cmp a l ↔ x ∈ l ∨ x = a ∧ ∀ b ∈ l, cmp a b ≠ .eq)
  | [], _ => by simp [insertList]
  | b :: l, hs => by
    obtain ⟨hb, hl⟩ := pairwise_cons.1 hs
    have ih := mem_insertList (a := a) (x := x) hl
    simp only [insertList]
    cases hab : cmp a b with
    | lt =>
      -- a new least element is below every member
      have hlt : ∀ c ∈ l, cmp a c ≠ .eq := fun c hc => by
        rw [TransCmp.lt_trans hab (hb c hc)]
        exact fun h => nomatch h
      grind
    | eq => grind
    | gt => grind

theorem pairwise_insertList {a : α} : ∀ {l : List α}, l.Pairwise (fun a b => cmp a b = .lt) →
    (insertList cmp a l).Pairwise fun a b => cmp a b = .lt
  | [], _ => by simp [insertList]
  | b :: l, hs => by
    obtain ⟨hb, hl⟩ := pairwise_cons.1 hs
    simp only [insertList]
    cases hab : cmp a b with
    | lt =>
      refine pairwise_cons.2 ⟨fun c hc => ?_, hs⟩
      rcases mem_cons.1 hc with rfl | hc
      · exact hab
      · exact TransCmp.lt_trans hab (hb c hc)
    | eq => exact hs
    | gt =>
      refine pairwise_cons.2 ⟨fun c hc => ?_, pairwise_insertList hl⟩
      rcases (mem_insertList hl).1 hc with hc | ⟨rfl, -⟩
      · exact hb c hc
      · exact OrientedCmp.lt_of_gt hab

/-- Insertion; a member that compares as equal to `a` stays. -/
def insert (s : OrdSet cmp) (a : α) : OrdSet cmp :=
  ⟨insertList cmp a s.toList, pairwise_insertList s.sorted⟩

theorem mem_insert {a x : α} :
    x ∈ s.insert a ↔ x ∈ s ∨ x = a ∧ ∀ b ∈ s, cmp a b ≠ .eq :=
  mem_insertList s.sorted

end Trans

def eraseIf (s : OrdSet cmp) (p : α → Bool) : OrdSet cmp :=
  ⟨s.toList.filter (!p ·), s.sorted.filter _⟩

def erase (s : OrdSet cmp) (a : α) : OrdSet cmp := s.eraseIf (cmp a · == .eq)

theorem mem_eraseIf {p : α → Bool} {x : α} :
    x ∈ s.eraseIf p ↔ x ∈ s ∧ p x = false := by
  simp only [← mem_toList, eraseIf, mem_filter, Bool.not_eq_true']

theorem mem_erase {a x : α} : x ∈ s.erase a ↔ x ∈ s ∧ cmp a x ≠ .eq := by
  simp [erase, mem_eraseIf]

section Trans

variable [TransCmp cmp]

theorem nodup (s : OrdSet cmp) : s.toList.Nodup :=
  s.sorted.imp fun {a b} h hab => by
    have hself : cmp b b = .eq := ReflCmp.compare_self
    rw [hab, hself] at h
    cases h

theorem eq_of_mem {a b : α} (ha : a ∈ s) (hb : b ∈ s) (h : cmp a b = .eq) :
    a = b := by
  have hsymm : Symm fun a b => cmp a b ≠ .eq := ⟨fun a b hab hba => hab (OrientedCmp.eq_symm hba)⟩
  have hpair : s.toList.Pairwise fun a b => cmp a b ≠ .eq :=
    s.sorted.imp fun hab => by simp [hab]
  by_contra hne
  exact hpair.forall ha hb hne h

theorem ext_mem {s t : OrdSet cmp} (h : ∀ x, x ∈ s ↔ x ∈ t) : s = t := by
  have hperm : s.toList.Perm t.toList := (perm_ext_iff_of_nodup s.nodup t.nodup).2 h
  have heq : s.toList = t.toList := by
    refine hperm.eq_of_pairwise (fun a b ha hb hab hba => ?_) s.sorted t.sorted
    rw [OrientedCmp.gt_of_lt hab] at hba
    cases hba
  cases s; cases t; cases heq; rfl

theorem mem_erase_of_mem {a x : α} (ha : a ∈ s) :
    x ∈ s.erase a ↔ x ∈ s ∧ x ≠ a := by
  rw [mem_erase]
  refine and_congr_right fun hx => not_congr ⟨fun h => (eq_of_mem ha hx h).symm, ?_⟩
  rintro rfl
  exact ReflCmp.compare_self

theorem erase_perm {a : α} (ha : a ∈ s) :
    s.toList.Perm (a :: (s.erase a).toList) := by
  have hnot : a ∉ s.erase a := fun h => ((mem_erase_of_mem ha).1 h).2 rfl
  refine (perm_ext_iff_of_nodup s.nodup (nodup_cons.2 ⟨hnot, nodup _⟩)).2 fun x => ?_
  rw [mem_cons, mem_toList, mem_toList, mem_erase_of_mem ha]
  by_cases hx : x = a
  · simp [hx, ha]
  · simp [hx]

end Trans

/-! ## Sets in a linear order -/

section LinearOrder

variable {β : Type*} [LinearOrder β] {s : OrdSet (compare (α := β))} {a x : β}

theorem mem_insert_compare : x ∈ s.insert a ↔ x ∈ s ∨ x = a := by
  rw [mem_insert]
  constructor
  · rintro (hx | ⟨rfl, -⟩)
    · exact .inl hx
    · exact .inr rfl
  · rintro (hx | rfl)
    · exact .inl hx
    · by_cases hmem : x ∈ s
      · exact .inl hmem
      · exact .inr ⟨rfl, fun b hb heq => hmem (Std.compare_eq_iff_eq.1 heq ▸ hb)⟩

theorem mem_erase_compare : x ∈ s.erase a ↔ x ∈ s ∧ x ≠ a := by
  rw [mem_erase, Ne, Std.compare_eq_iff_eq, eq_comm (a := a)]

end LinearOrder

end OrdSet

end Splash.Lib
