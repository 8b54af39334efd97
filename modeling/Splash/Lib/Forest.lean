import Mathlib

/-!
# Forests

Every node of a forest has at most one parent. The lineage of a node are its ancestors, from the
node itself up to a root.

* `Chain` — the whole lineage of a node.
* `exists_chain` — a node has a lineage when ranks fall towards the roots.
* `lineage_of_chain` — following parents for long enough gives the lineage.
* `Chain.length_le` — a lineage is no longer than a list of all nodes.
-/

namespace Splash.Lib.Forest

open List

variable {K : Type*}

/-- Follows parents for some steps. -/
def lineage (up : K → Option K) : ℕ → K → List K
  | 0, _ => []
  | fuel + 1, k => k :: (up k).elim [] (lineage up fuel)

/-- The nodes from `k` up to a root. -/
inductive Chain (up : K → Option K) : K → List K → Prop where
  | root {k : K} (hup : up k = none) : Chain up k [k]
  | step {k p : K} {l : List K} (hup : up k = some p) (rest : Chain up p l) : Chain up k (k :: l)

variable {up : K → Option K} {k : K} {l : List K}

theorem lineage_of_chain (h : Chain up k l) {fuel : ℕ} (hfuel : l.length ≤ fuel) :
    lineage up fuel k = l := by
  induction h generalizing fuel with
  | root hup =>
    obtain ⟨fuel, rfl⟩ := Nat.exists_eq_add_of_lt (Nat.lt_of_lt_of_le Nat.zero_lt_one hfuel)
    show _ :: (up _).elim [] _ = _
    rw [hup]
    rfl
  | step hup _ ih =>
    rw [length_cons] at hfuel
    obtain ⟨fuel, rfl⟩ : ∃ n, fuel = n + 1 := ⟨fuel - 1, by omega⟩
    show _ :: (up _).elim [] _ = _
    rw [hup, Option.elim_some, ih (by omega)]

namespace Chain

theorem unique {m : List K} (h : Chain up k l) (h' : Chain up k m) : l = m := by
  induction h generalizing m with
  | root hup =>
    cases h' with
    | root => rfl
    | step hup' => exact absurd (hup.symm.trans hup') (Option.some_ne_none _).symm
  | step hup _ ih =>
    cases h' with
    | root hup' => exact absurd (hup'.symm.trans hup) (Option.some_ne_none _).symm
    | step hup' rest =>
      cases hup.symm.trans hup'
      rw [ih rest]

theorem mem_self (h : Chain up k l) : k ∈ l := by
  cases h <;> exact mem_cons_self

/-- What holds of a node and goes over to parents holds of the lineage. -/
theorem forall_mem {P : K → Prop} (h : Chain up k l) (hk : P k)
    (hup : ∀ k p, up k = some p → P k → P p) : ∀ x ∈ l, P x := by
  induction h with
  | root => exact forall_mem_singleton.2 hk
  | step hstep _ ih => exact forall_mem_cons.2 ⟨hk, ih (hup _ _ hstep hk)⟩

section Ranked

variable {rank : K → ℕ} (hrank : ∀ k p, up k = some p → rank p < rank k)
include hrank

theorem rank_le (h : Chain up k l) : ∀ x ∈ l, rank x ≤ rank k := by
  refine h.forall_mem (P := fun x => rank x ≤ rank k) le_rfl fun x p hup hx => ?_
  exact ((hrank x p hup).trans_le hx).le

theorem rank_lt (h : Chain up k l) {x : K} (hx : x ∈ l) (hne : x ≠ k) : rank x < rank k := by
  cases h with
  | root => exact absurd (mem_singleton.1 hx) hne
  | step hup rest =>
    have hle := rest.rank_le hrank x ((mem_cons.1 hx).resolve_left hne)
    exact hle.trans_lt (hrank _ _ hup)

theorem nodup (h : Chain up k l) : l.Nodup := by
  induction h with
  | root => exact nodup_singleton _
  | step hup rest ih =>
    refine nodup_cons.2 ⟨fun hin => ?_, ih⟩
    have hle := rest.rank_le hrank _ hin
    have hlt := hrank _ _ hup
    omega

theorem length_le (h : Chain up k l) {ks : List K} (hk : k ∈ ks)
    (hclosed : ∀ k p, up k = some p → p ∈ ks) : l.length ≤ ks.length :=
  (subperm_of_subset (h.nodup hrank)
    (h.forall_mem hk fun k p hup _ => hclosed k p hup)).length_le

end Ranked

end Chain

theorem exists_chain {rank : K → ℕ} (hrank : ∀ k p, up k = some p → rank p < rank k) (k : K) :
    ∃ l, Chain up k l := by
  induction hn : rank k using Nat.strong_induction_on generalizing k with
  | _ n ih =>
    cases hup : up k with
    | none => exact ⟨_, .root hup⟩
    | some p =>
      obtain ⟨l, hl⟩ := ih (rank p) (hn ▸ hrank k p hup) p rfl
      exact ⟨_, .step hup hl⟩

end Splash.Lib.Forest
