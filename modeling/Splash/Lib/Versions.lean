import Splash.Lib.Exec

/-!
# Versioned entities

A store that keeps every version of an entity together with the version it was made from. The
latest version can be removed, which makes the one before it the latest again.

* `Holds` — the store keeps a thread of versions for every entity, the latest one first.
* `Holds.write`, `Holds.rewrite` — a write adds a version to a thread or replaces the latest one.
* `Holds.remove` — the latest version is removed when it was made from the one below it.
* `Holds.not_remove` — it cannot be removed when it was made from an unknown version.
-/

namespace Splash.Lib

open Function List Option

/-- A state and the version it was made from. -/
structure Traced (V S : Type) where
  state : S
  prevStateId : Option V
  deriving DecidableEq

/-- Three tables: the latest version of an entity, the version before a version, and the states. -/
structure Versions (Id V S : Type) where
  latest : Id → Option V
  previous : Id × V → Option V
  states : Id × V → Option (Traced V S)

namespace Versions

variable {Id V S : Type}

def empty : Versions Id V S := ⟨fun _ => none, fun _ => none, fun _ => none⟩

def read (s : Versions Id V S) (id : Id) : Option (Traced V S) :=
  (s.latest id).bind fun v => s.states (id, v)

variable [DecidableEq Id] [DecidableEq V]

section

variable (s : Versions Id V S) (id : Id) (v : V)

def write (t : Traced V S) : Versions Id V S where
  latest := update s.latest id (some v)
  previous := t.prevStateId.elim s.previous fun p => update s.previous (id, v) (some p)
  states := update s.states (id, v) (some t)

/-- Removes the latest version, which has to be `v`, and returns the one before it. -/
def remove : Exec (Option V × Versions Id V S) :=
  (s.latest id).elim (.ok (none, s)) fun current =>
    if current = v then
      let states := update s.states (id, current) none
      (s.previous (id, current)).elim
        (.ok (none, ⟨update s.latest id none, s.previous, states⟩)) fun p =>
          (Exec.expect "called unwrap on a None value" (states (id, p))).map fun t =>
            -- The entry of the removed version is overwritten, not the one of `p`.
            (some p, ⟨update s.latest id (some p),
              t.prevStateId.elim s.previous fun pp =>
                update s.previous (id, current) (some pp), states⟩)
    else .error (.explicit "assertion failed: current_version == version")

/-! ## Threads -/

def tip (l : List (V × Traced V S)) : Option V := l.head?.map Prod.fst

omit [DecidableEq V] in
@[simp] theorem tip_nil : tip ([] : List (V × Traced V S)) = none := rfl

omit [DecidableEq V] in
@[simp] theorem tip_cons (e : V × Traced V S) (l : List (V × Traced V S)) :
    tip (e :: l) = some e.1 := rfl

theorem read_write_self (t : Traced V S) : (s.write id v t).read id = some t := by
  simp only [read, write, update_self, bind_some]

end

omit [DecidableEq V] in
/-- The store keeps these threads. A version that was made from nothing has no entry for the
version before it, even when it is not in a thread. -/
structure Holds (made : Id → V → Option V) (s : Versions Id V S)
    (th : Id → List (V × Traced V S)) : Prop where
  latest : ∀ id, s.latest id = tip (th id)
  states : ∀ id v t, s.states (id, v) = some t ↔ (v, t) ∈ th id
  previous : ∀ id v t, (v, t) ∈ th id → s.previous (id, v) = t.prevStateId
  origin : ∀ id v t, (v, t) ∈ th id → made id v = t.prevStateId
  first : ∀ id v, made id v = none → s.previous (id, v) = none
  nodup : ∀ id, ((th id).map Prod.fst).Nodup

/-- A version of an entity continues its thread: it is new, and it was made from nothing when it
is the first one, otherwise from the latest version or from one that is not in the thread. -/
structure Continues (made : V → Option V) (l : List (V × Traced V S)) (v : V)
    (prev : Option V) : Prop where
  origin : made v = prev
  fresh : v ∉ l.map Prod.fst
  first : prev = none → l = []
  next : ∀ p, prev = some p → p ≠ v ∧ (p ∈ l.map Prod.fst → tip l = some p)

section

variable {made : Id → V → Option V} {s : Versions Id V S}
  {th : Id → List (V × Traced V S)} {id : Id} {v : V} {t : Traced V S}
  {l : List (V × Traced V S)}

omit [DecidableEq Id] [DecidableEq V] in
theorem holds_empty : Holds made (empty : Versions Id V S) fun _ => [] where
  latest _ := rfl
  states _ _ _ := by simp [empty]
  previous _ _ _ h := by cases h
  origin _ _ _ h := by cases h
  first _ _ _ := rfl
  nodup _ := nodup_nil

section

variable (h : Holds made s th)
include h

omit [DecidableEq Id] [DecidableEq V] in
theorem Holds.read (id : Id) :
    s.read id = (th id).head?.map Prod.snd := by
  unfold Versions.read
  rw [h.latest]
  cases hth : th id with
  | nil => rfl
  | cons e l => exact (h.states id e.1 e.2).2 (hth ▸ mem_cons_self)

/-- A write of a version that continues the rest of its thread. -/
theorem Holds.put (hl : ∀ e ∈ l, e ∈ th id)
    (hold : ∀ e ∈ th id, e ∈ l ∨ e.1 = v) (hnodup : (l.map Prod.fst).Nodup)
    (hfresh : v ∉ l.map Prod.fst) (hmade : made id v = t.prevStateId) :
    Holds made (s.write id v t) (update th id ((v, t) :: l)) := by
  have hstates : ∀ u, u ≠ v → ∀ t', (u, t') ∈ th id ↔ (u, t') ∈ l := fun u hu t' =>
    ⟨fun hmem => (hold _ hmem).resolve_right hu, hl _⟩
  have hprevious : ∀ k, k ≠ (id, v) → (s.write id v t).previous k = s.previous k := by
    intro k hk
    unfold write
    cases hp : t.prevStateId with
    | none => rfl
    | some p => exact update_of_ne hk _ _
  have hown : (s.write id v t).previous (id, v) = t.prevStateId := by
    unfold write
    cases hp : t.prevStateId with
    | none => exact h.first id v (hmade.trans hp)
    | some p => exact update_self _ _ _
  refine ⟨fun id' => ?_, fun id' u t' => ?_, fun id' u t' hmem => ?_, fun id' u t' hmem => ?_,
    fun id' u hu => ?_, fun id' => ?_⟩
  · by_cases hid : id' = id
    · subst hid
      simp [write]
    · simpa [write, hid] using h.latest id'
  · by_cases hid : id' = id
    · subst hid
      by_cases hu : u = v
      · subst hu
        have hnot : (u, t') ∉ l := fun hmem => hfresh (mem_map_of_mem hmem)
        simp [write, hnot, eq_comm]
      · simpa [write, hu, hstates u hu] using h.states id' u t'
    · simpa [write, hid] using h.states id' u t'
  · by_cases hid : id' = id
    · subst hid
      rw [update_self] at hmem
      rcases mem_cons.1 hmem with heq | hmem
      · cases heq
        exact hown
      · have hu : u ≠ v := fun hu => hfresh (hu ▸ mem_map_of_mem hmem)
        rw [hprevious _ fun hk => hu (Prod.mk.inj hk).2]
        exact h.previous id' u t' (hl _ hmem)
    · rw [update_of_ne hid] at hmem
      rw [hprevious _ fun hk => hid (Prod.mk.inj hk).1]
      exact h.previous id' u t' hmem
  · by_cases hid : id' = id
    · subst hid
      rw [update_self] at hmem
      rcases mem_cons.1 hmem with heq | hmem
      · cases heq
        exact hmade
      · exact h.origin id' u t' (hl _ hmem)
    · rw [update_of_ne hid] at hmem
      exact h.origin id' u t' hmem
  · by_cases hk : (id', u) = (id, v)
    · cases hk
      exact hown.trans (hmade.symm.trans hu)
    · rw [hprevious _ hk]
      exact h.first id' u hu
  · by_cases hid : id' = id
    · subst hid
      rw [update_self]
      exact nodup_cons.2 ⟨hfresh, hnodup⟩
    · rw [update_of_ne hid]
      exact h.nodup id'

theorem Holds.write
    (hc : Continues (made id) (th id) v t.prevStateId) :
    Holds made (s.write id v t) (update th id ((v, t) :: th id)) :=
  h.put (fun _ he => he) (fun _ he => .inl he) (h.nodup id) hc.fresh hc.origin

/-- The latest version is replaced by one that was made from the same version. -/
theorem Holds.rewrite {t' : Traced V S} (hth : th id = (v, t') :: l)
    (hprev : t.prevStateId = t'.prevStateId) :
    Holds made (s.write id v t) (update th id ((v, t) :: l)) := by
  have hnodup := h.nodup id
  rw [hth, map_cons, nodup_cons] at hnodup
  have hmade := h.origin id v t' (hth ▸ mem_cons_self)
  refine h.put (fun e he => hth ▸ mem_cons_of_mem _ he) (fun e he => ?_) hnodup.2 hnodup.1
    (hmade.trans hprev.symm)
  rw [hth] at he
  rcases mem_cons.1 he with rfl | he
  · exact .inr rfl
  · exact .inl he

section

variable (hth : th id = (v, t) :: l)
include hth

/-- What is left of the tables without the latest version. -/
theorem Holds.pop {previous : Id × V → Option V}
    (hprevious : ∀ k, k ≠ (id, v) → previous k = s.previous k)
    (hfirst : t.prevStateId = none → previous (id, v) = none) :
    Holds made ⟨update s.latest id (tip l), previous,
      update s.states (id, v) none⟩ (update th id l) := by
  have hnodup := h.nodup id
  rw [hth, map_cons, nodup_cons] at hnodup
  have hold : ∀ id' u t', (u, t') ∈ update th id l id' →
      (u, t') ∈ th id' ∧ (id', u) ≠ (id, v) := by
    intro id' u t' hmem
    by_cases hid : id' = id
    · subst hid
      rw [update_self] at hmem
      refine ⟨hth ▸ mem_cons_of_mem _ hmem, fun hk => hnodup.1 ?_⟩
      exact mem_map.2 ⟨_, hmem, (Prod.mk.inj hk).2⟩
    · rw [update_of_ne hid] at hmem
      exact ⟨hmem, fun hk => hid (Prod.mk.inj hk).1⟩
  refine ⟨fun id' => ?_, fun id' u t' => ?_, fun id' u t' hmem => ?_, fun id' u t' hmem => ?_,
    fun id' u hu => ?_, fun id' => ?_⟩
  · by_cases hid : id' = id
    · subst hid
      simp
    · simpa [hid] using h.latest id'
  · by_cases hk : (id', u) = (id, v)
    · cases hk
      have hnot : (v, t') ∉ l := fun hmem => hnodup.1 (mem_map.2 ⟨_, hmem, rfl⟩)
      simp [hnot]
    · show update s.states (id, v) none (id', u) = some t' ↔ _
      rw [update_of_ne hk, h.states id' u t']
      refine ⟨fun hmem => ?_, fun hmem => (hold id' u t' hmem).1⟩
      by_cases hid : id' = id
      · subst hid
        rw [hth] at hmem
        rw [update_self]
        refine (mem_cons.1 hmem).resolve_left fun heq => hk ?_
        rw [(Prod.mk.inj heq).1]
      · rwa [update_of_ne hid]
  · obtain ⟨hmem, hk⟩ := hold id' u t' hmem
    exact (hprevious _ hk).trans (h.previous id' u t' hmem)
  · exact h.origin id' u t' (hold id' u t' hmem).1
  · by_cases hk : (id', u) = (id, v)
    · cases hk
      exact hfirst ((h.origin id v t (hth ▸ mem_cons_self)).symm.trans hu)
    · exact (hprevious _ hk).trans (h.first id' u hu)
  · by_cases hid : id' = id
    · subst hid
      rw [update_self]
      exact hnodup.2
    · rw [update_of_ne hid]
      exact h.nodup id'

theorem Holds.remove_eq :
    s.remove id v = t.prevStateId.elim
      (.ok (none, ⟨update s.latest id none, s.previous,
        update s.states (id, v) none⟩)) fun p =>
        (Exec.expect "called unwrap on a None value"
          (update s.states (id, v) none (id, p))).map fun t' =>
          (some p, ⟨update s.latest id (some p),
            t'.prevStateId.elim s.previous fun pp =>
              update s.previous (id, v) (some pp),
            update s.states (id, v) none⟩) := by
  have hprev := h.previous id v t (hth ▸ mem_cons_self)
  unfold Versions.remove
  rw [h.latest, hth, tip_cons, elim_some, if_pos rfl]
  simp only [hprev]

/-- **The latest version is removed** when it was made from the version below it. -/
theorem Holds.remove (hprev : t.prevStateId = tip l) :
    ∃ s', s.remove id v = .ok (t.prevStateId, s') ∧ Holds made s' (update th id l) := by
  rw [h.remove_eq hth]
  cases l with
  | nil =>
    rw [tip_nil] at hprev
    rw [hprev]
    have hfirst := h.origin id v t (hth ▸ mem_cons_self)
    exact ⟨_, rfl, h.pop hth (fun _ _ => rfl) fun _ => h.first id v (hfirst.trans hprev)⟩
  | cons e l =>
    rw [tip_cons] at hprev
    have hnodup := h.nodup id
    simp only [hth, map_cons, nodup_cons, mem_cons, not_or] at hnodup
    have hbelow : update s.states (id, v) none (id, e.1) = some e.2 := by
      rw [update_of_ne fun hk => hnodup.1.1 (Prod.mk.inj hk).2.symm]
      exact (h.states id e.1 e.2).2 (hth ▸ mem_cons_of_mem _ mem_cons_self)
    rw [hprev, elim_some, hbelow]
    refine ⟨_, rfl, h.pop hth (fun k hk => ?_) fun hno => ?_⟩
    · cases hpp : e.2.prevStateId with
      | none => rfl
      | some pp => exact update_of_ne hk _ _
    · rw [hprev] at hno
      cases hno

/-- A version that was made from an unknown one cannot be removed. -/
theorem Holds.not_remove {p : V} (hprev : t.prevStateId = some p) (hp : p ∉ l.map Prod.fst)
    (r : Option V × Versions Id V S) : s.remove id v ≠ .ok r := by
  have hunknown : update s.states (id, v) none (id, p) = none := by
    by_cases hk : (id, p) = (id, v)
    · rw [hk, update_self]
    · rw [update_of_ne hk, eq_none_iff_forall_ne_some]
      intro t' hget
      have hmem := (h.states id p t').1 hget
      rw [hth] at hmem
      rcases mem_cons.1 hmem with heq | hmem
      · exact hk (by rw [(Prod.mk.inj heq).1])
      · exact hp (mem_map_of_mem hmem)
  rw [h.remove_eq hth, hprev, elim_some, hunknown]
  exact fun hok => nomatch hok

end

end

omit [DecidableEq V] in
/-- A version that was not made from the latest one was made from an unknown one. -/
theorem Continues.unknown {made : V → Option V} {prev : Option V}
    (h : Continues made l v prev) (hne : prev ≠ tip l) : ∃ p, prev = some p ∧ p ∉ l.map Prod.fst := by
  cases hprev : prev with
  | none =>
    rw [h.first hprev] at hne
    exact absurd hprev hne
  | some p => exact ⟨p, rfl, fun hmem => hne (hprev.trans ((h.next p hprev).2 hmem).symm)⟩

end

end Versions

end Splash.Lib
