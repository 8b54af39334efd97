import Splash.Rewards.Index

/-!
# Predicted and confirmed versions

The versions of an entity are predicted one on top of the other, confirmed from the oldest one and
removed from the last one. The reward index and the state projection of the DAO keep one pointer to
the latest version, which every write sets.

* `thread` — the versions that were written and not removed, the last one first.
* `Exact` — the last version is read, and removing it returns the one before it.
* `exact_iff` — a store is exact at every point of a run just when only the last version is
  confirmed.
* `getId_iff` — when the state projection finds the entity of a version.
-/

namespace Splash.Rewards.Predictions

open Lib Versions Function List

variable {Id V S : Type} [DecidableEq Id] [DecidableEq V]

inductive Store where
  | rewardIndex
  | stateProjection

/-- The state projection removes the latest version, and looks up the one before it in the table
from before the removal. -/
def removeLatest (s : Versions Id V (Index.Mod S)) (id : Id) :
    Exec (Option V × Versions Id V (Index.Mod S)) :=
  (s.latest id).elim (.ok (none, s)) fun current =>
    let states := update s.states (id, current) none
    (s.previous (id, current)).elim
      (.ok (none, ⟨update s.latest id none, s.previous, states⟩)) fun p =>
        (Exec.expect "called unwrap on a None value" (s.states (id, p))).map fun t =>
          (some p, ⟨update s.latest id (some p),
            t.prevStateId.elim s.previous fun pp =>
              update s.previous (id, current) (some pp), states⟩)

/-- The reward index is given the version to remove. -/
def Store.remove (store : Store) (s : Versions Id V (Index.Mod S)) (id : Id) (v : V) :
    Exec (Option V × Versions Id V (Index.Mod S)) :=
  match store with
  | .rewardIndex => s.remove id v
  | .stateProjection => removeLatest s id

inductive Op (Id V S : Type) where
  | predict (entity : S) (prev : Option V)
  | confirm (entity : S) (prev : Option V)
  | remove (id : Id) (v : V)

/-- How an entity and its version are identified. -/
structure Snapshots (Id V S : Type) where
  stableId : S → Id
  version : S → V

section

variable (snap : Snapshots Id V S)

def step (store : Store) (s : Versions Id V (Index.Mod S)) : Op Id V S →
    Exec (Versions Id V (Index.Mod S))
  | .predict x prev => .ok (s.write (snap.stableId x) (snap.version x) ⟨.predicted x, prev⟩)
  | .confirm x prev => .ok (s.write (snap.stableId x) (snap.version x) ⟨.confirmed x, prev⟩)
  | .remove id v => (store.remove s id v).map Prod.snd

def run (store : Store) : List (Op Id V S) → Exec (Versions Id V (Index.Mod S))
  | [] => .ok .empty
  | op :: ops => run store ops >>= fun s => step snap store s op

def confirmIn (x : S) (l : List (V × Traced V (Index.Mod S))) : List (V × Traced V (Index.Mod S)) :=
  l.map fun e => if e.1 = snap.version x then (e.1, ⟨.confirmed x, e.2.prevStateId⟩) else e

/-- The versions of the entities that were written and not removed, the last one first. -/
def thread : List (Op Id V S) → Id → List (V × Traced V (Index.Mod S))
  | [] => fun _ => []
  | .predict x prev :: ops => update (thread ops) (snap.stableId x)
      ((snap.version x, ⟨.predicted x, prev⟩) :: thread ops (snap.stableId x))
  | .confirm x _ :: ops => update (thread ops) (snap.stableId x)
      (confirmIn snap x (thread ops (snap.stableId x)))
  | .remove id _ :: ops => update (thread ops) id (thread ops id).tail

/-- Predictions extend the last version, confirmations go up from the oldest version that is not
confirmed, and the last version is removed. The ledger fixes what a version was made from. -/
def Valid (made : Id → V → Option V) : List (Op Id V S) → Prop
  | [] => True
  | .predict x prev :: ops => Valid made ops ∧
      prev = tip (thread snap ops (snap.stableId x)) ∧
      made (snap.stableId x) (snap.version x) = prev ∧
      snap.version x ∉ (thread snap ops (snap.stableId x)).map Prod.fst
  | .confirm x prev :: ops => Valid made ops ∧
      ∃ newer older y, thread snap ops (snap.stableId x) =
          newer ++ (snap.version x, ⟨.predicted y, prev⟩) :: older ∧
        ∀ e ∈ older, e.2.state = .confirmed e.2.state.erased
  | .remove id v :: ops => Valid made ops ∧ tip (thread snap ops id) = some v

def ConfirmsLast : List (Op Id V S) → Prop
  | [] => True
  | .confirm x _ :: ops => ConfirmsLast ops ∧
      tip (thread snap ops (snap.stableId x)) = some (snap.version x)
  | _ :: ops => ConfirmsLast ops

end

/-- Reading returns the last version, and removing it returns its predecessor. -/
structure Exact (store : Store) (th : Id → List (V × Traced V (Index.Mod S)))
    (s : Versions Id V (Index.Mod S)) : Prop where
  read : ∀ id, s.read id = (th id).head?.map Prod.snd
  remove : ∀ id e l, th id = e :: l → ∃ s', store.remove s id e.1 = .ok (tip l, s')

/-! ## Threads -/

variable {snap : Snapshots Id V S} {made : Id → V → Option V} {store : Store}
  {ops : List (Op Id V S)} {th : Id → List (V × Traced V (Index.Mod S))}
  {s : Versions Id V (Index.Mod S)}

/-- Every version was made from the one below it. -/
def Linked : List (V × Traced V (Index.Mod S)) → Prop
  | [] => True
  | e :: l => e.2.prevStateId = tip l ∧ Linked l

omit [DecidableEq Id] in
theorem tip_confirmIn (x : S) (l : List (V × Traced V (Index.Mod S))) :
    tip (confirmIn snap x l) = tip l := by
  cases l with
  | nil => rfl
  | cons e l =>
    show some (if e.1 = snap.version x then _ else e).1 = some e.1
    split <;> rfl

variable {l : List (V × Traced V (Index.Mod S))}

omit [DecidableEq Id] in
theorem linked_confirmIn (x : S) (h : Linked l) :
    Linked (confirmIn snap x l) := by
  induction l with
  | nil => trivial
  | cons e l ih =>
    refine ⟨?_, ih h.2⟩
    have hprev : (if e.1 = snap.version x then (e.1, ⟨.confirmed x, e.2.prevStateId⟩) else e).2.prevStateId =
        e.2.prevStateId := by
      split <;> rfl
    exact hprev.trans (h.1.trans (tip_confirmIn x l).symm)

omit [DecidableEq Id] in
theorem confirmIn_of_not_mem (x : S)
    (h : snap.version x ∉ l.map Prod.fst) : confirmIn snap x l = l := by
  refine map_congr_left (g := id) (fun e he => if_neg fun hv => ?_) |>.trans (map_id l)
  exact h (hv ▸ mem_map_of_mem he)

/-- What every operation keeps of a list of versions holds of every thread. -/
theorem thread_induction {P : List (V × Traced V (Index.Mod S)) → Prop}
    (h : Valid snap made ops) (hnil : P [])
    (hpredict : ∀ x l, P l → P ((snap.version x, ⟨.predicted x, tip l⟩) :: l))
    (hconfirm : ∀ x l, P l → P (confirmIn snap x l)) (hremove : ∀ l, P l → P l.tail) (id : Id) :
    P (thread snap ops id) := by
  revert id
  induction ops with
  | nil => exact fun _ => hnil
  | cons op ops ih =>
    have hupdate : ∀ {j l}, (∀ id, P (thread snap ops id)) → P l →
        ∀ id, P (update (thread snap ops) j l id) := fun hth hl =>
      (forall_update_iff _ (p := fun _ l => P l)).2 ⟨hl, fun id _ => hth id⟩
    cases op with
    | predict x prev =>
      obtain rfl := h.2.1
      exact hupdate (ih h.1) (hpredict x _ (ih h.1 _))
    | confirm x prev => exact hupdate (ih h.1) (hconfirm x _ (ih h.1 _))
    | remove j v => exact hupdate (ih h.1) (hremove _ (ih h.1 _))

theorem linked_thread (h : Valid snap made ops) (id : Id) : Linked (thread snap ops id) := by
  refine thread_induction h trivial (fun x l hl => ⟨rfl, hl⟩) (fun x l => linked_confirmIn x) ?_ id
  intro l hl
  cases l with
  | nil => trivial
  | cons e l => exact hl.2

variable {e : V × Traced V (Index.Mod S)}

theorem version_of_mem (h : Valid snap made ops) {id : Id} (he : e ∈ thread snap ops id) :
    snap.version e.2.state.erased = e.1 := by
  refine thread_induction (P := fun l => ∀ e ∈ l, snap.version e.2.state.erased = e.1) h ?_ ?_ ?_ ?_ id
    e he
  · simp
  · exact fun x l hl => forall_mem_cons.2 ⟨rfl, hl⟩
  · intro x l hl e he
    obtain ⟨e', he', rfl⟩ := mem_map.1 he
    by_cases hv : e'.1 = snap.version x
    · rw [if_pos hv]
      exact hv.symm
    · rw [if_neg hv]
      exact hl e' he'
  · exact fun l hl e he => hl e (mem_of_mem_tail he)

/-! ## Stores -/

/-- The removed version is not the one before it, so both stores remove alike. -/
theorem Store.remove_eq (h : Versions.Holds made s th) {id : Id} (hl : Linked (th id))
    (hth : th id = e :: l) : store.remove s id e.1 = s.remove id e.1 := by
  cases store with
  | rewardIndex => rfl
  | stateProjection =>
    rw [hth] at hl
    have hprev := h.previous id e.1 e.2 (hth ▸ mem_cons_self)
    rw [h.remove_eq hth]
    show removeLatest s id = _
    unfold removeLatest
    rw [h.latest, hth, tip_cons, Option.elim_some]
    simp only [hprev, hl.1]
    cases l with
    | nil => rfl
    | cons e' l =>
      have hnodup := h.nodup id
      simp only [hth, map_cons, nodup_cons, mem_cons, not_or] at hnodup
      have hne : (id, e'.1) ≠ (id, e.1) := fun hk => hnodup.1.1 (Prod.mk.inj hk).2.symm
      rw [tip_cons, Option.elim_some, Option.elim_some, update_of_ne hne]

theorem exact_of_holds (h : Versions.Holds made s th) (hl : ∀ id, Linked (th id)) :
    Exact store th s := by
  refine ⟨h.read, fun id e l hth => ?_⟩
  have hlinked := hl id
  rw [hth] at hlinked
  obtain ⟨s', hs', -⟩ := h.remove hth hlinked.1
  refine ⟨s', ?_⟩
  rw [Store.remove_eq h (hl id) hth, hs', hlinked.1]

/-! ## Runs -/

omit [DecidableEq Id] in
theorem confirmIn_cons (x : S) {t : Traced V (Index.Mod S)}
    (h : snap.version x ∉ l.map Prod.fst) :
    confirmIn snap x ((snap.version x, t) :: l) =
      (snap.version x, ⟨.confirmed x, t.prevStateId⟩) :: l := by
  have hl := confirmIn_of_not_mem x h
  unfold confirmIn at hl ⊢
  rw [map_cons, hl, if_pos rfl]

omit [DecidableEq V] in
theorem eq_nil_of_tip_eq {newer older : List (V × Traced V (Index.Mod S))} {v : V}
    {t : Traced V (Index.Mod S)} (hnodup : ((newer ++ (v, t) :: older).map Prod.fst).Nodup)
    (htip : tip (newer ++ (v, t) :: older) = some v) : newer = [] := by
  cases newer with
  | nil => rfl
  | cons e newer =>
    obtain rfl : e.1 = v := Option.some.inj htip
    rw [cons_append, map_cons, nodup_cons] at hnodup
    exact absurd (mem_map_of_mem (mem_append_right newer mem_cons_self)) hnodup.1

theorem exists_step {op : Op Id V S} (hv : Valid snap made (op :: ops)) (hc : ConfirmsLast snap (op :: ops))
    (hs : Versions.Holds made s (thread snap ops)) :
    ∃ s', step snap store s op = .ok s' ∧ Versions.Holds made s' (thread snap (op :: ops)) := by
  cases op with
  | predict x prev =>
    obtain ⟨-, -, hmade, hfresh⟩ := hv
    exact ⟨_, rfl, hs.put (fun _ he => he) (fun _ he => .inl he) (hs.nodup _) hfresh hmade⟩
  | confirm x prev =>
    obtain ⟨-, newer, older, y, hth, -⟩ := hv
    have hnodup := hs.nodup (snap.stableId x)
    have htip := hc.2
    rw [hth] at hnodup htip
    obtain rfl := eq_nil_of_tip_eq hnodup htip
    rw [nil_append] at hth hnodup
    refine ⟨_, rfl, ?_⟩
    rw [map_cons, nodup_cons] at hnodup
    rw [thread, hth, confirmIn_cons x hnodup.1]
    exact hs.rewrite hth rfl
  | remove id v =>
    have hlinked := linked_thread hv.1 id
    cases hth : thread snap ops id with
    | nil =>
      have htip := hv.2
      rw [hth] at htip
      cases htip
    | cons e l =>
      have htip := hv.2
      rw [hth] at htip
      obtain rfl : e.1 = v := Option.some.inj htip
      have heq : store.remove s id e.1 = s.remove id e.1 := Store.remove_eq hs hlinked hth
      rw [hth] at hlinked
      obtain ⟨s', hs', hholds⟩ := hs.remove hth hlinked.1
      refine ⟨s', ?_, ?_⟩
      · rw [step, heq, hs']
        rfl
      · rw [thread, hth]
        exact hholds

theorem below_cons {op : Op Id V S} (hv : Valid snap made (op :: ops))
    (hc : ConfirmsLast snap (op :: ops)) : Valid snap made ops ∧ ConfirmsLast snap ops := by
  cases op with
  | predict x prev => exact ⟨hv.1, hc⟩
  | confirm x prev => exact ⟨hv.1, hc.1⟩
  | remove id v => exact ⟨hv.1, hc⟩

theorem below {ops' : List (Op Id V S)} (hv : Valid snap made ops)
    (hc : ConfirmsLast snap ops) (h : ops' <:+ ops) :
    Valid snap made ops' ∧ ConfirmsLast snap ops' := by
  induction ops with
  | nil =>
    obtain rfl := suffix_nil.1 h
    exact ⟨hv, hc⟩
  | cons op ops ih =>
    rcases suffix_cons_iff.1 h with rfl | h
    · exact ⟨hv, hc⟩
    · exact ih (below_cons hv hc).1 (below_cons hv hc).2 h

theorem exists_run (hv : Valid snap made ops) (hc : ConfirmsLast snap ops) :
    ∃ s, run snap store ops = .ok s ∧ Versions.Holds made s (thread snap ops) := by
  induction ops with
  | nil => exact ⟨_, rfl, holds_empty⟩
  | cons op ops ih =>
    have hold := below_cons hv hc
    obtain ⟨s, hs, hholds⟩ := ih hold.1 hold.2
    obtain ⟨s', hs', hholds'⟩ := exists_step hv hc hholds
    refine ⟨s', ?_, hholds'⟩
    rw [run, hs]
    exact hs'

/-- A store that reads a confirmed version reads the last one. -/
theorem tip_of_exact_confirm {x : S} {prev : Option V}
    (hv : Valid snap made (.confirm x prev :: ops))
    (hs : run snap store (.confirm x prev :: ops) = .ok s)
    (hexact : Exact store (thread snap (.confirm x prev :: ops)) s) :
    tip (thread snap ops (snap.stableId x)) = some (snap.version x) := by
  obtain ⟨s₀, -, hstep⟩ := Exec.bind_eq_ok.1 hs
  cases hstep
  have hread := hexact.read (snap.stableId x)
  rw [read_write_self] at hread
  obtain ⟨e, he, hstate⟩ := Option.map_eq_some_iff.1 hread.symm
  have hversion := version_of_mem hv (mem_of_head? he)
  rw [hstate] at hversion
  rw [← tip_confirmIn x, tip]
  rw [thread, update_self] at he
  rw [he]
  exact congrArg some hversion.symm

/-- **The last version is read and removed at every point of a run just when the run confirms a
version only while it is the last one.** -/
theorem exact_iff (store : Store) (hv : Valid snap made ops) :
    (∀ ops', ops' <:+ ops →
      ∃ s, run snap store ops' = .ok s ∧ Exact store (thread snap ops') s) ↔
    ConfirmsLast snap ops := by
  constructor
  · intro h
    induction ops with
    | nil => trivial
    | cons op ops ih =>
      have hsuffix := fun ops' (hops : ops' <:+ ops) => h ops' (hops.trans (suffix_cons _ _))
      cases op with
      | predict x prev => exact ih hv.1 hsuffix
      | remove id v => exact ih hv.1 hsuffix
      | confirm x prev =>
        obtain ⟨s, hs, hexact⟩ := h _ suffix_rfl
        exact ⟨ih hv.1 hsuffix, tip_of_exact_confirm hv hs hexact⟩
  · intro hc ops' hops
    have hbelow := below hv hc hops
    obtain ⟨s, hs, hholds⟩ := @exists_run _ _ _ _ _ snap made store _ hbelow.1 hbelow.2
    exact ⟨s, hs, exact_of_holds hholds (linked_thread hbelow.1)⟩

/-- Entities that are an identifier with a version. -/
def sampleSnapshots : Snapshots ℕ ℕ (ℕ × ℕ) := ⟨Prod.fst, Prod.snd⟩

/-- Two predictions, of which the first one is then confirmed. -/
def sampleOps : List (Op ℕ ℕ (ℕ × ℕ)) :=
  [.confirm (0, 1) none, .predict (0, 2) (some 1), .predict (0, 1) none]

def sampleMade (_ v : ℕ) : Option ℕ := if v = 2 then some 1 else none

theorem valid_sampleOps : Valid sampleSnapshots sampleMade sampleOps := by
  refine ⟨⟨⟨trivial, rfl, rfl, ?_⟩, rfl, rfl, ?_⟩, ?_⟩
  · exact not_mem_nil
  · decide
  · exact ⟨[(2, ⟨.predicted (0, 2), some 1⟩)], [], (0, 1), rfl, fun _ he => nomatch he⟩

/-- **The confirmed version is read although a prediction has spent it**, from both stores. -/
theorem sampleOps_reads_spent :
    Valid sampleSnapshots sampleMade sampleOps ∧
    (thread sampleSnapshots sampleOps 0).head? = some (2, ⟨.predicted (0, 2), some 1⟩) ∧
    ∀ store, ∃ s, run sampleSnapshots store sampleOps = .ok s ∧
      s.read 0 = some ⟨.confirmed (0, 1), none⟩ ∧ ¬ Exact store (thread sampleSnapshots sampleOps) s := by
  refine ⟨valid_sampleOps, rfl, fun store => ⟨_, rfl, rfl, fun h => ?_⟩⟩
  have hread := h.read 0
  revert hread
  decide

/-- A prediction that is confirmed before the next one is made, which is then removed. -/
def sampleOrderly : List (Op ℕ ℕ (ℕ × ℕ)) :=
  [.remove 0 2, .predict (0, 2) (some 1), .confirm (0, 1) none, .predict (0, 1) none]

theorem valid_sampleOrderly : Valid sampleSnapshots sampleMade sampleOrderly := by
  refine ⟨⟨⟨⟨trivial, rfl, rfl, ?_⟩, ?_⟩, rfl, rfl, ?_⟩, rfl⟩
  · exact not_mem_nil
  · exact ⟨[], [], (0, 1), rfl, fun _ he => nomatch he⟩
  · decide

theorem sampleOrderly_exact : Valid sampleSnapshots sampleMade sampleOrderly ∧
    ∃ s, run sampleSnapshots .stateProjection sampleOrderly = .ok s ∧
      Exact .stateProjection (thread sampleSnapshots sampleOrderly) s :=
  ⟨valid_sampleOrderly,
    (exact_iff .stateProjection valid_sampleOrderly).2 ⟨trivial, rfl⟩ _ suffix_rfl⟩

/-! ## Lookup by version -/

/-- `get_id`: the first key of the table of predecessors that starts with the version. Keys are in
the order of the encoded identifiers. -/
def GetId {B : Type} [LE B] (encode : Id → B) (s : Versions Id V (Index.Mod S)) (v : V) (id : Id) :
    Prop :=
  MinimalFor (fun id => (s.previous (id, v)).isSome) encode id

/-- The link that a write puts in. -/
def Op.link (snap : Snapshots Id V S) : Op Id V S → Option (Id × V)
  | .predict x prev => prev.map fun _ => (snap.stableId x, snap.version x)
  | .confirm x prev => prev.map fun _ => (snap.stableId x, snap.version x)
  | .remove _ _ => none

theorem isSome_previous_write (id : Id) (v : V) (t : Traced V (Index.Mod S)) (k : Id × V) :
    ((s.write id v t).previous k).isSome ↔
      (t.prevStateId.map fun _ => (id, v)) = some k ∨ (s.previous k).isSome := by
  unfold write
  cases t.prevStateId with
  | none => simp
  | some p =>
    by_cases hk : k = (id, v)
    · simp [hk]
    · simp [hk, Ne.symm hk]

/-- A removal changes no link to nothing. -/
theorem isSome_previous_removeLatest {s' : Versions Id V (Index.Mod S)} {id : Id} {r : Option V}
    (h : removeLatest s id = .ok (r, s')) (k : Id × V) :
    (s'.previous k).isSome ↔ (s.previous k).isSome := by
  unfold removeLatest at h
  cases hlatest : s.latest id with
  | none =>
    rw [hlatest] at h
    cases h
    rfl
  | some current =>
    rw [hlatest, Option.elim_some] at h
    cases hprevious : s.previous (id, current) with
    | none =>
      rw [hprevious] at h
      cases h
      rfl
    | some p =>
      rw [hprevious, Option.elim_some] at h
      obtain ⟨t, -, h⟩ := Exec.map_eq_ok.1 h
      cases h
      cases t.prevStateId with
      | none => rfl
      | some pp => by_cases hk : k = (id, current) <;> simp [hk, hprevious]

/-- Links are never taken out. -/
theorem isSome_previous_run (h : run snap .stateProjection ops = .ok s) (k : Id × V) :
    (s.previous k).isSome ↔ k ∈ ops.filterMap (Op.link snap) := by
  induction ops generalizing s with
  | nil =>
    cases h
    simp [Versions.empty]
  | cons op ops ih =>
    obtain ⟨s₀, hs₀, hstep⟩ := Exec.bind_eq_ok.1 h
    rw [filterMap_cons]
    cases op with
    | predict x prev =>
      cases hstep
      rw [isSome_previous_write, ih hs₀]
      cases prev <;> simp [Op.link, eq_comm]
    | confirm x prev =>
      cases hstep
      rw [isSome_previous_write, ih hs₀]
      cases prev <;> simp [Op.link, eq_comm]
    | remove id v =>
      obtain ⟨⟨r, s'⟩, hremove, hs'⟩ := Exec.map_eq_ok.1 hstep
      cases hs'
      exact (isSome_previous_removeLatest hremove k).trans (ih hs₀)

/-- **A version is looked up exactly** just when the latest versions are those that were ever
written with a predecessor, each by the identifier that is encoded first. -/
theorem getId_iff {B : Type} [LE B] (encode : Id → B) (h : run snap .stateProjection ops = .ok s) :
    (∀ v id, GetId encode s v id ↔ s.latest id = some v) ↔
      ∀ v id, MinimalFor (fun id => (id, v) ∈ ops.filterMap (Op.link snap)) encode id ↔
        s.latest id = some v := by
  simp only [GetId, isSome_previous_run h]

theorem sampleFirst_not_found : ∃ s, run sampleSnapshots .stateProjection [.predict (7, 1) none] =
    .ok s ∧ s.latest 7 = some 1 ∧ ¬ GetId id s 1 7 :=
  ⟨_, rfl, rfl, fun h => absurd h.prop (by decide)⟩

theorem sampleSecond_found :
    ∃ s, run sampleSnapshots .stateProjection [.predict (7, 1) (some 0)] = .ok s ∧
      ∀ v id, GetId (fun n : ℕ => n) s v id ↔ s.latest id = some v := by
  have h : run sampleSnapshots .stateProjection [.predict (7, 1) (some 0)] = .ok _ := rfl
  refine ⟨_, h, (getId_iff _ h).2 fun v id => ?_⟩
  by_cases hid : id = 7 <;>
    simp [hid, MinimalFor, Op.link, sampleSnapshots, write, Versions.empty, eq_comm]

end Splash.Rewards.Predictions
