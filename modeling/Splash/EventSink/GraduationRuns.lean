import Splash.EventSink.Graduation

/-!
# Graduation along the ledger

Transactions are observed as they are applied and rolled back in the opposite order, and the agent
may be restarted from its database in between. The journal entry of a transaction lists the pools
that graduated in it, also those that had graduated before.

* `mirrors_run` — database and memory stay the same in every run.
* `rollback_observe` — a rollback restores everything but pools that had graduated before.
* `faithful_iff` — the state is that of the surviving transactions just when no rollback finds a
  pool that had graduated before.
-/

namespace Splash.EventSink.Graduation

open Lib OrdMap List

variable {P N : Type} [LinearOrder P] [LinearOrder N]

/-! ## Runs -/

inductive Step (P N : Type) where
  | observe (tx : SnekTx P N)
  | rollback (tx : SnekTx P N)
  | restart

structure State (P N : Type) [LinearOrder P] [LinearOrder N] where
  memory : Memory P N
  db : Database

/-- Observes a transaction; one without Snek outputs leaves the memory as it is. -/
def Memory.observe (m : Memory P N) (tx : SnekTx P N) : Memory P N :=
  if m.observes tx then m.applyObservationEntry tx.hash (m.observation tx) else m

section Runs

variable (texts : Texts P N)

/-- A step of the agent. A restart fails when the database cannot be read. -/
def step (s : State P N) : Step P N → Option (State P N)
  | .observe tx => some
      { memory := s.memory.observe tx
        db :=
          if s.memory.observes tx then
            persistObservation texts s.db tx.hash (s.memory.observation tx)
          else s.db }
  | .rollback tx => some ((s.memory.journal.get? tx.hash).elim s fun entry =>
      { memory := s.memory.rollbackEntry tx.hash entry
        db := persistRollback texts s.db tx.hash entry })
  | .restart => (loadState texts s.db).map fun m => { s with memory := m }

def run : List (Step P N) → Option (State P N)
  | [] => some ⟨.empty, .empty⟩
  | e :: es => (run es).bind fun s => step texts s e

end Runs

/-- The transactions that were not rolled back, the last one first. -/
def survivors : List (Step P N) → List (SnekTx P N)
  | [] => []
  | .observe tx :: es => tx :: survivors es
  | .rollback _ :: es => (survivors es).tail
  | .restart :: es => survivors es

/-- Only the last surviving transaction is rolled back, and no surviving one is observed again. -/
def Valid : List (Step P N) → Prop
  | [] => True
  | .observe tx :: es => Valid es ∧ ∀ t ∈ survivors es, t.hash ≠ tx.hash
  | .rollback tx :: es => Valid es ∧ (survivors es).head? = some tx
  | .restart :: es => Valid es

/-- The memory after some transactions, the last one first. -/
def replay : List (SnekTx P N) → Memory P N
  | [] => .empty
  | tx :: ts => (replay ts).observe tx

/-- Every rollback is of a transaction whose graduated pools had not graduated before. -/
def Clean : List (Step P N) → Prop
  | [] => True
  | .observe _ :: es => Clean es
  | .rollback tx :: es => Clean es ∧
      ∀ id ∈ ((replay (survivors es).tail).observation tx).graduatedSplashIds,
        (replay (survivors es).tail).graduated.get? id = none
  | .restart :: es => Clean es

/-- The memory is that of the surviving transactions, and the database is loaded as the memory. -/
def Faithful (texts : Texts P N) (es : List (Step P N)) : Prop :=
  ∃ s, run texts es = some s ∧ s.memory = replay (survivors es) ∧
    loadState texts s.db = some s.memory

/-! ## Database and memory -/

section

variable {texts : Texts P N} {s : State P N}

theorem mirrors_step (h : Mirrors texts s.db s.memory) (e : Step P N) :
    ∃ s', step texts s e = some s' ∧ Mirrors texts s'.db s'.memory := by
  cases e with
  | observe tx =>
    refine ⟨_, rfl, ?_⟩
    by_cases hobs : s.memory.observes tx = true
    · simp only [Memory.observe, hobs, if_true]
      exact h.persistObservation tx.hash _
    · simp only [Memory.observe, hobs]
      exact h
  | rollback tx =>
    refine ⟨_, rfl, ?_⟩
    cases hentry : s.memory.journal.get? tx.hash with
    | none => exact h
    | some entry => exact h.persistRollback tx.hash entry
  | restart =>
    refine ⟨s, ?_, h⟩
    unfold step
    rw [loadState_of_mirrors h]
    rfl

/-- **In every run the database mirrors the memory.** -/
theorem mirrors_run (texts : Texts P N) (es : List (Step P N)) :
    ∃ s, run texts es = some s ∧ Mirrors texts s.db s.memory := by
  induction es with
  | nil => exact ⟨_, rfl, mirrors_empty⟩
  | cons e es ih =>
    obtain ⟨s, hrun, hmirrors⟩ := ih
    obtain ⟨s', hstep, hmirrors'⟩ := mirrors_step hmirrors e
    refine ⟨s', ?_, hmirrors'⟩
    unfold run
    rw [hrun]
    exact hstep

end

def Step.isRestart : Step P N → Bool
  | .restart => true
  | _ => false

/-- **Restarts are invisible**: a run ends as it does without them. -/
theorem run_without_restarts (texts : Texts P N) (es : List (Step P N)) :
    run texts (es.filter fun e => !e.isRestart) = run texts es := by
  induction es with
  | nil => rfl
  | cons e es ih =>
    obtain ⟨s, hrun, hmirrors⟩ := mirrors_run texts es
    cases e with
    | observe tx => exact congrArg (·.bind fun s => step texts s (.observe tx)) ih
    | rollback tx => exact congrArg (·.bind fun s => step texts s (.rollback tx)) ih
    | restart =>
      show run texts (es.filter fun e => !e.isRestart) = _
      rw [ih, run, hrun, Option.bind_some, step, loadState_of_mirrors hmirrors]
      rfl

/-! ## Observing and rolling back -/

section Rollback

variable {m : Memory P N} {tx : SnekTx P N}

/-- The memory has not seen a transaction. -/
structure Unseen (m : Memory P N) (txHash : ℕ) : Prop where
  journal : m.journal.get? txHash = none
  tracker : ∀ ref : OutputRef, (ofLex ref).1 = txHash → m.tracker.get? ref = none

theorem mem_consumedSnekRefs {inputs : List OutputRef} {e : OutputRef × Token P N}
    (he : e ∈ m.consumedSnekRefs inputs) : m.tracker.get? e.1 = some e.2 := by
  obtain ⟨r, -, hr⟩ := mem_filterMap.1 he
  obtain ⟨id, hid, rfl⟩ := Option.map_eq_some_iff.1 hr
  exact hid

theorem mem_producedSnekRefs {e : OutputRef × Token P N}
    (he : e ∈ (m.observation tx).producedSnekRefs) : (ofLex e.1).1 = tx.hash := by
  obtain ⟨o, -, rfl⟩ := mem_map.1 he
  rfl

theorem tracker_rollback_observe (h : Unseen m tx.hash) :
    ((m.applyObservationEntry tx.hash (m.observation tx)).rollbackEntry tx.hash
      (m.observation tx)).tracker = m.tracker := by
  apply ext_get?
  intro ref
  unfold Memory.rollbackEntry Memory.applyObservationEntry
  dsimp only
  by_cases hconsumed : ∃ e ∈ (m.observation tx).consumedSnekRefs, e.1 = ref
  · obtain ⟨e, he, rfl⟩ := id hconsumed
    have hget := mem_consumedSnekRefs he
    rw [hget]
    apply get?_foldl_insert_of_mem hconsumed
    intro e' he' href
    have hget' := mem_consumedSnekRefs he'
    rw [href, hget] at hget'
    exact (Option.some.inj hget').symm
  · have hnot : ∀ e ∈ (m.observation tx).consumedSnekRefs, e.1 ≠ ref := fun e he href =>
      hconsumed ⟨e, he, href⟩
    rw [get?_foldl_insert_of_not_mem hnot, get?_foldl_erase]
    split
    case isTrue hproduced =>
      obtain ⟨e, he, rfl⟩ := hproduced
      exact (h.tracker e.1 (mem_producedSnekRefs he)).symm
    case isFalse hproduced =>
      rw [get?_foldl_insert_of_not_mem fun e he href => hproduced ⟨e, he, href⟩,
        get?_foldl_erase, if_neg hconsumed]

/-- **A rollback restores everything but pools that had graduated before**: those it removes. -/
theorem rollback_observe (h : Unseen m tx.hash) :
    (m.applyObservationEntry tx.hash (m.observation tx)).rollbackEntry tx.hash (m.observation tx) =
      { m with
        graduated := (m.observation tx).graduatedSplashIds.foldl (fun s id => s.erase id)
          m.graduated } := by
  apply Memory.ext
  · apply ext_get?
    intro i
    show ((m.observation tx).graduatedSplashIds.foldl (fun s id => s.erase id)
      ((m.observation tx).graduatedSplashIds.foldl (fun s id => s.insert id ()) m.graduated)).get? i =
        ((m.observation tx).graduatedSplashIds.foldl (fun s id => s.erase id) m.graduated).get? i
    rw [get?_foldl_erase, get?_foldl_erase]
    split
    case isTrue => rfl
    case isFalse hnot =>
      exact get?_foldl_insert_of_not_mem (fun id hid heq => hnot ⟨id, hid, heq⟩) _
  · apply ext_get?
    intro x
    show ((m.journal.insert tx.hash _).erase tx.hash).get? x = m.journal.get? x
    rw [get?_erase, get?_insert]
    by_cases hx : x = tx.hash
    · rw [if_pos hx, hx, h.journal]
    · rw [if_neg hx, if_neg hx]
  · exact tracker_rollback_observe h

/-- Removing pools changes nothing just when they had not graduated. -/
theorem erase_graduated_eq_iff (ids : List (Token P N)) :
    ({ m with graduated := ids.foldl (fun s id => s.erase id) m.graduated } : Memory P N) = m ↔
      ∀ id ∈ ids, m.graduated.get? id = none := by
  constructor
  · intro heq i hi
    have hget : (ids.foldl (fun s id => s.erase id) m.graduated).get? i = m.graduated.get? i :=
      congrArg (fun m => m.graduated.get? i) heq
    rw [get?_foldl_erase, if_pos ⟨i, hi, rfl⟩] at hget
    exact hget.symm
  · intro hnone
    apply Memory.ext
    · apply ext_get?
      intro i
      show (ids.foldl (fun s id => s.erase id) m.graduated).get? i = m.graduated.get? i
      rw [get?_foldl_erase]
      split
      case isTrue hi =>
        obtain ⟨j, hj, rfl⟩ := hi
        exact (hnone j hj).symm
      case isFalse => rfl
    · rfl
    · rfl

end Rollback

/-! ## Whole runs -/

section

variable {texts : Texts P N} {e : Step P N} {es : List (Step P N)} {tx : SnekTx P N}

variable {m : Memory P N}

theorem unseen_observe {x : ℕ} (h : Unseen m x) (hx : tx.hash ≠ x) :
    Unseen (m.observe tx) x := by
  unfold Memory.observe
  split
  case isFalse => exact h
  case isTrue =>
    refine ⟨?_, fun ref href => ?_⟩
    · show (m.journal.insert tx.hash _).get? x = none
      rw [get?_insert, if_neg hx.symm, h.journal]
    · have hnot : ∀ e ∈ (m.observation tx).producedSnekRefs, e.1 ≠ ref := by
        rintro e he rfl
        exact hx ((mem_producedSnekRefs he).symm.trans href)
      unfold Memory.applyObservationEntry
      dsimp only
      rw [get?_foldl_insert_of_not_mem hnot, get?_foldl_erase, h.tracker ref href,
        ite_self]

theorem unseen_replay {ts : List (SnekTx P N)} {x : ℕ} (h : ∀ t ∈ ts, t.hash ≠ x) :
    Unseen (replay ts) x := by
  induction ts with
  | nil => exact ⟨rfl, fun _ _ => rfl⟩
  | cons t ts ih =>
    obtain ⟨ht, hts⟩ := forall_mem_cons.1 h
    exact unseen_observe (ih hts) ht

omit [LinearOrder P] [LinearOrder N] in
theorem pairwise_survivors (h : Valid es) :
    (survivors es).Pairwise fun newer older => older.hash ≠ newer.hash := by
  induction es with
  | nil => exact .nil
  | cons e es ih =>
    cases e with
    | observe tx => exact pairwise_cons.2 ⟨h.2, ih h.1⟩
    | rollback tx => exact (ih h.1).sublist (tail_sublist _)
    | restart => exact ih h

theorem graduatedSplashIds_of_not_observes (h : ¬ m.observes tx = true) :
    (m.observation tx).graduatedSplashIds = [] := by
  have hnone : (m.consumedSnekRefs tx.inputs).isEmpty = true := by
    cases hempty : (m.consumedSnekRefs tx.inputs).isEmpty with
    | true => rfl
    | false => exact absurd (by simp [Memory.observes, hempty]) h
  exact if_pos hnone

/-- A rollback of the last transaction, from the memory of the surviving ones. -/
theorem memory_rollback {s s' : State P N} (hunseen : Unseen m tx.hash)
    (hm : s.memory = m.observe tx) (hstep : step texts s (.rollback tx) = some s') :
    s'.memory =
      { m with
        graduated := (m.observation tx).graduatedSplashIds.foldl (fun s id => s.erase id)
          m.graduated } := by
  cases hstep
  by_cases hobs : m.observes tx = true
  · have hmem : s.memory = m.applyObservationEntry tx.hash (m.observation tx) :=
      hm.trans (if_pos hobs)
    have hentry : s.memory.journal.get? tx.hash = some (m.observation tx) := by
      rw [hmem]
      show (m.journal.insert tx.hash _).get? tx.hash = _
      rw [get?_insert, if_pos rfl]
    rw [hentry, Option.elim_some, hmem]
    exact rollback_observe hunseen
  · have hmem : s.memory = m := hm.trans (if_neg hobs)
    rw [hmem, hunseen.journal, Option.elim_none, hmem, graduatedSplashIds_of_not_observes hobs]
    rfl

theorem memory_step_iff (hvalid : Valid (e :: es)) {s s' : State P N}
    (hmirrors : Mirrors texts s.db s.memory) (hm : s.memory = replay (survivors es))
    (hstep : step texts s e = some s') (hclean : Clean es) :
    s'.memory = replay (survivors (e :: es)) ↔ Clean (e :: es) := by
  cases e with
  | observe tx =>
    cases hstep
    have hmem : s.memory.observe tx = replay (survivors (.observe tx :: es)) := by
      rw [hm]
      rfl
    exact iff_of_true hmem hclean
  | rollback tx =>
    obtain ⟨hes, hhead⟩ := hvalid
    obtain ⟨rest, hsurvivors⟩ : ∃ rest, survivors es = tx :: rest := by
      cases hlist : survivors es with
      | nil =>
        rw [hlist] at hhead
        cases hhead
      | cons t rest =>
        rw [hlist] at hhead
        exact ⟨rest, Option.some.inj hhead ▸ rfl⟩
    have hfresh := pairwise_survivors hes
    rw [hsurvivors] at hfresh hm
    have hunseen := unseen_replay (pairwise_cons.1 hfresh).1
    rw [memory_rollback hunseen hm hstep]
    show _ = replay (survivors es).tail ↔ Clean es ∧ _
    rw [hsurvivors, tail_cons, erase_graduated_eq_iff]
    exact (and_iff_right hclean).symm
  | restart =>
    have hload : step texts s .restart = some s := by
      unfold step
      rw [loadState_of_mirrors hmirrors]
      rfl
    cases hload.symm.trans hstep
    exact iff_of_true hm hclean

/-- **The state is that of the surviving transactions just when no rollback finds a pool that had
graduated before.** -/
theorem faithful_iff (texts : Texts P N) (hvalid : Valid es) :
    (∀ es', es' <:+ es → Faithful texts es') ↔ Clean es := by
  induction es with
  | nil =>
    refine iff_of_true (fun es' hes' => ?_) trivial
    obtain rfl := suffix_nil.1 hes'
    exact ⟨_, rfl, rfl, loadState_of_mirrors mirrors_empty⟩
  | cons e es ih =>
    have hes : Valid es := by
      cases e with
      | observe => exact hvalid.1
      | rollback => exact hvalid.1
      | restart => exact hvalid
    obtain ⟨s, hrun, hmirrors⟩ := mirrors_run texts es
    obtain ⟨s', hstep, hmirrors'⟩ := mirrors_step hmirrors e
    have hrun' : run texts (e :: es) = some s' := by
      unfold run
      rw [hrun]
      exact hstep
    constructor
    · intro hall
      have hclean := (ih hes).1 fun es' hes' => hall es' (hes'.trans (suffix_cons e es))
      obtain ⟨s₀, hrun₀, hm, -⟩ := hall es (suffix_cons e es)
      cases hrun.symm.trans hrun₀
      obtain ⟨s₁, hrun₁, hm', -⟩ := hall (e :: es) suffix_rfl
      cases hrun'.symm.trans hrun₁
      exact (memory_step_iff hvalid hmirrors hm hstep hclean).1 hm'
    · intro hclean es' hes'
      have hcleanes : Clean es := by
        cases e with
        | observe => exact hclean
        | rollback => exact hclean.1
        | restart => exact hclean
      have hall := (ih hes).2 hcleanes
      rcases suffix_cons_iff.1 hes' with rfl | hes'
      · obtain ⟨s₀, hrun₀, hm, -⟩ := hall es suffix_rfl
        cases hrun.symm.trans hrun₀
        exact ⟨s', hrun', (memory_step_iff hvalid hmirrors hm hstep hcleanes).2 hclean,
          loadState_of_mirrors hmirrors'⟩
      · exact hall es' hes'

end

/-! ## Samples -/

def sampleText : TextForm ℕ where
  print n := List.replicate n 'a'
  parse t := some t.length
  parse_print n := by rw [length_replicate]
  plain n ch h := by rw [eq_of_mem_replicate h]; decide

def sampleTexts : Texts ℕ ℕ := ⟨sampleText, sampleText, sampleText, sampleText⟩

def sampleToken (n : ℕ) : Token ℕ ℕ := toLex (n, 0)

def sampleLaunch (hash : ℕ) : SnekTx ℕ ℕ := ⟨hash, [], [(0, sampleToken hash)], []⟩

/-- The pool launched by a transaction graduates to the Splash pool of token 9. -/
def sampleGraduation (hash launch : ℕ) : SnekTx ℕ ℕ :=
  ⟨hash, [toLex (launch, 0)], [], [sampleToken 9]⟩

/-- A graduation is rolled back, and the agent is restarted. -/
def sampleUndone : List (Step ℕ ℕ) :=
  [.restart, .rollback (sampleGraduation 2 1), .observe (sampleGraduation 2 1),
    .observe (sampleLaunch 1)]

/-- Two pools graduate to one Splash pool, and the second graduation is rolled back. -/
def sampleShared : List (Step ℕ ℕ) :=
  [.rollback (sampleGraduation 4 2), .observe (sampleGraduation 4 2),
    .observe (sampleGraduation 3 1), .observe (sampleLaunch 2), .observe (sampleLaunch 1)]

theorem sampleUndone_faithful :
    Valid sampleUndone ∧ Clean sampleUndone ∧
      ∀ es', es' <:+ sampleUndone → Faithful sampleTexts es' := by
  have hvalid : Valid sampleUndone := by
    refine ⟨⟨⟨trivial, ?_⟩, ?_⟩, rfl⟩
    · exact fun t ht => absurd ht not_mem_nil
    · intro t ht
      obtain rfl := mem_singleton.1 ht
      decide
  have hclean : Clean sampleUndone := ⟨trivial, by decide +kernel⟩
  exact ⟨hvalid, hclean, (faithful_iff sampleTexts hvalid).2 hclean⟩

/-- The surviving graduation is forgotten with the one rolled back. -/
theorem sampleShared_forgotten : Valid sampleShared ∧ ¬ Faithful sampleTexts sampleShared := by
  refine ⟨⟨⟨⟨⟨⟨trivial, ?_⟩, ?_⟩, ?_⟩, ?_⟩, rfl⟩, ?_⟩
  · exact fun t ht => absurd ht not_mem_nil
  · decide +kernel
  · decide +kernel
  · decide +kernel
  · rintro ⟨s, hrun, hmemory, -⟩
    have hforgotten : (run sampleTexts sampleShared).map
        (fun s => (s.memory.graduated.get? (sampleToken 9)).isSome) = some false := by
      decide +kernel
    have hgraduated :
        ((replay (survivors sampleShared)).graduated.get? (sampleToken 9)).isSome = true := by
      decide +kernel
    rw [hrun, Option.map_some, hmemory, hgraduated] at hforgotten
    cases hforgotten

end Splash.EventSink.Graduation
