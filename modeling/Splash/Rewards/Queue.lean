import Splash.Lib.Exec
import Splash.Lib.OrdMap

/-!
# The task queue of the reward distributor

Tasks wait in a table ordered by strike time, beside a table with their bodies. A task that is done
keeps its body and gets two marks, one by its identifier and one by the transaction that did it,
until the transaction is dropped or is settled for more than six slots.

* `Tables.execute` — one command; `Tables.batchExecute` — the commands of one database transaction.
* `Tables.pendingStream`, `Tables.doneStream`, `Tables.readTasks` — the reads. The streams also
  delete what they find to be stale.
* `mem_wholePass`, `nodup_wholePass` — which tasks a whole pass yields.
-/

namespace Splash.Rewards.Queue

open Lib OrdMap Option

inductive StrikeTime where
  | ready
  | strikeAt (time : ℕ)
  | strikeIn (delay : ℕ)
  deriving DecidableEq

inductive QueueCmd (I T : Type) where
  | schedule (id : I) (task : T) (time : StrikeTime)
  | reschedule (id : I) (time : StrikeTime)
  | update (id : I) (task : T)
  | confirmTx (txHash slot : ℕ)
  | dropTx (txHash : ℕ)
  | cancel (id : I)
  | done (id : I) (txHash : ℕ)
  | advanceClocks (time : ℕ)
  | downgradeClocks (time : ℕ)

/-- The tables of the queue. The keys of `pending` are strike times and tasks, those of
`doneWithTxHash` transactions and tasks. -/
structure Tables (I T : Type) [LinearOrder I] where
  pending : OrdMap (ℕ ×ₗ I) Unit
  done : OrdMap I Unit
  doneWithTxHash : OrdMap (ℕ ×ₗ I) Unit
  index : OrdMap I T
  clocks : OrdMap ℕ Unit
  txSettlementSlot : OrdMap ℕ ℕ

variable {I T : Type} [LinearOrder I]

/-- The parts of a key, by which tasks and transactions are told apart. -/
def key (n : ℕ) (id : I) : ℕ ×ₗ I := toLex (n, id)

omit [LinearOrder I] in
theorem key_inj {m n : ℕ} {id jd : I} : key m id = key n jd ↔ m = n ∧ id = jd :=
  Prod.mk.injEq m id n jd ▸ Iff.rfl

namespace Tables

def empty : Tables I T := ⟨.empty, .empty, .empty, .empty, .empty, .empty⟩

/-! ## Commands -/

section

variable (t : Tables I T) (txHash : ℕ)

/-- The clocks show the latest of the times they were advanced to. -/
def readCurrentTime : Option ℕ := t.clocks.keys.getLast?

def exactStrikeTime (currentTime : ℕ) : StrikeTime → Exec ℕ
  | .ready => .ok currentTime
  | .strikeAt time => .ok time
  | .strikeIn delay => addU64 currentTime delay

/-- Deletes the body and every pending entry of a task. -/
def cancel (id : I) : Tables I T :=
  { t with
    index := t.index.erase id
    pending :=
      (t.pending.keys.filter fun k => (ofLex k).2 = id).foldl (fun m k => m.erase k) t.pending }

def schedule (id : I) (task : T) (strike : ℕ) : Tables I T :=
  { t with
    index := t.index.insert id task
    pending := t.pending.insert (key strike id) () }

def reschedule (id : I) (strike : ℕ) : Tables I T :=
  { t with pending := t.pending.insert (key strike id) () }

def update (id : I) (task : T) : Tables I T :=
  { t with index := t.index.insert id task }

def confirm (txHash slot : ℕ) : Tables I T :=
  { t with txSettlementSlot := t.txSettlementSlot.insert txHash slot }

def taskIds : List I :=
  (t.doneWithTxHash.keys.filter fun k => (ofLex k).1 = txHash).map fun k => (ofLex k).2

def dropUnconfirmedTx : Tables I T :=
  { t with
    done := (t.taskIds txHash).foldl (fun m id => m.erase id) t.done
    doneWithTxHash :=
      (t.taskIds txHash).foldl (fun m id => m.erase (key txHash id)) t.doneWithTxHash }

def markDone (id : I) (txHash : ℕ) : Tables I T :=
  { t with
    done := t.done.insert id ()
    doneWithTxHash := t.doneWithTxHash.insert (key txHash id) () }

/-- Deletes the bodies and the marks of the tasks done by a settled transaction. -/
def forgetTx : Tables I T :=
  { t.dropUnconfirmedTx txHash with
    index := (t.taskIds txHash).foldl (fun m id => m.erase id) t.index }

/-- The transactions settled more than six slots before a time. -/
def settledTxs (time : ℕ) : List ℕ :=
  (t.txSettlementSlot.toList.filter fun e => e.2 < time && 6 < time - e.2).map Prod.fst

def advanceClocks (time : ℕ) : Tables I T :=
  { (t.settledTxs time).foldl forgetTx { t with clocks := t.clocks.insert time () } with
    txSettlementSlot := (t.settledTxs time).foldl (fun m h => m.erase h) t.txSettlementSlot }

def downgradeClocks (time : ℕ) : Tables I T :=
  { t with clocks := t.clocks.erase time }

/-- The strike time of a command, by the clocks of the queue. -/
def strike (time : StrikeTime) : Exec ℕ :=
  Exec.expect "called `Option::unwrap()` on a `None` value" t.readCurrentTime >>= fun ct =>
    exactStrikeTime ct time

end

def execute (t : Tables I T) : QueueCmd I T → Exec (Tables I T)
  | .schedule id task time => t.strike time >>= fun s => .ok ((t.cancel id).schedule id task s)
  | .reschedule id time => t.strike time >>= fun s => .ok (t.reschedule id s)
  | .update id task => .ok (t.update id task)
  | .confirmTx txHash slot => .ok (t.confirm txHash slot)
  | .dropTx txHash => .ok (t.dropUnconfirmedTx txHash)
  | .cancel id => .ok (t.cancel id)
  | .done id txHash => .ok (t.markDone id txHash)
  | .advanceClocks time => .ok (t.advanceClocks time)
  | .downgradeClocks time => .ok (t.downgradeClocks time)

def batchExecute (t : Tables I T) : List (QueueCmd I T) → Exec (Tables I T)
  | [] => .ok t
  | cmd :: cmds => t.execute cmd >>= fun t' => t'.batchExecute cmds

/-! ## Reads -/

/-- The body of a task that is not done. -/
def deliverable (t : Tables I T) (id : I) : Option T :=
  if t.done.has id then none else t.index.get? id

/-- A pass over pending entries. The receiver of the stream goes away after `room` tasks; entries
that are due and lead to no task are deleted. -/
def passPending (currentTime : ℕ) :
    List (ℕ ×ₗ I) → ℕ → Tables I T → List (I × T) × Tables I T
  | [], _, t => ([], t)
  | k :: ks, room, t =>
    if (ofLex k).1 ≤ currentTime then
      (t.deliverable (ofLex k).2).elim
        (passPending currentTime ks room { t with pending := t.pending.erase k })
        fun task =>
          if room = 0 then ([], t)
          else
            let rest := passPending currentTime ks (room - 1) t
            (((ofLex k).2, task) :: rest.1, rest.2)
    else passPending currentTime ks room t

def pendingStream (t : Tables I T) (room : ℕ) : List (I × T) × Tables I T :=
  t.readCurrentTime.elim ([], t) fun ct => passPending ct t.pending.keys room t

/-- A pass whose receiver stays to the end. -/
def wholePass (t : Tables I T) : List (I × T) × Tables I T :=
  t.pendingStream t.pending.size

/-- A pass over marks of transactions; those of tasks without a body are deleted. -/
def passDone :
    List (ℕ ×ₗ I) → ℕ → Tables I T → List (I × T) × Tables I T
  | [], _, t => ([], t)
  | k :: ks, room, t =>
    (t.index.get? (ofLex k).2).elim
      (passDone ks room
        { t with done := t.done.erase (ofLex k).2, doneWithTxHash := t.doneWithTxHash.erase k })
      fun task =>
        if room = 0 then ([], t)
        else
          let rest := passDone ks (room - 1) t
          (((ofLex k).2, task) :: rest.1, rest.2)

def doneStream (t : Tables I T) (room : ℕ) : List (I × T) × Tables I T :=
  passDone t.doneWithTxHash.keys room t

def readTasks (t : Tables I T) (txHash : ℕ) : Exec (Option (List (I × T))) :=
  (t.taskIds txHash).mapM (fun id =>
    (Exec.expect "called `Option::unwrap()` on a `None` value" (t.index.get? id)).map
      fun task => (id, task)) >>= fun tasks =>
  .ok (if tasks.isEmpty then none else some tasks)

/-! ## What commands and reads do -/

variable {t : Tables I T}

theorem readCurrentTime_eq_some {c : ℕ} :
    t.readCurrentTime = some c ↔ t.clocks.has c = true ∧ ∀ d, t.clocks.has d = true → d ≤ c := by
  unfold readCurrentTime
  have hsorted := t.clocks.pairwise_keys
  simp only [← mem_keys]
  generalize t.clocks.keys = l at hsorted ⊢
  constructor
  · intro hlast
    obtain ⟨init, rfl⟩ := List.getLast?_eq_some_iff.1 hlast
    refine ⟨by simp, fun d hd => ?_⟩
    rcases List.mem_append.1 hd with hd | hd
    · exact ((List.pairwise_append.1 hsorted).2.2 d hd c (by simp)).le
    · exact (List.mem_singleton.1 hd).le
  · rintro ⟨hc, hmax⟩
    obtain ⟨init, c', rfl⟩ := List.eq_nil_or_concat l |>.resolve_left (List.ne_nil_of_mem hc)
    rw [List.concat_eq_append] at hsorted hc hmax ⊢
    rcases List.mem_append.1 hc with hin | hin
    · have hlt := (List.pairwise_append.1 hsorted).2.2 c hin c' (by simp)
      have hle := hmax c' (by simp)
      omega
    · rw [List.mem_singleton.1 hin, List.getLast?_concat]

theorem has_pending_cancel {id jd : I} {s : ℕ} :
    (t.cancel id).pending.has (key s jd) = true ↔ jd ≠ id ∧ t.pending.has (key s jd) = true := by
  unfold cancel
  rw [has_foldl_erase]
  refine and_congr_left fun hhas => ⟨?_, ?_⟩
  · rintro hno rfl
    exact hno _ (List.mem_filter.2 ⟨mem_keys.2 hhas, by simp [key]⟩) rfl
  · rintro hne k hk rfl
    exact hne (of_decide_eq_true (List.mem_filter.1 hk).2)

variable {id : I}

theorem mem_taskIds {h : ℕ} :
    id ∈ t.taskIds h ↔ t.doneWithTxHash.has (key h id) = true := by
  unfold taskIds
  rw [List.mem_map, ← mem_keys]
  constructor
  · rintro ⟨k, hk, rfl⟩
    obtain ⟨hin, hh⟩ := List.mem_filter.1 hk
    obtain rfl := of_decide_eq_true hh
    exact hin
  · intro hk
    exact ⟨_, List.mem_filter.2 ⟨hk, by simp [key]⟩, rfl⟩

theorem has_done_drop {h : ℕ} :
    (t.dropUnconfirmedTx h).done.has id = true ↔
      t.doneWithTxHash.has (key h id) ≠ true ∧ t.done.has id = true := by
  unfold dropUnconfirmedTx
  rw [has_foldl_erase]
  refine and_congr_left fun _ => ⟨fun hno hid => hno id (mem_taskIds.2 hid) rfl, ?_⟩
  rintro hid jd hjd rfl
  exact hid (mem_taskIds.1 hjd)

theorem has_doneWithTxHash_drop {h h' : ℕ} :
    (t.dropUnconfirmedTx h).doneWithTxHash.has (key h' id) = true ↔
      h' ≠ h ∧ t.doneWithTxHash.has (key h' id) = true := by
  unfold dropUnconfirmedTx
  rw [has_foldl_erase]
  refine and_congr_left fun hhas => ⟨?_, ?_⟩
  · rintro hno rfl
    exact hno id (mem_taskIds.2 hhas) rfl
  · intro hne jd _ hk
    exact hne (key_inj.1 hk).1.symm

theorem has_index_forgetTx {h : ℕ} :
    (t.forgetTx h).index.has id = true ↔
      t.doneWithTxHash.has (key h id) ≠ true ∧ t.index.has id = true := by
  unfold forgetTx
  rw [has_foldl_erase]
  refine and_congr_left fun _ => ⟨fun hno hid => hno id (mem_taskIds.2 hid) rfl, ?_⟩
  rintro hid jd hjd rfl
  exact hid (mem_taskIds.1 hjd)

theorem deliverable_isSome :
    (t.deliverable id).isSome = true ↔ t.done.has id ≠ true ∧ t.index.has id = true := by
  unfold deliverable
  by_cases hdone : t.done.has id = true
  · rw [if_pos hdone]
    exact iff_of_false Bool.false_ne_true fun h => h.1 hdone
  · rw [if_neg hdone]
    exact (and_iff_right hdone).symm

/-- A pass deletes due entries that lead to no task, and nothing else. -/
theorem passPending_snd (ct : ℕ) (ks : List (ℕ ×ₗ I)) (room : ℕ) (t : Tables I T) :
    ∃ pending, (passPending ct ks room t).2 = { t with pending } ∧
      ∀ k, (pending.has k = true → t.pending.has k = true) ∧
        (t.pending.has k = true → (t.deliverable (ofLex k).2).isSome = true →
          pending.has k = true) := by
  induction ks generalizing room t with
  | nil => exact ⟨t.pending, rfl, fun k => ⟨id, fun h _ => h⟩⟩
  | cons k ks ih =>
    unfold passPending
    split
    case isFalse => exact ih room t
    case isTrue =>
      cases hdel : t.deliverable (ofLex k).2 with
      | none =>
        obtain ⟨pending, heq, hpending⟩ := ih room { t with pending := t.pending.erase k }
        refine ⟨pending, heq, fun k' => ⟨fun hk' => ?_, fun hk' hdel' => ?_⟩⟩
        · exact ((has_erase _ _ _).1 ((hpending k').1 hk')).2
        · refine (hpending k').2 ((has_erase _ _ _).2 ⟨?_, hk'⟩) hdel'
          rintro rfl
          rw [hdel] at hdel'
          cases hdel'
      | some task =>
        rw [elim_some]
        split
        · exact ⟨t.pending, rfl, fun k => ⟨id, fun h _ => h⟩⟩
        · exact ih (room - 1) t

theorem passPending_fst (ct : ℕ) (ks : List (ℕ ×ₗ I)) {room : ℕ} (t : Tables I T)
    (hroom : ks.length ≤ room) :
    (passPending ct ks room t).1.map Prod.fst =
      (ks.filter fun k => (ofLex k).1 ≤ ct && (t.deliverable (ofLex k).2).isSome).map
        fun k => (ofLex k).2 := by
  induction ks generalizing room t with
  | nil => rfl
  | cons k ks ih =>
    rw [List.length_cons] at hroom
    unfold passPending
    by_cases hdue : (ofLex k).1 ≤ ct
    case neg =>
      rw [if_neg hdue, List.filter_cons_of_neg (by simp [hdue])]
      exact ih t (by omega)
    case pos =>
      rw [if_pos hdue]
      cases hdel : t.deliverable (ofLex k).2 with
      | none =>
        rw [elim_none, List.filter_cons_of_neg (by simp [hdel])]
        exact ih _ (by omega)
      | some task =>
        rw [elim_some, if_neg (by omega), List.filter_cons_of_pos (by simp [hdue, hdel]),
          List.map_cons, List.map_cons]
        exact congrArg _ (ih t (by omega))

/-- **The tasks of a whole pass** are those with a due entry and a body that are not done. -/
theorem mem_wholePass :
    id ∈ t.wholePass.1.map Prod.fst ↔
      ∃ ct s, t.readCurrentTime = some ct ∧ s ≤ ct ∧ t.pending.has (key s id) = true ∧
        t.done.has id ≠ true ∧ t.index.has id = true := by
  unfold wholePass pendingStream
  cases htime : t.readCurrentTime with
  | none => simp
  | some ct =>
    rw [elim_some, passPending_fst ct _ t (by rw [keys, List.length_map]; rfl),
      List.mem_map]
    simp only [List.mem_filter, Bool.and_eq_true, decide_eq_true_eq, deliverable_isSome,
      mem_keys]
    constructor
    · rintro ⟨k, ⟨hk, hdue, hdel⟩, rfl⟩
      exact ⟨ct, (ofLex k).1, rfl, hdue, hk, hdel⟩
    · rintro ⟨_, s, hct, hdue, hk, hdel⟩
      cases hct
      exact ⟨key s id, ⟨hk, hdue, hdel⟩, rfl⟩

/-- **A whole pass yields no task twice** when no deliverable task has two entries. -/
theorem nodup_wholePass
    (hone : ∀ id s s', (t.deliverable id).isSome = true → t.pending.has (key s id) = true →
      t.pending.has (key s' id) = true → s = s') :
    (t.wholePass.1.map Prod.fst).Nodup := by
  unfold wholePass pendingStream
  cases htime : t.readCurrentTime with
  | none => exact List.nodup_nil
  | some ct =>
    rw [elim_some, passPending_fst ct _ t (by rw [keys, List.length_map]; rfl)]
    refine List.Nodup.map_on ?_ ((t.pending.pairwise_keys.imp ne_of_lt).filter _)
    intro k hk k' hk' hid
    simp only [List.mem_filter, Bool.and_eq_true, mem_keys] at hk hk'
    have hs := hone (ofLex k).2 (ofLex k).1 (ofLex k').1 hk.2.2 hk.1 (by rw [hid]; exact hk'.1)
    exact ofLex.injective (Prod.ext hs hid)

end Tables

end Splash.Rewards.Queue
