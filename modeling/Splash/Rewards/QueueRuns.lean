import Splash.Rewards.Queue

/-!
# Delivery of the task queue

`Plan` says what the commands ask for: the last command about a task decides, and dropping a
transaction takes back what it did. The tables keep leftovers of the earlier life of a task that can
hide it, deliver it early or twice, or make a read panic.

* `Sound` — what the tables hold about a task that is delivered as planned.
* `Fits` — a command that meets no leftover.
* `delivers_run` — when all commands fit, no command or read panics and every pass yields just the
  tasks that are due.
-/

namespace Splash.Rewards.Queue

open Lib OrdMap List Tables

variable {I T : Type} [LinearOrder I]

/-! ## What is asked for -/

/-- What the last command about a task asks for. -/
inductive Event where
  | due (strike : ℕ)
  | done (txHash : ℕ)
  | cancelled
  deriving DecidableEq

/-- The times of the clocks, and for each task what was asked for, the last command first. -/
structure Plan (I : Type) where
  clocks : Finset ℕ
  events : I → List Event

namespace Plan

def empty : Plan I := ⟨∅, fun _ => []⟩

def strike (p : Plan I) : StrikeTime → ℕ
  | .ready => p.clocks.max.unbotD 0
  | .strikeAt time => time
  | .strikeIn delay => p.clocks.max.unbotD 0 + delay

def record (p : Plan I) (id : I) (e : Event) : Plan I :=
  { p with events := Function.update p.events id (e :: p.events id) }

def apply (p : Plan I) : QueueCmd I T → Plan I
  | .schedule id _ time => p.record id (.due (p.strike time))
  | .reschedule id time => p.record id (.due (p.strike time))
  | .update _ _ => p
  | .confirmTx _ _ => p
  | .dropTx txHash => { p with events := fun id => (p.events id).filter (· ≠ .done txHash) }
  | .cancel id => p.record id .cancelled
  | .done id txHash => p.record id (.done txHash)
  | .advanceClocks time => { p with clocks := insert time p.clocks }
  | .downgradeClocks time => { p with clocks := p.clocks.erase time }

/-- The last command schedules the task for a time that the clocks have reached. -/
def Due (p : Plan I) (id : I) : Prop :=
  ∃ s : ℕ, (p.events id).head? = some (.due s) ∧ s ≤ p.clocks.max

end Plan

/-- A whole pass yields the tasks that are due, each once. -/
def Delivers (t : Tables I T) (p : Plan I) : Prop :=
  (t.wholePass.1.map Prod.fst).Nodup ∧ ∀ id, id ∈ t.wholePass.1.map Prod.fst ↔ p.Due id

/-! ## Runs -/

inductive Step (I T : Type) where
  | batch (cmds : List (QueueCmd I T))
  | pendingPass (room : ℕ)
  | donePass (room : ℕ)
  | readTasks (txHash : ℕ)

def step (t : Tables I T) : Step I T → Exec (Tables I T)
  | .batch cmds => t.batchExecute cmds
  | .pendingPass room => .ok (t.pendingStream room).2
  | .donePass room => .ok (t.doneStream room).2
  | .readTasks txHash => t.readTasks txHash >>= fun _ => .ok t

def run : List (Step I T) → Exec (Tables I T)
  | [] => .ok .empty
  | e :: es => run es >>= fun t => step t e

def plan : List (Step I T) → Plan I
  | [] => .empty
  | .batch cmds :: es => cmds.foldl Plan.apply (plan es)
  | .pendingPass _ :: es => plan es
  | .donePass _ :: es => plan es
  | .readTasks _ :: es => plan es

/-! ## One task -/

/-- What the tables hold about one task: whether there is a body and a mark of done, its entries and
the transactions it is marked with. -/
@[ext]
structure View where
  body : Prop
  done : Prop
  strikes : Set ℕ
  txs : Set ℕ

def Tables.view (t : Tables I T) (id : I) : View where
  body := t.index.has id = true
  done := t.done.has id = true
  strikes := { s | t.pending.has (key s id) = true }
  txs := { h | t.doneWithTxHash.has (key h id) = true }

/-- The tables agree with what was asked for. A task that is `owed` has no entry until a later
command of the batch gives it one. -/
structure Sound (owed : Prop) (v : View) (events : List Event) : Prop where
  marked : v.txs.Nonempty → v.done
  waiting : ∀ s, events.head? = some (.due s) →
    ¬ v.done ∧ v.body ∧ v.strikes ⊆ {s} ∧ (s ∈ v.strikes ∨ owed)
  finished : v.done → v.body ∧ ∃ h, events.head? = some (.done h) ∧ v.txs = {h} ∧
    ∀ s ∈ v.strikes, (events.filter (· ≠ .done h)).head? = some (.due s)
  closed : ¬ v.done → v.body → ∀ s ∈ v.strikes, ∃ s', events.head? = some (.due s')

namespace Sound

variable {owed owed' : Prop} {v : View} {events : List Event} {h s : ℕ}

theorem nothing : Sound owed ⟨False, False, ∅, ∅⟩ [] where
  marked := fun hne => absurd hne Set.not_nonempty_empty
  waiting := fun _ hhead => nomatch hhead
  finished := False.elim
  closed := fun _ => False.elim

theorem mono (hs : Sound owed v events) (himp : owed → owed') : Sound owed' v events where
  marked := hs.marked
  waiting := fun s hhead =>
    let ⟨hdone, hbody, hstrikes, howed⟩ := hs.waiting s hhead
    ⟨hdone, hbody, hstrikes, howed.imp_right himp⟩
  finished := hs.finished
  closed := hs.closed

theorem due (hdone : ¬ v.done) (hbody : v.body) (hstrikes : v.strikes = {s})
    (hmarked : v.txs.Nonempty → v.done) : Sound owed v (.due s :: events) where
  marked := hmarked
  waiting := by
    intro s' hhead
    obtain rfl := Event.due.inj (Option.some.inj hhead)
    exact ⟨hdone, hbody, hstrikes.subset, .inl (hstrikes ▸ rfl)⟩
  finished := fun hd => absurd hd hdone
  closed := fun _ _ _ _ => ⟨s, rfl⟩

section

variable (hs : Sound owed v events)
include hs

theorem update (hfits : v.body ∨ v.strikes = ∅) :
    Sound owed { v with body := True } events where
  marked := hs.marked
  waiting := fun s hhead =>
    let ⟨hdone, _, hrest⟩ := hs.waiting s hhead
    ⟨hdone, trivial, hrest⟩
  finished := fun hdone => ⟨trivial, (hs.finished hdone).2⟩
  closed := by
    intro hdone _ s hin
    rcases hfits with hbody | hempty
    · exact hs.closed hdone hbody s hin
    · exact absurd hin (hempty ▸ Set.notMem_empty s)

/-- The entries of a task with a body are at the time it was scheduled for before it was done. -/
theorem strikes_before (hbody : v.body) (htxs : v.txs ⊆ {h})
    (hin : s ∈ v.strikes) : (events.filter (· ≠ .done h)).head? = some (.due s) := by
  by_cases hdone : v.done
  · obtain ⟨-, h₀, -, htxs₀, hstrikes⟩ := hs.finished hdone
    obtain rfl : h₀ = h := htxs (htxs₀ ▸ rfl)
    exact hstrikes s hin
  · obtain ⟨s', hhead⟩ := hs.closed hdone hbody s hin
    obtain rfl : s = s' := (hs.waiting s' hhead).2.2.1 hin
    obtain ⟨tail, rfl⟩ := List.head?_eq_some_iff.1 hhead
    rw [filter_cons_of_pos (by simp)]
    rfl

theorem done (hbody : v.body) (htxs : v.txs ⊆ {h}) :
    Sound owed' { v with done := True, txs := insert h v.txs } (.done h :: events) where
  marked := fun _ => trivial
  waiting := fun _ hhead => nomatch hhead
  finished := by
    intro _
    refine ⟨hbody, h, rfl, ?_, fun s hin => ?_⟩
    · exact Set.Subset.antisymm (Set.insert_subset rfl htxs) (by simp)
    · rw [filter_cons_of_neg (by simp)]
      exact hs.strikes_before hbody htxs hin
  closed := fun hno => absurd trivial hno

theorem cancel (hdone : ¬ v.done) :
    Sound owed' { v with body := False, strikes := ∅ } (.cancelled :: events) where
  marked := hs.marked
  waiting := fun _ hhead => nomatch hhead
  finished := fun hd => absurd hd hdone
  closed := fun _ => False.elim

theorem drop (hin : h ∈ v.txs) (hentry : v.strikes.Nonempty ∨ owed') :
    Sound owed' { v with done := False, txs := v.txs \ {h} } (events.filter (· ≠ .done h)) := by
  obtain ⟨hbody, h₀, -, htxs, hstrikes⟩ := hs.finished (hs.marked ⟨h, hin⟩)
  obtain rfl : h = h₀ := by simpa [htxs] using hin
  refine ⟨fun hne => ?_, fun s hhead => ?_, False.elim, fun _ _ s hs => ⟨s, hstrikes s hs⟩⟩
  · simp [htxs] at hne
  · have hall : v.strikes ⊆ {s} := fun s' hs' =>
      (Event.due.inj (Option.some.inj (hhead.symm.trans (hstrikes s' hs')))).symm
    refine ⟨id, hbody, hall, hentry.imp_left ?_⟩
    rintro ⟨s', hs'⟩
    exact hall hs' ▸ hs'

end

theorem head?_filter_of_ne {e : Event} (hhead : events.head? = some e) (hne : e ≠ .done h) :
    (events.filter (· ≠ .done h)).head? = some e := by
  obtain ⟨tail, rfl⟩ := List.head?_eq_some_iff.1 hhead
  rw [filter_cons_of_pos (by simpa using hne)]
  rfl

theorem head?_of_filter (hne : events.head? ≠ some (.done h)) :
    (events.filter (· ≠ .done h)).head? = events.head? := by
  cases hhead : events.head? with
  | none =>
    obtain rfl := List.head?_eq_none_iff.1 hhead
    rfl
  | some e => exact head?_filter_of_ne hhead fun he => hne (he ▸ hhead)

theorem drop_of_head_ne (hs : Sound owed v events) (hhead : events.head? ≠ some (.done h)) :
    Sound owed v (events.filter (· ≠ .done h)) where
  marked := hs.marked
  waiting := by
    intro s hs'
    rw [head?_of_filter hhead] at hs'
    exact hs.waiting s hs'
  finished := by
    intro hdone
    obtain ⟨hbody, h₀, hhead₀, htxs, hstrikes⟩ := hs.finished hdone
    refine ⟨hbody, h₀, (head?_of_filter hhead).trans hhead₀, htxs, fun s hs' => ?_⟩
    rw [filter_comm]
    exact head?_filter_of_ne (hstrikes s hs') nofun
  closed := by
    rw [head?_of_filter hhead]
    exact hs.closed

/-- The transaction that did the task is settled. -/
theorem forget (hs : Sound owed v events) (hin : h ∈ v.txs) :
    Sound owed' { v with body := False, done := False, txs := v.txs \ {h} } events := by
  obtain ⟨-, h₀, hhead, htxs, -⟩ := hs.finished (hs.marked ⟨h, hin⟩)
  obtain rfl : h = h₀ := by simpa [htxs] using hin
  refine ⟨fun hne => ?_, fun s hdue => ?_, False.elim, fun _ => False.elim⟩
  · simp [htxs] at hne
  · rw [hhead] at hdue
    cases hdue

/-- Entries of tasks that are done or have no body may go. -/
theorem shrink (hs : Sound owed v events) {strikes : Set ℕ} (hsub : strikes ⊆ v.strikes)
    (hkept : v.body → ¬ v.done → v.strikes ⊆ strikes) : Sound owed { v with strikes } events where
  marked := hs.marked
  waiting := by
    intro s hhead
    obtain ⟨hdone, hbody, hstrikes, howed⟩ := hs.waiting s hhead
    exact ⟨hdone, hbody, hsub.trans hstrikes, howed.imp_left fun hin => hkept hbody hdone hin⟩
  finished := by
    intro hdone
    obtain ⟨hbody, h, hhead, htxs, hstrikes⟩ := hs.finished hdone
    exact ⟨hbody, h, hhead, htxs, fun s hin => hstrikes s (hsub hin)⟩
  closed := fun hdone hbody s hin => hs.closed hdone hbody s (hsub hin)

end Sound

/-! ## What commands do to one task -/

namespace Tables

variable {t : Tables I T} {id jd : I}

theorem view_schedule (task : T) (s : ℕ) :
    ((t.cancel id).schedule id task s).view id =
      { t.view id with body := True, strikes := {s} } := by
  ext x
  · exact iff_of_true ((has_insert _ _ _ _).2 (.inl rfl)) trivial
  · exact Iff.rfl
  · refine (has_insert _ _ _ _).trans ?_
    rw [key_inj, has_pending_cancel]
    simp
  · exact Iff.rfl

theorem view_reschedule (s : ℕ) :
    (t.reschedule id s).view id = { t.view id with strikes := insert s (t.view id).strikes } := by
  ext x
  · exact Iff.rfl
  · exact Iff.rfl
  · refine (has_insert _ _ _ _).trans ?_
    rw [key_inj]
    simp [view]
  · exact Iff.rfl

theorem view_update (task : T) : (t.update id task).view id = { t.view id with body := True } := by
  ext x
  · exact iff_of_true ((has_insert _ _ _ _).2 (.inl rfl)) trivial
  · exact Iff.rfl
  · exact Iff.rfl
  · exact Iff.rfl

theorem view_cancel :
    (t.cancel id).view id = { t.view id with body := False, strikes := ∅ } := by
  ext x
  · exact iff_of_false (fun h => ((has_erase _ _ _).1 h).1 rfl) not_false
  · exact Iff.rfl
  · exact iff_of_false (fun h => (has_pending_cancel.1 h).1 rfl) not_false
  · exact Iff.rfl

theorem view_markDone (h : ℕ) :
    (t.markDone id h).view id =
      { t.view id with done := True, txs := insert h (t.view id).txs } := by
  ext x
  · exact Iff.rfl
  · exact iff_of_true ((has_insert _ _ _ _).2 (.inl rfl)) trivial
  · exact Iff.rfl
  · refine (has_insert _ _ _ _).trans ?_
    rw [key_inj]
    simp [view]

section Others

/-! Commands about other tasks. -/

variable (hne : jd ≠ id)
include hne

theorem has_insert_of_ne {V : Type} {m : OrdMap (ℕ ×ₗ I) V} {n n' : ℕ} {v : V} :
    (m.insert (key n id) v).has (key n' jd) = true ↔ m.has (key n' jd) = true := by
  rw [has_insert, key_inj]
  exact or_iff_right fun h => hne h.2

theorem view_cancel_of_ne : (t.cancel id).view jd = t.view jd := by
  ext x
  · exact (has_erase _ _ _).trans (and_iff_right hne)
  · exact Iff.rfl
  · exact has_pending_cancel.trans (and_iff_right hne)
  · exact Iff.rfl

theorem view_schedule_of_ne (task : T) (s : ℕ) : (t.schedule id task s).view jd = t.view jd := by
  ext x
  · exact (has_insert _ _ _ _).trans (or_iff_right hne)
  · exact Iff.rfl
  · exact has_insert_of_ne hne
  · exact Iff.rfl

theorem view_reschedule_of_ne (s : ℕ) : (t.reschedule id s).view jd = t.view jd := by
  ext x
  · exact Iff.rfl
  · exact Iff.rfl
  · exact has_insert_of_ne hne
  · exact Iff.rfl

theorem view_update_of_ne (task : T) : (t.update id task).view jd = t.view jd := by
  ext x
  · exact (has_insert _ _ _ _).trans (or_iff_right hne)
  · exact Iff.rfl
  · exact Iff.rfl
  · exact Iff.rfl

theorem view_markDone_of_ne (h : ℕ) : (t.markDone id h).view jd = t.view jd := by
  ext x
  · exact Iff.rfl
  · exact (has_insert _ _ _ _).trans (or_iff_right hne)
  · exact Iff.rfl
  · exact has_insert_of_ne hne

end Others

theorem view_drop {h : ℕ} (hin : h ∈ (t.view id).txs) :
    (t.dropUnconfirmedTx h).view id =
      { t.view id with done := False, txs := (t.view id).txs \ {h} } := by
  ext x
  · exact Iff.rfl
  · exact iff_of_false (fun hdone => (has_done_drop.1 hdone).1 hin) not_false
  · exact Iff.rfl
  · exact has_doneWithTxHash_drop.trans and_comm

theorem view_drop_of_not_mem {h : ℕ} (hin : h ∉ (t.view id).txs) :
    (t.dropUnconfirmedTx h).view id = t.view id := by
  ext x
  · exact Iff.rfl
  · exact has_done_drop.trans (and_iff_right hin)
  · exact Iff.rfl
  · refine has_doneWithTxHash_drop.trans (and_iff_right_of_imp ?_)
    rintro hx rfl
    exact hin hx

theorem view_forgetTx {h : ℕ} (hin : h ∈ (t.view id).txs) :
    (t.forgetTx h).view id =
      { t.view id with body := False, done := False, txs := (t.view id).txs \ {h} } := by
  ext x
  · exact iff_of_false (fun hbody => (has_index_forgetTx.1 hbody).1 hin) not_false
  · exact iff_of_false (fun hdone => (has_done_drop.1 hdone).1 hin) not_false
  · exact Iff.rfl
  · exact has_doneWithTxHash_drop.trans and_comm

theorem view_forgetTx_of_not_mem {h : ℕ} (hin : h ∉ (t.view id).txs) :
    (t.forgetTx h).view id = t.view id := by
  have hdrop : ∀ x, x ∈ ((t.dropUnconfirmedTx h).view id).txs ↔ x ∈ (t.view id).txs := by
    rw [view_drop_of_not_mem hin]
    exact fun _ => Iff.rfl
  ext x
  · exact has_index_forgetTx.trans (and_iff_right hin)
  · exact has_done_drop.trans (and_iff_right hin)
  · exact Iff.rfl
  · exact hdrop x

end Tables

/-! ## Commands that meet no leftovers -/

/-- The command decides anew when the task is due, or that it is not. -/
def QueueCmd.Retimes (id : I) : QueueCmd I T → Prop
  | .schedule jd _ _ => jd = id
  | .reschedule jd _ => jd = id
  | .cancel jd => jd = id
  | _ => False

/-- The strike time exists and fits. -/
def Plan.Strikes (p : Plan I) (time : StrikeTime) : Prop :=
  p.clocks.Nonempty ∧ p.strike time ≤ u64Max

/-- The command meets no leftover of an earlier life of its task; `rest` are the commands of the
batch that follow. -/
def Fits (t : Tables I T) (p : Plan I) (rest : List (QueueCmd I T)) :
    QueueCmd I T → Prop
  | .schedule id _ time => p.Strikes time ∧ ¬ (t.view id).done
  | .reschedule id time => p.Strikes time ∧ ¬ (t.view id).done ∧ (t.view id).body ∧
      (t.view id).strikes ⊆ {p.strike time}
  | .update id _ => (t.view id).body ∨ (t.view id).strikes = ∅
  | .done id txHash => (t.view id).body ∧ (t.view id).txs ⊆ {txHash}
  | .cancel id => ¬ (t.view id).done
  | .dropTx txHash => ∀ id,
      ((p.events id).head? = some (.done txHash) → txHash ∈ (t.view id).txs) ∧
      (txHash ∈ (t.view id).txs →
        (t.view id).strikes.Nonempty ∨ ∃ cmd ∈ rest, cmd.Retimes id)
  | _ => True

def BatchFits (t : Tables I T) (p : Plan I) : List (QueueCmd I T) → Prop
  | [] => True
  | cmd :: cmds => Fits t p cmds cmd ∧
      ∀ t', t.execute cmd = .ok t' → BatchFits t' (p.apply cmd) cmds

/-- All commands of all batches meet no leftovers. -/
def RunFits : List (Step I T) → Prop
  | [] => True
  | .batch cmds :: es => RunFits es ∧ ∀ t, run es = .ok t → BatchFits t (plan es) cmds
  | .pendingPass _ :: es => RunFits es
  | .donePass _ :: es => RunFits es
  | .readTasks _ :: es => RunFits es

/-! ## Invariant -/

/-- The tables follow the plan, but for tasks that the rest of the batch decides about. -/
structure Tracks (t : Tables I T) (p : Plan I) (rest : List (QueueCmd I T)) :
    Prop where
  clocks : ∀ c, t.clocks.has c = true ↔ c ∈ p.clocks
  sound : ∀ id, Sound (∃ cmd ∈ rest, cmd.Retimes id) (t.view id) (p.events id)

section

variable {t : Tables I T} {p : Plan I} {cmd : QueueCmd I T}
  {rest : List (QueueCmd I T)}

theorem tracks_empty : Tracks (.empty : Tables I T) .empty [] where
  clocks := by simp [Tables.empty, Plan.empty]
  sound := by
    intro id
    have hview : (Tables.empty : Tables I T).view id = ⟨False, False, ∅, ∅⟩ := by
      ext x <;> simp [Tables.view, Tables.empty]
    rw [hview]
    exact .nothing

theorem Tracks.readCurrentTime (h : Tracks t p rest) {c : ℕ} :
    t.readCurrentTime = some c ↔ p.clocks.max = c := by
  rw [readCurrentTime_eq_some]
  simp only [h.clocks]
  constructor
  · rintro ⟨hc, hmax⟩
    exact le_antisymm (Finset.max_le fun d hd => WithBot.coe_le_coe.2 (hmax d hd))
      (Finset.le_max hc)
  · intro hc
    exact ⟨Finset.mem_of_max hc, fun d hd => WithBot.coe_le_coe.1 ((Finset.le_max hd).trans_eq hc)⟩

theorem Tracks.strike (h : Tracks t p rest) {time : StrikeTime} (hfits : p.Strikes time) :
    t.strike time = .ok (p.strike time) := by
  obtain ⟨⟨c₀, hc₀⟩, hle⟩ := hfits
  obtain ⟨c, hc⟩ := Finset.max_of_mem hc₀
  unfold Tables.strike
  rw [h.readCurrentTime.2 hc]
  show Tables.exactStrikeTime c time = _
  have hclock : p.clocks.max.unbotD 0 = c := by
    rw [hc]
    rfl
  cases time with
  | ready => exact congrArg Except.ok hclock.symm
  | strikeAt time => rfl
  | strikeIn delay =>
    have hsum : p.strike (.strikeIn delay) = c + delay := congrArg (· + delay) hclock
    rw [hsum] at hle ⊢
    exact addU64_eq_ok.2 ⟨hle, rfl⟩

omit [LinearOrder I] in
theorem owed_of_cons {id : I} (hno : ¬ cmd.Retimes id)
    (howed : ∃ c ∈ cmd :: rest, c.Retimes id) : ∃ c ∈ rest, c.Retimes id := by
  obtain ⟨c, hc, hret⟩ := howed
  rcases mem_cons.1 hc with rfl | hc
  · exact absurd hret hno
  · exact ⟨c, hc, hret⟩

/-- A command about one task. -/
theorem Tracks.touch (h : Tracks t p (cmd :: rest)) {t' : Tables I T} {p' : Plan I}
    (id : I) (hclocks : t'.clocks = t.clocks) (hplan : p'.clocks = p.clocks)
    (hview : ∀ jd, jd ≠ id → t'.view jd = t.view jd)
    (hevents : ∀ jd, jd ≠ id → p'.events jd = p.events jd)
    (hother : ∀ jd, jd ≠ id → ¬ cmd.Retimes jd)
    (hown : Sound (∃ c ∈ rest, c.Retimes id) (t'.view id) (p'.events id)) : Tracks t' p' rest where
  clocks := by
    rw [hclocks, hplan]
    exact h.clocks
  sound := by
    intro jd
    by_cases hjd : jd = id
    · exact hjd ▸ hown
    · rw [hview jd hjd, hevents jd hjd]
      exact (h.sound jd).mono (owed_of_cons (hother jd hjd))

theorem Plan.events_record (p : Plan I) (id : I) (e : Event) :
    (p.record id e).events id = e :: p.events id :=
  Function.update_self id _ p.events

theorem Plan.events_record_of_ne (p : Plan I) (id : I) (e : Event) (jd : I)
    (hjd : jd ≠ id) : (p.record id e).events jd = p.events jd :=
  Function.update_of_ne hjd _ p.events

theorem Tracks.forgetTx (h : Tracks t p rest) (txHash : ℕ) : Tracks (t.forgetTx txHash) p rest where
  clocks := h.clocks
  sound := by
    intro id
    by_cases hin : txHash ∈ (t.view id).txs
    · rw [view_forgetTx hin]
      exact (h.sound id).forget hin
    · rw [view_forgetTx_of_not_mem hin]
      exact h.sound id

theorem Tracks.forgetTxs (h : Tracks t p rest) (txHashes : List ℕ) :
    Tracks (txHashes.foldl Tables.forgetTx t) p rest := by
  induction txHashes generalizing t with
  | nil => exact h
  | cons txHash txHashes ih => exact ih (h.forgetTx txHash)

/-- **A command that fits is executed as planned.** -/
theorem Tracks.execute (h : Tracks t p (cmd :: rest)) (hfits : Fits t p rest cmd) :
    ∃ t', t.execute cmd = .ok t' ∧ Tracks t' (p.apply cmd) rest := by
  cases cmd with
  | schedule id task time =>
    obtain ⟨hstrikes, hdone⟩ := hfits
    refine ⟨(t.cancel id).schedule id task (p.strike time), ?_, ?_⟩
    · show (t.strike time >>= _) = _
      rw [h.strike hstrikes]
      rfl
    · refine h.touch id rfl rfl (fun jd hjd => ?_) (p.events_record_of_ne id _)
        (fun jd hjd => hjd.symm) ?_
      · rw [view_schedule_of_ne hjd, view_cancel_of_ne hjd]
      · rw [view_schedule]
        show Sound _ _ ((p.record id _).events id)
        rw [Plan.events_record]
        exact .due hdone trivial rfl (h.sound id).marked
  | reschedule id time =>
    obtain ⟨hstrikes, hdone, hbody, hsub⟩ := hfits
    refine ⟨t.reschedule id (p.strike time), ?_, ?_⟩
    · show (t.strike time >>= _) = _
      rw [h.strike hstrikes]
      rfl
    · refine h.touch id rfl rfl (fun jd hjd => view_reschedule_of_ne hjd _)
        (p.events_record_of_ne id _) (fun jd hjd => hjd.symm) ?_
      rw [view_reschedule]
      show Sound _ _ ((p.record id _).events id)
      rw [Plan.events_record]
      exact .due hdone hbody (Set.Subset.antisymm (Set.insert_subset rfl hsub) (by simp))
        (h.sound id).marked
  | update id task =>
    refine ⟨_, rfl, h.touch id rfl rfl (fun jd hjd => view_update_of_ne hjd task)
      (fun _ _ => rfl) (fun _ _ => not_false) ?_⟩
    rw [view_update]
    exact ((h.sound id).mono (owed_of_cons not_false)).update hfits
  | confirmTx txHash slot =>
    exact ⟨_, rfl, h.clocks, fun id => (h.sound id).mono (owed_of_cons not_false)⟩
  | dropTx txHash =>
    refine ⟨_, rfl, h.clocks, fun id => ?_⟩
    obtain ⟨hmarked, hentry⟩ := hfits id
    by_cases hin : txHash ∈ (t.view id).txs
    · rw [view_drop hin]
      exact (h.sound id).drop hin (hentry hin)
    · rw [view_drop_of_not_mem hin]
      exact ((h.sound id).mono (owed_of_cons not_false)).drop_of_head_ne
        fun hhead => hin (hmarked hhead)
  | cancel id =>
    refine ⟨_, rfl, h.touch id rfl rfl (fun jd hjd => view_cancel_of_ne hjd)
      (p.events_record_of_ne id _) (fun jd hjd => hjd.symm) ?_⟩
    rw [view_cancel]
    show Sound _ _ ((p.record id _).events id)
    rw [Plan.events_record]
    exact (h.sound id).cancel hfits
  | done id txHash =>
    obtain ⟨hbody, htxs⟩ := hfits
    refine ⟨_, rfl, h.touch id rfl rfl (fun jd hjd => view_markDone_of_ne hjd txHash)
      (p.events_record_of_ne id _) (fun _ _ => not_false) ?_⟩
    rw [view_markDone]
    show Sound _ _ ((p.record id _).events id)
    rw [Plan.events_record]
    exact (h.sound id).done hbody htxs
  | advanceClocks time =>
    have hclocks : Tracks { t with clocks := t.clocks.insert time () }
        (p.apply (.advanceClocks time : QueueCmd I T)) rest := by
      refine ⟨fun c => ?_, fun id => (h.sound id).mono (owed_of_cons not_false)⟩
      refine (has_insert _ _ _ _).trans ?_
      rw [h.clocks]
      exact Finset.mem_insert.symm
    have hforget := hclocks.forgetTxs (t.settledTxs time)
    exact ⟨_, rfl, hforget.clocks, hforget.sound⟩
  | downgradeClocks time =>
    refine ⟨_, rfl, fun c => ?_, fun id => (h.sound id).mono (owed_of_cons not_false)⟩
    refine (has_erase _ _ _).trans ?_
    rw [h.clocks]
    exact Finset.mem_erase.symm

theorem Tracks.batchExecute {cmds : List (QueueCmd I T)} (h : Tracks t p cmds)
    (hfits : BatchFits t p cmds) :
    ∃ t', t.batchExecute cmds = .ok t' ∧ Tracks t' (cmds.foldl Plan.apply p) [] := by
  induction cmds generalizing t p with
  | nil => exact ⟨t, rfl, h⟩
  | cons cmd cmds ih =>
    obtain ⟨t₁, hrun₁, h₁⟩ := h.execute hfits.1
    obtain ⟨t₂, hrun₂, h₂⟩ := ih h₁ (hfits.2 t₁ hrun₁)
    refine ⟨t₂, ?_, h₂⟩
    show (t.execute cmd >>= _) = _
    rw [hrun₁]
    exact hrun₂

/-! ## Reads -/

theorem Tracks.body (h : Tracks t p rest) {txHash : ℕ} {id : I}
    (hin : t.doneWithTxHash.has (key txHash id) = true) : t.index.has id = true :=
  ((h.sound id).finished ((h.sound id).marked ⟨txHash, hin⟩)).1

theorem Tracks.pendingStream (h : Tracks t p []) (room : ℕ) :
    Tracks (t.pendingStream room).2 p [] := by
  unfold Tables.pendingStream
  cases t.readCurrentTime with
  | none => exact h
  | some ct =>
    rw [Option.elim_some]
    obtain ⟨pending, heq, hpending⟩ := passPending_snd ct t.pending.keys room t
    rw [heq]
    refine ⟨h.clocks, fun id => (h.sound id).shrink ?_ ?_⟩
    · exact fun s hs => (hpending _).1 hs
    · exact fun hbody hdone s hs =>
        (hpending _).2 hs (deliverable_isSome.2 ⟨hdone, hbody⟩)

theorem passDone_snd {ks : List (ℕ ×ₗ I)} (room : ℕ)
    (hbody : ∀ k ∈ ks, t.index.has (ofLex k).2 = true) : (Tables.passDone ks room t).2 = t := by
  induction ks generalizing room with
  | nil => rfl
  | cons k ks ih =>
    obtain ⟨hk, hks⟩ := forall_mem_cons.1 hbody
    obtain ⟨task, htask⟩ := has_iff.1 hk
    unfold Tables.passDone
    rw [htask, Option.elim_some]
    split
    · rfl
    · exact ih (room - 1) hks

theorem Tracks.doneStream (h : Tracks t p []) (room : ℕ) : (t.doneStream room).2 = t :=
  passDone_snd room fun _ hk => h.body (mem_keys.1 hk)

theorem exists_mapM_eq_ok {α β : Type} {f : α → Exec β} {l : List α}
    (h : ∀ a ∈ l, ∃ b, f a = .ok b) : ∃ bs, l.mapM f = .ok bs := by
  induction l with
  | nil => exact ⟨[], rfl⟩
  | cons a l ih =>
    obtain ⟨ha, hl⟩ := forall_mem_cons.1 h
    obtain ⟨b, hb⟩ := ha
    obtain ⟨bs, hbs⟩ := ih hl
    refine ⟨b :: bs, ?_⟩
    rw [mapM_cons, hb, hbs]
    rfl

theorem Tracks.readTasks (h : Tracks t p rest) (txHash : ℕ) :
    ∃ tasks, t.readTasks txHash = .ok tasks := by
  obtain ⟨tasks, htasks⟩ : ∃ tasks, (t.taskIds txHash).mapM (fun id =>
      (Exec.expect "called `Option::unwrap()` on a `None` value" (t.index.get? id)).map
        fun task => (id, task)) = .ok tasks := by
    refine exists_mapM_eq_ok fun id hid => ?_
    obtain ⟨task, htask⟩ := has_iff.1 (h.body (mem_taskIds.1 hid))
    refine ⟨(id, task), ?_⟩
    rw [htask]
    rfl
  refine ⟨if tasks.isEmpty then none else some tasks, ?_⟩
  unfold Tables.readTasks
  rw [htasks]
  rfl

/-- Between batches the pending tasks are those that are due. -/
theorem Tracks.delivers (h : Tracks t p []) : Delivers t p := by
  constructor
  · apply nodup_wholePass
    intro id s s' hdel hs hs'
    obtain ⟨hdone, hbody⟩ := deliverable_isSome.1 hdel
    obtain ⟨s₀, hhead⟩ := (h.sound id).closed hdone hbody s hs
    obtain ⟨-, -, hsub, -⟩ := (h.sound id).waiting s₀ hhead
    exact (hsub hs).trans (hsub hs').symm
  · intro id
    rw [mem_wholePass]
    constructor
    · rintro ⟨ct, s, hct, hle, hs, hdone, hbody⟩
      obtain ⟨s₀, hhead⟩ := (h.sound id).closed hdone hbody s hs
      obtain rfl : s = s₀ := ((h.sound id).waiting s₀ hhead).2.2.1 hs
      refine ⟨s, hhead, ?_⟩
      rw [h.readCurrentTime.1 hct]
      exact WithBot.coe_le_coe.2 hle
    · rintro ⟨s, hhead, hle⟩
      obtain ⟨hdone, hbody, -, hs⟩ := (h.sound id).waiting s hhead
      have hne : p.clocks.Nonempty := by
        by_contra hempty
        rw [Finset.not_nonempty_iff_eq_empty.1 hempty, Finset.max_empty] at hle
        exact WithBot.not_coe_le_bot s hle
      obtain ⟨ct, hct⟩ := Finset.max_of_nonempty hne
      refine ⟨ct, s, h.readCurrentTime.2 hct, WithBot.coe_le_coe.1 (hle.trans_eq hct), ?_, hdone,
        hbody⟩
      exact hs.resolve_right fun ⟨_, hmem, _⟩ => absurd hmem not_mem_nil

end

theorem tracks_run {es : List (Step I T)} (hfits : RunFits es) :
    ∃ t, run es = .ok t ∧ Tracks t (plan es) [] := by
  induction es with
  | nil => exact ⟨_, rfl, tracks_empty⟩
  | cons e es ih =>
    have hes : RunFits es := by
      cases e with
      | batch => exact hfits.1
      | pendingPass => exact hfits
      | donePass => exact hfits
      | readTasks => exact hfits
    obtain ⟨t, hrun, h⟩ := ih hes
    have hstep : ∀ {t'}, step t e = .ok t' → run (e :: es) = .ok t' := by
      intro t' ht'
      unfold run
      rw [hrun]
      exact ht'
    cases e with
    | batch cmds =>
      have hcmds : Tracks t (plan es) cmds :=
        ⟨h.clocks, fun id => (h.sound id).mono fun ⟨_, hmem, _⟩ => absurd hmem not_mem_nil⟩
      obtain ⟨t', hbatch, h'⟩ := hcmds.batchExecute (hfits.2 t hrun)
      exact ⟨t', hstep hbatch, h'⟩
    | pendingPass room => exact ⟨_, hstep rfl, h.pendingStream room⟩
    | donePass room =>
      refine ⟨t, hstep ?_, h⟩
      exact congrArg Except.ok (h.doneStream room)
    | readTasks txHash =>
      obtain ⟨tasks, htasks⟩ := h.readTasks txHash
      refine ⟨t, hstep ?_, h⟩
      show (t.readTasks txHash >>= _) = _
      rw [htasks]
      rfl

/-- **Delivery.** When every command meets no leftovers, no step panics, a pass yields just the
tasks that are due, each once, and the tasks of any transaction can be read. -/
theorem delivers_run {es : List (Step I T)} (hfits : RunFits es) :
    ∃ t, run es = .ok t ∧ Delivers t (plan es) ∧
      ∀ txHash, ∃ tasks, t.readTasks txHash = .ok tasks := by
  obtain ⟨t, hrun, h⟩ := tracks_run hfits
  exact ⟨t, hrun, h.delivers, h.readTasks⟩

/-! ## Samples -/

/-- A task is done and taken back, another one waits. -/
def sampleCmds : List (QueueCmd ℕ ℕ) :=
  [.advanceClocks 10, .schedule 1 7 .ready, .schedule 2 8 (.strikeIn 60), .done 1 5, .dropTx 5]

theorem sampleCmds_delivered :
    RunFits [.batch sampleCmds] ∧
      ∃ t, run [.batch sampleCmds] = .ok t ∧ Delivers t (plan [.batch sampleCmds]) ∧
        ∀ txHash, ∃ tasks, t.readTasks txHash = .ok tasks := by
  have hfits : RunFits [.batch sampleCmds] := by
    refine ⟨trivial, fun t ht => ?_⟩
    cases ht
    refine ⟨trivial, fun t₁ h₁ => ?_⟩
    cases h₁
    refine ⟨⟨⟨⟨10, by decide⟩, by decide +kernel⟩, Bool.false_ne_true⟩, fun t₂ h₂ => ?_⟩
    cases h₂
    refine ⟨⟨⟨⟨10, by decide⟩, by decide +kernel⟩, Bool.false_ne_true⟩, fun t₃ h₃ => ?_⟩
    cases h₃
    refine ⟨⟨rfl, fun h hh => absurd hh Bool.false_ne_true⟩, fun t₄ h₄ => ?_⟩
    cases h₄
    refine ⟨fun id => ?_, fun _ _ => trivial⟩
    by_cases hid : id = 1
    · subst hid
      refine ⟨fun _ => rfl, fun _ => .inl ⟨10, ?_⟩⟩
      show has _ (key 10 1) = true
      decide +kernel
    · refine ⟨fun hhead => ?_, fun hin => ?_⟩
      · simp only [Plan.apply, Plan.record, Function.update, hid] at hhead
        by_cases hid' : id = 2
        · simp [hid'] at hhead
        · simp [hid', plan, Plan.empty] at hhead
      · rcases (has_insert _ _ _ _).1 hin with hkey | hin
        · exact absurd (key_inj.1 hkey).2 hid
        · exact absurd hin Bool.false_ne_true
  exact ⟨hfits, delivers_run hfits⟩

/-- A task is scheduled before the clocks show a time. -/
def sampleUnclocked : List (Step ℕ ℕ) := [.batch [.schedule 1 7 .ready]]

def sampleEarly : List (Step ℕ ℕ) :=
  [.batch [.advanceClocks 10, .schedule 1 7 .ready, .reschedule 1 (.strikeIn 60)]]

def sampleTwice : List (Step ℕ ℕ) :=
  [.batch [.advanceClocks 10, .schedule 1 7 .ready, .reschedule 1 (.strikeAt 9)]]

def sampleHidden : List (Step ℕ ℕ) :=
  [.batch [.advanceClocks 10, .schedule 1 7 .ready, .done 1 5, .schedule 1 7 .ready]]

/-- A task is cancelled after it was done, and read by its transaction. -/
def sampleUnreadable : List (Step ℕ ℕ) :=
  [.readTasks 5, .batch [.advanceClocks 10, .schedule 1 7 .ready, .done 1 5, .cancel 1]]

theorem ne_ok_of_toOption {α : Type} {x : Exec α} (h : x.toOption.isNone = true) (a : α) :
    x ≠ .ok a := by
  rintro rfl
  cases h

theorem wholePass_of_run {es : List (Step ℕ ℕ)} (ids : List ℕ) {t : Tables ℕ ℕ}
    (h : (run es).toOption.map (fun t => t.wholePass.1.map Prod.fst) = some ids)
    (hrun : run es = .ok t) : t.wholePass.1.map Prod.fst = ids := by
  rw [hrun] at h
  exact Option.some.inj h

/-- **Leftovers.** The first and the last run panic, and the others yield a task too early, twice
or not at all. -/
theorem leftovers_undelivered :
    (∀ t, run sampleUnclocked ≠ .ok t) ∧
      (∀ t, run sampleEarly = .ok t → ¬ Delivers t (plan sampleEarly)) ∧
      (∀ t, run sampleTwice = .ok t → ¬ Delivers t (plan sampleTwice)) ∧
      (∀ t, run sampleHidden = .ok t → ¬ Delivers t (plan sampleHidden)) ∧
      (∀ t, run sampleUnreadable ≠ .ok t) := by
  refine ⟨ne_ok_of_toOption (by decide +kernel), ?_, ?_, ?_, ne_ok_of_toOption (by decide +kernel)⟩
  · intro t hrun hdel
    have hids := wholePass_of_run [1] (by decide +kernel) hrun
    obtain ⟨s, hhead, hle⟩ := (hdel.2 1).1 (hids ▸ mem_singleton_self 1)
    obtain rfl : 70 = s := Event.due.inj (Option.some.inj hhead)
    have hmax : (plan sampleEarly).clocks.max = (10 : ℕ) := by decide +kernel
    rw [hmax] at hle
    exact absurd (WithBot.coe_le_coe.1 hle) (by decide)
  · intro t hrun hdel
    have hids := wholePass_of_run [1, 1] (by decide +kernel) hrun
    exact absurd (hids ▸ hdel.1) (by decide)
  · intro t hrun hdel
    have hids := wholePass_of_run [] (by decide +kernel) hrun
    have hdue : (plan sampleHidden).Due 1 := by
      refine ⟨10, by decide +kernel, ?_⟩
      have hmax : (plan sampleHidden).clocks.max = (10 : ℕ) := by decide +kernel
      exact hmax.ge
    exact absurd ((hdel.2 1).2 hdue) (hids ▸ not_mem_nil)

end Splash.Rewards.Queue
