import Splash.Data.CircularFilter
import Splash.Tracker.PendingTxs

/-!
# Tracking of submitted transactions

The tracker waits for the confirmation of the transactions submitted to it and reports those that
are still not confirmed a number of blocks later. Submissions and ledger events come in any
interleaving.

What is to be reported is said by positions in the list of events: `openedAt` is the entry a
submission opens, `openAfter` the entry as long as it is open, `failedAt` the entry that a ledger
event closes as failed.

* `tracks_outstanding` — the tracker holds just the open entries.
* `tracking_exact` — each batch is complete and in reverse order of submission, an entry is
  reported once, and no confirmed transaction is reported unless it was forgotten.
-/

set_option linter.unusedSectionVars false

namespace Splash.Tracker

open Lib Data List

variable {H X : Type} [LinearOrder H]

/-! ## The tracker -/

/-- What the tracker is told: a transaction was submitted and the clock showed `now`, or a
transaction of the ledger was seen in a block. -/
inductive Event (H X : Type) where
  | submitted (hash : H) (tx : X) (now : ℕ)
  | confirmed (hash : H) (block : ℕ)

namespace Event

def hash? : Event H X → Option H
  | confirmed h _ => some h
  | submitted .. => none

def block? : Event H X → Option ℕ
  | confirmed _ b => some b
  | submitted .. => none

def instant? : Event H X → Option ℕ
  | confirmed .. => none
  | submitted _ _ now => some now

/-- The event confirms the entry, or is a block at which the entry is overdue. -/
def closes (e : Entry H X) : Event H X → Bool
  | confirmed h b => h = e.hash ∨ e.deadline ≤ b
  | submitted .. => false

end Event

structure TxTrackerAgent (H X : Type) [LinearOrder H] where
  recentTxs : CircularFilter 256 H
  pendingTxs : PendingTxs H X

namespace TxTrackerAgent

def new (maxConfirmationDelayBlocks : ℕ) : TxTrackerAgent H X :=
  ⟨.new, .new maxConfirmationDelayBlocks⟩

section

variable (ord : HashOrder) (a : TxTrackerAgent H X)

def processIncomingTx (tx : H) (trs : X) (now : ℕ) : TxTrackerAgent H X :=
  if a.recentTxs.contains tx then a
  else { a with pendingTxs := a.pendingTxs.append tx trs now }

/-- Returns the batch of failed transactions that is sent, if one is sent. -/
def processConfirmedTx (tx : H) (block : ℕ) : TxTrackerAgent H X × Option (List X) :=
  let (pendingTxs, failedTxs) := (a.pendingTxs.confirmTx tx).tryAdvance ord block
  (⟨(a.recentTxs.add tx).1, pendingTxs⟩, failedTxs)

def step : Event H X → TxTrackerAgent H X × Option (List X)
  | .submitted tx trs now => (a.processIncomingTx tx trs now, none)
  | .confirmed tx block => a.processConfirmedTx ord tx block

end

def run (ord : HashOrder) (delay : ℕ) (es : List (Event H X)) : TxTrackerAgent H X :=
  es.foldl (fun a e => (a.step ord e).1) (new delay)

/-- A submitted transaction is tracked if it was not confirmed recently and is not tracked yet. -/
def accepts (a : TxTrackerAgent H X) (tx : H) : Bool :=
  !a.recentTxs.contains tx && (a.pendingTxs.index.get? tx).isNone

end TxTrackerAgent

open TxTrackerAgent

section

variable (ord : HashOrder) (delay : ℕ) (es : List (Event H X)) (i : ℕ)

def batchAt (j : ℕ) : List X :=
  (es[j]?.bind fun e => ((run ord delay (es.take j)).step ord e).2).getD []

/-! ## What is to be reported -/

def latestBlock : ℕ := (es.filterMap Event.block?).foldl max 0

/-- The entry opened by an event that comes after `es`. -/
def opens : Event H X → Option (Entry H X)
  | .submitted h x now =>
    if (run ord delay es).accepts h then some ⟨h, x, latestBlock es + delay, now⟩ else none
  | .confirmed .. => none

/-- The entry opened at position `i`: that of a tracked transaction. -/
def openedAt : Option (Entry H X) :=
  es[i]?.bind (opens ord delay (es.take i))

/-- The entry opened at position `i`, if no later event has closed it. -/
def openAfter : Option (Entry H X) :=
  (openedAt ord delay es i).filter fun e => (es.drop (i + 1)).all fun ev => !ev.closes e

/-- The open entries in the order of their submission. -/
def outstanding : List (Entry H X) :=
  (List.range es.length).filterMap (openAfter ord delay es)

/-- An event finds the entry overdue and does not confirm it. -/
def Event.fails (e : Entry H X) : Event H X → Bool
  | confirmed h b => e.hash ≠ h ∧ e.deadline ≤ b
  | submitted .. => false

/-- The entry opened at position `i`, if the event at position `j` closes it as failed. -/
def failedAt (j i : ℕ) : Option (Entry H X) :=
  es[j]?.bind fun ev => (openAfter ord delay (es.take j) i).filter fun e => ev.fails e

/-- Positive delay, block numbers in range, and a clock that shows a later instant at each
submission. -/
structure Timely : Prop where
  delay_pos : 0 < delay
  delay_fits : delay < 2 ^ 64
  blocks_fit : ∀ b ∈ es.filterMap Event.block?, b + delay < 2 ^ 64
  instants : (es.filterMap Event.instant?).Pairwise (· < ·)

end

theorem Timely.of_append {delay : ℕ} {es fs : List (Event H X)} (h : Timely delay (es ++ fs)) :
    Timely delay es where
  delay_pos := h.delay_pos
  delay_fits := h.delay_fits
  blocks_fit b hb := h.blocks_fit b (by rw [filterMap_append]; exact mem_append_left _ hb)
  instants := by
    have := h.instants
    rw [filterMap_append] at this
    exact (pairwise_append.1 this).1

theorem Timely.take {delay : ℕ} {es : List (Event H X)} (h : Timely delay es) (j : ℕ) :
    Timely delay (es.take j) := by
  rw [← take_append_drop j es] at h
  exact h.of_append

/-! ## Lists of events -/

section Snoc

variable (ord : HashOrder) (delay : ℕ) (es : List (Event H X))

@[simp] theorem run_snoc (e : Event H X) :
    run ord delay (es ++ [e]) = ((run ord delay es).step ord e).1 := by
  simp [run]

theorem latestBlock_snoc (e : Event H X) :
    latestBlock (es ++ [e]) = e.block?.elim (latestBlock es) (max (latestBlock es)) := by
  cases e with
  | submitted h x now => simp [latestBlock, Event.block?, filterMap_cons]
  | confirmed h b => simp [latestBlock, Event.block?]

theorem openedAt_append (fs : List (Event H X)) {i : ℕ} (hi : i < es.length) :
    openedAt ord delay (es ++ fs) i = openedAt ord delay es i := by
  rw [openedAt, openedAt, List.getElem?_append_left hi, take_append_of_le_length hi.le]

theorem openAfter_snoc (ev : Event H X) {i : ℕ} (hi : i < es.length) :
    openAfter ord delay (es ++ [ev]) i
      = (openAfter ord delay es i).filter fun e => !ev.closes e := by
  rw [openAfter, openAfter, openedAt_append ord delay es [ev] hi,
    drop_append_of_le_length (Nat.succ_le_of_lt hi), Option.filter_filter]
  congr 1
  funext e
  simp [Bool.and_comm]

theorem openAfter_last (ev : Event H X) :
    openAfter ord delay (es ++ [ev]) es.length = opens ord delay es ev := by
  have hopened : openedAt ord delay (es ++ [ev]) es.length = opens ord delay es ev := by
    simp [openedAt]
  have hdrop : (es ++ [ev]).drop (es.length + 1) = [] :=
    drop_eq_nil_of_le (by simp)
  rw [openAfter, hopened, hdrop]
  cases opens ord delay es ev <;> simp

theorem outstanding_snoc (ev : Event H X) :
    outstanding ord delay (es ++ [ev])
      = ((outstanding ord delay es).filter fun e => !ev.closes e)
        ++ (opens ord delay es ev).toList := by
  have hlen : (es ++ [ev]).length = es.length + 1 := by simp
  rw [outstanding, hlen, range_succ, filterMap_append]
  congr 1
  · rw [outstanding, filter_filterMap]
    refine filterMap_congr fun i hi => ?_
    exact openAfter_snoc ord delay es ev (mem_range.1 hi)
  · rw [filterMap_cons, openAfter_last]
    cases opens ord delay es ev <;> simp

end Snoc

section Runs

variable {ord : HashOrder} {delay : ℕ} {es : List (Event H X)}

theorem confirmTx_blocks (p : PendingTxs H X) (h : H) :
    (p.confirmTx h).currentBlock = p.currentBlock
      ∧ (p.confirmTx h).maxConfirmationDelayBlocks = p.maxConfirmationDelayBlocks := by
  cases hi : p.index.get? h <;> simp [PendingTxs.confirmTx, hi]

theorem tryAdvance_blocks (ord : HashOrder) (p : PendingTxs H X) (b : ℕ) :
    (p.tryAdvance ord b).1.currentBlock = max p.currentBlock b
      ∧ (p.tryAdvance ord b).1.maxConfirmationDelayBlocks = p.maxConfirmationDelayBlocks := by
  by_cases hb : p.currentBlock < b
  · simp [PendingTxs.tryAdvance, hb, hb.le]
  · simp [PendingTxs.tryAdvance, hb, Nat.le_of_not_lt hb]

/-- The block counter and the filter of a run depend on the ledger events only. -/
theorem run_spec (ord : HashOrder) (delay : ℕ) (es : List (Event H X)) :
    (run ord delay es).pendingTxs.currentBlock = latestBlock es
      ∧ (run ord delay es).pendingTxs.maxConfirmationDelayBlocks = delay
      ∧ (run ord delay es).recentTxs = .addAll (es.filterMap Event.hash?) := by
  induction es using List.reverseRecOn with
  | nil => exact ⟨rfl, rfl, rfl⟩
  | append_singleton es ev ih =>
    obtain ⟨hblock, hdelay, hrecent⟩ := ih
    rw [run_snoc, latestBlock_snoc, filterMap_append]
    cases ev with
    | submitted h x now =>
      have hsame : ∀ a : TxTrackerAgent H X,
          (a.processIncomingTx h x now).pendingTxs.currentBlock = a.pendingTxs.currentBlock
            ∧ (a.processIncomingTx h x now).pendingTxs.maxConfirmationDelayBlocks
              = a.pendingTxs.maxConfirmationDelayBlocks
            ∧ (a.processIncomingTx h x now).recentTxs = a.recentTxs := by
        intro a
        unfold processIncomingTx PendingTxs.append
        split <;> [skip; split] <;> exact ⟨rfl, rfl, rfl⟩
      obtain ⟨hb, hd, hr⟩ := hsame (run ord delay es)
      simp only [step, Event.block?, Event.hash?, Option.elim_none, filterMap_cons,
        filterMap_nil, append_nil]
      exact ⟨hb.trans hblock, hd.trans hdelay, hr.trans hrecent⟩
    | confirmed h b =>
      have hadv := tryAdvance_blocks ord ((run ord delay es).pendingTxs.confirmTx h) b
      have hconf := confirmTx_blocks (run ord delay es).pendingTxs h
      simp only [step, processConfirmedTx, Event.block?, Event.hash?, Option.elim_some,
        filterMap_cons, filterMap_nil, CircularFilter.addAll_snoc]
      refine ⟨?_, ?_, ?_⟩
      · rw [hadv.1, hconf.1, hblock]
      · rw [hadv.2, hconf.2, hdelay]
      · rw [hrecent]

theorem latestBlock_add_delay (h : Timely delay es) : latestBlock es + delay < 2 ^ 64 := by
  induction es using List.reverseRecOn with
  | nil => simpa [latestBlock] using h.delay_fits
  | append_singleton es ev ih =>
    have ih' := ih h.of_append
    cases ev with
    | submitted hash x now => rwa [latestBlock_snoc]
    | confirmed hash b =>
      have hb := h.blocks_fit b (by simp [Event.block?])
      rw [latestBlock_snoc]
      simp only [Event.block?, Option.elim_some]
      omega

variable {e : Entry H X}

variable {b i j k : ℕ} {ev : Event H X}

theorem instant_of_opens (h : opens ord delay es ev = some e) : ev.instant? = some e.instant := by
  cases ev with
  | confirmed hash b => cases h
  | submitted hash x now =>
    simp only [opens] at h
    split at h
    · cases h
      rfl
    · cases h

theorem instant_mem (he : e ∈ outstanding ord delay es) :
    e.instant ∈ es.filterMap Event.instant? := by
  induction es using List.reverseRecOn with
  | nil => simp [outstanding] at he
  | append_singleton es ev ih =>
    rw [outstanding_snoc] at he
    rw [filterMap_append, mem_append]
    rcases mem_append.1 he with he | he
    · exact .inl (ih (mem_of_mem_filter he))
    · have := instant_of_opens (Option.mem_toList.1 he)
      simp [this]

/-- What a ledger event does to the open entries: it sends the overdue ones and drops the one it
confirms. -/
theorem Tracks.processConfirmedTx {a : TxTrackerAgent H X} {l : List (Entry H X)}
    (hp : Tracks a.pendingTxs l) (ord : HashOrder) (h : H) (b : ℕ) :
    Tracks (a.processConfirmedTx ord h b).1.pendingTxs
        (l.filter fun e => !(Event.confirmed h b).closes e)
      ∧ (a.processConfirmedTx ord h b).2.getD []
        = ((l.filter fun e => (Event.confirmed h b).fails e).reverse.map Entry.tx) := by
  have hconf := hp.confirmTx h
  have hclose : (l.filter fun e => !(Event.confirmed h b).closes e)
      = (l.filter fun e => e.hash ≠ h).filter fun e => ¬ e.deadline ≤ b := by
    rw [filter_filter]
    refine filter_congr fun e _ => ?_
    by_cases hh : e.hash = h
    · simp [Event.closes, hh]
    · have hh' : ¬ h = e.hash := fun h' => hh h'.symm
      by_cases hd : e.deadline ≤ b <;> simp [Event.closes, hh, hh', hd]
  have hfail : (l.filter fun e => (Event.confirmed h b).fails e)
      = (l.filter fun e => e.hash ≠ h).filter fun e => e.deadline ≤ b := by
    rw [filter_filter]
    refine filter_congr fun e _ => ?_
    by_cases hh : e.hash = h <;> simp [Event.fails, hh]
  rw [hclose, hfail]
  by_cases hb : (a.pendingTxs.confirmTx h).currentBlock < b
  · obtain ⟨htracks, hbatch⟩ := hconf.tryAdvance ord hb
    exact ⟨htracks, by simp [TxTrackerAgent.processConfirmedTx, hbatch]⟩
  · obtain ⟨hsame, hnone⟩ := hconf.tryAdvance_old ord hb
    have hall : (l.filter fun e => e.hash ≠ h).filter (fun e => ¬ e.deadline ≤ b)
        = l.filter fun e => e.hash ≠ h := by
      rw [filter_eq_self]
      intro e he
      have := filter_eq_nil_iff.1 hnone e he
      simpa using this
    rw [hall, hnone]
    simp only [TxTrackerAgent.processConfirmedTx, hsame]
    exact ⟨hconf, rfl⟩

/-- **The tracker holds just the open entries.** -/
theorem tracks_outstanding (h : Timely delay es) :
    Tracks (run ord delay es).pendingTxs (outstanding ord delay es) := by
  induction es using List.reverseRecOn with
  | nil => exact Tracks.nil delay
  | append_singleton es ev ih =>
    have hp := ih h.of_append
    obtain ⟨hblock, hdelay, -⟩ := run_spec ord delay es
    rw [run_snoc, outstanding_snoc]
    cases ev with
    | confirmed hash b =>
      simp only [step, opens, Option.toList_none, append_nil]
      exact (hp.processConfirmedTx ord hash b).1
    | submitted hash x now =>
      have hkeep : ((outstanding ord delay es).filter
          fun e => !(Event.submitted hash x now).closes e) = outstanding ord delay es :=
        filter_eq_self.2 fun e _ => rfl
      rw [hkeep]
      simp only [step, opens, processIncomingTx, accepts]
      by_cases hrecent : (run ord delay es).recentTxs.contains hash = true
      · simpa [hrecent] using hp
      by_cases hknown : ∃ a ∈ outstanding ord delay es, a.hash = hash
      · have hsome := hp.get?_index_isSome.2 hknown
        rw [if_neg hrecent, hp.append_known hknown]
        simpa [Option.isNone_iff_eq_none, Option.isSome_iff_ne_none.1 hsome] using hp
      · have hnone : ((run ord delay es).pendingTxs.index.get? hash).isNone = true := by
          rw [Option.isNone_iff_eq_none, ← Option.not_isSome_iff_eq_none, hp.get?_index_isSome]
          exact hknown
        rw [if_neg hrecent]
        simp only [Bool.not_eq_true] at hrecent
        simp only [hrecent, hnone, Bool.not_false, Bool.and_self, if_true, Option.toList_some]
        refine hp.append (e := ⟨hash, x, latestBlock es + delay, now⟩) ?_ ?_ ?_ ?_
        · intro a ha hah
          exact hknown ⟨a, ha, hah⟩
        · intro a ha
          have hinst := h.instants
          rw [filterMap_append, pairwise_append] at hinst
          exact hinst.2.2 _ (instant_mem ha) now (by simp [Event.instant?])
        · have hfit := latestBlock_add_delay h.of_append
          rw [PendingTxs.shouldConfirmUntil, hblock, hdelay, Nat.mod_eq_of_lt hfit]
        · have hpos := h.delay_pos
          rw [hblock]
          simp only
          omega

/-! ## The reports -/

theorem batchAt_eq (h : Timely delay es) (j : ℕ) :
    batchAt ord delay es j
      = ((List.range j).reverse.filterMap (failedAt ord delay es j)).map Entry.tx := by
  rw [batchAt]
  cases hj : es[j]? with
  | none =>
    have hnone : failedAt ord delay es j = fun _ => none := by
      funext i
      simp [failedAt, hj]
    simp [hnone]
  | some ev =>
    have hlen : (es.take j).length = j := by
      have := (List.getElem?_eq_some_iff.1 hj).1
      rw [length_take]
      omega
    have hfailed : (List.range j).filterMap (failedAt ord delay es j)
        = (outstanding ord delay (es.take j)).filter fun e => ev.fails e := by
      rw [outstanding, hlen, filter_filterMap]
      exact filterMap_congr fun i _ => by simp [failedAt, hj]
    rw [filterMap_reverse, hfailed]
    simp only [Option.bind_some]
    cases ev with
    | submitted hash x now => simp [step, Event.fails]
    | confirmed hash b =>
      exact ((tracks_outstanding (h.take j)).processConfirmedTx ord hash b).2

theorem closes_of_fails (h : ev.fails e = true) : ev.closes e = true := by
  cases ev with
  | submitted hash x now => cases h
  | confirmed hash b =>
    simp only [Event.fails, decide_eq_true_eq] at h
    simp [Event.closes, h.2]

theorem openAfter_take (hij : i < j) (hj : j ≤ es.length) :
    openAfter ord delay (es.take j) i = some e
      ↔ openedAt ord delay es i = some e ∧
        ∀ k ev, i < k → k < j → es[k]? = some ev → ev.closes e = false := by
  have hlen : (es.take j).length = j := by
    rw [length_take]
    omega
  have hopened : openedAt ord delay (es.take j) i = openedAt ord delay es i := by
    have happ := openedAt_append ord delay (es.take j) (es.drop j) (i := i) (by omega)
    rw [take_append_drop] at happ
    exact happ.symm
  rw [openAfter, Option.filter_eq_some_iff, hopened]
  refine and_congr_right fun _ => ?_
  rw [all_eq_true]
  constructor
  · intro h k ev hik hkj hev
    have hmem : ev ∈ (es.take j).drop (i + 1) := by
      refine mem_iff_getElem?.2 ⟨k - (i + 1), ?_⟩
      rw [List.getElem?_drop, List.getElem?_take]
      have hk : i + 1 + (k - (i + 1)) = k := by omega
      rw [hk, if_pos hkj, hev]
    simpa using h ev hmem
  · intro h ev hev
    obtain ⟨m, hm⟩ := mem_iff_getElem?.1 hev
    rw [List.getElem?_drop, List.getElem?_take] at hm
    split at hm
    case isTrue hlt => simpa using h (i + 1 + m) ev (by omega) hlt hm
    case isFalse => cases hm

/-- When an entry fails: at the first event after its submission that closes it, unless this event
confirms it. -/
theorem failedAt_eq_some_iff : failedAt ord delay es j i = some e
      ↔ i < j ∧ openedAt ord delay es i = some e
        ∧ (∀ k ev, i < k → k < j → es[k]? = some ev → ev.closes e = false)
        ∧ ∃ ev, es[j]? = some ev ∧ ev.fails e = true := by
  rw [failedAt, Option.bind_eq_some_iff]
  constructor
  · rintro ⟨ev, hev, hopen⟩
    obtain ⟨hopen, hfails⟩ := Option.filter_eq_some_iff.1 hopen
    have hj := (List.getElem?_eq_some_iff.1 hev).1
    have hij : i < j := by
      by_contra hij
      have hnone : (es.take j)[i]? = none := by
        rw [List.getElem?_eq_none_iff, length_take]
        omega
      simp [openAfter, openedAt, hnone] at hopen
    obtain ⟨hopened, hbetween⟩ := (openAfter_take hij hj.le).1 hopen
    exact ⟨hij, hopened, hbetween, ev, hev, hfails⟩
  · rintro ⟨hij, hopened, hbetween, ev, hev, hfails⟩
    have hj := (List.getElem?_eq_some_iff.1 hev).1
    exact ⟨ev, hev, Option.filter_eq_some_iff.2
      ⟨(openAfter_take hij hj.le).2 ⟨hopened, hbetween⟩, hfails⟩⟩

theorem failedAt_unique {e e' : Entry H X} (hj : failedAt ord delay es j i = some e)
    (hk : failedAt ord delay es k i = some e') : j = k := by
  obtain ⟨hij, hopen, hbefore, ev, hev, hfails⟩ := failedAt_eq_some_iff.1 hj
  obtain ⟨hik, hopen', hbefore', ev', hev', hfails'⟩ := failedAt_eq_some_iff.1 hk
  cases hopen.symm.trans hopen'
  rcases lt_trichotomy j k with hlt | heq | hgt
  · have := hbefore' j ev hij hlt hev
    rw [closes_of_fails hfails] at this
    cases this
  · exact heq
  · have := hbefore k ev' hik hgt hev'
    rw [closes_of_fails hfails'] at this
    cases this

/-- An entry that is never confirmed fails at the first block at which it is overdue. -/
theorem exists_failedAt (hopen : openedAt ord delay es i = some e)
    (hnever : ∀ k b, i < k → es[k]? ≠ some (.confirmed e.hash b))
    (hseen : ∃ k h b, i < k ∧ es[k]? = some (.confirmed h b) ∧ e.deadline ≤ b) :
    ∃ j, failedAt ord delay es j i = some e := by
  classical
  have hex : ∃ k, i < k ∧ ∃ h b, es[k]? = some (.confirmed h b) ∧ e.deadline ≤ b := by
    obtain ⟨k, h, b, hk, hev, hle⟩ := hseen
    exact ⟨k, hk, h, b, hev, hle⟩
  obtain ⟨hij, h, b, hev, hle⟩ := Nat.find_spec hex
  refine ⟨Nat.find hex, failedAt_eq_some_iff.2 ⟨hij, hopen, ?_, _, hev, ?_⟩⟩
  · intro k ev hik hk hevk
    have hmin := Nat.find_min hex hk
    cases ev with
    | submitted hash x now => rfl
    | confirmed hash b' =>
      have hhash : hash ≠ e.hash := by
        rintro rfl
        exact hnever k b' hik hevk
      have hlt : ¬ e.deadline ≤ b' := fun hle' => hmin ⟨hik, hash, b', hevk, hle'⟩
      simp [Event.closes, hhash, Nat.lt_of_not_le hlt]
  · have hhash : e.hash ≠ h := by
      rintro rfl
      exact hnever _ b hij hev
    simp [Event.fails, hhash, hle]

/-- A tracked transaction is not in the filter when its submission comes in. -/
theorem not_mem_recent_of_openedAt (h : openedAt ord delay es i = some e) :
    e.hash ∉ (CircularFilter.addAll ((es.take i).filterMap Event.hash?) :
      CircularFilter 256 H).filter := by
  obtain ⟨ev, -, hopens⟩ := Option.bind_eq_some_iff.1 h
  cases ev with
  | confirmed hash b => cases hopens
  | submitted hash x now =>
    simp only [opens] at hopens
    split at hopens
    case isTrue hacc =>
      cases hopens
      rw [← (run_spec ord delay (es.take i)).2.2]
      simp only [accepts, Bool.and_eq_true, Bool.not_eq_true'] at hacc
      intro hmem
      have := CircularFilter.contains_iff.2 hmem
      rw [hacc.1] at this
      cases this
    case isFalse => cases hopens

/-- The transactions seen in the ledger between positions `k` and `i`. -/
def seenBetween (es : List (Event H X)) (k i : ℕ) : Finset H :=
  (((es.take i).drop (k + 1)).filterMap Event.hash?).toFinset

/-- The confirmations before position `i`, split at position `k`. -/
theorem hashes_split {h : H} (hk : es[k]? = some (.confirmed h b)) (hki : k < i) :
    (es.take i).filterMap Event.hash? = (es.take k).filterMap Event.hash?
      ++ h :: ((es.take i).drop (k + 1)).filterMap Event.hash? := by
  have hget : (es.take i)[k]? = some (.confirmed h b) := by
    rw [List.getElem?_take, if_pos hki, hk]
  obtain ⟨hlt, heq⟩ := List.getElem?_eq_some_iff.1 hget
  have hsplit := take_append_drop k (es.take i)
  rw [drop_eq_getElem_cons hlt, heq, take_take, min_eq_left hki.le] at hsplit
  conv_lhs => rw [← hsplit]
  rw [filterMap_append, filterMap_cons]
  rfl

theorem not_confirmed_of_failedAt (hfail : failedAt ord delay es j i = some e) (hkj : k ≤ j)
    (hk : es[k]? = some (.confirmed e.hash b)) : k < i := by
  obtain ⟨hij, hopen, hbefore, ev, hev, hfails⟩ := failedAt_eq_some_iff.1 hfail
  by_contra hik
  rcases Nat.lt_or_ge i k with hik | hki
  · rcases Nat.lt_or_ge k j with hkj | hjk
    · have := hbefore k _ hik hkj hk
      simp [Event.closes] at this
    · have : k = j := le_antisymm hkj hjk
      subst this
      cases hev.symm.trans hk
      simp [Event.fails] at hfails
  · have : k = i := by omega
    subst this
    simp [openedAt, hk, opens] at hopen

/-- **Tracking is exact**, for a positive delay and a clock that tells the submissions apart: each
batch holds the entries that fail at its position, the last submission first; an entry that is never
confirmed fails at just one position once a block at which it is overdue is seen; and a failed
transaction was not seen in the ledger since its submission, and was first seen before it only if
256 other transactions were seen in between. -/
theorem tracking_exact (ord : HashOrder) {delay : ℕ} {es : List (Event H X)}
    (h : Timely delay es) :
    (∀ j, batchAt ord delay es j
      = ((List.range j).reverse.filterMap (failedAt ord delay es j)).map Entry.tx) ∧
    (∀ i e, openedAt ord delay es i = some e →
      (∀ k b, i < k → es[k]? ≠ some (.confirmed e.hash b)) →
      ((∃ k h b, i < k ∧ es[k]? = some (.confirmed h b) ∧ e.deadline ≤ b) ↔
        ∃! j, failedAt ord delay es j i = some e)) ∧
    (∀ j i e, failedAt ord delay es j i = some e →
      (∃ h b, es[j]? = some (.confirmed h b) ∧ e.deadline ≤ b) ∧
      ∀ k ≤ j, ∀ b, es[k]? = some (.confirmed e.hash b) →
        k < i ∧ ((∀ m < k, ∀ c, es[m]? ≠ some (.confirmed e.hash c)) →
          256 ≤ ((seenBetween es k i).erase e.hash).card)) := by
  refine ⟨batchAt_eq h, ?_, ?_⟩
  · intro i e hopen hnever
    constructor
    · intro hseen
      obtain ⟨j, hj⟩ := exists_failedAt hopen hnever hseen
      exact ⟨j, hj, fun k hk => failedAt_unique hk hj⟩
    · rintro ⟨j, hj, -⟩
      obtain ⟨hij, -, -, ev, hev, hfails⟩ := failedAt_eq_some_iff.1 hj
      cases ev with
      | submitted hash x now => cases hfails
      | confirmed hash b =>
        simp only [Event.fails, decide_eq_true_eq] at hfails
        exact ⟨j, hash, b, hij, hev, hfails.2⟩
  · intro j i e hfail
    obtain ⟨hij, hopen, -, ev, hev, hfails⟩ := failedAt_eq_some_iff.1 hfail
    refine ⟨?_, ?_⟩
    · cases ev with
      | submitted hash x now => cases hfails
      | confirmed hash b =>
        simp only [Event.fails, decide_eq_true_eq] at hfails
        exact ⟨hash, b, hev, hfails.2⟩
    · intro k hkj b hk
      have hki := not_confirmed_of_failedAt hfail hkj hk
      refine ⟨hki, fun hfirst => ?_⟩
      -- a filter that still remembered the transaction would have refused its submission
      by_contra hroom
      refine not_mem_recent_of_openedAt hopen ?_
      rw [hashes_split hk hki]
      refine CircularFilter.mem_filter_of_recent (by decide) ?_ (Nat.lt_of_not_le hroom)
      intro hmem
      obtain ⟨ev, hev, hhash⟩ := mem_filterMap.1 hmem
      cases ev with
      | submitted hash x now => cases hhash
      | confirmed hash c =>
        cases hhash
        obtain ⟨m, hm⟩ := mem_iff_getElem?.1 hev
        rw [List.getElem?_take] at hm
        split at hm
        case isTrue hlt => exact hfirst m hlt c hm
        case isFalse => cases hm

end Runs

/-- Two transactions submitted one after another, and a block at which both are overdue. -/
def chainedTxs : List (Event ℕ ℕ) := [.submitted 1 10 0, .submitted 2 20 1, .confirmed 3 5]

theorem chainedTxs_reported : Timely 5 chainedTxs ∧ batchAt .byKey 5 chainedTxs 2 = [20, 10] := by
  have htimely : Timely 5 chainedTxs := by
    refine ⟨by decide, by decide, ?_, ?_⟩
    · decide
    · decide
  refine ⟨htimely, ?_⟩
  rw [(tracking_exact .byKey htimely).1 2]
  decide +kernel

/-- The same two transactions at a clock that shows the same instant for both. -/
def simultaneousTxs : List (Event ℕ ℕ) := [.submitted 1 10 0, .submitted 2 20 0, .confirmed 3 5]

/-- A transaction submitted after it was confirmed, with 256 other confirmations in between. -/
def forgottenTx : List (Event ℕ ℕ) :=
  (List.range 257).map (fun h => .confirmed h 1) ++ [.submitted 0 10 0, .confirmed 300 9]

/-- Of two failed transactions with one instant only one is reported; a transaction that was
confirmed before is reported as failed. -/
theorem tracking_not_exact :
    (((List.range 2).reverse.filterMap (failedAt .byKey 5 simultaneousTxs 2)).map Entry.tx = [20, 10]
      ∧ batchAt .byKey 5 simultaneousTxs 2 = [20]) ∧
    (forgottenTx[0]? = some (.confirmed 0 1) ∧ forgottenTx[257]? = some (.submitted 0 10 0)
      ∧ batchAt .byKey 5 forgottenTx 258 = [10]) := by
  refine ⟨⟨by decide +kernel, by decide +kernel⟩, rfl, rfl, by decide +kernel⟩

end Splash.Tracker
