import Splash.Lib.OrdMap

/-!
# Pending transactions

`PendingTxs` holds the transactions that wait for their confirmation, by the block until which they
should be confirmed. When a later block is seen the overdue transactions are taken out.

Read as the list of its entries in the order of their submission (`Tracks`), the structure does the
following:

* `Tracks.append` — a new transaction goes to the end of the list;
* `Tracks.confirmTx` — a confirmed transaction leaves the list;
* `Tracks.tryAdvance` — the overdue transactions leave the list and are returned last one first.
-/

namespace Splash.Tracker

open Lib OrdMap List

variable {H X : Type} [LinearOrder H]

structure PendingTxs (H X : Type) [LinearOrder H] where
  maxConfirmationDelayBlocks : ℕ
  currentBlock : ℕ
  index : OrdMap H ℕ
  queue : OrdMap ℕ (OrdMap H (X × ℕ))

namespace PendingTxs

def new (maxConfirmationDelayBlocks : ℕ) : PendingTxs H X :=
  ⟨maxConfirmationDelayBlocks, 0, .empty, .empty⟩

section

variable (ord : HashOrder) (p : PendingTxs H X) (newBlock : ℕ)

def shouldConfirmUntil : ℕ :=
  (p.currentBlock + p.maxConfirmationDelayBlocks) % 2 ^ 64

/-- Starts to wait for a transaction; `now` is the instant the clock shows. -/
def append (tx : H) (trs : X) (now : ℕ) : PendingTxs H X :=
  if (p.index.get? tx).isSome then p
  else
    { p with
      index := p.index.insert tx p.shouldConfirmUntil
      queue := p.queue.insert p.shouldConfirmUntil
        (((p.queue.get? p.shouldConfirmUntil).getD .empty).insert tx (trs, now)) }

/-- The queue without a transaction that should have been confirmed until block `key`. -/
def dequeue (queue : OrdMap ℕ (OrdMap H (X × ℕ))) (key : ℕ) (tx : H) :
    OrdMap ℕ (OrdMap H (X × ℕ)) :=
  (queue.get? key).elim queue fun txs => queue.insert key (txs.erase tx)

def confirmTx (tx : H) : PendingTxs H X :=
  (p.index.get? tx).elim p fun key =>
    { p with index := p.index.erase tx, queue := dequeue p.queue key tx }

/-- The entries popped from the front of the queue while their block is not after `newBlock`. -/
def due : List (ℕ × OrdMap H (X × ℕ)) :=
  p.queue.toList.takeWhile (·.1 ≤ newBlock)

/-- The overdue transactions in the order in which they are gone through. -/
def overdue : List (H × X × ℕ) :=
  (p.due newBlock).flatMap fun e => ord.arrange e.2.toList

/-- The failed transactions by their instants, the latest instant first. -/
def failedTxsWithTimestamp (txs : List (H × X × ℕ)) : OrdMap ℕᵒᵈ X :=
  txs.foldl (fun failed e => failed.insert (OrderDual.toDual e.2.2) e.2.1) .empty

/-- Takes note of a block; returns the transactions that failed if the block is a new one. -/
def tryAdvance : PendingTxs H X × Option (List X) :=
  if p.currentBlock < newBlock then
    ({ p with
        currentBlock := newBlock
        index := (p.overdue ord newBlock).foldl (fun index e => index.erase e.1) p.index
        queue := (p.due newBlock).foldl (fun queue e => queue.erase e.1) p.queue },
      some (failedTxsWithTimestamp (p.overdue ord newBlock)).values)
  else (p, none)

end

end PendingTxs

/-! ## Pending transactions as a list -/

/-- A transaction that waits for its confirmation. -/
structure Entry (H X : Type) where
  hash : H
  tx : X
  deadline : ℕ
  instant : ℕ
  deriving DecidableEq

/-- `p` holds the entries of `l`, which are in the order of their submission. -/
structure Tracks (p : PendingTxs H X) (l : List (Entry H X)) : Prop where
  index_iff : ∀ h d, p.index.get? h = some d ↔ ∃ e ∈ l, e.hash = h ∧ e.deadline = d
  queue_iff : ∀ d h v, (∃ txs, p.queue.get? d = some txs ∧ txs.get? h = some v)
    ↔ ∃ e ∈ l, e.hash = h ∧ e.deadline = d ∧ (e.tx, e.instant) = v
  instants : l.Pairwise fun a b => a.instant < b.instant
  waiting : ∀ e ∈ l, p.currentBlock < e.deadline

namespace Tracks

variable {p : PendingTxs H X} {l : List (Entry H X)}

theorem nil (max : ℕ) : Tracks (PendingTxs.new max : PendingTxs H X) [] where
  index_iff := by simp [PendingTxs.new]
  queue_iff := by simp [PendingTxs.new]
  instants := .nil
  waiting := by simp

section

variable (hp : Tracks p l)
include hp

variable {b : ℕ} {h : H}

theorem get?_index_isSome : (p.index.get? h).isSome = true ↔ ∃ e ∈ l, e.hash = h := by
  rw [Option.isSome_iff_exists]
  constructor
  · rintro ⟨d, hd⟩
    obtain ⟨e, he, hh, -⟩ := (hp.index_iff h d).1 hd
    exact ⟨e, he, hh⟩
  · rintro ⟨e, he, hh⟩
    exact ⟨e.deadline, (hp.index_iff h _).2 ⟨e, he, hh, rfl⟩⟩

theorem deadline_unique {a b : Entry H X} (ha : a ∈ l) (hb : b ∈ l) (h : a.hash = b.hash) :
    a.deadline = b.deadline := by
  have hda := (hp.index_iff a.hash a.deadline).2 ⟨a, ha, rfl, rfl⟩
  have hdb := (hp.index_iff a.hash b.deadline).2 ⟨b, hb, h.symm, rfl⟩
  exact Option.some.inj (hda.symm.trans hdb)

theorem eq_of_instant {a b : Entry H X} (ha : a ∈ l) (hb : b ∈ l) (h : a.instant = b.instant) :
    a = b := by
  have hne : l.Pairwise fun a b => a.instant ≠ b.instant := hp.instants.imp fun h => h.ne
  have hsymm : Std.Symm fun a b : Entry H X => a.instant ≠ b.instant := ⟨fun _ _ h => h.symm⟩
  by_contra hab
  exact hne.forall ha hb hab h

theorem append {e : Entry H X} (hnew : ∀ a ∈ l, a.hash ≠ e.hash)
    (hlast : ∀ a ∈ l, a.instant < e.instant) (hdead : e.deadline = p.shouldConfirmUntil)
    (hwait : p.currentBlock < e.deadline) :
    Tracks (p.append e.hash e.tx e.instant) (l ++ [e]) := by
  have hnone : ¬ (p.index.get? e.hash).isSome = true := by
    rw [hp.get?_index_isSome]
    rintro ⟨a, ha, hh⟩
    exact hnew a ha hh
  simp only [PendingTxs.append, if_neg hnone, ← hdead]
  refine ⟨?_, ?_, ?_, ?_⟩
  · intro h d
    rw [get?_insert]
    by_cases hh : h = e.hash
    · subst hh
      rw [if_pos rfl]
      constructor
      · intro hd
        exact ⟨e, by simp, rfl, Option.some.inj hd⟩
      · rintro ⟨a, ha, hah, rfl⟩
        rcases mem_append.1 ha with ha | ha
        · exact absurd hah (hnew a ha)
        · rw [mem_singleton.1 ha]
    · rw [if_neg hh, hp.index_iff]
      constructor
      · rintro ⟨a, ha, hah⟩
        exact ⟨a, mem_append_left _ ha, hah⟩
      · rintro ⟨a, ha, hah, had⟩
        rcases mem_append.1 ha with ha | ha
        · exact ⟨a, ha, hah, had⟩
        · exact absurd (mem_singleton.1 ha ▸ hah).symm hh
  · intro d h v
    have hold := hp.queue_iff d h v
    have hsplit : (∃ a ∈ l ++ [e], a.hash = h ∧ a.deadline = d ∧ (a.tx, a.instant) = v)
        ↔ (∃ a ∈ l, a.hash = h ∧ a.deadline = d ∧ (a.tx, a.instant) = v)
          ∨ (e.hash = h ∧ e.deadline = d ∧ (e.tx, e.instant) = v) := by
      simp only [mem_append, mem_singleton, or_and_right, exists_or, exists_eq_left]
    rw [hsplit, ← hold]
    simp only [get?_insert]
    by_cases hd : d = e.deadline
    · subst hd
      by_cases hh : h = e.hash
      · subst hh
        -- the hash is new, so the slot held nothing for it
        have hfree : ¬ ∃ txs, p.queue.get? e.deadline = some txs ∧ txs.get? e.hash = some v := by
          rw [hold]
          rintro ⟨a, ha, hah, -⟩
          exact hnew a ha hah
        simp [hfree]
      · have hne : ¬ e.hash = h := fun h' => hh h'.symm
        cases hq : p.queue.get? e.deadline with
        | none => simp [hh, hne]
        | some txs => simp [hh, hne]
    · have hne : ¬ e.deadline = d := fun h' => hd h'.symm
      simp [hd, hne]
  · refine pairwise_append.2 ⟨hp.instants, pairwise_singleton _ _, ?_⟩
    intro a ha b hb
    rw [mem_singleton.1 hb]
    exact hlast a ha
  · intro a ha
    rcases mem_append.1 ha with ha | ha
    · exact hp.waiting a ha
    · rw [mem_singleton.1 ha]
      exact hwait

theorem append_known (hknown : ∃ a ∈ l, a.hash = h) (x : X) (now : ℕ) : p.append h x now = p := by
  simp [PendingTxs.append, hp.get?_index_isSome.2 hknown]

omit hp in
theorem get?_dequeue (queue : OrdMap ℕ (OrdMap H (X × ℕ))) (key : ℕ) (tx : H) (d : ℕ) (h : H)
    (v : X × ℕ) :
    (∃ txs, (PendingTxs.dequeue queue key tx).get? d = some txs ∧ txs.get? h = some v)
      ↔ (∃ txs, queue.get? d = some txs ∧ txs.get? h = some v) ∧ ¬ (d = key ∧ h = tx) := by
  cases hq : queue.get? key with
  | none =>
    have hsame : PendingTxs.dequeue queue key tx = queue := by simp [PendingTxs.dequeue, hq]
    rw [hsame]
    constructor
    · rintro ⟨txs, htxs, hv⟩
      refine ⟨⟨txs, htxs, hv⟩, ?_⟩
      rintro ⟨rfl, -⟩
      rw [hq] at htxs
      cases htxs
    · exact fun h => h.1
  | some txs =>
    have hput : PendingTxs.dequeue queue key tx = queue.insert key (txs.erase tx) := by
      simp [PendingTxs.dequeue, hq]
    rw [hput]
    simp only [get?_insert]
    by_cases hd : d = key
    · subst hd
      by_cases hh : h = tx <;> simp [hq, hh]
    · simp [hd]

theorem confirmTx (h : H) :
    Tracks (p.confirmTx h) (l.filter fun e => e.hash ≠ h) := by
  cases hi : p.index.get? h with
  | none =>
    have hall : ∀ e ∈ l, e.hash ≠ h := by
      intro e he heq
      have hd := (hp.index_iff h e.deadline).2 ⟨e, he, heq, rfl⟩
      rw [hi] at hd
      cases hd
    have hfilter : (l.filter fun e => e.hash ≠ h) = l :=
      filter_eq_self.2 fun e he => by simpa using hall e he
    rw [hfilter]
    simpa [PendingTxs.confirmTx, hi] using hp
  | some key =>
    have hrun : p.confirmTx h = { p with
        index := p.index.erase h, queue := PendingTxs.dequeue p.queue key h } := by
      simp [PendingTxs.confirmTx, hi]
    rw [hrun]
    refine ⟨?_, ?_, hp.instants.filter _, fun e he => hp.waiting e (mem_of_mem_filter he)⟩
    · intro k d
      simp only [get?_erase, mem_filter, decide_eq_true_eq]
      by_cases hk : k = h
      · subst hk
        simp only [if_true]
        constructor
        · intro h'
          cases h'
        · rintro ⟨e, ⟨-, hne⟩, heq, -⟩
          exact absurd heq hne
      · rw [if_neg hk, hp.index_iff]
        constructor
        · rintro ⟨e, he, rfl, hd⟩
          exact ⟨e, ⟨he, hk⟩, rfl, hd⟩
        · rintro ⟨e, ⟨he, -⟩, hek, hd⟩
          exact ⟨e, he, hek, hd⟩
    · intro d k v
      rw [get?_dequeue, hp.queue_iff]
      simp only [mem_filter, decide_eq_true_eq]
      constructor
      · rintro ⟨⟨e, he, rfl, rfl, hv⟩, hne⟩
        refine ⟨e, ⟨he, fun heq => hne ⟨?_, heq⟩⟩, rfl, rfl, hv⟩
        exact Option.some.inj
          (((hp.index_iff h e.deadline).2 ⟨e, he, heq, rfl⟩).symm.trans hi)
      · rintro ⟨e, ⟨he, hne⟩, rfl, rfl, hv⟩
        exact ⟨⟨e, he, rfl, rfl, hv⟩, fun h' => hne h'.2⟩

theorem mem_overdue (ord : HashOrder) {v : X × ℕ} : (h, v) ∈ p.overdue ord b
      ↔ ∃ e ∈ l, e.hash = h ∧ e.deadline ≤ b ∧ (e.tx, e.instant) = v := by
  simp only [PendingTxs.overdue, PendingTxs.due, mem_flatMap, mem_takeWhile_le,
    HashOrder.mem_arrange, mem_toList_iff]
  constructor
  · rintro ⟨⟨d, txs⟩, ⟨hd, hle⟩, hv⟩
    obtain ⟨e, he, hh, rfl, hev⟩ :=
      (hp.queue_iff d h v).1 ⟨txs, mem_toList_iff.1 hd, hv⟩
    exact ⟨e, he, hh, hle, hev⟩
  · rintro ⟨e, he, hh, hle, hev⟩
    obtain ⟨txs, hq, hv⟩ := (hp.queue_iff e.deadline h v).2 ⟨e, he, hh, rfl, hev⟩
    exact ⟨(e.deadline, txs), ⟨mem_toList_iff.2 hq, hle⟩, hv⟩

/-- The overdue transactions, the last one first. -/
theorem failedTxs (ord : HashOrder) (b : ℕ) :
    (PendingTxs.failedTxsWithTimestamp (p.overdue ord b)).values
      = ((l.filter fun e => e.deadline ≤ b).reverse.map Entry.tx) := by
  have hkey : ∀ x ∈ p.overdue ord b, ∀ y ∈ p.overdue ord b,
      OrderDual.toDual x.2.2 = OrderDual.toDual y.2.2 → x.2.1 = y.2.1 := by
    rintro ⟨h, v⟩ hx ⟨k, w⟩ hy hxy
    obtain ⟨e, he, -, -, rfl⟩ := (hp.mem_overdue ord).1 hx
    obtain ⟨e', he', -, -, rfl⟩ := (hp.mem_overdue ord).1 hy
    rw [hp.eq_of_instant he he' (OrderDual.toDual_inj.1 hxy)]
  -- the entries of the map are those of the list, and both go from late to early
  have hsorted : (((l.filter fun e => e.deadline ≤ b).reverse.map
      fun e => (OrderDual.toDual e.instant, e.tx))).Pairwise fun x y => x.1 < y.1 := by
    rw [pairwise_map, pairwise_reverse]
    exact (hp.instants.filter _).imp fun h => OrderDual.toDual_lt_toDual.2 h
  have hlist := toList_eq_of_sorted
    (m := PendingTxs.failedTxsWithTimestamp (p.overdue ord b)) hsorted ?_
  · rw [values, hlist, map_map]
    rfl
  · rintro ⟨k, x⟩
    rw [mem_toList_iff, PendingTxs.failedTxsWithTimestamp, get?_foldl_insert hkey]
    simp only [mem_map, mem_reverse, mem_filter, decide_eq_true_eq, Prod.mk.injEq]
    constructor
    · rintro ⟨e, ⟨he, hle⟩, rfl, rfl⟩
      exact ⟨(e.hash, e.tx, e.instant), (hp.mem_overdue ord).2 ⟨e, he, rfl, hle, rfl⟩, rfl, rfl⟩
    · rintro ⟨⟨h, v⟩, hv, rfl, rfl⟩
      obtain ⟨e, he, -, hle, rfl⟩ := (hp.mem_overdue ord).1 hv
      exact ⟨e, ⟨he, hle⟩, rfl, rfl⟩

/-- **The overdue transactions leave the list and are returned last one first.** -/
theorem tryAdvance (ord : HashOrder) (hb : p.currentBlock < b) :
    Tracks (p.tryAdvance ord b).1 (l.filter fun e => ¬ e.deadline ≤ b)
      ∧ (p.tryAdvance ord b).2
        = some ((l.filter fun e => e.deadline ≤ b).reverse.map Entry.tx) := by
  rw [PendingTxs.tryAdvance, if_pos hb, hp.failedTxs ord b]
  refine ⟨⟨?_, ?_, hp.instants.filter _, ?_⟩, rfl⟩
  · intro h d
    have hover : (∃ x ∈ p.overdue ord b, x.1 = h) ↔ ∃ e ∈ l, e.hash = h ∧ e.deadline ≤ b := by
      constructor
      · rintro ⟨⟨k, v⟩, hx, rfl⟩
        obtain ⟨e, he, hk, hle, -⟩ := (hp.mem_overdue ord).1 hx
        exact ⟨e, he, hk, hle⟩
      · rintro ⟨e, he, hk, hle⟩
        exact ⟨(h, e.tx, e.instant), (hp.mem_overdue ord).2 ⟨e, he, hk, hle, rfl⟩, rfl⟩
    rw [get?_foldl_erase (fun x : H × X × ℕ => x.1)]
    simp only [hover, mem_filter, decide_eq_true_eq]
    split
    case isTrue hov =>
      obtain ⟨e, he, hh, hle⟩ := hov
      constructor
      · intro h'
        cases h'
      · rintro ⟨a, ⟨ha, hgt⟩, hah, -⟩
        exact absurd (hp.deadline_unique he ha (hh.trans hah.symm) ▸ hle) hgt
    case isFalse hov =>
      rw [hp.index_iff]
      constructor
      · rintro ⟨a, ha, hah, had⟩
        exact ⟨a, ⟨ha, fun hle => hov ⟨a, ha, hah, hle⟩⟩, hah, had⟩
      · rintro ⟨a, ⟨ha, -⟩, hah, had⟩
        exact ⟨a, ha, hah, had⟩
  · intro d h v
    have hdue : (∃ x ∈ p.due b, x.1 = d) ↔ (p.queue.get? d).isSome = true ∧ d ≤ b := by
      rw [Option.isSome_iff_exists]
      constructor
      · rintro ⟨⟨k, txs⟩, hx, rfl⟩
        obtain ⟨hmem, hle⟩ := mem_takeWhile_le.1 hx
        exact ⟨⟨txs, mem_toList_iff.1 hmem⟩, hle⟩
      · rintro ⟨⟨txs, hq⟩, hle⟩
        exact ⟨(d, txs), mem_takeWhile_le.2 ⟨mem_toList_iff.2 hq, hle⟩, rfl⟩
    have hleft : (∃ txs, ((p.due b).foldl (fun queue e => queue.erase e.1) p.queue).get? d
          = some txs ∧ txs.get? h = some v)
        ↔ (∃ txs, p.queue.get? d = some txs ∧ txs.get? h = some v) ∧ ¬ d ≤ b := by
      rw [get?_foldl_erase (fun x : ℕ × OrdMap H (X × ℕ) => x.1)]
      simp only [hdue]
      cases hq : p.queue.get? d with
      | none => simp
      | some txs => by_cases hle : d ≤ b <;> simp [hle]
    rw [hleft, hp.queue_iff]
    simp only [mem_filter, decide_eq_true_eq]
    constructor
    · rintro ⟨⟨e, he, hh, rfl, hv⟩, hgt⟩
      exact ⟨e, ⟨he, hgt⟩, hh, rfl, hv⟩
    · rintro ⟨e, ⟨he, hgt⟩, hh, rfl, hv⟩
      exact ⟨⟨e, he, hh, rfl, hv⟩, hgt⟩
  · intro e he
    simp only [mem_filter, decide_eq_true_eq] at he
    exact Nat.lt_of_not_le he.2

theorem tryAdvance_old (ord : HashOrder) (hb : ¬ p.currentBlock < b) :
    p.tryAdvance ord b = (p, none) ∧ (l.filter fun e => e.deadline ≤ b) = [] := by
  refine ⟨by rw [PendingTxs.tryAdvance, if_neg hb], ?_⟩
  rw [filter_eq_nil_iff]
  intro e he hle
  have hwait := hp.waiting e he
  have hle' : e.deadline ≤ b := by simpa using hle
  omega

end

end Tracks

end Splash.Tracker
