import Splash.ChainSync.Cache

/-!
# The stream of ledger events

`ledgerTransactions` turns what the node sends, blocks and requests to roll back, into applied and
unapplied transactions, and keeps the cache of blocks on the way. Rollbacks to points at or before
the slot `handleRollbacksAfter` are not handled, and blocks up to it are not cached.

* `rollback_eq` — a rollback unlinks one block after another.
* `processUpstreamByTxs_spec` — what one message does to the events and the cache.
* `Holds.faithful` — the events of a session and the cache follow the chain of the node.
-/

namespace Splash.ChainSync

open Lib LedgerCache List

variable {TB TW AD R : Type}

/-! ## The source -/

inductive ChainUpgrade (TB TW AD R : Type) where
  | rollForward (blk : MultiEraBlock TB TW AD) (blkBytes : R) (replayed : Bool)
  | rollBackward (point : Point)

inductive LedgerTxEvent (T : Type) where
  | txApplied (t : T)
  | txUnapplied (t : T)

/-- The changes of the cache and what is emitted. -/
structure Output (TB TW AD R E : Type) where
  log : List (CacheStep TB TW AD R)
  events : List E

namespace Output

variable {E : Type}

def ops (o : Output TB TW AD R E) : List (StoreOp R) := o.log.flatMap CacheStep.ops

section

variable (o o' : Output TB TW AD R E)

def append : Output TB TW AD R E :=
  ⟨o.log ++ o'.log, o.events ++ o'.events⟩

@[simp] theorem log_append : (o.append o').log = o.log ++ o'.log := rfl

@[simp] theorem events_append : (o.append o').events = o.events ++ o'.events := rfl

@[simp] theorem ops_append : (o.append o').ops = o.ops ++ o'.ops :=
  flatMap_append

end

@[simp] theorem ops_nil (es : List E) : (⟨[], es⟩ : Output TB TW AD R E).ops = [] := rfl

@[simp] theorem ops_cons (s : CacheStep TB TW AD R) (log : List (CacheStep TB TW AD R))
    (es : List E) : (⟨s :: log, es⟩ : Output TB TW AD R E).ops = s.ops ++ log.flatMap (·.ops) :=
  flatMap_cons

end Output

section Source

variable (fromCborBytes : R → Option (MultiEraBlock TB TW AD))

/-- A turn of the rollback loop: the tip and the block at the tip, which is to be unlinked. There
is none when the tip is the point to get to, or when no block is stored under it. -/
def rollbackTurn (toPoint : Point) (cache : LedgerCache R) : Option (Point × LinkedBlock R) :=
  cache.getTip.bind fun tip =>
    if tip = toPoint then none else (cache.getBlock tip).map fun lb => (tip, lb)

def unlinkTurn (turn : Point × LinkedBlock R) : CacheStep TB TW AD R :=
  .unlink turn.1 turn.2.prevPoint

def rollbackLoop (toPoint : Point) :
    ℕ → LedgerCache R → Exec (Output TB TW AD R (MultiEraBlock TB TW AD))
  | 0, _ => .ok ⟨[], []⟩
  | n + 1, cache =>
    (rollbackTurn toPoint cache).elim (.ok ⟨[], []⟩) fun turn => do
      let step : CacheStep TB TW AD R := unlinkTurn turn
      let blk ← Exec.expect "Block deserialization failed" (fromCborBytes turn.2.bytes)
      let rest ← rollbackLoop toPoint n (cache.execute step.ops)
      pure ⟨step :: rest.log, blk :: rest.events⟩

/-- Handles a rollback to a point. Every turn takes a block out of the store, so there are no more
turns than stored blocks. -/
def rollback (toPoint : Point) (cache : LedgerCache R) :
    Exec (Output TB TW AD R (MultiEraBlock TB TW AD)) :=
  rollbackLoop fromCborBytes toPoint cache.blocks.size cache

def cacheForward (handleRollbacksAfter : ℕ) (cache : LedgerCache R)
    (b : RawBlock TB TW AD R) : CacheStep TB TW AD R :=
  if handleRollbacksAfter < b.blk.header.slot then cacheBlock cache b else cachePoint b

def processUpstreamByTxs (handleRollbacksAfter : ℕ) (cache : LedgerCache R) :
    ChainUpgrade TB TW AD R →
      Exec (Output TB TW AD R (LedgerTxEvent (LedgerTx TB TW AD)))
  | .rollForward blk blkBytes replayed =>
    if replayed then .ok ⟨[], blk.unpackValidTransactionsMultiEra.map .txApplied⟩
    else do
      let _ ← blk.point
      pure ⟨[cacheForward handleRollbacksAfter cache ⟨blk, blkBytes⟩],
        blk.unpackValidTransactionsMultiEra.map .txApplied⟩
  | .rollBackward point =>
    if handleRollbacksAfter < point.getSlot then do
      let unwound ← rollback fromCborBytes point cache
      pure ⟨unwound.log, unwound.events.flatMap fun blk =>
        (blk.unpackValidTransactionsMultiEra.map .txUnapplied).reverse⟩
    else .ok ⟨[], []⟩

/-- Handles one message after another. -/
def processUpstream (handleRollbacksAfter : ℕ) :
    LedgerCache R → List (ChainUpgrade TB TW AD R) →
      Exec (Output TB TW AD R (LedgerTxEvent (LedgerTx TB TW AD)))
  | _, [] => .ok ⟨[], []⟩
  | cache, u :: us => do
    let o ← processUpstreamByTxs fromCborBytes handleRollbacksAfter cache u
    let rest ← processUpstream handleRollbacksAfter (cache.execute o.ops) us
    pure (o.append rest)

/-- The blocks that are read back from the cache before new ones are pulled. -/
def replayedBlocks (replayFrom : Option Point) (cache : LedgerCache R) :
    List (RawBlock TB TW AD R) :=
  replayFrom.elim [] fun p => (cache.replay p).filterMap fun lb =>
    (fromCborBytes lb.bytes).map fun blk => ⟨blk, lb.bytes⟩

/-- Streams the transactions of a session: the blocks replayed from the cache, then what the node
sends. -/
def ledgerTransactions (handleRollbacksAfter : ℕ) (replayFrom : Option Point)
    (cache : LedgerCache R) (upstream : List (ChainUpgrade TB TW AD R)) :
    Exec (Output TB TW AD R (LedgerTxEvent (LedgerTx TB TW AD))) :=
  processUpstream fromCborBytes handleRollbacksAfter cache
    ((replayedBlocks fromCborBytes replayFrom cache).map
      (fun b => .rollForward b.blk b.bytes true) ++ upstream)

end Source

/-! ## The chain of the node -/

section Node

variable (fromCborBytes : R → Option (MultiEraBlock TB TW AD)) (start : Point)

/-- What a message of the node does to its chain, which starts after `start` and is listed from
its newest block. -/
inductive Follow : List (RawBlock TB TW AD R) → ChainUpgrade TB TW AD R →
    List (RawBlock TB TW AD R) → Prop where
  | forward {c : List (RawBlock TB TW AD R)} (b : RawBlock TB TW AD R)
      (hsent : b.Sent fromCborBytes start) (hslot : ∀ b' ∈ c, b'.slot < b.slot) :
      Follow c (.rollForward b.blk b.bytes false) (b :: c)
  | backward {c : List (RawBlock TB TW AD R)} (p : Point)
      (hp : p = start ∨ ∃ b ∈ c, b.point = p) :
      Follow c (.rollBackward p) (c.dropWhile (·.point ≠ p))

/-- What a sequence of messages does to the chain of the node. -/
inductive Follows : List (RawBlock TB TW AD R) → List (ChainUpgrade TB TW AD R) →
    List (RawBlock TB TW AD R) → Prop where
  | nil (c : List (RawBlock TB TW AD R)) : Follows c [] c
  | cons {c c' c'' : List (RawBlock TB TW AD R)} {u : ChainUpgrade TB TW AD R}
      {us : List (ChainUpgrade TB TW AD R)} (hu : Follow fromCborBytes start c u c')
      (hus : Follows c' us c'') : Follows c (u :: us) c''

end Node

/-- Every rollback goes to a point after the given slot. -/
def Handled (handleRollbacksAfter : ℕ) (us : List (ChainUpgrade TB TW AD R)) : Prop :=
  ∀ p, .rollBackward p ∈ us → handleRollbacksAfter < p.getSlot

/-- The valid transactions of a chain that the stream knows of, in their order on the chain. -/
def transactionsOf (c : List (RawBlock TB TW AD R)) : List (LedgerTx TB TW AD) :=
  (c.reverse.filter fun b => b.blk.era = .babbage ∨ b.blk.era = .conway).flatMap fun b =>
    b.blk.validTransactions

/-- Folding events over the transactions applied so far, the last one first. Only the transaction
that was applied last can be unapplied. -/
inductive Folds {T : Type} : List T → List (LedgerTxEvent T) → List T → Prop where
  | nil (ts : List T) : Folds ts [] ts
  | applied {t : T} {ts ts' : List T} {es : List (LedgerTxEvent T)} (h : Folds (t :: ts) es ts') :
      Folds ts (.txApplied t :: es) ts'
  | unapplied {t : T} {ts ts' : List T} {es : List (LedgerTxEvent T)} (h : Folds ts es ts') :
      Folds (t :: ts) (.txUnapplied t :: es) ts'

/-- Following the links from the tip of the cache visits the blocks of the chain after the given
slot, and then stops. -/
def CachesChain (handleRollbacksAfter : ℕ) (cache : LedgerCache R)
    (c : List (RawBlock TB TW AD R)) : Prop :=
  ∃ l stop, Walk cache.getBlock LinkedBlock.prevPoint (cache.tip.getD .origin) l stop ∧
    l.map (fun e => (e.1, e.2.bytes)) =
      (c.filter (handleRollbacksAfter < ·.slot)).map fun b => (b.point, b.bytes)

/-! ## Folding events -/

namespace Folds

variable {T : Type} {ts ts' ts'' : List T} {es es' : List (LedgerTxEvent T)}

theorem append (h : Folds ts es ts') (h' : Folds ts' es' ts'') : Folds ts (es ++ es') ts'' := by
  induction h with
  | nil => exact h'
  | applied _ ih => exact .applied (ih h')
  | unapplied _ ih => exact .unapplied (ih h')

theorem map_applied (l ts : List T) : Folds ts (l.map .txApplied) (l.reverse ++ ts) := by
  induction l generalizing ts with
  | nil => exact .nil ts
  | cons t l ih =>
    rw [map_cons, reverse_cons, append_assoc]
    exact .applied (ih (t :: ts))

theorem map_unapplied (l ts : List T) : Folds (l ++ ts) (l.map .txUnapplied) ts := by
  induction l with
  | nil => exact .nil ts
  | cons t l ih => exact .unapplied ih

end Folds

theorem reverse_transactionsOf_cons (b : RawBlock TB TW AD R) (c : List (RawBlock TB TW AD R)) :
    (transactionsOf (b :: c)).reverse =
      b.blk.unpackValidTransactionsMultiEra.reverse ++ (transactionsOf c).reverse := by
  rw [MultiEraBlock.unpackValidTransactionsMultiEra_eq]
  unfold transactionsOf
  rw [reverse_cons, filter_append, flatMap_append, reverse_append]
  congr 2
  by_cases hera : b.blk.era = .babbage ∨ b.blk.era = .conway
  · rw [if_pos hera, filter_cons_of_pos (by simpa using hera)]
    exact flatMap_singleton _ _
  · rw [if_neg hera, filter_cons_of_neg (by simpa using hera)]
    rfl

theorem folds_unapplied (l c : List (RawBlock TB TW AD R)) :
    Folds (transactionsOf (l ++ c)).reverse
      ((l.map (·.blk)).flatMap fun blk =>
        (blk.unpackValidTransactionsMultiEra.map .txUnapplied).reverse)
      (transactionsOf c).reverse := by
  induction l with
  | nil => exact .nil _
  | cons b l ih =>
    rw [cons_append, reverse_transactionsOf_cons, map_cons, flatMap_cons,
      ← map_reverse]
    exact (Folds.map_unapplied _ _).append ih

theorem folds_applied (l c : List (RawBlock TB TW AD R)) :
    Folds (transactionsOf c).reverse
      (l.flatMap fun b => b.blk.unpackValidTransactionsMultiEra.map .txApplied)
      (transactionsOf (l.reverse ++ c)).reverse := by
  induction l generalizing c with
  | nil => exact .nil _
  | cons b l ih =>
    rw [flatMap_cons, reverse_cons, append_assoc]
    refine Folds.append (Folds.map_applied _ _) ?_
    rw [← reverse_transactionsOf_cons]
    exact ih (b :: c)

/-! ## Rollbacks -/

section Rollback

variable {fromCborBytes : R → Option (MultiEraBlock TB TW AD)} {toPoint : Point}
  {cache : LedgerCache R}

theorem rollbackTurn_size {turn : Point × LinkedBlock R}
    (h : rollbackTurn toPoint cache = some turn) :
    (cache.execute (unlinkTurn turn : CacheStep TB TW AD R).ops).blocks.size <
      cache.blocks.size := by
  unfold rollbackTurn at h
  obtain ⟨tip, -, h⟩ := Option.bind_eq_some_iff.1 h
  split at h
  case isTrue => cases h
  case isFalse =>
    obtain ⟨lb, hget, rfl⟩ := Option.map_eq_some_iff.1 h
    exact (OrdMap.size_erase hget).le

theorem rollbackTurn_of_size (h : cache.blocks.size = 0) :
    rollbackTurn toPoint cache = none := by
  unfold rollbackTurn getBlock
  simp [OrdMap.get?_eq_none_of_size h]

/-- More turns than stored blocks change nothing. -/
theorem rollbackLoop_succ {n : ℕ} (hn : cache.blocks.size ≤ n) :
    rollbackLoop fromCborBytes toPoint n cache = rollbackLoop fromCborBytes toPoint (n + 1) cache := by
  induction n generalizing cache with
  | zero =>
    simp [rollbackLoop, rollbackTurn_of_size (Nat.le_zero.1 hn)]
  | succ n ih =>
    conv_lhs => unfold rollbackLoop
    conv_rhs => unfold rollbackLoop
    cases hturn : rollbackTurn toPoint cache with
    | none => rfl
    | some turn =>
      have hlt : (cache.execute (unlinkTurn turn : CacheStep TB TW AD R).ops).blocks.size <
          cache.blocks.size := rollbackTurn_size hturn
      simp only [Option.elim_some]
      rw [ih (by omega)]

theorem rollbackLoop_of_le {n : ℕ} (hn : cache.blocks.size ≤ n) :
    rollbackLoop fromCborBytes toPoint n cache = rollback fromCborBytes toPoint cache := by
  induction n, hn using Nat.le_induction with
  | base => rfl
  | succ n hn ih => exact (rollbackLoop_succ hn).symm.trans ih

/-- A rollback unlinks the block at the tip and goes on, until a turn finds nothing to unlink. -/
theorem rollback_eq (fromCborBytes : R → Option (MultiEraBlock TB TW AD)) (toPoint : Point)
    (cache : LedgerCache R) :
    rollback fromCborBytes toPoint cache =
      (rollbackTurn toPoint cache).elim (.ok ⟨[], []⟩) fun turn =>
        Exec.expect "Block deserialization failed" (fromCborBytes turn.2.bytes) >>= fun blk =>
          rollback fromCborBytes toPoint
              (cache.execute (unlinkTurn turn : CacheStep TB TW AD R).ops) >>= fun rest =>
            pure ⟨unlinkTurn turn :: rest.log, blk :: rest.events⟩ := by
  rw [← rollbackLoop_of_le (Nat.le_succ _), rollbackLoop]
  cases hturn : rollbackTurn toPoint cache with
  | none => rfl
  | some turn =>
    simp only [Option.elim_some]
    rw [rollbackLoop_of_le (rollbackTurn_size hturn).le]

theorem rollback_spec {since : ℕ} {base start : Point} {c : List (RawBlock TB TW AD R)}
    (h : Holds fromCborBytes since base start cache c)
    (hkept : ∀ b ∈ c.takeWhile (·.point ≠ toPoint), since ≤ b.slot) :
    ∃ log, rollback fromCborBytes toPoint cache =
        .ok ⟨log, (c.takeWhile (·.point ≠ toPoint)).map (·.blk)⟩ ∧
      SoundLog fromCborBytes since base start cache c log ∧
      log.foldl CacheStep.follow c = c.dropWhile (·.point ≠ toPoint) := by
  induction c generalizing cache with
  | nil =>
    have hturn : rollbackTurn toPoint cache = none := by
      have habsent : cache.getBlock base = none := h.getBlock_eq_none fun _ hb => nomatch hb
      unfold rollbackTurn getTip
      obtain htip | ⟨htip, -, -⟩ := h.tip
      · simp [htip, tipPoint, habsent]
      · simp [htip]
    refine ⟨[], ?_, trivial, rfl⟩
    rw [rollback_eq, hturn]
    rfl
  | cons b c ih =>
    by_cases hb : b.point = toPoint
    · have hturn : rollbackTurn toPoint cache = none := by
        unfold rollbackTurn
        simp [h.getTip_cons, hb]
      refine ⟨[], ?_, trivial, ?_⟩
      · rw [rollback_eq, hturn, takeWhile_cons_of_neg (by simpa using hb)]
        rfl
      · rw [dropWhile_cons_of_neg (by simpa using hb)]
        rfl
    · rw [takeWhile_cons_of_pos (by simpa using hb)] at hkept ⊢
      rw [dropWhile_cons_of_pos (by simpa using hb)]
      obtain ⟨hkeptb, hkept⟩ := forall_mem_cons.1 hkept
      have hturn : rollbackTurn toPoint cache =
          some (b.point, ⟨b.bytes, tipPoint base c⟩) := by
        unfold rollbackTurn
        simp [h.getTip_cons, hb, h.getBlock_tip hkeptb]
      obtain ⟨log, hrun, hlog, hchain⟩ := ih (h.unlink hkeptb) hkept
      refine ⟨.unlink b.point (tipPoint base c) :: log, ?_, ⟨.unlink hkeptb, hlog⟩, hchain⟩
      rw [rollback_eq, hturn]
      simp only [Option.elim_some, (h.sent b mem_cons_self).decoded]
      unfold unlinkTurn
      rw [hrun]
      rfl

end Rollback

/-! ## Messages and sessions -/

section Session

variable {fromCborBytes : R → Option (MultiEraBlock TB TW AD)} {start : Point}
  {handleRollbacksAfter : ℕ} {cache : LedgerCache R} {c c' : List (RawBlock TB TW AD R)}

/-- A chain that holds starts with the blocks after any of its points. -/
theorem slot_of_mem_takeWhile {since : ℕ} {base p : Point}
    (h : Holds fromCborBytes since base start cache c)
    (hp : p = start ∨ ∃ b ∈ c, b.point = p) (hslot : 0 < p.getSlot) :
    ∀ b ∈ c.takeWhile (·.point ≠ p), p.getSlot < b.slot := by
  intro b hb
  have hmem : b ∈ c := takeWhile_subset _ hb
  rcases hp with rfl | ⟨b₀, hb₀, rfl⟩
  · rcases (h.sent b hmem).started with rfl | hlt
    · exact absurd hslot (lt_irrefl 0)
    · exact hlt
  · have hslots := h.slots
    clear h hmem
    induction c with
    | nil => cases hb₀
    | cons a c ih =>
      obtain ⟨hlt, hrest⟩ := pairwise_cons.1 hslots
      by_cases ha : a.point = b₀.point
      · rw [takeWhile_cons_of_neg (by simpa using ha)] at hb
        cases hb
      · rw [takeWhile_cons_of_pos (by simpa using ha)] at hb
        have hb₀' : b₀ ∈ c := by
          rcases mem_cons.1 hb₀ with rfl | hb₀
          · exact absurd rfl ha
          · exact hb₀
        rcases mem_cons.1 hb with rfl | hb
        · exact hlt b₀ hb₀'
        · exact ih hb₀' hb hrest

theorem cacheForward_spec (handleRollbacksAfter : ℕ) (cache : LedgerCache R)
    {b : RawBlock TB TW AD R} (hslot : ∀ b' ∈ c, b'.slot < b.slot)
    (hsent : b.Sent fromCborBytes start) :
    (cacheForward handleRollbacksAfter cache b).Sound fromCborBytes (handleRollbacksAfter + 1)
        .origin start cache c ∧
      (cacheForward handleRollbacksAfter cache b).follow c = b :: c := by
  unfold cacheForward
  split
  case isTrue hkept => exact ⟨.block hslot hsent hkept, rfl⟩
  case isFalse hold => exact ⟨.point hslot hsent (Nat.lt_succ_of_le (not_lt.1 hold)), rfl⟩

/-- **What one message does**: the events lead from the transactions of the old chain to those of
the new one, and the cache follows the chain. -/
theorem processUpstreamByTxs_spec {u : ChainUpgrade TB TW AD R}
    (h : Holds fromCborBytes (handleRollbacksAfter + 1) .origin start cache c)
    (hu : Follow fromCborBytes start c u c')
    (hhandled : ∀ p, u = .rollBackward p → handleRollbacksAfter < p.getSlot) :
    ∃ o, processUpstreamByTxs fromCborBytes handleRollbacksAfter cache u = .ok o ∧
      Folds (transactionsOf c).reverse o.events (transactionsOf c').reverse ∧
      SoundLog fromCborBytes (handleRollbacksAfter + 1) .origin start cache c o.log ∧
      o.log.foldl CacheStep.follow c = c' := by
  cases hu with
  | forward b hsent hslot =>
    obtain ⟨hsound, hfollow⟩ := cacheForward_spec handleRollbacksAfter cache hslot hsent
    refine ⟨⟨[cacheForward handleRollbacksAfter cache b],
      b.blk.unpackValidTransactionsMultiEra.map .txApplied⟩, ?_, ?_, ⟨hsound, trivial⟩, hfollow⟩
    · show (b.blk.point >>= fun _ => _) = _
      rw [hsent.point_eq]
      rfl
    · rw [reverse_transactionsOf_cons]
      exact Folds.map_applied _ _
  | backward p hp =>
    have hslot := hhandled p rfl
    have hkept := slot_of_mem_takeWhile h hp (by omega)
    obtain ⟨log, hrun, hlog, hchain⟩ := rollback_spec h fun b hb =>
      Nat.succ_le_of_lt (hslot.trans (hkept b hb))
    refine ⟨⟨log, ((c.takeWhile (·.point ≠ p)).map (·.blk)).flatMap fun blk =>
      (blk.unpackValidTransactionsMultiEra.map .txUnapplied).reverse⟩, ?_, ?_, hlog, hchain⟩
    · show (if handleRollbacksAfter < p.getSlot then _ else _) = _
      rw [if_pos hslot, hrun]
      rfl
    · have hfolds := folds_unapplied (c.takeWhile (·.point ≠ p)) (c.dropWhile (·.point ≠ p))
      rw [takeWhile_append_dropWhile] at hfolds
      exact hfolds

variable {us : List (ChainUpgrade TB TW AD R)}

section

variable (h : Holds fromCborBytes (handleRollbacksAfter + 1) .origin start cache c)
include h

theorem processUpstream_spec (hus : Follows fromCborBytes start c us c')
    (hhandled : Handled handleRollbacksAfter us) :
    ∃ o, processUpstream fromCborBytes handleRollbacksAfter cache us = .ok o ∧
      Folds (transactionsOf c).reverse o.events (transactionsOf c').reverse ∧
      SoundLog fromCborBytes (handleRollbacksAfter + 1) .origin start cache c o.log ∧
      o.log.foldl CacheStep.follow c = c' := by
  induction hus generalizing cache with
  | nil c => exact ⟨⟨[], []⟩, rfl, .nil _, trivial, rfl⟩
  | @cons c c₁ c₂ u us hu hus ih =>
    obtain ⟨o, hrun, hfolds, hlog, hchain⟩ := processUpstreamByTxs_spec h hu fun p hp =>
      hhandled p (hp ▸ mem_cons_self)
    have hholds := hlog.holds h
    rw [hchain] at hholds
    obtain ⟨o', hrun', hfolds', hlog', hchain'⟩ := ih hholds fun p hp =>
      hhandled p (mem_cons_of_mem _ hp)
    refine ⟨o.append o', ?_, hfolds.append hfolds', hlog.append ?_, ?_⟩
    · unfold processUpstream
      rw [hrun]
      show (processUpstream fromCborBytes handleRollbacksAfter (cache.execute o.ops) us >>= _) = _
      unfold Output.ops
      rw [hrun']
      rfl
    · rw [hchain]
      exact hlog'
    · rw [Output.log_append, foldl_append, hchain, hchain']

theorem Holds.cachesChain :
    CachesChain handleRollbacksAfter cache c := by
  have hwalk := h.walk
  rw [← h.getTip_getD] at hwalk
  refine ⟨_, _, hwalk, ?_⟩
  clear hwalk h
  induction c with
  | nil => rfl
  | cons b c ih =>
    by_cases hkept : handleRollbacksAfter < b.slot
    · rw [links, if_pos (by omega), filter_cons_of_pos (by simpa using hkept), map_cons,
        map_cons, ih]
    · rw [links, if_neg (by omega), filter_cons_of_neg (by simpa using hkept), ih]

def replays (handleRollbacksAfter : ℕ) (replayFrom : Option Point) (b : RawBlock TB TW AD R) :
    Bool :=
  replayFrom.elim false fun p => handleRollbacksAfter < b.slot ∧ p ≤ b.point

theorem replayedBlocks_eq (replayFrom : Option Point) :
    replayedBlocks fromCborBytes replayFrom cache =
      (c.filter (replays handleRollbacksAfter replayFrom)).reverse := by
  cases replayFrom with
  | none => exact (congrArg List.reverse (filter_false c)).symm
  | some p => exact h.replay_eq p

omit h in
/-- What is replayed is the newer part of the chain. -/
theorem filter_replays_append (hslots : c.Pairwise fun newer older => older.slot < newer.slot)
    (replayFrom : Option Point) :
    c.filter (replays handleRollbacksAfter replayFrom) ++
      c.filter (fun b => !replays handleRollbacksAfter replayFrom b) = c := by
  cases replayFrom with
  | none => simp [replays]
  | some p =>
    induction c with
    | nil => rfl
    | cons b c ih =>
      obtain ⟨hlt, hrest⟩ := pairwise_cons.1 hslots
      by_cases hb : replays handleRollbacksAfter (some p) b = true
      · rw [filter_cons_of_pos hb, filter_cons_of_neg (by simpa using hb),
          cons_append, ih hrest]
      · -- an older block is not replayed when a newer one is not
        have hnone : ∀ b' ∈ b :: c, ¬ replays handleRollbacksAfter (some p) b' = true := by
          intro b' hb'
          rcases mem_cons.1 hb' with rfl | hb'
          · exact hb
          · intro hrep
            have hrep' : handleRollbacksAfter < b'.slot ∧ p ≤ b'.point := by
              simpa [replays] using hrep
            have hslot := hlt b' hb'
            apply hb
            simpa [replays] using
              ⟨hrep'.1.trans hslot, hrep'.2.trans (RawBlock.point_lt hslot).le⟩
        rw [filter_eq_nil_iff.2 hnone, filter_eq_self.2 (by simpa using hnone),
          nil_append]

omit h in
theorem processUpstream_replayed {o : Output TB TW AD R (LedgerTxEvent (LedgerTx TB TW AD))}
    (h : processUpstream fromCborBytes handleRollbacksAfter cache us = .ok o)
    (bs : List (RawBlock TB TW AD R)) :
    processUpstream fromCborBytes handleRollbacksAfter cache
        (bs.map (fun b => .rollForward b.blk b.bytes true) ++ us) =
      .ok ⟨o.log, bs.flatMap (fun b => b.blk.unpackValidTransactionsMultiEra.map .txApplied) ++
        o.events⟩ := by
  induction bs with
  | nil => exact h
  | cons b bs ih =>
    rw [map_cons, cons_append, processUpstream]
    show (processUpstream fromCborBytes handleRollbacksAfter cache _ >>= _) = _
    rw [ih, flatMap_cons, append_assoc]
    rfl

/-- Every session from a cache with a chain is faithful: it folds from the transactions that are
not replayed to those of the chain the node is left with, and the cache follows the chain. -/
def Faithful (fromCborBytes : R → Option (MultiEraBlock TB TW AD)) (handleRollbacksAfter : ℕ)
    (start : Point) (cache : LedgerCache R) (c : List (RawBlock TB TW AD R)) : Prop :=
  ∀ replayFrom us c', Follows fromCborBytes start c us c' → Handled handleRollbacksAfter us →
    ∃ out, ledgerTransactions fromCborBytes handleRollbacksAfter replayFrom cache us = .ok out ∧
      Folds (transactionsOf (c.filter fun b => !replays handleRollbacksAfter replayFrom b)).reverse
        out.events (transactionsOf c').reverse ∧
      CachesChain handleRollbacksAfter (cache.execute out.ops) c'

theorem Holds.faithful :
    Faithful fromCborBytes handleRollbacksAfter start cache c := by
  intro replayFrom us c' hus hhandled
  obtain ⟨o, hrun, hfolds, hlog, hchain⟩ := processUpstream_spec h hus hhandled
  have hholds := hlog.holds h
  rw [hchain] at hholds
  have hreplayed := processUpstream_replayed hrun
    (c.filter (replays handleRollbacksAfter replayFrom)).reverse
  rw [← replayedBlocks_eq h] at hreplayed
  refine ⟨_, hreplayed, Folds.append ?_ hfolds, hholds.cachesChain⟩
  rw [replayedBlocks_eq h]
  have happlied := folds_applied (c.filter (replays handleRollbacksAfter replayFrom)).reverse
    (c.filter fun b => !replays handleRollbacksAfter replayFrom b)
  rw [reverse_reverse, filter_replays_append h.slots] at happlied
  exact happlied

end

/-- **The event stream is faithful.** From an empty cache and any starting point, whatever the
node sends, the events fold to the valid transactions of its chain, the links of the cache are the
cached part of the chain, and every later session is faithful as well. -/
theorem ledgerTransactions_faithful {us : List (ChainUpgrade TB TW AD R)}
    (hus : Follows fromCborBytes start [] us c) (hhandled : Handled handleRollbacksAfter us) :
    ∃ out, ledgerTransactions fromCborBytes handleRollbacksAfter none .empty us = .ok out ∧
      Folds [] out.events (transactionsOf c).reverse ∧
      CachesChain handleRollbacksAfter (empty.execute out.ops) c ∧
      Faithful fromCborBytes handleRollbacksAfter start (empty.execute out.ops) c := by
  have hempty : Holds fromCborBytes (handleRollbacksAfter + 1) .origin start empty [] :=
    .empty
  obtain ⟨o, hrun, hfolds, hlog, hchain⟩ := processUpstream_spec hempty hus hhandled
  have hholds := hlog.holds hempty
  rw [hchain] at hholds
  exact ⟨o, hrun, hfolds, hholds.cachesChain, hholds.faithful⟩

end Session

/-! ## Samples -/

/-- A block with one transaction; its bytes are the block itself. -/
def sampleBlock (era : Era) (slot : ℕ) : RawBlock ℕ ℕ ℕ (MultiEraBlock ℕ ℕ ℕ) :=
  let blk : MultiEraBlock ℕ ℕ ℕ :=
    { era
      header := ⟨slot, slot, slot⟩
      transactionBodies := [slot]
      transactionWitnessSets := [0]
      auxiliaryDataSet := .empty
      invalidTransactions := []
      digest := slot
      indexed := (Nat.one_le_two_pow : 1 ≤ 2 ^ 16) }
  ⟨blk, blk⟩

def sampleForward (era : Era) (slot : ℕ) : ChainUpgrade ℕ ℕ ℕ (MultiEraBlock ℕ ℕ ℕ) :=
  .rollForward (sampleBlock era slot).blk (sampleBlock era slot).bytes false

theorem follows_sampleBlock (slot : ℕ) {start : ℕ} (hstart : start < slot) :
    Follows some (.specific start 0) []
      [sampleForward .conway slot, .rollBackward (.specific start 0)] [] := by
  have hne : (sampleBlock .conway slot).point ≠ .specific start 0 := by
    intro h
    have hslot : slot = start := congrArg Point.getSlot h
    omega
  refine .cons (.forward (sampleBlock .conway slot) ⟨rfl, Era.noConfusion, .inr hstart⟩
    fun _ h => nomatch h) (.cons ?_ (.nil []))
  have hback : Follow some (.specific start 0) [sampleBlock .conway slot]
      (.rollBackward (.specific start 0)) _ := .backward (.specific start 0) (.inl rfl)
  rwa [dropWhile_cons_of_pos (by simpa using hne)] at hback

theorem handled_sampleForward :
    Handled 5 [sampleForward .conway 10, .rollBackward (.specific 7 0)] := by
  intro p hp
  have hp' : p = .specific 7 0 := by simpa [sampleForward] using hp
  rw [hp']
  decide

/-- A block after the horizon is applied, cached, unapplied and unlinked again. -/
theorem sampleBlock_faithful :
    Handled 5 [sampleForward .conway 10, .rollBackward (.specific 7 0)] ∧
      ∃ out, ledgerTransactions some 5 none .empty
          [sampleForward .conway 10, .rollBackward (.specific 7 0)] = .ok out ∧
        Folds [] out.events [] := by
  obtain ⟨out, hrun, hfolds, -⟩ :=
    ledgerTransactions_faithful (follows_sampleBlock 10 (by decide)) handled_sampleForward
  exact ⟨handled_sampleForward, out, hrun, hfolds⟩

/-- A rollback to a point before the horizon is not handled, blocks before the Babbage era are not
unpacked, those of the Byron era stop the stream, and blocks before the horizon are not cached. -/
theorem sampleBlock_unfaithful :
    (∃ out, Follows some (.specific 3 0) []
        [sampleForward .conway 10, .rollBackward (.specific 3 0)] [] ∧
      ledgerTransactions some 5 none .empty
        [sampleForward .conway 10, .rollBackward (.specific 3 0)] = .ok out ∧
      ¬ Folds [] out.events []) ∧
    (∃ out, ledgerTransactions some 5 none .empty [sampleForward .alonzo 10] = .ok out ∧
      ¬ Folds [] out.events (sampleBlock .alonzo 10).blk.validTransactions) ∧
    ledgerTransactions some 5 none .empty [sampleForward .byron 10] =
      .error (.explicit "Unsupported block header type") ∧
    ∃ out, ledgerTransactions some 5 none .empty [sampleForward .conway 4] = .ok out ∧
      Walk (empty.execute out.ops).getBlock LinkedBlock.prevPoint
        ((empty.execute out.ops).tip.getD .origin) [] (sampleBlock .conway 4).point := by
  refine ⟨⟨_, follows_sampleBlock 10 (by decide), rfl, ?_⟩, ⟨_, rfl, ?_⟩, rfl, _, rfl, .nil _, rfl⟩
  · intro h
    cases h with
    | applied h => cases h
  · intro h
    cases h

end Splash.ChainSync
