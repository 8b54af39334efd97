import Splash.ChainSync.EventSource

/-!
# The flow of blocks

`AtomicFlow` hands every block down as a whole and waits until it is committed before the cache is
changed. At its start it hands down the blocks that are read back from the cache, and caches each
of them once more, linked to the tip of that moment.

* `step_spec`, `upstream_spec` — the flow follows the chain of the node.
* `forwardAll_spec` — blocks that are cached anew are linked down to the old tip.
* `replay_intact_iff` — a replay keeps the links intact just when it replays nothing.
-/

namespace Splash.ChainSync

open Lib LedgerCache List

variable {TB TW AD R : Type}

inductive BlockEvents (T : Type) where
  | rollForward (events : List T) (blockNum blockSlot : ℕ)
  | rollBackward (events : List T) (blockNum blockSlot : ℕ)

namespace AtomicFlow

section Source

variable (fromCborBytes : R → Option (MultiEraBlock TB TW AD))

def appliedTxs (blk : MultiEraBlock TB TW AD) : BlockEvents (Transaction TB TW AD) :=
  .rollForward (blk.unpackValidTransactionsMultiEra.map (·.tx)) blk.header.blockNumber
    blk.header.slot

def unappliedTxs (blk : MultiEraBlock TB TW AD) : BlockEvents (Transaction TB TW AD) :=
  .rollBackward (blk.unpackValidTransactionsMultiEra.map (·.tx)).reverse blk.header.blockNumber
    blk.header.slot

/-- Hands a block down and caches it. -/
def forward (cache : LedgerCache R) (b : RawBlock TB TW AD R) :
    Exec (Output TB TW AD R (BlockEvents (Transaction TB TW AD))) := do
  let _ ← b.blk.point
  pure ⟨[cacheBlock cache b], [appliedTxs b.blk]⟩

def forwardAll : LedgerCache R → List (RawBlock TB TW AD R) →
    Exec (Output TB TW AD R (BlockEvents (Transaction TB TW AD)))
  | _, [] => .ok ⟨[], []⟩
  | cache, b :: bs => do
    let o ← forward cache b
    let rest ← forwardAll (cache.execute o.ops) bs
    pure (o.append rest)

/-- The first part of `run`: the blocks read back from the cache. -/
def replay (replayFrom : Option Point) (cache : LedgerCache R) :
    Exec (Output TB TW AD R (BlockEvents (Transaction TB TW AD))) :=
  forwardAll cache (replayedBlocks fromCborBytes replayFrom cache)

/-- A message of the node. The loop of a rollback is that of the event source; a block is handed
down and committed before it is unlinked. -/
def step (cache : LedgerCache R) :
    ChainUpgrade TB TW AD R → Exec (Output TB TW AD R (BlockEvents (Transaction TB TW AD)))
  | .rollForward blk blkBytes _ => forward cache ⟨blk, blkBytes⟩
  | .rollBackward point => do
    let unwound ← rollback fromCborBytes point cache
    pure ⟨unwound.log, unwound.events.map unappliedTxs⟩

/-- The second part of `run`: the messages of the node. -/
def upstream : LedgerCache R → List (ChainUpgrade TB TW AD R) →
    Exec (Output TB TW AD R (BlockEvents (Transaction TB TW AD)))
  | _, [] => .ok ⟨[], []⟩
  | cache, u :: us => do
    let o ← step fromCborBytes cache u
    let rest ← upstream (cache.execute o.ops) us
    pure (o.append rest)

/-- `AtomicFlow` from its start: the replay, then the messages of the node. -/
def run (replayFrom : Option Point) (cache : LedgerCache R)
    (us : List (ChainUpgrade TB TW AD R)) :
    Exec (Output TB TW AD R (BlockEvents (Transaction TB TW AD))) := do
  let o ← replay fromCborBytes replayFrom cache
  let rest ← upstream fromCborBytes (cache.execute o.ops) us
  pure (o.append rest)

end Source

/-! ## Following the chain of the node -/

section Flow

variable {fromCborBytes : R → Option (MultiEraBlock TB TW AD)} {base start : Point}
  {cache : LedgerCache R} {c c' : List (RawBlock TB TW AD R)}

theorem forward_eq {b : RawBlock TB TW AD R} (hsent : b.Sent fromCborBytes start) :
    forward cache b = .ok ⟨[cacheBlock cache b], [appliedTxs b.blk]⟩ := by
  unfold forward
  rw [hsent.point_eq]
  rfl

section

variable (h : Holds fromCborBytes 0 base start cache c)
include h

theorem step_rollBackward (p : Point) :
    ∃ log, step fromCborBytes cache (.rollBackward p) =
        .ok ⟨log, (c.takeWhile (·.point ≠ p)).map fun b => unappliedTxs b.blk⟩ ∧
      SoundLog fromCborBytes 0 base start cache c log ∧
      log.foldl CacheStep.follow c = c.dropWhile (·.point ≠ p) := by
  have hkept : ∀ b ∈ c.takeWhile (·.point ≠ p), 0 ≤ b.slot := fun b _ => Nat.zero_le b.slot
  obtain ⟨log, hrun, hlog, hchain⟩ := rollback_spec h hkept
  refine ⟨log, ?_, hlog, hchain⟩
  show (rollback fromCborBytes p cache >>= _) = _
  rw [hrun]
  show Except.ok (⟨log, List.map unappliedTxs (List.map _ _)⟩ : Output TB TW AD R _) = _
  rw [map_map]
  rfl

theorem step_spec {u : ChainUpgrade TB TW AD R} (hu : Follow fromCborBytes start c u c') :
    ∃ o, step fromCborBytes cache u = .ok o ∧
      Holds fromCborBytes 0 base start (cache.execute o.ops) c' := by
  cases hu with
  | forward b hsent hslot =>
    refine ⟨_, forward_eq hsent, ?_⟩
    rw [Output.ops_cons, flatMap_nil, append_nil]
    exact h.cacheBlock hslot hsent (Nat.zero_le _)
  | backward p hp =>
    obtain ⟨log, hrun, hlog, hchain⟩ := step_rollBackward h p
    refine ⟨_, hrun, ?_⟩
    rw [← hchain]
    exact hlog.holds h

theorem upstream_spec {us : List (ChainUpgrade TB TW AD R)}
    (hus : Follows fromCborBytes start c us c') :
    ∃ o, upstream fromCborBytes cache us = .ok o ∧
      Holds fromCborBytes 0 base start (cache.execute o.ops) c' := by
  induction hus generalizing cache with
  | nil c => exact ⟨⟨[], []⟩, rfl, h⟩
  | cons hu _ ih =>
    obtain ⟨o, hrun, hholds⟩ := step_spec h hu
    obtain ⟨o', hrun', hholds'⟩ := ih hholds
    refine ⟨o.append o', ?_, ?_⟩
    · unfold upstream
      rw [hrun]
      show (upstream fromCborBytes (cache.execute o.ops) _ >>= _) = _
      rw [hrun']
      rfl
    · rw [Output.ops_append, execute_append]
      exact hholds'

/-! ## Replay -/

/-- The point of the newest of some blocks, or else the tip. -/
def tipAfter (cache : LedgerCache R) (bs : List (RawBlock TB TW AD R)) : Point :=
  (bs.getLast?.map (·.point)).getD (cache.tip.getD .origin)

omit h in
/-- Blocks that are cached one after another are linked down to the tip there was before. -/
theorem forwardAll_spec (cache : LedgerCache R) {bs : List (RawBlock TB TW AD R)}
    (hsent : ∀ b ∈ bs, b.Sent fromCborBytes start)
    (hslots : bs.Pairwise fun older newer => older.slot < newer.slot) :
    ∃ o, forwardAll cache bs = .ok o ∧
      (cache.execute o.ops).tip.getD .origin = tipAfter cache bs ∧
      (∀ p, (∀ b ∈ bs, b.point ≠ p) → (cache.execute o.ops).getBlock p = cache.getBlock p) ∧
      ∃ l, l.length = bs.length ∧
        Trail (cache.execute o.ops).getBlock LinkedBlock.prevPoint (tipAfter cache bs) l
          (cache.tip.getD .origin) := by
  induction bs generalizing cache with
  | nil => exact ⟨⟨[], []⟩, rfl, rfl, fun _ _ => rfl, [], rfl, .nil _⟩
  | cons b bs ih =>
    obtain ⟨hb, hbs⟩ := forall_mem_cons.1 hsent
    obtain ⟨hlt, hrest⟩ := pairwise_cons.1 hslots
    obtain ⟨o, hrun, htip, hframe, l, hlen, htrail⟩ :=
      ih (cache.execute (cacheBlock cache b).ops) hbs hrest
    have hops : cache.execute (Output.append ⟨[cacheBlock cache b], [appliedTxs b.blk]⟩ o).ops =
        (cache.execute (cacheBlock cache b).ops).execute o.ops := by
      rw [Output.ops_append, execute_append, Output.ops_cons, flatMap_nil,
        append_nil]
    have htipAfter : tipAfter (cache.execute (cacheBlock cache b).ops) bs =
        tipAfter cache (b :: bs) := by
      unfold tipAfter
      cases bs with
      | nil => rfl
      | cons b' bs => simp [List.getLast?_cons]
    refine ⟨.append ⟨[cacheBlock cache b], [appliedTxs b.blk]⟩ o, ?_, ?_, ?_, ?_⟩
    · unfold forwardAll
      rw [forward_eq hb]
      show (forwardAll (cache.execute (cacheBlock cache b).ops) bs >>= _) = _
      rw [hrun]
      rfl
    · rw [hops, htip, htipAfter]
    · intro p hp
      obtain ⟨hpb, hpbs⟩ := forall_mem_cons.1 hp
      rw [hops, hframe p hpbs]
      show (cache.blocks.insert b.point _).get? p = cache.blocks.get? p
      rw [OrdMap.get?_insert, if_neg hpb.symm]
    · -- the first block keeps the link to the tip there was before it
      have hget : ((cache.execute (cacheBlock cache b).ops).execute o.ops).getBlock b.point =
          some ⟨b.bytes, cache.tip.getD .origin⟩ := by
        rw [hframe b.point fun b' hb' => (RawBlock.point_lt (hlt b' hb')).ne']
        show (cache.blocks.insert b.point _).get? b.point = _
        rw [OrdMap.get?_insert, if_pos rfl]
        rfl
      refine ⟨l ++ [(b.point, ⟨b.bytes, cache.tip.getD .origin⟩)], ?_, ?_⟩
      · rw [length_append, hlen]
        rfl
      · rw [hops, ← htipAfter]
        exact htrail.append (.cons hget (.nil _))

/-- Two caches whose links, followed from the tip, visit the same blocks and then stop. -/
def SameLinks (cache cache' : LedgerCache R) : Prop :=
  ∃ l stop, Walk cache.getBlock LinkedBlock.prevPoint (cache.tip.getD .origin) l stop ∧
    Walk cache'.getBlock LinkedBlock.prevPoint (cache'.tip.getD .origin) l stop

/-- After any messages of the node a rollback returns, and hands down the blocks after its target
once each, the newest one first. -/
def RollsBack (fromCborBytes : R → Option (MultiEraBlock TB TW AD)) (start : Point)
    (cache : LedgerCache R) (c : List (RawBlock TB TW AD R)) : Prop :=
  ∀ us c' p, Follows fromCborBytes start c us c' → (p = start ∨ ∃ b ∈ c', b.point = p) →
    ∃ o log, upstream fromCborBytes cache us = .ok o ∧
      step fromCborBytes (cache.execute o.ops) (.rollBackward p) =
        .ok ⟨log, (c'.takeWhile (·.point ≠ p)).map fun b => unappliedTxs b.blk⟩

theorem rollsBack_of_holds :
    RollsBack fromCborBytes start cache c := by
  intro us c' p hus _
  obtain ⟨o, hrun, hholds⟩ := upstream_spec h hus
  obtain ⟨log, hstep, -⟩ := step_rollBackward hholds p
  exact ⟨o, log, hrun, hstep⟩

theorem replayedBlocks_some (p : Point) :
    replayedBlocks fromCborBytes (some p) cache = (c.filter (p ≤ ·.point)).reverse := by
  have hreplay := h.replay_eq p
  simp only [Nat.zero_le, true_and] at hreplay
  exact hreplay

theorem tipAfter_replayed {p : Point} {b : RawBlock TB TW AD R} (hb : b ∈ c) (hp : p ≤ b.point) :
    tipAfter cache (c.filter (p ≤ ·.point)).reverse = cache.tip.getD .origin := by
  cases c with
  | nil => cases hb
  | cons b₀ c =>
    have hp₀ : p ≤ b₀.point := by
      rcases mem_cons.1 hb with rfl | hb
      · exact hp
      · exact hp.trans (RawBlock.point_lt (h.slot_lt b hb)).le
    have htip : cache.tip = some b₀.point := h.getTip_cons
    unfold tipAfter
    rw [List.getLast?_reverse, filter_cons_of_pos (by simpa using hp₀), htip]
    rfl

/-- **A replay keeps the chain in the cache intact just when it replays nothing.** As soon as a
block is read back, the oldest such block is linked to the tip, and the links run in a circle. -/
theorem replay_intact_iff (replayFrom : Option Point) :
    ∃ out, replay fromCborBytes replayFrom cache = .ok out ∧
      (SameLinks cache (cache.execute out.ops) ∧
          RollsBack fromCborBytes start (cache.execute out.ops) c ↔
        ∀ p, replayFrom = some p → ∀ b ∈ c, b.point < p) := by
  have hintact : SameLinks cache cache ∧ RollsBack fromCborBytes start cache c := by
    have hwalk := h.walk
    rw [← h.getTip_getD] at hwalk
    exact ⟨⟨_, _, hwalk, hwalk⟩, rollsBack_of_holds h⟩
  cases replayFrom with
  | none => exact ⟨⟨[], []⟩, rfl, fun _ _ hp => (nomatch hp), fun _ => hintact⟩
  | some p =>
    by_cases hall : ∀ b ∈ c, b.point < p
    · refine ⟨⟨[], []⟩, ?_, fun _ q hq => Option.some.inj hq ▸ hall, fun _ => hintact⟩
      have hnil : c.filter (p ≤ ·.point) = [] :=
        filter_eq_nil_iff.2 fun b hb => by simpa using hall b hb
      unfold replay
      rw [replayedBlocks_some h, hnil]
      rfl
    · obtain ⟨b, hb, hp⟩ : ∃ b ∈ c, p ≤ b.point := by simpa using hall
      have hsent : ∀ b ∈ (c.filter (p ≤ ·.point)).reverse, b.Sent fromCborBytes start :=
        fun b hb => h.sent b (mem_of_mem_filter (mem_reverse.1 hb))
      obtain ⟨o, hrun, htip, -, l, hlen, htrail⟩ := forwardAll_spec cache hsent
        (pairwise_reverse.2 (h.slots.filter _))
      rw [tipAfter_replayed h hb hp] at htip htrail
      refine ⟨o, ?_, fun hsame => ?_, fun hlt => absurd (hlt p rfl) hall⟩
      · unfold replay
        rw [replayedBlocks_some h]
        exact hrun
      · -- the trail of the replayed blocks leads from the tip back to the tip
        obtain ⟨⟨m, stop, -, hwalk⟩, -⟩ := hsame
        have hne : l ≠ [] := by
          rintro rfl
          have hmem : b ∈ (c.filter (p ≤ ·.point)).reverse :=
            mem_reverse.2 (mem_filter.2 ⟨hb, by simpa using hp⟩)
          rw [eq_nil_of_length_eq_zero hlen.symm] at hmem
          cases hmem
        rw [htip] at hwalk
        exact absurd hwalk (not_walk_of_cycle htrail hne m stop)

end

end Flow

/-- The cache after two blocks of a chain that starts at slot 7. -/
theorem holds_sampleBlocks :
    ∃ o, upstream some .empty [sampleForward .conway 10, sampleForward .conway 20] = .ok o ∧
      Holds some 0 .origin (.specific 7 0) (empty.execute o.ops)
        [sampleBlock .conway 20, sampleBlock .conway 10] := by
  have hsent : ∀ slot, 7 < slot →
      (sampleBlock .conway slot).Sent some (.specific 7 0) := fun slot hslot =>
    ⟨rfl, Era.noConfusion, .inr hslot⟩
  refine upstream_spec .empty (.cons (.forward _ (hsent 10 (by decide)) fun _ h => nomatch h)
    (.cons (.forward _ (hsent 20 (by decide)) fun b hb => ?_) (.nil _)))
  rw [mem_singleton.1 hb]
  decide

/-- A replay from a point after the tip keeps the chain. -/
theorem sampleBlocks_intact :
    ∃ o out, upstream some .empty [sampleForward .conway 10, sampleForward .conway 20] = .ok o ∧
      replay some (some (.specific 30 0)) (empty.execute o.ops) = .ok out ∧
      SameLinks (empty.execute o.ops)
        ((empty.execute o.ops).execute out.ops) := by
  obtain ⟨o, hrun, hholds⟩ := holds_sampleBlocks
  obtain ⟨out, hreplay, hiff⟩ := replay_intact_iff hholds (some (.specific 30 0))
  refine ⟨o, out, hrun, hreplay, (hiff.2 fun p hp b hb => ?_).1⟩
  cases hp
  rcases mem_cons.1 hb with rfl | hb
  · exact Point.lt_of_slot_lt (by decide)
  · rw [mem_singleton.1 hb]
    exact Point.lt_of_slot_lt (by decide)

/-- After the second of two blocks was replayed, a rollback before the first one hands down the
second block only, and leaves the tip at a block that is not stored. -/
theorem sampleBlocks_relinked :
    ∃ o out o', upstream some .empty [sampleForward .conway 10, sampleForward .conway 20] = .ok o ∧
      replay some (some (.specific 20 20)) (empty.execute o.ops) = .ok out ∧
      step some ((empty.execute o.ops).execute out.ops)
        (.rollBackward (.specific 7 0)) = .ok o' ∧
      o'.events = [unappliedTxs (sampleBlock .conway 20).blk] ∧
      (((empty.execute o.ops).execute out.ops).execute o'.ops).tip =
        some (.specific 20 20) ∧
      (((empty.execute o.ops).execute out.ops).execute o'.ops).getBlock
        (.specific 20 20) = none :=
  ⟨_, _, _, rfl, rfl, rfl, rfl, rfl, rfl⟩

end AtomicFlow

end Splash.ChainSync
