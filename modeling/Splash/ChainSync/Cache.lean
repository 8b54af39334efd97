import Splash.Lib.Exec
import Splash.Lib.Links
import Splash.Lib.OrdMap

/-!
# The cache of ledger blocks

The chain-sync component keeps the blocks it has followed in a key-value store: the tip under one
key, and every block under its point, together with the point of the block before it. A block is
cached, and unlinked again in a rollback, by two single operations of the store.

* `CacheStep.ops` — the single operations of every way the cache is changed.
* `Holds` — the cache holds a chain, listed from its newest block.
* `Holds.cacheBlock`, `Holds.unlink` — the cache follows the chain forward and backward.
* `Holds.walk` — following the links from the tip visits the cached blocks of the chain.
* `Holds.replay_eq` — replay reads back the cached blocks from a point on.
-/

namespace Splash.ChainSync

open Lib List OrdMap

/-! ## Points and blocks -/

/-- A point of the chain; a hash is the number its bytes spell. -/
inductive Point where
  | origin
  | specific (slot hash : ℕ)
  deriving DecidableEq

namespace Point

def getSlot : Point → ℕ
  | origin => 0
  | specific slot _ => slot

/-- The key a point is stored under: its slot, then the bytes of its hash. -/
def pointKey : Point → ℕ ×ₗ ℕ
  | origin => toLex (0, 0)
  | specific slot hash => toLex (slot, hash + 1)

theorem pointKey_injective : Function.Injective pointKey := by
  intro p q h
  have hfst : (ofLex (pointKey p)).1 = (ofLex (pointKey q)).1 := congrArg (fun k => (ofLex k).1) h
  have hsnd : (ofLex (pointKey p)).2 = (ofLex (pointKey q)).2 := congrArg (fun k => (ofLex k).2) h
  cases p with
  | origin =>
    cases q with
    | origin => rfl
    | specific => exact absurd hsnd (Nat.succ_ne_zero _).symm
  | specific s x =>
    cases q with
    | origin => exact absurd hsnd (Nat.succ_ne_zero _)
    | specific s' x' =>
      have hslot : s = s' := hfst
      have hhash : x = x' := Nat.succ_injective hsnd
      rw [hslot, hhash]

instance : LinearOrder Point := LinearOrder.lift' pointKey pointKey_injective

theorem lt_of_slot_lt {s s' x x' : ℕ} (h : s < s') : specific s x < specific s' x' :=
  Prod.Lex.toLex_lt_toLex.2 (.inl h)

end Point

inductive Era where
  | byron
  | shelley
  | allegra
  | mary
  | alonzo
  | babbage
  | conway
  deriving DecidableEq

structure Header where
  slot : ℕ
  blockNumber : ℕ
  /-- The hash of the header. -/
  hash : ℕ
  deriving DecidableEq

/-- A block of the ledger. Transactions are counted by 16-bit indices. -/
structure MultiEraBlock (TB TW AD : Type) where
  era : Era
  header : Header
  transactionBodies : List TB
  transactionWitnessSets : List TW
  auxiliaryDataSet : OrdMap ℕ AD
  invalidTransactions : List ℕ
  /-- The hash of the block as a whole. -/
  digest : ℕ
  indexed : transactionBodies.length ≤ 2 ^ 16

structure Transaction (TB TW AD : Type) where
  body : TB
  witnessSet : TW
  isValid : Bool
  auxiliaryData : Option AD

structure LedgerTx (TB TW AD : Type) where
  tx : Transaction TB TW AD
  slot : ℕ
  blockNumber : ℕ
  blockHash : ℕ

variable {TB TW AD R : Type}

namespace MultiEraBlock

variable (blk : MultiEraBlock TB TW AD)

/-- The point of a block; the headers of the Byron era are not supported. -/
def point : Exec Point :=
  if blk.era = .byron then .error (.explicit "Unsupported block header type")
  else .ok (.specific blk.header.slot blk.header.hash)

/-- The transactions of a block that its list of invalid indices does not name. -/
def unpackValid : List (LedgerTx TB TW AD) :=
  ((blk.transactionBodies.zip blk.transactionWitnessSets).zipIdx.filter fun e =>
    !blk.invalidTransactions.contains (e.2 % 2 ^ 16)).map fun e =>
      { tx :=
          { body := e.1.1
            witnessSet := e.1.2
            isValid := true
            -- every index is met once, so taking the entry out of the set reads it
            auxiliaryData := blk.auxiliaryDataSet.get? (e.2 % 2 ^ 16) }
        slot := blk.header.slot
        blockNumber := blk.header.blockNumber
        blockHash := blk.digest }

/-- Blocks before the Babbage era are not unpacked. -/
def unpackValidTransactionsMultiEra : List (LedgerTx TB TW AD) :=
  match blk.era with
  | .babbage => blk.unpackValid
  | .conway => blk.unpackValid
  | _ => []

def validTransactions : List (LedgerTx TB TW AD) :=
  ((blk.transactionBodies.zip blk.transactionWitnessSets).zipIdx.filter fun e =>
    !blk.invalidTransactions.contains e.2).map fun e =>
      { tx :=
          { body := e.1.1
            witnessSet := e.1.2
            isValid := true
            auxiliaryData := blk.auxiliaryDataSet.get? e.2 }
        slot := blk.header.slot
        blockNumber := blk.header.blockNumber
        blockHash := blk.digest }

theorem unpackValid_eq :
    blk.unpackValid = blk.validTransactions := by
  -- sixteen bits are enough for the index of every transaction
  have hix : ∀ e ∈ (blk.transactionBodies.zip blk.transactionWitnessSets).zipIdx,
      e.2 % 2 ^ 16 = e.2 := by
    intro e he
    have hlt := snd_lt_add_of_mem_zipIdx he
    have hlen := blk.indexed
    rw [length_zip] at hlt
    exact Nat.mod_eq_of_lt (by omega)
  unfold unpackValid validTransactions
  rw [filter_congr fun e he => by rw [hix e he]]
  apply map_congr_left
  intro e he
  rw [hix e (mem_of_mem_filter he)]

theorem unpackValidTransactionsMultiEra_eq :
    blk.unpackValidTransactionsMultiEra =
      if blk.era = .babbage ∨ blk.era = .conway then blk.validTransactions else [] := by
  unfold unpackValidTransactionsMultiEra
  rw [unpackValid_eq]
  cases blk.era <;> rfl

end MultiEraBlock

structure RawBlock (TB TW AD R : Type) where
  blk : MultiEraBlock TB TW AD
  bytes : R

namespace RawBlock

variable (b : RawBlock TB TW AD R)

def slot : ℕ := b.blk.header.slot

def point : Point := .specific b.blk.header.slot b.blk.header.hash

@[simp] theorem getSlot_point : b.point.getSlot = b.slot := rfl

theorem point_lt {b b' : RawBlock TB TW AD R} (h : b.slot < b'.slot) : b.point < b'.point :=
  Point.lt_of_slot_lt h

theorem point_ne_origin : b.point ≠ .origin := Point.noConfusion

/-- A block the client hands on when it follows a chain after `start`: its bytes were decoded, and
its era is supported. -/
structure Sent (fromCborBytes : R → Option (MultiEraBlock TB TW AD)) (start : Point)
    (b : RawBlock TB TW AD R) : Prop where
  decoded : fromCborBytes b.bytes = some b.blk
  supported : b.blk.era ≠ .byron
  started : start = .origin ∨ start.getSlot < b.slot

namespace Sent

variable {fromCborBytes : R → Option (MultiEraBlock TB TW AD)} {start : Point}
  {b : RawBlock TB TW AD R}

theorem point_eq (h : b.Sent fromCborBytes start) : b.blk.point = .ok b.point := if_neg h.supported

theorem point_ne_start (h : b.Sent fromCborBytes start) : b.point ≠ start := by
  rintro rfl
  rcases h.started with horigin | hlt
  · exact b.point_ne_origin horigin
  · exact lt_irrefl _ hlt

end Sent

end RawBlock

/-! ## The store -/

/-- The stored bytes of a block and the point of the block before it. -/
structure LinkedBlock (R : Type) where
  bytes : R
  prevPoint : Point
  deriving DecidableEq

structure LedgerCache (R : Type) where
  tip : Option Point
  blocks : OrdMap Point (LinkedBlock R)
  deriving DecidableEq

inductive StoreOp (R : Type) where
  | setTip (p : Point)
  | putBlock (p : Point) (b : LinkedBlock R)
  | delete (p : Point)

namespace LedgerCache

def empty : LedgerCache R := ⟨none, .empty⟩

variable (c : LedgerCache R)

def getTip : Option Point := c.tip

def getBlock (p : Point) : Option (LinkedBlock R) := c.blocks.get? p

/-- The stored blocks from the key of a point on, in the order of their keys. -/
def replay (fromPoint : Point) : List (LinkedBlock R) :=
  (c.blocks.toList.dropWhile (·.1 < fromPoint)).map Prod.snd

def apply : StoreOp R → LedgerCache R
  | .setTip p => { c with tip := some p }
  | .putBlock p b => { c with blocks := c.blocks.insert p b }
  | .delete p => { c with blocks := c.blocks.erase p }

def execute (ops : List (StoreOp R)) : LedgerCache R := ops.foldl apply c

@[simp] theorem execute_nil : c.execute [] = c := rfl

@[simp] theorem execute_cons (op : StoreOp R) (ops : List (StoreOp R)) :
    c.execute (op :: ops) = (c.apply op).execute ops := rfl

@[simp] theorem execute_append (ops ops' : List (StoreOp R)) :
    c.execute (ops ++ ops') = (c.execute ops).execute ops' :=
  foldl_append

end LedgerCache

/-- The ways the cache is changed: a point or a block is cached, a block is unlinked. -/
inductive CacheStep (TB TW AD R : Type) where
  | point (b : RawBlock TB TW AD R)
  | block (b : RawBlock TB TW AD R) (prevPoint : Point)
  | unlink (tip prevPoint : Point)

namespace CacheStep

/-- The operations of a change, in the order in which they are issued. -/
def ops : CacheStep TB TW AD R → List (StoreOp R)
  | .point b => [.setTip b.point]
  | .block b prevPoint => [.setTip b.point, .putBlock b.point ⟨b.bytes, prevPoint⟩]
  | .unlink tip prevPoint => [.delete tip, .setTip prevPoint]

/-- What a change does to the chain, listed from its newest block. -/
def follow (c : List (RawBlock TB TW AD R)) :
    CacheStep TB TW AD R → List (RawBlock TB TW AD R)
  | .point b => b :: c
  | .block b _ => b :: c
  | .unlink _ _ => c.tail

end CacheStep

def cachePoint (b : RawBlock TB TW AD R) : CacheStep TB TW AD R := .point b

def cacheBlock (c : LedgerCache R) (b : RawBlock TB TW AD R) : CacheStep TB TW AD R :=
  .block b (c.getTip.getD .origin)

/-! ## The chain in the store -/

/-- The newest point of a chain that starts after `base`. -/
def tipPoint (base : Point) : List (RawBlock TB TW AD R) → Point
  | [] => base
  | b :: _ => b.point

/-- The records of the blocks from the slot `since` on, each linked to the block before it. -/
def links (since : ℕ) (base : Point) :
    List (RawBlock TB TW AD R) → List (Point × LinkedBlock R)
  | [] => []
  | b :: c =>
    if since ≤ b.slot then (b.point, ⟨b.bytes, tipPoint base c⟩) :: links since base c
    else links since base c

/-- The cache holds a chain that starts after `start`, with `base` as the link of its first block.
Blocks are cached from the slot `since` on, older ones only leave their point. -/
structure Holds (fromCborBytes : R → Option (MultiEraBlock TB TW AD)) (since : ℕ)
    (base start : Point) (cache : LedgerCache R) (c : List (RawBlock TB TW AD R)) : Prop where
  tip : cache.tip = some (tipPoint base c) ∨ cache.tip = none ∧ c = [] ∧ base = .origin
  blocks : cache.blocks.toList = (links since base c).reverse
  slots : c.Pairwise fun newer older => older.slot < newer.slot
  base_eq : base = .origin ∨ base = start
  sent : ∀ b ∈ c, b.Sent fromCborBytes start

section

variable {since : ℕ} {base : Point} {c : List (RawBlock TB TW AD R)}

theorem mem_of_mem_links {e : Point × LinkedBlock R} (he : e ∈ links since base c) :
    ∃ b ∈ c, since ≤ b.slot ∧ e.1 = b.point ∧ e.2.bytes = b.bytes := by
  induction c with
  | nil => cases he
  | cons b c ih =>
    have hrec : e ∈ links since base c →
        ∃ b' ∈ b :: c, since ≤ b'.slot ∧ e.1 = b'.point ∧ e.2.bytes = b'.bytes := fun h =>
      let ⟨b', hb', hrest⟩ := ih h
      ⟨b', mem_cons_of_mem _ hb', hrest⟩
    unfold links at he
    split at he
    case isTrue hkept =>
      rcases mem_cons.1 he with rfl | he
      · exact ⟨b, mem_cons_self, hkept, rfl, rfl⟩
      · exact hrec he
    case isFalse => exact hrec he

theorem links_of_lt (h : ∀ b ∈ c, b.slot < since) : links since base c = [] := by
  apply eq_nil_iff_forall_not_mem.2
  intro e he
  obtain ⟨b, hb, hkept, -⟩ := mem_of_mem_links he
  exact absurd hkept (h b hb).not_ge

/-- The records of a chain, found in a store, are the trail from its tip. -/
theorem trail_links {get : Point → Option (LinkedBlock R)}
    (hslots : c.Pairwise fun newer older => older.slot < newer.slot)
    (hget : ∀ e ∈ links since base c, get e.1 = some e.2) :
    Trail get LinkedBlock.prevPoint (tipPoint base c) (links since base c)
      (tipPoint base (c.dropWhile (since ≤ ·.slot))) := by
  induction c with
  | nil => exact .nil base
  | cons b c ih =>
    obtain ⟨hlt, hrest⟩ := pairwise_cons.1 hslots
    by_cases hkept : since ≤ b.slot
    · rw [links, if_pos hkept] at hget ⊢
      obtain ⟨hb, hc⟩ := forall_mem_cons.1 hget
      rw [dropWhile_cons_of_pos (by simpa using hkept)]
      exact .cons hb (ih hrest hc)
    · -- blocks before one that is not cached are not cached either
      have hnil : links since base (b :: c) = [] := by
        apply links_of_lt
        intro b' hb'
        rcases mem_cons.1 hb' with rfl | hb'
        · exact not_le.1 hkept
        · exact (hlt b' hb').trans (not_le.1 hkept)
      rw [hnil, dropWhile_cons_of_neg (by simpa using hkept)]
      exact .nil _

end

namespace Holds

variable {fromCborBytes : R → Option (MultiEraBlock TB TW AD)} {since : ℕ} {base start : Point}
  {cache : LedgerCache R} {c : List (RawBlock TB TW AD R)} {b : RawBlock TB TW AD R}

theorem empty : Holds fromCborBytes since .origin start LedgerCache.empty [] where
  tip := .inr ⟨rfl, rfl, rfl⟩
  blocks := rfl
  slots := .nil
  base_eq := .inl rfl
  sent := fun _ h => nomatch h

theorem getTip_getD (h : Holds fromCborBytes since base start cache c) :
    cache.getTip.getD .origin = tipPoint base c := by
  unfold LedgerCache.getTip
  obtain htip | ⟨htip, rfl, rfl⟩ := h.tip
  · rw [htip]
    rfl
  · rw [htip]
    rfl

theorem getTip_cons (h : Holds fromCborBytes since base start cache (b :: c)) :
    cache.getTip = some b.point := by
  obtain htip | ⟨-, hnil, -⟩ := h.tip
  · exact htip
  · cases hnil

section

variable (h : Holds fromCborBytes since base start cache c)
include h

theorem getBlock_of_mem
    {e : Point × LinkedBlock R} (he : e ∈ links since base c) :
    cache.getBlock e.1 = some e.2 :=
  mem_toList_iff.1 (h.blocks ▸ mem_reverse.2 he)

theorem mem_of_getBlock {p : Point}
    {lb : LinkedBlock R} (hget : cache.getBlock p = some lb) : (p, lb) ∈ links since base c := by
  have hmem : (p, lb) ∈ cache.blocks.toList := mem_toList_iff.2 hget
  exact mem_reverse.1 (h.blocks ▸ hmem)

theorem getBlock_eq_none {p : Point}
    (hp : ∀ b ∈ c, since ≤ b.slot → b.point ≠ p) : cache.getBlock p = none := by
  cases hget : cache.getBlock p with
  | none => rfl
  | some lb =>
    obtain ⟨b, hb, hkept, hpoint, -⟩ := mem_of_mem_links (h.mem_of_getBlock hget)
    exact absurd hpoint.symm (hp b hb hkept)

theorem point_ne_base (hb : b ∈ c) :
    b.point ≠ base := by
  rcases h.base_eq with rfl | rfl
  · exact b.point_ne_origin
  · exact (h.sent b hb).point_ne_start

end

theorem slot_lt (h : Holds fromCborBytes since base start cache (b :: c)) :
    ∀ b' ∈ c, b'.slot < b.slot :=
  (pairwise_cons.1 h.slots).1

section

variable (h : Holds fromCborBytes since base start cache c)
include h

section

variable (hslot : ∀ b' ∈ c, b'.slot < b.slot) (hsent : b.Sent fromCborBytes start)
include hslot hsent

omit hsent in
theorem cons_slots :
    (b :: c).Pairwise fun newer older => older.slot < newer.slot :=
  pairwise_cons.2 ⟨hslot, h.slots⟩

theorem cacheBlock (hkept : since ≤ b.slot) :
    Holds fromCborBytes since base start (cache.execute (cacheBlock cache b).ops) (b :: c) where
  tip := .inl rfl
  blocks := by
    have hlt : ∀ e ∈ cache.blocks.toList, e.1 < b.point := by
      intro e he
      obtain ⟨b', hb', -, hpoint, -⟩ := mem_of_mem_links (mem_reverse.1 (h.blocks ▸ he))
      exact hpoint ▸ RawBlock.point_lt (hslot b' hb')
    show (cache.blocks.insert b.point _).toList = _
    rw [toList_insert_of_lt hlt, h.blocks, h.getTip_getD]
    simp [links, hkept]
  slots := h.cons_slots hslot
  base_eq := h.base_eq
  sent := forall_mem_cons.2 ⟨hsent, h.sent⟩

/-- A block below the horizon only moves the tip. -/
theorem cachePoint (hold : b.slot < since) :
    Holds fromCborBytes since base start (cache.execute (cachePoint b).ops) (b :: c) where
  tip := .inl rfl
  blocks := by
    show cache.blocks.toList = _
    rw [h.blocks, links, if_neg hold.not_ge]
  slots := h.cons_slots hslot
  base_eq := h.base_eq
  sent := forall_mem_cons.2 ⟨hsent, h.sent⟩

end

end

section

variable (h : Holds fromCborBytes since base start cache (b :: c)) (hkept : since ≤ b.slot)
include h hkept

theorem getBlock_tip :
    cache.getBlock b.point = some ⟨b.bytes, tipPoint base c⟩ := by
  apply h.getBlock_of_mem (e := (b.point, ⟨b.bytes, tipPoint base c⟩))
  rw [links, if_pos hkept]
  exact mem_cons_self

theorem unlink :
    Holds fromCborBytes since base start
      (cache.execute
        (CacheStep.unlink b.point (tipPoint base c) : CacheStep TB TW AD R).ops) c where
  tip := .inl rfl
  blocks := by
    have hblocks := h.blocks
    rw [links, if_pos hkept, reverse_cons] at hblocks
    exact toList_erase_concat hblocks
  slots := (pairwise_cons.1 h.slots).2
  base_eq := h.base_eq
  sent := fun b' hb' => h.sent b' (mem_cons_of_mem _ hb')

end

/-- **Following the links from the tip visits the cached blocks of the chain**, and stops where
the chain was not cached. -/
theorem walk (h : Holds fromCborBytes since base start cache c) :
    Walk cache.getBlock LinkedBlock.prevPoint (tipPoint base c) (links since base c)
      (tipPoint base (c.dropWhile (since ≤ ·.slot))) where
  trail := trail_links h.slots fun _ he => h.getBlock_of_mem he
  absent := by
    apply h.getBlock_eq_none
    intro b hb hkept
    cases hrest : c.dropWhile (since ≤ ·.slot) with
    | nil => exact h.point_ne_base hb
    | cons b' rest =>
      have hold : ¬ since ≤ b'.slot := by
        have hhead := List.head?_dropWhile_not (fun b => decide (since ≤ b.slot)) c
        simpa [hrest] using hhead
      intro hpoint
      have hslot : b.slot = b'.slot := congrArg Point.getSlot hpoint
      exact hold (hslot ▸ hkept)

theorem replay_eq (h : Holds fromCborBytes since base start cache c) (fromPoint : Point) :
    (cache.replay fromPoint).filterMap (fun lb =>
        (fromCborBytes lb.bytes).map fun blk => (⟨blk, lb.bytes⟩ : RawBlock TB TW AD R)) =
      (c.filter fun b => since ≤ b.slot ∧ fromPoint ≤ b.point).reverse := by
  unfold LedgerCache.replay
  rw [dropWhile_lt_eq_filter, h.blocks, filter_reverse, map_reverse,
    filterMap_reverse]
  congr 1
  have hsent := h.sent
  clear h
  induction c with
  | nil => rfl
  | cons b c ih =>
    obtain ⟨hb, hc⟩ := forall_mem_cons.1 hsent
    by_cases hkept : since ≤ b.slot
    · by_cases hfrom : fromPoint ≤ b.point
      · simp [links, hkept, hfrom, hb.decoded, ih hc]
      · simp [links, hkept, hfrom, ih hc]
    · simp [links, hkept, ih hc]

end Holds

/-! ## Runs of changes -/

section Sound

variable (fromCborBytes : R → Option (MultiEraBlock TB TW AD)) (since : ℕ)
  (base start : Point)

/-- The changes by which a cache follows its chain. -/
inductive CacheStep.Sound (cache : LedgerCache R) :
    List (RawBlock TB TW AD R) → CacheStep TB TW AD R → Prop where
  | point {c : List (RawBlock TB TW AD R)} {b : RawBlock TB TW AD R}
      (hslot : ∀ b' ∈ c, b'.slot < b.slot) (hsent : b.Sent fromCborBytes start) (hold : b.slot < since) :
      Sound cache c (cachePoint b)
  | block {c : List (RawBlock TB TW AD R)} {b : RawBlock TB TW AD R}
      (hslot : ∀ b' ∈ c, b'.slot < b.slot) (hsent : b.Sent fromCborBytes start) (hkept : since ≤ b.slot) :
      Sound cache c (cacheBlock cache b)
  | unlink {c : List (RawBlock TB TW AD R)} {b : RawBlock TB TW AD R}
      (hkept : since ≤ b.slot) : Sound cache (b :: c) (.unlink b.point (tipPoint base c))

/-- A list of changes, each of which follows the chain that the ones before it leave. -/
def SoundLog : LedgerCache R → List (RawBlock TB TW AD R) →
    List (CacheStep TB TW AD R) → Prop
  | _, _, [] => True
  | cache, c, s :: log =>
    s.Sound fromCborBytes since base start cache c ∧
      SoundLog (cache.execute s.ops) (s.follow c) log

variable {fromCborBytes since base start} {cache : LedgerCache R}
  {c : List (RawBlock TB TW AD R)} {s : CacheStep TB TW AD R}
  {log log' : List (CacheStep TB TW AD R)}

theorem CacheStep.Sound.holds (hs : s.Sound fromCborBytes since base start cache c)
    (h : Holds fromCborBytes since base start cache c) :
    Holds fromCborBytes since base start (cache.execute s.ops) (s.follow c) := by
  cases hs with
  | point hslot hsent hold => exact h.cachePoint hslot hsent hold
  | block hslot hsent hkept => exact h.cacheBlock hslot hsent hkept
  | unlink hkept => exact h.unlink hkept

/-- **A cache that follows its chain step by step holds it in the end.** -/
theorem SoundLog.holds (hlog : SoundLog fromCborBytes since base start cache c log)
    (h : Holds fromCborBytes since base start cache c) :
    Holds fromCborBytes since base start (cache.execute (log.flatMap CacheStep.ops))
      (log.foldl CacheStep.follow c) := by
  induction log generalizing cache c with
  | nil => exact h
  | cons s log ih =>
    obtain ⟨hs, hlog⟩ := hlog
    rw [flatMap_cons, LedgerCache.execute_append]
    exact ih hlog (hs.holds h)

theorem SoundLog.append (hlog : SoundLog fromCborBytes since base start cache c log)
    (hlog' : SoundLog fromCborBytes since base start (cache.execute (log.flatMap CacheStep.ops))
      (log.foldl CacheStep.follow c) log') :
    SoundLog fromCborBytes since base start cache c (log ++ log') := by
  induction log generalizing cache c with
  | nil => exact hlog'
  | cons s log ih =>
    obtain ⟨hs, hlog⟩ := hlog
    rw [flatMap_cons, LedgerCache.execute_append] at hlog'
    exact ⟨hs, ih hlog hlog'⟩

theorem SoundLog.of_append (h : SoundLog fromCborBytes since base start cache c (log ++ log')) :
    SoundLog fromCborBytes since base start cache c log ∧
      SoundLog fromCborBytes since base start (cache.execute (log.flatMap CacheStep.ops))
        (log.foldl CacheStep.follow c) log' := by
  induction log generalizing cache c with
  | nil => exact ⟨trivial, h⟩
  | cons s log ih =>
    obtain ⟨hs, h⟩ := h
    rw [flatMap_cons, LedgerCache.execute_append]
    obtain ⟨hlog, hlog'⟩ := ih h
    exact ⟨⟨hs, hlog⟩, hlog'⟩

end Sound

end Splash.ChainSync
