import Splash.Lib.OrdMap
import Splash.LpIndexer.Position

/-!
# The database of the indexer

The column families of the position database. Records are read in the order of their keys, so that
the positions of a pool come ordered by account and then by epoch.

* `OnChainEvent` — what is read from a block.
* `PositionDB` — the tables.
* `SuspendedPools` — the versions of the set of suspended pools. The slot of the current version is
  stored in MessagePack and read back as eight bytes, so that it is never found
  (`getCurrentSuspendedPools_eq_none`, `stack_iff`).
* `pairwise_positionsFrom` — the positions of an account in a pool come by increasing epochs.
-/

namespace Splash.LpIndexer

open Lib List

/-! ## Events -/

structure GaugeWeight where
  weight : ℕ
  total : ℕ
  deriving DecidableEq

namespace GaugeWeight

/-- The part of an amount. The product has 128 bits, and the quotient is cut to 64. -/
def mul (w : GaugeWeight) (other : ℕ) : Exec ℕ := do
  let q ← divide (w.weight * other) w.total
  return q % 2 ^ 64

def nonZero (w : GaugeWeight) : Bool := w.weight ≠ 0

end GaugeWeight

structure GaugeWeighted where
  poolId : PoolId
  weight : GaugeWeight
  epoch : ℕ
  deriving DecidableEq

structure PoolCreated where
  poolId : PoolId
  supplyLq : ℕ
  deriving DecidableEq

inductive OnChainEvent where
  | account (e : PositionEvent)
  | gauge (g : GaugeWeighted)
  | pool (c : PoolCreated)
  | permManagerUpdate (suspended : List PoolId)
  | newWeightingPoll (epoch : ℕ) (active : List PoolId)
  deriving DecidableEq

namespace OnChainEvent

def poolId : OnChainEvent → Option PoolId
  | account e => some e.poolId
  | gauge g => some g.poolId
  | pool c => some c.poolId
  | permManagerUpdate _ => none
  | newWeightingPoll _ _ => none

end OnChainEvent

/-! ## Suspended pools -/

def toBeBytes : ℕ → ℕ → List ℕ
  | 0, _ => []
  | k + 1, n => toBeBytes k (n / 256) ++ [n % 256]

@[simp] theorem length_toBeBytes (k n : ℕ) : (toBeBytes k n).length = k := by
  induction k generalizing n with
  | zero => rfl
  | succ k ih => simp [toBeBytes, ih]

/-- MessagePack bytes of an unsigned number. -/
def toVec (n : ℕ) : List ℕ :=
  if n < 128 then [n]
  else if n < 2 ^ 8 then 0xcc :: toBeBytes 1 n
  else if n < 2 ^ 16 then 0xcd :: toBeBytes 2 n
  else if n < 2 ^ 32 then 0xce :: toBeBytes 4 n
  else 0xcf :: toBeBytes 8 n

/-- Reads a slot from eight bytes; zero stands for no slot. -/
def fromBeBytes (raw : List ℕ) : Option ℕ :=
  if raw.length = 8 then
    let slot := raw.foldl (fun n b => 256 * n + b) 0
    if 0 < slot then some slot else none
  else none

theorem fromBeBytes_toVec (n : ℕ) : fromBeBytes (toVec n) = none := by
  have hlen : (toVec n).length ≠ 8 := by
    unfold toVec
    split_ifs <;> simp
  rw [fromBeBytes, if_neg hlen]

structure SuspendedPools where
  /-- The slot under `CURRENT_SUSPENDED_POOLS_SLOT_KEY`, in MessagePack. -/
  current : Option ℕ
  /-- The pools suspended as of a slot. -/
  pools : ℕ → Option (List PoolId)
  /-- The slot of the version before, in eight bytes. -/
  prev : ℕ → Option ℕ

namespace SuspendedPools

def empty : SuspendedPools := ⟨none, fun _ => none, fun _ => none⟩

variable (t : SuspendedPools)

def getCurrentSlot : Option ℕ := t.current.bind fun n => fromBeBytes (toVec n)

def getPrevSlot (slot : ℕ) : Option ℕ := (t.prev slot).filter (0 < ·)

def getCurrentSuspendedPools : Option (List PoolId) :=
  t.getCurrentSlot.bind t.pools

/-- The pools of the version written last. -/
def recorded : List PoolId := (t.current.bind t.pools).getD []

def setCurrentSlot (slot : ℕ) : SuspendedPools :=
  { t with
    prev := t.getCurrentSlot.elim t.prev fun old => Function.update t.prev slot (some old)
    current := some slot }

/-- Stores a version (`set_suspended_pools`). -/
def set (suspended : List PoolId) (slot : ℕ) : SuspendedPools :=
  let linked := { t with prev := Function.update t.prev slot (some (t.getCurrentSlot.getD 0)) }
  let t' := linked.setCurrentSlot slot
  { t' with pools := Function.update t'.pools slot (some suspended) }

/-- Takes a version back (`rollback_suspended_pools`). -/
def rollback (suspended : List PoolId) (slot : ℕ) : Exec SuspendedPools := do
  let current ← Exec.expect "called unwrap on a None value" t.getCurrentSlot
  if current = slot then
    let stored ← Exec.expect "called unwrap on a None value" t.getCurrentSuspendedPools
    if stored = suspended then
      let t' := { t with pools := Function.update t.pools current none }
      return (t'.getPrevSlot current).elim t' t'.setCurrentSlot
    else throw (.explicit "assertion failed: curr_suspended_pools == *suspended_pools")
  else throw (.explicit "assertion failed: current_slot == slot")

@[simp] theorem getCurrentSlot_eq_none : t.getCurrentSlot = none := by
  unfold getCurrentSlot
  cases t.current with
  | none => rfl
  | some n => exact fromBeBytes_toVec n

/-- The current version is never found. -/
@[simp] theorem getCurrentSuspendedPools_eq_none :
    t.getCurrentSuspendedPools = none := by
  simp [getCurrentSuspendedPools]

inductive Op where
  | set (suspended : List PoolId) (slot : ℕ)
  | rollback

/-- The versions that were set and not taken back, the latest first; so are the operations. -/
def versions : List Op → List (List PoolId × ℕ)
  | [] => []
  | .set suspended slot :: ops => (suspended, slot) :: versions ops
  | .rollback :: ops => (versions ops).tail

/-- Versions are set at increasing slots, and the latest one is taken back. -/
def Ordered : List Op → Prop
  | [] => True
  | .set _ slot :: ops => Ordered ops ∧ 0 < slot ∧ ∀ v ∈ versions ops, v.2 < slot
  | .rollback :: ops => Ordered ops ∧ versions ops ≠ []

def replay : List Op → Exec SuspendedPools
  | [] => .ok .empty
  | .set suspended slot :: ops => do return (← replay ops).set suspended slot
  | .rollback :: ops => do
    let t ← replay ops
    (versions ops).head?.elim (.ok t) fun v => t.rollback v.1 v.2

/-- **The versions are a stack** only as long as there are none. -/
theorem stack_iff (ops : List Op) (h : Ordered ops) :
    (∃ t, replay ops = .ok t ∧
      t.getCurrentSuspendedPools = (versions ops).head?.map Prod.fst) ↔ ops = [] := by
  cases ops with
  | nil => exact iff_of_true ⟨.empty, rfl, rfl⟩ rfl
  | cons op ops =>
    refine iff_of_false ?_ (cons_ne_nil op ops)
    rintro ⟨t, ht, hread⟩
    cases op with
    | set suspended slot =>
      rw [getCurrentSuspendedPools_eq_none] at hread
      cases hread
    | rollback =>
      obtain ⟨v, vs, hv⟩ := exists_cons_of_ne_nil h.2
      obtain ⟨t', -, ht⟩ := Exec.bind_eq_ok.1 ht
      rw [hv, List.head?_cons, Option.elim_some, rollback, getCurrentSlot_eq_none] at ht
      cases ht

theorem stack_of_nothing : ∃ t, replay [] = .ok t ∧ t.getCurrentSuspendedPools = none :=
  (stack_iff [] trivial).2 rfl

/-- A version is not found after it was set. -/
theorem set_unread : Ordered [.set [7] 1] ∧
    replay [.set [7] 1] = .ok (empty.set [7] 1) ∧
    (empty.set [7] 1).getCurrentSuspendedPools ≠ some [7] := by
  refine ⟨⟨trivial, Nat.one_pos, by simp [versions]⟩, rfl, ?_⟩
  rw [getCurrentSuspendedPools_eq_none]
  exact (Option.some_ne_none [7]).symm

end SuspendedPools

/-! ## Tables -/

/-- The settings of the database. An epoch has a fixed number of slots, which the build gives. -/
structure Settings where
  confirmationDelaySlots : ℕ
  numSlotsInEpoch : ℕ
  epochStart : ℕ
  slots_pos : 0 < numSlotsInEpoch

def Settings.converter (cfg : Settings) : EpochSlotConversion :=
  ⟨cfg.numSlotsInEpoch, cfg.epochStart⟩

structure PositionDB where
  /-- Events that are not yet processed, by slot and position in the block. -/
  events : OrdMap (ℕ ×ₗ ℕ) OnChainEvent
  /-- The positions of each pool, by account and epoch. -/
  accountPositions : PoolId → OrdMap (Credential ×ₗ ℕ) AccountPosition
  /-- The pools of each account. -/
  accountPools : Credential → OrdMap PoolId Unit
  gaugeWeights : PoolId → ℕ → Option GaugeWeight
  suspendedPools : SuspendedPools
  /-- The active pools of each epoch. -/
  activePools : ℕ → Option (List PoolId)
  /-- LP supply of each pool. -/
  poolLq : PoolId → Option ℕ
  currentSlot : Option ℕ
  /-- The slot to which positions have to be rolled back before the next block is appended. -/
  rollbackToSlot : Option ℕ

namespace PositionDB

def empty : PositionDB where
  events := .empty
  accountPositions := fun _ => .empty
  accountPools := fun _ => .empty
  gaugeWeights := fun _ _ => none
  suspendedPools := .empty
  activePools := fun _ => none
  poolLq := fun _ => none
  currentSlot := none
  rollbackToSlot := none

def positionsFrom (db : PositionDB) (pid : PoolId) (cred : Credential) (epoch : ℕ) :
    List (ℕ × AccountPosition) :=
  ((db.accountPositions pid).toList.filter fun e =>
    (ofLex e.1).1 = cred ∧ epoch ≤ (ofLex e.1).2).map fun e => ((ofLex e.1).2, e.2)

theorem mem_positionsFrom {db : PositionDB} {pid : PoolId} {cred : Credential} {epoch : ℕ}
    {e : ℕ × AccountPosition} :
    e ∈ db.positionsFrom pid cred epoch ↔
      (db.accountPositions pid).get? (toLex (cred, e.1)) = some e.2 ∧ epoch ≤ e.1 := by
  unfold positionsFrom
  rw [← OrdMap.mem_toList_iff]
  simp only [mem_map, mem_filter, decide_eq_true_eq]
  constructor
  · rintro ⟨⟨k, p⟩, ⟨hmem, rfl, hle⟩, rfl⟩
    exact ⟨hmem, hle⟩
  · rintro ⟨hmem, hle⟩
    exact ⟨_, ⟨hmem, rfl, hle⟩, rfl⟩

theorem pairwise_positionsFrom (db : PositionDB) (pid : PoolId) (cred : Credential) (epoch : ℕ) :
    (db.positionsFrom pid cred epoch).Pairwise fun a b => a.1 < b.1 := by
  unfold positionsFrom
  rw [pairwise_map, pairwise_filter]
  refine (db.accountPositions pid).pairwise_toList.imp ?_
  intro a b hlt ha hb
  have ha' : (ofLex a.1).1 = cred ∧ epoch ≤ (ofLex a.1).2 := of_decide_eq_true ha
  have hb' : (ofLex b.1).1 = cred ∧ epoch ≤ (ofLex b.1).2 := of_decide_eq_true hb
  rcases (Prod.Lex.lt_iff).1 hlt with h | ⟨-, h⟩
  · exact absurd h (by rw [ha'.1, hb'.1]; exact lt_irrefl _)
  · exact h

end PositionDB

end Splash.LpIndexer
