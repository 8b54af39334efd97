import Splash.LpIndexer.Store

/-!
# The log of events

Every block appends its events to the log, and a block that is rolled back discards them. Suspended
and active pools are written at once. Positions are rolled back when the first block after the
rollback is appended.

* `batchAppend`, `batchDiscard` — the two operations.
* `rollbackAccountPositions` — what happens to positions after a rollback.
* `appendEvents_spec` — where the events of a block are stored.
-/

namespace Splash.LpIndexer

open Lib

/-! ## Appending -/

/-- Deletes or cuts a position after a rollback to a slot of the epoch `back`. -/
def rollbackPosition (toSlot back current : ℕ) (m : OrdMap (Credential ×ₗ ℕ) AccountPosition)
    (e : (Credential ×ₗ ℕ) × AccountPosition) : OrdMap (Credential ×ₗ ℕ) AccountPosition :=
  if back + 1 ≤ (ofLex e.1).2 ∧ (ofLex e.1).2 ≤ current then m.erase e.1
  else if (ofLex e.1).2 = back then m.insert e.1 (e.2.rollbackTo toSlot)
  else m

def rollbackAccountPositions (c : EpochSlotConversion) (db : PositionDB) (toSlot : ℕ) :
    Exec PositionDB := do
  let slot ← Exec.expect "called unwrap on a None value" db.currentSlot
  let current ← c.toEpoch slot
  let back ← c.toEpoch toSlot
  return { db with
    accountPositions := fun pid => (db.accountPositions pid).toList.foldl
      (rollbackPosition toSlot back current) (db.accountPositions pid) }

section

variable (cfg : Settings) (db : PositionDB) (slot : ℕ)

/-- The converter that `batch_append` builds for the rollback of positions. It is given the start of
the epochs for their length, and the length for the start. -/
def rollbackConverter : EpochSlotConversion := ⟨cfg.epochStart, cfg.numSlotsInEpoch⟩

def appendEvent (db : PositionDB) (x : OnChainEvent × ℕ) : PositionDB :=
  match x.1 with
  | .permManagerUpdate suspended =>
      { db with suspendedPools := db.suspendedPools.set suspended slot }
  | .newWeightingPoll epoch active =>
      { db with activePools := Function.update db.activePools epoch (some active) }
  | event => { db with events := db.events.insert (toLex (slot, x.2)) event }

def batchAppend (events : List OnChainEvent) : Exec PositionDB := do
  let restored ← db.rollbackToSlot.elim (.ok db) fun toSlot => do
    let db' ← rollbackAccountPositions (rollbackConverter cfg) db toSlot
    return { db' with rollbackToSlot := none }
  return events.zipIdx.foldl (appendEvent slot) { restored with currentSlot := some slot }

theorem appendEvents_spec (l : List (OnChainEvent × ℕ)) (db : PositionDB) :
    (l.foldl (appendEvent slot) db).accountPositions = db.accountPositions ∧
      (l.foldl (appendEvent slot) db).currentSlot = db.currentSlot ∧
      (l.foldl (appendEvent slot) db).rollbackToSlot = db.rollbackToSlot ∧
      ∀ key e, (l.foldl (appendEvent slot) db).events.get? key = some e →
        db.events.get? key = some e ∨ (ofLex key).1 = slot := by
  induction l generalizing db with
  | nil => exact ⟨rfl, rfl, rfl, fun _ _ h => .inl h⟩
  | cons x l ih =>
    obtain ⟨hpos, hcur, hroll, hev⟩ := ih (appendEvent slot db x)
    have hone : (appendEvent slot db x).accountPositions = db.accountPositions ∧
        (appendEvent slot db x).currentSlot = db.currentSlot ∧
        (appendEvent slot db x).rollbackToSlot = db.rollbackToSlot := by
      unfold appendEvent
      split <;> exact ⟨rfl, rfl, rfl⟩
    refine ⟨hpos.trans hone.1, hcur.trans hone.2.1, hroll.trans hone.2.2, fun key e he => ?_⟩
    rcases hev key e he with h | h
    · unfold appendEvent at h
      split at h
      · exact .inl h
      · exact .inl h
      · rw [OrdMap.get?_insert] at h
        split at h
        · next hkey => exact .inr (by rw [hkey]; rfl)
        · exact .inl h
    · exact .inr h

/-! ## Discarding -/

def rollbackActivePools (epoch : ℕ) (active : List PoolId) : Exec PositionDB := do
  let stored ← Exec.expect "called unwrap on a None value" (db.activePools epoch)
  if stored = active then
    return { db with activePools := Function.update db.activePools epoch none }
  else throw (.explicit "assertion failed: curr_active_pools == *pools")

/-- Takes back the event at a position of the reversed block. -/
def discardEvent (db : PositionDB) (x : OnChainEvent × ℕ) : Exec PositionDB :=
  match x.1 with
  | .permManagerUpdate suspended => do
      let t ← db.suspendedPools.rollback suspended slot
      return { db with suspendedPools := t }
  | .newWeightingPoll epoch active => rollbackActivePools db epoch active
  | .gauge g => .ok { db with
      gaugeWeights := Function.update db.gaugeWeights g.poolId
        (Function.update (db.gaugeWeights g.poolId) g.epoch none)
      events := db.events.erase (toLex (slot, x.2)) }
  | .account _ => .ok { db with events := db.events.erase (toLex (slot, x.2)) }
  | .pool _ => .ok { db with events := db.events.erase (toLex (slot, x.2)) }

def batchDiscard (events : List OnChainEvent) : Exec PositionDB := do
  let db' ← events.zipIdx.foldlM (discardEvent slot) db
  return { db' with rollbackToSlot := some slot }

end

end Splash.LpIndexer
