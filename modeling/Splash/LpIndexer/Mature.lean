import Splash.LpIndexer.Store

/-!
# Processing of mature events

Events stay in the log until they are deeper than the confirmation delay. Then the events of one slot
at a time are taken out of the log and applied to the positions of their pools.

* `aggregateEvents` — the events of a slot by pool.
* `latestAccountPositions` — the position of each account of a pool that the slot builds on.
* `syncAccountPositions` — the positions of a pool after the slot.
* `tryProcessMatureEvents` — the transaction on the database.
-/

namespace Splash.LpIndexer

open Lib

/-! ## Events by pool -/

/-- All events that happened for a single pool in a single slot. -/
structure EventsByPool where
  gaugeEvents : List GaugeWeighted
  accountFrames : List PositionEvent
  lpSupply : Option ℕ

namespace EventsByPool

def new : EventsByPool := ⟨[], [], none⟩

/-- Adds an event. The LP supply of the pool is returned if it changed. -/
def applyEvent (f : EventsByPool) : OnChainEvent → EventsByPool × Option ℕ
  | .account e =>
      ({ f with
          accountFrames := f.accountFrames ++ [e]
          lpSupply := some e.resultingPoolLpSupply }, some e.resultingPoolLpSupply)
  | .gauge g => ({ f with gaugeEvents := f.gaugeEvents ++ [g] }, none)
  | .pool c => ({ f with lpSupply := some c.supplyLq }, some c.supplyLq)
  | .permManagerUpdate _ => (f, none)
  | .newWeightingPoll _ _ => (f, none)

end EventsByPool

/-- Adds an event to the frame of its pool, and stores the LP supply. -/
def aggregateEvent (s : OrdMap PoolId EventsByPool × (PoolId → Option ℕ)) (event : OnChainEvent) :
    OrdMap PoolId EventsByPool × (PoolId → Option ℕ) :=
  event.poolId.elim s fun pid =>
    let r := ((s.1.get? pid).getD .new).applyEvent event
    (s.1.insert pid r.1, r.2.elim s.2 fun lq => Function.update s.2 pid (some lq))

def aggregateEvents (events : List OnChainEvent) (poolLq : PoolId → Option ℕ) :
    OrdMap PoolId EventsByPool × (PoolId → Option ℕ) :=
  events.foldl aggregateEvent (.empty, poolLq)

/-! ## Latest positions -/

/-- Takes up a position when it is the first of its account, or later and of positive share. -/
def latestStep (latest : OrdMap Credential (ℕ × AccountPosition))
    (e : (Credential ×ₗ ℕ) × AccountPosition) : OrdMap Credential (ℕ × AccountPosition) :=
  let cred := (ofLex e.1).1
  let epoch := (ofLex e.1).2
  (latest.get? cred).elim (latest.insert cred (epoch, e.2)) fun old =>
    if old.1 < epoch ∧ !e.2.isCurrentlyZeroShare then latest.insert cred (epoch, e.2) else latest

def latestAccountPositions (m : OrdMap (Credential ×ₗ ℕ) AccountPosition) :
    OrdMap Credential (ℕ × AccountPosition) :=
  m.toList.foldl latestStep .empty

/-! ## Synchronisation -/

/-- The epoch of a position and the ends of its last interval. -/
def markOf (x : ℕ × AccountPosition) : Option (ℕ × ℕ × ℕ) :=
  x.2.getCurrentShare.map fun i => (x.1, i.start, i.stop)

variable (c : EpochSlotConversion)

/-- Extends a position to the current slot. One of an earlier epoch is extended to the end of its
epoch and followed by positions in the epochs in between, which are to be stored, and in the current
one. -/
def carryOver (current slot : ℕ) (x : ℕ × AccountPosition) :
    Exec (List (ℕ × AccountPosition) × Option AccountPosition) := do
  if x.1 = current then
    let extended ← x.2.extendCurrentShareTo slot
    return ([], some extended)
  else
    let closed ← x.2.extendCurrentShareTo (c.lastSlot x.1)
    let last ← Exec.expect "called unwrap on a None value" closed.getCurrentShare
    let epochs := EpochSlotConversion.adjacentEpochs x.1 current
    let between := (epochs.filter (· ≠ current)).map fun e =>
      (e, (⟨[⟨c.firstSlot e, c.lastSlot e, last.share⟩]⟩ : AccountPosition))
    return ((x.1, closed) :: between,
      if epochs.contains current then some ⟨[⟨c.firstSlot current, slot, last.share⟩]⟩ else none)

/-- The positions to be stored, and those of the current epoch, which are still to be updated. -/
structure Carried where
  positionsForUpdate : OrdMap (Credential ×ₗ ℕ) AccountPosition
  currentEpoch : OrdMap Credential AccountPosition

def carryAccount (current slot : ℕ) (s : Carried)
    (e : Credential × (ℕ × AccountPosition)) : Exec Carried := do
  let r ← carryOver c current slot e.2
  return ⟨r.1.foldl (fun m x => m.insert (toLex (e.1, x.1)) x.2) s.positionsForUpdate,
    r.2.elim s.currentEpoch (s.currentEpoch.insert e.1)⟩

section

variable (ord : HashOrder) (cfg : Settings) (db : PositionDB)

/-- Carries all positions over. They must have the same epoch and the same last interval. -/
def carryAll (c : EpochSlotConversion) (current slot : ℕ)
    (latest : OrdMap Credential (ℕ × AccountPosition)) : Exec Carried :=
  ((ord.arrange latest.toList).getLast?.bind fun e => markOf e.2).elim (.ok ⟨.empty, .empty⟩)
    fun mark =>
      if latest.toList.all fun e => markOf e.2 = some mark then
        latest.toList.foldlM (carryAccount c current slot) ⟨.empty, .empty⟩
      else throw (.explicit "assertion failed: latest_account_positions.iter().all")

def applyPositionEvent (slot supply : ℕ)
    (s : OrdMap Credential AccountPosition × OrdMap Credential AccountPosition)
    (event : PositionEvent) :
    Exec (OrdMap Credential AccountPosition × OrdMap Credential AccountPosition) :=
  (s.1.get? event.account).elim
    (do
      let p := (s.2.get? event.account).getD (.new slot (0, supply))
      let p' ← p.updateFromUserEvent c slot event
      return (s.1, s.2.insert event.account p'))
    fun p => do
      let p' ← p.updateFromUserEvent c slot event
      return (s.1.insert event.account p', s.2)

/-- Updates the LP supply of a position of the current epoch. -/
def updateSupply (current slot supply : ℕ)
    (m : OrdMap (Credential ×ₗ ℕ) AccountPosition) (e : (Credential ×ₗ ℕ) × AccountPosition) :
    Exec (OrdMap (Credential ×ₗ ℕ) AccountPosition) :=
  if (ofLex e.1).2 = current then do
    let p ← e.2.updateFromExternalPoolChanges c slot supply
    return m.insert e.1 p
  else .ok m

def applyEvents (current slot supply : ℕ) (events : List PositionEvent)
    (carried : Carried) : Exec (OrdMap (Credential ×ₗ ℕ) AccountPosition) :=
  events.getLast?.elim (.ok carried.positionsForUpdate) fun last => do
    let applied ← events.foldlM (applyPositionEvent c slot supply) (carried.currentEpoch, .empty)
    let positions := (applied.1.toList ++ applied.2.toList).foldl
      (fun m e => m.insert (toLex (e.1, current)) e.2) carried.positionsForUpdate
    positions.toList.foldlM (updateSupply c current slot last.resultingPoolLpSupply) positions

/-- The positions of a pool that have to be stored after a slot. -/
def syncAccountPositions (c : EpochSlotConversion) (events : List PositionEvent)
    (latest : OrdMap Credential (ℕ × AccountPosition)) (slot supply : ℕ) :
    Exec (OrdMap (Credential ×ₗ ℕ) AccountPosition) := do
  let current ← c.toEpoch slot
  let carried ← carryAll ord c current slot latest
  applyEvents c current slot supply events carried

/-! ## The transaction -/

/-- Stores a gauge weight, which must be of the current epoch. -/
def putGauge (current : ℕ) (tx : PositionDB) (g : GaugeWeighted) : Exec PositionDB :=
  if current = g.epoch then
    .ok { tx with
      gaugeWeights := Function.update tx.gaugeWeights g.poolId
        (Function.update (tx.gaugeWeights g.poolId) g.epoch (some g.weight)) }
  else throw (.explicit "assertion failed: current_epoch == epoch")

def putPosition (pid : PoolId) (tx : PositionDB) (e : (Credential ×ₗ ℕ) × AccountPosition) :
    PositionDB :=
  { tx with
    accountPositions := Function.update tx.accountPositions pid
      ((tx.accountPositions pid).insert e.1 e.2)
    accountPools := Function.update tx.accountPools (ofLex e.1).1
      ((tx.accountPools (ofLex e.1).1).insert pid ()) }

/-- Applies the events of a pool. Without a result the transaction is dropped. Positions are read
from the database as it was before the transaction. -/
def processPool (slot : ℕ) (tx : PositionDB) (f : PoolId × EventsByPool) :
    OptionT Exec PositionDB := do
  let supply ← Exec.ofOption (f.2.lpSupply.or (tx.poolLq f.1))
  let latest := latestAccountPositions (db.accountPositions f.1)
  if cfg.epochStart ≤ slot then
    let current ← OptionT.lift (cfg.converter.toEpoch slot)
    if (ord.arrange latest.toList).head?.any fun e => current < e.2.1 then failure
    else
      let weighted ← OptionT.lift (f.2.gaugeEvents.foldlM (putGauge current) tx)
      let positions ← OptionT.lift
        (syncAccountPositions ord cfg.converter f.2.accountFrames latest slot supply)
      return positions.toList.foldl (putPosition f.1) weighted
  else return tx

def distinct (events : List OnChainEvent) : List OnChainEvent :=
  events.foldl (fun l e => if l.contains e then l else l ++ [e]) []

def firstSlot : Option ℕ := db.events.toList.head?.map fun e => (ofLex e.1).1

/-- The records of the log at a slot. -/
def takenAt (slot : ℕ) : List ((ℕ ×ₗ ℕ) × OnChainEvent) :=
  db.events.toList.takeWhile fun e => (ofLex e.1).1 = slot

/-- Applies the events of a slot, which are taken out of the log. -/
def processSlot (slot : ℕ) : OptionT Exec PositionDB :=
  let taken := takenAt db slot
  let frames := aggregateEvents (distinct (taken.map Prod.snd)) db.poolLq
  (ord.arrange frames.1.toList).foldlM (processPool ord cfg db slot)
    { db with
      events := taken.foldl (fun m e => m.erase e.1) db.events
      poolLq := frames.2 }

def tryProcessMatureEvents : Exec (Bool × PositionDB) :=
  db.currentSlot.elim (.ok (false, db)) fun maxSlot =>
    (firstSlot db).elim (.ok (true, db)) fun slot =>
      if maxSlot < slot ∨ maxSlot - slot ≤ cfg.confirmationDelaySlots then .ok (false, db)
      else do
        let result ← (processSlot ord cfg db slot).run
        return result.elim (false, db) (Prod.mk true)

end

end Splash.LpIndexer
