import Splash.Data.CircularBuffer
import Splash.Lib.Versions
import Splash.Rewards.Entities

/-!
# The reward index

The index keeps the on-chain state of the reward entities: the versions of the buffer wallet, the
gauges and the auth manager, the harvest orders with the order that is designated for a user in an
epoch, the epochs up to which users have harvested, and the last Merkle trees. Blocks are indexed
event by event, and events of a block that is rolled back are undone from the last one.

* `indexEvent`, `unindexEvent` — an event and its inverse.
* `answers` — what can be asked of the index.
-/

namespace Splash.Rewards.Index

open Lib Data Cardano

/-! ## What is stored -/

/-- A state is confirmed on chain or predicted by the bot. -/
inductive Mod (T : Type) where
  | confirmed (t : T)
  | predicted (t : T)
  deriving DecidableEq

def Mod.erased {T : Type} : Mod T → T
  | .confirmed t => t
  | .predicted t => t

inductive HarvestOrderStatus where
  | spent (epoch : ℕ)
  | unspent
  | refunded
  deriving DecidableEq

namespace HarvestOrderStatus

def isSpent : HarvestOrderStatus → Bool
  | .spent _ => true
  | _ => false

end HarvestOrderStatus

structure HarvestOrderWrap (V : Type) where
  order : HarvestOrder V
  status : HarvestOrderStatus
  deriving DecidableEq

def HarvestOrderWrap.key {V : Type} (w : HarvestOrderWrap V) : Ed25519KeyHash × ℕ :=
  (w.order.accountKey, w.order.issuedAt.2)

structure BufferWalletWrap (V Tree : Type) where
  wallet : BufferWallet V
  predictedMerkleTree : Option Tree

structure IndexedMerkleTree (Tree : Type) where
  tree : Tree
  slot : ℕ

/-- A leaf of the Merkle tree before it is hashed. -/
structure HarvestOrderSpend where
  amount : ℕ
  epochStart : ℕ
  epochEnd : ℕ
  user : Ed25519KeyHash
  rewardAddress : Address

/-- The epochs of slots, the operations of Merkle trees, and the number of trees to keep. -/
structure Setup (Tree : Type) where
  slotToEpoch : ℕ → ℕ
  networkId : ℕ
  newTree : Tree
  append : Tree → List (Bytes 32) → Tree
  spendHash : HarvestOrderSpend → Bytes 32
  maxNumberMerkleTreeSnapshots : BitVec 8

abbrev Orders (V B : Type) :=
  Versions V V (Mod (HarvestOrderWrap V × B))

structure IndexerDB (G V B Tree : Type) where
  harvestOrders : Orders V B
  bufferWallets : Versions Unit V (Mod (BufferWalletWrap V Tree × B))
  gauges : Versions G V (Mod (Gauge G V × B))
  authManagers : Versions Unit V (Mod (AuthManager G V × B))
  endingEpochs : Ed25519KeyHash → Option (List ℕ)
  merkleSnapshots : CircularBuffer 8 (IndexedMerkleTree Tree)
  userEpochOrder : Ed25519KeyHash × ℕ → Option V

variable {G V B Tree : Type} [DecidableEq G] [DecidableEq V]

/-! ## Harvest orders -/

namespace Orders

def put (s : Orders V B) (w : HarvestOrderWrap V) (bearer : B)
    (prev : Option V) : Orders V B :=
  s.write w.order.id w.order.id ⟨.confirmed (w, bearer), prev⟩

/-- Marks an order as spent; one that is not known is passed over. -/
def confirmSpend (s : Orders V B) (id : V) (currentEpoch : ℕ) :
    Exec (Orders V B) :=
  (s.read id).elim (.ok s) fun t =>
    match t.state with
    | .confirmed (w, bearer) =>
      if w.status = .unspent then
        .ok (s.put { w with status := .spent currentEpoch } bearer t.prevStateId)
      else .error (.explicit "assertion failed: status is Unspent")
    | .predicted (w, bearer) =>
      if w.status = .spent currentEpoch then
        .ok (s.put { w with status := .spent currentEpoch } bearer t.prevStateId)
      else .error (.explicit "assertion failed: status == Spent(current_epoch)")

def unconsume (s : Orders V B) (id : V) : Exec (Orders V B) :=
  (s.read id).elim (.ok s) fun t =>
    match t.state with
    | .confirmed (w, bearer) =>
      if w.status = .unspent then .error (.explicit "assertion failed: Spent or Refunded")
      else if t.prevStateId.isSome then .error (.explicit "assertion failed: no previous state")
      else .ok (s.put { w with status := .unspent } bearer t.prevStateId)
    | .predicted (w, bearer) =>
      if !w.status.isSpent then .error (.explicit "assertion failed: Spent")
      else if t.prevStateId.isSome then .error (.explicit "assertion failed: no previous state")
      else .ok (s.put { w with status := .unspent } bearer t.prevStateId)

end Orders

/-! ## Ending epochs -/

section

variable (m : Ed25519KeyHash → Option (List ℕ)) (user : Ed25519KeyHash)

def addConfirmedHarvestEpochEnd (epoch : ℕ) : Ed25519KeyHash → Option (List ℕ) :=
  Function.update m user (some ((m user).elim [epoch] (· ++ [epoch])))

def removeLastConfirmedHarvestEpochEnd : Exec (Ed25519KeyHash → Option (List ℕ)) :=
  Exec.expect "called unwrap on a None value" (m user) >>= fun epochs =>
    if epochs = [] then .error (.explicit "called unwrap on a None value")
    else .ok (Function.update m user (some epochs.dropLast))

end

namespace IndexerDB

/-- A new index has one tree without leaves. -/
def new (cfg : Setup Tree) : IndexerDB G V B Tree where
  harvestOrders := .empty
  bufferWallets := .empty
  gauges := .empty
  authManagers := .empty
  endingEpochs _ := none
  merkleSnapshots :=
    CircularBuffer.init.pushBack cfg.maxNumberMerkleTreeSnapshots ⟨cfg.newTree, 0⟩
  userEpochOrder _ := none

variable (db : IndexerDB G V B Tree)

/-! ## Answers -/

def getBufferWallet : Option (BufferWalletWrap V Tree × B) :=
  (db.bufferWallets.read ()).map fun t => t.state.erased

def getGauge (id : G) : Option (Gauge G V × B) :=
  (db.gauges.read id).map fun t => t.state.erased

def getAuthManager : Option (AuthManager G V × B) :=
  (db.authManagers.read ()).map fun t => t.state.erased

def readDesignatedHarvestOrder (id : V) :
    Option (Mod (HarvestOrderWrap V × B)) :=
  (db.harvestOrders.read id).bind fun t =>
    if (db.userEpochOrder t.state.erased.1.key).isSome then some t.state else none

def lastEpochHarvested (user : Ed25519KeyHash) : Option ℕ :=
  (db.endingEpochs user).bind List.getLast?

def lastConfirmedMerkleTree : Option (IndexedMerkleTree Tree) := db.merkleSnapshots.readBack

end IndexerDB

/-- Everything that can be asked of the index. -/
@[ext]
structure Answers (G V B Tree : Type) where
  bufferWallet : Option (BufferWalletWrap V Tree × B)
  gauge : G → Option (Gauge G V × B)
  authManager : Option (AuthManager G V × B)
  designatedHarvestOrder : V → Option (Mod (HarvestOrderWrap V × B))
  lastEpochHarvested : Ed25519KeyHash → Option ℕ
  lastConfirmedMerkleTree : Option (IndexedMerkleTree Tree)

def answers (db : IndexerDB G V B Tree) :
    Answers G V B Tree where
  bufferWallet := db.getBufferWallet
  gauge := db.getGauge
  authManager := db.getAuthManager
  designatedHarvestOrder := db.readDesignatedHarvestOrder
  lastEpochHarvested := db.lastEpochHarvested
  lastConfirmedMerkleTree := db.lastConfirmedMerkleTree

/-! ## Updates -/

namespace IndexerDB

variable (db : IndexerDB G V B Tree)

def writeConfirmedBufferWallet (u : EntityUpdated (BufferWallet V) V B) :
    IndexerDB G V B Tree :=
  { db with
    bufferWallets := db.bufferWallets.write () u.created.1.stateId
      ⟨.confirmed (⟨u.created.1, none⟩, u.created.2), u.consumed⟩ }

def writeConfirmedGauge (u : EntityUpdated (Gauge G V) V B) :
    IndexerDB G V B Tree :=
  { db with
    gauges := db.gauges.write u.created.1.id u.created.1.stateId
      ⟨.confirmed u.created, u.consumed⟩ }

def writeConfirmedAuthManager (u : EntityUpdated (AuthManager G V) V B) :
    IndexerDB G V B Tree :=
  { db with
    authManagers := db.authManagers.write () u.created.1.stateId
      ⟨.confirmed u.created, u.consumed⟩ }

def removeVersion {Id S : Type} [DecidableEq Id] (s : Versions Id V S) (id : Id)
    (v : V) (consumed : Option V) : Exec (Versions Id V S) :=
  s.remove id v >>= fun r =>
    if consumed = r.1 then .ok r.2 else .error (.explicit "assertion failed: consumed == prev")

def removeBufferWallet (u : EntityUpdated (BufferWallet V) V B) :
    Exec (IndexerDB G V B Tree) :=
  (removeVersion db.bufferWallets () u.created.1.stateId u.consumed).map fun s =>
    { db with bufferWallets := s }

def removeGauge (u : EntityUpdated (Gauge G V) V B) :
    Exec (IndexerDB G V B Tree) :=
  (removeVersion db.gauges u.created.1.id u.created.1.stateId u.consumed).map fun s =>
    { db with gauges := s }

def removeAuthManager (u : EntityUpdated (AuthManager G V) V B) :
    Exec (IndexerDB G V B Tree) :=
  (removeVersion db.authManagers () u.created.1.stateId u.consumed).map fun s =>
    { db with authManagers := s }

/-- An order is ignored when another one is designated for its user and epoch. -/
def writeConfirmedHarvestOrder (order : HarvestOrder V) (bearer : B) :
    IndexerDB G V B Tree :=
  (db.userEpochOrder (order.accountKey, order.issuedAt.2)).elim
    { db with
      harvestOrders := db.harvestOrders.put ⟨order, .unspent⟩ bearer none
      userEpochOrder := Function.update db.userEpochOrder (order.accountKey, order.issuedAt.2)
        (some order.id) }
    fun _ => db

/-- What remains of the designations without that of `id`. -/
def undesignateOrderInEpoch (m : Ed25519KeyHash × ℕ → Option V)
    (key : Ed25519KeyHash × ℕ) (id : V) : Exec (Ed25519KeyHash × ℕ → Option V) :=
  Exec.expect "called unwrap on a None value" (m key) >>= fun designated =>
    if designated = id then .ok (Function.update m key none)
    else .error (.explicit "assertion failed: designated order")

def unspentOrder : Mod (HarvestOrderWrap V × B) → Option (HarvestOrder V)
  | .confirmed (w, _) => if w.status = .unspent then some w.order else none
  | .predicted _ => none

def removeCreatedHarvestOrder (id : V) (user : Ed25519KeyHash) :
    Exec (IndexerDB G V B Tree) :=
  Exec.expect "Harvest order should be confirmed"
      ((db.harvestOrders.read id).bind fun t => unspentOrder t.state) >>= fun order =>
    (db.userEpochOrder (user, order.issuedAt.2)).elim (.ok db) fun designated =>
      if designated = id then
        undesignateOrderInEpoch db.userEpochOrder (user, order.issuedAt.2) id >>= fun m =>
          db.harvestOrders.remove id id >>= fun r =>
            if r.1.isNone then .ok { db with harvestOrders := r.2, userEpochOrder := m }
            else .error (.explicit "assertion failed: no previous version")
      else .ok db

def writeConfirmedRefundHarvestOrder (id : V) :
    Exec (IndexerDB G V B Tree) :=
  (db.harvestOrders.read id).elim (.ok db) fun t =>
    match t.state with
    | .confirmed (w, bearer) =>
      if t.prevStateId.isSome then .error (.explicit "assertion failed: no previous state")
      else (undesignateOrderInEpoch db.userEpochOrder w.key id).map fun m =>
        { db with
          harvestOrders := db.harvestOrders.put { w with status := .refunded } bearer t.prevStateId
          userEpochOrder := m }
    | .predicted _ => .error (.explicit "Harvest order should be confirmed")

def undoConfirmedRefundHarvestOrder (id : V) :
    Exec (IndexerDB G V B Tree) :=
  (db.harvestOrders.read id).elim (.ok db) fun t =>
    match t.state with
    | .confirmed (w, bearer) =>
      if w.status ≠ .refunded then .error (.explicit "assertion failed: status == Refunded")
      else if t.prevStateId.isSome then .error (.explicit "assertion failed: no previous state")
      else if (db.userEpochOrder w.key).isSome then
        .error (.explicit "assertion failed: no designated order")
      else .ok
        { db with
          harvestOrders := db.harvestOrders.put { w with status := .unspent } bearer t.prevStateId
          userEpochOrder := Function.update db.userEpochOrder w.key (some id) }
    | .predicted _ => .error (.explicit "Harvest order should be confirmed")

def spendOf (cfg : Setup Tree) (epochEnd : ℕ) (payout : HarvestOrder V × ℕ) :
    Exec (V × HarvestOrderSpend) :=
  let epochStart := (db.lastEpochHarvested payout.1.accountKey).elim 0 (· + 1)
  if epochStart ≤ epochEnd then
    .ok (payout.1.id, ⟨payout.2, epochStart, epochEnd, payout.1.accountKey,
      payout.1.rewardReceiver.toAddress cfg.networkId⟩)
  else .error (.explicit "assertion failed: epoch_start <= epoch_end")

def writeConfirmedSpendHarvestOrders (cfg : Setup Tree) (orders : List (V × HarvestOrderSpend))
    (confirmedSlot : ℕ) : Exec (IndexerDB G V B Tree) :=
  orders.foldlM (fun s o => s.confirmSpend o.1 (o.2.epochEnd + 1)) db.harvestOrders >>=
    fun harvestOrders =>
      (Exec.expect "called unwrap on a None value" db.merkleSnapshots.readBack).map fun last =>
        { db with
          harvestOrders
          endingEpochs := orders.foldl
            (fun m o => addConfirmedHarvestEpochEnd m o.2.user o.2.epochEnd) db.endingEpochs
          merkleSnapshots := db.merkleSnapshots.pushBack cfg.maxNumberMerkleTreeSnapshots
            ⟨cfg.append last.tree (orders.map fun o => cfg.spendHash o.2), confirmedSlot⟩ }

def undoConfirmedSpentHarvestOrders (spentOrders : List (Ed25519KeyHash × V))
    (confirmedSlot : ℕ) : Exec (IndexerDB G V B Tree) :=
  spentOrders.foldlM (fun s o => s.unconsume o.2) db.harvestOrders >>= fun harvestOrders =>
    Exec.expect "called unwrap on a None value" db.merkleSnapshots.popBack.1 >>= fun snapshot =>
      if snapshot.slot = confirmedSlot then
        (spentOrders.foldlM (fun m o => removeLastConfirmedHarvestEpochEnd m o.1)
          db.endingEpochs).map fun endingEpochs =>
            { db with harvestOrders, endingEpochs, merkleSnapshots := db.merkleSnapshots.popBack.2 }
      else .error (.explicit "assertion failed: slot == confirmed_slot")

end IndexerDB

/-! ## Events -/

structure Block (G V B : Type) where
  slot : ℕ
  events : List (OnChainEvent G V B)

section

variable (cfg : Setup Tree) (db : IndexerDB G V B Tree) (block : Block G V B)

def indexEvent (slot : ℕ) (db : IndexerDB G V B Tree) :
    OnChainEvent G V B → Exec (IndexerDB G V B Tree)
  | .botHarvestingAction payouts u _ =>
    let db := db.writeConfirmedBufferWallet u
    if 0 < cfg.slotToEpoch slot then
      payouts.mapM (db.spendOf cfg (cfg.slotToEpoch slot - 1)) >>= fun orders =>
        db.writeConfirmedSpendHarvestOrders cfg orders slot
    else .error (.explicit "assertion failed: epoch_end_inner > 0")
  | .botGaugeBufferingAction drained u _ =>
    .ok (drained.foldl (fun db g => db.writeConfirmedGauge g.1) (db.writeConfirmedBufferWallet u))
  | .createBufferWalletAndAuthManager u a =>
    if a.consumed.isNone && u.consumed.isNone then
      .ok ((db.writeConfirmedAuthManager a).writeConfirmedBufferWallet u)
    else .error (.explicit "assertion failed: consumed.is_none()")
  | .createGauge g => .ok (db.writeConfirmedGauge g)
  | .chargeGauges g _ => .ok (db.writeConfirmedGauge g)
  | .authManagerUpdated a => .ok (db.writeConfirmedAuthManager a)
  | .newHarvestRequest order bearer => .ok (db.writeConfirmedHarvestOrder order bearer)
  | .harvestRequestCancelled ids => ids.foldlM (fun db id => db.writeConfirmedRefundHarvestOrder id) db
  | .funding => .ok db

def unindexEvent (slot : ℕ) (db : IndexerDB G V B Tree) :
    OnChainEvent G V B → Exec (IndexerDB G V B Tree)
  | .botHarvestingAction payouts u _ =>
    db.removeBufferWallet u >>= fun db =>
      db.undoConfirmedSpentHarvestOrders (payouts.map fun p => (p.1.accountKey, p.1.id)) slot
  | .botGaugeBufferingAction drained u _ =>
    db.removeBufferWallet u >>= fun db => drained.foldlM (fun db g => db.removeGauge g.1) db
  | .createBufferWalletAndAuthManager u a =>
    db.removeAuthManager a >>= fun db => db.removeBufferWallet u
  | .createGauge g => db.removeGauge g
  | .chargeGauges g _ => db.removeGauge g
  | .authManagerUpdated a => db.removeAuthManager a
  | .newHarvestRequest order _ => db.removeCreatedHarvestOrder order.id order.accountKey
  | .harvestRequestCancelled ids => ids.foldlM (fun db id => db.undoConfirmedRefundHarvestOrder id) db
  | .funding => .ok db

def rollForward : Exec (IndexerDB G V B Tree) :=
  block.events.foldlM (indexEvent cfg block.slot) db

/-- The events of a block are undone from the last one. -/
def rollBackward : Exec (IndexerDB G V B Tree) :=
  block.events.reverse.foldlM (unindexEvent block.slot) db

end

end Splash.Rewards.Index
