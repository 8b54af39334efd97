import Splash.Rewards.Index

/-!
# Batches of the executor

The executor turns a batch of harvest orders, or of gauges to drain, into a transaction and predicts
the buffer wallet that the transaction makes. A wallet is read back from the first output.

* `executeHarvest`, `executeBuffering` — the transaction and the prediction.
* `tryExtractBufferWallet` — the wallet that an output holds.
* `Faithful` — the prediction is what the transaction makes, and the next batch can be built on it.
* `prediction_faithful_iff` — the predictions that are faithful are those of buffering batches that read their
  balance back and leave the confirmed tree in place.
-/

namespace Splash.Rewards.Batches

open Lib Cardano Bytes Exec Option

abbrev OutputRef := ℕ ×ₗ ℕ

/-! ## The wallet on chain -/

structure BufferWalletConfig where
  merkleTreeRootHashDigest : List UInt8
  authorizedExecutors : List Ed25519KeyHash

namespace BufferWalletConfig

/-- The key hashes in a list. Items that are not bytes are passed over. -/
def keyHashes : List PlutusData → Exec (List Ed25519KeyHash)
  | [] => .ok []
  | pd :: items => pd.intoBytes.elim (keyHashes items) fun raw => do
    let key ← expect "called `Result::unwrap()` on an `Err` value" (fromRawBytes raw)
    return key :: (← keyHashes items)

def tryFromPd (pd : PlutusData) : Exec (Option BufferWalletConfig) :=
  ((pd.field 1).bind PlutusData.intoVec).elim (.ok none) fun items =>
    (keyHashes items).map fun executors => (pd.fieldBytes 0).map fun root => ⟨root, executors⟩

def intoPd (c : BufferWalletConfig) : PlutusData :=
  .constr 0 [.bytes c.merkleTreeRootHashDigest,
    .list (c.authorizedExecutors.map fun key => .bytes key.bytes)]

theorem keyHashes_map (keys : List Ed25519KeyHash) :
    keyHashes (keys.map fun key => .bytes key.bytes) = .ok keys := by
  induction keys with
  | nil => rfl
  | cons key keys ih =>
    simp only [List.map_cons, keyHashes, PlutusData.intoBytes, elim_some,
      fromRawBytes_bytes, ih]
    rfl

@[simp] theorem tryFromPd_intoPd (c : BufferWalletConfig) : tryFromPd c.intoPd = .ok (some c) := by
  have hitems : (c.intoPd.field 1).bind PlutusData.intoVec =
      some (c.authorizedExecutors.map fun key => .bytes key.bytes) := rfl
  have hroot : c.intoPd.fieldBytes 0 = some c.merkleTreeRootHashDigest := rfl
  rw [tryFromPd, hitems, elim_some, keyHashes_map, hroot]
  rfl

end BufferWalletConfig

/-- Merkle trees, the deployed wallet, and what the ledger library decides: the root of a tree, the
first asset of a policy in a value, and the least lovelace of an output. -/
structure Setup (T : Type) where
  index : Index.Setup T
  root : T → Option (Bytes 32)
  walletScript : ScriptHash
  authToken : Token
  splash : Token
  firstOfPolicy : (Token → Option ℕ) → ℕ → Option Token
  minAda : TransactionOutput → ℕ
  authToken_ne_splash : authToken ≠ splash

variable {T : Type} (cfg : Setup T)

/-- Before the first harvest the tree has no leaves, and the root is zero. -/
def Setup.rootOrZero (tree : T) : Bytes 32 := (cfg.root tree).getD (replicate 32 0)

/-- The amount of SPLASH, which is found when it comes first in its policy. -/
def balanceOf (value : Value) : ℕ :=
  (cfg.firstOfPolicy value.multiasset cfg.splash.policy).elim 0 fun t =>
    if t = cfg.splash then (value.multiasset t).getD 0 else 0

def configOf (o : TransactionOutput) : Exec (Option BufferWalletConfig) :=
  o.pd.elim (.ok none) BufferWalletConfig.tryFromPd

def tryExtractBufferWallet (o : TransactionOutput) (ref : OutputRef) :
    Exec (Option (BufferWallet OutputRef)) :=
  if o.address.scriptHash = some cfg.walletScript then
    configOf o >>= fun config => config.elim (.ok none) fun config =>
      (o.value.multiasset cfg.authToken).elim (.ok none) fun qty =>
        if qty ≠ 1 then .ok none
        else (expect "called `Result::unwrap()` on an `Err` value"
          (fromRawBytes config.merkleTreeRootHashDigest)).map fun root =>
            some ⟨ref, balanceOf cfg o.value, root⟩
  else .ok none

/-! ## Values -/

def addToken (value : Value) (t : Token) (amount : ℕ) : Exec Value :=
  (addU64 ((value.multiasset t).getD 0) amount).map fun sum =>
    { value with multiasset := Function.update value.multiasset t (some sum) }

/-- Takes off an amount of a token; nothing is left of a token without an amount. -/
def subToken (value : Value) (t : Token) (amount : ℕ) : Exec Value := do
  let held ← expect "called `Result::unwrap()` on an `Err` value" (value.multiasset t)
  let rest ← subU64 held amount
  return { value with
    multiasset := Function.update value.multiasset t (if rest = 0 then none else some rest) }

def setMinAda (o : TransactionOutput) : TransactionOutput :=
  { o with value := { o.value with coin := cfg.minAda o } }

/-! ## Batches -/

structure OrderWithSpendDetails where
  order : HarvestOrder OutputRef
  ref : OutputRef
  coin : ℕ
  spend : Index.HarvestOrderSpend

structure HarvestBatch (T : Type) where
  bufferWallet : BufferWallet OutputRef
  walletOut : TransactionOutput
  walletRef : OutputRef
  orders : List OrderWithSpendDetails
  inputMerkleTree : T
  totalPayout : ℕ

structure BufferingBatch (G : Type) where
  bufferWallet : BufferWallet OutputRef
  walletOut : TransactionOutput
  walletRef : OutputRef
  gauges : List (Gauge G OutputRef × TransactionOutput)

/-- The transaction that a batch was turned into, with its outputs, and what is predicted of it. -/
structure Executed (G T : Type) where
  outputs : List TransactionOutput
  wallet : BufferWallet OutputRef
  bearer : TransactionOutput
  predictedMerkleTree : Option T
  harvestOrderSpends : List (OutputRef × Index.HarvestOrderSpend)
  gaugeUpdates : List (EntityUpdated (Gauge G OutputRef) OutputRef TransactionOutput)

variable {G : Type}

def bufferWalletAdaBuffer : ℕ := 10000

def harvestingTxAssumedBaseFee : ℕ := 800000

def checkRoot (tree : T) (config : BufferWalletConfig) : Exec Unit :=
  if (cfg.rootOrZero tree).bytes = config.merkleTreeRootHashDigest then .ok ()
  else .error (.explicit "assertion `left == right` failed")

/-- The output for a receiver. Each one bears its part of the fee and gets its part of the change. -/
def payoutOutput (networkId numPayouts share : ℕ) (o : OrderWithSpendDetails) :
    Exec TransactionOutput :=
  let reduction := harvestingTxAssumedBaseFee / numPayouts
  if reduction < o.coin then
    .ok ⟨o.order.rewardReceiver.toAddress networkId, ⟨o.coin - reduction + share,
      Function.update (fun _ => none) cfg.splash (some o.spend.amount)⟩, none, none⟩
  else .error (.explicit "assertion failed: user_value.coin > reduction")

/-- The last output gets what is left of the change. -/
def addResidue (residue : ℕ) : List TransactionOutput → List TransactionOutput
  | [] => []
  | [o] => [{ o with value := { o.value with coin := o.value.coin + residue } }]
  | o :: os => o :: addResidue residue os

/-- A harvest; there is none when the batch has no orders. The hash of the transaction and the
change are those of the finished transaction. -/
def executeHarvest (hash change : ℕ) (batch : HarvestBatch T) :
    Exec (Option (Executed G T)) :=
  if batch.orders.isEmpty then .ok none
  else do
    let numPayouts := batch.orders.length
    let spends := (batch.orders.map fun o => (o.ref, o.spend)).insertionSort fun a b => a.1 ≤ b.1
    let pd ← expect "called `Option::unwrap()` on a `None` value" batch.walletOut.pd
    let config ← BufferWalletConfig.tryFromPd pd
    let config ← expect "called `Option::unwrap()` on a `None` value" config
    checkRoot cfg batch.inputMerkleTree config
    let tree := cfg.index.append batch.inputMerkleTree (spends.map fun s => cfg.index.spendHash s.2)
    let root ← expect "called `Option::unwrap()` on a `None` value" (cfg.root tree)
    let deducted ← subToken batch.walletOut.value cfg.splash batch.totalPayout
    let coin ← addU64 (cfg.minAda { batch.walletOut with value := deducted }) bufferWalletAdaBuffer
    -- The data of `bwOut` is still that of the input.
    let bwOut : TransactionOutput := { batch.walletOut with value := { deducted with coin := coin } }
    let payouts ← batch.orders.mapM
      (payoutOutput cfg cfg.index.networkId numPayouts (change / numPayouts))
    let walletOutput : TransactionOutput := ⟨bwOut.address, bwOut.value,
      some (.datum { config with merkleTreeRootHashDigest := root.bytes }.intoPd), none⟩
    let balance ← subU64 batch.bufferWallet.balance batch.totalPayout
    return some
      { outputs := walletOutput :: addResidue (change % numPayouts) payouts
        wallet := { batch.bufferWallet with balance := balance, stateId := toLex (hash, 0) }
        bearer := bwOut
        predictedMerkleTree := some tree
        harvestOrderSpends := spends
        gaugeUpdates := [] }

def drainGauge (acc : TransactionOutput × List TransactionOutput)
    (g : Gauge G OutputRef × TransactionOutput) :
    Exec (TransactionOutput × List TransactionOutput) := do
  let amount ← expect "called `Option::unwrap()` on a `None` value"
    (g.2.value.multiasset cfg.splash)
  let value ← addToken acc.1.value cfg.splash amount
  let gaugeValue ← subToken g.2.value cfg.splash amount
  return (setMinAda cfg { acc.1 with value := value },
    acc.2 ++ [{ g.2 with value := gaugeValue }])

/-- The outputs are the wallet, the gauges in the order of the inputs, and the change. -/
def executeBuffering (hash : ℕ) (change : TransactionOutput) (batch : BufferingBatch G) :
    Exec (Option (Executed G T)) := do
  let gauges := batch.gauges.insertionSort fun a b => a.1.stateId ≤ b.1.stateId
  let drained ← gauges.foldlM (drainGauge cfg) (batch.walletOut, [])
  let walletOut := drained.1
  let balance ← expect "called `Option::unwrap()` on a `None` value"
    (walletOut.value.multiasset cfg.splash)
  return some
    { outputs := walletOut :: drained.2 ++ [change]
      wallet := ⟨toLex (hash, 0), balance, batch.bufferWallet.merkleTreeRootHash⟩
      bearer := walletOut
      predictedMerkleTree := none
      harvestOrderSpends := []
      gaugeUpdates := (gauges.zip drained.2).mapIdx fun ix g =>
        ⟨some g.1.1.stateId, (⟨g.1.1.id, toLex (hash, ix + 1), 0⟩, g.2)⟩ }

/-! ## What the transaction makes -/

inductive Batch (G T : Type) where
  | harvest (b : HarvestBatch T)
  | buffering (b : BufferingBatch G)

namespace Batch

def wallet : Batch G T → BufferWallet OutputRef
  | .harvest b => b.bufferWallet
  | .buffering b => b.bufferWallet

def walletOut : Batch G T → TransactionOutput
  | .harvest b => b.walletOut
  | .buffering b => b.walletOut

def walletRef : Batch G T → OutputRef
  | .harvest b => b.walletRef
  | .buffering b => b.walletRef

/-- The wallet of the batch is the one that its output holds. -/
def Coherent (batch : Batch G T) : Prop :=
  tryExtractBufferWallet cfg batch.walletOut batch.walletRef = .ok (some batch.wallet)

/-- A transaction for the batch, with its hash and its change. -/
def execute (hash : ℕ) (change : TransactionOutput) :
    Batch G T → Exec (Option (Executed G T))
  | .harvest b => executeHarvest cfg hash change.value.coin b
  | .buffering b => executeBuffering cfg hash change b

end Batch

/-- The payouts that are read from a harvest: for each order, the SPLASH in the first output at the
address of its receiver. An order without such an output is passed over. -/
def payoutsOf (outputs : List TransactionOutput) :
    List (HarvestOrder OutputRef) → Option (List (HarvestOrder OutputRef × ℕ))
  | [] => some []
  | order :: orders =>
    (outputs.find? (·.address = order.rewardReceiver.toAddress cfg.index.networkId)).elim
      (payoutsOf outputs orders) fun o =>
        (o.value.multiasset cfg.splash).bind fun amount =>
          (payoutsOf outputs orders).map ((order, amount) :: ·)

/-- The tree that is indexed when a harvest is confirmed on top of the tree it was built on, while
the receivers have harvested nothing else. -/
def TreeConfirmed [DecidableEq G] (b : HarvestBatch T) (e : Executed G T) : Prop :=
  ∀ (db db' : Index.IndexerDB G OutputRef TransactionOutput T) slot payouts update amount,
    payoutsOf cfg e.outputs ((b.orders.insertionSort fun o o' => o.ref ≤ o'.ref).map (·.order)) =
      some payouts →
    db.lastConfirmedMerkleTree.map Index.IndexedMerkleTree.tree = some b.inputMerkleTree →
    (∀ o ∈ b.orders,
      o.spend.epochStart = (db.lastEpochHarvested o.order.accountKey).elim 0 (· + 1)) →
    Index.indexEvent cfg.index slot db (.botHarvestingAction payouts update amount) = .ok db' →
    db'.lastConfirmedMerkleTree.map Index.IndexedMerkleTree.tree = e.predictedMerkleTree

/-- The prediction is what the first output holds, and its root passes the check of the next batch,
which takes the predicted tree or else the last confirmed one. -/
structure Faithful [DecidableEq G] (hash : ℕ) (lastConfirmed : T)
    (batch : Batch G T) (e : Executed G T) : Prop where
  bearer : e.outputs.head? = some e.bearer
  wallet : ∀ o, e.outputs.head? = some o →
    tryExtractBufferWallet cfg o (toLex (hash, 0)) = .ok (some e.wallet)
  tree : ∀ b, batch = .harvest b → TreeConfirmed cfg b e
  check : ∃ config, configOf e.bearer = .ok (some config) ∧
    checkRoot cfg (e.predictedMerkleTree.getD lastConfirmed) config = .ok ()

/-! ## Reading a wallet back -/

variable {cfg} {o : TransactionOutput} {ref : OutputRef} {w : BufferWallet OutputRef} {hash : ℕ}
  {change : TransactionOutput}

/-- What it takes to read a wallet from an output. -/
structure Holds (cfg : Setup T) (o : TransactionOutput) (config : BufferWalletConfig)
    (root : Bytes 32) : Prop where
  address : o.address.scriptHash = some cfg.walletScript
  auth : o.value.multiasset cfg.authToken = some 1
  datum : configOf o = .ok (some config)
  digest : fromRawBytes config.merkleTreeRootHashDigest = some root

variable {config : BufferWalletConfig} {e : Executed G T} {root : Bytes 32}

theorem tryExtractBufferWallet_of_holds (h : Holds cfg o config root) :
    tryExtractBufferWallet cfg o ref = .ok (some ⟨ref, balanceOf cfg o.value, root⟩) := by
  rw [tryExtractBufferWallet, if_pos h.address, h.datum]
  show (o.value.multiasset cfg.authToken).elim _ _ = _
  rw [h.auth, elim_some, if_neg (by simp), h.digest]
  rfl

theorem exists_holds (h : tryExtractBufferWallet cfg o ref = .ok (some w)) :
    ∃ config, Holds cfg o config w.merkleTreeRootHash := by
  unfold tryExtractBufferWallet at h
  split at h
  case isFalse => cases h
  case isTrue haddress =>
    obtain ⟨config?, hconfig, h⟩ := bind_eq_ok.1 h
    cases config? with
    | none => cases h
    | some config =>
      rw [elim_some] at h
      cases hauth : o.value.multiasset cfg.authToken with
      | none =>
        rw [hauth] at h
        cases h
      | some qty =>
        rw [hauth, elim_some] at h
        split at h
        case isTrue => cases h
        case isFalse hqty =>
          obtain rfl : qty = 1 := not_not.1 hqty
          cases hroot : (fromRawBytes config.merkleTreeRootHashDigest : Option (Bytes 32)) with
          | none =>
            rw [hroot] at h
            cases h
          | some root =>
            rw [hroot] at h
            cases Except.ok.inj h
            exact ⟨config, haddress, hauth, hconfig, hroot⟩

variable {b : HarvestBatch T} {lastConfirmed tree : T}

theorem checkRoot_eq_ok : checkRoot cfg tree config = .ok () ↔
      (cfg.rootOrZero tree).bytes = config.merkleTreeRootHashDigest := by
  unfold checkRoot
  split
  case isTrue h => exact iff_of_true rfl h
  case isFalse h => exact iff_of_false nofun h

theorem bytes_inj {n : ℕ} {a b : Bytes n} (h : a.bytes = b.bytes) : a = b := by
  cases a
  cases b
  cases h
  rfl

/-- The root in the data of a wallet is the root of a tree just when it passes the check. -/
theorem Holds.checkRoot (h : Holds cfg o config root) :
    checkRoot cfg tree config = .ok () ↔ cfg.rootOrZero tree = root := by
  rw [checkRoot_eq_ok, ← bytes_of_fromRawBytes h.digest]
  exact ⟨bytes_inj, congrArg _⟩

/-! ## Harvests -/

structure Harvested (cfg : Setup T) (b : HarvestBatch T) (e : Executed G T)
    (config : BufferWalletConfig) (tree : T) (root : Bytes 32) : Prop where
  datum : configOf b.walletOut = .ok (some config)
  check : checkRoot cfg b.inputMerkleTree config = .ok ()
  digest : cfg.root tree = some root
  predicted : e.predictedMerkleTree = some tree
  wallet : e.wallet.merkleTreeRootHash = b.bufferWallet.merkleTreeRootHash
  output : ∃ o, e.outputs.head? = some o ∧
    configOf o = .ok (some { config with merkleTreeRootHashDigest := root.bytes })

theorem exists_harvested {change : ℕ} (h : executeHarvest cfg hash change b = .ok (some e)) :
    ∃ config tree root, Harvested cfg b e config tree root := by
  unfold executeHarvest at h
  split at h
  case isTrue => cases h
  case isFalse =>
    obtain ⟨pd, hpd, h⟩ := bind_eq_ok.1 h
    obtain ⟨config?, hconfig?, h⟩ := bind_eq_ok.1 h
    obtain ⟨config, hconfig, h⟩ := bind_eq_ok.1 h
    obtain ⟨_, hcheck, h⟩ := bind_eq_ok.1 h
    obtain ⟨root, hroot, h⟩ := bind_eq_ok.1 h
    obtain ⟨deducted, -, h⟩ := bind_eq_ok.1 h
    obtain ⟨coin, -, h⟩ := bind_eq_ok.1 h
    obtain ⟨payouts, -, h⟩ := bind_eq_ok.1 h
    obtain ⟨balance, -, h⟩ := bind_eq_ok.1 h
    cases Except.ok.inj h
    rw [expect_eq_ok] at hpd hconfig hroot
    refine ⟨config, _, root, ⟨?_, hcheck, hroot, rfl, rfl, _, rfl, ?_⟩⟩
    · rw [configOf, hpd, elim_some, hconfig?, hconfig]
    · exact BufferWalletConfig.tryFromPd_intoPd _

/-- **The prediction of a harvest is not faithful when its leaves change the root**: it keeps the
root of the wallet that was spent. -/
theorem not_faithful_harvest [DecidableEq G]
    (hcoherent : (Batch.harvest b : Batch G T).Coherent cfg)
    (h : executeHarvest cfg hash change.value.coin b = .ok (some e))
    (hroot : ∀ tree ∈ e.predictedMerkleTree, cfg.rootOrZero tree ≠ cfg.rootOrZero b.inputMerkleTree) :
    ¬ Faithful cfg hash lastConfirmed (.harvest b) e := by
  intro hfaithful
  obtain ⟨config, tree, root, hharvested⟩ := exists_harvested h
  obtain ⟨o, ho, hconfig⟩ := hharvested.output
  obtain ⟨config', hholds⟩ := exists_holds (hfaithful.wallet o ho)
  obtain ⟨config₀, hholds₀⟩ := exists_holds hcoherent
  cases Except.ok.inj (hconfig.symm.trans hholds.datum)
  cases Except.ok.inj (hharvested.datum.symm.trans hholds₀.datum)
  have hnew : root = e.wallet.merkleTreeRootHash := by
    have hread := hholds.digest
    rw [fromRawBytes_bytes] at hread
    exact Option.some.inj hread
  have hold := hholds₀.checkRoot.1 hharvested.check
  apply hroot tree hharvested.predicted
  rw [hold, Setup.rootOrZero, hharvested.digest, getD_some, hnew, hharvested.wallet]
  rfl

/-! ## Buffering -/

/-- Outputs that differ in their lovelace and their SPLASH only. -/
structure SameWallet (cfg : Setup T) (o o' : TransactionOutput) : Prop where
  address : o'.address = o.address
  datum : o'.datum = o.datum
  tokens : ∀ t, t ≠ cfg.splash → o'.value.multiasset t = o.value.multiasset t

theorem SameWallet.holds {o' : TransactionOutput} (h : SameWallet cfg o o')
    (hholds : Holds cfg o config root) :
    Holds cfg o' config root := by
  refine ⟨by rw [h.address]; exact hholds.address, ?_, ?_, hholds.digest⟩
  · rw [h.tokens _ cfg.authToken_ne_splash]
    exact hholds.auth
  · have hdatum := hholds.datum
    unfold configOf TransactionOutput.pd at hdatum ⊢
    rw [h.datum]
    exact hdatum

variable {acc acc' : TransactionOutput × List TransactionOutput}

theorem sameWallet_drainGauge
    {g : Gauge G OutputRef × TransactionOutput} (h : drainGauge cfg acc g = .ok acc') :
    SameWallet cfg acc.1 acc'.1 := by
  obtain ⟨amount, -, h⟩ := bind_eq_ok.1 h
  obtain ⟨value, hvalue, h⟩ := bind_eq_ok.1 h
  obtain ⟨gaugeValue, -, h⟩ := bind_eq_ok.1 h
  cases h
  refine ⟨rfl, rfl, fun t ht => ?_⟩
  unfold addToken at hvalue
  cases hsum : addU64 ((acc.1.value.multiasset cfg.splash).getD 0) amount with
  | error e =>
    rw [hsum] at hvalue
    cases hvalue
  | ok sum =>
    rw [hsum] at hvalue
    cases hvalue
    exact Function.update_of_ne ht _ _

theorem sameWallet_drain {gauges : List (Gauge G OutputRef × TransactionOutput)}
    (h : gauges.foldlM (drainGauge cfg) acc = .ok acc') : SameWallet cfg acc.1 acc'.1 := by
  induction gauges generalizing acc with
  | nil =>
    cases h
    exact ⟨rfl, rfl, fun _ _ => rfl⟩
  | cons g gauges ih =>
    rw [List.foldlM_cons] at h
    obtain ⟨acc₁, hacc₁, h⟩ := bind_eq_ok.1 h
    have hfirst := sameWallet_drainGauge hacc₁
    have hrest := ih h
    exact ⟨hrest.address.trans hfirst.address, hrest.datum.trans hfirst.datum,
      fun t ht => (hrest.tokens t ht).trans (hfirst.tokens t ht)⟩

/-- What a buffering transaction gets from its batch. -/
structure Buffered (cfg : Setup T) (hash : ℕ) (b : BufferingBatch G)
    (e : Executed G T) : Prop where
  same : SameWallet cfg b.walletOut e.bearer
  output : e.outputs.head? = some e.bearer
  predicted : e.predictedMerkleTree = none
  wallet : ∃ balance, e.bearer.value.multiasset cfg.splash = some balance ∧
    e.wallet = ⟨toLex (hash, 0), balance, b.bufferWallet.merkleTreeRootHash⟩

theorem buffered_of_ok {b : BufferingBatch G}
    (h : executeBuffering cfg hash change b = .ok (some e)) : Buffered cfg hash b e := by
  obtain ⟨drained, hdrained, h⟩ := bind_eq_ok.1 h
  obtain ⟨balance, hbalance, h⟩ := bind_eq_ok.1 h
  cases Except.ok.inj h
  exact ⟨sameWallet_drain hdrained, rfl, rfl, balance, expect_eq_ok.1 hbalance, rfl⟩

/-- The SPLASH of an output is found when it is read. -/
def Readable (cfg : Setup T) (value : Value) : Prop :=
  value.multiasset cfg.splash = some (balanceOf cfg value)

theorem faithful_buffering_iff [DecidableEq G] {b : BufferingBatch G}
    (hcoherent : (Batch.buffering b : Batch G T).Coherent cfg)
    (h : executeBuffering cfg hash change b = .ok (some e)) :
    Faithful cfg hash lastConfirmed (.buffering b) e ↔
      Readable cfg e.bearer.value ∧
        cfg.rootOrZero lastConfirmed = b.bufferWallet.merkleTreeRootHash := by
  have hbuffered := buffered_of_ok h
  obtain ⟨config, hholds₀⟩ := exists_holds hcoherent
  have hholds := hbuffered.same.holds hholds₀
  obtain ⟨balance, hbalance, hwallet⟩ := hbuffered.wallet
  constructor
  · intro hfaithful
    constructor
    · have hread := hfaithful.wallet _ hbuffered.output
      rw [tryExtractBufferWallet_of_holds hholds, hwallet] at hread
      have heq := congrArg BufferWallet.balance (Option.some.inj (Except.ok.inj hread))
      rw [Readable, hbalance]
      exact congrArg some heq.symm
    · obtain ⟨config', hconfig', hcheck⟩ := hfaithful.check
      cases Except.ok.inj (hconfig'.symm.trans hholds.datum)
      rw [hbuffered.predicted, getD_none] at hcheck
      exact hholds.checkRoot.1 hcheck
  · rintro ⟨hreadable, hroot⟩
    refine ⟨hbuffered.output, fun o ho => ?_, fun b' hb' => (nomatch hb'), config, hholds.datum, ?_⟩
    · cases hbuffered.output.symm.trans ho
      rw [tryExtractBufferWallet_of_holds hholds, hwallet]
      rw [Readable, hbalance] at hreadable
      rw [Option.some.inj hreadable]
      rfl
    · rw [hbuffered.predicted, getD_none]
      exact hholds.checkRoot.2 hroot

def sampleSetup : Setup (List (Bytes 32)) where
  index := ⟨id, 1, [], (· ++ ·), fun s => replicate 32 (UInt8.ofNat s.amount), 10⟩
  root := List.getLast?
  walletScript := replicate 28 1
  authToken := ⟨1, 164⟩
  splash := ⟨2, 1⟩
  firstOfPolicy m _ := if (m ⟨2, 1⟩).isSome then some ⟨2, 1⟩ else none
  minAda _ := 1000000
  authToken_ne_splash := by decide

/-- A wallet with the root of the tree without leaves. -/
def sampleWalletOut : TransactionOutput :=
  ⟨.enterprise 1 (.script (replicate 28 1)),
    ⟨2000000, writeTokens [(⟨1, 164⟩, 1), (⟨2, 1⟩, 100)]⟩,
    some (.datum (BufferWalletConfig.mk (replicate 32 0).bytes []).intoPd), none⟩

def sampleWallet : BufferWallet OutputRef := ⟨toLex (1, 0), 100, replicate 32 0⟩

def sampleOrder : OrderWithSpendDetails where
  order := ⟨toLex (5, 0), replicate 28 3, (0, 0), ⟨.pubKey (replicate 28 4), none⟩⟩
  ref := toLex (5, 0)
  coin := 3000000
  spend := ⟨40, 0, 0, replicate 28 3, .enterprise 1 (.pubKey (replicate 28 4))⟩

def sampleHarvest : HarvestBatch (List (Bytes 32)) :=
  ⟨sampleWallet, sampleWalletOut, toLex (1, 0), [sampleOrder], [], 40⟩

def sampleChange : TransactionOutput := ⟨.enterprise 1 (.pubKey (replicate 28 9)),
  ⟨0, fun _ => none⟩, none, none⟩

/-- A batch on top of what was predicted. -/
def nextHarvest (hash : ℕ) (e : Executed ℕ (List (Bytes 32))) (tree : List (Bytes 32)) :
    HarvestBatch (List (Bytes 32)) :=
  ⟨e.wallet, e.bearer, toLex (hash, 0), [{ sampleOrder with ref := toLex (6, 0) }], tree, 40⟩

theorem coherent_sampleHarvest :
    (Batch.harvest sampleHarvest : Batch ℕ (List (Bytes 32))).Coherent sampleSetup := rfl

theorem eq_ok_of_isSome {α : Type} {x : Exec (Option α)} (h : x.toOption.join.isSome) :
    x = .ok (some (x.toOption.join.get h)) := by
  cases x with
  | error e => cases h
  | ok a =>
    cases a with
    | none => cases h
    | some a => rfl

theorem isSome_sampleHarvest :
    (Batch.execute sampleSetup 7 sampleChange
      (.harvest sampleHarvest : Batch ℕ (List (Bytes 32)))).toOption.join.isSome := by
  decide +kernel

def sampleHarvested : Executed ℕ (List (Bytes 32)) := Option.get _ isSome_sampleHarvest

def sampleGauge : Gauge ℕ OutputRef × TransactionOutput :=
  (⟨1, toLex (3, 0), 25⟩, ⟨.enterprise 1 (.script (replicate 28 8)),
    ⟨2000000, writeTokens [(⟨2, 1⟩, 25)]⟩, none, none⟩)

def sampleBuffering : BufferingBatch ℕ := ⟨sampleWallet, sampleWalletOut, toLex (1, 0), [sampleGauge]⟩

theorem isSome_sampleBuffering :
    (Batch.execute sampleSetup 7 sampleChange
      (.buffering sampleBuffering : Batch ℕ (List (Bytes 32)))).toOption.join.isSome := by
  decide +kernel

def sampleBuffered : Executed ℕ (List (Bytes 32)) := Option.get _ isSome_sampleBuffering

end Splash.Rewards.Batches
