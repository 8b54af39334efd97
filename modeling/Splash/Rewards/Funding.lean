import Splash.Cardano.Ledger
import Splash.Lib.OrdMap

/-!
# Funding boxes

The boxes that pay the fees of the reward distributor. The repository keeps a table for each of the
four states of a box. The executor spends boxes and predicts the change, payments to the funding
address are read from blocks, and a transaction that leaves the mempool is taken back.

* `FundingRepo` — the tables and their operations.
* `AvailableFundingBoxes.select` — the boxes that a transaction is funded with.
* `Bot.submit`, `Bot.rollForward`, `Bot.rollBackward`, `Bot.dropped` — what happens to the tables.
* `foldlM_move` — what moving boxes between two tables does to lookups.
-/

namespace Splash.Rewards.Funding

open Lib Cardano Function List

abbrev OutputRef := ℕ ×ₗ ℕ

structure FundingBox where
  value : Value
  id : OutputRef

inductive BoxState where
  | confirmedAvailable
  | predictedAvailable
  | confirmedSpent
  | predictedSpent
  deriving DecidableEq

/-! ## The repository -/

/-- The records of each state, by the identifiers of the boxes. -/
structure FundingRepo where
  table : BoxState → OrdMap OutputRef FundingBox

structure AvailableFundingBoxes where
  confirmed : List FundingBox
  predicted : List FundingBox

namespace FundingRepo

def empty : FundingRepo := ⟨fun _ => .empty⟩

variable (r : FundingRepo)

def get (k : BoxState) (id : OutputRef) : Option FundingBox := (r.table k).get? id

def put (k : BoxState) (id : OutputRef) (f : FundingBox) : FundingRepo :=
  ⟨update r.table k ((r.table k).insert id f)⟩

def delete (k : BoxState) (id : OutputRef) : FundingRepo :=
  ⟨update r.table k ((r.table k).erase id)⟩

def collect : AvailableFundingBoxes :=
  ⟨(r.table .confirmedAvailable).values, (r.table .predictedAvailable).values⟩

def putConfirmed (f : FundingBox) : FundingRepo :=
  let r' := if (r.get .predictedAvailable f.id).isSome then r.delete .predictedAvailable f.id else r
  r'.put .confirmedAvailable f.id f

def putPredicted (f : FundingBox) : FundingRepo :=
  r.put .predictedAvailable f.id f

def move (a b : BoxState) (r : FundingRepo) (id : OutputRef) (f : FundingBox) : FundingRepo :=
  (r.delete a id).put b id f

section

variable (id : OutputRef)

def spendConfirmed : FundingRepo :=
  (r.get .confirmedAvailable id).elim
    ((r.get .predictedSpent id).elim r (move .predictedSpent .confirmedSpent r id))
    (move .confirmedAvailable .confirmedSpent r id)

def unspendConfirmed : FundingRepo :=
  (r.get .confirmedSpent id).elim r (move .confirmedSpent .confirmedAvailable r id)

def spendPredicted : Exec FundingRepo :=
  (Exec.expect "called unwrap on a None value" (r.get .predictedAvailable id)).map
    (move .predictedAvailable .predictedSpent r id)

def unspendPredicted : Exec FundingRepo :=
  (Exec.expect "called unwrap on a None value" (r.get .predictedSpent id)).map
    (move .predictedSpent .predictedAvailable r id)

def eliminatePredicted : FundingRepo :=
  r.delete .predictedAvailable id

/-- The record does not have to be there. -/
def eliminateConfirmed : FundingRepo :=
  r.delete .confirmedAvailable id

end

end FundingRepo

/-! ## Funding a transaction -/

def gaugeBufferingTxMinimalFundingBoxBalance : ℕ := 2000000

/-- Which list a box was taken from. -/
inductive Origin where
  | confirmed
  | predicted
  deriving DecidableEq

namespace AvailableFundingBoxes

def totalLovelaces (a : AvailableFundingBoxes) : Exec ℕ := do
  let predicted ← a.predicted.foldlM (fun acc f => addU64 acc f.value.coin) 0
  let confirmed ← a.confirmed.foldlM (fun acc f => addU64 acc f.value.coin) 0
  addU64 predicted confirmed

/-- Takes boxes until their lovelace is above the minimum. -/
def takeBoxes (value : ℕ) : List (Origin × FundingBox) → Exec (List (Origin × FundingBox))
  | [] => .ok []
  | b :: l => do
    let value ← addU64 value b.2.value.coin
    if gaugeBufferingTxMinimalFundingBoxBalance < value then return [b]
    else return b :: (← takeBoxes value l)

/-- The predicted and the confirmed boxes to spend, of which the confirmed ones are taken first. -/
def select (a : AvailableFundingBoxes) : Exec (List OutputRef × List OutputRef) := do
  let total ← a.totalLovelaces
  if gaugeBufferingTxMinimalFundingBoxBalance < total then
    let boxes ← takeBoxes 0
      (a.confirmed.map (Prod.mk .confirmed) ++ a.predicted.map (Prod.mk .predicted))
    return ((boxes.filter (·.1 = .predicted)).map (·.2.id),
      (boxes.filter (·.1 = .confirmed)).map (·.2.id))
  else throw (.explicit
    "assertion failed: available_boxes.total_lovelaces() > GAUGE_BUFFERING_TX_MINIMAL_FUNDING_BOX_BALANCE")

end AvailableFundingBoxes

/-! ## Transactions -/

/-- The operator's keys, the scripts whose outputs are indexed, and the readers of other entities,
which all sit at scripts. -/
structure Setup where
  network : ℕ
  payment : Ed25519KeyHash
  stake : Ed25519KeyHash
  utxoFilter : List ScriptHash
  isHarvestOrder : TransactionOutput → Bool
  isGauge : TransactionOutput → Bool
  isBufferWallet : TransactionOutput → Bool
  isGauge_script : ∀ o, isGauge o = true → o.address.scriptHash ≠ none
  isBufferWallet_script : ∀ o, isBufferWallet o = true → o.address.scriptHash ≠ none

def Setup.fundingAddress (cfg : Setup) : Address :=
  .base cfg.network (.pubKey cfg.payment) (.pubKey cfg.stake)

/-- What is read of a transaction. -/
structure Tx where
  hash : ℕ
  inputs : List OutputRef
  outputs : List TransactionOutput
  /-- The transaction updates a wallet, an order, a gauge or the manager, so that it is not read as
  a change of funding boxes. -/
  otherEvent : Bool

variable (cfg : Setup)

def fundingBox (ref : OutputRef) (o : TransactionOutput) : Option FundingBox :=
  if o.address = cfg.fundingAddress then some ⟨o.value, ref⟩ else none

section

variable (utxos : Utxos) (tx : Tx)

def Tx.outputRef (ix : ℕ) : OutputRef := toLex (tx.hash, ix)

def Tx.created : List FundingBox :=
  tx.outputs.zipIdx.filterMap fun o => fundingBox cfg (tx.outputRef o.2) o.1

structure ConfirmedFundingBoxChanges where
  consumed : List OutputRef
  created : List FundingBox

/-- The outputs that are kept to resolve inputs. -/
abbrev Utxos := OutputRef → Option TransactionOutput

def testAddress (address : Address) (filter : List ScriptHash) : Bool :=
  address.scriptHash.elim false filter.contains

def indexUtxos : Utxos :=
  tx.outputs.zipIdx.foldl (fun u o =>
    if testAddress o.1.address cfg.utxoFilter then
      update u (tx.outputRef o.2) (some o.1)
    else u) utxos

def ConfirmedFundingBoxChanges.tryFromLedger : Option ConfirmedFundingBoxChanges :=
  let consumed := tx.inputs.filter fun i => ((utxos i).bind (fundingBox cfg i)).isSome
  let created := tx.created cfg
  if !consumed.isEmpty || !created.isEmpty then some ⟨consumed, created⟩ else none

/-- A transaction is read as a change of funding boxes when it is nothing else. -/
def fundingEvent : Option ConfirmedFundingBoxChanges :=
  if tx.otherEvent then none else ConfirmedFundingBoxChanges.tryFromLedger cfg utxos tx

end

/-! ## The distributor -/

structure Bot where
  utxos : Utxos
  repo : FundingRepo

namespace Bot

def init : Bot := ⟨fun _ => none, .empty⟩

def readEvents (utxos : Utxos) : List Tx → Utxos × List ConfirmedFundingBoxChanges
  | [] => (utxos, [])
  | tx :: txs =>
    let utxos := indexUtxos cfg utxos tx
    let rest := readEvents utxos txs
    (rest.1, (fundingEvent cfg utxos tx).toList ++ rest.2)

section

variable (r : FundingRepo) (changes : ConfirmedFundingBoxChanges)

def indexFunding : FundingRepo :=
  changes.created.foldl .putConfirmed (changes.consumed.foldl .spendConfirmed r)

def unindexFunding : FundingRepo :=
  changes.created.foldl (fun r f => r.eliminateConfirmed f.id)
    (changes.consumed.foldl .unspendConfirmed r)

def rollForward (s : Bot) (block : List Tx) : Bot :=
  let read := readEvents cfg s.utxos block
  ⟨read.1, read.2.foldl indexFunding s.repo⟩

/-- The transactions of a block are undone from the last one. -/
def rollBackward (s : Bot) (block : List Tx) : Bot :=
  let read := readEvents cfg s.utxos block.reverse
  ⟨read.1, read.2.foldl unindexFunding s.repo⟩

def submit (s : Bot) (spentPredicted spentConfirmed : List OutputRef) (created : List FundingBox) :
    Exec Bot := do
  let repo ← spentPredicted.foldlM FundingRepo.spendPredicted s.repo
  return ⟨s.utxos, created.foldl .putPredicted (spentConfirmed.foldl .spendConfirmed repo)⟩

def droppedInput (utxos : Utxos) (r : FundingRepo) (i : OutputRef) : Exec FundingRepo :=
  (utxos i).elim (.ok r) fun o =>
    if cfg.isHarvestOrder o then .ok r
    else if (fundingBox cfg i o).isSome then r.unspendPredicted i
    else .ok r

def droppedOutput (ref : OutputRef) (o : TransactionOutput) : FundingRepo :=
  if cfg.isGauge o then r
  else if cfg.isBufferWallet o then r
  else if (fundingBox cfg ref o).isSome then r.eliminatePredicted ref
  else r

end

/-- What is taken back of a transaction that left the mempool. -/
def dropped (s : Bot) (tx : Tx) : Exec Bot := do
  let repo ← tx.inputs.foldlM (droppedInput cfg s.utxos) s.repo
  return ⟨s.utxos, tx.outputs.zipIdx.foldl
    (fun r o => droppedOutput cfg r (tx.outputRef o.2) o.1) repo⟩

end Bot

/-! ## Lookups -/

namespace FundingRepo

variable {r : FundingRepo} {k k' : BoxState} {id id' : OutputRef} {f : FundingBox}

@[simp] theorem get_empty : empty.get k id = none := rfl

@[simp] theorem get_put : (r.put k id f).get k' id' =
    if k' = k ∧ id' = id then some f else r.get k' id' := by
  unfold get put
  by_cases hk : k' = k
  · subst hk
    simp only [update_self, OrdMap.get?_insert, true_and]
  · simp only [update_of_ne hk, hk, false_and, if_false]

@[simp] theorem get_delete : (r.delete k id).get k' id' =
    if k' = k ∧ id' = id then none else r.get k' id' := by
  unfold get delete
  by_cases hk : k' = k
  · subst hk
    simp only [update_self, OrdMap.get?_erase, true_and]
  · simp only [update_of_ne hk, hk, false_and, if_false]

variable {l : List OutputRef} {a b : BoxState}

theorem get_move (hab : a ≠ b) : (move a b r id f).get k id' =
    if id' = id then if k = a then none else if k = b then some f else r.get k id' else r.get k id' := by
  unfold move
  rw [get_put, get_delete]
  by_cases hid : id' = id
  · by_cases hka : k = a
    · subst hka
      simp [hid, hab]
    · simp [hid, hka]
  · simp [hid]

/-- What happens to lookups when the records of `l` are moved from `a` to `b`. -/
structure Moved (a b : BoxState) (l : List OutputRef) (r r' : FundingRepo) : Prop where
  stays : ∀ k id, id ∉ l → r'.get k id = r.get k id
  left : ∀ id ∈ l, r'.get a id = none
  arrived : ∀ id ∈ l, r'.get b id = r.get a id
  others : ∀ k id, k ≠ a → k ≠ b → r'.get k id = r.get k id

theorem Moved.cons {r' : FundingRepo} (hab : a ≠ b)
    (hid : id ∉ l) (hf : r.get a id = some f) (h : Moved a b l (move a b r id f) r') :
    Moved a b (id :: l) r r' := by
  refine ⟨fun k i hi => ?_, fun i hi => ?_, fun i hi => ?_, fun k i hka hkb => ?_⟩
  · rw [mem_cons, not_or] at hi
    obtain ⟨hne, hl⟩ := hi
    rw [h.stays k i hl, get_move hab, if_neg hne]
  · rcases mem_cons.1 hi with rfl | hi
    · rw [h.stays a i hid, get_move hab, if_pos rfl, if_pos rfl]
    · exact h.left i hi
  · rcases mem_cons.1 hi with rfl | hi
    · rw [h.stays b i hid, get_move hab, if_pos rfl, if_neg hab.symm, if_pos rfl, hf]
    · have hne : i ≠ id := fun heq => hid (heq ▸ hi)
      rw [h.arrived i hi, get_move hab, if_neg hne]
  · rw [h.others k i hka hkb, get_move hab, if_neg hka, if_neg hkb, ite_self]

theorem foldlM_move (step : FundingRepo → OutputRef → Exec FundingRepo)
    (hstep : ∀ r id f, r.get a id = some f → step r id = .ok (move a b r id f)) (hab : a ≠ b)
    (hnodup : l.Nodup) (hl : ∀ id ∈ l, (r.get a id).isSome) :
    ∃ r', l.foldlM step r = .ok r' ∧ Moved a b l r r' := by
  induction l generalizing r with
  | nil =>
    exact ⟨r, rfl, fun _ _ _ => rfl, nofun, nofun, fun _ _ _ _ => rfl⟩
  | cons id l ih =>
    rw [nodup_cons] at hnodup
    obtain ⟨f, hf⟩ := Option.isSome_iff_exists.1 (hl id mem_cons_self)
    have hrest : ∀ i ∈ l, ((move a b r id f).get a i).isSome := by
      intro i hi
      have hne : i ≠ id := fun heq => hnodup.1 (heq ▸ hi)
      rw [get_move hab, if_neg hne]
      exact hl i (mem_cons_of_mem _ hi)
    obtain ⟨r', hr', hmoved⟩ := ih hnodup.2 hrest
    refine ⟨r', ?_, hmoved.cons hab hnodup.1 hf⟩
    rw [foldlM_cons, hstep r id f hf]
    exact hr'

theorem foldlM_spendPredicted (hnodup : l.Nodup)
    (hl : ∀ id ∈ l, (r.get .predictedAvailable id).isSome) :
    ∃ r', l.foldlM spendPredicted r = .ok r' ∧ Moved .predictedAvailable .predictedSpent l r r' := by
  refine foldlM_move spendPredicted (fun r id f hf => ?_) (by decide) hnodup hl
  rw [spendPredicted, hf]
  rfl

theorem foldl_spendConfirmed (hnodup : l.Nodup)
    (hl : ∀ id ∈ l, (r.get .confirmedAvailable id).isSome) :
    Moved .confirmedAvailable .confirmedSpent l r (l.foldl spendConfirmed r) := by
  obtain ⟨r', hr', hmoved⟩ := foldlM_move (fun r id => .ok (spendConfirmed r id))
    (fun r id f hf => by rw [spendConfirmed, hf]; rfl) (by decide) hnodup hl
  have hpure : l.foldlM (fun r id => (.ok (spendConfirmed r id) : Exec FundingRepo)) r =
      .ok (l.foldl spendConfirmed r) := foldlM_pure
  rw [hpure] at hr'
  rwa [Except.ok.inj hr']

theorem get_foldl_put {fs : List FundingBox} (hnodup : (fs.map FundingBox.id).Nodup) {g : FundingBox} :
    (fs.foldl (fun r f => r.put k f.id f) r).get k' id = some g ↔
      k' = k ∧ g ∈ fs ∧ g.id = id ∨ (k' = k → id ∉ fs.map FundingBox.id) ∧ r.get k' id = some g := by
  induction fs generalizing r with
  | nil => simp
  | cons f fs ih =>
    rw [map_cons, nodup_cons] at hnodup
    rw [foldl_cons, ih hnodup.2, get_put]
    by_cases hk : k' = k
    · subst hk
      by_cases hid : id = f.id
      · subst hid
        have hother : ∀ g ∈ fs, g.id ≠ f.id := fun g hg heq =>
          hnodup.1 (heq ▸ mem_map_of_mem hg)
        grind
      · grind
    · simp [hk]

theorem get_foldl_delete {ids : List OutputRef} :
    (ids.foldl (fun r i => r.delete k i) r).get k' id = some f ↔
      r.get k' id = some f ∧ (k' = k → id ∉ ids) := by
  induction ids generalizing r with
  | nil => simp
  | cons i ids ih =>
    rw [foldl_cons, ih, get_delete]
    grind

/-- A confirmed box is stored; nothing has to be removed when it was not predicted. -/
theorem foldl_putConfirmed {fs : List FundingBox}
    (h : ∀ f ∈ fs, r.get .predictedAvailable f.id = none) :
    fs.foldl putConfirmed r = fs.foldl (fun r f => r.put .confirmedAvailable f.id f) r := by
  induction fs generalizing r with
  | nil => rfl
  | cons f fs ih =>
    have hput : r.putConfirmed f = r.put .confirmedAvailable f.id f := by
      rw [putConfirmed, h f mem_cons_self]
      rfl
    rw [foldl_cons, foldl_cons, hput]
    apply ih
    intro g hg
    rw [get_put, if_neg (by simp)]
    exact h g (mem_cons_of_mem _ hg)

end FundingRepo

/-! ## Boxes of a transaction -/

variable {cfg} {tx : Tx} {f : FundingBox} {utxos : Utxos} {s : Bot}

variable {o : TransactionOutput} {ref : OutputRef}

theorem id_of_fundingBox (h : fundingBox cfg ref o = some f) : f.id = ref := by
  unfold fundingBox at h
  split at h
  · cases h
    rfl
  · cases h

theorem exists_of_mem_created (h : f ∈ tx.created cfg) : ∃ ix, f.id = tx.outputRef ix := by
  obtain ⟨o, -, ho⟩ := mem_filterMap.1 h
  exact ⟨o.2, id_of_fundingBox ho⟩

def FundingBox.txHash (id : OutputRef) : ℕ := (ofLex id).1

theorem txHash_of_mem_created (h : f ∈ tx.created cfg) : FundingBox.txHash f.id = tx.hash := by
  obtain ⟨ix, hix⟩ := exists_of_mem_created h
  rw [hix]
  rfl

theorem nodup_created (tx : Tx) : ((tx.created cfg).map FundingBox.id).Nodup := by
  have hpositions : tx.outputs.zipIdx.Pairwise fun a b => a.2 ≠ b.2 :=
    pairwise_map.1 (nodup_zipIdx_map_snd tx.outputs)
  refine pairwise_map.2 (pairwise_filterMap.2 (hpositions.imp ?_))
  intro a b hab f hf g hg heq
  rw [id_of_fundingBox hf, id_of_fundingBox hg] at heq
  exact hab (Prod.mk.inj heq).2

/-! ## Blocks -/

/-- Only outputs at scripts are indexed. -/
def Scripted (utxos : Utxos) : Prop := ∀ i o, utxos i = some o → o.address.scriptHash ≠ none

theorem fundingBox_eq_none (h : o.address.scriptHash ≠ none) : fundingBox cfg ref o = none := by
  apply if_neg
  intro heq
  rw [heq] at h
  exact h rfl

theorem Scripted.indexUtxos (h : Scripted utxos) (tx : Tx) : Scripted (indexUtxos cfg utxos tx) := by
  unfold Funding.indexUtxos
  generalize tx.outputs.zipIdx = outputs
  induction outputs generalizing utxos with
  | nil => exact h
  | cons o outputs ih =>
    rw [foldl_cons]
    apply ih
    split
    case isFalse => exact h
    case isTrue hscript =>
      intro i o' ho'
      by_cases hi : i = tx.outputRef o.2
      · rw [hi, update_self] at ho'
        cases ho'
        intro hnone
        rw [testAddress, hnone] at hscript
        cases hscript
      · rw [update_of_ne hi] at ho'
        exact h i o' ho'

/-- No funding box is seen to be consumed. -/
theorem fundingEvent_of_scripted (h : Scripted utxos) (tx : Tx) :
    fundingEvent cfg utxos tx =
      if tx.otherEvent || (tx.created cfg).isEmpty then none else some ⟨[], tx.created cfg⟩ := by
  have hnone : tx.inputs.filter (fun i => ((utxos i).bind (fundingBox cfg i)).isSome) = [] := by
    rw [filter_eq_nil_iff]
    intro i _ hsome
    cases ho : utxos i with
    | none =>
      rw [ho] at hsome
      cases hsome
    | some o =>
      rw [ho, Option.bind_some, fundingBox_eq_none (h i o ho)] at hsome
      cases hsome
  unfold fundingEvent ConfirmedFundingBoxChanges.tryFromLedger
  rw [hnone]
  cases tx.otherEvent <;> cases hcreated : (tx.created cfg).isEmpty <;> simp [hcreated]

def payments (cfg : Setup) (block : List Tx) : List FundingBox :=
  (block.filter fun tx => !tx.otherEvent).flatMap (Tx.created cfg)

theorem readEvents_scripted (h : Scripted utxos) (block : List Tx) :
    Scripted (Bot.readEvents cfg utxos block).1 := by
  induction block generalizing utxos with
  | nil => exact h
  | cons tx block ih => exact ih (h.indexUtxos tx)

theorem foldl_readEvents (step : FundingRepo → FundingBox → FundingRepo)
    (event : FundingRepo → ConfirmedFundingBoxChanges → FundingRepo)
    (hevent : ∀ r fs, event r ⟨[], fs⟩ = fs.foldl step r) (h : Scripted utxos) (block : List Tx)
    (r : FundingRepo) :
    (Bot.readEvents cfg utxos block).2.foldl event r = (payments cfg block).foldl step r := by
  induction block generalizing utxos r with
  | nil => rfl
  | cons tx block ih =>
    have hindexed : Scripted (indexUtxos cfg utxos tx) := h.indexUtxos tx
    unfold Bot.readEvents
    simp only [foldl_append]
    rw [ih hindexed, fundingEvent_of_scripted hindexed]
    unfold payments
    rw [filter_cons]
    cases tx.otherEvent with
    | true => rfl
    | false =>
      simp only [Bool.not_false, if_true, flatMap_cons, foldl_append, Bool.false_or]
      congr 1
      cases hcreated : tx.created cfg with
      | nil => rfl
      | cons f fs => exact hevent r (f :: fs)

theorem rollForward_repo (h : Scripted s.utxos) (block : List Tx) :
    (s.rollForward cfg block).repo = (payments cfg block).foldl .putConfirmed s.repo :=
  foldl_readEvents .putConfirmed Bot.indexFunding (fun _ _ => rfl) h block s.repo

theorem rollBackward_repo (h : Scripted s.utxos) (block : List Tx) :
    (s.rollBackward cfg block).repo =
      (payments cfg block.reverse).foldl (fun r f => r.eliminateConfirmed f.id) s.repo :=
  foldl_readEvents _ Bot.unindexFunding (fun _ _ => rfl) h block.reverse s.repo

/-! ## Dropped transactions -/

/-- The boxes that a dropped transaction spent are not put back. -/
theorem foldlM_droppedInput (h : Scripted utxos) (r : FundingRepo) (inputs : List OutputRef) :
    inputs.foldlM (Bot.droppedInput cfg utxos) r = .ok r := by
  induction inputs with
  | nil => rfl
  | cons i inputs ih =>
    have hkept : Bot.droppedInput cfg utxos r i = .ok r := by
      unfold Bot.droppedInput
      cases ho : utxos i with
      | none => rfl
      | some o =>
        rw [Option.elim_some, fundingBox_eq_none (h i o ho)]
        split <;> rfl
    rw [foldlM_cons, hkept]
    exact ih

theorem droppedOutput_eq (r : FundingRepo) (ref : OutputRef) (o : TransactionOutput) :
    Bot.droppedOutput cfg r ref o =
      (fundingBox cfg ref o).elim r fun f => r.eliminatePredicted f.id := by
  unfold Bot.droppedOutput
  cases hbox : fundingBox cfg ref o with
  | none => simp
  | some f =>
    have hkey : o.address.scriptHash = none := by
      by_contra hscript
      rw [fundingBox_eq_none hscript] at hbox
      cases hbox
    have hgauge : cfg.isGauge o = false := by
      rw [Bool.eq_false_iff]
      exact fun hg => cfg.isGauge_script o hg hkey
    have hwallet : cfg.isBufferWallet o = false := by
      rw [Bool.eq_false_iff]
      exact fun hw => cfg.isBufferWallet_script o hw hkey
    simp [hgauge, hwallet, id_of_fundingBox hbox]

theorem dropped_eq (h : Scripted s.utxos) (tx : Tx) :
    s.dropped cfg tx = .ok ⟨s.utxos,
      ((tx.created cfg).map FundingBox.id).foldl (fun r i => r.delete .predictedAvailable i) s.repo⟩ := by
  have houtputs : ∀ (outputs : List (TransactionOutput × ℕ)) (r : FundingRepo),
      outputs.foldl (fun r o => Bot.droppedOutput cfg r (tx.outputRef o.2) o.1) r =
        ((outputs.filterMap fun o => fundingBox cfg (tx.outputRef o.2) o.1).map
          FundingBox.id).foldl (fun r i => r.delete .predictedAvailable i) r := by
    intro outputs
    induction outputs with
    | nil => exact fun _ => rfl
    | cons o outputs ih =>
      intro r
      rw [foldl_cons, ih, droppedOutput_eq, filterMap_cons]
      cases fundingBox cfg (tx.outputRef o.2) o.1 <;> rfl
  unfold Bot.dropped
  rw [foldlM_droppedInput h]
  show Except.ok (Bot.mk _ _) = _
  rw [houtputs]
  rfl

/-! ## Selected boxes -/

theorem takeBoxes_initial {value : ℕ} {l boxes : List (Origin × FundingBox)}
    (h : AvailableFundingBoxes.takeBoxes value l = .ok boxes) : boxes <+: l := by
  induction l generalizing value boxes with
  | nil =>
    cases h
    exact prefix_rfl
  | cons b l ih =>
    obtain ⟨value', -, h⟩ := Exec.bind_eq_ok.1 h
    split at h
    · cases h
      exact ⟨l, rfl⟩
    · obtain ⟨rest, hrest, h⟩ := Exec.bind_eq_ok.1 h
      cases h
      exact prefix_cons_inj b |>.2 (ih hrest)

theorem select_sublist {a : AvailableFundingBoxes} {ps cs : List OutputRef}
    (h : a.select = .ok (ps, cs)) :
    ps.Sublist (a.predicted.map FundingBox.id) ∧ cs.Sublist (a.confirmed.map FundingBox.id) := by
  obtain ⟨total, -, h⟩ := Exec.bind_eq_ok.1 h
  split at h
  case isFalse => cases h
  case isTrue =>
    obtain ⟨boxes, hboxes, h⟩ := Exec.bind_eq_ok.1 h
    obtain ⟨rfl, rfl⟩ := Prod.mk.inj (Except.ok.inj h)
    have hsub := (takeBoxes_initial hboxes).sublist
    have hpart : ∀ o : Origin, ((boxes.filter (·.1 = o)).map (·.2.id)).Sublist
        (((a.confirmed.map (Prod.mk Origin.confirmed) ++
          a.predicted.map (Prod.mk Origin.predicted)).filter (·.1 = o)).map (·.2.id)) :=
      fun o => (hsub.filter _).map _
    constructor
    · refine (hpart .predicted).trans ?_
      simp [filter_append, filter_map, comp_def]
    · refine (hpart .confirmed).trans ?_
      simp [filter_append, filter_map, comp_def]

end Splash.Rewards.Funding
