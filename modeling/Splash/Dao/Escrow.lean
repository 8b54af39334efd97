import Splash.Dao.Poll
import Splash.Dao.Tx

/-!
# Voting escrows

A voting escrow holds governance tokens, lent by the escrow factory against deposits of accepted
assets. A composition token is minted for each unit of a deposit, so the escrow shows what was
deposited for it. Escrows are made, extended and redeemed by orders.

* `exchangeOutputs` — the governance tokens and the composition tokens for a deposit.
* `makeVotingEscrow`, `extendVotingEscrow`, `redeemVotingEscrow` — the actions.
* `VEFactory.tryFromLedger`, `VotingEscrow.tryFromLedger` — the readers.
-/

namespace Splash.Dao

open Lib Cardano Amounts

/-! ## Entities -/

/-- Until when an escrow is locked, in milliseconds, or for how many milliseconds. -/
inductive Lock where
  | definite (untilMillis : ℕ)
  | indefinite (millis : ℕ)
  deriving DecidableEq, Repr

inductive Owner where
  | pubKey (bytes : List ℕ)
  | script (hash : ℕ)
  deriving DecidableEq, Repr

structure VotingEscrowConfig where
  lockedUntil : Lock
  owner : Owner
  version : ℕ
  lastWpEpoch : ℤ
  lastGpDeadline : ℤ
  deriving DecidableEq, Repr

structure VotingEscrow where
  govTokenAmount : ℕ
  gtToken : Token
  lockedUntil : Lock
  veIdentifierName : ℕ
  owner : Owner
  version : ℕ
  lastWpEpoch : ℤ
  lastGpDeadline : ℤ
  redeemed : Bool
  deriving DecidableEq, Repr

/-- An accepted asset, with the governance tokens for a unit of it as a ratio. -/
structure AcceptedAsset where
  token : Token
  numer : ℕ
  denom : ℕ
  deriving DecidableEq, Repr

structure VEFactoryDatum where
  acceptedAssets : List AcceptedAsset
  legacyAcceptedAssets : List AcceptedAsset
  deriving DecidableEq, Repr

/-- The escrow factory. Inventories are kept by their tokens. -/
structure VEFactory where
  acceptedAssets : List AcceptedAsset
  legacyAcceptedAssets : List AcceptedAsset
  acceptedAssetsInventory : OrdMap Token ℕ
  legacyAssetsInventory : OrdMap Token ℕ
  gtTokensAvailable : ℕ
  deriving DecidableEq

def isTokenAccepted (t : Token) (assets : List AcceptedAsset) : Bool :=
  assets.any fun asset => decide (asset.token = t)

namespace VEFactory

section

variable (f : VEFactory) (t : Token) (qty : ℕ) (isLegacyAsset : Bool)

def addAssetToInventory : VEFactory :=
  if isLegacyAsset then
    { f with legacyAssetsInventory := add f.legacyAssetsInventory t qty }
  else { f with acceptedAssetsInventory := add f.acceptedAssetsInventory t qty }

/-- Takes from an inventory. The asset stays listed when nothing of it is left. -/
def takeFromInventory (inventory : OrdMap Token ℕ) (t : Token) (qty : ℕ) :
    Exec (OrdMap Token ℕ) := do
  let held ← Exec.expect "called `Option::unwrap()` on a `None` value" (inventory.get? t)
  if qty ≤ held then pure (inventory.insert t (held - qty))
  else throw (.explicit "assertion failed: qty <= inventory[ix].1")

def removeAssetFromInventory : Exec VEFactory :=
  if isLegacyAsset then do
    let inventory ← takeFromInventory f.legacyAssetsInventory t qty
    pure { f with legacyAssetsInventory := inventory }
  else do
    let inventory ← takeFromInventory f.acceptedAssetsInventory t qty
    pure { f with acceptedAssetsInventory := inventory }

end

end VEFactory

/-- A state with its version and its output. -/
structure Bundled (State Version D : Type) where
  state : State
  version : Version
  output : Output D
  deriving DecidableEq

abbrev FactoryBundle := Bundled VEFactory TimedOutputRef (Option VEFactoryDatum)

abbrev EscrowBundle := Bundled VotingEscrow OutputRef VotingEscrowConfig

/-! ## Orders -/

/-- The metadata of an order: the signature of the owner over the order and a version of the escrow,
with what the message is framed by. -/
structure ProxyOrderMetadata where
  signature : List ℕ
  witnessScriptHash : ℕ
  prefixBytes : List ℕ
  postfixBytes : List ℕ
  version : ℕ
  deriving DecidableEq, Repr

structure MakeVotingEscrowOrder where
  veDatum : VotingEscrowConfig
  outputRef : TimedOutputRef
  bearer : Value
  deriving DecidableEq

structure ExtendVotingEscrowOrderState where
  veState : VotingEscrowConfig
  veIdentifierTokenName : ℕ
  deriving DecidableEq, Repr

structure ExtendVotingEscrowOrder where
  datum : ExtendVotingEscrowOrderState
  metadata : ProxyOrderMetadata
  outputRef : TimedOutputRef
  bearer : Value
  deriving DecidableEq

structure RedeemVotingEscrowOrderState where
  veState : VotingEscrowConfig
  veIdentifierTokenName : ℕ
  ownerStakeCredential : Option ℕ
  deriving DecidableEq, Repr

structure RedeemVotingEscrowOrder where
  datum : RedeemVotingEscrowOrderState
  metadata : ProxyOrderMetadata
  outputRef : TimedOutputRef
  bearer : Value
  deriving DecidableEq

structure WPollVoteState where
  veState : VotingEscrowConfig
  weightingPollAuthTokenName : ℕ
  veIdentifierTokenName : ℕ
  expectedDiff : List (FarmId × ℕ)
  deriving DecidableEq, Repr

structure WPollVoteOrder where
  datum : WPollVoteState
  metadata : ProxyOrderMetadata
  outputRef : TimedOutputRef
  bearer : Value
  deriving DecidableEq

inductive SignedDatum where
  | extend (datum : ExtendVotingEscrowOrderState)
  | redeem (datum : RedeemVotingEscrowOrderState)
  | vote (datum : WPollVoteState)
  deriving DecidableEq, Repr

inductive WitnessError where
  | ownerAuthFailure
  | votingEscrowIneligibleToVote (lastWpEpoch currentEpoch : ℤ)
  | veVersionMismatchWithTXMetadata (votingEscrowInputVersion orderVersion : ℕ)
  | veVersionMismatchWithOnchainProxy (votingEscrowOutputVersion proxyVersion : ℕ)
  deriving DecidableEq, Repr

inductive MakeVotingEscrowError where
  | nonAcceptedAsset
  | veFactoryDatumNotPresent
  | locktimeExceedsLimit
  deriving DecidableEq, Repr

inductive ExtendVotingEscrowError where
  | nonAcceptedAsset
  | veFactoryDatumNotPresent
  | locktimeExceedsLimit
  | witness (error : WitnessError)
  | other (message : String)
  deriving DecidableEq, Repr

inductive RedeemVotingEscrowError where
  | veFactoryDatumNotPresent
  | veStillLocked
  | ownerStakeCredentialMissingInRedeemer
  | witness (error : WitnessError)
  | other (message : String)
  deriving DecidableEq, Repr

/-! ## The deployment -/

/-- The policies and the computations outside the actions. Composition tokens have the hash of a
token for a name and identifiers that of an output; the policies differ from each other. -/
structure EscrowDeployment where
  gtToken : Token
  factoryAuthToken : Token
  compositionPolicy : ℕ
  compositionName : Token → ℕ
  identifierPolicy : ℕ
  identifierName : OutputRef → ℕ
  /-- The ada that an output with these tokens needs. -/
  minRequiredCoin : OrdMap Token ℕ → ℕ
  isPublicKey : List ℕ → Bool
  isSignature : List ℕ → Bool
  /-- The hash of the script, the data of the order and the version. -/
  computeWitnessMessage : (witnessScript : ℕ) → SignedDatum → (authenticatedVersion : ℕ) → List ℕ
  /-- Checks the signature of a key over a message. -/
  verify : (key message signature : List ℕ) → Bool
  compositionName_injective : Function.Injective compositionName
  composition_ne_gt : compositionPolicy ≠ gtToken.policy
  identifier_ne_gt : identifierPolicy ≠ gtToken.policy
  identifier_ne_composition : identifierPolicy ≠ compositionPolicy

namespace EscrowDeployment

def compositionToken (d : EscrowDeployment) (t : Token) : Token :=
  ⟨d.compositionPolicy, d.compositionName t⟩

def identifierToken (d : EscrowDeployment) (ref : OutputRef) : Token :=
  ⟨d.identifierPolicy, d.identifierName ref⟩

end EscrowDeployment

/-- What else an action is given: the times, the slot, the fee and the hash of the transaction. -/
structure ActionContext where
  nowInSeconds : ℕ
  currentPosixTime : ℕ
  currentSlot : ℕ
  estimatedFee : ℕ
  txHash : ℕ

/-! ## Shared computations -/

def maxLockTimeSeconds : ℕ := 31536000

def locktimeExceedsLimit (lock : Lock) (nowInSeconds : ℕ) : Bool :=
  match lock with
  | .definite untilMillis =>
    decide (untilMillis / 1000 > nowInSeconds ∧
      untilMillis / 1000 - nowInSeconds > maxLockTimeSeconds)
  | .indefinite millis => decide (millis / 1000 > maxLockTimeSeconds)

/-- Conversion to an unsigned 64-bit number. -/
def asU64 (n : ℤ) : ℕ := (n % 2 ^ 64).toNat

def asI128 (n : ℕ) : ℤ := if n < 2 ^ 127 then n else (n : ℤ) - 2 ^ 128

def i128Max : ℤ := 2 ^ 127 - 1

variable (d : EscrowDeployment)

/-- The change of one accepted asset: it is added to the governance tokens and to the mint. -/
def exchangeOutput (selfValue succValue : Value) (expectRedeem : Bool)
    (acc : ℕ × OrdMap Token ℕ) (asset : AcceptedAsset) : Exec (ℕ × OrdMap Token ℕ) := do
  let delta : ℤ := (succValue.qty asset.token : ℤ) - selfValue.qty asset.token
  if ¬ ((expectRedeem = true ∧ delta < 0) ∨ delta > 0) then
    throw (.explicit "assertion failed: expect_redeem && delta < 0 || delta > 0")
  if |delta * asI128 asset.numer| > i128Max then throw .overflow
  if asset.denom = 0 then throw .divisionByZero
  let compositionQty ← addU64 acc.1
    (asU64 ((delta * asI128 asset.numer).tdiv (asI128 asset.denom)))
  pure (compositionQty, add acc.2 (d.compositionToken asset.token) (asU64 delta))

/-- The governance tokens for the changes of the accepted assets, and the composition tokens. -/
def exchangeOutputs (selfValue succValue : Value)
    (acceptedDeposits : List AcceptedAsset) (expectRedeem : Bool) : Exec (ℕ × OrdMap Token ℕ) :=
  acceptedDeposits.foldlM (exchangeOutput d selfValue succValue expectRedeem) (0, OrdMap.empty)

def mintAll (tokens : OrdMap Token ℕ) : List Mint :=
  tokens.toList.map fun entry => ⟨entry.1, entry.2, true⟩

/-- The version of the state in an output of the built transaction. -/
def versionAt (txHash index : ℕ) : OutputRef := ⟨txHash, index⟩

/-- The signature of an owner over an order. The errors are those of the order's action. -/
def checkSignature {E : Type} (d : EscrowDeployment) (other : String → E)
    (witness : WitnessError → E) (bytes : List ℕ) (metadata : ProxyOrderMetadata)
    (datum : SignedDatum) : Except (Abort E) Unit :=
  let message := d.computeWitnessMessage metadata.witnessScriptHash datum metadata.version
  let fullMessage := metadata.prefixBytes ++ message ++ metadata.postfixBytes
  if ¬ d.isPublicKey bytes then .error (.rejected (other "Can't extrat PublicKey from bytes"))
  else if ¬ d.isSignature metadata.signature then
    .error (.rejected (other "Can't extract Ed25519Signature from bytes"))
  else if ¬ d.verify bytes fullMessage metadata.signature then
    .error (.rejected (witness .ownerAuthFailure))
  else .ok ()

/-! ## Making an escrow -/

def makeVotingEscrowVeFeeOffset : ℕ := 1020000

def depositAsset (f : VEFactory) (acc : Value × VEFactory) (entry : Token × ℕ) :
    Except (Abort MakeVotingEscrowError) (Value × VEFactory) :=
  if isTokenAccepted entry.1 f.acceptedAssets then
    .ok (acc.1.addUnsafe entry.1 entry.2, acc.2.addAssetToInventory entry.1 entry.2 false)
  else if isTokenAccepted entry.1 f.legacyAcceptedAssets then
    .ok (acc.1.addUnsafe entry.1 entry.2, acc.2.addAssetToInventory entry.1 entry.2 true)
  else .error (.rejected .nonAcceptedAsset)

/-- What an action returns: the transaction, the predicted factory and the predicted escrow. -/
structure Built where
  tx : Tx
  factory : Traced FactoryBundle TimedOutputRef
  escrow : Traced EscrowBundle OutputRef
  deriving DecidableEq

def makeVotingEscrow (order : MakeVotingEscrowOrder) (factory : FactoryBundle)
    (nowInSeconds currentSlot estimatedFee txHash : ℕ) :
    Except (Abort MakeVotingEscrowError) Built := do
  if locktimeExceedsLimit order.veDatum.lockedUntil nowInSeconds then
    throw (.rejected .locktimeExceedsLimit)
  let deposited ← order.bearer.multiasset.toList.foldlM (depositAsset factory.state)
    (factory.output.value, factory.state)
  let exchange ← attempt (exchangeOutputs d factory.output.value deposited.1
    factory.state.acceptedAssets false)
  let gtTokensAvailable ← attempt (subU64 deposited.2.gtTokensAvailable exchange.1)
  let factoryTokens := (deposited.1.subUnsafe d.gtToken exchange.1).multiasset
  if factory.output.datum = none then throw (.rejected .veFactoryDatumNotPresent)
  let identifier := d.identifierToken factory.version.outputRef
  let escrowTokens := add (add exchange.2 d.gtToken exchange.1) identifier 1
  let factoryOut : Output (Option VEFactoryDatum) :=
    ⟨⟨d.minRequiredCoin factoryTokens, factoryTokens⟩, factory.output.datum⟩
  let escrowCoin ← attempt (subU64 order.bearer.coin makeVotingEscrowVeFeeOffset)
  let escrowOut : Output VotingEscrowConfig := ⟨⟨escrowCoin, escrowTokens⟩, order.veDatum⟩
  let tx ← attempt (Blueprint.assemble
    { inputs := [factory.output.value, order.bearer]
      mints := mintAll exchange.2 ++ [⟨identifier, 1, true⟩]
      first := factoryOut.value
      second := escrowOut.value
      estimatedFee := estimatedFee })
  pure
    { tx := tx
      factory :=
        { state :=
            { state := { deposited.2 with gtTokensAvailable := gtTokensAvailable }
              version := ⟨versionAt txHash 0, currentSlot⟩
              output := factoryOut }
          prevStateId := some factory.version }
      escrow :=
        { state :=
            { state :=
                { govTokenAmount := exchange.1
                  gtToken := d.gtToken
                  lockedUntil := order.veDatum.lockedUntil
                  veIdentifierName := identifier.name
                  owner := order.veDatum.owner
                  version := order.veDatum.version
                  lastWpEpoch := order.veDatum.lastWpEpoch
                  lastGpDeadline := order.veDatum.lastGpDeadline
                  redeemed := false }
              version := versionAt txHash 1
              output := escrowOut }
          prevStateId := none } }

/-! ## Extending an escrow -/

def extendOrderFee : ℕ := 3000000

/-- The versions of the escrow that an extension is signed for and that it results in. The names of
the two versions are swapped in the first error. -/
def extendVersionChecks (version metadataVersion orderVersion : ℕ) :
    Except (Abort ExtendVotingEscrowError) Unit := do
  if metadataVersion ≠ version then
    throw (.rejected (.witness (.veVersionMismatchWithTXMetadata metadataVersion version)))
  let successor ← attempt (fit u32Max (version + 1))
  if successor ≠ orderVersion then
    throw (.rejected (.witness (.veVersionMismatchWithOnchainProxy successor orderVersion)))

def checkExtendOwner (owner : Owner) (order : ExtendVotingEscrowOrder) :
    Except (Abort ExtendVotingEscrowError) Unit :=
  match owner with
  | .pubKey bytes => checkSignature d .other .witness bytes order.metadata (.extend order.datum)
  | .script _ => .ok ()

/-- Deposits an asset of an extension. The inventory of the factory is not changed. -/
def depositExtension (f : VEFactory) (acc : Value) (entry : Token × ℕ) :
    Except (Abort ExtendVotingEscrowError) Value :=
  if isTokenAccepted entry.1 f.acceptedAssets then .ok (acc.addUnsafe entry.1 entry.2)
  else .error (.rejected .nonAcceptedAsset)

def extendVotingEscrow (order : ExtendVotingEscrowOrder)
    (escrow : EscrowBundle) (factory : FactoryBundle)
    (nowInSeconds currentSlot estimatedFee txHash : ℕ) :
    Except (Abort ExtendVotingEscrowError) Built := do
  checkExtendOwner d escrow.output.datum.owner order
  extendVersionChecks escrow.output.datum.version order.metadata.version order.datum.veState.version
  if locktimeExceedsLimit order.datum.veState.lockedUntil nowInSeconds then
    throw (.rejected .locktimeExceedsLimit)
  let deposited ← order.bearer.multiasset.toList.foldlM (depositExtension factory.state)
    factory.output.value
  let exchange ← attempt (exchangeOutputs d factory.output.value deposited
    factory.state.acceptedAssets false)
  let gtTokensAvailable ← attempt (subU64 factory.state.gtTokensAvailable exchange.1)
  let factoryTokens := (deposited.subUnsafe d.gtToken exchange.1).multiasset
  if factory.output.datum = none then throw (.rejected .veFactoryDatumNotPresent)
  let escrowTokens := add
    (addAll exchange.2 escrow.output.value.multiasset.toList) d.gtToken exchange.1
  let factoryOut : Output (Option VEFactoryDatum) :=
    ⟨⟨d.minRequiredCoin factoryTokens, factoryTokens⟩, factory.output.datum⟩
  let escrowCoin ← attempt (subU64 (escrow.output.value.coin + order.bearer.coin) extendOrderFee)
  let escrowOut : Output VotingEscrowConfig := ⟨⟨escrowCoin, escrowTokens⟩, order.datum.veState⟩
  let tx ← attempt (Blueprint.assemble
    { inputs := [factory.output.value, escrow.output.value, order.bearer]
      mints := mintAll exchange.2
      first := factoryOut.value
      second := escrowOut.value
      estimatedFee := estimatedFee })
  pure
    { tx := tx
      factory :=
        { state :=
            { state := { factory.state with gtTokensAvailable := gtTokensAvailable }
              version := ⟨versionAt txHash 0, currentSlot⟩
              output := factoryOut }
          prevStateId := some factory.version }
      escrow :=
        { state :=
            { state := { escrow.state with version := order.datum.veState.version }
              version := versionAt txHash 1
              output := escrowOut }
          prevStateId := none } }

/-! ## Redeeming an escrow -/

def redeemVersionCheck (version orderVersion : ℕ) :
    Except (Abort RedeemVotingEscrowError) Unit :=
  if version ≠ orderVersion then
    .error (.rejected (.witness (.veVersionMismatchWithTXMetadata version orderVersion)))
  else .ok ()

/-- The address of a key with a stake credential. -/
structure BaseAddress where
  payment : List ℕ
  stake : ℕ
  deriving DecidableEq, Repr

/-- The address of the owner, who has to be a key with a stake credential. -/
def redeemOwnerAddress (owner : Owner) (order : RedeemVotingEscrowOrder) :
    Except (Abort RedeemVotingEscrowError) BaseAddress :=
  match owner with
  | .pubKey bytes => do
    checkSignature d .other .witness bytes order.metadata (.redeem order.datum)
    order.datum.ownerStakeCredential.elim
      (.error (.rejected .ownerStakeCredentialMissingInRedeemer)) fun stake => .ok ⟨bytes, stake⟩
  | .script _ => .error (.panicked (.explicit "not yet implemented: Script addresses not yet supported"))

def stillLocked (lock : Lock) (nowInSeconds : ℕ) : Bool :=
  match lock with
  | .definite untilMillis => decide (nowInSeconds * 1000 ≤ untilMillis)
  | .indefinite _ => true

def policyEntries (v : Value) (policy : ℕ) : List (Token × ℕ) :=
  v.multiasset.toList.filter fun entry => decide (entry.1.policy = policy)

structure Redemption where
  ownerTokens : OrdMap Token ℕ
  factoryOut : Value
  factory : VEFactory
  burns : List Mint
  identifier : Option Token
  deriving DecidableEq

section

variable (escrowValue : Value) (acc : Redemption) (t : Token)

def returnDeposit (isLegacyAsset : Bool) : Exec Redemption :=
  (escrowValue.multiasset.get? (d.compositionToken t)).elim (pure acc) fun qty => do
    let factory ← acc.factory.removeAssetFromInventory t qty isLegacyAsset
    pure { acc with
      ownerTokens := add acc.ownerTokens t qty
      factoryOut := acc.factoryOut.subUnsafe t qty
      factory := factory
      burns := acc.burns ++ [⟨d.compositionToken t, qty, false⟩] }

/-- Returns the governance tokens of the escrow to the factory. -/
def returnGt : Exec Redemption :=
  match policyEntries escrowValue d.gtToken.policy with
  | [] => pure acc
  | [entry] =>
    if entry.1 = d.gtToken then
      pure { acc with
        factoryOut := acc.factoryOut.addUnsafe d.gtToken entry.2
        factory := { acc.factory with
          gtTokensAvailable := acc.factory.gtTokensAvailable + entry.2 } }
    else throw (.explicit "assertion `left == right` failed")
  | _ => throw (.explicit "assertion `left == right` failed")

def findIdentifier : Exec Redemption :=
  match policyEntries escrowValue d.identifierPolicy with
  | [] => pure acc
  | [entry] =>
    if entry.2 = 1 then pure { acc with identifier := some entry.1 }
    else throw (.explicit "assertion `left == right` failed")
  | _ => throw (.explicit "assertion `left == right` failed")

/-- Goes through the value of the escrow for one asset: each time the governance tokens are
returned. -/
def redeemAsset (entry : AcceptedAsset × Bool) : Exec Redemption := do
  let returned ← returnDeposit d escrowValue acc entry.1.token entry.2
  let settled ← returnGt d escrowValue returned
  findIdentifier d escrowValue settled

end

/-- The accepted assets, then the legacy ones. -/
def redeemableAssets (f : VEFactory) : List (AcceptedAsset × Bool) :=
  f.acceptedAssets.map (·, false) ++ f.legacyAcceptedAssets.map (·, true)

/-- What a redemption returns: the transaction, with the address of its second output, and the
predicted factory. -/
structure Redeemed where
  tx : Tx
  ownerAddress : BaseAddress
  factory : Traced FactoryBundle TimedOutputRef
  deriving DecidableEq

def redeemVotingEscrow (order : RedeemVotingEscrowOrder)
    (escrow : EscrowBundle) (factory : FactoryBundle)
    (nowInSeconds currentSlot estimatedFee txHash : ℕ) :
    Except (Abort RedeemVotingEscrowError) Redeemed := do
  let ownerAddress ← redeemOwnerAddress d escrow.output.datum.owner order
  redeemVersionCheck escrow.output.datum.version order.datum.veState.version
  if stillLocked escrow.output.datum.lockedUntil nowInSeconds then throw (.rejected .veStillLocked)
  let redemption ← attempt ((redeemableAssets factory.state).foldlM
    (redeemAsset d escrow.output.value)
    { ownerTokens := OrdMap.empty
      factoryOut := factory.output.value
      factory := factory.state
      burns := []
      identifier := none })
  if factory.output.datum = none then throw (.rejected .veFactoryDatumNotPresent)
  let identifier ← attempt (Exec.expect "called `Option::unwrap()` on a `None` value"
    redemption.identifier)
  let factoryTokens := redemption.factoryOut.multiasset
  let factoryOut : Output (Option VEFactoryDatum) :=
    ⟨⟨d.minRequiredCoin factoryTokens, factoryTokens⟩, factory.output.datum⟩
  let tx ← attempt (Blueprint.assemble
    { inputs := [factory.output.value, escrow.output.value, order.bearer]
      mints := redemption.burns ++ [⟨identifier, 1, false⟩]
      first := factoryOut.value
      second := ⟨d.minRequiredCoin redemption.ownerTokens, redemption.ownerTokens⟩
      estimatedFee := estimatedFee })
  pure
    { tx := tx
      ownerAddress := ownerAddress
      factory :=
        { state :=
            { state := redemption.factory
              version := ⟨versionAt txHash 0, currentSlot⟩
              output := factoryOut }
          prevStateId := some factory.version } }

/-! ## Readers -/

/-- The entries other than the governance tokens, when these are the only ones of their policy. -/
def otherEntries (v : Value) : List (Token × ℕ) :=
  v.multiasset.toList.filter fun entry =>
    decide (¬ (entry.1.policy = d.gtToken.policy ∧ (policyEntries v d.gtToken.policy).length = 1))

def isAuthEntry (entry : Token × ℕ) : Bool :=
  decide (entry.1 = d.factoryAuthToken ∧ entry.2 = 1)

def assetEntries (v : Value) : List (Token × ℕ) :=
  (otherEntries d v).filter fun entry => !isAuthEntry d entry

/-- The auth token, the governance tokens and the inventories in the value of a factory. A token that
is none of these is not accepted. -/
def VEFactory.tryFromLedger (out : Output (Option VEFactoryDatum)) :
    Option VEFactory :=
  out.datum.bind fun datum =>
    if (otherEntries d out.value).any (isAuthEntry d) ∧
        (assetEntries d out.value).all fun entry =>
          isTokenAccepted entry.1 datum.acceptedAssets ||
            isTokenAccepted entry.1 datum.legacyAcceptedAssets then
      (if (policyEntries out.value d.gtToken.policy).length = 1 then
        out.value.multiasset.get? d.gtToken else none).map fun gtTokensAvailable =>
          { acceptedAssets := datum.acceptedAssets
            legacyAcceptedAssets := datum.legacyAcceptedAssets
            acceptedAssetsInventory := addAll OrdMap.empty
              ((assetEntries d out.value).filter fun entry =>
                isTokenAccepted entry.1 datum.acceptedAssets)
            legacyAssetsInventory := addAll OrdMap.empty
              ((assetEntries d out.value).filter fun entry =>
                !isTokenAccepted entry.1 datum.acceptedAssets)
            gtTokensAvailable := gtTokensAvailable }
    else none

/-- The key of an owner is checked; a script is not. -/
def EscrowDeployment.isOwner : Owner → Bool
  | .pubKey bytes => d.isPublicKey bytes
  | .script _ => true

/-- An escrow has a valid owner, one identifier and governance tokens. -/
def VotingEscrow.tryFromLedger (out : Output VotingEscrowConfig) :
    Option VotingEscrow :=
  match policyEntries out.value d.identifierPolicy with
  | [entry] =>
    if ¬ d.isOwner out.datum.owner then none
    else (out.value.multiasset.get? d.gtToken).map fun govTokenAmount =>
      { govTokenAmount := govTokenAmount
        gtToken := d.gtToken
        lockedUntil := out.datum.lockedUntil
        veIdentifierName := entry.1.name
        owner := out.datum.owner
        version := out.datum.version
        lastWpEpoch := out.datum.lastWpEpoch
        lastGpDeadline := out.datum.lastGpDeadline
        redeemed := false }
  | _ => none

/-! ## A deployment -/

theorem pairToken_injective : Function.Injective fun t : Token => Nat.pair t.policy t.name := by
  intro a b h
  obtain ⟨hpolicy, hname⟩ := Nat.pair_eq_pair.1 h
  cases a
  cases b
  cases hpolicy
  cases hname
  rfl

/-- A deployment in which policies are numbers and every signature is accepted. -/
def sampleDeployment : EscrowDeployment where
  gtToken := ⟨1, 1⟩
  factoryAuthToken := ⟨2, 1⟩
  compositionPolicy := 3
  compositionName t := Nat.pair t.policy t.name
  identifierPolicy := 4
  identifierName ref := Nat.pair ref.txHash ref.index
  minRequiredCoin _ := 1000000
  isPublicKey _ := true
  isSignature _ := true
  computeWitnessMessage _ _ version := [version]
  verify _ _ _ := true
  compositionName_injective := pairToken_injective
  composition_ne_gt := Nat.ne_of_gt (Nat.lt_of_sub_eq_succ rfl)
  identifier_ne_gt := Nat.ne_of_gt (Nat.lt_of_sub_eq_succ rfl)
  identifier_ne_composition := Nat.ne_of_gt (Nat.lt_of_sub_eq_succ rfl)

end Splash.Dao
