import Splash.Dao.Escrow

/-!
# Votes

A vote order gives weights to the farms of a poll, up to the voting power of an escrow. Tokens of
weighting power are minted into the output of the poll, and the escrow notes the epoch it voted in.

* `VotingEscrow.votingPower` — the power of an escrow at a time.
* `executeOrder` — the action.
* `WeightingPoll.tryFromLedger` — the reader of polls.
-/

namespace Splash.Dao

open Lib Cardano

/-! ## Polls in outputs -/

structure WeightingPollConfig where
  distribution : List (FarmId × ℕ)
  emissionRate : ℕ
  weightingPowerPolicy : ℕ
  deriving DecidableEq, Repr

abbrev PollBundle := Bundled WeightingPoll TimedOutputRef WeightingPollConfig

/-- The policies and computations of polls. The tokens of an epoch have the hash of the epoch for a
name. -/
structure PollDeployment extends EscrowDeployment where
  genesis : ℕ
  weightingPowerPolicy : ℕ
  wpAuthPolicy : ℕ
  splashToken : Token
  epochAssetName : ℕ → ℕ
  /-- The ada that the output of a poll needs. -/
  pollMinAda : Output WeightingPollConfig → ℕ
  /-- The ada that the output of an escrow needs. -/
  escrowMinAda : Output VotingEscrowConfig → ℕ
  epochAssetName_injective : Function.Injective epochAssetName
  power_ne_auth : weightingPowerPolicy ≠ wpAuthPolicy
  splash_ne_auth : splashToken.policy ≠ wpAuthPolicy
  splash_ne_power : splashToken.policy ≠ weightingPowerPolicy

namespace PollDeployment

def weightingPowerToken (d : PollDeployment) (epoch : ℕ) : Token :=
  ⟨d.weightingPowerPolicy, d.epochAssetName epoch⟩

def wpAuthToken (d : PollDeployment) (epoch : ℕ) : Token := ⟨d.wpAuthPolicy, d.epochAssetName epoch⟩

end PollDeployment

/-- A poll is found by its auth token, among those of the epochs up to the current one. -/
def WeightingPoll.tryFromLedger (d : PollDeployment) (currentEpoch : ℕ)
    (out : Output WeightingPollConfig) : Option WeightingPoll :=
  ((List.range (currentEpoch + 1)).find? fun epoch =>
    decide (out.value.multiasset.get? (d.wpAuthToken epoch) = some 1)).map fun epoch =>
      { epoch := epoch
        distribution := out.datum.distribution
        emissionRate := out.datum.emissionRate
        remainingSplashEmission := out.value.qty d.splashToken
        weightingPower := out.value.multiasset.get?
          ⟨out.datum.weightingPowerPolicy, d.epochAssetName epoch⟩
        eliminated := false }

/-! ## Voting power -/

/-- The power decreases with the time that is left of the lock. Products are of 64 bits. -/
def VotingEscrow.votingPower (ve : VotingEscrow) (currentPosixTime : ℕ) : Exec ℕ :=
  match ve.lockedUntil with
  | .definite networkTime =>
    if networkTime < currentPosixTime then pure 0
    else do
      let product ← fit u64Max (ve.govTokenAmount * (networkTime - currentPosixTime))
      pure (product / 1000 / maxLockTimeSeconds)
  | .indefinite millis => do
    let product ← fit u64Max (ve.govTokenAmount * (millis / 1000))
    pure (product / maxLockTimeSeconds)

/-! ## Executing an order -/

inductive ExecuteOrderError where
  | weightingExceedsAvailableVotingPower (orderWeightingPower availableWeightingPower : ℕ)
  | lockTimeBeforeEpochEnd
  | witness (error : WitnessError)
  | other (message : String)
  deriving DecidableEq, Repr

def asI32 (n : ℕ) : ℤ := if n < 2 ^ 31 then n else (n : ℤ) - 2 ^ 32

def checkVoteOwner (d : EscrowDeployment) (owner : Owner) (order : WPollVoteOrder) :
    Except (Abort ExecuteOrderError) Unit :=
  match owner with
  | .pubKey bytes => checkSignature d .other .witness bytes order.metadata (.vote order.datum)
  | .script _ => .ok ()

def voteVersionCheck (version orderVersion : ℕ) : Except (Abort ExecuteOrderError) Unit :=
  if version ≠ orderVersion then
    .error (.rejected (.witness (.veVersionMismatchWithTXMetadata version orderVersion)))
  else .ok ()

def lockBeforeEpochEnd (genesis epoch : ℕ) (lock : Lock) : Bool :=
  match lock with
  | .definite untilMillis => decide (untilMillis < epochEnd genesis epoch)
  | .indefinite _ => false

/-- What an execution returns: the transaction, the predicted poll and the predicted escrow. -/
structure Voted where
  tx : Tx
  poll : Traced PollBundle TimedOutputRef
  escrow : Traced EscrowBundle OutputRef
  deriving DecidableEq

def voteChecks (d : PollDeployment) (epoch : ℕ) (config : VotingEscrowConfig)
    (order : WPollVoteOrder) : Except (Abort ExecuteOrderError) Unit := do
  checkVoteOwner d.toEscrowDeployment config.owner order
  if config.lastWpEpoch ≥ asI32 epoch then
    throw (.rejected (.witness (.votingEscrowIneligibleToVote config.lastWpEpoch (asI32 epoch))))
  voteVersionCheck config.version order.datum.veState.version
  if lockBeforeEpochEnd d.genesis epoch config.lockedUntil then
    throw (.rejected .lockTimeBeforeEpochEnd)

def executeOrder (d : PollDeployment) (poll : PollBundle) (escrow : EscrowBundle)
    (order : WPollVoteOrder) (currentPosixTime currentSlot estimatedFee txHash : ℕ) :
    Except (Abort ExecuteOrderError) Voted := do
  let epoch := poll.state.epoch
  voteChecks d epoch escrow.output.datum order
  let newVeVersion ← attempt (fit u32Max (escrow.state.version + 1))
  let available ← attempt (escrow.state.votingPower currentPosixTime)
  let orderPower ← attempt (sumU64 (fun vote : FarmId × ℕ => pure vote.2) order.datum.expectedDiff)
  if orderPower > available then
    throw (.rejected (.weightingExceedsAvailableVotingPower orderPower available))
  let voted ← attempt (poll.state.applyVotes order.datum.expectedDiff)
  -- the power of this order, not that of all orders
  let nextPoll := { voted with weightingPower := some orderPower }
  let pollValue := poll.output.value.addUnsafe (d.weightingPowerToken epoch) orderPower
  let pollDatum := { poll.output.datum with distribution := nextPoll.distribution }
  let pollOut : Output WeightingPollConfig :=
    ⟨⟨d.pollMinAda ⟨pollValue, pollDatum⟩, pollValue.multiasset⟩, pollDatum⟩
  let escrowDatum :=
    { escrow.output.datum with lastWpEpoch := asI32 epoch, version := newVeVersion }
  let escrowOut : Output VotingEscrowConfig :=
    ⟨⟨d.escrowMinAda ⟨escrow.output.value, escrowDatum⟩, escrow.output.value.multiasset⟩,
      escrowDatum⟩
  let tx ← attempt (Blueprint.assemble
    { inputs := [order.bearer, escrow.output.value, poll.output.value]
      mints := [⟨d.weightingPowerToken epoch, orderPower, true⟩]
      first := pollOut.value
      second := escrowOut.value
      estimatedFee := estimatedFee })
  pure
    { tx := tx
      poll :=
        { state := { state := nextPoll, version := ⟨versionAt txHash 0, currentSlot⟩, output := pollOut }
          prevStateId := some poll.version }
      escrow :=
        { state :=
            { state := { escrow.state with lastWpEpoch := asI32 epoch, version := newVeVersion }
              version := versionAt txHash 1
              output := escrowOut }
          prevStateId := some escrow.version } }

/-- A deployment in which the tokens of an epoch have its number for a name. -/
def samplePollDeployment : PollDeployment where
  toEscrowDeployment := sampleDeployment
  genesis := 0
  weightingPowerPolicy := 6
  wpAuthPolicy := 5
  splashToken := ⟨7, 1⟩
  epochAssetName epoch := epoch
  pollMinAda _ := 2000000
  escrowMinAda _ := 2000000
  epochAssetName_injective := Function.injective_id
  power_ne_auth := Nat.ne_of_gt (Nat.lt_of_sub_eq_succ rfl)
  splash_ne_auth := Nat.ne_of_gt (Nat.lt_of_sub_eq_succ rfl)
  splash_ne_power := Nat.ne_of_gt (Nat.lt_of_sub_eq_succ rfl)

end Splash.Dao
