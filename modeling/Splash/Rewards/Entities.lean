import Splash.Cardano.Ledger

/-!
# Reward entities and events

The entities the reward distributor follows on chain, and the events that change them.

* `OnChainEvent` — what a transaction does to the entities.
-/

namespace Splash.Rewards

open Cardano

structure PlutusAddress where
  paymentCred : Credential
  stakeCred : Option InlineCredential
  deriving DecidableEq

namespace PlutusAddress

def toAddress (networkId : ℕ) (a : PlutusAddress) : Address :=
  a.stakeCred.elim (.enterprise networkId a.paymentCred) fun c =>
    .base networkId a.paymentCred c.credential

end PlutusAddress

/-- A request for the rewards of an account. -/
structure HarvestOrder (V : Type) where
  id : V
  accountKey : Ed25519KeyHash
  /-- The slot and the epoch. -/
  issuedAt : ℕ × ℕ
  rewardReceiver : PlutusAddress
  deriving DecidableEq

structure BufferWallet (V : Type) where
  stateId : V
  balance : ℕ
  merkleTreeRootHash : Bytes 32
  deriving DecidableEq

structure Gauge (G V : Type) where
  id : G
  stateId : V
  balance : ℕ
  deriving DecidableEq

structure AuthManager (G V : Type) where
  stateId : V
  suspendedGauges : List G
  deriving DecidableEq

/-- A new state of an entity and the state that was consumed for it. -/
structure EntityUpdated (Entity V B : Type) where
  consumed : Option V
  created : Entity × B
  deriving DecidableEq

inductive OnChainEvent (G V B : Type) where
  | botHarvestingAction (payouts : List (HarvestOrder V × ℕ))
      (bufferWalletUpdate : EntityUpdated (BufferWallet V) V B)
      (bufferWalletWithdrawnAmount : ℕ)
  | botGaugeBufferingAction
      (drainedGauges : List (EntityUpdated (Gauge G V) V B × ℕ))
      (bufferWalletUpdate : EntityUpdated (BufferWallet V) V B)
      (bufferWalletDepositedAmount : ℕ)
  | createGauge (gaugeUpdate : EntityUpdated (Gauge G V) V B)
  | createBufferWalletAndAuthManager
      (bufferWalletUpdate : EntityUpdated (BufferWallet V) V B)
      (authManagerUpdate : EntityUpdated (AuthManager G V) V B)
  | chargeGauges (gaugeUpdate : EntityUpdated (Gauge G V) V B)
      (splashIncrease : ℕ)
  | authManagerUpdated (authUpdate : EntityUpdated (AuthManager G V) V B)
  | newHarvestRequest (harvest : HarvestOrder V) (output : B)
  | harvestRequestCancelled (harvestIds : List V)
  /-- Funding boxes are kept in a repository of their own. -/
  | funding

end Splash.Rewards
