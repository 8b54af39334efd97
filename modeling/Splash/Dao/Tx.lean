import Splash.Lib.Amounts
import Splash.Cardano.Assets

/-!
# Transactions of the bot

Values, outputs and the transactions that the bot builds. `ChangeOutputCreator` follows what goes in,
is minted and burned and goes out; what is left of it is the change. A transaction whose sides differ
is refused by the transaction builder.

* `Tx.build` — a transaction whose inputs and mints are not its outputs, burns and fee is refused.
* `Blueprint.outputs_of_assemble` — the second output of a transaction that is built got a change.
-/

namespace Splash.Dao

open Lib Cardano

/-! ## Values and outputs -/

/-- Ada and tokens. The entries of a bundle are kept by their tokens; sums stay below the supply, so
they do not overflow. -/
structure Value where
  coin : ℕ
  multiasset : OrdMap Token ℕ
  deriving DecidableEq

namespace Value

def qty (v : Value) (t : Token) : ℕ := Amounts.qty v.multiasset t

def addUnsafe (v : Value) (t : Token) (amount : ℕ) : Value :=
  { v with multiasset := Amounts.add v.multiasset t amount }

def subUnsafe (v : Value) (t : Token) (amount : ℕ) : Value :=
  { v with multiasset := Amounts.sub v.multiasset t amount }

end Value

structure Output (D : Type) where
  value : Value
  datum : D
  deriving DecidableEq

structure OutputRef where
  txHash : ℕ
  index : ℕ
  deriving DecidableEq, Repr

structure TimedOutputRef where
  outputRef : OutputRef
  slot : ℕ
  deriving DecidableEq, Repr

/-- A predicted state, with the version that it follows. -/
structure Traced (State Version : Type) where
  state : State
  prevStateId : Option Version
  deriving DecidableEq

/-- Why an action ended without a transaction. -/
inductive Abort (E : Type) where
  | rejected (reason : E)
  | panicked (reason : Panic)
  deriving DecidableEq, Repr

def attempt {E α : Type} (x : Exec α) : Except (Abort E) α := x.mapError .panicked

theorem attempt_eq_ok {E α : Type} {x : Exec α} {a : α} :
    (attempt x : Except (Abort E) α) = .ok a ↔ x = .ok a := by
  cases x with
  | ok b => exact ⟨fun h => by cases h; rfl, fun h => by cases h; rfl⟩
  | error e => exact ⟨nofun, nofun⟩

/-! ## Minting and burning -/

/-- An amount of a token that is minted, or burned. -/
structure Mint where
  token : Token
  quantity : ℕ
  isMint : Bool
  deriving DecidableEq, Repr

def minted (mints : List Mint) : List (Token × ℕ) :=
  (mints.filter (·.isMint)).map fun m => (m.token, m.quantity)

def burned (mints : List Mint) : List (Token × ℕ) :=
  (mints.filter (!·.isMint)).map fun m => (m.token, m.quantity)

def tokensOf (values : List Value) : List (Token × ℕ) :=
  values.flatMap fun v => v.multiasset.toList

def coinsOf (values : List Value) : ℕ := (values.map (·.coin)).sum

/-- A built transaction. -/
structure Tx where
  inputs : List Value
  mints : List Mint
  outputs : List Value
  fee : ℕ
  deriving DecidableEq

namespace Tx

def tokens (tx : Tx) : List Token :=
  (tokensOf tx.inputs ++ minted tx.mints ++ tokensOf tx.outputs ++ burned tx.mints).map (·.1)

/-- Inputs and mints are outputs, burns and the fee. -/
def balances (tx : Tx) : Bool :=
  decide (coinsOf tx.inputs = coinsOf tx.outputs + tx.fee) &&
    tx.tokens.all fun t =>
      decide (Amounts.total (tokensOf tx.inputs) t + Amounts.total (minted tx.mints) t =
        Amounts.total (tokensOf tx.outputs) t + Amounts.total (burned tx.mints) t)

/-- The transaction builder refuses what is not balanced. -/
def build (tx : Tx) : Exec Tx :=
  if tx.balances then .ok tx
  else .error (.explicit "called `Result::unwrap()` on an `Err` value")

end Tx

/-! ## The change -/

structure ChangeOutputCreator where
  inputCoin : ℕ
  outputCoin : ℕ
  tokensInInputs : OrdMap Token ℕ
  deriving DecidableEq

namespace ChangeOutputCreator

def default : ChangeOutputCreator where
  inputCoin := 0
  outputCoin := 0
  tokensInInputs := OrdMap.empty

variable (c : ChangeOutputCreator)

def addInput (input : Value) : ChangeOutputCreator :=
  { c with
    inputCoin := c.inputCoin + input.coin
    tokensInInputs := Amounts.addAll c.tokensInInputs input.multiasset.toList }

def mintToken (t : Token) (quantity : ℕ) : ChangeOutputCreator :=
  { c with tokensInInputs := Amounts.add c.tokensInInputs t quantity }

def burnToken (t : Token) (quantity : ℕ) : Exec ChangeOutputCreator := do
  let rest ← Amounts.spend c.tokensInInputs t quantity
  pure { c with tokensInInputs := rest }

def addMint (mint : Mint) : Exec ChangeOutputCreator :=
  if mint.isMint then pure (c.mintToken mint.token mint.quantity)
  else c.burnToken mint.token mint.quantity

def addOutput (output : Value) : Exec ChangeOutputCreator := do
  let rest ← Amounts.spendAll c.tokensInInputs output.multiasset.toList
  pure { c with outputCoin := c.outputCoin + output.coin, tokensInInputs := rest }

def createChangeOutput (fee : ℕ) : Exec Value :=
  if c.inputCoin > c.outputCoin + fee then
    .ok { coin := c.inputCoin - c.outputCoin - fee, multiasset := c.tokensInInputs }
  else .error (.explicit "assertion failed: self.input_coin > self.output_coin + fee")

end ChangeOutputCreator

/-! ## Blueprints -/

/-- What a transaction is built from. The estimated fee is what the transaction builder computes,
with a buffer. -/
structure Blueprint where
  inputs : List Value
  mints : List Mint
  first : Value
  second : Value
  estimatedFee : ℕ
  deriving DecidableEq

namespace Blueprint

/-- The change before the second output gets it. -/
def computeChange (b : Blueprint) : Exec Value := do
  let spent := b.inputs.foldl ChangeOutputCreator.addInput .default
  let withMints ← b.mints.foldlM ChangeOutputCreator.addMint spent
  let withFirst ← withMints.addOutput b.first
  let withSecond ← withFirst.addOutput b.second
  withSecond.createChangeOutput b.estimatedFee

/-- All ada of the change is placed into the second output. There must not be tokens in it. -/
def assemble (b : Blueprint) : Exec Tx := do
  let change ← b.computeChange
  if change.multiasset ≠ OrdMap.empty then
    throw (.explicit "assertion failed: !change_output.output.value().has_multiassets()")
  Tx.build
    { inputs := b.inputs
      mints := b.mints
      outputs := [b.first, { b.second with coin := b.second.coin + change.coin }]
      fee := b.estimatedFee }

end Blueprint

/-! ## The outputs of a built transaction -/

theorem Tx.eq_of_build {tx tx' : Tx} (h : tx.build = .ok tx') : tx' = tx := by
  unfold build at h
  split at h
  · exact (Except.ok.inj h).symm
  · cases h

theorem ChangeOutputCreator.coin_of_createChangeOutput {c : ChangeOutputCreator} {fee : ℕ}
    {change : Value} (h : c.createChangeOutput fee = .ok change) : 0 < change.coin := by
  unfold createChangeOutput at h
  split at h
  case isTrue hlt =>
    cases h
    dsimp only
    omega
  case isFalse => exact nomatch h

/-- **The second output of a transaction that is built got a change.** -/
theorem Blueprint.outputs_of_assemble {b : Blueprint} {tx : Tx} (h : b.assemble = .ok tx) :
    ∃ change, 0 < change ∧
      tx.outputs = [b.first, { b.second with coin := b.second.coin + change }] := by
  obtain ⟨change, hchange, h⟩ := Exec.bind_eq_ok.1 h
  obtain ⟨withMints, -, hchange⟩ := Exec.bind_eq_ok.1 hchange
  obtain ⟨withFirst, -, hchange⟩ := Exec.bind_eq_ok.1 hchange
  obtain ⟨withSecond, -, hchange⟩ := Exec.bind_eq_ok.1 hchange
  split at h
  · cases h
  · refine ⟨change.coin, ChangeOutputCreator.coin_of_createChangeOutput hchange, ?_⟩
    rw [Tx.eq_of_build h]

end Splash.Dao
