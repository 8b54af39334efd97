import Splash.Cardano.Assets

/-!
# Outputs of the ledger

Values, addresses and data of transaction outputs, as far as pools and orders read and write them.
Data is addressed by the position of its fields: readers take what they need and ignore the rest,
writers replace single fields.

* `Bytes.fromRawBytes_bytes`, `PlutusData.intoU64_ofU64` — what is written is read back.
* `writeTokens_eq_some_iff` — every written amount is found again exactly when no token is written
  twice with different amounts.
-/

namespace Splash.Cardano

open Lib

/-! ## Byte strings -/

structure Bytes (n : ℕ) where
  bytes : List UInt8
  length_eq : bytes.length = n
  deriving DecidableEq

namespace Bytes

variable {n : ℕ}

def fromRawBytes (raw : List UInt8) : Option (Bytes n) :=
  if h : raw.length = n then some ⟨raw, h⟩ else none

@[simp] theorem fromRawBytes_bytes (b : Bytes n) : fromRawBytes b.bytes = some b :=
  dif_pos b.length_eq

theorem bytes_of_fromRawBytes {raw : List UInt8} {b : Bytes n} (h : fromRawBytes raw = some b) :
    b.bytes = raw := by
  unfold fromRawBytes at h
  split at h
  · cases h
    rfl
  · cases h

def replicate (n : ℕ) (byte : UInt8) : Bytes n := ⟨List.replicate n byte, List.length_replicate⟩

end Bytes

abbrev ScriptHash := Bytes 28

abbrev Ed25519KeyHash := Bytes 28

abbrev Ed25519PublicKey := Bytes 32

/-- The number that bytes stand for, the most significant one first. -/
def bigEndian (raw : List UInt8) : ℕ := raw.foldl (fun acc byte => acc * 256 + byte.toNat) 0

/-- Policies are ordered by their bytes. -/
def Token.policyFromRawBytes (raw : List UInt8) : Option ℕ :=
  if raw.length = 28 then some (bigEndian raw) else none

/-- Names are ordered by their length, then by their bytes, which are padded to 32. -/
def Token.nameFromRawBytes (raw : List UInt8) : Option ℕ :=
  if raw.length ≤ 32 then
    some (raw.length * 256 ^ 32 + bigEndian (raw ++ List.replicate (32 - raw.length) 0))
  else none

/-! ## Data -/

inductive PlutusData where
  | constr (alternative : ℕ) (fields : List PlutusData)
  | map (entries : List (PlutusData × PlutusData))
  | list (items : List PlutusData)
  | integer (value : ℤ)
  | bytes (raw : List UInt8)

namespace PlutusData

def intoConstrPd : PlutusData → Option (ℕ × List PlutusData)
  | .constr alternative fields => some (alternative, fields)
  | _ => none

def intoBytes : PlutusData → Option (List UInt8)
  | .bytes raw => some raw
  | _ => none

def intoVec : PlutusData → Option (List PlutusData)
  | .list items => some items
  | _ => none

def intoU64 : PlutusData → Option ℕ
  | .integer value => if 0 ≤ value ∧ value ≤ u64Max then some value.toNat else none
  | _ => none

section

variable (pd : PlutusData) (index : ℕ)

def field : Option PlutusData :=
  pd.intoConstrPd.bind fun (_, fields) => fields[index]?

def fieldU64 : Option ℕ := (pd.field index).bind intoU64

def fieldBytes : Option (List UInt8) :=
  (pd.field index).bind intoBytes

def setField (value : PlutusData) : PlutusData → Exec PlutusData
  | .constr alternative fields =>
    if index < fields.length then .ok (.constr alternative (fields.set index value))
    else .error (.explicit "index out of bounds")
  | _ => .error (.explicit "called `Option::unwrap()` on a `None` value")

end

def ofU64 (n : ℕ) : PlutusData := .integer n

def setFields (pd : PlutusData) (updates : List (ℕ × PlutusData)) : Exec PlutusData :=
  updates.foldlM (fun pd (index, value) => setField index value pd) pd

variable {index n : ℕ} {pd pd' : PlutusData}

@[simp] theorem intoU64_ofU64 (h : n ≤ u64Max) : (ofU64 n).intoU64 = some n := by
  simp only [ofU64, intoU64]
  rw [if_pos ⟨Int.natCast_nonneg n, by exact_mod_cast h⟩, Int.toNat_natCast]

variable {pd : PlutusData} {updates : List (ℕ × PlutusData)}

theorem intoU64_le (h : pd.intoU64 = some n) : n ≤ u64Max := by
  cases pd with
  | integer value =>
    simp only [intoU64] at h
    split at h
    case isTrue hbounds =>
      cases h
      omega
    case isFalse => cases h
  | _ => cases h

theorem fieldU64_le (h : pd.fieldU64 index = some n) : n ≤ u64Max := by
  obtain ⟨value, -, hvalue⟩ := Option.bind_eq_some_iff.1 h
  exact intoU64_le hvalue

theorem field_setField {value : PlutusData} (h : setField index value pd = .ok pd') (other : ℕ) :
    pd'.field other = if other = index then some value else pd.field other := by
  cases pd with
  | constr alternative fields =>
    simp only [setField] at h
    split at h
    case isTrue hlt =>
      cases h
      simp only [field, intoConstrPd, Option.bind_some, List.getElem?_set]
      split
      case isTrue heq =>
        subst heq
        rw [if_pos rfl]
      case isFalse hne =>
        rw [if_neg (Ne.symm hne)]
    case isFalse => cases h
  | _ => cases h

theorem exists_setField (h : (pd.field index).isSome) (value : PlutusData) :
    ∃ pd', setField index value pd = .ok pd' := by
  cases pd with
  | constr alternative fields =>
    have hlt : index < fields.length := by
      obtain ⟨value, hvalue⟩ := Option.isSome_iff_exists.1 h
      exact (List.getElem?_eq_some_iff.1 hvalue).1
    exact ⟨_, if_pos hlt⟩
  | _ => cases h

/-- What a field holds after several were replaced. -/
def updated (updates : List (ℕ × PlutusData)) (before : Option PlutusData) (index : ℕ) :
    Option PlutusData :=
  updates.foldl (fun now (position, value) => if index = position then some value else now) before

theorem field_setFields (h : pd.setFields updates = .ok pd') (index : ℕ) :
    pd'.field index = updated updates (pd.field index) index := by
  induction updates generalizing pd with
  | nil =>
    cases h
    rfl
  | cons update updates ih =>
    obtain ⟨pd₁, h₁, h⟩ := Exec.bind_eq_ok.1 h
    rw [ih h, field_setField h₁]
    rfl

theorem exists_setFields (h : ∀ update ∈ updates, (pd.field update.1).isSome) :
    ∃ pd', pd.setFields updates = .ok pd' := by
  induction updates generalizing pd with
  | nil => exact ⟨pd, rfl⟩
  | cons update updates ih =>
    obtain ⟨pd₁, h₁⟩ := exists_setField (h update (List.mem_cons_self ..)) update.2
    have hrest : ∀ u ∈ updates, (pd₁.field u.1).isSome := by
      intro u hu
      rw [field_setField h₁]
      split
      · rfl
      · exact h u (List.mem_cons_of_mem _ hu)
    obtain ⟨pd', h'⟩ := ih hrest
    exact ⟨pd', Exec.bind_eq_ok.2 ⟨pd₁, h₁, h'⟩⟩

end PlutusData

def AssetClass.tryFromPd (pd : PlutusData) : Option AssetClass := do
  let policy ← pd.fieldBytes 0
  if policy.isEmpty then return .native
  else
    let policy ← Token.policyFromRawBytes policy
    let name ← Token.nameFromRawBytes (← pd.fieldBytes 1)
    return .token ⟨policy, name⟩

def PlutusData.fieldAsset (pd : PlutusData) (index : ℕ) : Option AssetClass :=
  (pd.field index).bind AssetClass.tryFromPd

def AssetClass.intoToken : AssetClass → Option Token
  | .native => none
  | .token t => some t

/-! ## Addresses -/

/-- Who may spend an output. -/
inductive Credential where
  | pubKey (hash : Ed25519KeyHash)
  | script (hash : ScriptHash)
  deriving DecidableEq

namespace Credential

def scriptHash : Credential → Option ScriptHash
  | .pubKey _ => none
  | .script hash => some hash

def tryFromPd (pd : PlutusData) : Option Credential := do
  let (alternative, _) ← pd.intoConstrPd
  let raw ← pd.fieldBytes 0
  match alternative with
  | 0 => return .pubKey (← Bytes.fromRawBytes raw)
  | 1 => return .script (← Bytes.fromRawBytes raw)
  | _ => none

def intoPd : Credential → PlutusData
  | .pubKey hash => .constr 0 [.bytes hash.bytes]
  | .script hash => .constr 1 [.bytes hash.bytes]

@[simp] theorem tryFromPd_intoPd (c : Credential) : tryFromPd c.intoPd = some c := by
  cases c <;> simp [tryFromPd, intoPd, PlutusData.intoConstrPd, PlutusData.fieldBytes,
    PlutusData.field, PlutusData.intoBytes]

end Credential

structure InlineCredential where
  credential : Credential
  deriving DecidableEq

namespace InlineCredential

def tryFromPd (pd : PlutusData) : Option InlineCredential := do
  let (alternative, _) ← pd.intoConstrPd
  if alternative = 0 then return ⟨← Credential.tryFromPd (← pd.field 0)⟩ else none

def intoPd (c : InlineCredential) : PlutusData := .constr 0 [c.credential.intoPd]

@[simp] theorem tryFromPd_intoPd (c : InlineCredential) : tryFromPd c.intoPd = some c := by
  simp [tryFromPd, intoPd, PlutusData.intoConstrPd, PlutusData.field]

def listTryFromPd (pd : PlutusData) : Option (List InlineCredential) :=
  pd.intoVec.bind fun items => items.mapM tryFromPd

def listIntoPd (cs : List InlineCredential) : PlutusData := .list (cs.map intoPd)

@[simp] theorem listTryFromPd_listIntoPd (cs : List InlineCredential) :
    listTryFromPd (listIntoPd cs) = some cs := by
  show (cs.map intoPd).mapM tryFromPd = some cs
  induction cs with
  | nil => rfl
  | cons c cs ih => simp [ih]

end InlineCredential

/-- Where an output sits. -/
inductive Address where
  | base (network : ℕ) (payment stake : Credential)
  | ptr (network : ℕ) (payment : Credential) (pointer : ℕ)
  | enterprise (network : ℕ) (payment : Credential)
  | reward (network : ℕ) (payment : Credential)
  | byron (content : List UInt8)
  deriving DecidableEq

namespace Address

def paymentCred : Address → Option Credential
  | .base _ payment _ => some payment
  | .ptr _ payment _ => some payment
  | .enterprise _ payment => some payment
  | .reward _ payment => some payment
  | .byron _ => none

def stakingCred : Address → Option Credential
  | .base _ _ stake => some stake
  | _ => none

def scriptHash (address : Address) : Option ScriptHash :=
  address.paymentCred.bind Credential.scriptHash

def updateStakingCred : Address → Credential → Address
  | .base network payment _, stake => .base network payment stake
  | address, _ => address

def stakePart (address : Address) : Option ScriptHash :=
  address.stakingCred.bind Credential.scriptHash

/-- Staking with the script that the address stakes with already. -/
theorem updateStakingCred_stakePart {address : Address} {hash : ScriptHash}
    (h : address.stakePart = some hash) : address.updateStakingCred (.script hash) = address := by
  cases address with
  | base network payment stake =>
    cases stake with
    | pubKey _ => cases h
    | script _ =>
      cases h
      rfl
  | _ => cases h

end Address

/-! ## Values -/

/-- Amounts of the native asset and of tokens. -/
structure Value where
  coin : ℕ
  multiasset : Token → Option ℕ

namespace Value

def amountOf (value : Value) : AssetClass → Option ℕ
  | .native => some value.coin
  | .token t => value.multiasset t

end Value

variable (writes : List (Token × ℕ))

/-- Tokens after amounts were set, one after the other. -/
def writeTokens : Token → Option ℕ :=
  writes.foldl (fun tokens (t, amount) => Function.update tokens t (some amount)) fun _ => none

theorem writeTokens_append (t : Token) (amount : ℕ) :
    writeTokens (writes ++ [(t, amount)]) = Function.update (writeTokens writes) t (some amount) := by
  simp [writeTokens]

/-- Two writes of one token write the same amount. -/
def Coherent : Prop :=
  ∀ a ∈ writes, ∀ b ∈ writes, a.1 = b.1 → a.2 = b.2

/-- Every amount that was set is found again exactly when no token is set to different amounts. -/
theorem writeTokens_eq_some_iff :
    (∀ w ∈ writes, writeTokens writes w.1 = some w.2) ↔ Coherent writes := by
  constructor
  · intro h a ha b hb hab
    have := (h a ha).symm.trans (hab ▸ h b hb)
    exact Option.some.inj this
  · intro h
    induction writes using List.reverseRecOn with
    | nil => simp
    | append_singleton writes last ih =>
      intro w hw
      rw [writeTokens_append]
      by_cases heq : w.1 = last.1
      · rw [heq, Function.update_self]
        exact congrArg some (h last (by simp) w hw heq.symm)
      · rw [Function.update_of_ne heq]
        have hw' : w ∈ writes := by
          rcases List.mem_append.1 hw with hw | hw
          · exact hw
          · exact absurd (congrArg Prod.fst (List.mem_singleton.1 hw)) heq
        refine ih (fun a ha b hb => h a ?_ b ?_) w hw'
        · exact List.mem_append_left _ ha
        · exact List.mem_append_left _ hb

/-! ## Outputs -/

/-- Data of an output, or its hash. -/
inductive DatumOption where
  | datum (pd : PlutusData)
  | hash (hash : Bytes 32)

namespace DatumOption

def intoPd : DatumOption → Option PlutusData
  | .datum pd => some pd
  | .hash _ => none

/-- Changes the data, if it is there. -/
def modifyM (f : PlutusData → Exec PlutusData) : DatumOption → Exec DatumOption
  | .datum pd => return .datum (← f pd)
  | .hash h => return .hash h

end DatumOption

structure TransactionOutput where
  address : Address
  value : Value
  datum : Option DatumOption
  scriptRef : Option ScriptHash

namespace TransactionOutput

def pd (out : TransactionOutput) : Option PlutusData := out.datum.bind DatumOption.intoPd

end TransactionOutput

end Splash.Cardano
