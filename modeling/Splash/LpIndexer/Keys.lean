import Splash.Engine.StateIndex
import Splash.Lib.ByteForm

/-!
# Keys of tokens

Names of assets are written as text, tokens and pools as 60 bytes, and the keys of the position
database are made of these. What is read back from the text may be what the text stands for as
hexadecimal digits, and the 60 bytes do not tell how long a name is.

* `display_iff`, `tokenOfRaw_iff` — which names and tokens are read back.
* `codecs_iff` — all forms of some assets are faithful just when their names have 32 bytes that are
  not hexadecimal digits.
-/

namespace Splash.LpIndexer

open Lib Engine Engine.StateIndex Engine.RawId List

/-! ## Names -/

namespace AssetName

def tryFromHex (s : List ℕ) : Option AssetName :=
  (hexDecode s).bind fun bytes => if bytes.length > 32 then none else some (.ofBytes bytes)

/-- A text is cut off after 32 bytes. -/
def fromUtf8 (s : List ℕ) : AssetName :=
  ⟨s.length % 256, s.take 32 ++ List.replicate (32 - (s.take 32).length) 0⟩

def deserialize (s : List ℕ) : AssetName := (tryFromHex s).getD (fromUtf8 s)

end AssetName

/-- The forms of other libraries: which bytes are UTF-8, the CBOR form of a credential, and the
MessagePack form of a credential, the bytes of a policy and the text of a name. -/
structure Formats (C : Type) where
  isUtf8 : List ℕ → Bool
  cbor : C → List ℕ
  fromCbor : List ℕ → Option C
  fromCbor_cbor : ∀ c, fromCbor (cbor c) = some c
  pack : C × List ℕ × List ℕ → List ℕ
  unpack : List ℕ → Option (C × List ℕ × List ℕ)
  unpack_pack : ∀ x, unpack (pack x) = some x

variable {C : Type} (f : Formats C)

def display (name : AssetName) : List ℕ :=
  let slice := name.paddedBytes.take name.len
  if f.isUtf8 slice then slice else hexEncode slice

/-! ## Keys -/

def tokenOfRaw (bytes : List ℕ) : TokenId := ⟨bytes.take 28, .ofBytes (bytes.drop 28)⟩

def positionKey (pool : TokenId) (credential : C) (epoch : ℕ) : List ℕ :=
  raw pool ++ f.cbor credential ++ beBytes 8 epoch

def parsePositionKey (key : List ℕ) : Option (TokenId × C × ℕ) :=
  let slotPosition := key.length - 8
  (f.fromCbor ((key.take slotPosition).drop 60)).map fun credential =>
    (tokenOfRaw (key.take 60), credential, ofBeBytes (key.drop slotPosition))

def accountPositionsKey (pool : TokenId) (credential : C) : List ℕ := raw pool ++ f.cbor credential

def gaugeKey (pool : TokenId) (epoch : ℕ) : List ℕ := raw pool ++ beBytes 8 epoch

def eventKey (slot index : ℕ) : List ℕ := beBytes 8 slot ++ beBytes 8 index

def fromEventKey (key : List ℕ) : Option (ℕ × ℕ) :=
  if key.length = 16 then some (ofBeBytes (key.take 8), ofBeBytes (key.drop 8)) else none

def accountToPoolsIndex (credential : C) (pool : TokenId) : List ℕ :=
  f.pack (credential, pool.policy, display f pool.name)

def parseAccountToPoolsIndex (key : List ℕ) : Option (C × TokenId) :=
  (f.unpack key).map fun x => (x.1, ⟨x.2.1, AssetName.deserialize x.2.2⟩)

/-! ## What is read back -/

/-- An asset with a name of at most 32 bytes. -/
structure Asset where
  policy : List ℕ
  name : List ℕ
  policy_length : policy.length = 28
  name_length : name.length ≤ 32
  name_lt : ∀ b ∈ name, b < 256

def Asset.token (a : Asset) : TokenId := ⟨a.policy, .ofBytes a.name⟩

/-- Values are read back from their forms, and keys that are not read are those of one value. -/
structure Codecs (S : Set Asset) : Prop where
  text : ∀ a ∈ S, AssetName.deserialize (display f a.token.name) = a.token.name
  bytes : ∀ a ∈ S, tokenOfRaw (raw a.token) = a.token
  position : ∀ a ∈ S, ∀ c, ∀ epoch < 2 ^ 64,
    parsePositionKey f (positionKey f a.token c epoch) = some (a.token, c, epoch)
  account : ∀ a ∈ S, ∀ a' ∈ S, ∀ c c',
    accountPositionsKey f a.token c = accountPositionsKey f a'.token c' → a.token = a'.token ∧ c = c'
  gauge : ∀ a ∈ S, ∀ a' ∈ S, ∀ epoch < 2 ^ 64, ∀ epoch' < 2 ^ 64,
    gaugeKey a.token epoch = gaugeKey a'.token epoch' → a.token = a'.token ∧ epoch = epoch'
  index : ∀ a ∈ S, ∀ c,
    parseAccountToPoolsIndex f (accountToPoolsIndex f c a.token) = some (c, a.token)
  event : ∀ slot < 2 ^ 64, ∀ index < 2 ^ 64, fromEventKey (eventKey slot index) = some (slot, index)

variable {f} {a : Asset}

theorem take_ofBytes (bytes : List ℕ) :
    (AssetName.ofBytes bytes).paddedBytes.take (AssetName.ofBytes bytes).len = bytes :=
  take_left

theorem ofBytes_inj {bytes bytes' : List ℕ} :
    AssetName.ofBytes bytes = AssetName.ofBytes bytes' ↔ bytes = bytes' := by
  refine ⟨fun h => ?_, congrArg _⟩
  rw [← take_ofBytes bytes, h, take_ofBytes]

theorem tryFromHex_eq {s bytes : List ℕ} (h : hexDecode s = some bytes) (hle : bytes.length ≤ 32) :
    AssetName.tryFromHex s = some (.ofBytes bytes) := by
  unfold AssetName.tryFromHex
  rw [h, Option.bind_some, if_neg hle.not_gt]

/-- A name is read back from its text, unless it is a text of hexadecimal digits. -/
theorem display_iff : AssetName.deserialize (display f a.token.name) = a.token.name ↔
    ¬ (f.isUtf8 a.name = true ∧ a.name ≠ [] ∧ (hexDecode a.name).isSome) := by
  have hle := a.name_length
  unfold display AssetName.deserialize
  rw [show a.token.name = .ofBytes a.name from rfl, take_ofBytes]
  dsimp only
  by_cases hutf8 : f.isUtf8 a.name = true
  · rw [if_pos hutf8]
    cases hdecode : hexDecode a.name with
    | none =>
      have hcut : a.name.take 32 = a.name := take_of_length_le hle
      have hlen : a.name.length % 256 = a.name.length := Nat.mod_eq_of_lt (by omega)
      simp [AssetName.tryFromHex, AssetName.fromUtf8, AssetName.ofBytes, hdecode, hcut, hlen]
    | some bytes =>
      have hlength := length_of_hexDecode hdecode
      rw [tryFromHex_eq hdecode (by omega), Option.getD_some, ofBytes_inj]
      -- only the empty text is as long as what it stands for
      have hempty : bytes = a.name ↔ a.name = [] := by
        refine ⟨fun h => eq_nil_of_length_eq_zero (by rw [h] at hlength; omega), fun h => ?_⟩
        rw [h] at hdecode ⊢
        exact (Option.some.inj hdecode).symm
      simp [hutf8, hempty]
  · rw [if_neg hutf8, tryFromHex_eq (hexDecode_hexEncode a.name_lt) hle]
    simp [hutf8]

theorem length_raw (a : Asset) : (raw a.token).length = 60 := by
  have hle := a.name_length
  show (a.policy ++ (a.name ++ List.replicate (32 - a.name.length) 0)).length = 60
  simp only [length_append, a.policy_length, length_replicate]
  omega

/-- A token is read back from its bytes when its name is as long as it can be. -/
theorem tokenOfRaw_iff : tokenOfRaw (raw a.token) = a.token ↔ a.name.length = 32 := by
  have hle := a.name_length
  have hraw : tokenOfRaw (raw a.token) =
      ⟨a.policy, .ofBytes (a.name ++ List.replicate (32 - a.name.length) 0)⟩ := by
    unfold tokenOfRaw
    congr 1
    · exact take_left' a.policy_length
    · exact congrArg AssetName.ofBytes (drop_left' a.policy_length)
  rw [hraw, Asset.token, TokenId.mk.injEq, and_iff_right rfl, ofBytes_inj, append_right_eq_self,
    replicate_eq_nil_iff]
  omega

theorem parsePositionKey_positionKey (h : tokenOfRaw (raw a.token) = a.token) (c : C) {epoch : ℕ}
    (hepoch : epoch < 2 ^ 64) :
    parsePositionKey f (positionKey f a.token c epoch) = some (a.token, c, epoch) := by
  have hslot : (positionKey f a.token c epoch).length - 8 = (raw a.token ++ f.cbor c).length := by
    rw [positionKey, length_append, length_beBytes, Nat.add_sub_cancel]
  have hpool : (positionKey f a.token c epoch).take 60 = raw a.token := by
    rw [positionKey, append_assoc]
    exact take_left' (length_raw a)
  unfold parsePositionKey
  dsimp only
  rw [hslot, hpool, h, positionKey, take_left, drop_left, drop_left' (length_raw a),
    f.fromCbor_cbor, ofBeBytes_beBytes hepoch]
  rfl

/-- **Which assets have faithful forms**: those with a name of 32 bytes that is not a text of
hexadecimal digits. -/
theorem codecs_iff {S : Set Asset} : Codecs f S ↔
    ∀ a ∈ S, a.name.length = 32 ∧ ¬ (f.isUtf8 a.name = true ∧ (hexDecode a.name).isSome) := by
  constructor
  · intro h a ha
    have hlength := tokenOfRaw_iff.1 (h.bytes a ha)
    have hne : a.name ≠ [] := ne_nil_of_length_pos (by omega)
    exact ⟨hlength, fun hhex => display_iff.1 (h.text a ha) ⟨hhex.1, hne, hhex.2⟩⟩
  · intro h
    have htext : ∀ a ∈ S, AssetName.deserialize (display f a.token.name) = a.token.name :=
      fun a ha => display_iff.2 fun hhex => (h a ha).2 ⟨hhex.1, hhex.2.2⟩
    have hbytes : ∀ a ∈ S, tokenOfRaw (raw a.token) = a.token := fun a ha =>
      tokenOfRaw_iff.2 (h a ha).1
    have hpool : ∀ a ∈ S, ∀ a' ∈ S, ∀ l l', raw a.token ++ l = raw a'.token ++ l' →
        a.token = a'.token ∧ l = l' := by
      intro a ha a' ha' l l' heq
      obtain ⟨hraw, hl⟩ := append_inj heq ((length_raw a).trans (length_raw a').symm)
      rw [← hbytes a ha, hraw, hbytes a' ha']
      exact ⟨rfl, hl⟩
    refine
      { text := htext
        bytes := hbytes
        position := fun a ha c epoch => parsePositionKey_positionKey (hbytes a ha) c
        account := fun a ha a' ha' c c' heq => ?_
        gauge := fun a ha a' ha' epoch hepoch epoch' hepoch' heq => ?_
        index := fun a ha c => ?_
        event := fun slot hslot index hindex => ?_ }
    · obtain ⟨htoken, hc⟩ := hpool a ha a' ha' _ _ heq
      have hsome := f.fromCbor_cbor c
      rw [hc, f.fromCbor_cbor] at hsome
      exact ⟨htoken, (Option.some.inj hsome).symm⟩
    · obtain ⟨htoken, hbe⟩ := hpool a ha a' ha' _ _ heq
      rw [← ofBeBytes_beBytes (k := 8) hepoch, hbe, ofBeBytes_beBytes hepoch']
      exact ⟨htoken, rfl⟩
    · unfold parseAccountToPoolsIndex accountToPoolsIndex
      rw [f.unpack_pack, Option.map_some, htext a ha]
    · unfold fromEventKey eventKey
      rw [if_pos (by simp), take_left' (length_beBytes 8 slot),
        drop_left' (length_beBytes 8 slot), ofBeBytes_beBytes hslot, ofBeBytes_beBytes hindex]

/-! ## Names that are mistaken -/

def asciiFormats : Formats Unit where
  isUtf8 bytes := bytes.all (· < 128)
  cbor _ := []
  fromCbor _ := some ()
  fromCbor_cbor _ := rfl
  pack x := x.2.1.length :: (x.2.1 ++ x.2.2)
  unpack bytes := some ((), bytes.tail.take (bytes.headD 0), bytes.tail.drop (bytes.headD 0))
  unpack_pack x := by simp

/-- The name `ab` and the name of the byte `0xab` have the same text, and the names `ab` and `ab\0`
have the same bytes. -/
theorem hexName_mistaken :
    display asciiFormats (.ofBytes [97, 98]) = display asciiFormats (.ofBytes [171]) ∧
      AssetName.deserialize (display asciiFormats (.ofBytes [97, 98])) = .ofBytes [171] ∧
      raw (⟨List.replicate 28 7, .ofBytes [97, 98]⟩ : TokenId) =
        raw (⟨List.replicate 28 7, .ofBytes [97, 98, 0]⟩ : TokenId) := by
  decide

end Splash.LpIndexer
