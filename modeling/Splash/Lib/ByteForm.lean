import Mathlib

/-!
# Bytes as hexadecimal text and numbers as bytes

Bytes and the codes of letters are natural numbers.

* `hexDecode_hexEncode` — hexadecimal text is read back.
* `length_of_hexDecode` — it is twice as long as what it stands for.
* `ofBeBytes_beBytes` — numbers are read back from their bytes, most significant first.
-/

namespace Splash.Lib

/-! ## Hexadecimal text -/

def hexDigit (n : ℕ) : ℕ := if n < 10 then 48 + n else 87 + n

def hexValue (letter : ℕ) : Option ℕ :=
  if 48 ≤ letter ∧ letter ≤ 57 then some (letter - 48)
  else if 97 ≤ letter ∧ letter ≤ 102 then some (letter - 87)
  else if 65 ≤ letter ∧ letter ≤ 70 then some (letter - 55)
  else none

def hexEncode (bytes : List ℕ) : List ℕ :=
  bytes.flatMap fun b => [hexDigit (b / 16), hexDigit (b % 16)]

def hexDecode : List ℕ → Option (List ℕ)
  | [] => some []
  | [_] => none
  | high :: low :: text =>
    (hexValue high).bind fun h => (hexValue low).bind fun l =>
      (hexDecode text).map fun bytes => (16 * h + l) :: bytes

theorem hexValue_hexDigit {n : ℕ} (h : n < 16) : hexValue (hexDigit n) = some n := by
  unfold hexDigit hexValue
  split_ifs <;> first | omega | (congr 1; omega)

theorem hexDecode_hexEncode {bytes : List ℕ} (h : ∀ b ∈ bytes, b < 256) :
    hexDecode (hexEncode bytes) = some bytes := by
  induction bytes with
  | nil => rfl
  | cons b bytes ih =>
    obtain ⟨hb, hbytes⟩ := List.forall_mem_cons.1 h
    show (hexValue (hexDigit (b / 16))).bind _ = _
    rw [hexValue_hexDigit (by omega), hexValue_hexDigit (by omega)]
    show (hexDecode (hexEncode bytes)).map _ = _
    rw [ih hbytes, Option.map_some, Nat.div_add_mod]

theorem length_of_hexDecode {text bytes : List ℕ} (h : hexDecode text = some bytes) :
    text.length = 2 * bytes.length := by
  induction text using hexDecode.induct generalizing bytes with
  | case1 =>
    cases h
    rfl
  | case2 => cases h
  | case3 high low text ih =>
    obtain ⟨_, -, h⟩ := Option.bind_eq_some_iff.1 h
    obtain ⟨_, -, h⟩ := Option.bind_eq_some_iff.1 h
    obtain ⟨rest, hrest, rfl⟩ := Option.map_eq_some_iff.1 h
    simp only [List.length_cons, ih hrest]
    omega

/-! ## Numbers -/

/-- The last `k` bytes of a number. -/
def beBytes : ℕ → ℕ → List ℕ
  | 0, _ => []
  | k + 1, n => beBytes k (n / 256) ++ [n % 256]

def ofBeBytes (bytes : List ℕ) : ℕ := bytes.foldl (fun n b => 256 * n + b) 0

@[simp] theorem length_beBytes (k n : ℕ) : (beBytes k n).length = k := by
  induction k generalizing n with
  | zero => rfl
  | succ k ih => simp [beBytes, ih]

theorem ofBeBytes_beBytes {k n : ℕ} (h : n < 256 ^ k) : ofBeBytes (beBytes k n) = n := by
  induction k generalizing n with
  | zero =>
    have hn : n = 0 := by simpa using h
    exact hn.symm
  | succ k ih =>
    have hdiv : n / 256 < 256 ^ k := Nat.div_lt_of_lt_mul (by rwa [← pow_succ'])
    unfold ofBeBytes at ih ⊢
    rw [beBytes, List.foldl_append, ih hdiv]
    exact Nat.div_add_mod n 256

end Splash.Lib
