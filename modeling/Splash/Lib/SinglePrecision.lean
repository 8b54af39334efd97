import Mathlib

/-!
# Naturals in single precision

Single precision keeps 24 binary digits, and rounds to the nearest value, a tie to the even one.
Naturals are rounded when they have more digits; so are quotients, and the integer part of a
quotient is taken after it was rounded.

* `le_roundNat_add` — rounding loses at most one part in `2 ^ 24`.
* `le_floorQuotient` — the integer part of a rounded quotient is not below one of at most 24 digits
  that the exact quotient reaches.
-/

namespace Splash.Lib.SinglePrecision

open Nat

def precision : ℕ := 24

/-- A quotient rounded to the nearest natural, a tie to the even one. -/
def halfEven (a b : ℕ) : ℕ :=
  if 2 * (a % b) < b then a / b
  else if b < 2 * (a % b) then a / b + 1
  else a / b + a / b % 2

def roundNat (a : ℕ) : ℕ :=
  if a < 2 ^ precision then a
  else
    let shift := a.log2 - (precision - 1)
    halfEven a (2 ^ shift) * 2 ^ shift

/-- The integer part of the quotient of two values in single precision. A quotient below one is
rounded to one only when its leading digit stands for a half. -/
def floorQuotient (a b : ℕ) : ℕ :=
  if a / b = 0 then halfEven (a * 2 ^ precision) b / 2 ^ precision
  else if a / b < 2 ^ precision then
    let shift := precision - 1 - (a / b).log2
    halfEven (a * 2 ^ shift) b / 2 ^ shift
  else
    let shift := (a / b).log2 - (precision - 1)
    halfEven a (b * 2 ^ shift) * 2 ^ shift

theorem div_le_halfEven (a b : ℕ) : a / b ≤ halfEven a b := by
  unfold halfEven
  split
  · exact le_rfl
  · split
    · exact le_succ _
    · exact Nat.le_add_right _ _

theorem le_halfEven_mul (a : ℕ) {b : ℕ} (hb : 0 < b) : 2 * a ≤ 2 * (halfEven a b * b) + b := by
  have hdiv := div_add_mod a b
  have hmod := mod_lt a hb
  rw [mul_comm b] at hdiv
  have hle := Nat.mul_le_mul_right b (div_le_halfEven a b)
  unfold halfEven at hle ⊢
  split
  · omega
  · split
    · rw [add_mul]
      omega
    · have hwhole : a / b * b ≤ (a / b + a / b % 2) * b :=
        Nat.mul_le_mul_right b (Nat.le_add_right _ _)
      omega

theorem le_roundNat_add (a : ℕ) : a ≤ roundNat a + a / 2 ^ precision := by
  unfold roundNat
  split
  case isTrue => exact Nat.le_add_right _ _
  case isFalse hlarge =>
    have hne : a ≠ 0 := by
      rintro rfl
      exact hlarge (Nat.two_pow_pos _)
    have hlog : precision ≤ a.log2 := (le_log2 hne).2 (not_lt.1 hlarge)
    have hpow : 2 ^ a.log2 ≤ a := log2_self_le hne
    obtain ⟨shift, hshift⟩ : ∃ shift, a.log2 = shift + precision := ⟨_, (Nat.sub_add_cancel hlog).symm⟩
    have hexp : a.log2 - (precision - 1) = shift + 1 := by
      rw [hshift, precision]
      omega
    rw [hexp]
    have hround := le_halfEven_mul a (Nat.two_pow_pos (shift + 1))
    have hunit : 2 ^ shift ≤ a / 2 ^ precision := by
      rw [Nat.le_div_iff_mul_le (Nat.two_pow_pos _), ← pow_add, ← hshift]
      exact hpow
    show a ≤ halfEven a (2 ^ (shift + 1)) * 2 ^ (shift + 1) + a / 2 ^ precision
    have hhalf : 2 ^ (shift + 1) = 2 * 2 ^ shift := pow_succ' 2 shift
    omega

/-- **The integer part of a rounded quotient reaches every natural of at most 24 digits that the
exact quotient reaches.** -/
theorem le_floorQuotient {a b n : ℕ} (hb : 0 < b) (hn : n < 2 ^ precision) (h : n * b ≤ a) :
    n ≤ floorQuotient a b := by
  have hquot : n ≤ a / b := (Nat.le_div_iff_mul_le hb).2 h
  unfold floorQuotient
  split
  case isTrue hzero =>
    rw [hzero] at hquot
    exact hquot.trans (Nat.zero_le _)
  split
  case isTrue =>
    rw [Nat.le_div_iff_mul_le (Nat.two_pow_pos _)]
    refine le_trans ?_ (div_le_halfEven _ _)
    rw [Nat.le_div_iff_mul_le hb]
    calc n * 2 ^ _ * b = n * b * 2 ^ _ := Nat.mul_right_comm _ _ _
      _ ≤ a * 2 ^ _ := Nat.mul_le_mul_right _ h
  case isFalse hpos hlarge =>
    have hlog : precision ≤ (a / b).log2 := (le_log2 hpos).2 (not_lt.1 hlarge)
    have hpow : 2 ^ (a / b).log2 ≤ a / b := log2_self_le hpos
    have hdigits : 2 ^ (precision - 1) ≤ a / (b * 2 ^ ((a / b).log2 - (precision - 1))) := by
      rw [← Nat.div_div_eq_div_mul, Nat.le_div_iff_mul_le (Nat.two_pow_pos _), ← pow_add,
        Nat.add_sub_cancel' (le_trans (sub_le _ _) hlog)]
      exact hpow
    have hshift : 2 ^ 1 ≤ 2 ^ ((a / b).log2 - (precision - 1)) :=
      Nat.pow_le_pow_right Nat.two_pos (by unfold precision at hlog ⊢; omega)
    calc n ≤ 2 ^ (precision - 1) * 2 ^ 1 := by
          rw [← pow_add]
          exact hn.le
      _ ≤ _ := Nat.mul_le_mul (hdigits.trans (div_le_halfEven _ _)) hshift

end Splash.Lib.SinglePrecision
