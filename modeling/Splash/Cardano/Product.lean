import Splash.Cardano.Pools

/-!
# The product of a constant product pool

What a constant product pool can trade with is its reserves without what it withholds for the
treasury and for royalties. The output of a swap is rounded down, and so are the amounts withheld of
its input.

* `Holdings.Shift.trans`, `Holdings.Shift.product_le` — what trades one after the other do.
* `ConstFnPool.swap_trades` — a swap of a pool of each kind is such a trade.
* `swaps_product_le` — no sequence of swaps does.
-/

namespace Splash.Cardano

open Lib LiquidityBook Exec Ratio Nat

/-! ## Ratios as numbers -/

namespace Ratio

def value (r : Ratio) : ℚ := r.numer / r.denom

variable {amount part : ℕ} {fee r : Ratio}

theorem new_spec {numer denom : ℕ} (h : new numer denom = .ok r) :
    denom ≠ 0 ∧ r.denom ≠ 0 ∧ r.value = numer / denom := by
  unfold new at h
  split at h
  · cases h
  · next hdenom =>
    cases h
    have hgcd : numer.gcd denom ≠ 0 := Nat.gcd_ne_zero_right hdenom
    obtain ⟨d, hd⟩ := Nat.gcd_dvd_right numer denom
    obtain ⟨n, hn⟩ := Nat.gcd_dvd_left numer denom
    generalize hg : numer.gcd denom = g at *
    have hdiv : numer / g = n ∧ denom / g = d := by
      constructor
      · rw [hn, Nat.mul_div_cancel_left _ (Nat.pos_of_ne_zero hgcd)]
      · rw [hd, Nat.mul_div_cancel_left _ (Nat.pos_of_ne_zero hgcd)]
    have hd0 : d ≠ 0 := by
      rintro rfl
      exact hdenom (by rw [hd, mul_zero])
    have hgq : (g : ℚ) ≠ 0 := by exact_mod_cast hgcd
    refine ⟨hdenom, by simpa only [hdiv.2] using hd0, ?_⟩
    simp only [value, hdiv.1, hdiv.2]
    rw [hn, hd]
    push_cast
    rw [mul_div_mul_left _ _ hgq]

theorem sub_spec {a b : Ratio} (h : a.sub b = .ok r) :
    r.denom ≠ 0 ∧ a.denom ≠ 0 ∧ b.denom ≠ 0 ∧ r.value = a.value - b.value := by
  unfold sub at h
  split at h
  case isTrue heq =>
    obtain ⟨numer, hsub, h⟩ := bind_eq_ok.1 h
    obtain ⟨hdenom, hr, hvalue⟩ := new_spec h
    have hnumer := subU64_eq_ok.1 hsub
    refine ⟨hr, heq ▸ hdenom, hdenom, ?_⟩
    rw [hvalue, value, value, heq, hnumer]
    push_cast
    ring
  case isFalse _ =>
    obtain ⟨lcm, hfit, h⟩ := bind_eq_ok.1 h
    obtain ⟨-, rfl⟩ := fit_eq_ok.1 hfit
    obtain ⟨numerA, hnumerA, h⟩ := bind_eq_ok.1 h
    obtain ⟨-, rfl⟩ := fit_eq_ok.1 hnumerA
    obtain ⟨numerB, hnumerB, h⟩ := bind_eq_ok.1 h
    obtain ⟨-, rfl⟩ := fit_eq_ok.1 hnumerB
    obtain ⟨numer, hsub, h⟩ := bind_eq_ok.1 h
    obtain ⟨hlcm, hr, hvalue⟩ := new_spec h
    have hnumer := subU64_eq_ok.1 hsub
    have ha : a.denom ≠ 0 := by
      rintro h0
      exact hlcm (by rw [h0, lcm_zero_left])
    have hb : b.denom ≠ 0 := by
      rintro h0
      exact hlcm (by rw [h0, lcm_zero_right])
    refine ⟨hr, ha, hb, ?_⟩
    -- both ratios over the common denominator
    have hpart : ∀ d : ℕ, d ∣ a.denom.lcm b.denom → d ≠ 0 → ∀ n : ℕ,
        (n : ℚ) / d = (n * (a.denom.lcm b.denom / d) : ℕ) / (a.denom.lcm b.denom : ℕ) := by
      rintro d ⟨k, hk⟩ hd n
      have hdq : (d : ℚ) ≠ 0 := by exact_mod_cast hd
      have hkq : (k : ℚ) ≠ 0 := by
        rintro h0
        have hk0 : k = 0 := by exact_mod_cast h0
        exact hlcm (by rw [hk, hk0, mul_zero])
      rw [hk, Nat.mul_div_cancel_left _ (Nat.pos_of_ne_zero hd)]
      push_cast
      field_simp
    rw [hvalue, value, value, hpart a.denom (Nat.dvd_lcm_left _ _) ha,
      hpart b.denom (Nat.dvd_lcm_right _ _) hb, hnumer]
    push_cast
    ring

theorem of_spec (h : fee.of amount = .ok part) : (part : ℚ) ≤ amount * fee.value := by
  unfold of at h
  obtain ⟨product, hproduct, h⟩ := bind_eq_ok.1 h
  obtain ⟨-, rfl⟩ := fit_eq_ok.1 hproduct
  obtain ⟨-, rfl⟩ := divide_eq_ok.1 h
  calc ((amount * fee.numer / fee.denom : ℕ) : ℚ) ≤ (amount * fee.numer : ℕ) / fee.denom :=
        cast_div_le
    _ = amount * fee.value := by
      rw [value]
      push_cast
      ring

/-- What is withheld of an amount and what the fee leaves of it, over the denominator of the fee. -/
theorem part_le (hfee : fee.denom ≠ 0) (h : (part : ℚ) ≤ amount * (1 - fee.value)) :
    part * fee.denom + amount * fee.numer ≤ amount * fee.denom := by
  have hdq : (0 : ℚ) < fee.denom := by exact_mod_cast Nat.pos_of_ne_zero hfee
  have hmul := mul_le_mul_of_nonneg_right h hdq.le
  rw [value, mul_assoc, sub_mul, one_mul, div_mul_cancel₀ _ hdq.ne'] at hmul
  have hsum : (part : ℚ) * fee.denom + amount * fee.numer ≤ amount * fee.denom := by linarith
  exact_mod_cast hsum

end Ratio

/-! ## One trade -/

/-- The quote of a constant product pool is given as it is, or as much as leaves the untouchable
amount of the native asset. -/
theorem quote_cases {asset : AssetClass} {inReserves outReserves amount output : ℕ} {fee : Ratio}
    (h : (cfmmQuote inReserves outReserves amount fee >>= cappedQuote asset outReserves)
      = .ok output) :
    ∃ quote ≤ outReserves, quote = outReserves * amount * fee.numer /
        (inReserves * fee.denom + amount * fee.numer) ∧
      inReserves * fee.denom + amount * fee.numer ≠ 0 ∧ output ≤ quote ∧
      (asset.isNative = true → output + untouchableLovelaceAmount ≤ outReserves) ∧
      (output = quote ∨ asset.isNative = true ∧
        outReserves = output + untouchableLovelaceAmount) := by
  obtain ⟨quote, hquote, hcapped⟩ := bind_eq_ok.1 h
  have hle : quote ≤ outReserves := cfmmQuote_le hquote
  unfold cfmmQuote at hquote
  obtain ⟨numer, hnumer, hquote⟩ := bind_eq_ok.1 hquote
  obtain ⟨denom, hdenom, hquote⟩ := bind_eq_ok.1 hquote
  obtain ⟨-, rfl⟩ := fit_eq_ok.1 hnumer
  obtain ⟨-, rfl⟩ := fit_eq_ok.1 hdenom
  obtain ⟨hne, heq⟩ := divide_eq_ok.1 hquote
  refine ⟨quote, hle, heq, hne, ?_⟩
  unfold cappedQuote at hcapped
  split at hcapped
  case isTrue hnative =>
    obtain ⟨left, hleft, hcapped⟩ := bind_eq_ok.1 hcapped
    have hleft := subU64_eq_ok.1 hleft
    split at hcapped
    · have hcapped := subU64_eq_ok.1 hcapped
      exact ⟨by omega, fun _ => by omega, .inr ⟨hnative, hcapped⟩⟩
    · cases hcapped
      exact ⟨le_rfl, fun _ => by omega, .inl rfl⟩
  case isFalse hnative =>
    cases hcapped
    exact ⟨le_rfl, fun h => absurd h hnative, .inl rfl⟩

/-! ## Trades of a pool of two assets -/

section Legs

variable {assetX assetY : AssetClass} {input : OnSide ℕ}

theorem inputAsset_eq_iff (hne : assetX ≠ assetY) :
    inputAsset assetX assetY input = assetX ↔ paysX assetX assetY input = true := by
  cases input with
  | bid a =>
    simp only [inputAsset, paysX, orderCanonical, decide_eq_true_iff, max_eq_left_iff, ne_eq,
      min_eq_left_iff, not_le]
    exact ⟨fun hle => lt_of_le_of_ne hle hne.symm, le_of_lt⟩
  | ask a =>
    simp only [inputAsset, paysX, decide_eq_true_iff]

/-- What a trade does to one pair of counters and to the reserves, when it pays `x` in and when it
pays `y` in. -/
theorem exchange_cases {x y output x' y' : ℕ}
    (h : exchange assetX assetY x y input output = .ok (x', y')) :
    if paysX assetX assetY input then x' = x + input.unwrap ∧ y = y' + output
    else y' = y + input.unwrap ∧ x = x' + output := by
  rw [exchange_eq_ok] at h
  split <;> simp_all

theorem charge_cases {x y fee x' y' : ℕ}
    (h : charge assetX assetY x y input fee = .ok (x', y')) :
    if paysX assetX assetY input then x' = x + fee ∧ y' = y else y' = y + fee ∧ x' = x := by
  rw [charge_eq_ok] at h
  split <;> simp_all

/-- A pool as far as its product goes: reserves, and what is withheld of them. -/
structure Holdings where
  reservesX : ℕ
  reservesY : ℕ
  withheldX : ℕ
  withheldY : ℕ

namespace Holdings

section

variable (h : Holdings)
include h

/-- What is withheld is there. -/
def Covered : Prop := h.withheldX ≤ h.reservesX ∧ h.withheldY ≤ h.reservesY

def product : ℕ := (h.reservesX - h.withheldX) * (h.reservesY - h.withheldY)

/-- What can be traded of `x`. -/
def freeX : ℕ := h.reservesX - h.withheldX

/-- What can be traded of `y`. -/
def freeY : ℕ := h.reservesY - h.withheldY

/-- The holdings with the asset that is paid in for `x`. -/
def facing (paysX : Bool) : Holdings :=
  if paysX then h else ⟨h.reservesY, h.reservesX, h.withheldY, h.withheldX⟩

omit h in
theorem covered_facing {h : Holdings} {pays : Bool} : (h.facing pays).Covered ↔ h.Covered := by
  cases pays
  · exact and_comm
  · exact Iff.rfl

theorem product_facing (pays : Bool) : (h.facing pays).product = h.product := by
  cases pays
  · exact mul_comm _ _
  · rfl

end

/-- A trade takes `amount` of `x` in, withholds a part of it, and gives `output` of `y`, which it
quotes with `fee`. -/
structure Trade (fee : Ratio) (outputAsset : AssetClass) (amount output : ℕ) (h h' : Holdings) :
    Prop where
  covered : h.Covered
  denom_ne_zero : fee.denom ≠ 0
  quoted : (cfmmQuote h.freeX h.freeY amount fee >>= cappedQuote outputAsset h.freeY) = .ok output
  paid : h'.reservesX = h.reservesX + amount
  given : h.reservesY = h'.reservesY + output
  withheld : ∃ part, part * fee.denom + amount * fee.numer ≤ amount * fee.denom ∧
    h'.withheldX = h.withheldX + part
  kept : h'.withheldY = h.withheldY

/-- What trades of `amount` in all can do to the holdings: no more is given than the product
allows when all of the input but for the fee is counted. -/
structure Shift (fee : Ratio) (outputAsset : AssetClass) (amount : ℕ) (h h' : Holdings) : Prop where
  paid : h'.reservesX = h.reservesX + amount
  given : h'.reservesY + h.freeY = h.reservesY + h'.freeY
  freeY_le : h'.freeY ≤ h.freeY
  freeX_le : h.freeX * fee.denom + amount * fee.numer ≤ h'.freeX * fee.denom
  mul_le : h.freeX * fee.denom * h.freeY ≤ h'.freeY * (h.freeX * fee.denom + amount * fee.numer)
  untouched : outputAsset.isNative = true → min h.freeY untouchableLovelaceAmount ≤ h'.freeY

variable {fee : Ratio} {outputAsset : AssetClass} {amount more output : ℕ} {h h' h'' : Holdings}

theorem Trade.shift (t : Trade fee outputAsset amount output h h') :
    h'.Covered ∧ Shift fee outputAsset amount h h' := by
  obtain ⟨hcoveredX, hcoveredY⟩ := t.covered
  obtain ⟨part, hpart, hwithheld⟩ := t.withheld
  obtain ⟨quote, hquoteY, hquote, -, hle, huntouched, -⟩ := quote_cases t.quoted
  have hgiven := t.given
  have hpaid := t.paid
  have hkept := t.kept
  have hfreeY : h.freeY = h.reservesY - h.withheldY := rfl
  have hfreeY' : h'.freeY + output = h.freeY := by
    unfold freeY
    omega
  have hpartle : part ≤ amount := by
    refine Nat.le_of_mul_le_mul_right (?_ : part * fee.denom ≤ amount * fee.denom)
      (Nat.pos_of_ne_zero t.denom_ne_zero)
    omega
  have hfreeX : h'.freeX + part = h.freeX + amount := by
    unfold freeX
    omega
  refine ⟨⟨by omega, by omega⟩, hpaid, by omega, by omega, ?_, ?_, fun hnative => ?_⟩
  · have hscaled : (h'.freeX + part) * fee.denom = (h.freeX + amount) * fee.denom := by rw [hfreeX]
    rw [add_mul, add_mul] at hscaled
    omega
  · -- the output is at most the quotient
    have hout : output * (h.freeX * fee.denom + amount * fee.numer) ≤
        h.freeY * amount * fee.numer := by
      rw [hquote] at hle
      exact (Nat.mul_le_mul_right _ hle).trans (div_mul_le_self _ _)
    rw [← hfreeY'] at hout ⊢
    nlinarith [hout]
  · have := huntouched hnative
    have := min_le_right h.freeY untouchableLovelaceAmount
    omega

theorem Shift.refl (h : Holdings) : Shift fee outputAsset 0 h h where
  paid := rfl
  given := rfl
  freeY_le := le_rfl
  freeX_le := by rw [zero_mul, add_zero]
  mul_le := by rw [zero_mul, add_zero, mul_comm]
  untouched _ := min_le_left _ _

theorem Shift.trans (s : Shift fee outputAsset amount h h') (s' : Shift fee outputAsset more h' h'') :
    Shift fee outputAsset (amount + more) h h'' where
  paid := by rw [s'.paid, s.paid, add_assoc]
  given := by
    have := s.given
    have := s'.given
    omega
  freeY_le := s'.freeY_le.trans s.freeY_le
  freeX_le := by
    have := s.freeX_le
    have := s'.freeX_le
    rw [add_mul]
    omega
  mul_le := by
    obtain ⟨slack, hslack⟩ := Nat.exists_eq_add_of_le s.freeX_le
    have hY := Nat.mul_le_mul_right slack s'.freeY_le
    have hfirst := s.mul_le
    have hsecond := s'.mul_le
    rw [hslack] at hsecond
    nlinarith [hY, hfirst, hsecond]
  untouched hnative :=
    (le_min (s.untouched hnative) (min_le_right _ _)).trans (s'.untouched hnative)

/-- **The product of trades.** It does not fall. -/
theorem Shift.product_le (s : Shift fee outputAsset amount h h') (hfee : fee.denom ≠ 0) :
    h.product ≤ h'.product := by
  refine Nat.le_of_mul_le_mul_right (c := fee.denom) ?_ (Nat.pos_of_ne_zero hfee)
  calc h.freeX * h.freeY * fee.denom = h.freeX * fee.denom * h.freeY := by ring
    _ ≤ h'.freeY * (h.freeX * fee.denom + amount * fee.numer) := s.mul_le
    _ ≤ h'.freeY * (h'.freeX * fee.denom) := Nat.mul_le_mul_left _ s.freeX_le
    _ = h'.freeX * h'.freeY * fee.denom := by ring

/-- A swap that quotes its output with the fees `feeX` and `feeY` and withholds `part` of the input
is a trade. -/
theorem Trade.of_swap (hne : assetX ≠ assetY) {feeX feeY : Ratio} {part : ℕ} {k : Holdings}
    (hcovered : h.Covered)
    (hquote : classicCfmmOutputAmount assetX assetY (h.reservesX - h.withheldX)
      (h.reservesY - h.withheldY) (inputAsset assetX assetY input) input.unwrap feeX feeY
        = .ok output)
    (hfeeX : feeX.denom ≠ 0) (hfeeY : feeY.denom ≠ 0)
    (hpartX : (part : ℚ) ≤ input.unwrap * (1 - feeX.value))
    (hpartY : (part : ℚ) ≤ input.unwrap * (1 - feeY.value))
    (hreserves : if paysX assetX assetY input then
      k.reservesX = h.reservesX + input.unwrap ∧ h.reservesY = k.reservesY + output
      else k.reservesY = h.reservesY + input.unwrap ∧ h.reservesX = k.reservesX + output)
    (hwithheld : if paysX assetX assetY input then
      k.withheldX = h.withheldX + part ∧ k.withheldY = h.withheldY
      else k.withheldY = h.withheldY + part ∧ k.withheldX = h.withheldX) :
    Trade (if paysX assetX assetY input then feeX else feeY)
      (if paysX assetX assetY input then assetY else assetX) input.unwrap output
      (h.facing (paysX assetX assetY input)) (k.facing (paysX assetX assetY input)) := by
  unfold classicCfmmOutputAmount at hquote
  cases hpays : paysX assetX assetY input with
  | true =>
    rw [if_pos ((inputAsset_eq_iff hne).2 hpays)] at hquote
    rw [hpays] at hreserves hwithheld
    exact ⟨hcovered, hfeeX, hquote, hreserves.1, hreserves.2,
      ⟨part, part_le hfeeX hpartX, hwithheld.1⟩, hwithheld.2⟩
  | false =>
    rw [if_neg fun heq => Bool.eq_false_iff.1 hpays ((inputAsset_eq_iff hne).1 heq)] at hquote
    rw [hpays] at hreserves hwithheld
    exact ⟨hcovered.symm, hfeeY, hquote, hreserves.1, hreserves.2,
      ⟨part, part_le hfeeY hpartY, hwithheld.1⟩, hwithheld.2⟩

end Holdings

end Legs

/-! ## The three kinds of pools -/

namespace ConstFnPool

def assetX : ConstFnPool → AssetClass
  | .classic p => p.assetX
  | .feeSwitch p => p.assetX
  | .royalty p => p.assetX

def assetY : ConstFnPool → AssetClass
  | .classic p => p.assetY
  | .feeSwitch p => p.assetY
  | .royalty p => p.assetY

def swap : ConstFnPool → OnSide ℕ → Exec ConstFnPool
  | .classic p, input => return .classic (← p.swap input)
  | .feeSwitch p, input => return .feeSwitch (← p.swap input)
  | .royalty p, input => return .royalty (← p.swap input)

/-- Reserves of the pool, and what it withholds for the treasury and for royalties. -/
def holdings : ConstFnPool → Holdings
  | .classic p => ⟨p.reservesX, p.reservesY, 0, 0⟩
  | .feeSwitch p => ⟨p.reservesX, p.reservesY, p.treasuryX, p.treasuryY⟩
  | .royalty p => ⟨p.reservesX, p.reservesY, p.treasuryX + p.firstRoyaltyX + p.secondRoyaltyX,
      p.treasuryY + p.firstRoyaltyY + p.secondRoyaltyY⟩

/-- The fee of the liquidity providers, which is what is left of the input, is at most the input. -/
def FeesBounded : ConstFnPool → Prop
  | .classic p => p.lpFee.numer ≤ p.lpFee.denom
  | .feeSwitch p => p.lpFeeX.numer ≤ p.lpFeeX.denom ∧ p.lpFeeY.numer ≤ p.lpFeeY.denom
  | .royalty p => p.lpFee.numer ≤ p.lpFee.denom

/-- What the fees leave of an input. -/
def netFee : ConstFnPool → (paysX : Bool) → Exec Ratio
  | .classic p, _ => .ok p.lpFee
  | .feeSwitch p, paysX => (if paysX then p.lpFeeX else p.lpFeeY).sub p.treasuryFee
  | .royalty p, _ => p.poolFee

/-- The pool `p'` was `p` before a trade of `input`. -/
def Trades (p p' : ConstFnPool) (input : OnSide ℕ) : Prop :=
  let pays := paysX p.assetX p.assetY input
  ∃ fee output, p.netFee pays = .ok fee ∧
    Holdings.Trade fee (if pays then p.assetY else p.assetX) input.unwrap output
      (p.holdings.facing pays) (p'.holdings.facing pays)

end ConstFnPool

theorem Ratio.value_le_one {r : Ratio} (h : r.numer ≤ r.denom) : r.value ≤ 1 := by
  rw [value]
  exact div_le_one_of_le₀ (by exact_mod_cast h) (cast_nonneg _)

section Kinds

variable {input : OnSide ℕ}

theorem ClassicPool.swap_trades {p p' : ClassicPool} (hne : p.assetX ≠ p.assetY)
    (hfee : p.lpFee.numer ≤ p.lpFee.denom) (h : p.swap input = .ok p') :
    (ConstFnPool.classic p).Trades (.classic p') input := by
  obtain ⟨output, rx, ry, hout, hres, rfl⟩ := ClassicPool.swap_spec h
  -- a fee without a denominator would be a division by zero
  have hdenom : p.lpFee.denom ≠ 0 := by
    intro h0
    have hnumer : p.lpFee.numer = 0 := by omega
    have hzero : ∀ a b : ℕ, cfmmQuote a b input.unwrap p.lpFee = .error .divisionByZero := by
      intro a b
      simp [cfmmQuote, h0, hnumer, fit, divide]
      rfl
    simp only [ClassicPool.outputAmount, classicCfmmOutputAmount, hzero] at hout
    split at hout <;> cases hout
  have hpart : ((0 : ℕ) : ℚ) ≤ input.unwrap * (1 - p.lpFee.value) := by
    have := value_le_one hfee
    have hnn : (0 : ℚ) ≤ input.unwrap := cast_nonneg _
    rw [cast_zero]
    exact mul_nonneg hnn (by linarith)
  have ht := Holdings.Trade.of_swap (h := (ConstFnPool.classic p).holdings)
    (k := (ConstFnPool.classic { p with reservesX := rx, reservesY := ry }).holdings) hne
    ⟨Nat.zero_le _, Nat.zero_le _⟩ hout hdenom hdenom hpart hpart (exchange_cases hres)
    (by split <;> exact ⟨rfl, rfl⟩)
  rw [ite_self] at ht
  exact ⟨_, output, rfl, ht⟩

theorem FeeSwitchPool.swap_trades {p p' : FeeSwitchPool} (hne : p.assetX ≠ p.assetY)
    (hfeeX : p.lpFeeX.numer ≤ p.lpFeeX.denom) (hfeeY : p.lpFeeY.numer ≤ p.lpFeeY.denom)
    (h : p.swap input = .ok p') : (ConstFnPool.feeSwitch p).Trades (.feeSwitch p') input := by
  obtain ⟨output, rx, ry, tx, ty, hout, hres, ⟨part, hpart, hcharge⟩, rfl⟩ :=
    FeeSwitchPool.swap_spec h
  unfold FeeSwitchPool.outputAmount at hout
  obtain ⟨x, hx, hout⟩ := bind_eq_ok.1 hout
  obtain ⟨y, hy, hout⟩ := bind_eq_ok.1 hout
  obtain ⟨netX, hnetX, hout⟩ := bind_eq_ok.1 hout
  obtain ⟨netY, hnetY, hout⟩ := bind_eq_ok.1 hout
  have hx := subU64_eq_ok.1 hx
  have hy := subU64_eq_ok.1 hy
  obtain ⟨hdenomX, -, -, hvalueX⟩ := sub_spec hnetX
  obtain ⟨hdenomY, -, -, hvalueY⟩ := sub_spec hnetY
  have hcovered : (ConstFnPool.feeSwitch p).holdings.Covered := by
    constructor
    · show p.treasuryX ≤ p.reservesX
      omega
    · show p.treasuryY ≤ p.reservesY
      omega
  obtain rfl : x = p.reservesX - p.treasuryX := by omega
  obtain rfl : y = p.reservesY - p.treasuryY := by omega
  -- the part of the treasury is at most what the net fee leaves out
  have hbound : ∀ lp net : Ratio, lp.numer ≤ lp.denom → net.value = lp.value - p.treasuryFee.value →
      (part : ℚ) ≤ input.unwrap * (1 - net.value) := by
    intro lp net hlp hnet
    have hle := value_le_one hlp
    have hnn : (0 : ℚ) ≤ input.unwrap := cast_nonneg _
    calc (part : ℚ) ≤ input.unwrap * p.treasuryFee.value := of_spec hpart
      _ ≤ input.unwrap * (1 - net.value) := mul_le_mul_of_nonneg_left (by linarith) hnn
  have hnet : ∀ pays, (ConstFnPool.feeSwitch p).netFee pays = .ok (if pays then netX else netY) := by
    rintro (_ | _)
    · exact hnetY
    · exact hnetX
  exact ⟨_, output, hnet _, Holdings.Trade.of_swap hne hcovered hout hdenomX hdenomY
    (hbound _ _ hfeeX hvalueX) (hbound _ _ hfeeY hvalueY) (exchange_cases hres)
    (charge_cases hcharge)⟩

variable {p : RoyaltyPool}

theorem RoyaltyPool.availableX_spec {x : ℕ} (h : p.availableX = .ok x) :
    p.treasuryX + p.firstRoyaltyX + p.secondRoyaltyX ≤ p.reservesX ∧
      x = p.reservesX - (p.treasuryX + p.firstRoyaltyX + p.secondRoyaltyX) := by
  unfold RoyaltyPool.availableX at h
  obtain ⟨a, ha, h⟩ := bind_eq_ok.1 h
  obtain ⟨b, hb, h⟩ := bind_eq_ok.1 h
  have ha := subU64_eq_ok.1 ha
  have hb := subU64_eq_ok.1 hb
  have h := subU64_eq_ok.1 h
  omega

theorem RoyaltyPool.availableY_spec {y : ℕ} (h : p.availableY = .ok y) :
    p.treasuryY + p.firstRoyaltyY + p.secondRoyaltyY ≤ p.reservesY ∧
      y = p.reservesY - (p.treasuryY + p.firstRoyaltyY + p.secondRoyaltyY) := by
  unfold RoyaltyPool.availableY at h
  obtain ⟨a, ha, h⟩ := bind_eq_ok.1 h
  obtain ⟨b, hb, h⟩ := bind_eq_ok.1 h
  have ha := subU64_eq_ok.1 ha
  have hb := subU64_eq_ok.1 hb
  have h := subU64_eq_ok.1 h
  omega

theorem RoyaltyPool.poolFee_spec {net : Ratio} (h : p.poolFee = .ok net) :
    net.denom ≠ 0 ∧ net.value = p.lpFee.value - p.treasuryFee.value - p.firstRoyaltyFee.value
      - p.secondRoyaltyFee.value := by
  unfold RoyaltyPool.poolFee at h
  obtain ⟨a, ha, h⟩ := bind_eq_ok.1 h
  obtain ⟨b, hb, h⟩ := bind_eq_ok.1 h
  obtain ⟨-, -, -, ha⟩ := sub_spec ha
  obtain ⟨-, -, -, hb⟩ := sub_spec hb
  obtain ⟨hdenom, -, -, hvalue⟩ := sub_spec h
  exact ⟨hdenom, by rw [hvalue, hb, ha]⟩

theorem RoyaltyPool.swap_trades {p p' : RoyaltyPool} (hne : p.assetX ≠ p.assetY)
    (hfee : p.lpFee.numer ≤ p.lpFee.denom) (h : p.swap input = .ok p') :
    (ConstFnPool.royalty p).Trades (.royalty p') input := by
  obtain ⟨output, rx, ry, tx, ty, fx, fy, sx, sy, hout, hres, ⟨part, hpart, hcharge⟩,
    ⟨first, hfirst, hchargeFirst⟩, ⟨second, hsecond, hchargeSecond⟩, rfl⟩ := RoyaltyPool.swap_spec h
  unfold RoyaltyPool.outputAmount at hout
  obtain ⟨x, hx, hout⟩ := bind_eq_ok.1 hout
  obtain ⟨y, hy, hout⟩ := bind_eq_ok.1 hout
  obtain ⟨net, hnet, hout⟩ := bind_eq_ok.1 hout
  obtain ⟨net', hnet', hout⟩ := bind_eq_ok.1 hout
  cases hnet.symm.trans hnet'
  obtain ⟨hxle, rfl⟩ := availableX_spec hx
  obtain ⟨hyle, rfl⟩ := availableY_spec hy
  obtain ⟨hdenom, hvalue⟩ := poolFee_spec hnet
  have hbound : ((part + first + second : ℕ) : ℚ) ≤ input.unwrap * (1 - net.value) := by
    have hle := value_le_one hfee
    have hnn : (0 : ℚ) ≤ input.unwrap := cast_nonneg _
    push_cast
    calc (part + first + second : ℚ)
        ≤ input.unwrap * p.treasuryFee.value + input.unwrap * p.firstRoyaltyFee.value
            + input.unwrap * p.secondRoyaltyFee.value :=
          add_le_add (add_le_add (of_spec hpart) (of_spec hfirst)) (of_spec hsecond)
      _ = input.unwrap * (p.treasuryFee.value + p.firstRoyaltyFee.value + p.secondRoyaltyFee.value) := by
          ring
      _ ≤ input.unwrap * (1 - net.value) := mul_le_mul_of_nonneg_left (by linarith) hnn
  -- the three counters move together
  have htreasury := charge_cases hcharge
  have hfirst' := charge_cases hchargeFirst
  have hsecond' := charge_cases hchargeSecond
  have ht := Holdings.Trade.of_swap (h := (ConstFnPool.royalty p).holdings)
    (k := (ConstFnPool.royalty { p with
      reservesX := rx, reservesY := ry, treasuryX := tx, treasuryY := ty, firstRoyaltyX := fx,
      firstRoyaltyY := fy, secondRoyaltyX := sx, secondRoyaltyY := sy }).holdings)
    hne ⟨hxle, hyle⟩ hout hdenom hdenom hbound hbound (exchange_cases hres) (by
      simp only [ConstFnPool.holdings]
      split <;> simp_all only [if_true, if_false, Bool.false_eq_true, and_true] <;> omega)
  rw [ite_self] at ht
  exact ⟨net, output, hnet, ht⟩

end Kinds

/-! ## Sequences of swaps -/

namespace ConstFnPool

def swaps : List (OnSide ℕ) → ConstFnPool → Exec ConstFnPool
  | [], p => return p
  | input :: inputs, p => do swaps inputs (← p.swap input)

variable {input : OnSide ℕ} {p p' : ConstFnPool}

theorem swap_trades (hne : p.assetX ≠ p.assetY) (hfees : p.FeesBounded) (h : p.swap input = .ok p') :
    p.Trades p' input ∧ p'.assetX = p.assetX ∧ p'.assetY = p.assetY ∧ p'.FeesBounded ∧
      p'.netFee = p.netFee := by
  cases p with
  | classic p =>
    obtain ⟨q, hq, h⟩ := bind_eq_ok.1 h
    cases h
    have ht := ClassicPool.swap_trades hne hfees hq
    obtain ⟨output, rx, ry, -, -, rfl⟩ := ClassicPool.swap_spec hq
    exact ⟨ht, rfl, rfl, hfees, rfl⟩
  | feeSwitch p =>
    obtain ⟨q, hq, h⟩ := bind_eq_ok.1 h
    cases h
    have ht := FeeSwitchPool.swap_trades hne hfees.1 hfees.2 hq
    obtain ⟨output, rx, ry, tx, ty, -, -, -, rfl⟩ := FeeSwitchPool.swap_spec hq
    exact ⟨ht, rfl, rfl, hfees, rfl⟩
  | royalty p =>
    obtain ⟨q, hq, h⟩ := bind_eq_ok.1 h
    cases h
    have ht := RoyaltyPool.swap_trades hne hfees hq
    obtain ⟨output, rx, ry, tx, ty, fx, fy, sx, sy, -, -, -, -, -, rfl⟩ :=
      RoyaltyPool.swap_spec hq
    exact ⟨ht, rfl, rfl, hfees, rfl⟩

/-- **A swap does not lower the product**, and what is withheld is covered after it. -/
theorem Trades.product_le (ht : p.Trades p' input) :
    p'.holdings.Covered ∧ p.holdings.product ≤ p'.holdings.product := by
  obtain ⟨fee, output, -, ht⟩ := ht
  obtain ⟨hcovered, hshift⟩ := ht.shift
  have hle := hshift.product_le ht.denom_ne_zero
  rw [Holdings.product_facing, Holdings.product_facing] at hle
  exact ⟨Holdings.covered_facing.1 hcovered, hle⟩

/-- **The product of a pool never decreases.** Over every sequence of swaps of a pool of two
assets that returns, the product of the tradable reserves does not fall, and treasury and royalties
stay within the reserves: after the first swap in any case, and before it if they were. -/
theorem swaps_product_le {p p' : ConstFnPool} {inputs : List (OnSide ℕ)}
    (hne : p.assetX ≠ p.assetY) (hfees : p.FeesBounded) (h : swaps inputs p = .ok p') :
    p.holdings.product ≤ p'.holdings.product ∧
      (inputs ≠ [] ∨ p.holdings.Covered → p'.holdings.Covered) := by
  induction inputs generalizing p with
  | nil =>
    cases h
    exact ⟨le_rfl, fun hor => hor.resolve_left fun hnil => hnil rfl⟩
  | cons input inputs ih =>
    obtain ⟨q, hq, h⟩ := bind_eq_ok.1 h
    obtain ⟨htrades, hx, hy, hfees', -⟩ := swap_trades hne hfees hq
    obtain ⟨hcovered, hle⟩ := htrades.product_le
    obtain ⟨hrest, hkept⟩ := ih (by rw [hx, hy]; exact hne) hfees' h
    exact ⟨hle.trans hrest, fun _ => hkept (.inr hcovered)⟩

section Samples

/-- A pool of the native asset and a token that gives a tenth of its fees to the treasury. -/
def treasuryPool : ConstFnPool :=
  .feeSwitch {
    id := ⟨0, 0⟩, reservesX := 5000000, reservesY := 2000, liquidity := 0, assetX := .native
    assetY := .token ⟨1, 0⟩, assetLq := .token ⟨2, 0⟩, lpFeeX := ⟨99700, 100000⟩
    lpFeeY := ⟨99700, 100000⟩, treasuryFee := ⟨30, 100000⟩, treasuryX := 1000, treasuryY := 10
    lqLowerBound := 0, ver := .v1, marginalCost := ⟨0, 0⟩, bounds := ⟨0, 0⟩, nonce := 0
    stakePartScriptHash := none }

theorem treasuryPool_product_le :
    ∃ p', swaps [.ask 70000, .bid 100, .ask 40000] treasuryPool = .ok p' ∧
      treasuryPool.holdings.product ≤ p'.holdings.product ∧ p'.holdings.Covered := by
  obtain ⟨p', hrun⟩ : ∃ p', swaps [.ask 70000, .bid 100, .ask 40000] treasuryPool = .ok p' :=
    ⟨_, rfl⟩
  have hfees : treasuryPool.FeesBounded := by
    unfold treasuryPool FeesBounded
    decide
  obtain ⟨hle, hcovered⟩ := swaps_product_le (by decide) hfees hrun
  exact ⟨p', hrun, hle, hcovered (.inl (List.cons_ne_nil _ _))⟩

def oneAssetPool : ConstFnPool :=
  .classic {
    id := ⟨0, 0⟩, reservesX := 100, reservesY := 100, liquidity := 0
    assetX := .token ⟨1, 0⟩, assetY := .token ⟨1, 0⟩, assetLq := .token ⟨2, 0⟩, lpFee := ⟨1, 1⟩
    lqLowerBound := 0, ver := .v1, marginalCost := ⟨0, 0⟩, bounds := ⟨0, 0⟩
    stakePartScriptHash := none }

/-- With one asset on both sides the output is quoted for the one side and booked on the other, so
the second swap takes more than the product allows. -/
theorem oneAssetPool_product_falls :
    oneAssetPool.FeesBounded ∧ oneAssetPool.holdings.Covered ∧
      ∃ p', swaps [.bid 10, .bid 10] oneAssetPool = .ok p' ∧
        p'.holdings.product < oneAssetPool.holdings.product := by
  refine ⟨le_rfl, ⟨Nat.zero_le _, Nat.zero_le _⟩, _, rfl, ?_⟩
  decide

end Samples

end ConstFnPool

end Splash.Cardano
