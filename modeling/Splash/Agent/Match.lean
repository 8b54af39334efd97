import Splash.Agent.Book
import Splash.Cardano.LimitLife

/-!
# Two takers that trade

An ask meets a bid at a price that is settled between their limits, close to the index price.

* `settlePrice_mem`, `settlePrice_near` — where the settled price lies.
* `matchVolumes_spec` — what the two takers exchange at a price.
* `settlePrice_fees_iff` — how the fees of the takers move it.
* `executeWithTaker_settles` — both takers are served within their limits.
-/

namespace Splash.LiquidityBook

open Lib MarketTaker TakerBehaviour Nat

/-! ## The settled price -/

variable {x y low high : AbsolutePrice}

theorem clamp_eq (h : low ≤ high) : clamp x low high = max low (min x high) := by
  unfold clamp
  grind

theorem clamp_mem (h : low ≤ high) : low ≤ clamp x low high ∧ clamp x low high ≤ high := by
  rw [clamp_eq h]
  exact ⟨le_max_left _ _, max_le h (min_le_right _ _)⟩

/-- Clamping brings a price nearer to every price within the limits. -/
theorem abs_clamp_sub_le (hlow : low ≤ y) (hhigh : y ≤ high) :
    |((clamp x low high : ℚ≥0) : ℚ) - y| ≤ |(x : ℚ) - y| := by
  have hlow' : (low : ℚ) ≤ y := by exact_mod_cast hlow
  have hhigh' : (y : ℚ) ≤ high := by exact_mod_cast hhigh
  rw [clamp_eq (hlow.trans hhigh)]
  push_cast
  grind

/-- The bias in favour of the taker that pays more fees, in percent. -/
def biasPercent (feeAsk feeBid : ℕ) : ℤ :=
  if (feeAsk : ℤ) < feeBid then (-(feeAsk : ℤ) * 100).tdiv feeBid else ((feeBid : ℤ) * 100).tdiv feeAsk

theorem biasPercent_eq (feeAsk feeBid : ℕ) : biasPercent feeAsk feeBid =
    if feeAsk < feeBid then -((feeAsk * 100 / feeBid : ℕ) : ℤ) else (feeBid * 100 / feeAsk : ℕ) := by
  have hdiv : ∀ a b : ℕ, ((a : ℤ) * 100).tdiv b = (a * 100 / b : ℕ) := fun a b => by
    rw [Int.tdiv_eq_ediv_of_nonneg (by positivity)]
    norm_cast
  simp only [biasPercent, cast_lt, neg_mul, Int.neg_tdiv, hdiv]

theorem abs_bias_le (feeAsk feeBid : ℕ) : |biasPercent feeAsk feeBid| ≤ 100 := by
  have hbound : ∀ {a b : ℕ}, a ≤ b → a * 100 / b ≤ 100 := fun hab =>
    Nat.div_le_of_le_mul (Nat.mul_le_mul_right 100 hab)
  rw [biasPercent_eq]
  split
  case isTrue hlt =>
    rw [abs_neg, abs_cast]
    exact_mod_cast hbound hlt.le
  case isFalse hge =>
    rw [abs_cast]
    exact_mod_cast hbound (not_lt.1 hge)

def pivotalPrice (low high : AbsolutePrice) (index : Option AbsolutePrice) : AbsolutePrice :=
  (index.map (clamp · low high)).getD (low + (high - low) / (2 : ℕ))

theorem pivotalPrice_mem (h : low ≤ high) (index : Option AbsolutePrice) :
    low ≤ pivotalPrice low high index ∧ pivotalPrice low high index ≤ high := by
  cases index with
  | some index => exact clamp_mem h
  | none =>
    refine ⟨le_add_of_nonneg_right zero_le, ?_⟩
    have hhalf : (high - low) / (2 : ℕ) ≤ high - low :=
      div_le_self zero_le (by norm_num)
    exact (add_le_add_right hhalf low).trans (add_tsub_cancel_of_le h).le

/-- A price moved by a part of the greatest deviation. -/
def biased (pivot : AbsolutePrice) (bias : ℤ) : AbsolutePrice :=
  ((pivot : ℚ) + (pivot * (maxBiasPercent / (100 : ℕ)) : ℚ≥0) * (bias / (100 : ℕ))).toNNRat

theorem biased_eq {bias : ℤ} (h : |bias| ≤ 100) (pivot : AbsolutePrice) :
    (biased pivot bias : ℚ) = pivot * (1 + 3 / 10000 * bias) := by
  have hbias : (-100 : ℚ) ≤ bias := by exact_mod_cast (abs_le.1 h).1
  have hpivot : (0 : ℚ) ≤ pivot := pivot.coe_nonneg
  have heq : (pivot : ℚ) + (pivot * (maxBiasPercent / (100 : ℕ)) : ℚ≥0) * (bias / (100 : ℕ)) =
      pivot * (1 + 3 / 10000 * bias) := by
    simp only [maxBiasPercent]
    push_cast
    ring
  rw [biased, heq]
  exact Rat.coe_toNNRat _ (mul_nonneg hpivot (by linarith))

variable {T U : Type} [MarketTaker T U] {ask bid : T}

theorem settlePrice_eq (ask bid : T) (index : Option AbsolutePrice) : settlePrice ask bid index =
    clamp (biased (pivotalPrice (price ask) (price bid) index) (biasPercent (fee ask) (fee bid)))
      (price ask) (price bid) := rfl

theorem settlePrice_mem (h : price ask ≤ price bid) (index : Option AbsolutePrice) :
    price ask ≤ settlePrice ask bid index ∧ settlePrice ask bid index ≤ price bid :=
  clamp_mem h

/-- The settled price is within three percent of the index price, once that is kept between the
limits. -/
theorem settlePrice_near (h : price ask ≤ price bid) (index : AbsolutePrice) :
    |(settlePrice ask bid (some index) : ℚ) - (clamp index (price ask) (price bid) : ℚ≥0)| ≤
      3 / 100 * (clamp index (price ask) (price bid) : ℚ≥0) := by
  obtain ⟨hlow, hhigh⟩ := pivotalPrice_mem h (some index)
  rw [settlePrice_eq]
  change |_ - (pivotalPrice (price ask) (price bid) (some index) : ℚ)| ≤
    3 / 100 * (pivotalPrice (price ask) (price bid) (some index) : ℚ)
  refine (abs_clamp_sub_le hlow hhigh).trans ?_
  generalize pivotalPrice (price ask) (price bid) (some index) = pivot
  have hbias := abs_bias_le (fee ask) (fee bid)
  have hbias' : |(biasPercent (fee ask) (fee bid) : ℚ)| ≤ 100 := by exact_mod_cast hbias
  have hpivot : (0 : ℚ) ≤ pivot := pivot.coe_nonneg
  rw [biased_eq hbias, mul_add, mul_one, add_sub_cancel_left, abs_mul, abs_of_nonneg hpivot, abs_mul]
  norm_num
  nlinarith

/-! ## The bias -/

theorem settlePrice_mono {ask' bid' : T} (h : price ask ≤ price bid) (hask : price ask' = price ask)
    (hbid : price bid' = price bid)
    (hbias : biasPercent (fee ask) (fee bid) ≤ biasPercent (fee ask') (fee bid'))
    (index : Option AbsolutePrice) : settlePrice ask bid index ≤ settlePrice ask' bid' index := by
  rw [settlePrice_eq, settlePrice_eq, hask, hbid, clamp_eq h, clamp_eq h]
  refine max_le_max le_rfl (min_le_min ?_ le_rfl)
  generalize pivotalPrice (price ask) (price bid) index = pivot
  have hbias' : (biasPercent (fee ask) (fee bid) : ℚ) ≤ biasPercent (fee ask') (fee bid') := by
    exact_mod_cast hbias
  rw [← NNRat.coe_le_coe, biased_eq (abs_bias_le _ _), biased_eq (abs_bias_le _ _)]
  exact mul_le_mul_of_nonneg_left (by linarith) pivot.coe_nonneg

theorem bias_le_raised_ask (f g d : ℕ) : biasPercent f g ≤ biasPercent (f + d) g ↔
    f < g ∧ g ≤ f + d ∨ f + d < g ∧ (f + d) * 100 / g = f * 100 / g ∨
      g ≤ f ∧ g * 100 / (f + d) = g * 100 / f := by
  have hnumer : f * 100 / g ≤ (f + d) * 100 / g := Nat.div_le_div_right (by omega)
  have hdenom : f ≠ 0 → g * 100 / (f + d) ≤ g * 100 / f := fun hf =>
    div_le_div_left (by omega) (by omega)
  have hzero : g = 0 → g * 100 / (f + d) = g * 100 / f := by rintro rfl; simp
  rw [biasPercent_eq, biasPercent_eq]
  generalize f * 100 / g = a at *
  generalize (f + d) * 100 / g = b at *
  generalize g * 100 / (f + d) = a' at *
  generalize g * 100 / f = b' at *
  split <;> split <;> omega

theorem raised_bid_le_bias (f g d : ℕ) : biasPercent f (g + d) ≤ biasPercent f g ↔
    g ≤ f ∧ f < g + d ∨ g + d ≤ f ∧ (g + d) * 100 / f = g * 100 / f ∨
      f < g ∧ f * 100 / (g + d) = f * 100 / g := by
  have hnumer : g * 100 / f ≤ (g + d) * 100 / f := Nat.div_le_div_right (by omega)
  have hdenom : g ≠ 0 → f * 100 / (g + d) ≤ f * 100 / g := fun hg =>
    div_le_div_left (by omega) (by omega)
  rw [biasPercent_eq, biasPercent_eq]
  generalize g * 100 / f = a at *
  generalize (g + d) * 100 / f = b at *
  generalize f * 100 / (g + d) = a' at *
  generalize f * 100 / g = b' at *
  split <;> split <;> omega

/-! ## The volumes -/

theorem floor_mul_price (amount : ℕ) (p : AbsolutePrice) :
    ⌊(amount : ℚ≥0) * p⌋₊ = amount * p.num / p.den := by
  rw [← floor_div_eq_div (K := ℚ≥0)]
  push_cast
  rw [mul_div_assoc, NNRat.num_div_den]

theorem floor_div_price (amount : ℕ) (p : AbsolutePrice) :
    ⌊(amount : ℚ≥0) / p⌋₊ = amount * p.den / p.num := by
  rw [← floor_div_eq_div (K := ℚ≥0)]
  push_cast
  rw [mul_div_assoc, ← inv_div (p.num : ℚ≥0), NNRat.num_div_den, div_eq_mul_inv]

/-- What an ask and a bid exchange: one of them gives all it has, and neither does better than the
price allows. -/
theorem matchVolumes_spec (ask : T) {p : AbsolutePrice} (hp : p ≠ 0)
    (hdemand : ⌊(input bid : ℚ≥0) / p⌋₊ ≤ u64Max) (hquote : input bid ≤ u64Max) :
    ∃ base quote, matchVolumes ask bid p = .ok (base, quote) ∧
      base ≤ input ask ∧ quote ≤ input bid ∧ (base = input ask ∨ quote = input bid) ∧
      ⌊(base : ℚ≥0) * p⌋₊ ≤ quote ∧ ⌊(quote : ℚ≥0) / p⌋₊ ≤ base := by
  have hnum : p.num ≠ 0 := NNRat.num_ne_zero.2 hp
  have hpos : 0 < p := pos_iff_ne_zero.2 hp
  -- what the bid asks for is worth no more than what it has
  have hworth : ((⌊(input bid : ℚ≥0) / p⌋₊ : ℕ) : ℚ≥0) * p ≤ input bid :=
    (le_div_iff₀ hpos).1 (floor_le zero_le)
  have hbid : linearOutputUnsafe (input bid) (.bid p) = .ok ⌊(input bid : ℚ≥0) / p⌋₊ := by
    rw [floor_div_price] at hdemand ⊢
    rw [linearOutputUnsafe, if_neg hnum, if_pos hdemand]
  rcases lt_or_ge (input ask) ⌊(input bid : ℚ≥0) / p⌋₊ with hlt | hge
  · have hsupply : (input ask : ℚ≥0) * p ≤ input bid :=
      (mul_le_mul_of_nonneg_right (Nat.cast_le.2 hlt.le) zero_le).trans hworth
    have hle : ⌊(input ask : ℚ≥0) * p⌋₊ ≤ input bid := floor_le_of_le hsupply
    have hask : linearOutputUnsafe (input ask) (.ask p) = .ok ⌊(input ask : ℚ≥0) * p⌋₊ := by
      rw [floor_mul_price] at hle ⊢
      rw [linearOutputUnsafe, if_pos (hle.trans hquote)]
    refine ⟨_, _, ?_, le_rfl, hle, .inl rfl, le_rfl, ?_⟩
    · refine Exec.bind_eq_ok.2 ⟨_, hbid, ?_⟩
      rw [if_neg hlt.not_gt, if_pos hlt, hask]
      rfl
    · exact floor_le_of_le ((div_le_iff₀ hpos).2 (floor_le zero_le))
  · refine ⟨_, input bid, ?_, hge, le_rfl, .inr rfl, floor_le_of_le hworth, le_rfl⟩
    refine Exec.bind_eq_ok.2 ⟨_, hbid, ?_⟩
    dsimp only
    rw [if_neg hge.not_gt, ite_self]
    rfl

/-- **Two takers that trade.** The price is settled between the limits and near the index price.
Neither taker gives more than it has, one of them gives everything, and both get at least what their
limits promise for what they give. -/
theorem executeWithTaker_settles [TakerBehaviour T] {target counter : T} (hask : side ask = .ask)
    (hbid : side bid = .bid)
    (hroles : target = ask ∧ counter = bid ∨ target = bid ∧ counter = ask)
    (hprices : price ask ≤ price bid) {index p pivot : AbsolutePrice}
    (hp : settlePrice ask bid (some index) = p)
    (hpivot : clamp index (price ask) (price bid) = pivot) (hpos : p ≠ 0)
    (hdemand : ⌊(input bid : ℚ≥0) / p⌋₊ ≤ u64Max) (hquote : input bid ≤ u64Max) :
    price ask ≤ p ∧ p ≤ price bid ∧ |(p : ℚ) - pivot| ≤ 3 / 100 * pivot ∧
    ∃ base quote,
      executeWithTaker target counter (settlePrice · · (some index)) = (do
        let nextAsk ← withAppliedTrade ask base quote
        let nextBid ← withAppliedTrade bid quote base
        return (⟨ask, nextAsk⟩, ⟨bid, nextBid⟩)) ∧
      base ≤ input ask ∧ quote ≤ input bid ∧ (base = input ask ∨ quote = input bid) ∧
      ⌊(base : ℚ≥0) * price ask⌋₊ ≤ quote ∧ ⌊(quote : ℚ≥0) / price bid⌋₊ ≤ base := by
  subst hp hpivot
  obtain ⟨hlow, hhigh⟩ := settlePrice_mem hprices (some index)
  obtain ⟨base, quote, hvolumes, hbase, hquote, hall, hgets, hgets'⟩ :=
    matchVolumes_spec ask hpos hdemand hquote
  refine ⟨hlow, hhigh, settlePrice_near hprices index, base, quote, ?_, hbase, hquote, hall, ?_, ?_⟩
  · unfold executeWithTaker
    obtain ⟨rfl, rfl⟩ | ⟨rfl, rfl⟩ := hroles
    · simp only [hask, hvolumes]
      rfl
    · simp only [hbid, hvolumes]
      rfl
  · exact (floor_mono (mul_le_mul_of_nonneg_left hlow zero_le)).trans hgets
  · refine (floor_mono ?_).trans hgets'
    exact div_le_div_of_nonneg_left zero_le (pos_iff_ne_zero.2 hpos) hhigh

end Splash.LiquidityBook

namespace Splash.Agent

open Lib LiquidityBook Cardano Sample

/-! ## Fees and the settled price -/

/-- An order with the given price and fee. -/
def quoting (price : ℚ≥0) (fee : ℕ) : LimitOrder :=
  { LimitOrder.sampleLimit 1 fee with basePrice := price }

/-- Between the limits 0 and 2 the index price 1 is moved by the bias alone. -/
theorem settlePrice_quoting (f g : ℕ) :
    (settlePrice (quoting 0 f) (quoting 2 g) (some 1) : ℚ) = 1 + 3 / 10000 * biasPercent f g := by
  have hbias := abs_le.1 (abs_bias_le f g)
  have hlow : (-100 : ℚ) ≤ biasPercent f g := by exact_mod_cast hbias.1
  have hhigh : (biasPercent f g : ℚ) ≤ 100 := by exact_mod_cast hbias.2
  have hvalue := biased_eq (abs_bias_le f g) 1
  rw [NNRat.coe_one, one_mul] at hvalue
  have hmax : biased 1 (biasPercent f g) ≤ 2 := by
    rw [← NNRat.coe_le_coe, hvalue]
    push_cast
    linarith
  have hsettled : settlePrice (quoting 0 f) (quoting 2 g) (some 1) = biased 1 (biasPercent f g) :=
    if_pos ⟨zero_le, hmax⟩
  rw [hsettled, hvalue]

section

open MarketTaker (price fee)

/-- **Fees and the settled price.** The price is the ratio of the lower fee to the higher one away
from the pivotal price, so that raising the fee of the ask lowers the price, and raising the fee of
the bid raises it, unless the order of the fees changes or the whole percents do not. Equal fees
leave the pivotal price as it is just when there are none. -/
theorem settlePrice_fees_iff (f g d : ℕ) :
    ((∀ (T U : Type) [MarketTaker T U] (ask ask' bid : T) (index : Option AbsolutePrice),
        price ask ≤ price bid → price ask' = price ask → fee ask = f → fee ask' = f + d →
        fee bid = g → settlePrice ask bid index ≤ settlePrice ask' bid index) ↔
      f < g ∧ g ≤ f + d ∨ f + d < g ∧ (f + d) * 100 / g = f * 100 / g ∨
        g ≤ f ∧ g * 100 / (f + d) = g * 100 / f) ∧
    ((∀ (T U : Type) [MarketTaker T U] (ask bid bid' : T) (index : Option AbsolutePrice),
        price ask ≤ price bid → price bid' = price bid → fee ask = f → fee bid = g →
        fee bid' = g + d → settlePrice ask bid' index ≤ settlePrice ask bid index) ↔
      g ≤ f ∧ f < g + d ∨ g + d ≤ f ∧ (g + d) * 100 / f = g * 100 / f ∨
        f < g ∧ f * 100 / (g + d) = f * 100 / g) ∧
    ((∀ (T U : Type) [MarketTaker T U] (ask bid : T) (index : Option AbsolutePrice),
        price ask ≤ price bid → fee ask = f → fee bid = f →
        settlePrice ask bid index = pivotalPrice (price ask) (price bid) index) ↔ f = 0) := by
  have hbias : ∀ {f g f' g'}, settlePrice (quoting 0 f) (quoting 2 g) (some 1) ≤
      settlePrice (quoting 0 f') (quoting 2 g') (some 1) →
      biasPercent f g ≤ biasPercent f' g' := by
    intro f g f' g' h
    rw [← NNRat.coe_le_coe, settlePrice_quoting, settlePrice_quoting] at h
    have : (biasPercent f g : ℚ) ≤ biasPercent f' g' := by linarith
    exact_mod_cast this
  refine ⟨?_, ?_, ?_⟩
  · rw [← bias_le_raised_ask]
    constructor
    · intro h
      exact hbias (h _ _ (quoting 0 f) (quoting 0 (f + d)) (quoting 2 g) (some 1) zero_le rfl rfl rfl
        rfl)
    · rintro h T U _ ask ask' bid index hle hprice rfl hraised rfl
      exact settlePrice_mono hle hprice rfl (hraised ▸ h) index
  · rw [← raised_bid_le_bias]
    constructor
    · intro h
      exact hbias (h _ _ (quoting 0 f) (quoting 2 g) (quoting 2 (g + d)) (some 1) zero_le rfl rfl rfl
        rfl)
    · rintro h T U _ ask bid bid' index hle hprice rfl rfl hraised
      exact settlePrice_mono (hprice ▸ hle) rfl hprice.symm (hraised ▸ h) index
  · constructor
    · intro h
      have hsettled := h _ _ (quoting 0 f) (quoting 2 f) (some 1) zero_le rfl rfl
      have hvalue := settlePrice_quoting f f
      have hpivot : pivotalPrice 0 2 (some 1) = 1 := by decide +kernel
      change _ = pivotalPrice 0 2 (some 1) at hsettled
      rw [hsettled, hpivot, biasPercent_eq, if_neg (lt_irrefl f)] at hvalue
      by_contra hf
      rw [Nat.mul_div_cancel_left _ (Nat.pos_of_ne_zero hf)] at hvalue
      norm_num at hvalue
    · rintro rfl T U _ ask bid index hle hask hbid
      obtain ⟨hlow, hhigh⟩ := pivotalPrice_mem hle index
      have hunbiased : biased (pivotalPrice (price ask) (price bid) index) 0 =
          pivotalPrice (price ask) (price bid) index := by
        rw [← NNRat.coe_inj, biased_eq (by decide)]
        norm_num
      rw [settlePrice_eq, hask, hbid]
      change clamp (biased _ 0) _ _ = _
      rw [hunbiased]
      exact if_pos ⟨hlow, hhigh⟩

/-- With fees 10 and 10 the ask gets the best price; with 20 it gets less, and with equal fees the
price is not the index price. -/
theorem raisedFee_lowers_price :
    settlePrice (quoting 0 20) (quoting 2 10) (some 1) <
        settlePrice (quoting 0 10) (quoting 2 10) (some 1) ∧
      settlePrice (quoting 0 10) (quoting 2 10) (some 1) ≠ pivotalPrice 0 2 (some 1) := by
  decide +kernel

end

/-! ## An ask and a bid -/

/-- A hundred `tokenA` for at least `numer` of `tokenB` each. -/
def cheapAsk (numer : ℕ) : AnyOrder := order 1 tokenA tokenB 100 numer 1 0

/-- Sixty `tokenB` for at least half as many of `tokenA`. -/
def highBid : AnyOrder := order 2 tokenB tokenA 60 1 2 0

theorem cheapAsk_settles : ∃ base quote,
    executeWithTaker (cheapAsk 1) highBid (settlePrice · · (some 1)) = (do
      let nextAsk ← TakerBehaviour.withAppliedTrade (cheapAsk 1) base quote
      let nextBid ← TakerBehaviour.withAppliedTrade highBid quote base
      return (⟨cheapAsk 1, nextAsk⟩, ⟨highBid, nextBid⟩)) ∧
    base ≤ 100 ∧ quote ≤ 60 := by
  obtain ⟨-, -, -, base, quote, hexec, hbase, hquote, -⟩ :=
    executeWithTaker_settles rfl rfl (.inl ⟨rfl, rfl⟩) (by decide +kernel)
      (show settlePrice (cheapAsk 1) highBid (some 1) = _ from rfl) rfl (by decide +kernel)
      (by decide +kernel) (by decide +kernel)
  exact ⟨base, quote, hexec, hbase, hquote⟩

/-- **A settled price of zero.** An ask that gives its base away meets an index price of zero; the
demand of the bid at this price is a division by zero. -/
theorem freeAsk_panics :
    MarketTaker.price (cheapAsk 0) ≤ MarketTaker.price highBid ∧
      executeWithTaker (cheapAsk 0) highBid (settlePrice · · (some 0)) = .error .divisionByZero := by
  decide +kernel

end Splash.Agent
