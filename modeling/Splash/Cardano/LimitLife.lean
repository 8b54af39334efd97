import Splash.Cardano.Orders
import Splash.Cardano.PoolMath

/-!
# The life of a limit order

An order is read with a hardened price, and is then executed step by step until its input is used
up. Each step charges a share of what is left of the operator fee.

* `hardenPrice_spec` — the hardened price asks for the least output that the limit allows.
* `Life.fees_iff` — the whole fee is charged, in the right shares, unless a product is saturated.
-/

namespace Splash.Cardano

open Lib LiquidityBook TakeInProgress Exec List

/-! ## The price -/

def maxPriceDenom : ℕ := 1125899906842624

/-- The price of the least whole output for the given input. -/
def hardenPrice (p : Ratio) (input : ℕ) : Exec Ratio := do
  let product ← fit u128Max (input * p.numer)
  let minOutput ← divide (product + p.denom - 1) p.denom
  if 0 < minOutput then Ratio.new minOutput input else Ratio.new 1 maxPriceDenom

def Ratio.price (p : Ratio) : ℚ≥0 := (p.numer : ℚ≥0) / p.denom

theorem Ratio.new_price (numer : ℕ) {denom : ℕ} (h : 0 < denom) :
    ∃ r, Ratio.new numer denom = .ok r ∧ r.price = (numer : ℚ≥0) / denom := by
  refine ⟨_, if_neg h.ne', ?_⟩
  have hgcd : ((numer.gcd denom : ℕ) : ℚ≥0) ≠ 0 := by
    exact_mod_cast (Nat.gcd_pos_of_pos_right numer h).ne'
  simp only [Ratio.price]
  rw [Nat.cast_div (Nat.gcd_dvd_left _ _) hgcd, Nat.cast_div (Nat.gcd_dvd_right _ _) hgcd,
    div_div_div_cancel_right₀ hgcd]

/-- **Hardening is conservative.** The hardened price is not below the limit, so that what meets it
meets the limit, and asks for the least output that meets the limit on the whole input. -/
theorem hardenPrice_spec (p : Ratio) {input : ℕ} (hinput : 0 < input) (hdenom : 0 < p.denom)
    (hfit : input * p.numer ≤ u128Max) :
    ∃ hard, hardenPrice p input = .ok hard ∧ p.price ≤ hard.price ∧
      (∀ removed output : ℕ, 0 < removed → removed ≤ input →
        hard.price ≤ (output : ℚ≥0) / removed → p.price ≤ (output : ℚ≥0) / removed) ∧
      ∀ least : ℕ, IsLeast {output : ℕ | p.price ≤ (output : ℚ≥0) / input} least → 0 < least →
        hard.price * input = least := by
  have hinput' : (0 : ℚ≥0) < input := by exact_mod_cast hinput
  have hdenom' : (0 : ℚ≥0) < p.denom := by exact_mod_cast hdenom
  have hmeets : ∀ output : ℕ, p.price ≤ (output : ℚ≥0) / input ↔
      (input * p.numer + p.denom - 1) / p.denom ≤ output := by
    intro output
    rw [Ratio.price, div_le_div_iff₀ hdenom' hinput', ← Nat.lt_succ_iff, Nat.div_lt_iff_lt_mul hdenom]
    norm_cast
    have : (output + 1) * p.denom = output * p.denom + p.denom := by ring
    have : p.numer * input = input * p.numer := mul_comm _ _
    rw [Nat.succ_eq_add_one]
    omega
  have hcompute : hardenPrice p input = if 0 < (input * p.numer + p.denom - 1) / p.denom then
      Ratio.new ((input * p.numer + p.denom - 1) / p.denom) input else Ratio.new 1 maxPriceDenom := by
    simp only [hardenPrice, fit, if_pos hfit, divide, if_neg hdenom.ne']
    rfl
  rw [hcompute]
  generalize (input * p.numer + p.denom - 1) / p.denom = minOutput at hmeets
  suffices hhard : ∃ hard, (if 0 < minOutput then Ratio.new minOutput input
      else Ratio.new 1 maxPriceDenom) = .ok hard ∧ p.price ≤ hard.price ∧
      (0 < minOutput → hard.price * input = minOutput) by
    obtain ⟨hard, hok, hle, hfull⟩ := hhard
    refine ⟨hard, hok, hle, fun removed output _ _ h => hle.trans h, fun least hleast hpos => ?_⟩
    obtain rfl : least = minOutput :=
      le_antisymm (hleast.2 ((hmeets _).2 le_rfl)) ((hmeets _).1 hleast.1)
    exact hfull hpos
  by_cases hpos : 0 < minOutput
  · obtain ⟨hard, hok, hprice⟩ := Ratio.new_price minOutput hinput
    rw [if_pos hpos]
    refine ⟨hard, hok, hprice ▸ (hmeets _).2 le_rfl, fun _ => ?_⟩
    rw [hprice, div_mul_cancel₀ _ hinput'.ne']
  · obtain ⟨hard, hok, -⟩ := Ratio.new_price 1 (show 0 < maxPriceDenom by decide)
    rw [if_neg hpos]
    refine ⟨hard, hok, le_trans ((hmeets 0).2 (by omega)) (by simp), fun h => absurd h hpos⟩

theorem hardenPrice_third : hardenPrice ⟨1, 3⟩ 10 = .ok ⟨2, 5⟩ ∧
    (⟨1, 3⟩ : Ratio).price ≤ (⟨2, 5⟩ : Ratio).price := by
  obtain ⟨hard, hok, hle, -⟩ := hardenPrice_spec ⟨1, 3⟩ (show 0 < 10 by decide)
    (by decide) (by decide)
  cases hok
  exact ⟨rfl, hle⟩

/-! ## The fee -/

namespace LimitOrder

def remainingFee : Next LimitOrder TerminalTake → ℕ
  | .succ o => o.fee
  | .term t => t.remainingFee

/-- The order is executed: a trade takes `removed` from its input, and the take is finalized. -/
def Executed (o : LimitOrder) (removed : ℕ) (next : Next LimitOrder TerminalTake) : Prop :=
  ∃ added excess traded, o.withAppliedTrade removed added = .ok traded ∧
    finalized ⟨o, traded⟩ excess = .ok ⟨o, next⟩

variable {o : LimitOrder} {removed : ℕ} {next : Next LimitOrder TerminalTake}

theorem operatorFee_le (h : removed ≤ o.inputAmount) :
    o.operatorFee removed ≤ o.fee := by
  refine (Nat.div_le_div_right (min_le_left _ _)).trans (Nat.div_le_of_le_mul ?_)
  rw [mul_comm]
  exact Nat.mul_le_mul_right _ h

/-- The saturated share is the share, unless the share is above all that it can be. -/
theorem operatorFee_eq_iff :
    o.operatorFee removed = o.fee * removed / o.inputAmount ↔
      o.fee * removed / o.inputAmount ≤ u64Max / o.inputAmount := by
  unfold operatorFee
  rcases le_total (o.fee * removed) u64Max with h | h
  · rw [min_eq_left h]
    exact iff_of_true rfl (Nat.div_le_div_right h)
  · rw [min_eq_right h]
    exact ⟨fun heq => heq.ge, fun hle => le_antisymm (Nat.div_le_div_right h) hle⟩

theorem Executed.spec (h : o.Executed removed next) : removed ≤ o.inputAmount ∧
      remainingInput ⟨o, next⟩ = o.inputAmount - removed ∧
      remainingFee next = o.fee - o.operatorFee removed ∧
      ∀ o', next = .succ o' → o'.inputAmount ≠ 0 := by
  obtain ⟨added, excess, traded, htrade, h⟩ := h
  obtain ⟨o', rfl, hle, htraded⟩ := withAppliedTrade_spec htrade
  have hremoved : remainingInput ⟨o, traded⟩ = o.inputAmount - removed := by
    obtain ⟨-, rfl⟩ | ⟨-, rfl⟩ := htraded <;> rfl
  refine ⟨hle, ?_⟩
  unfold finalized removedInput at h
  obtain ⟨r, hr, h⟩ := bind_eq_ok.1 h
  obtain rfl : r = removed := by
    have := checkedSub_eq_some.1 (expect_eq_ok.1 hr)
    change o.inputAmount = _ at this
    omega
  obtain ⟨-, rfl⟩ | ⟨hpos, rfl⟩ := htraded
  · obtain ⟨t₁, h₁, h⟩ := bind_eq_ok.1 h
    obtain ⟨t₂, h₂, h⟩ := bind_eq_ok.1 h
    obtain ⟨out, -, h₁⟩ := bind_eq_ok.1 h₁
    obtain ⟨fee, hfee, h₂⟩ := bind_eq_ok.1 h₂
    cases h₁
    cases h₂
    cases h
    have hfee := subU64_eq_ok.1 hfee
    exact ⟨rfl, (Nat.sub_eq_of_eq_add hfee).symm, fun o' ho' => (by cases ho')⟩
  · obtain ⟨o₁, h₁, h⟩ := bind_eq_ok.1 h
    obtain ⟨o₂, h₂, h⟩ := bind_eq_ok.1 h
    obtain ⟨out, -, h₁⟩ := bind_eq_ok.1 h₁
    obtain ⟨fee, hfee, h₂⟩ := bind_eq_ok.1 h₂
    cases h₁
    cases h₂
    have hfee : fee = o.fee - o.operatorFee r := (Nat.sub_eq_of_eq_add (subU64_eq_ok.1 hfee)).symm
    have hnext := Trans.mk.inj (Except.ok.inj h)
    rw [← hnext.2]
    change remainingInput ⟨o, tryTerminate _⟩ = _ ∧ remainingFee (tryTerminate _) = _ ∧
      ∀ o', tryTerminate _ = .succ o' → _
    unfold tryTerminate
    split
    · exact ⟨rfl, hfee, fun o' ho' => (by cases ho')⟩
    · refine ⟨rfl, hfee, fun o' ho' => ?_⟩
      cases ho'
      exact hpos

/-- One execution of an order: the order before it, what it took from the input, and the fee. -/
structure Fill where
  order : LimitOrder
  removed : ℕ
  charged : ℕ

/-- Executions of an order, one after another, until its input is used up. -/
inductive Life : LimitOrder → List Fill → Prop where
  | last {o : LimitOrder} {removed : ℕ} {t : TerminalTake} (h : o.Executed removed (.term t))
      (hzero : t.remainingInput = 0) : Life o [⟨o, removed, o.fee - t.remainingFee⟩]
  | next {o o' : LimitOrder} {removed : ℕ} {fills : List Fill} (h : o.Executed removed (.succ o'))
      (rest : Life o' fills) : Life o (⟨o, removed, o.fee - o'.fee⟩ :: fills)

/-- The fee of a fill is its share of what is left of the fee, by what is left of the input. -/
def Fill.Exact (f : Fill) : Prop := f.charged = f.order.fee * f.removed / f.order.inputAmount

/-- The product that the share is computed from is not saturated, or it makes no difference. -/
def Fill.Fits (f : Fill) : Prop :=
  f.order.fee * f.removed / f.order.inputAmount ≤ u64Max / f.order.inputAmount

instance (f : Fill) : Decidable f.Fits := inferInstanceAs (Decidable (_ ≤ _))

theorem Executed.fill
    (h : o.Executed removed next) : o.fee - remainingFee next = o.operatorFee removed ∧
      (Fill.Exact ⟨o, removed, o.fee - remainingFee next⟩ ↔
        Fill.Fits ⟨o, removed, o.fee - remainingFee next⟩) := by
  obtain ⟨hle, -, hfee, -⟩ := h.spec
  have hcharged : o.fee - remainingFee next = o.operatorFee removed := by
    rw [hfee, Nat.sub_sub_self (operatorFee_le hle)]
  rw [hcharged]
  exact ⟨rfl, operatorFee_eq_iff⟩

/-- **The operator fee over the life of an order.** No fill charges more than is left of the fee.
All fills charge their exact shares, and the whole fee together, just when the products fit 64 bits
as far as the shares show it, and an order without input has no fee. -/
theorem Life.fees_iff {o : LimitOrder} {fills : List Fill} (h : Life o fills) :
    (∀ f ∈ fills, f.charged ≤ f.order.fee) ∧
      (((∀ f ∈ fills, f.Exact) ∧ (fills.map Fill.charged).sum = o.fee) ↔
        (∀ f ∈ fills, f.Fits) ∧ (o.inputAmount = 0 → o.fee = 0)) := by
  induction h with
  | @last o removed t h hzero =>
    obtain ⟨hle, hrest, -, -⟩ := h.spec
    obtain rfl : removed = o.inputAmount := by
      change t.remainingInput = _ at hrest
      omega
    obtain ⟨hcharged, hexact⟩ := h.fill
    simp only [remainingFee] at hcharged hexact
    simp only [forall_mem_singleton, map_singleton, sum_singleton, hexact]
    refine ⟨hcharged ▸ operatorFee_le le_rfl, and_congr_right fun hfits => ?_⟩
    rw [hcharged, operatorFee_eq_iff.2 hfits]
    rcases Nat.eq_zero_or_pos o.inputAmount with hin | hin
    · simp [hin, eq_comm]
    · simp [hin.ne']
  | @next o o' removed fills h rest ih =>
    obtain ⟨hle, hrest, hfee, hpos⟩ := h.spec
    obtain ⟨hcharged, hexact⟩ := h.fill
    simp only [remainingFee] at hfee hcharged hexact
    have hin : o.inputAmount ≠ 0 := by
      have := hpos o' rfl
      change o'.inputAmount = _ at hrest
      omega
    have hsum : ∀ n, o.fee - o'.fee + n = o.fee ↔ n = o'.fee := by
      have := operatorFee_le hle
      omega
    simp only [forall_mem_cons, map_cons, sum_cons, hsum, hexact]
    refine ⟨⟨hcharged ▸ operatorFee_le hle, ih.1⟩, ?_⟩
    rw [and_assoc, ih.2]
    simp only [hpos o' rfl, hin, false_imp_iff, and_true]

/-- An order with a fee, to be executed at once. -/
def sampleLimit (inputAmount fee : ℕ) : LimitOrder where
  beacon := 1
  inputAsset := .native
  inputAmount := inputAmount
  outputAsset := .token ⟨1, 0⟩
  outputAmount := 0
  basePrice := 1
  executionBudget := 1000000
  fee := fee
  maxCostPerExStep := 500000
  minMarginalOutput := 0
  marginalCost := ⟨1, 1⟩

theorem sampleLimit_charged : ∃ fills, Life (sampleLimit 10 3) fills ∧
    fills.map Fill.charged = [1, 2] ∧ (fills.map Fill.charged).sum = 3 := by
  have h : Life (sampleLimit 10 3) [_, _] :=
    .next ⟨0, 0, _, (rfl : LimitOrder.withAppliedTrade _ 4 _ = _), rfl⟩
      (.last ⟨0, 0, _, (rfl : LimitOrder.withAppliedTrade _ 6 _ = _), rfl⟩ rfl)
  refine ⟨_, h, rfl, (h.fees_iff.2.2 ⟨?_, by decide⟩).2⟩
  decide

/-- The product of the fee and the input is saturated, and a part of the fee is never charged. -/
theorem sampleLimit_undercharged : ∃ fills, Life (sampleLimit 100000000000000 2000000) fills ∧
    (fills.map Fill.charged).sum ≠ 2000000 := by
  have h : (sampleLimit 100000000000000 2000000).Executed 100000000000000
      (.term ⟨0, 0, 500000, 1815533⟩) :=
    ⟨0, 0, .term ⟨0, 0, 1000000, 2000000⟩, by decide +kernel, by decide +kernel⟩
  refine ⟨_, .last h rfl, ?_⟩
  decide

end LimitOrder

end Splash.Cardano
