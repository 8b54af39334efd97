import Splash.Cardano.Product

/-!
# Swaps booked as one

The book trades with a pool taker by taker, and in the end books the batch as one swap of all that
came in. What the one swap gives on top of the single ones is left over for the takers.

* `Holdings.Shift.reservesY_le` — trades one after the other give no more than one trade.
* `ConstFnPool.finalized_iff` — when a make is finalized as one swap of the sum.
-/

namespace Splash.Cardano

open Lib LiquidityBook Exec

/-- Trades one after the other give no more than one trade of all that they take. -/
theorem Holdings.Shift.reservesY_le {fee : Ratio} {outputAsset : AssetClass} {amount output : ℕ}
    {h h' single : Holdings} (s : Shift fee outputAsset amount h h')
    (t : Trade fee outputAsset amount output h single) : single.reservesY ≤ h'.reservesY := by
  obtain ⟨quote, -, hquote, hne, -, -, hcases⟩ := quote_cases t.quoted
  have hout : h.freeY - h'.freeY ≤ output := by
    obtain rfl | ⟨hnative, hy⟩ := hcases
    · rw [hquote, Nat.le_div_iff_mul_le (Nat.pos_of_ne_zero hne), Nat.sub_mul]
      have hmul := s.mul_le
      have hsplit : h.freeY * (h.freeX * fee.denom + amount * fee.numer) =
          h.freeX * fee.denom * h.freeY + h.freeY * amount * fee.numer := by ring
      omega
    · have := s.untouched hnative
      omega
  have := s.given
  have := t.given
  have := s.freeY_le
  omega

namespace ConstFnPool

theorem paysX_wrap (assetX assetY : AssetClass) (side : Side) (amount : ℕ) :
    paysX assetX assetY (side.wrap amount) = paysX assetX assetY (side.wrap 0) := by
  cases side <;> rfl

/-- The holdings with the asset that trades on the side pay in for `x`. -/
def facing (p : ConstFnPool) (side : Side) : Holdings :=
  p.holdings.facing (paysX p.assetX p.assetY (side.wrap 0))

section Run

variable {p p' single : ConstFnPool} {side : Side} {amounts : List ℕ}

theorem swaps_shift (hne : p.assetX ≠ p.assetY) (hfees : p.FeesBounded) {fee : Ratio}
    (hfee : p.netFee (paysX p.assetX p.assetY (side.wrap 0)) = .ok fee)
    (h : swaps (amounts.map side.wrap) p = .ok p') :
    Holdings.Shift fee (if paysX p.assetX p.assetY (side.wrap 0) then p.assetY else p.assetX)
      amounts.sum (p.facing side) (p'.facing side) := by
  induction amounts generalizing p with
  | nil =>
    cases h
    exact .refl _
  | cons amount amounts ih =>
    obtain ⟨q, hq, h⟩ := bind_eq_ok.1 h
    obtain ⟨⟨fee', output, hfee', ht⟩, hx, hy, hfees', hnet⟩ := swap_trades hne hfees hq
    rw [paysX_wrap, OnSide.unwrap_wrap] at ht
    rw [paysX_wrap] at hfee'
    cases hfee.symm.trans hfee'
    have hrest := ih (by rwa [hx, hy]) hfees' (by rwa [hx, hy, hnet]) h
    unfold facing at hrest ⊢
    rw [hx, hy] at hrest
    exact ht.shift.2.trans hrest

theorem swap_trade (hne : p.assetX ≠ p.assetY) (hfees : p.FeesBounded) {amount : ℕ}
    (h : p.swap (side.wrap amount) = .ok p') :
    ∃ fee output, p.netFee (paysX p.assetX p.assetY (side.wrap 0)) = .ok fee ∧
      Holdings.Trade fee (if paysX p.assetX p.assetY (side.wrap 0) then p.assetY else p.assetX)
        amount output (p.facing side) (p'.facing side) := by
  obtain ⟨⟨fee, output, hfee, ht⟩, hx, hy, -⟩ := swap_trades hne hfees h
  rw [paysX_wrap] at hfee
  rw [paysX_wrap, OnSide.unwrap_wrap] at ht
  refine ⟨fee, output, hfee, ?_⟩
  unfold facing
  rwa [hx, hy]

end Run

/-! ## The make of the book -/

/-- The reserves that trades on the side pay into. -/
def taken : Side → AbsoluteReserves → ℕ
  | .ask, r => r.base
  | .bid, r => r.quote

/-- The reserves that trades on the side are paid from. -/
def given : Side → AbsoluteReserves → ℕ
  | .ask, r => r.quote
  | .bid, r => r.base

/-- What a swap on the side gave too little. -/
def leftOver : Side → ℕ → Excess
  | .ask, n => ⟨0, n⟩
  | .bid, n => ⟨n, 0⟩

def balance (p : ConstFnPool) : AbsoluteReserves := (AnyPool.pureCFMM p).liquidity

variable {p p' q : ConstFnPool}

theorem balance_eq_iff (side : Side) : q.balance = p.balance ↔
    taken side q.balance = taken side p.balance ∧ given side q.balance = given side p.balance := by
  cases side
  · exact (AbsoluteReserves.mk.injEq _ _ _ _).to_iff.trans and_comm
  · exact (AbsoluteReserves.mk.injEq _ _ _ _).to_iff

theorem balance_facing (p : ConstFnPool) (side : Side) :
    taken side p.balance = (p.facing side).reservesX ∧
      given side p.balance = (p.facing side).reservesY := by
  have hreserves : p.balance = absoluteReserves p.assetX p.assetY p.holdings.reservesX
      p.holdings.reservesY := by cases p <;> rfl
  rw [hreserves]
  unfold absoluteReserves facing Holdings.facing
  cases side <;> by_cases h : (orderCanonical p.assetX p.assetY).1 = p.assetX <;>
    simp [paysX, Side.wrap, taken, given, h]

/-- The swaps one after the other take what one swap of the sum takes, and give no more. -/
theorem balance_of_swaps {single : ConstFnPool} {side : Side} {amounts : List ℕ}
    (hne : p.assetX ≠ p.assetY) (hfees : p.FeesBounded)
    (hrun : swaps (amounts.map side.wrap) p = .ok p')
    (hsingle : p.swap (side.wrap amounts.sum) = .ok single) :
    taken side p'.balance = taken side p.balance + amounts.sum ∧
      given side p'.balance ≤ given side p.balance ∧
      taken side single.balance = taken side p.balance + amounts.sum ∧
      given side single.balance ≤ given side p'.balance := by
  obtain ⟨fee, output, hfee, ht⟩ := swap_trade hne hfees hsingle
  have hshift := swaps_shift hne hfees hfee hrun
  have hgiven := hshift.given
  have hfree := hshift.freeY_le
  rw [(balance_facing p' side).1, (balance_facing p side).1, (balance_facing single side).1,
    (balance_facing p' side).2, (balance_facing p side).2, (balance_facing single side).2]
  exact ⟨hshift.paid, by omega, ht.paid, hshift.reservesY_le ht⟩

theorem balance_of_swap_zero (side : Side) (hne : p.assetX ≠ p.assetY) (hfees : p.FeesBounded)
    (h : p.swap (side.wrap 0) = .ok q) : q.balance = p.balance := by
  obtain ⟨fee, output, -, ht⟩ := swap_trade hne hfees h
  obtain ⟨quote, -, hquote, -, hle, -⟩ := quote_cases ht.quoted
  have hzero : output = 0 := by simpa [hquote] using hle
  have hgiven := ht.given
  rw [hzero, add_zero] at hgiven
  rw [balance_eq_iff side, (balance_facing q side).1, (balance_facing q side).2,
    (balance_facing p side).1, (balance_facing p side).2]
  exact ⟨ht.paid, hgiven.symm⟩

variable [Numerics] [LiquidityEstimates]

theorem anyPool_swap (p : ConstFnPool) (input : OnSide ℕ) :
    MakerBehavior.swap (AnyPool.pureCFMM p) input = (p.swap input).map .pureCFMM := by
  cases p with
  | classic p =>
    simp only [MakerBehavior.swap, AnyPool.swap, swap]
    cases p.swap input <;> rfl
  | feeSwitch p =>
    simp only [MakerBehavior.swap, AnyPool.swap, swap]
    cases p.swap input <;> rfl
  | royalty p =>
    simp only [MakerBehavior.swap, AnyPool.swap, swap]
    cases p.swap input <;> rfl

def make (p p' : ConstFnPool) : MakeInProgress AnyPool := ⟨.pureCFMM p, .pureCFMM p'⟩

/-- The swaps of `amounts` that ended in `p'` are booked as one swap of the sum, and what the single
swaps gave too little is left over. -/
def BookedAsOne (p p' : ConstFnPool) (side : Side) (amounts : List ℕ) : Prop :=
  ∃ single booked excess, p.swap (side.wrap amounts.sum) = .ok single ∧
    (make p p').finalized = .ok (some (make p booked, leftOver side excess)) ∧
    booked.balance = single.balance ∧
    given side p'.balance = given side single.balance + excess

theorem finalized_eq (side : Side) (input : ℕ)
    (hside : side = .bid → p'.balance.base < p.balance.base)
    (hinput : taken side p'.balance = taken side p.balance + input) :
    (make p p').finalized = (p.swap (side.wrap input)).map fun q =>
      (checkedSub (given side p'.balance) (given side q.balance)).map fun excess =>
        (make p q, leftOver side excess) := by
  have hinput := checkedSub_eq_some.2 (hinput.trans (add_comm _ _))
  cases side with
  | ask =>
    simp only [balance, taken] at hinput
    simp only [MakeInProgress.finalized, make, anyPool_swap, MarketMaker.liquidity,
      MakerBehavior.preservePreviewMetadata, hinput, given, Side.wrap]
    cases p.swap (.ask input) with
    | error e => rfl
    | ok q =>
      simp only [Except.map, bind, Except.bind, balance]
      cases checkedSub (AnyPool.pureCFMM p').liquidity.quote (AnyPool.pureCFMM q).liquidity.quote <;>
        rfl
  | bid =>
    have hbase := checkedSub_eq_none.2 (hside rfl)
    simp only [balance, taken] at hinput hbase
    simp only [MakeInProgress.finalized, make, anyPool_swap, MarketMaker.liquidity,
      MakerBehavior.preservePreviewMetadata, hbase, hinput, given, Side.wrap]
    cases p.swap (.bid input) with
    | error e => rfl
    | ok q =>
      simp only [Except.map, bind, Except.bind, balance]
      cases checkedSub (AnyPool.pureCFMM p').liquidity.base (AnyPool.pureCFMM q).liquidity.base <;>
        rfl

/-- **A sequence of swaps on one side is booked as one swap of the sum** just when that swap returns
and, for bids, something was bought: a make that gave no base is taken for an ask of nothing. -/
theorem finalized_iff {p p' : ConstFnPool} {side : Side} {amounts : List ℕ}
    (hne : p.assetX ≠ p.assetY) (hfees : p.FeesBounded)
    (hrun : swaps (amounts.map side.wrap) p = .ok p') :
    BookedAsOne p p' side amounts ↔ (∃ single, p.swap (side.wrap amounts.sum) = .ok single) ∧
      (side = .bid → p'.balance.base < p.balance.base ∨
        amounts.sum = 0 ∧ ∃ q, p.swap (.ask 0) = .ok q) := by
  constructor
  · rintro ⟨single, booked, excess, hsingle, hfinal, hbooked, -⟩
    refine ⟨⟨single, hsingle⟩, ?_⟩
    rintro rfl
    obtain ⟨-, hbought, hpaid, -⟩ := balance_of_swaps hne hfees hrun hsingle
    by_contra hnot
    obtain ⟨hbase, hzero⟩ := not_or.1 hnot
    -- nothing was bought, so the make is finalized as an ask of nothing
    rw [finalized_eq .ask 0 (by intro h; cases h)
      (le_antisymm hbought (not_lt.1 hbase))] at hfinal
    obtain ⟨q, hq, hfinal⟩ := map_eq_ok.1 hfinal
    obtain ⟨e, -, heq⟩ := Option.map_eq_some_iff.1 hfinal
    cases heq
    rw [← hbooked, balance_of_swap_zero .ask hne hfees hq] at hpaid
    exact hzero ⟨by omega, booked, hq⟩
  · rintro ⟨⟨single, hsingle⟩, hbid⟩
    obtain ⟨hpaid, hbought, -, hle⟩ := balance_of_swaps hne hfees hrun hsingle
    by_cases hside : side = .bid → p'.balance.base < p.balance.base
    · obtain ⟨excess, hexcess⟩ := Nat.exists_eq_add_of_le' hle
      refine ⟨single, single, excess, hsingle, ?_, rfl, hexcess.trans (add_comm _ _)⟩
      rw [finalized_eq _ _ hside hpaid]
      exact map_eq_ok.2 ⟨single, hsingle,
        Option.map_eq_some_iff.2 ⟨excess, checkedSub_eq_some.2 hexcess, rfl⟩⟩
    · obtain ⟨rfl, hbase⟩ := Classical.not_imp.1 hside
      obtain ⟨hzero, q, hq⟩ := (hbid rfl).resolve_left hbase
      have hqp := balance_of_swap_zero .ask hne hfees hq
      have hsp := balance_of_swap_zero .bid hne hfees (hzero ▸ hsingle)
      have hsame : p'.balance = p.balance :=
        (balance_eq_iff .bid).2 ⟨by rw [hpaid, hzero, add_zero], le_antisymm hbought (not_lt.1 hbase)⟩
      refine ⟨single, q, 0, hsingle, ?_, hqp.trans hsp.symm, by rw [hsame, hsp, add_zero]⟩
      rw [finalized_eq .ask 0 (by intro h; cases h) (by rw [hsame, add_zero])]
      exact map_eq_ok.2 ⟨q, hq, Option.map_eq_some_iff.2
        ⟨0, checkedSub_eq_some.2 (by rw [hsame, hqp, zero_add]), rfl⟩⟩

omit [Numerics] [LiquidityEstimates] in
theorem treasuryPool_booked :
    ∃ p', swaps ([70000, 40000].map Side.ask.wrap) treasuryPool = .ok p' ∧
      ∀ (_ : Numerics) (_ : LiquidityEstimates), BookedAsOne treasuryPool p' .ask [70000, 40000] := by
  obtain ⟨p', hrun⟩ : ∃ p', swaps ([70000, 40000].map Side.ask.wrap) treasuryPool = .ok p' :=
    ⟨_, rfl⟩
  have hfees : treasuryPool.FeesBounded := by
    unfold treasuryPool FeesBounded
    decide
  refine ⟨p', hrun, fun _ _ => (finalized_iff (by decide) hfees hrun).2 ⟨⟨_, rfl⟩, ?_⟩⟩
  intro h
  cases h

/-- A pool with no more than the untouchable amount of the native asset. -/
def drainedPool : ConstFnPool :=
  .classic {
    id := ⟨0, 0⟩, reservesX := 3000000, reservesY := 1000, liquidity := 0, assetX := .native
    assetY := .token ⟨1, 0⟩, assetLq := .token ⟨2, 0⟩, lpFee := ⟨997, 1000⟩, lqLowerBound := 0
    ver := .v1, marginalCost := ⟨0, 0⟩, bounds := ⟨0, 0⟩, stakePartScriptHash := none }

omit [Numerics] [LiquidityEstimates] in
/-- The pool takes two bids and gives nothing. The make is finalized as an ask of nothing, with all
that was paid left over. -/
theorem drainedPool_not_booked :
    drainedPool.FeesBounded ∧ ∃ p', swaps ([5, 5].map Side.bid.wrap) drainedPool = .ok p' ∧
      ∀ (_ : Numerics) (_ : LiquidityEstimates), ¬ BookedAsOne drainedPool p' .bid [5, 5] := by
  refine ⟨by unfold drainedPool FeesBounded; decide, _, rfl, ?_⟩
  rintro _ _ ⟨single, booked, excess, hsingle, hfinal, hbooked, -⟩
  obtain ⟨q, hq, hfinal⟩ := map_eq_ok.1
    ((finalized_eq .ask 0 (by intro h; cases h) (by decide)).symm.trans hfinal)
  obtain ⟨e, -, heq⟩ := Option.map_eq_some_iff.1 hfinal
  cases heq
  cases hq
  cases hsingle
  exact absurd hbooked (by decide)

end ConstFnPool

end Splash.Cardano
