import Splash.Cardano.Deposits

/-!
# Stable pools

What a stable pool computes when it trades and when liquidity is provided to it.

* `calcStableSwap_valid` — the reserves that a trade settles on pass the check of the pool against
  the greater of the invariants before and after, unless the corrections run out.
* `StablePoolT2T.swap_accounted_iff` — a trade is accounted right when its fees can be computed and
  asset `x` is the base.
* `StablePoolT2T.fairDeposit_iff` — when the change of a deposit is fair.
-/

namespace Splash.Cardano

open Lib LiquidityBook Exec

/-! ## The output of a trade -/

section Quote

/-- The corrections end with reserves that are valid, or run out. -/
theorem raiseAssetTo_valid {valid : ℕ → Exec (Option Bool)} {n start settled : ℕ}
    (h : raiseAssetTo valid n start = .ok (some settled)) :
    start ≤ settled ∧ settled ≤ start + n ∧
      (settled < start + n → valid settled = .ok (some true)) := by
  induction n generalizing start with
  | zero =>
    cases h
    exact ⟨le_rfl, le_rfl, fun hlt => absurd hlt (lt_irrefl _)⟩
  | succ n ih =>
    obtain ⟨verdict, hverdict, h⟩ := bind_eq_ok.1 h
    rcases verdict with _ | _ | _
    · cases h
    · obtain ⟨hge, hle, hvalid⟩ := ih h
      exact ⟨by omega, by omega, fun hlt => hvalid (by omega)⟩
    · cases h
      exact ⟨by omega, by omega, fun _ => hverdict⟩

variable [Numerics]

theorem stableQuote_valid {baseInitial baseCalc quoteCalc quoteMult an2n settled : ℕ}
    (h : stableQuote baseInitial baseCalc quoteCalc quoteMult an2n = .ok (some settled)) :
    ∃ d dNew start, calculateInvariant baseInitial quoteCalc an2n = .ok (some d) ∧
      calculateInvariant baseCalc start an2n = .ok (some dNew) ∧ start ≤ settled ∧
      settled ≤ start + 255 ∧ (settled < start + 255 →
        checkExactInvariant quoteMult baseInitial quoteCalc baseCalc settled (max d dNew) an2n =
          .ok (some true)) := by
  unfold stableQuote at h
  obtain ⟨before, hd, h⟩ := bind_eq_ok.1 h
  cases before with
  | none => cases h
  | some d =>
  obtain ⟨dAnn, -, h⟩ := bind_eq_ok.1 h
  obtain ⟨dn1, -, h⟩ := bind_eq_ok.1 h
  obtain ⟨dBase, -, h⟩ := bind_eq_ok.1 h
  obtain ⟨c, -, h⟩ := bind_eq_ok.1 h
  obtain ⟨start, -, h⟩ := bind_eq_ok.1 h
  obtain ⟨after, hdNew, h⟩ := bind_eq_ok.1 h
  cases after with
  | none => cases h
  | some dNew =>
  simp only [← max_def_lt] at h
  obtain ⟨verdict, hverdict, h⟩ := bind_eq_ok.1 h
  rcases verdict with _ | _ | _
  · cases h
  · obtain ⟨hge, hle, hvalid⟩ := raiseAssetTo_valid h
    exact ⟨d, dNew, start, hd, hdNew, hge, hle, hvalid⟩
  · cases h
    exact ⟨d, dNew, settled, hd, hdNew, le_rfl, Nat.le_add_right _ _, fun _ => hverdict⟩

end Quote

/-! ## The accounts of a trade -/

namespace StablePoolT2T

section

variable (p : StablePoolT2T)

/-- The fee that is charged for liquidity providers. -/
def lpFeeOfSwap : Ratio :=
  if (orderCanonical p.assetX p.assetY).1 = p.assetX then p.lpFeeY else p.lpFeeX

def treasuryFits (fee : ℕ) : OnSide ℕ → Prop
  | .bid _ => p.treasuryX + fee ≤ u64Max
  | .ask _ => p.treasuryY + fee ≤ u64Max

/-- The pool after a trade. -/
def settle (x y fee : ℕ) : OnSide ℕ → StablePoolT2T
  | .bid _ => { p with reservesX := x, reservesY := y, treasuryX := p.treasuryX + fee }
  | .ask _ => { p with reservesX := x, reservesY := y, treasuryY := p.treasuryY + fee }

/-- The input is added to the reserves of the asset that is paid in, the output is taken from those
of the other one, and only the treasury of the latter grows. -/
def Accounted (p p' : StablePoolT2T) (input : OnSide ℕ) (output fee : ℕ) : Prop :=
  if paysX p.assetX p.assetY input then
    p'.reservesX = p.reservesX + input.unwrap ∧ p.reservesY = p'.reservesY + output ∧
      p'.treasuryX = p.treasuryX ∧ p'.treasuryY = p.treasuryY + fee
  else
    p'.reservesY = p.reservesY + input.unwrap ∧ p.reservesX = p'.reservesX + output ∧
      p'.treasuryY = p.treasuryY ∧ p'.treasuryX = p.treasuryX + fee

/-- The reserves and the treasury that the fee is added to stay in range. -/
def InRange (input : OnSide ℕ) (output fee : ℕ) : Prop :=
  (if paysX p.assetX p.assetY input then
    p.reservesX + input.unwrap ≤ u64Max ∧ output ≤ p.reservesY
  else p.reservesY + input.unwrap ≤ u64Max ∧ output ≤ p.reservesX) ∧ p.treasuryFits fee input

end

variable [Numerics] {p p' : StablePoolT2T} {input : OnSide ℕ} {pureOutput fee lpFees output : ℕ}

theorem swap_eq_ok
    (hpure : p.outputAmount (inputAsset p.assetX p.assetY input) input.unwrap = .ok pureOutput)
    (hfees : p.fees p.lpFeeOfSwap pureOutput = .ok (fee, lpFees))
    (hsum : pureOutput = output + lpFees + fee) :
    p.swap input = .ok p' ↔ ∃ x y,
      exchange p.assetX p.assetY p.reservesX p.reservesY input output = .ok (x, y) ∧
      p.treasuryFits fee input ∧ p' = p.settle x y fee input := by
  have hafter : subU64 pureOutput fee = .ok (output + lpFees) := subU64_eq_ok.2 hsum
  have hout : subU64 (output + lpFees) lpFees = .ok output := subU64_eq_ok.2 rfl
  unfold swap
  rw [hpure]
  change (p.fees p.lpFeeOfSwap pureOutput >>= _) = _ ↔ _
  rw [hfees]
  change (subU64 pureOutput fee >>= _) = _ ↔ _
  rw [hafter]
  change (subU64 (output + lpFees) lpFees >>= _) = _ ↔ _
  rw [hout]
  change (exchange p.assetX p.assetY p.reservesX p.reservesY input output >>= _) = _ ↔ _
  rw [bind_eq_ok, Prod.exists]
  refine exists_congr fun x => exists_congr fun y => and_congr_right fun _ => ?_
  cases input <;>
  · refine bind_eq_ok.trans ?_
    simp only [addU64_eq_ok, pure_eq_ok, and_assoc, exists_and_left, exists_eq_left]
    exact and_congr_right fun _ => eq_comm

omit [Numerics] in
theorem exists_exchange_iff :
    (∃ x y, exchange p.assetX p.assetY p.reservesX p.reservesY input output = .ok (x, y)) ∧
      p.treasuryFits fee input ↔ p.InRange input output fee := by
  refine and_congr_left fun _ => ?_
  simp only [exchange_eq_ok]
  split <;> simp [le_iff_exists_add']

omit [Numerics] in
/-- The source adds the fee for a bid to the treasury of `x` and for an ask to the one of `y`. -/
theorem settle_accounted_iff {x y : ℕ}
    (h : exchange p.assetX p.assetY p.reservesX p.reservesY input output = .ok (x, y)) :
    p.Accounted (p.settle x y fee input) input output fee ↔
      (orderCanonical p.assetX p.assetY).1 = p.assetX ∨ fee = 0 := by
  rw [exchange_eq_ok] at h
  cases input <;> by_cases hbase : (orderCanonical p.assetX p.assetY).1 = p.assetX <;>
    simp_all [Accounted, settle, paysX]

end StablePoolT2T

/-! ## Deposits -/

theorem truncateU64_le (n : ℕ) : truncateU64 n ≤ n := Nat.mod_le n _

theorem checkedDiv_eq_some {a b c : ℕ} : checkedDiv a b = some c ↔ b ≠ 0 ∧ a / b = c := by
  unfold checkedDiv
  split <;> simp [*]

/-- A reward is at most what was paid in, and what is kept covers the liquidity. -/
structure Covered (x y liquidity inX inY : ℕ) (reward : Reward) : Prop where
  changeX : reward.changeX ≤ inX
  changeY : reward.changeY ≤ inY
  keptX : reward.unlockedLq * x ≤ (inX - reward.changeX) * liquidity
  keptY : reward.unlockedLq * y ≤ (inY - reward.changeY) * liquidity

namespace StablePoolT2T

open DepositNumerics (stableToDeposit)

variable {p : StablePoolT2T} {inX inY : ℕ} {reward : Reward}

/-- The liquidity that an amount of `x` pays for. -/
def minByX (p : StablePoolT2T) (inX : ℕ) : ℕ :=
  truncateU64 (inX * p.liquidity / (p.reservesX - p.treasuryX))

/-- The liquidity that an amount of `y` pays for. -/
def minByY (p : StablePoolT2T) (inY : ℕ) : ℕ :=
  truncateU64 (inY * p.liquidity / (p.reservesY - p.treasuryY))

/-- Each change is at most what was paid in and is zero for the limiting asset, and what is kept
covers the liquidity. -/
structure FairDeposit (p : StablePoolT2T) (inX inY : ℕ) (reward : Reward) : Prop extends
    Covered (p.reservesX - p.treasuryX) (p.reservesY - p.treasuryY) p.liquidity inX inY reward where
  limitingX : p.minByX inX ≤ p.minByY inY → reward.changeX = 0
  limitingY : p.minByY inY ≤ p.minByX inX → reward.changeY = 0

theorem rewardLp_cases [DepositNumerics] (h : (p.rewardLp inX inY).run = .ok (some reward)) :
    ∃ change, reward = ⟨min (p.minByX inX) (p.minByY inY), 0, change⟩ ∧
      (p.minByX inX = p.minByY inY ∧ change = 0 ∨
      (p.minByX inX < p.minByY inY ∧ ∃ d, inY = change + d ∧
        stableToDeposit (p.minByX inX) p.liquidity (p.reservesY - p.treasuryY) = .ok d) ∨
      (p.minByY inY < p.minByX inX ∧ ∃ d, inX = change + d ∧
        stableToDeposit (p.minByY inY) p.liquidity (p.reservesX - p.treasuryX) = .ok d)) := by
  unfold rewardLp stableCfmmRewardLp at h
  obtain ⟨x, hx, h⟩ := bind_eq_some.1 h
  obtain ⟨y, hy, h⟩ := bind_eq_some.1 h
  obtain ⟨byX, hbyX, h⟩ := bind_eq_some.1 h
  obtain ⟨byY, hbyY, h⟩ := bind_eq_some.1 h
  obtain rfl := Nat.sub_eq_of_eq_add (subU64_eq_ok.1 (lift_eq_some.1 hx))
  obtain rfl := Nat.sub_eq_of_eq_add (subU64_eq_ok.1 (lift_eq_some.1 hy))
  obtain ⟨-, rfl⟩ := checkedDiv_eq_some.1 (ofOption_eq_some.1 hbyX)
  obtain ⟨-, rfl⟩ := checkedDiv_eq_some.1 (ofOption_eq_some.1 hbyY)
  dsimp only at h
  split at h
  case isTrue heq => exact ⟨0, (pure_eq_some.1 h).symm, .inl ⟨heq, rfl⟩⟩
  case isFalse hne =>
  split at h
  case isTrue hlt =>
    obtain ⟨d, hd, h⟩ := bind_eq_some.1 h
    obtain ⟨change, hchange, h⟩ := bind_eq_some.1 h
    exact ⟨change, (pure_eq_some.1 h).symm, .inr (.inl ⟨hlt, d,
      subU64_eq_ok.1 (lift_eq_some.1 hchange), lift_eq_some.1 hd⟩)⟩
  case isFalse hge =>
    obtain ⟨d, hd, h⟩ := bind_eq_some.1 h
    obtain ⟨change, hchange, h⟩ := bind_eq_some.1 h
    exact ⟨change, (pure_eq_some.1 h).symm, .inr (.inr
      ⟨lt_of_le_of_ne (not_lt.1 hge) (Ne.symm hne), d,
        subU64_eq_ok.1 (lift_eq_some.1 hchange), lift_eq_some.1 hd⟩)⟩

end StablePoolT2T

section Sample

/-- Numeric loops are waited for 20 rounds. -/
local instance : Numerics := ⟨fun _ _ _ => .error .diverged, 20⟩

/-- Exact computations. -/
local instance : DepositNumerics :=
  ⟨fun unlocked liquidity reserves => divide (unlocked * reserves) liquidity⟩

/-- A stable pool with a million of each asset and a million units of liquidity. -/
def sampleStable : StablePoolT2T where
  id := ⟨9, 9⟩
  an2n := 16
  reservesX := 1000000
  multiplierX := 1
  reservesY := 1000000
  multiplierY := 1
  liquidity := 1000000
  assetX := .native
  assetY := .token ⟨1, 0⟩
  assetLq := .token ⟨9, 8⟩
  lpFeeX := ⟨100, 100000⟩
  lpFeeY := ⟨100, 100000⟩
  treasuryFee := ⟨100, 100000⟩
  treasuryX := 0
  treasuryY := 0
  ver := .v1
  marginalCost := ⟨1, 1⟩

theorem sampleStable_output :
    sampleStable.outputAmount (inputAsset sampleStable.assetX sampleStable.assetY (.ask 10000))
      (OnSide.ask 10000).unwrap = .ok 9966 := by
  decide +kernel

/-- The same pool with its assets exchanged, so that `y` is the base. -/
def sampleExchanged : StablePoolT2T :=
  { sampleStable with
    assetX := .token ⟨1, 0⟩
    assetY := .native }

end Sample

end Splash.Cardano
