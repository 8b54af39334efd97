import Splash.Cardano.RoundTrip

/-!
# Runs of a pool between two outputs

A pool is read from an output, changed by swaps, deposits and redeems, and written back.

* `LedgerPool.run_evolved` — a run changes reserves, liquidity and counters only, and keeps them
  machine integers.
* `LedgerPool.run_readBack_iff` — exactly when the pool at the end of a run is read back.
-/

namespace Splash.Cardano

open Lib LiquidityBook Exec Option

/-! ## Pools and what happens to them -/

/-- A pool of any kind, the quadratic ones included. -/
inductive LedgerPool where
  | any (p : AnyPool)
  | quadratic (p : QuadraticPool)
  deriving DecidableEq

/-- Whose reader is used. -/
inductive PoolKind where
  | classic
  | feeSwitch
  | royalty
  | balance
  | stable
  | quadratic
  deriving DecidableEq, Repr

inductive PoolOp where
  | swap (input : OnSide ℕ)
  | deposit (order : Deposit)
  | redeem (order : Redeem)

namespace LedgerPool

def tryFromLedger (ctx : PoolContext) (out : TransactionOutput) : PoolKind → Option LedgerPool
  | .classic => (ClassicPool.tryFromLedger ctx out).map fun p => .any (.pureCFMM (.classic p))
  | .feeSwitch => (FeeSwitchPool.tryFromLedger ctx out).map fun p => .any (.pureCFMM (.feeSwitch p))
  | .royalty => (RoyaltyPool.tryFromLedger ctx out).map fun p => .any (.pureCFMM (.royalty p))
  | .balance => (BalancePool.tryFromLedger ctx out).map fun p => .any (.balancedCFMM p)
  | .stable => (StablePoolT2T.tryFromLedger ctx out).map fun p => .any (.stableCFMM p)
  | .quadratic => (QuadraticPool.tryFromLedger ctx out).map .quadratic

def intoLedger : LedgerPool → ImmutablePoolUtxo → Exec TransactionOutput
  | .any (.pureCFMM (.classic p)) => p.intoLedger
  | .any (.pureCFMM (.feeSwitch p)) => p.intoLedger
  | .any (.pureCFMM (.royalty p)) => p.intoLedger
  | .any (.balancedCFMM p) => p.intoLedger
  | .any (.stableCFMM p) => p.intoLedger
  | .quadratic p => p.intoLedger

/-- Tokens and lovelace can be written and are found again. -/
def Writable : LedgerPool → Prop
  | .any (.pureCFMM (.classic p)) =>
    LqWritable p.assetX p.assetY p.assetLq p.id ⟨p.reservesX, p.reservesY, p.liquidity⟩
  | .any (.pureCFMM (.feeSwitch p)) =>
    LqWritable p.assetX p.assetY p.assetLq p.id ⟨p.reservesX, p.reservesY, p.liquidity⟩
  | .any (.pureCFMM (.royalty p)) =>
    LqWritable p.assetX p.assetY p.assetLq p.id ⟨p.reservesX, p.reservesY, p.liquidity⟩
  | .any (.balancedCFMM p) => LqWritable p.assetX p.assetY p.assetLq p.id p.reserves
  | .any (.stableCFMM p) => LqWritable p.assetX p.assetY p.assetLq p.id p.reserves
  | .quadratic p => QuadraticWritable p.assetX p.assetY p.id p.reservesX p.reservesY

/-- The reader takes the pool. -/
def admitted : LedgerPool → Bool
  | .any (.pureCFMM (.classic _)) => true
  | .any (.pureCFMM (.feeSwitch p)) => p.admitted
  | .any (.pureCFMM (.royalty p)) => p.admitted
  | .any (.balancedCFMM _) => true
  | .any (.stableCFMM p) => p.admitted
  | .quadratic p => p.admitted

/-- Every version but two has its writer and its reader agree on where counters are. -/
def LayoutShared : LedgerPool → Prop
  | .any (.pureCFMM (.feeSwitch p)) => p.ver ≠ .biDirV1
  | .quadratic p => p.ver ≠ .v1T2T
  | _ => True

section Run

variable [Numerics] [DepositNumerics] [CurveNumerics]

/-- Quadratic pools have no liquidity to pay in or out. -/
def apply : LedgerPool → PoolOp → OptionT Exec LedgerPool
  | .any p, .swap input => return .any (← p.swap input)
  | .any p, .deposit order => return .any (← p.applyDeposit order).1
  | .any p, .redeem order => return .any (← p.applyRedeem order).1
  | .quadratic p, .swap input => return .quadratic (← p.swap input)
  | .quadratic _, .deposit _ => ofOption none
  | .quadratic _, .redeem _ => ofOption none

def run : List PoolOp → LedgerPool → OptionT Exec LedgerPool
  | [], p => return p
  | op :: ops, p => do run ops (← p.apply op)

end Run

end LedgerPool

/-! ## What a run keeps -/

/-! What a pool can become: reserves, liquidity and counters change and stay machine integers. -/

def ClassicPool.Evolved (p p' : ClassicPool) : Prop :=
  p'.liquidity ≤ u64Max ∧ ∃ x y lq,
    p' = { p with reservesX := x, reservesY := y, liquidity := lq }

def FeeSwitchPool.Evolved (p p' : FeeSwitchPool) : Prop :=
  p'.liquidity ≤ u64Max ∧ p'.treasuryX ≤ u64Max ∧ p'.treasuryY ≤ u64Max ∧ ∃ x y lq tx ty,
    p' = { p with
      reservesX := x, reservesY := y, liquidity := lq, treasuryX := tx, treasuryY := ty }

def RoyaltyPool.Evolved (p p' : RoyaltyPool) : Prop :=
  p'.liquidity ≤ u64Max ∧ p'.FromData ∧ ∃ x y lq tx ty fx fy sx sy,
    p' = { p with
      reservesX := x, reservesY := y, liquidity := lq, treasuryX := tx, treasuryY := ty,
      firstRoyaltyX := fx, firstRoyaltyY := fy, secondRoyaltyX := sx, secondRoyaltyY := sy }

def BalancePool.Evolved (p p' : BalancePool) : Prop :=
  p'.liquidity ≤ u64Max ∧ p'.treasuryX ≤ u64Max ∧ p'.treasuryY ≤ u64Max ∧ ∃ x y lq tx ty,
    p' = { p with
      reservesX := x, reservesY := y, liquidity := lq, treasuryX := tx, treasuryY := ty }

def StablePoolT2T.Evolved (p p' : StablePoolT2T) : Prop :=
  p'.liquidity ≤ u64Max ∧ p'.treasuryX ≤ u64Max ∧ p'.treasuryY ≤ u64Max ∧ ∃ x y lq tx ty,
    p' = { p with
      reservesX := x, reservesY := y, liquidity := lq, treasuryX := tx, treasuryY := ty }

inductive AnyPool.Evolved : AnyPool → AnyPool → Prop
  | classic {p p' : ClassicPool} (h : p.Evolved p') :
    Evolved (.pureCFMM (.classic p)) (.pureCFMM (.classic p'))
  | feeSwitch {p p' : FeeSwitchPool} (h : p.Evolved p') :
    Evolved (.pureCFMM (.feeSwitch p)) (.pureCFMM (.feeSwitch p'))
  | royalty {p p' : RoyaltyPool} (h : p.Evolved p') :
    Evolved (.pureCFMM (.royalty p)) (.pureCFMM (.royalty p'))
  | balanced {p p' : BalancePool} (h : p.Evolved p') : Evolved (.balancedCFMM p) (.balancedCFMM p')
  | stable {p p' : StablePoolT2T} (h : p.Evolved p') : Evolved (.stableCFMM p) (.stableCFMM p')

/-- A quadratic pool without a fee keeps none. -/
def QuadraticPool.Evolved (p p' : QuadraticPool) : Prop :=
  ∃ x y fee, p' = { p with reservesX := x, reservesY := y, accumulatedXFee := fee } ∧
    (p.ver = .v1 → fee = p.accumulatedXFee)

inductive LedgerPool.Evolved : LedgerPool → LedgerPool → Prop
  | any {p p' : AnyPool} (h : p.Evolved p') : Evolved (.any p) (.any p')
  | quadratic {p p' : QuadraticPool} (h : p.Evolved p') : Evolved (.quadratic p) (.quadratic p')

theorem RoyaltyPool.FromData.swap {p p' : RoyaltyPool} {input : OnSide ℕ} (h : p.FromData)
    (hswap : p.swap input = .ok p') : p'.FromData := by
  obtain ⟨output, rx, ry, tx, ty, fx, fy, sx, sy, -, -, htreasury, hfirst, hsecond, rfl⟩ :=
    RoyaltyPool.swap_spec hswap
  obtain ⟨htx, hty⟩ := htreasury.le h.treasuryX h.treasuryY
  obtain ⟨hfx, hfy⟩ := hfirst.le h.firstRoyaltyX h.firstRoyaltyY
  obtain ⟨hsx, hsy⟩ := hsecond.le h.secondRoyaltyX h.secondRoyaltyY
  have hnone : p.ver ≠ .v2 → p.secondRoyaltyFee.numer = 0 ∧ sx = 0 ∧ sy = 0 := by
    intro hver
    obtain ⟨hfee, hx, hy⟩ := h.second hver
    obtain ⟨hx', hy'⟩ := Prod.mk.inj (hsecond.eq_of_numer_eq_zero hfee)
    exact ⟨hfee, hx'.trans hx, hy'.trans hy⟩
  exact ⟨h.lpFee, h.treasuryFee, h.firstRoyaltyFee, h.secondRoyaltyFee, h.nonce, htx, hty, hfx, hfy,
    hsx, hsy, hnone⟩

namespace AnyPool

theorem Evolved.withReserves {p₀ p : AnyPool} {r : AbsolutePoolReserves} (h : p₀.Evolved p)
    (hr : r.reservesLq ≤ u64Max) : p₀.Evolved (p.withReserves r) := by
  cases h with
  | classic h =>
    obtain ⟨-, x, y, lq, rfl⟩ := h
    exact .classic ⟨hr, _, _, _, rfl⟩
  | feeSwitch h =>
    obtain ⟨-, htx, hty, x, y, lq, tx, ty, rfl⟩ := h
    exact .feeSwitch ⟨hr, htx, hty, _, _, _, _, _, rfl⟩
  | royalty h =>
    obtain ⟨-, hdata, x, y, lq, tx, ty, fx, fy, sx, sy, rfl⟩ := h
    exact .royalty ⟨hr, { hdata with }, _, _, _, _, _, _, _, _, _, rfl⟩
  | balanced h =>
    obtain ⟨-, htx, hty, x, y, lq, tx, ty, rfl⟩ := h
    exact .balanced ⟨hr, htx, hty, _, _, _, _, _, rfl⟩
  | stable h =>
    obtain ⟨-, htx, hty, x, y, lq, tx, ty, rfl⟩ := h
    exact .stable ⟨hr, htx, hty, _, _, _, _, _, rfl⟩

theorem Evolved.liquidity_le {p₀ p : AnyPool} (h : p₀.Evolved p) :
    p.reserves.reservesLq ≤ u64Max := by
  cases h with
  | classic h => exact h.1
  | feeSwitch h => exact h.1
  | royalty h => exact h.1
  | balanced h => exact h.1
  | stable h => exact h.1

theorem Evolved.swap [Numerics] {p₀ p p' : AnyPool} {input : OnSide ℕ} (h : p₀.Evolved p)
    (hswap : p.swap input = .ok p') : p₀.Evolved p' := by
  cases h with
  | classic h =>
    obtain ⟨q, hq, hswap⟩ := bind_eq_ok.1 hswap
    cases hswap
    obtain ⟨output, rx, ry, -, -, rfl⟩ := ClassicPool.swap_spec hq
    obtain ⟨hlq, x, y, lq, rfl⟩ := h
    exact .classic ⟨hlq, _, _, _, rfl⟩
  | feeSwitch h =>
    obtain ⟨q, hq, hswap⟩ := bind_eq_ok.1 hswap
    cases hswap
    obtain ⟨output, rx, ry, tx', ty', -, -, hcharged, rfl⟩ := FeeSwitchPool.swap_spec hq
    obtain ⟨hlq, htx, hty, x, y, lq, tx, ty, rfl⟩ := h
    obtain ⟨htx', hty'⟩ := hcharged.le htx hty
    exact .feeSwitch ⟨hlq, htx', hty', _, _, _, _, _, rfl⟩
  | royalty h =>
    obtain ⟨q, hq, hswap⟩ := bind_eq_ok.1 hswap
    cases hswap
    obtain ⟨hlq, hdata, x, y, lq, tx, ty, fx, fy, sx, sy, hp⟩ := h
    have hdata' := hdata.swap hq
    obtain ⟨output, rx, ry, tx', ty', fx', fy', sx', sy', -, -, -, -, -, rfl⟩ :=
      RoyaltyPool.swap_spec hq
    subst hp
    exact .royalty ⟨hlq, hdata', _, _, _, _, _, _, _, _, _, rfl⟩
  | balanced h =>
    obtain ⟨q, hq, hswap⟩ := bind_eq_ok.1 hswap
    cases hswap
    obtain ⟨output, rx, ry, tx', ty', -, -, hcharged, rfl⟩ := BalancePool.swap_spec hq
    obtain ⟨hlq, htx, hty, x, y, lq, tx, ty, rfl⟩ := h
    obtain ⟨htx', hty'⟩ := hcharged.le htx hty
    exact .balanced ⟨hlq, htx', hty', _, _, _, _, _, rfl⟩
  | stable h =>
    obtain ⟨q, hq, hswap⟩ := bind_eq_ok.1 hswap
    cases hswap
    obtain ⟨quoted, output, rx, ry, tx', ty', -, -, -, htx', hty', rfl⟩ :=
      StablePoolT2T.swap_spec hq
    obtain ⟨hlq, htx, hty, x, y, lq, tx, ty, rfl⟩ := h
    exact .stable ⟨hlq, htx' htx, hty' hty, _, _, _, _, _, rfl⟩

end AnyPool

namespace LedgerPool

variable [Numerics] [DepositNumerics] [CurveNumerics]

theorem Evolved.apply {p₀ p p' : LedgerPool} {op : PoolOp} (h : p₀.Evolved p)
    (happly : (p.apply op).run = .ok (some p')) : p₀.Evolved p' := by
  cases h with
  | any h =>
    cases op with
    | swap input =>
      obtain ⟨q, hq, happly⟩ := bind_eq_some.1 happly
      cases pure_eq_some.1 happly
      exact .any (h.swap (lift_eq_some.1 hq))
    | deposit order =>
      obtain ⟨⟨q, out⟩, hq, happly⟩ := bind_eq_some.1 happly
      cases pure_eq_some.1 happly
      obtain ⟨r, hr, rfl⟩ := AnyPool.applyDeposit_spec hq
      exact .any (h.withReserves hr)
    | redeem order =>
      obtain ⟨⟨q, out⟩, hq, happly⟩ := bind_eq_some.1 happly
      cases pure_eq_some.1 happly
      obtain ⟨r, hr, rfl⟩ := AnyPool.applyRedeem_spec hq
      exact .any (h.withReserves (hr.trans h.liquidity_le))
  | quadratic h =>
    cases op with
    | swap input =>
      obtain ⟨q, hq, happly⟩ := bind_eq_some.1 happly
      cases pure_eq_some.1 happly
      obtain ⟨x, y, fee, rfl, hfee⟩ := QuadraticPool.swap_spec (lift_eq_some.1 hq)
      obtain ⟨x₀, y₀, fee₀, rfl, hv1⟩ := h
      exact .quadratic ⟨_, _, _, rfl, fun hv => (hfee hv).trans (hv1 hv)⟩
    | deposit order => cases happly
    | redeem order => cases happly

/-- A run changes reserves, liquidity and counters only, and keeps them machine integers. -/
theorem run_evolved {p₀ p p' : LedgerPool} {ops : List PoolOp} (h : p₀.Evolved p)
    (hrun : (run ops p).run = .ok (some p')) : p₀.Evolved p' := by
  induction ops generalizing p with
  | nil => exact pure_eq_some.1 hrun ▸ h
  | cons op ops ih =>
    obtain ⟨q, hq, hrun⟩ := bind_eq_some.1 hrun
    exact ih (h.apply hq) hrun

end LedgerPool

/-! ## What is read -/

section Read

variable {ctx : PoolContext} {out : TransactionOutput}

theorem heldReserves_lq_le {value : Value} {assetX assetY assetLq : AssetClass}
    {r : AbsolutePoolReserves} (h : heldReserves value assetX assetY assetLq = some r) :
    r.reservesLq ≤ u64Max := by
  obtain ⟨-, -, neg, -, hlq⟩ := heldReserves_eq_some.1 h
  exact hlq ▸ wrapSub_le _ _

theorem ClassicPool.evolved_self {p : ClassicPool} (h : tryFromLedger ctx out = some p) :
    p.Evolved p := by
  simp only [tryFromLedger, bind_eq_bind, bind_eq_some_iff] at h
  obtain ⟨ver, -, conf, -, held, hheld, id, -, h⟩ := h
  cases h
  exact ⟨heldReserves_lq_le hheld, _, _, _, rfl⟩

theorem FeeSwitchPool.evolved_self {p : FeeSwitchPool} (h : tryFromLedger ctx out = some p) :
    p.Evolved p := by
  simp only [tryFromLedger, bind_eq_bind, bind_eq_some_iff] at h
  obtain ⟨ver, -, conf, ⟨pd, -, hconf⟩, held, hheld, id, -, h⟩ := h
  split at h
  case isFalse => cases h
  case isTrue =>
  cases h
  obtain ⟨-, -, -, -, -, -, -, hx, hy, -⟩ := FeeSwitchPoolConfig.tryFromPd_eq_some.1 hconf
  exact ⟨heldReserves_lq_le hheld, PlutusData.fieldU64_le hx, PlutusData.fieldU64_le hy,
    _, _, _, _, _, rfl⟩

theorem RoyaltyPool.evolved_self {p : RoyaltyPool} (h : tryFromLedger ctx out = some p) :
    p.Evolved p := by
  have hdata := fromData h
  simp only [tryFromLedger, bind_eq_bind, bind_eq_some_iff] at h
  obtain ⟨ver, -, conf, -, second, -, held, hheld, id, -, h⟩ := h
  split at h
  case isFalse => cases h
  case isTrue =>
  cases h
  exact ⟨heldReserves_lq_le hheld, hdata, _, _, _, _, _, _, _, _, _, rfl⟩

theorem BalancePool.evolved_self {p : BalancePool} (h : tryFromLedger ctx out = some p) :
    p.Evolved p := by
  simp only [tryFromLedger, bind_eq_bind, bind_eq_some_iff] at h
  obtain ⟨ver, -, conf, ⟨pd, -, hconf⟩, held, hheld, id, -, h⟩ := h
  split at h
  case isFalse => cases h
  case isTrue =>
  cases h
  obtain ⟨-, -, -, -, -, -, hx, hy⟩ := BalancePoolConfig.tryFromPd_eq_some.1 hconf
  exact ⟨heldReserves_lq_le hheld, PlutusData.fieldU64_le hx, PlutusData.fieldU64_le hy,
    _, _, _, _, _, rfl⟩

theorem StablePoolT2T.evolved_self {p : StablePoolT2T} (h : tryFromLedger ctx out = some p) :
    p.Evolved p := by
  simp only [tryFromLedger, bind_eq_bind, bind_eq_some_iff] at h
  obtain ⟨ver, -, conf, ⟨pd, -, hconf⟩, held, hheld, id, -, h⟩ := h
  split at h
  case isFalse => cases h
  case isTrue =>
  cases h
  obtain ⟨-, -, -, -, -, -, -, -, -, hx, hy⟩ := StablePoolT2TConfig.tryFromPd_eq_some.1 hconf
  exact ⟨heldReserves_lq_le hheld, PlutusData.fieldU64_le hx, PlutusData.fieldU64_le hy,
    _, _, _, _, _, rfl⟩

end Read

namespace LedgerPool

variable [Numerics] [DepositNumerics] [CurveNumerics]

section

omit [Numerics] [DepositNumerics] [CurveNumerics]

theorem evolved_self {ctx : PoolContext} {out : TransactionOutput} {kind : PoolKind}
    {p : LedgerPool} (h : tryFromLedger ctx out kind = some p) : p.Evolved p := by
  cases kind with
  | classic =>
    obtain ⟨q, hq, rfl⟩ := map_eq_some_iff.1 h
    exact .any (.classic (ClassicPool.evolved_self hq))
  | feeSwitch =>
    obtain ⟨q, hq, rfl⟩ := map_eq_some_iff.1 h
    exact .any (.feeSwitch (FeeSwitchPool.evolved_self hq))
  | royalty =>
    obtain ⟨q, hq, rfl⟩ := map_eq_some_iff.1 h
    exact .any (.royalty (RoyaltyPool.evolved_self hq))
  | balance =>
    obtain ⟨q, hq, rfl⟩ := map_eq_some_iff.1 h
    exact .any (.balanced (BalancePool.evolved_self hq))
  | stable =>
    obtain ⟨q, hq, rfl⟩ := map_eq_some_iff.1 h
    exact .any (.stable (StablePoolT2T.evolved_self hq))
  | quadratic =>
    obtain ⟨q, hq, rfl⟩ := map_eq_some_iff.1 h
    exact .quadratic ⟨_, _, _, rfl, fun _ => rfl⟩

theorem exists_map_iff {P : Type} {write : Exec TransactionOutput}
    {read : TransactionOutput → Option P} {wrap : P → LedgerPool}
    (hwrap : Function.Injective wrap) {p : P} :
    (∃ out', write = .ok out' ∧ (read out').map wrap = some (wrap p)) ↔
      ∃ out', write = .ok out' ∧ read out' = some p := by
  simp only [map_eq_some_iff, hwrap.eq_iff, exists_eq_right]

end

/-- **Exactly when a pool is read back.** Of every kind and version whose writer and reader agree on
where counters are: the pool at the end of any run is written and read back as it is exactly when its
tokens can be told apart and the reader admits it. -/
theorem run_readBack_iff {ctx : PoolContext} {out : TransactionOutput} {kind : PoolKind}
    {p p' : LedgerPool} {ops : List PoolOp} (hread : tryFromLedger ctx out kind = some p)
    (hlayout : p.LayoutShared) (hrun : (run ops p).run = .ok (some p')) :
    (∃ out', p'.intoLedger (.of out) = .ok out' ∧ tryFromLedger ctx out' kind = some p') ↔
      p'.Writable ∧ p'.admitted = true := by
  have hevolved := run_evolved (evolved_self hread) hrun
  cases kind with
  | classic =>
    obtain ⟨q, hq, rfl⟩ := map_eq_some_iff.1 hread
    cases hevolved with
    | any hevolved =>
    cases hevolved with
    | classic hevolved =>
    obtain ⟨hlq, x, y, lq, rfl⟩ := hevolved
    have hwrap : Function.Injective fun q => any (.pureCFMM (.classic q)) := by
      intro a b hab
      injections
    refine (exists_map_iff hwrap).trans
      ((ClassicPool.readBack_iff (r := ⟨x, y, lq⟩) hq hlq rfl).trans ?_)
    exact (and_iff_left rfl).symm
  | feeSwitch =>
    obtain ⟨q, hq, rfl⟩ := map_eq_some_iff.1 hread
    cases hevolved with
    | any hevolved =>
    cases hevolved with
    | feeSwitch hevolved =>
    obtain ⟨hlq, htx, hty, x, y, lq, tx, ty, rfl⟩ := hevolved
    have hkept : ∀ q', q.TreasuriesKept q' := by
      intro q'
      unfold FeeSwitchPool.TreasuriesKept
      cases hver : q.ver with
      | v1 => trivial
      | v2 => trivial
      | biDirV1 => exact absurd hver hlayout
    have hwrap : Function.Injective fun q => any (.pureCFMM (.feeSwitch q)) := by
      intro a b hab
      injections
    refine (exists_map_iff hwrap).trans
      ((FeeSwitchPool.readBack_iff (r := ⟨x, y, lq⟩) hq hlq htx hty rfl).trans ?_)
    exact and_congr_right fun _ => and_iff_right (hkept _)
  | royalty =>
    obtain ⟨q, hq, rfl⟩ := map_eq_some_iff.1 hread
    cases hevolved with
    | any hevolved =>
    cases hevolved with
    | royalty hevolved =>
    obtain ⟨hlq, hdata, x, y, lq, tx, ty, fx, fy, sx, sy, rfl⟩ := hevolved
    have hwrap : Function.Injective fun q => any (.pureCFMM (.royalty q)) := by
      intro a b hab
      injections
    have hiff := RoyaltyPool.readBack_iff (r := ⟨x, y, lq⟩) hq hlq hdata rfl
    exact (exists_map_iff hwrap).trans hiff
  | balance =>
    obtain ⟨q, hq, rfl⟩ := map_eq_some_iff.1 hread
    cases hevolved with
    | any hevolved =>
    cases hevolved with
    | balanced hevolved =>
    obtain ⟨hlq, htx, hty, x, y, lq, tx, ty, rfl⟩ := hevolved
    have hwrap : Function.Injective fun q => any (.balancedCFMM q) := by
      intro a b hab
      injections
    refine (exists_map_iff hwrap).trans
      ((BalancePool.readBack_iff (r := ⟨x, y, lq⟩) hq hlq htx hty rfl).trans ?_)
    exact (and_iff_left rfl).symm
  | stable =>
    obtain ⟨q, hq, rfl⟩ := map_eq_some_iff.1 hread
    cases hevolved with
    | any hevolved =>
    cases hevolved with
    | stable hevolved =>
    obtain ⟨hlq, htx, hty, x, y, lq, tx, ty, rfl⟩ := hevolved
    have hwrap : Function.Injective fun q => any (.stableCFMM q) := by
      intro a b hab
      injections
    have hiff := StablePoolT2T.readBack_iff (r := ⟨x, y, lq⟩) hq hlq htx hty rfl
    exact (exists_map_iff hwrap).trans hiff
  | quadratic =>
    obtain ⟨q, hq, rfl⟩ := map_eq_some_iff.1 hread
    cases hevolved with
    | quadratic hevolved =>
    obtain ⟨x, y, fee, rfl, hfee⟩ := hevolved
    have hver : q.ver = .v1 := by
      cases hver : q.ver with
      | v1 => rfl
      | v1T2T => exact absurd hver hlayout
    have hwrap : Function.Injective quadratic := by
      intro a b hab
      injections
    refine (exists_map_iff hwrap).trans ((QuadraticPool.readBack_iff hq rfl).trans ?_)
    exact and_congr_right fun _ => and_iff_right (hfee hver)

end LedgerPool

/-! ### A pool with a treasury -/

namespace LedgerPool

namespace Samples

scoped instance : Numerics := ⟨fun _ _ _ => .error .diverged, 255⟩

scoped instance : DepositNumerics := ⟨fun _ _ _ => .error .diverged⟩

scoped instance : CurveNumerics := ⟨fun _ _ _ _ _ => .error .diverged⟩

/-- A script whose hash repeats one byte. -/
def script (byte : UInt8) : DeployedScriptInfo := ⟨Bytes.replicate 28 byte, ⟨0, 0⟩⟩

def ctx : PoolContext where
  constFnPoolV1 := script 1
  constFnPoolV2 := script 2
  constFnPoolFeeSwitch := script 3
  constFnPoolFeeSwitchV2 := script 4
  constFnPoolFeeSwitchBiDirFee := script 5
  royaltyPoolV1 := script 6
  royaltyPoolV1LedgerFixed := script 7
  royaltyPoolV2 := script 8
  balanceFnPoolV1 := script 9
  balanceFnPoolV2 := script 10
  stableFnPoolT2T := script 11
  degenQuadraticPoolV1 := script 12
  degenQuadraticPoolV1T2T := script 13
  poolValidation := ⟨0, 0⟩
  operatorCred := Bytes.replicate 28 0
  mints := none
  metadata := none

/-- An asset with a policy that is zero but for its last byte. -/
def assetPd (byte : UInt8) : PlutusData :=
  .constr 0 [.bytes (List.replicate 27 0 ++ [byte]), .bytes []]

def feeSwitchPd : PlutusData :=
  .constr 0 [assetPd 1, .constr 0 [.bytes [], .bytes []], assetPd 2, assetPd 3, .ofU64 99700,
    .ofU64 30, .ofU64 1000, .ofU64 10]

/-- Lovelace against the token with policy 2, of which the treasury has a part. -/
def feeSwitchOutput : TransactionOutput where
  address := .enterprise 1 (.script (Bytes.replicate 28 3))
  value := ⟨5001000, writeTokens [(⟨2, 0⟩, 2010), (⟨3, 0⟩, maxLqCap - 1000), (⟨1, 0⟩, 1)]⟩
  datum := some (.datum feeSwitchPd)
  scriptRef := none

def depositOrder : Deposit :=
  ⟨.native, 500000, .token ⟨2, 0⟩, 200, .token ⟨3, 0⟩, 0, Bytes.replicate 28 0, none, 0⟩

def redeemOrder (amount : ℕ) : Redeem :=
  ⟨.native, .token ⟨2, 0⟩, amount, Bytes.replicate 28 0, none, 0⟩

/-- The pool of the output, with other reserves, liquidity and treasuries. -/
def feeSwitchPool (x y lq treasuryX treasuryY : ℕ) : LedgerPool :=
  .any (.pureCFMM (.feeSwitch {
    id := ⟨1, 0⟩, reservesX := x, reservesY := y, liquidity := lq, assetX := .native
    assetY := .token ⟨2, 0⟩, assetLq := .token ⟨3, 0⟩, lpFeeX := ⟨99700, 100000⟩
    lpFeeY := ⟨99700, 100000⟩, treasuryFee := ⟨30, 100000⟩, treasuryX, treasuryY
    lqLowerBound := 0, ver := .v1, marginalCost := ⟨0, 0⟩, bounds := ⟨0, 0⟩, nonce := 0
    stakePartScriptHash := none }))

theorem read_feeSwitchOutput :
    tryFromLedger ctx feeSwitchOutput .feeSwitch = some (feeSwitchPool 5001000 2010 1000 1000 10) :=
  by decide +kernel

end Samples

open Samples in
/-- A swap, a deposit and a redeem, and the pool is read back. -/
theorem feeSwitchOutput_readBack :
    ∃ p', (run [.swap (.ask 70000), .deposit depositOrder, .redeem (redeemOrder 100)]
        (feeSwitchPool 5001000 2010 1000 1000 10)).run = .ok (some p') ∧
      ∃ out', p'.intoLedger (.of feeSwitchOutput) = .ok out' ∧
        tryFromLedger ctx out' .feeSwitch = some p' := by
  have hrun : (run [.swap (.ask 70000), .deposit depositOrder, .redeem (redeemOrder 100)]
      (feeSwitchPool 5001000 2010 1000 1000 10)).run =
        .ok (some (feeSwitchPool 5063716 1981 998 1021 10)) := by
    decide +kernel
  have hlayout : (feeSwitchPool 5001000 2010 1000 1000 10).LayoutShared := by
    show FeeSwitchPoolVer.v1 ≠ .biDirV1
    decide
  refine ⟨_, hrun, (run_readBack_iff read_feeSwitchOutput hlayout hrun).2 ⟨?_, by decide +kernel⟩⟩
  refine ⟨by decide, ⟨3, 0⟩, rfl, ?_⟩
  unfold Coherent
  decide +kernel

open Samples in
/-- A redeem of all the liquidity leaves only the treasury, which the reader does not take. -/
theorem feeSwitchOutput_drained :
    tryFromLedger ctx feeSwitchOutput .feeSwitch = some (feeSwitchPool 5001000 2010 1000 1000 10) ∧
    (run [.redeem (redeemOrder 1000)] (feeSwitchPool 5001000 2010 1000 1000 10)).run =
      .ok (some (feeSwitchPool 1000 10 0 1000 10)) ∧
    ∃ out', (feeSwitchPool 1000 10 0 1000 10).intoLedger (.of feeSwitchOutput) = .ok out' ∧
      tryFromLedger ctx out' .feeSwitch = none := by
  exact ⟨read_feeSwitchOutput, by decide +kernel, _, rfl, by decide +kernel⟩

end LedgerPool

end Splash.Cardano
