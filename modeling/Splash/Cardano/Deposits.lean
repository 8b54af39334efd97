import Splash.Cardano.Pools

/-!
# Deposits and redeems

Liquidity providers pay both assets into a pool for liquidity tokens, and give the tokens back for
their share of the reserves. What the pool keeps for its treasury and royalties is not shared.

* `AnyPool.applyDeposit_spec`, `AnyPool.applyRedeem_spec` — both change the reserves and the
  liquidity of a pool and nothing else.
-/

namespace Splash.Cardano

open Lib LiquidityBook Exec

/-! ## Formulas -/

/-- A quotient that is absent when the divisor is zero. -/
def checkedDiv (a b : ℕ) : Option ℕ := if b = 0 then none else some (a / b)

/-- The low 64 bits. -/
def truncateU64 (n : ℕ) : ℕ := n % 2 ^ 64

/-- What a deposit gets: the liquidity, and the change of `x` and of `y`. -/
structure Reward where
  unlockedLq : ℕ
  changeX : ℕ
  changeY : ℕ
  deriving DecidableEq, Repr

/-- What is paid back of the asset of which too much was paid in. -/
def classicCfmmChange (excess reserves liquidity : ℕ) : OptionT Exec ℕ := do
  let product ← fit u128Max (excess * reserves)
  let change ← ofOption (checkedDiv product liquidity)
  return truncateU64 change

def classicCfmmRewardLp (reservesX reservesY liquidity inX inY : ℕ) : OptionT Exec Reward := do
  let minByX ← ofOption (checkedDiv (inX * liquidity) reservesX)
  let minByY ← ofOption (checkedDiv (inY * liquidity) reservesY)
  let unlockedLq := truncateU64 (min minByX minByY)
  if minByX = minByY then return ⟨unlockedLq, 0, 0⟩
  else if minByX < minByY then
    return ⟨unlockedLq, 0, ← classicCfmmChange (minByY - minByX) reservesY liquidity⟩
  else return ⟨unlockedLq, ← classicCfmmChange (minByX - minByY) reservesX liquidity, 0⟩

def classicCfmmSharesAmount (reservesX reservesY liquidity burnedLq : ℕ) :
    OptionT Exec (ℕ × ℕ) := do
  let amountX ← ofOption (checkedDiv (burnedLq * reservesX) liquidity)
  let amountY ← ofOption (checkedDiv (burnedLq * reservesY) liquidity)
  return (truncateU64 amountX, truncateU64 amountY)

/-- Results of computations with big floating point numbers. -/
class DepositNumerics where
  /-- The integer part of `unlocked / liquidity * reserves`. -/
  stableToDeposit : (unlocked liquidity reserves : ℕ) → Exec ℕ

def stableCfmmRewardLp [DepositNumerics] (reservesX reservesY liquidity inX inY : ℕ) :
    OptionT Exec Reward := do
  let minByX := truncateU64 (← ofOption (checkedDiv (inX * liquidity) reservesX))
  let minByY := truncateU64 (← ofOption (checkedDiv (inY * liquidity) reservesY))
  if minByX = minByY then return ⟨min minByX minByY, 0, 0⟩
  else if minByX < minByY then
    let deposited ← DepositNumerics.stableToDeposit minByX liquidity reservesY
    return ⟨min minByX minByY, 0, ← subU64 inY deposited⟩
  else
    let deposited ← DepositNumerics.stableToDeposit minByY liquidity reservesX
    -- the change of `x` is given as change of `y`
    return ⟨min minByX minByY, 0, ← subU64 inX deposited⟩

/-! ## Orders -/

/-- An order to pay both assets in. -/
structure Deposit where
  tokenX : AssetClass
  tokenXAmount : ℕ
  tokenY : AssetClass
  tokenYAmount : ℕ
  tokenLq : AssetClass
  exFee : ℕ
  rewardPkh : Ed25519KeyHash
  rewardStakePkh : Option Ed25519KeyHash
  collateralAda : ℕ
  deriving DecidableEq

structure DepositOutput where
  tokenXAsset : AssetClass
  tokenXChargeAmount : ℕ
  tokenYAsset : AssetClass
  tokenYChargeAmount : ℕ
  tokenLqAsset : AssetClass
  tokenLqAmount : ℕ
  adaResidue : ℕ
  redeemerPkh : Ed25519KeyHash
  redeemerStakePkh : Option Ed25519KeyHash
  deriving DecidableEq

/-- An order to give liquidity back. -/
structure Redeem where
  tokenX : AssetClass
  tokenY : AssetClass
  tokenLqAmount : ℕ
  rewardPkh : Ed25519KeyHash
  rewardStakePkh : Option Ed25519KeyHash
  collateralAda : ℕ
  deriving DecidableEq

structure RedeemOutput where
  tokenXAsset : AssetClass
  tokenXAmount : ℕ
  tokenYAsset : AssetClass
  tokenYAmount : ℕ
  adaResidue : ℕ
  redeemerPkh : Ed25519KeyHash
  redeemerStakePkh : Option Ed25519KeyHash
  deriving DecidableEq

namespace Deposit

/-- What is left of an amount; the fee and the collateral are paid in the native asset. -/
def net (order : Deposit) (asset : AssetClass) (amount : ℕ) : Option ℕ :=
  if asset.isNative then
    (checkedSub amount order.exFee).bind (checkedSub · order.collateralAda)
  else some amount

def netX (order : Deposit) : Option ℕ := order.net order.tokenX order.tokenXAmount

def netY (order : Deposit) : Option ℕ := order.net order.tokenY order.tokenYAmount

def output (order : Deposit) (reward : Reward) : DepositOutput where
  tokenXAsset := order.tokenX
  tokenXChargeAmount := reward.changeX
  tokenYAsset := order.tokenY
  tokenYChargeAmount := reward.changeY
  tokenLqAsset := order.tokenLq
  tokenLqAmount := reward.unlockedLq
  adaResidue := order.collateralAda
  redeemerPkh := order.rewardPkh
  redeemerStakePkh := order.rewardStakePkh

end Deposit

def Redeem.output (order : Redeem) (amountX amountY : ℕ) : RedeemOutput where
  tokenXAsset := order.tokenX
  tokenXAmount := amountX
  tokenYAsset := order.tokenY
  tokenYAmount := amountY
  adaResidue := order.collateralAda
  redeemerPkh := order.rewardPkh
  redeemerStakePkh := order.rewardStakePkh

/-! ## Pools -/

/-- Reserves and liquidity of a pool. -/
@[ext]
structure AbsolutePoolReserves where
  reservesX : ℕ
  reservesY : ℕ
  reservesLq : ℕ
  deriving DecidableEq, Repr

namespace AbsolutePoolReserves

def deposit (reserves : AbsolutePoolReserves) (order : Deposit)
    (rewardLp : ℕ → ℕ → OptionT Exec Reward) :
    OptionT Exec (AbsolutePoolReserves × DepositOutput) := do
  let netX ← ofOption order.netX
  let netY ← ofOption order.netY
  let reward ← rewardLp netX netY
  let reservesX ← ofOption
    ((checkedAdd reserves.reservesX netX).bind (checkedSub · reward.changeX))
  let reservesY ← ofOption
    ((checkedAdd reserves.reservesY netY).bind (checkedSub · reward.changeY))
  let reservesLq ← ofOption (checkedAdd reserves.reservesLq reward.unlockedLq)
  return (⟨reservesX, reservesY, reservesLq⟩, order.output reward)

def redeem (reserves : AbsolutePoolReserves) (order : Redeem)
    (sharesAmount : ℕ → OptionT Exec (ℕ × ℕ)) :
    OptionT Exec (AbsolutePoolReserves × RedeemOutput) := do
  let (amountX, amountY) ← sharesAmount order.tokenLqAmount
  let reservesX ← ofOption (checkedSub reserves.reservesX amountX)
  let reservesY ← ofOption (checkedSub reserves.reservesY amountY)
  let reservesLq ← ofOption (checkedSub reserves.reservesLq order.tokenLqAmount)
  return (⟨reservesX, reservesY, reservesLq⟩, order.output amountX amountY)

variable {reserves reserves' : AbsolutePoolReserves}

theorem deposit_lq_le {order : Deposit}
    {rewardLp : ℕ → ℕ → OptionT Exec Reward} {out : DepositOutput}
    (h : (reserves.deposit order rewardLp).run = .ok (some (reserves', out))) :
    reserves'.reservesLq ≤ u64Max := by
  unfold deposit at h
  obtain ⟨netX, -, h⟩ := bind_eq_some.1 h
  obtain ⟨netY, -, h⟩ := bind_eq_some.1 h
  obtain ⟨reward, -, h⟩ := bind_eq_some.1 h
  obtain ⟨reservesX, -, h⟩ := bind_eq_some.1 h
  obtain ⟨reservesY, -, h⟩ := bind_eq_some.1 h
  obtain ⟨reservesLq, hlq, h⟩ := bind_eq_some.1 h
  obtain ⟨rfl, -⟩ := Prod.mk.inj (pure_eq_some.1 h)
  obtain ⟨hle, hsum⟩ := checkedAdd_eq_some.1 (ofOption_eq_some.1 hlq)
  exact hsum ▸ hle

theorem redeem_lq_le {order : Redeem} {sharesAmount : ℕ → OptionT Exec (ℕ × ℕ)} {out : RedeemOutput}
    (h : (reserves.redeem order sharesAmount).run = .ok (some (reserves', out))) :
    reserves'.reservesLq ≤ reserves.reservesLq := by
  unfold redeem at h
  obtain ⟨⟨amountX, amountY⟩, -, h⟩ := bind_eq_some.1 h
  obtain ⟨reservesX, -, h⟩ := bind_eq_some.1 h
  obtain ⟨reservesY, -, h⟩ := bind_eq_some.1 h
  obtain ⟨reservesLq, hlq, h⟩ := bind_eq_some.1 h
  obtain ⟨rfl, -⟩ := Prod.mk.inj (pure_eq_some.1 h)
  have hlq := checkedSub_eq_some.1 (ofOption_eq_some.1 hlq)
  exact hlq ▸ Nat.le_add_right _ _

end AbsolutePoolReserves

namespace ConstFnPool

def reserves : ConstFnPool → AbsolutePoolReserves
  | .classic p => ⟨p.reservesX, p.reservesY, p.liquidity⟩
  | .feeSwitch p => ⟨p.reservesX, p.reservesY, p.liquidity⟩
  | .royalty p => ⟨p.reservesX, p.reservesY, p.liquidity⟩

def withReserves : ConstFnPool → AbsolutePoolReserves → ConstFnPool
  | .classic p, r =>
    .classic { p with reservesX := r.reservesX, reservesY := r.reservesY, liquidity := r.reservesLq }
  | .feeSwitch p, r => .feeSwitch
    { p with reservesX := r.reservesX, reservesY := r.reservesY, liquidity := r.reservesLq }
  | .royalty p, r =>
    .royalty { p with reservesX := r.reservesX, reservesY := r.reservesY, liquidity := r.reservesLq }

def rewardLp : ConstFnPool → ℕ → ℕ → OptionT Exec Reward
  | .classic p, inX, inY => classicCfmmRewardLp p.reservesX p.reservesY p.liquidity inX inY
  | .feeSwitch p, inX, inY => do
    classicCfmmRewardLp (← subU64 p.reservesX p.treasuryX) (← subU64 p.reservesY p.treasuryY)
      p.liquidity inX inY
  | .royalty p, inX, inY => do
    classicCfmmRewardLp (← p.availableX) (← p.availableY) p.liquidity inX inY

def sharesAmount : ConstFnPool → ℕ → OptionT Exec (ℕ × ℕ)
  | .classic p, burnedLq => classicCfmmSharesAmount p.reservesX p.reservesY p.liquidity burnedLq
  | .feeSwitch p, burnedLq => do
    classicCfmmSharesAmount (← subU64 p.reservesX p.treasuryX) (← subU64 p.reservesY p.treasuryY)
      p.liquidity burnedLq
  | .royalty p, burnedLq => do
    classicCfmmSharesAmount (← p.availableX) (← p.availableY) p.liquidity burnedLq

def applyDeposit (p : ConstFnPool) (order : Deposit) : OptionT Exec (ConstFnPool × DepositOutput) :=
  do
    let (reserves, output) ← p.reserves.deposit order p.rewardLp
    return (p.withReserves reserves, output)

def applyRedeem (p : ConstFnPool) (order : Redeem) : OptionT Exec (ConstFnPool × RedeemOutput) := do
  let (reserves, output) ← p.reserves.redeem order p.sharesAmount
  return (p.withReserves reserves, output)

end ConstFnPool

namespace BalancePool

variable (p : BalancePool)

def reserves : AbsolutePoolReserves := ⟨p.reservesX, p.reservesY, p.liquidity⟩

def withReserves (r : AbsolutePoolReserves) : BalancePool :=
  { p with reservesX := r.reservesX, reservesY := r.reservesY, liquidity := r.reservesLq }

/-- The change is computed anew, from the liquidity that is given out. -/
def rewardLp (inX inY : ℕ) : OptionT Exec Reward := do
  let availableX ← subU64 p.reservesX p.treasuryX
  let availableY ← subU64 p.reservesY p.treasuryY
  let reward ← classicCfmmRewardLp availableX availableY p.liquidity inX inY
  let toDepositX ← divide (reward.unlockedLq * availableX) p.liquidity
  let toDepositY ← divide (reward.unlockedLq * availableY) p.liquidity
  return ⟨reward.unlockedLq, ← subU64 inX (truncateU64 toDepositX),
    ← subU64 inY (truncateU64 toDepositY)⟩

def sharesAmount (burnedLq : ℕ) : OptionT Exec (ℕ × ℕ) := do
  classicCfmmSharesAmount (← subU64 p.reservesX p.treasuryX) (← subU64 p.reservesY p.treasuryY)
    p.liquidity burnedLq

def applyDeposit (order : Deposit) : OptionT Exec (BalancePool × DepositOutput) :=
  do
    let (reserves, output) ← p.reserves.deposit order p.rewardLp
    return (p.withReserves reserves, output)

def applyRedeem (order : Redeem) : OptionT Exec (BalancePool × RedeemOutput) := do
  let (reserves, output) ← p.reserves.redeem order p.sharesAmount
  return (p.withReserves reserves, output)

end BalancePool

namespace StablePoolT2T

def reserves (p : StablePoolT2T) : AbsolutePoolReserves := ⟨p.reservesX, p.reservesY, p.liquidity⟩

def withReserves (p : StablePoolT2T) (r : AbsolutePoolReserves) : StablePoolT2T :=
  { p with reservesX := r.reservesX, reservesY := r.reservesY, liquidity := r.reservesLq }

def rewardLp [DepositNumerics] (p : StablePoolT2T) (inX inY : ℕ) : OptionT Exec Reward := do
  stableCfmmRewardLp (← subU64 p.reservesX p.treasuryX) (← subU64 p.reservesY p.treasuryY)
    p.liquidity inX inY

def sharesAmount (p : StablePoolT2T) (burnedLq : ℕ) : OptionT Exec (ℕ × ℕ) := do
  classicCfmmSharesAmount (← subU64 p.reservesX p.treasuryX) (← subU64 p.reservesY p.treasuryY)
    p.liquidity burnedLq

def applyDeposit [DepositNumerics] (p : StablePoolT2T) (order : Deposit) :
    OptionT Exec (StablePoolT2T × DepositOutput) := do
  let (reserves, output) ← p.reserves.deposit order p.rewardLp
  return (p.withReserves reserves, output)

def applyRedeem (p : StablePoolT2T) (order : Redeem) :
    OptionT Exec (StablePoolT2T × RedeemOutput) := do
  let (reserves, output) ← p.reserves.redeem order p.sharesAmount
  return (p.withReserves reserves, output)

end StablePoolT2T

/-! ## Any pool -/

namespace AnyPool

def reserves : AnyPool → AbsolutePoolReserves
  | .pureCFMM p => p.reserves
  | .balancedCFMM p => p.reserves
  | .stableCFMM p => p.reserves

def withReserves : AnyPool → AbsolutePoolReserves → AnyPool
  | .pureCFMM p, r => .pureCFMM (p.withReserves r)
  | .balancedCFMM p, r => .balancedCFMM (p.withReserves r)
  | .stableCFMM p, r => .stableCFMM (p.withReserves r)

def applyDeposit [DepositNumerics] : AnyPool → Deposit → OptionT Exec (AnyPool × DepositOutput)
  | .pureCFMM p, order => do
    let (p, output) ← p.applyDeposit order
    return (.pureCFMM p, output)
  | .balancedCFMM p, order => do
    let (p, output) ← p.applyDeposit order
    return (.balancedCFMM p, output)
  | .stableCFMM p, order => do
    let (p, output) ← p.applyDeposit order
    return (.stableCFMM p, output)

def applyRedeem : AnyPool → Redeem → OptionT Exec (AnyPool × RedeemOutput)
  | .pureCFMM p, order => do
    let (p, output) ← p.applyRedeem order
    return (.pureCFMM p, output)
  | .balancedCFMM p, order => do
    let (p, output) ← p.applyRedeem order
    return (.balancedCFMM p, output)
  | .stableCFMM p, order => do
    let (p, output) ← p.applyRedeem order
    return (.stableCFMM p, output)

/-- A computation on the reserves, whose result is put into a pool and the pool into another type. -/
theorem exists_of_updated {ρ π β γ : Type} {x : OptionT Exec (ρ × β)} {put : ρ → π} {wrap : π → γ}
    {c : γ} {b : β}
    (h : ((do let (r, b) ← x; return (put r, b)) >>= fun (p, b) => pure (wrap p, b) :
      OptionT Exec (γ × β)).run = .ok (some (c, b))) :
    ∃ r, x.run = .ok (some (r, b)) ∧ c = wrap (put r) := by
  obtain ⟨⟨p, b₁⟩, hp, h⟩ := bind_eq_some.1 h
  obtain ⟨⟨r, b₂⟩, hr, hp⟩ := bind_eq_some.1 hp
  obtain ⟨rfl, rfl⟩ := Prod.mk.inj (pure_eq_some.1 hp)
  obtain ⟨rfl, rfl⟩ := Prod.mk.inj (pure_eq_some.1 h)
  exact ⟨r, hr, rfl⟩

variable {p p' : AnyPool}

theorem applyDeposit_spec [DepositNumerics] {order : Deposit} {out : DepositOutput}
    (h : (p.applyDeposit order).run = .ok (some (p', out))) :
    ∃ r : AbsolutePoolReserves, r.reservesLq ≤ u64Max ∧ p' = p.withReserves r := by
  cases p <;>
  · obtain ⟨r, hr, rfl⟩ := exists_of_updated h
    exact ⟨r, AbsolutePoolReserves.deposit_lq_le hr, rfl⟩

theorem applyRedeem_spec {order : Redeem} {out : RedeemOutput}
    (h : (p.applyRedeem order).run = .ok (some (p', out))) :
    ∃ r : AbsolutePoolReserves, r.reservesLq ≤ p.reserves.reservesLq ∧ p' = p.withReserves r := by
  cases p <;>
  · obtain ⟨r, hr, rfl⟩ := exists_of_updated h
    exact ⟨r, AbsolutePoolReserves.redeem_lq_le hr, rfl⟩

end AnyPool

end Splash.Cardano
