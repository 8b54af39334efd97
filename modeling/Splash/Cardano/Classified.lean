import Splash.Cardano.Pools

/-!
# Classified pools

A pool together with where it came from. Trades of eligible takers with a graduated pool pay an
operator fee in the native asset, which the pool keeps as pending until its recipe is executed.

* `TradeCase`, `swapWithTaker_cases` — what a trade with a taker does to the taker and the pool.
* `LawfulMaker ClassifiedPool` — what the book relies on.
-/

namespace Splash.Cardano

open Lib LiquidityBook MarketMaker TakerBehaviour Exec

/-! ## What a maker gave -/

/-- What a maker gave in a trade. -/
def givenBy {M U : Type} [MarketMaker M U] (make : MakeInProgress M) : ℕ :=
  ((MakeInProgress.loss make).map OnSide.unwrap).getD 0

theorem givenBy_eq {M U : Type} [MarketMaker M U] {m m' : M} {input : OnSide ℕ} {output : ℕ}
    (h : Traded (liquidity m) (liquidity m') input output)
    (hpos : ∀ i, input = .ask i → 0 < i) : givenBy (⟨m, m'⟩ : MakeInProgress M) = output := by
  cases input with
  | bid i =>
    obtain ⟨-, hbase⟩ := h
    have hloss : checkedSub (liquidity m).base (liquidity m').base =
        some output := by rw [checkedSub_eq_some]; omega
    simp [givenBy, MakeInProgress.loss, hloss]
  | ask i =>
    obtain ⟨hbase, hquote⟩ := h
    have hi := hpos i rfl
    have hgain : checkedSub (liquidity m).base (liquidity m').base = none := by
      rw [checkedSub_eq_none]; omega
    have hloss : checkedSub (liquidity m).quote (liquidity m').quote =
        some output := by rw [checkedSub_eq_some]; omega
    simp [givenBy, MakeInProgress.loss, hgain, hloss]

/-! ## Graduated pools -/

inductive PoolOrigin where
  | direct
  | snekGraduated
  deriving DecidableEq, Repr

structure GraduatedPoolFeeConfig where
  enabled : Bool
  relativeFeePercent : Fin 100
  deriving DecidableEq, Repr

def GraduatedPoolFeeConfig.fee (conf : GraduatedPoolFeeConfig) (amount : ℕ) : ℕ :=
  if conf.enabled then amount * conf.relativeFeePercent / 100 else 0

structure ClassifiedPool where
  inner : AnyPool
  origin : PoolOrigin
  feeConfig : GraduatedPoolFeeConfig
  pendingOperatorFee : ℕ
  deriving DecidableEq

namespace ClassifiedPool

def accumulatedOperatorFee (pendingOperatorFee operatorFee : ℕ) : Option ℕ :=
  checkedAdd pendingOperatorFee operatorFee

def netAmountAfterOperatorFee (grossAmount operatorFee : ℕ) : Option ℕ :=
  (checkedSub grossAmount operatorFee).filter (0 < ·)

def feeApplicable {T : Type} [TakerBehaviour T] (p : ClassifiedPool) (taker : T) : Bool :=
  p.origin = .snekGraduated && p.feeConfig.enabled &&
    graduatedSplashFeeEligible taker

def tradeAssets (p : ClassifiedPool) : OnSide ℕ → AssetClass × AssetClass
  | .ask _ => (p.inner.pairId.base, p.inner.pairId.quote)
  | .bid _ => (p.inner.pairId.quote, p.inner.pairId.base)

def noTrade {T : Type} (p : ClassifiedPool) (taker : T) :
    TakeInProgress T × MakeInProgress ClassifiedPool :=
  (⟨taker, .succ taker⟩, ⟨p, p⟩)

variable [Numerics]

section

variable (p : ClassifiedPool) (input : OnSide ℕ)

def swap : Exec ClassifiedPool := do
  let inner ← p.inner.swap input
  return { p with inner, pendingOperatorFee := 0 }

/-- The price after the operator fee, when the fee is taken from the input. -/
def nativeInputPrice : Exec (Option AbsolutePrice) := do
  let operatorFee := p.feeConfig.fee input.unwrap
  match netAmountAfterOperatorFee input.unwrap operatorFee,
      accumulatedOperatorFee p.pendingOperatorFee operatorFee with
  | some netInput, some _ =>
    match ← p.inner.estimatedTrade (input.map fun _ => netInput) with
    | some estimated => return input.priceFor estimated.output
    | none => return none
  | _, _ => return none

/-- The price after the operator fee, when the fee is taken from the output. -/
def nativeOutputPrice : Exec (Option AbsolutePrice) := do
  match ← p.inner.estimatedTrade input with
  | some estimated =>
    let operatorFee := p.feeConfig.fee estimated.output
    match netAmountAfterOperatorFee estimated.output operatorFee,
        accumulatedOperatorFee p.pendingOperatorFee operatorFee with
    | some netOutput, some _ => return input.priceFor netOutput
    | _, _ => return none
  | none => return none

end

def effectivePrice {T : Type} [TakerBehaviour T] (p : ClassifiedPool) (taker : T)
    (input : OnSide ℕ) : Exec (Option AbsolutePrice) :=
  if p.feeApplicable taker then
    if (p.tradeAssets input).1 = .native then p.nativeInputPrice input
    else if (p.tradeAssets input).2 = .native then p.nativeOutputPrice input
    else .ok none
  else p.inner.realPrice input

instance : Stable ClassifiedPool Token where
  stableId p := stableId p.inner
  isQuasiPermanent p := Stable.isQuasiPermanent p.inner

variable [LiquidityEstimates]

instance : MarketMaker ClassifiedPool ExUnits where
  staticPrice p := p.inner.staticPrice
  realPrice p := p.inner.realPrice
  effectivePrice := effectivePrice
  quality p := p.inner.quality
  marginalCostHint p := p.inner.marginalCost
  liquidity p := p.inner.liquidity
  availableLiquidityOnSide p := LiquidityEstimates.availableLiquidityOnSide p.inner
  estimatedTrade p := p.inner.estimatedTrade
  isActive p := p.inner.isActive

section SwapWithTaker

variable {T V : Type} [MarketTaker T V] [TakerBehaviour T]

section

variable (taker : T) (p : ClassifiedPool) (input : OnSide ℕ)

/-- A trade whose operator fee is taken from the input. -/
def swapNativeInput : Exec (TakeInProgress T × MakeInProgress ClassifiedPool) := do
  let operatorFee := p.feeConfig.fee input.unwrap
  match netAmountAfterOperatorFee input.unwrap operatorFee,
      accumulatedOperatorFee p.pendingOperatorFee operatorFee with
  | some netInput, some pendingOperatorFee =>
    let inner ← p.inner.swap (input.map fun _ => netInput)
    let make : MakeInProgress ClassifiedPool := ⟨p, { p with inner, pendingOperatorFee }⟩
    let nextTaker ← withAppliedTrade taker input.unwrap (givenBy make)
    return (⟨taker, nextTaker⟩, make)
  | _, _ => return p.noTrade taker

/-- A trade whose operator fee is taken from the output. -/
def swapNativeOutput : Exec (TakeInProgress T × MakeInProgress ClassifiedPool) := do
  let inner ← p.inner.swap input
  let grossOutput := givenBy (⟨p.inner, inner⟩ : MakeInProgress AnyPool)
  let operatorFee := p.feeConfig.fee grossOutput
  match netAmountAfterOperatorFee grossOutput operatorFee,
      accumulatedOperatorFee p.pendingOperatorFee operatorFee with
  | some netOutput, some pendingOperatorFee =>
    let nextTaker ← withAppliedTrade taker input.unwrap netOutput
    return (⟨taker, nextTaker⟩, ⟨p, { p with inner, pendingOperatorFee }⟩)
  | _, _ => return p.noTrade taker

def swapWithTaker : Exec (TakeInProgress T × MakeInProgress ClassifiedPool) :=
  if p.feeApplicable taker then
    if (p.tradeAssets input).1 = .native then swapNativeInput taker p input
    else if (p.tradeAssets input).2 = .native then swapNativeOutput taker p input
    else .ok (p.noTrade taker)
  else defaultSwapWithTaker swap taker p input

end

end SwapWithTaker

instance : MakerBehavior ClassifiedPool where
  swap := swap
  preservePreviewMetadata _ previewed rebalanced :=
    { rebalanced with pendingOperatorFee := previewed.pendingOperatorFee }
  swapWithTaker := swapWithTaker

/-! ## What a trade does -/

section TradeCase

variable {T V : Type} [MarketTaker T V] [TakerBehaviour T]

/-- What the pool gives when its reserves change to those of `inner`. -/
def given (p : ClassifiedPool) (inner : AnyPool) : ℕ :=
  givenBy (⟨p.inner, inner⟩ : MakeInProgress AnyPool)

/-- What a trade of a taker with a pool can do to the two. -/
inductive TradeCase (p : ClassifiedPool) (taker : T) (input : OnSide ℕ) :
    TakeInProgress T → MakeInProgress ClassifiedPool → Prop where
  /-- A fee is due, and it cannot be taken. -/
  | none (happlicable : p.feeApplicable taker = true) :
      TradeCase p taker input ⟨taker, .succ taker⟩ ⟨p, p⟩
  /-- No fee is due. The pending fee is reset. -/
  | plain {inner : AnyPool} {next : Next T TerminalTake}
      (happlicable : p.feeApplicable taker = false) (hswap : p.inner.swap input = .ok inner)
      (htrade : withAppliedTrade taker input.unwrap (p.given inner) = .ok next) :
      TradeCase p taker input ⟨taker, next⟩ ⟨p, { p with inner, pendingOperatorFee := 0 }⟩
  /-- The fee is taken from the input. -/
  | feeOnInput {net : ℕ} {inner : AnyPool} {next : Next T TerminalTake}
      (happlicable : p.feeApplicable taker = true) (hnative : (p.tradeAssets input).1 = .native)
      (hnet : input.unwrap = net + p.feeConfig.fee input.unwrap) (hpos : 0 < net)
      (hswap : p.inner.swap (input.map fun _ => net) = .ok inner)
      (htrade : withAppliedTrade taker input.unwrap (p.given inner) = .ok next) :
      TradeCase p taker input ⟨taker, next⟩
        ⟨p, { p with
          inner, pendingOperatorFee := p.pendingOperatorFee + p.feeConfig.fee input.unwrap }⟩
  /-- The fee is taken from the output. -/
  | feeOnOutput {net : ℕ} {inner : AnyPool} {next : Next T TerminalTake}
      (happlicable : p.feeApplicable taker = true) (hother : (p.tradeAssets input).1 ≠ .native)
      (hnative : (p.tradeAssets input).2 = .native) (hswap : p.inner.swap input = .ok inner)
      (hnet : p.given inner = net + p.feeConfig.fee (p.given inner)) (hpos : 0 < net)
      (htrade : withAppliedTrade taker input.unwrap net = .ok next) :
      TradeCase p taker input ⟨taker, next⟩
        ⟨p, { p with
          inner, pendingOperatorFee := p.pendingOperatorFee + p.feeConfig.fee (p.given inner) }⟩

variable {p : ClassifiedPool} {taker : T} {input : OnSide ℕ} {take : TakeInProgress T}
  {make : MakeInProgress ClassifiedPool}

omit [Numerics] [LiquidityEstimates] in
theorem netAmountAfterOperatorFee_eq_some {gross fee net : ℕ}
    (h : netAmountAfterOperatorFee gross fee = some net) : gross = net + fee ∧ 0 < net := by
  simpa [netAmountAfterOperatorFee] using h

theorem swapNativeInput_cases (happlicable : p.feeApplicable taker = true)
    (hnative : (p.tradeAssets input).1 = .native)
    (h : swapNativeInput taker p input = .ok (take, make)) : TradeCase p taker input take make := by
  unfold swapNativeInput at h
  dsimp only at h
  split at h
  case h_1 net pending hnet hpending =>
    obtain ⟨inner, hswap, h⟩ := bind_eq_ok.1 h
    obtain ⟨next, htrade, h⟩ := bind_eq_ok.1 h
    cases h
    obtain ⟨-, rfl⟩ := checkedAdd_eq_some.1 hpending
    obtain ⟨hnet, hpos⟩ := netAmountAfterOperatorFee_eq_some hnet
    exact .feeOnInput happlicable hnative hnet hpos hswap htrade
  case h_2 =>
    cases h
    exact .none happlicable

theorem swapNativeOutput_cases (happlicable : p.feeApplicable taker = true)
    (hother : (p.tradeAssets input).1 ≠ .native) (hnative : (p.tradeAssets input).2 = .native)
    (h : swapNativeOutput taker p input = .ok (take, make)) : TradeCase p taker input take make := by
  unfold swapNativeOutput at h
  obtain ⟨inner, hswap, h⟩ := bind_eq_ok.1 h
  dsimp only at h
  split at h
  case h_1 net pending hnet hpending =>
    obtain ⟨next, htrade, h⟩ := bind_eq_ok.1 h
    cases h
    obtain ⟨-, rfl⟩ := checkedAdd_eq_some.1 hpending
    obtain ⟨hnet, hpos⟩ := netAmountAfterOperatorFee_eq_some hnet
    exact .feeOnOutput happlicable hother hnative hswap hnet hpos htrade
  case h_2 =>
    cases h
    exact .none happlicable

theorem swapWithTaker_cases (h : swapWithTaker taker p input = .ok (take, make)) :
    TradeCase p taker input take make := by
  unfold swapWithTaker at h
  by_cases happlicable : p.feeApplicable taker = true
  · rw [if_pos happlicable] at h
    by_cases hin : (p.tradeAssets input).1 = .native
    · rw [if_pos hin] at h
      exact swapNativeInput_cases happlicable hin h
    · rw [if_neg hin] at h
      by_cases hout : (p.tradeAssets input).2 = .native
      · rw [if_pos hout] at h
        exact swapNativeOutput_cases happlicable hin hout h
      · rw [if_neg hout] at h
        cases h
        exact .none happlicable
  · rw [if_neg happlicable, defaultSwapWithTaker] at h
    obtain ⟨next, hnext, h⟩ := bind_eq_ok.1 h
    obtain ⟨inner, hswap, hret⟩ := bind_eq_ok.1 hnext
    cases hret
    obtain ⟨nextTaker, htrade, h⟩ := bind_eq_ok.1 h
    cases h
    exact .plain (Bool.eq_false_iff.2 happlicable) hswap htrade

end TradeCase

instance : LawfulMaker ClassifiedPool where
  swapWithTaker_target h := by
    cases swapWithTaker_cases h with
    | none => exact ⟨rfl, rfl, rfl⟩
    | plain _ hswap => exact ⟨rfl, rfl, (AnyPool.swap_spec hswap).1⟩
    | feeOnInput _ _ _ _ hswap => exact ⟨rfl, rfl, (AnyPool.swap_spec hswap).1⟩
    | feeOnOutput _ _ _ hswap => exact ⟨rfl, rfl, (AnyPool.swap_spec hswap).1⟩
  swapWithTaker_fill h := by
    cases swapWithTaker_cases h with
    | none => exact .inl ⟨rfl, rfl⟩
    | plain _ _ htrade => exact .inr ⟨_, htrade⟩
    | feeOnInput _ _ _ _ _ htrade => exact .inr ⟨_, htrade⟩
    | feeOnOutput _ _ _ _ _ _ htrade => exact .inr ⟨_, htrade⟩

end ClassifiedPool

end Splash.Cardano
