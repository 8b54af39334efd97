import Splash.Cardano.Assets
import Splash.LiquidityBook.Laws

/-!
# Orders

The takers of the order book agent. A limit order can be executed at its price or a better one; a
grid order trades back and forth and moves its price each time one of its reserves is used up.

* `LimitOrder.withAppliedTrade_spec` — a limit order books trades exactly.
* `LawfulTaker AnyOrder`, `LawfulOrd AnyOrder`, `ExactTaker AnyOrder` — what the book relies on.
-/

namespace Splash.Cardano

open Lib LiquidityBook Exec

/-! ## The order of takers -/

section TakerCmp

variable {T I U : Type} [MarketTaker T U] [Stable T I] [LinearOrder I] [LinearOrder U]

/-- Cheaper asks and dearer bids come first. -/
def comparePrices : Side → AbsolutePrice → AbsolutePrice → Ordering
  | .bid, p, q => compare q p
  | .ask, p, q => compare p q

/-- By fee, and by cost the other way round. -/
def compareWeights (a b : ℕ × U) : Ordering := (compare a.1 b.1).then (compare b.2 a.2)

/-- By price, weight and identifier. -/
def compareTakers (s : Side) (a b : T) : Ordering :=
  ((comparePrices s (MarketTaker.price a) (MarketTaker.price b)).then
    (compareWeights (MarketTaker.fee a, MarketTaker.marginalCostHint a)
      (MarketTaker.fee b, MarketTaker.marginalCostHint b))).then
    (compare (stableId a) (stableId b))

open Std in
instance (s : Side) : TransCmp (compareTakers (T := T) s) := by
  have hprice : TransCmp fun a b : T =>
      comparePrices s (MarketTaker.price a) (MarketTaker.price b) := by
    cases s with
    | bid => exact inferInstanceAs (TransCmp fun a b : T => compareOn MarketTaker.price b a)
    | ask => exact inferInstanceAs (TransCmp (compareOn (MarketTaker.price : T → _)))
  exact inferInstanceAs (TransCmp (compareLex (compareLex
    (fun a b : T => comparePrices s (MarketTaker.price a) (MarketTaker.price b))
    (compareLex (compareOn MarketTaker.fee) fun a b => compareOn MarketTaker.marginalCostHint b a))
    (compareOn stableId)))

theorem stableId_of_compareTakers {s : Side} {a b : T} (h : compareTakers s a b = .eq) :
    stableId b = stableId a :=
  (compare_eq_iff_eq.1 (Ordering.then_eq_eq.1 h).2).symm

end TakerCmp

/-! ## Limit orders -/

/-- Composable limit order. Can be executed at a configured or better price as long as there is
enough budget. -/
structure LimitOrder where
  /-- Identifier of the order. -/
  beacon : ℕ
  /-- What the user pays. -/
  inputAsset : AssetClass
  /-- Remaining tradable input. -/
  inputAmount : ℕ
  /-- What the user receives. -/
  outputAsset : AssetClass
  /-- Accumulated output. -/
  outputAmount : ℕ
  /-- Worst acceptable price (Output/Input). -/
  basePrice : ℚ≥0
  /-- Remaining lovelace to facilitate execution. -/
  executionBudget : ℕ
  /-- Fee reserved for the whole swap. -/
  fee : ℕ
  /-- Assumed cost (in lovelace) of one step of execution. -/
  maxCostPerExStep : ℕ
  /-- Minimal marginal output allowed per execution step. -/
  minMarginalOutput : ℕ
  /-- How many execution units each order consumes. -/
  marginalCost : ExUnits
  deriving DecidableEq

/-- The price of an order relative to its pair; the price of a bid is inverted. -/
def absolutePrice (s : Side) (price : ℚ≥0) : AbsolutePrice :=
  match s with
  | .bid => price⁻¹
  | .ask => price

/-- A budget moved by `delta`, not below zero, and by how much it moved. -/
def correctedBudget (budget : ℕ) (delta : ℤ) : ℤ × ℕ :=
  let updated := max ((budget : ℤ) + delta) 0
  (updated - budget, updated.toNat)

variable {removed added : ℕ}

namespace LimitOrder

variable (o : LimitOrder)

/-- The order as it ends. -/
def terminal : TerminalTake where
  remainingInput := o.inputAmount
  accumulatedOutput := o.outputAmount
  remainingBudget := o.executionBudget
  remainingFee := o.fee

def withAppliedTrade (removedInput addedOutput : ℕ) :
    Exec (Next LimitOrder TerminalTake) := do
  let inputAmount ← subU64 o.inputAmount removedInput
  let outputAmount ← addU64 o.outputAmount addedOutput
  let o := { o with inputAmount, outputAmount }
  if inputAmount = 0 then return .term o.terminal else return .succ o

def withBudgetCorrected (delta : ℤ) : ℤ × LimitOrder :=
  let (realDelta, executionBudget) := correctedBudget o.executionBudget delta
  (realDelta, { o with executionBudget })

def withFeeCharged (fee : ℕ) : Exec LimitOrder := do
  let fee ← subU64 o.fee fee
  return { o with fee }

def withOutputAdded (addedOutput : ℕ) : Exec LimitOrder := do
  let outputAmount ← addU64 o.outputAmount addedOutput
  return { o with outputAmount }

def tryTerminate : Next LimitOrder TerminalTake :=
  if o.executionBudget < o.maxCostPerExStep then .term o.terminal else .succ o

def side : Side := sideOf o.inputAsset o.outputAsset

def operatorFee (inputConsumed : ℕ) : ℕ :=
  min (o.fee * inputConsumed) u64Max / o.inputAmount

instance : Stable LimitOrder Token where
  stableId o := ⟨o.beacon, Token.zeroName⟩
  isQuasiPermanent _ := false

instance : MarketTaker LimitOrder ExUnits where
  side := side
  input := inputAmount
  output := outputAmount
  price o := absolutePrice o.side o.basePrice
  operatorFee := operatorFee
  fee := fee
  consumableBudget := maxCostPerExStep
  marginalCostHint := marginalCost
  minMarginalOutput := minMarginalOutput
  timeBounds _ := .none

instance : TakerBehaviour LimitOrder where
  withAppliedTrade := withAppliedTrade
  withBudgetCorrected := withBudgetCorrected
  withFeeCharged := withFeeCharged
  withOutputAdded := withOutputAdded
  tryTerminate := tryTerminate
  graduatedSplashFeeEligible _ := false

variable {next : Next LimitOrder TerminalTake} {o : LimitOrder}

/-- A trade takes from the input and adds to the output; the order ends when its input is used
up. -/
theorem withAppliedTrade_spec (h : o.withAppliedTrade removed added = .ok next) :
    ∃ o', o' = { o with
        inputAmount := o.inputAmount - removed, outputAmount := o.outputAmount + added } ∧
      removed ≤ o.inputAmount ∧
      ((o'.inputAmount = 0 ∧ next = .term o'.terminal) ∨ (o'.inputAmount ≠ 0 ∧ next = .succ o')) := by
  unfold withAppliedTrade at h
  obtain ⟨i, hi, h⟩ := bind_eq_ok.1 h
  obtain ⟨a, ha, h⟩ := bind_eq_ok.1 h
  obtain rfl : i = o.inputAmount - removed := by
    have := subU64_eq_ok.1 hi
    omega
  obtain ⟨-, rfl⟩ := addU64_eq_ok.1 ha
  refine ⟨_, rfl, by have := subU64_eq_ok.1 hi; omega, ?_⟩
  dsimp only at h
  split at h
  case isTrue hzero =>
    cases h
    exact .inl ⟨hzero, rfl⟩
  case isFalse hpos =>
    cases h
    exact .inr ⟨hpos, rfl⟩

theorem booked (h : o.withAppliedTrade removed added = .ok next) :
    Booked (fun _ => True) o removed added next := by
  obtain ⟨o', rfl, hle, ⟨-, rfl⟩ | ⟨-, rfl⟩⟩ := withAppliedTrade_spec h
  · exact ⟨(Nat.sub_add_cancel hle).symm, rfl, fun hnext => by cases hnext⟩
  · refine ⟨(Nat.sub_add_cancel hle).symm, rfl, fun hnext => ?_⟩
    cases hnext
    exact ⟨trivial, rfl, rfl⟩

/-- Finalization adds to the output; the order ends when its budget is used up. -/
theorem close_booked (delta : ℤ) {o₁ o₂ : LimitOrder} {added fee : ℕ}
    (h₁ : o.withOutputAdded added = .ok o₁) (h₂ : o₁.withFeeCharged fee = .ok o₂) :
    Booked (fun _ => True) o 0 added (o₂.withBudgetCorrected delta).2.tryTerminate := by
  obtain ⟨amount, hamount, h₁⟩ := bind_eq_ok.1 h₁
  obtain ⟨-, rfl⟩ := addU64_eq_ok.1 hamount
  cases h₁
  obtain ⟨rest, -, h₂⟩ := bind_eq_ok.1 h₂
  cases h₂
  unfold tryTerminate
  split
  · exact ⟨rfl, rfl, fun hnext => by cases hnext⟩
  · refine ⟨rfl, rfl, fun hnext => ?_⟩
    cases hnext
    exact ⟨trivial, rfl, rfl⟩

end LimitOrder

/-! ## Grid orders -/

structure GridOrder where
  beacon : ℕ
  baseAsset : AssetClass
  quoteAsset : AssetClass
  buyShiftFactor : ℚ≥0
  sellShiftFactor : ℚ≥0
  baseReserves : ℕ
  quoteReserves : ℕ
  quoteOffer : ℕ
  price : ℚ≥0
  /-- Side relative to the order. It may differ from the side in the book. -/
  relativeSide : Side
  /-- Minimal marginal output of base asset allowed per execution step. -/
  minMarginalOutputBase : ℕ
  /-- Lovelace allowed to be utilized at once to cover the fee of a transaction. -/
  maxExecutionBudgetPerStep : ℕ
  remainingExecutionBudget : ℕ
  /-- How many execution units each order consumes. -/
  marginalCost : ExUnits
  deriving DecidableEq

variable {next : Next GridOrder TerminalTake} {o : GridOrder}

namespace GridOrder

section

variable (o : GridOrder) (removedInput addedOutput : ℕ)

def relativeIo : AssetClass × AssetClass :=
  match o.relativeSide with
  | .bid => (o.quoteAsset, o.baseAsset)
  | .ask => (o.baseAsset, o.quoteAsset)

def side : Side := sideOf o.relativeIo.1 o.relativeIo.2

/-- A trade takes from the quote reserves and adds to the base reserves. -/
def sellsQuote : Bool :=
  if o.relativeSide = o.side then o.relativeSide = .bid else o.relativeSide = .ask

/-- The reserves after a trade. The offer of the other asset is not tracked: in its place the source
moves a counter that starts at the greatest amount, wraps around and is thrown away. -/
def withReserves : Exec GridOrder := do
  if o.sellsQuote then
    let quoteReserves ← subU64 o.quoteReserves removedInput
    let baseReserves ← addU64 o.baseReserves addedOutput
    let quoteOffer ← addU64 o.quoteOffer addedOutput
    return { o with quoteReserves, baseReserves, quoteOffer }
  else
    let baseReserves ← subU64 o.baseReserves removedInput
    let quoteOffer ← subU64 o.quoteOffer removedInput
    let quoteReserves ← addU64 o.quoteReserves addedOutput
    return { o with baseReserves, quoteOffer, quoteReserves }

/-- Turns to the other side when there is nothing left to sell on this one. -/
def turned : GridOrder :=
  match o.relativeSide with
  | .bid =>
    if o.quoteReserves = 0 then
      { o with relativeSide := .ask, price := o.price * o.buyShiftFactor }
    else o
  | .ask =>
    if o.quoteOffer = 0 then
      { o with relativeSide := .bid, price := o.price * o.sellShiftFactor }
    else o

def withAppliedTrade : Exec (Next GridOrder TerminalTake) := do
  let o ← o.withReserves removedInput addedOutput
  let remainingExecutionBudget ← subU64 o.remainingExecutionBudget o.maxExecutionBudgetPerStep
  return .succ ({ o with remainingExecutionBudget } : GridOrder).turned

def withBudgetCorrected (delta : ℤ) : ℤ × GridOrder :=
  let (realDelta, remainingExecutionBudget) := correctedBudget o.remainingExecutionBudget delta
  (realDelta, { o with remainingExecutionBudget })

def withOutputAdded (addedOutput : ℕ) : Exec GridOrder := do
  if o.sellsQuote then
    let baseReserves ← addU64 o.baseReserves addedOutput
    let quoteOffer ← addU64 o.quoteOffer addedOutput
    return { o with baseReserves, quoteOffer }
  else
    let quoteReserves ← addU64 o.quoteReserves addedOutput
    return { o with quoteReserves }

def input : ℕ :=
  match o.relativeSide with
  | .bid => o.quoteOffer
  | .ask => o.baseReserves

def output : ℕ :=
  match o.relativeSide with
  | .ask => o.quoteReserves
  | .bid => o.baseReserves

def pairPrice : AbsolutePrice :=
  if o.relativeSide = o.side then o.price else o.price⁻¹

end

instance : Stable GridOrder Token where
  stableId o := ⟨o.beacon, Token.zeroName⟩
  isQuasiPermanent _ := false

instance : MarketTaker GridOrder ExUnits where
  side := side
  input := input
  output := output
  price := pairPrice
  operatorFee _ _ := 0
  fee _ := 0
  consumableBudget := maxExecutionBudgetPerStep
  marginalCostHint := marginalCost
  minMarginalOutput := minMarginalOutputBase
  timeBounds _ := .none

instance : TakerBehaviour GridOrder where
  withAppliedTrade := withAppliedTrade
  withBudgetCorrected := withBudgetCorrected
  withFeeCharged o _ := .ok o
  withOutputAdded := withOutputAdded
  tryTerminate := .succ
  graduatedSplashFeeEligible _ := false

theorem stableId_withAppliedTrade (h : o.withAppliedTrade removed added = .ok next) :
    ∃ o', next = .succ o' ∧ o'.beacon = o.beacon := by
  unfold withAppliedTrade withReserves at h
  obtain ⟨o₁, ho₁, h⟩ := bind_eq_ok.1 h
  obtain ⟨budget, -, h⟩ := bind_eq_ok.1 h
  cases h
  refine ⟨_, rfl, ?_⟩
  have hbeacon : o₁.beacon = o.beacon := by
    split at ho₁
    all_goals
      obtain ⟨a, -, ho₁⟩ := bind_eq_ok.1 ho₁
      obtain ⟨b, -, ho₁⟩ := bind_eq_ok.1 ho₁
      obtain ⟨c, -, ho₁⟩ := bind_eq_ok.1 ho₁
      cases ho₁
      rfl
  unfold turned
  dsimp only
  split <;> split <;> exact hbeacon

/-- An order that offers its base asset, more of it than it holds, and is an ask of the book. A trade
of such an order leaves it on its side. -/
def Selling (o : GridOrder) : Prop :=
  o.relativeSide = .ask ∧ o.side = .ask ∧ o.baseReserves < o.quoteOffer

instance (o : GridOrder) : Decidable o.Selling := inferInstanceAs (Decidable (_ ∧ _ ∧ _))

section

variable (hselling : o.Selling) (h : o.withAppliedTrade removed added = .ok next)
include hselling h

theorem withAppliedTrade_selling : ∃ budget, removed ≤ o.baseReserves ∧ next = .succ
      { o with
        baseReserves := o.baseReserves - removed
        quoteOffer := o.quoteOffer - removed
        quoteReserves := o.quoteReserves + added
        remainingExecutionBudget := budget } := by
  obtain ⟨hrelative, hside, hoffer⟩ := hselling
  have hsells : o.sellsQuote = false := by simp [sellsQuote, hrelative, hside]
  unfold withAppliedTrade withReserves at h
  obtain ⟨o₁, ho₁, h⟩ := bind_eq_ok.1 h
  obtain ⟨budget, -, h⟩ := bind_eq_ok.1 h
  rw [hsells] at ho₁
  obtain ⟨base, hbase, ho₁⟩ := bind_eq_ok.1 ho₁
  obtain ⟨offer, hnewOffer, ho₁⟩ := bind_eq_ok.1 ho₁
  obtain ⟨quote, hquote, ho₁⟩ := bind_eq_ok.1 ho₁
  have hbase := subU64_eq_ok.1 hbase
  have hnewOffer := subU64_eq_ok.1 hnewOffer
  obtain ⟨-, rfl⟩ := addU64_eq_ok.1 hquote
  obtain rfl : base = o.baseReserves - removed := by omega
  obtain rfl : offer = o.quoteOffer - removed := by omega
  cases ho₁
  cases h
  refine ⟨budget, by omega, congrArg Next.succ ?_⟩
  -- something is left of the offer, so the order does not turn
  unfold turned
  simp only [hrelative]
  rw [if_neg (by omega)]

theorem booked : Booked Selling o removed added next := by
  obtain ⟨budget, hle, rfl⟩ := withAppliedTrade_selling hselling h
  obtain ⟨hrelative, hside, hoffer⟩ := hselling
  refine ⟨?_, ?_, fun hnext => ?_⟩
  · simp only [MarketTaker.input, input, TakeInProgress.remainingInput, hrelative]
    omega
  · simp only [MarketTaker.output, output, TakeInProgress.accumulatedOutput, hrelative]
  · cases hnext
    exact ⟨⟨hrelative, hside, by dsimp only; omega⟩, rfl, rfl⟩

end

theorem close_booked (delta : ℤ) {o o₁ : GridOrder} {added : ℕ} (hselling : o.Selling)
    (h : o.withOutputAdded added = .ok o₁) :
    Booked Selling o 0 added (.succ (o₁.withBudgetCorrected delta).2) := by
  obtain ⟨hrelative, hside, hoffer⟩ := hselling
  have hsells : o.sellsQuote = false := by simp [sellsQuote, hrelative, hside]
  unfold withOutputAdded at h
  rw [hsells] at h
  obtain ⟨quote, hquote, h⟩ := bind_eq_ok.1 h
  cases h
  obtain ⟨-, rfl⟩ := addU64_eq_ok.1 hquote
  refine ⟨?_, ?_, fun hnext => ?_⟩
  · simp only [MarketTaker.input, input, TakeInProgress.remainingInput, hrelative,
      withBudgetCorrected, add_zero]
  · simp only [MarketTaker.output, output, TakeInProgress.accumulatedOutput, hrelative,
      withBudgetCorrected]
  · cases hnext
    exact ⟨⟨hrelative, hside, hoffer⟩, rfl, rfl⟩

end GridOrder

/-! ## Orders of the book -/

inductive AnyOrder where
  | limit (o : LimitOrder)
  | grid (o : GridOrder)
  deriving DecidableEq

namespace AnyOrder

instance : Stable AnyOrder Token where
  stableId
    | .limit o => stableId o
    | .grid o => stableId o
  isQuasiPermanent
    | .limit o => Stable.isQuasiPermanent o
    | .grid o => Stable.isQuasiPermanent o

open MarketTaker in
instance : MarketTaker AnyOrder ExUnits where
  side
    | .limit o => side o
    | .grid o => side o
  input
    | .limit o => input o
    | .grid o => input o
  output
    | .limit o => output o
    | .grid o => output o
  price
    | .limit o => price o
    | .grid o => price o
  operatorFee
    | .limit o => operatorFee o
    | .grid o => operatorFee o
  fee
    | .limit o => fee o
    | .grid o => fee o
  consumableBudget
    | .limit o => consumableBudget o
    | .grid o => consumableBudget o
  marginalCostHint
    | .limit o => marginalCostHint o
    | .grid o => marginalCostHint o
  minMarginalOutput
    | .limit o => minMarginalOutput o
    | .grid o => minMarginalOutput o
  timeBounds
    | .limit o => timeBounds o
    | .grid o => timeBounds o

open TakerBehaviour in
instance : TakerBehaviour AnyOrder where
  withAppliedTrade
    | .limit o, removed, added => return (← withAppliedTrade o removed added).mapSucc .limit
    | .grid o, removed, added => return (← withAppliedTrade o removed added).mapSucc .grid
  withBudgetCorrected
    | .limit o, delta => (withBudgetCorrected o delta).map id .limit
    | .grid o, delta => (withBudgetCorrected o delta).map id .grid
  withFeeCharged
    | .limit o, fee => return .limit (← withFeeCharged o fee)
    | .grid o, fee => return .grid (← withFeeCharged o fee)
  withOutputAdded
    | .limit o, added => return .limit (← withOutputAdded o added)
    | .grid o, added => return .grid (← withOutputAdded o added)
  tryTerminate
    | .limit o => (tryTerminate o).mapSucc .limit
    | .grid o => (tryTerminate o).mapSucc .grid
  graduatedSplashFeeEligible
    | .limit _ => true
    | .grid _ => false

/-- Limit orders come before grid orders. -/
def cmp (s : Side) : AnyOrder → AnyOrder → Ordering
  | .limit a, .limit b => compareTakers s a b
  | .grid a, .grid b => compareTakers s a b
  | .limit _, .grid _ => .lt
  | .grid _, .limit _ => .gt

def kind : AnyOrder → ℕ
  | .limit _ => 0
  | .grid _ => 1

theorem cmp_eq (s : Side) : cmp s = compareLex (compareOn kind) (compareTakers s) := by
  funext a b
  cases a <;> cases b <;> rfl

instance : FrontierOrd AnyOrder where
  cmp := cmp
  trans s := cmp_eq s ▸ inferInstance

instance : LawfulOrd AnyOrder where
  stableId_of_cmp {s a b} h := by
    change cmp s a b = .eq at h
    rw [cmp_eq] at h
    exact stableId_of_compareTakers (Ordering.then_eq_eq.1 h).2

/-- The successor of a limit order is the limit order, and of a grid order the grid order, after
the trade. -/
theorem withAppliedTrade_cases {o : AnyOrder} {next : Next AnyOrder TerminalTake}
    (h : TakerBehaviour.withAppliedTrade o removed added = .ok next) :
    (∃ l next', o = .limit l ∧ l.withAppliedTrade removed added = .ok next' ∧
        next = next'.mapSucc .limit) ∨
      ∃ g next', o = .grid g ∧ g.withAppliedTrade removed added = .ok next' ∧
        next = next'.mapSucc .grid := by
  cases o with
  | limit l =>
    obtain ⟨next', hl, h⟩ := bind_eq_ok.1 h
    exact .inl ⟨l, next', rfl, hl, (pure_eq_ok.1 h).symm⟩
  | grid g =>
    obtain ⟨next', hg, h⟩ := bind_eq_ok.1 h
    exact .inr ⟨g, next', rfl, hg, (pure_eq_ok.1 h).symm⟩

instance : LawfulTaker AnyOrder where
  stableId_withAppliedTrade {t t' removed added} h := by
    rcases withAppliedTrade_cases h with ⟨l, next, rfl, hl, hnext⟩ | ⟨g, next, rfl, hg, hnext⟩
    · obtain ⟨o', rfl, -, ⟨-, rfl⟩ | ⟨-, rfl⟩⟩ := LimitOrder.withAppliedTrade_spec hl
      · cases hnext
      · cases hnext
        rfl
    · obtain ⟨o', rfl, hbeacon⟩ := GridOrder.stableId_withAppliedTrade hg
      cases hnext
      exact congrArg (Token.mk · Token.zeroName) hbeacon

/-- Limit orders, and grid orders as long as they sell. -/
def IsExact : AnyOrder → Prop
  | .limit _ => True
  | .grid o => o.Selling

instance : DecidablePred IsExact
  | .limit _ => inferInstanceAs (Decidable True)
  | .grid o => inferInstanceAs (Decidable o.Selling)

theorem booked_limit {o : LimitOrder} {next : Next LimitOrder TerminalTake}
    (h : Booked (fun _ => True) o removed added next) :
    Booked IsExact (.limit o) removed added (next.mapSucc .limit) := by
  cases next with
  | succ o' =>
    refine ⟨h.input_eq, h.output_eq, fun hnext => ?_⟩
    cases hnext
    obtain ⟨-, hside, hprice⟩ := h.succ rfl
    exact ⟨trivial, hside, hprice⟩
  | term t => exact ⟨h.input_eq, h.output_eq, fun hnext => by cases hnext⟩

theorem booked_grid (h : Booked GridOrder.Selling o removed added next) :
    Booked IsExact (.grid o) removed added (next.mapSucc .grid) := by
  cases next with
  | succ o' =>
    refine ⟨h.input_eq, h.output_eq, fun hnext => ?_⟩
    cases hnext
    exact h.succ rfl
  | term t => exact ⟨h.input_eq, h.output_eq, fun hnext => by cases hnext⟩

instance : ExactTaker AnyOrder where
  Exact := IsExact
  trade {t removed added next} ht h := by
    rcases withAppliedTrade_cases h with ⟨l, next', rfl, hl, rfl⟩ | ⟨g, next', rfl, hg, rfl⟩
    · exact booked_limit (LimitOrder.booked hl)
    · exact booked_grid (GridOrder.booked ht hg)
  close delta {t t₁ t₂ added fee} ht h₁ h₂ := by
    cases t with
    | limit o =>
      obtain ⟨o₁, ho₁, h₁⟩ := bind_eq_ok.1 h₁
      cases h₁
      obtain ⟨o₂, ho₂, h₂⟩ := bind_eq_ok.1 h₂
      cases h₂
      exact booked_limit (LimitOrder.close_booked delta ho₁ ho₂)
    | grid o =>
      obtain ⟨o₁, ho₁, h₁⟩ := bind_eq_ok.1 h₁
      cases h₁
      obtain ⟨o₂, ho₂, h₂⟩ := bind_eq_ok.1 h₂
      cases h₂
      cases ho₂
      exact booked_grid (GridOrder.close_booked delta ht ho₁)

end AnyOrder

end Splash.Cardano
