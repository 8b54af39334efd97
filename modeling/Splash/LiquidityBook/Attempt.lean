import Splash.Lib.Loop
import Splash.LiquidityBook.Core
import Splash.LiquidityBook.State

/-!
# The time-aware liquidity book

`attempt` collects fills into a batch until nothing matches any more or the batch is full, and
turns the batch into a recipe. Takers left with too little are stashed and the attempt is repeated
without them; a recipe that is too complex for its budget is repeated without optimization. One
iteration of the matching loop, or one conclusion of a batch, is a step of `attemptStep`.
-/

namespace Splash.LiquidityBook

open Lib MarketTaker TakerBehaviour

variable {T M I J U : Type} [MarketTaker T U] [TakerBehaviour T] [FrontierOrd T] [LinearOrder I]
  [LinearOrder J] [Stable T I] [Stable M J] [MarketMaker M U] [MakerBehavior M]
  [Zero U] [Add U] [LT U] [DecidableLT U]

/-! ## Matching two takers -/

def maxBiasPercent : ℚ≥0 := (3 : ℕ)

def clamp {α : Type} [LinearOrder α] (value low high : α) : α :=
  if low ≤ value ∧ value ≤ high then value else if value < low then low else high

/-- Settles the execution price of two interleaving takers: the index price, moved in
favour of the taker that pays more fees and kept between the two limits. -/
def settlePrice (ask bid : T) (indexPrice : Option AbsolutePrice) : AbsolutePrice :=
  let priceAsk := price ask
  let priceBid := price bid
  let pivotalPrice := (indexPrice.map (clamp · priceAsk priceBid)).getD
    (priceAsk + (priceBid - priceAsk) / (2 : ℕ))
  let feeAsk : ℤ := fee ask
  let feeBid : ℤ := fee bid
  let biasPercent : ℤ :=
    if feeAsk < feeBid then (-feeAsk * 100).tdiv feeBid else (feeBid * 100).tdiv feeAsk
  let maxDeviation : ℚ≥0 := pivotalPrice * (maxBiasPercent / (100 : ℕ))
  let deviation : ℚ := maxDeviation * (biasPercent / (100 : ℕ))
  let correctedPrice : ℚ≥0 := ((pivotalPrice : ℚ) + deviation).toNNRat
  clamp correctedPrice priceAsk priceBid

def linearOutputUnsafe (input : ℕ) (price : OnSide AbsolutePrice) : Exec ℕ :=
  match price with
  | .bid p =>
    if p.num = 0 then .error .divisionByZero
    else if input * p.den / p.num ≤ u64Max then .ok (input * p.den / p.num) else .error .overflow
  | .ask p =>
    if input * p.num / p.den ≤ u64Max then .ok (input * p.num / p.den) else .error .overflow

def matchVolumes (ask bid : T) (price : AbsolutePrice) : Exec (ℕ × ℕ) := do
  let quoteInput := input bid
  let demandBase ← linearOutputUnsafe quoteInput (.bid price)
  let supplyBase := input ask
  if demandBase < supplyBase then return (demandBase, quoteInput)
  else if supplyBase < demandBase then
    let quoteExecuted ← linearOutputUnsafe supplyBase (.ask price)
    return (supplyBase, quoteExecuted)
  else return (demandBase, quoteInput)

def executeWithTaker (targetTaker counterTaker : T) (matchmaker : T → T → AbsolutePrice) :
    Exec (TakeInProgress T × TakeInProgress T) := do
  let (ask, bid) := match side targetTaker with
    | .ask => (targetTaker, counterTaker)
    | .bid => (counterTaker, targetTaker)
  let (base, quote) ← matchVolumes ask bid (matchmaker ask bid)
  let nextAsk ← withAppliedTrade ask base quote
  let nextBid ← withAppliedTrade bid quote base
  return (⟨ask, nextAsk⟩, ⟨bid, nextBid⟩)

/-! ## The matching loop -/

structure Matching (T M I J U : Type) [MarketTaker T U] [FrontierOrd T] [LinearOrder I]
    [LinearOrder J] [Stable M J] where
  book : TLBState T M J
  batch : MatchmakingAttempt T M I J U
  optimized : Bool

namespace TLBState

def onTake (next : Next T TerminalTake) (book : TLBState T M J) : TLBState T M J :=
  match next with
  | .succ taker => book.preAddTaker taker
  | .term _ => book

def onMake (next : M) (book : TLBState T M J) : TLBState T M J := book.preAddMaker next

end TLBState

def maxTakes : ℕ := 15

section

variable (ord : HashOrder) (conf : ExecutionConfig U) (s : Matching T M I J U)

def MatchmakingAttempt.hasRoom (limit : ℕ) (batch : MatchmakingAttempt T M I J U) : Bool :=
  batch.executionUnitsConsumed < conf.executionCap.soft ∧ batch.numTakes < limit

/-- Is another taker a better counterparty than the preselected maker. -/
def prefersTaker (targetPrice : OnSide AbsolutePrice) (counterTaker : Option (OnSide AbsolutePrice))
    (maker : Option (J × FillPreview)) : Bool :=
  match counterTaker with
  | none => false
  | some priceCounterTaker =>
    conf.o2oAllowed && targetPrice.overlaps priceCounterTaker.unwrap &&
      (maker.map fun m => priceCounterTaker.betterThan m.2.price).getD false

section

variable (book : TLBState T M J) (spotPrice : AbsolutePrice) (target : T)

def fillFromTaker : Exec (Iter (Matching T M I J U) (TLBState T M J)) := do
  match book.tryPickTaker (side target).not with
  | none => return .done book
  | some (counter, book) =>
    let (takeA, takeB) ← executeWithTaker target counter
      fun ask bid => settlePrice ask bid (some spotPrice)
    return .again
      { s with
        book := (book.onTake takeA.result).onTake takeB.result
        batch := (s.batch.addTake takeA).addTake takeB }

def fillFromMaker (makerSid : J) (chunk : ℕ) :
    Exec (Iter (Matching T M I J U) (TLBState T M J)) := do
  match book.pickMakerById makerSid with
  | (none, book) => return .done book
  | (some maker, book) =>
    let (take, make) ← MakerBehavior.swapWithTaker target maker ((side target).wrap chunk)
    return .again
      { s with
        book := (book.onTake take.result).onMake make.result
        batch := (s.batch.addMake make).addTake take }

/-- Fills the picked taker, or puts it back and leaves the loop. -/
def fillTarget : Exec (Iter (Matching T M I J U) (TLBState T M J)) := do
  let targetPrice := (side target).wrap (price target)
  let counterTaker := book.bestTakerPrice (side target).not
  let maker ← book.preselectMarketMaker ord (price target) (input target) (side target)
    s.optimized target
  if prefersTaker conf targetPrice counterTaker maker then
    fillFromTaker s book spotPrice target
  else
    match maker with
    | some (makerSid, preview) =>
      if targetPrice.overlaps preview.price then fillFromMaker s book target makerSid preview.input
      else return .done (book.preAddTaker target)
    | none => return .done (book.preAddTaker target)

end

def matchStep : Exec (Iter (Matching T M I J U) (TLBState T M J)) := do
  match s.book.bestMarketMaker ord with
  -- the spot price is not available
  | none => return .done s.book
  | some best =>
    let spotPrice ← MarketMaker.staticPrice best
    match ← s.book.pickBestTaker spotPrice with
    | none => return .done s.book
    | some (target, book) => fillTarget ord conf s book spotPrice target

/-! ## Attempts -/

/-- What comes after the matching loop: a recipe, a failure or another round. -/
def conclude (book : TLBState T M J) :
    Exec (Iter (Matching T M I J U) (Option (MatchmakingRecipe T M) × TLBState T M J)) := do
  match ← MatchmakingRecipe.tryFrom ord conf s.batch with
  | .recipe recipe => return .done (some recipe, book)
  | .failed => return .done (none, book.rollback .unstash)
  | .dissatisfied takers => return .again ⟨book.rollback (.stash takers), .empty, s.optimized⟩
  | .downgradeNeeded => return .again ⟨book.rollback (.stash []), .empty, false⟩

def attemptStep :
    Exec (Iter (Matching T M I J U) (Option (MatchmakingRecipe T M) × TLBState T M J)) := do
  if s.batch.hasRoom conf maxTakes then
    match ← matchStep ord conf s with
    | .again s' => return .again s'
    | .done book => conclude ord conf s book
  else conclude ord conf s s.book

end

namespace TLBState

section

variable (ord : HashOrder) (conf : ExecutionConfig U) (book : TLBState T M J)
  (recipe : Option (MatchmakingRecipe T M)) (after : TLBState T M J)

def beginAttempt : Matching T M I J U := ⟨book, .empty, true⟩

/-- `attempt` of the book returns the given recipe, or none, and leaves the book in state `after`. -/
def Attempt : Prop :=
  Loop.Returns (attemptStep (I := I) ord conf) book.beginAttempt (recipe, after)

/-! ## Feedback and external events -/

def onRecipeSucceeded : TLBState T M J := book.commit

def onRecipeFailed : TLBState T M J := book.rollback .unstash

end

/-- External mutations are applied to an idle book only. -/
def requiringSettledState (f : IdleState T M J → IdleState T M J) :
    TLBState T M J → Exec (TLBState T M J)
  | .idle st => .ok (.idle (f st))
  | _ => .error (.explicit "PartialPreview|Preview state cannot be externally mutated")

def updateTaker (t : T) : TLBState T M J → Exec (TLBState T M J) :=
  requiringSettledState fun st => { st with takers := st.takers.addFragment t }

def removeTaker (t : T) : TLBState T M J → Exec (TLBState T M J) :=
  requiringSettledState fun st => { st with takers := st.takers.removeFragment t }

def updateMaker (m : M) : TLBState T M J → Exec (TLBState T M J) :=
  requiringSettledState fun st => { st with makers := st.makers.updatePool m }

def removeMaker (m : M) : TLBState T M J → Exec (TLBState T M J) :=
  requiringSettledState fun st => { st with makers := st.makers.removePool m }

end TLBState

end Splash.LiquidityBook
