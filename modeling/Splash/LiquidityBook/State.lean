import Splash.LiquidityBook.Frontier

/-!
# State of the book

The idea of the state automaton is to minimize the overhead of maintaining a preview of modified
state. An idle book has no uncommitted changes. The first taker that is picked moves it into a
partial preview, which records the consumed takers only. The first taker or maker that is added
back moves it into a full preview, which works on copies. Committing or rolling back leads to an
idle book again, or, while takers are stashed, to a fresh partial preview.
-/

namespace Splash.LiquidityBook

open Lib MarketTaker

variable {T M I J U : Type} [MarketTaker T U] [FrontierOrd T] [LinearOrder J] [Stable M J]

section States

variable (T M J : Type) {U : outParam Type} [MarketTaker T U] [FrontierOrd T] [LinearOrder J]
  [Stable M J]

structure IdleState where
  takers : Chronology T
  makers : MarketMakers M J
  deriving DecidableEq

/-- Changed state that reflects only consumption of takers and a full preview of makers. -/
structure PartialPreviewState where
  takersPreview : Chronology T
  consumedActiveTakers : List T
  stashedActiveTakers : List T
  makersIntact : MarketMakers M J
  makersPreview : MarketMakers M J
  deriving DecidableEq

structure PreviewState where
  /-- Takers before changes. -/
  takersIntact : Chronology T
  /-- Active takers with changes pre-applied. -/
  activeTakersPreview : MarketTakers T
  stashedActiveTakers : List T
  /-- New inactive takers. -/
  inactiveTakersChangeset : List (ℕ × T)
  /-- Makers before changes. -/
  makersIntact : MarketMakers M J
  /-- Active makers with changes pre-applied. -/
  makersPreview : MarketMakers M J
  deriving DecidableEq

inductive TLBState where
  | idle (st : IdleState T M J)
  | partialPreview (st : PartialPreviewState T M J)
  | preview (st : PreviewState T M J)
  deriving DecidableEq

end States

inductive StashingOption (T : Type) where
  | stash (takers : List T)
  | unstash

/-! ## Commit -/

def PartialPreviewState.commit (st : PartialPreviewState T M J) : IdleState T M J where
  takers := st.takersPreview
  makers := st.makersPreview

def PreviewState.commit (st : PreviewState T M J) : IdleState T M J where
  takers :=
    { st.takersIntact with
      active := st.activeTakersPreview.insertAll st.stashedActiveTakers
      inactive := Chronology.addAllInactive st.takersIntact.inactive
        st.inactiveTakersChangeset.reverse }
  makers := st.makersPreview

/-! ## Rollback -/

/-- The book with the given takers, makers and stash, and nothing consumed. -/
def TLBState.settled (takers : Chronology T) (stash : List T) (makers : MarketMakers M J) :
    TLBState T M J :=
  if stash.isEmpty then .idle ⟨takers, makers⟩
  else .partialPreview ⟨takers, [], stash, makers, makers⟩

def StashingOption.apply (active : MarketTakers T) (stash : List T) :
    StashingOption T → MarketTakers T × List T
  | .stash toStash => (active.removeAll toStash, stash ++ toStash)
  | .unstash => (active.insertAll stash, [])

def PartialPreviewState.rollback (st : PartialPreviewState T M J) (opt : StashingOption T) :
    TLBState T M J :=
  -- return consumed takers to reconstruct the initial state
  let active := st.takersPreview.active.insertAll st.consumedActiveTakers.reverse
  let (active, stash) := opt.apply active st.stashedActiveTakers
  .settled { st.takersPreview with active := active } stash st.makersIntact

def PreviewState.rollback (st : PreviewState T M J) (opt : StashingOption T) : TLBState T M J :=
  let (active, stash) := opt.apply st.takersIntact.active st.stashedActiveTakers
  .settled { st.takersIntact with active := active } stash st.makersIntact

namespace TLBState

def commit : TLBState T M J → TLBState T M J
  | .partialPreview st => .idle st.commit
  | .preview st => .idle st.commit
  | .idle st => .idle st

def rollback (opt : StashingOption T) : TLBState T M J → TLBState T M J
  | .partialPreview st => st.rollback opt
  | .preview st => st.rollback opt
  | .idle st => .idle st

/-! ## Queries -/

def activeFragments : TLBState T M J → MarketTakers T
  | .idle st => st.takers.active
  | .partialPreview st => st.takersPreview.active
  | .preview st => st.activeTakersPreview

def pools : TLBState T M J → MarketMakers M J
  | .idle st => st.makers
  | .partialPreview st => st.makersPreview
  | .preview st => st.makersPreview

def currentTime : TLBState T M J → ℕ
  | .idle st => st.takers.timeNow
  | .partialPreview st => st.takersPreview.timeNow
  | .preview st => st.takersIntact.timeNow

def stashedActiveTakers : TLBState T M J → List T
  | .idle _ => []
  | .partialPreview st => st.stashedActiveTakers
  | .preview st => st.stashedActiveTakers

end TLBState

/-- Prices at which takers are picked while some takers are stashed. -/
structure AllowedPriceRange where
  maxAskPrice : Option AbsolutePrice
  minBidPrice : Option AbsolutePrice

namespace AllowedPriceRange

/-- Checks if the given ask falls within the price range. -/
def testAsk (range : AllowedPriceRange) (ask : T) : Option T :=
  match range.maxAskPrice with
  | none => some ask
  | some maxAsk => if price ask ≤ maxAsk then some ask else none

/-- Checks if the given bid falls within the price range. The source reads the bound of the asks
here. -/
def testBid (range : AllowedPriceRange) (bid : T) : Option T :=
  match range.maxAskPrice with
  | none => some bid
  | some minBid => if minBid ≤ price bid then some bid else none

end AllowedPriceRange

namespace TLBState

def allowedPriceRange (st : TLBState T M J) : AllowedPriceRange where
  maxAskPrice := ((st.stashedActiveTakers.filter (side · = .ask)).map price).min?
  minBidPrice := ((st.stashedActiveTakers.filter (side · = .bid)).map price).max?

def bestTakerPrice (st : TLBState T M J) (s : Side) : Option (OnSide AbsolutePrice) :=
  (st.activeFragments.first? s).map fun t => s.wrap (price t)

section Makers

variable [MarketMaker M U]

/-- A maker of the highest quality; of several, the one that is iterated last. -/
def bestMarketMaker (ord : HashOrder) (st : TLBState T M J) : Option M :=
  (ord.arrange st.pools.values.values).reverse.argmax MarketMaker.quality

end Makers

end TLBState

/-! ## Picking takers -/

/-- The bigger of an ask and a bid, in terms of the base asset. -/
def maxByVolume (ask bid : T) (spotPrice : AbsolutePrice) : Exec T :=
  if input bid = 0 then .error .divisionByZero
  else
    let askVol : ℚ≥0 := input ask
    let bidVol : ℚ≥0 := 1 / (input bid : ℚ≥0) * spotPrice
    .ok (if bidVol < askVol then ask else bid)

/-- Chooses the taker whose price is the farthest on the good side of the spot price. -/
def chooseByDistance (spotPrice : AbsolutePrice) : Option T → Option T → Exec (Option T)
  | some ask, some bid => do
    let distanceFromAsk : ℚ := spotPrice - price ask
    let distanceFromBid : ℚ := (spotPrice - price bid) * -1
    if distanceFromBid < distanceFromAsk then return some ask
    else if distanceFromAsk < distanceFromBid then return some bid
    else return some (← maxByVolume ask bid spotPrice)
  | some taker, none => return some taker
  | none, some taker => return some taker
  | none, none => return none

/-- Takes out the best taker of either side, as far as the price range allows. -/
def maxByDistanceToSpot (spotPrice : AbsolutePrice) (range : AllowedPriceRange)
    (fragments : MarketTakers T) : Exec (Option (T × MarketTakers T)) := do
  let bestBid := (fragments.first? .bid).bind range.testBid
  let bestAsk := (fragments.first? .ask).bind range.testAsk
  let choice ← chooseByDistance spotPrice bestAsk bestBid
  return choice.map fun taker => (taker, fragments.remove taker)

def tryPickFr (s : Side) (activeFrontier : MarketTakers T) : Option (T × MarketTakers T) :=
  (activeFrontier.first? s).map fun taker => (taker, activeFrontier.remove taker)

def PreviewState.addTaker (time : ℕ) (taker : T) (st : PreviewState T M J) : PreviewState T M J :=
  match (timeBounds taker).futureBound time with
  | some lowerBound =>
    { st with inactiveTakersChangeset := st.inactiveTakersChangeset ++ [(lowerBound, taker)] }
  | none => { st with activeTakersPreview := st.activeTakersPreview.insert taker }

namespace TLBState

def pickedActive (choice : T) (active : MarketTakers T) : TLBState T M J → TLBState T M J
  -- transit into a partial preview if the state is untouched yet
  | .idle st =>
    .partialPreview
      { takersPreview := { st.takers with active := active }
        consumedActiveTakers := [choice]
        stashedActiveTakers := []
        makersIntact := st.makers
        makersPreview := st.makers }
  | .partialPreview st =>
    .partialPreview
      { st with
        takersPreview := { st.takersPreview with active := active }
        consumedActiveTakers := st.consumedActiveTakers ++ [choice] }
  | .preview st => .preview { st with activeTakersPreview := active }

def pickBestTaker (spotPrice : AbsolutePrice) (st : TLBState T M J) :
    Exec (Option (T × TLBState T M J)) := do
  let choice ← maxByDistanceToSpot spotPrice st.allowedPriceRange st.activeFragments
  return choice.map fun (taker, active) => (taker, st.pickedActive taker active)

def tryPickTaker (s : Side) (st : TLBState T M J) : Option (T × TLBState T M J) :=
  (tryPickFr s st.activeFragments).map fun (taker, active) => (taker, st.pickedActive taker active)

/-! ## Moving into a full preview -/

def moveIntoPreview : TLBState T M J → PreviewState T M J
  | .idle st =>
    { takersIntact := st.takers
      activeTakersPreview := st.takers.active
      stashedActiveTakers := []
      inactiveTakersChangeset := []
      makersIntact := st.makers
      makersPreview := st.makers }
  | .partialPreview st =>
    { -- return consumed takers to reconstruct the initial state
      takersIntact :=
        { st.takersPreview with
          active := st.takersPreview.active.insertAll st.consumedActiveTakers.reverse }
      activeTakersPreview := st.takersPreview.active
      stashedActiveTakers := st.stashedActiveTakers
      inactiveTakersChangeset := []
      makersIntact := st.makersIntact
      makersPreview := st.makersPreview }
  | .preview st => st

def preAddTaker (taker : T) (st : TLBState T M J) : TLBState T M J :=
  .preview (st.moveIntoPreview.addTaker st.currentTime taker)

def preAddMaker [MarketMaker M U] (pool : M) (st : TLBState T M J) : TLBState T M J :=
  let previewSt := st.moveIntoPreview
  .preview { previewSt with makersPreview := previewSt.makersPreview.updatePool pool }

def pickMakerById (pid : J) : TLBState T M J → Option M × TLBState T M J
  | .idle st =>
    (st.makers.values.get? pid,
      .partialPreview
        { takersPreview := st.takers
          consumedActiveTakers := []
          stashedActiveTakers := []
          makersIntact := st.makers
          makersPreview := st.makers.eraseValue pid })
  | .partialPreview st =>
    (st.makersPreview.values.get? pid,
      .partialPreview { st with makersPreview := st.makersPreview.eraseValue pid })
  | .preview st =>
    (st.makersPreview.values.get? pid,
      .preview { st with makersPreview := st.makersPreview.eraseValue pid })

end TLBState

/-! ## Views of an updated book -/

namespace TLBState

variable {st : TLBState T M J} {t : T} {active : MarketTakers T}

@[simp] theorem activeFragments_pickedActive :
    (st.pickedActive t active).activeFragments = active := by
  cases st <;> rfl

@[simp] theorem pools_pickedActive : (st.pickedActive t active).pools = st.pools := by
  cases st <;> rfl

@[simp] theorem activeFragments_moveIntoPreview :
    st.moveIntoPreview.activeTakersPreview = st.activeFragments := by
  cases st <;> rfl

@[simp] theorem pools_moveIntoPreview : st.moveIntoPreview.makersPreview = st.pools := by
  cases st <;> rfl

theorem activeFragments_preAddTaker : (st.preAddTaker t).activeFragments =
    if ((timeBounds t).futureBound st.currentTime).isSome then st.activeFragments
    else st.activeFragments.insert t := by
  unfold preAddTaker PreviewState.addTaker
  split <;> simp [*, activeFragments]

@[simp] theorem pools_preAddTaker : (st.preAddTaker t).pools = st.pools := by
  unfold preAddTaker PreviewState.addTaker
  split <;> exact pools_moveIntoPreview

section Makers

variable [MarketMaker M U] {m : M}

@[simp] theorem activeFragments_preAddMaker :
    (st.preAddMaker m).activeFragments = st.activeFragments :=
  activeFragments_moveIntoPreview

@[simp] theorem pools_preAddMaker : (st.preAddMaker m).pools = st.pools.updatePool m :=
  congrArg (·.updatePool m) pools_moveIntoPreview

end Makers

variable {pid : J}

@[simp] theorem pickMakerById_fst : (st.pickMakerById pid).1 = st.pools.values.get? pid := by
  cases st <;> rfl

@[simp] theorem activeFragments_pickMakerById :
    (st.pickMakerById pid).2.activeFragments = st.activeFragments := by
  cases st <;> rfl

@[simp] theorem pools_pickMakerById :
    (st.pickMakerById pid).2.pools = st.pools.eraseValue pid := by
  cases st <;> rfl

end TLBState

/-! ## Preselecting a maker -/

/-- What a maker offers to a taker. -/
structure FillPreview where
  price : AbsolutePrice
  input : ℕ
  deriving DecidableEq

section Preselect

variable [TakerBehaviour T] [MarketMaker M U]

section

variable (taker : T) (price : AbsolutePrice) (demand : ℕ) (s : Side) (optimized : Bool) (maker : M)

def dummySwap : Exec (Option (J × FillPreview)) := do
  match ← MarketMaker.effectivePrice maker taker (s.wrap demand) with
  | some realPrice => return some (stableId maker, ⟨realPrice, demand⟩)
  | none => return none

/-- Offers what is available at the price of the taker, if the demand covers it. -/
def tryOptimizedSwap : Exec (Option (J × FillPreview)) := do
  match MarketMaker.availableLiquidityOnSide maker (s.wrap price) with
  | none => return none
  | some ⟨input, output⟩ =>
    let effective ← MarketMaker.effectivePrice maker taker (s.wrap input)
    match effective.or ((s.wrap input).priceFor output) with
    | none => return none
    | some absolutePrice =>
      if 0 < input ∧ input ≤ demand then return some (stableId maker, ⟨absolutePrice, input⟩)
      else return none

def previewFill : Exec (Option (J × FillPreview)) := do
  if optimized then
    match ← tryOptimizedSwap taker price demand s maker with
    | some preview => return some preview
    | none => dummySwap taker demand s maker
  else dummySwap taker demand s maker

end

def previewFills (taker : T) (price : AbsolutePrice) (demand : ℕ) (s : Side) (optimized : Bool) :
    List M → Exec (List (J × FillPreview))
  | [] => .ok []
  | maker :: rest => do
    if MarketMaker.isActive maker then
      let preview ← previewFill taker price demand s optimized maker
      let others ← previewFills taker price demand s optimized rest
      return preview.toList ++ others
    else previewFills taker price demand s optimized rest

/-- The best of the offers: the first of the cheapest for a bid, the last of the dearest for an
ask. -/
def bestPreview (s : Side) (previews : List (J × FillPreview)) : Option (J × FillPreview) :=
  match s with
  | .bid => previews.argmin (·.2.price)
  | .ask => previews.reverse.argmax (·.2.price)

/-- The best offer among those that the price of the taker allows. -/
def TLBState.preselectMarketMaker (ord : HashOrder) (st : TLBState T M J) (price : AbsolutePrice)
    (demand : ℕ) (s : Side) (optimized : Bool) (taker : T) :
    Exec (Option (J × FillPreview)) := do
  let previews ← previewFills taker price demand s optimized
    (ord.arrange st.pools.values.values)
  return bestPreview s (previews.filter fun preview => (s.wrap price).overlaps preview.2.price)

end Preselect

end Splash.LiquidityBook
