import Splash.LiquidityBook.Attempt

/-!
# What the book relies on

The contracts of takers and makers that results about the book use, and the book operations seen
through them.

* `LawfulTaker`, `LawfulMaker` — the identity of an entity persists among its versions, and a maker
  either fills a taker with the offered chunk or leaves both as they are.
* `ExactTaker` — takers that book trades exactly.
* `preselectMarketMaker_spec` — a preselected maker is in the book and its offer suits the taker.
* `Filled`, `MatchCase`, `matchStep_cases` — what one iteration of the matching loop can do.
-/

namespace Splash.LiquidityBook

open Lib MarketTaker TakerBehaviour Exec List TLBState

/-- A taker keeps its identity through a trade. -/
class LawfulTaker (T : Type) {I U : outParam Type} [Stable T I] [MarketTaker T U]
    [TakerBehaviour T] : Prop where
  stableId_withAppliedTrade {t t' : T} {removed added : ℕ} :
    withAppliedTrade t removed added = .ok (.succ t') → stableId t' = stableId t

/-- Takers that a book keeps in one place are versions of one entity. -/
class LawfulOrd (T : Type) {I : outParam Type} [Stable T I] [FrontierOrd T] : Prop where
  stableId_of_cmp {s : Side} {a b : T} : FrontierOrd.cmp s a b = .eq → stableId b = stableId a

/-- A maker fills a taker with the whole chunk or does nothing, and keeps its identity. -/
class LawfulMaker (M : Type) {J U : outParam Type} [Stable M J] [MarketMaker M U]
    [MakerBehavior M] : Prop where
  swapWithTaker_target {T V : Type} [MarketTaker T V] [TakerBehaviour T] {t : T} {m : M}
    {chunk : OnSide ℕ} {take : TakeInProgress T} {make : MakeInProgress M} :
    MakerBehavior.swapWithTaker t m chunk = .ok (take, make) →
      take.target = t ∧ make.target = m ∧ stableId make.result = stableId m
  swapWithTaker_fill {T V : Type} [MarketTaker T V] [TakerBehaviour T] {t : T} {m : M}
    {chunk : OnSide ℕ} {take : TakeInProgress T} {make : MakeInProgress M} :
    MakerBehavior.swapWithTaker t m chunk = .ok (take, make) →
      (take.result = .succ t ∧ make.result = m) ∨
        ∃ out, withAppliedTrade t chunk.unwrap out = .ok take.result

variable {T M I J U : Type} [MarketTaker T U]

/-! ## Exact takers -/

/-- A transition of a taker that takes `removed` from its input and adds `added` to its output. A
successor has the property `P`, and keeps side and price. -/
structure Booked (P : T → Prop) (t : T) (removed added : ℕ) (next : Next T TerminalTake) : Prop where
  input_eq : input t = TakeInProgress.remainingInput ⟨t, next⟩ + removed
  output_eq : TakeInProgress.accumulatedOutput ⟨t, next⟩ = output t + added
  succ : ∀ {t'}, next = .succ t' → P t' ∧ side t' = side t ∧ price t' = price t

variable {spot : AbsolutePrice} {t : T} {range : AllowedPriceRange} {s : Side} {taker : T}

theorem Booked.refl {P : T → Prop} (h : P t) : Booked P t 0 0 (.succ t) where
  input_eq := rfl
  output_eq := rfl
  succ hnext := by
    cases hnext
    exact ⟨h, rfl, rfl⟩

/-- Takers that book what they trade exactly, as long as they are `Exact`. -/
class ExactTaker (T : Type) {U : outParam Type} [MarketTaker T U] [TakerBehaviour T] where
  Exact : T → Prop
  trade {t : T} {removed added : ℕ} {next : Next T TerminalTake} :
    Exact t → withAppliedTrade t removed added = .ok next → Booked Exact t removed added next
  /-- What finalization does to a taker changes its output only. -/
  close (delta : ℤ) {t t₁ t₂ : T} {added fee : ℕ} :
    Exact t → withOutputAdded t added = .ok t₁ → withFeeCharged t₁ fee = .ok t₂ →
      Booked Exact t 0 added (tryTerminate (withBudgetCorrected t₂ delta).2)

export ExactTaker (Exact)

/-! ## Chosen takers -/

theorem maxByVolume_eq_or {ask bid taker : T}
    (h : maxByVolume ask bid spot = .ok taker) : taker = ask ∨ taker = bid := by
  unfold maxByVolume at h
  split at h
  · cases h
  · cases h
    split
    · exact .inl rfl
    · exact .inr rfl

theorem chooseByDistance_eq_or {ask bid : Option T}
    (h : chooseByDistance spot ask bid = .ok (some taker)) : ask = some taker ∨ bid = some taker := by
  unfold chooseByDistance at h
  split at h
  · dsimp only at h
    split at h
    · cases h
      exact .inl rfl
    · split at h
      · cases h
        exact .inr rfl
      · obtain ⟨x, hx, hret⟩ := bind_eq_ok.1 h
        cases hret
        exact (maxByVolume_eq_or hx).imp (congrArg some ·.symm) (congrArg some ·.symm)
  · cases h
    exact .inl rfl
  · cases h
    exact .inr rfl
  · cases h

theorem testBid_eq {x t : T} (h : range.testBid x = some t) : x = t := by
  unfold AllowedPriceRange.testBid at h
  grind

theorem testAsk_eq {x t : T} (h : range.testAsk x = some t) : x = t := by
  unfold AllowedPriceRange.testAsk at h
  grind

theorem testAsk_eq_none :
    range.testAsk t = none ↔ ∃ m ∈ range.maxAskPrice, m < price t := by
  unfold AllowedPriceRange.testAsk
  cases range.maxAskPrice with
  | none => simp
  | some m => simp

theorem testBid_eq_none :
    range.testBid t = none ↔ price t < range.maxAskPrice.getD 0 := by
  unfold AllowedPriceRange.testBid
  cases range.maxAskPrice with
  | none => simp
  | some m => simp

/-- The taker passes the test of its side. -/
def AllowedPriceRange.Allows (range : AllowedPriceRange) (t : T) : Prop :=
  side t = .ask ∧ range.testAsk t = some t ∨ side t = .bid ∧ range.testBid t = some t

/-! ## Two takers that trade -/

/-- The ask of two takers that trade gives `base` for `quote`, and the bid gives `quote` for
`base`. -/
theorem executeWithTaker_spec [TakerBehaviour T] {target counter : T} {f : T → T → AbsolutePrice}
    {takeA takeB : TakeInProgress T} (h : executeWithTaker target counter f = .ok (takeA, takeB)) :
    ∃ base quote,
      matchVolumes takeA.target takeB.target (f takeA.target takeB.target) = .ok (base, quote) ∧
      withAppliedTrade takeA.target base quote = .ok takeA.result ∧
      withAppliedTrade takeB.target quote base = .ok takeB.result ∧
      ((side target = .ask ∧ takeA.target = target ∧ takeB.target = counter) ∨
        (side target = .bid ∧ takeA.target = counter ∧ takeB.target = target)) := by
  unfold executeWithTaker at h
  obtain ⟨⟨base, quote⟩, hvol, h⟩ := bind_eq_ok.1 h
  obtain ⟨nextAsk, hask, h⟩ := bind_eq_ok.1 h
  obtain ⟨nextBid, hbid, h⟩ := bind_eq_ok.1 h
  cases h
  refine ⟨base, quote, hvol, hask, hbid, ?_⟩
  cases side target with
  | ask => exact .inl ⟨rfl, rfl, rfl⟩
  | bid => exact .inr ⟨rfl, rfl, rfl⟩

/-! ## Picked takers -/

variable [FrontierOrd T]

theorem maxByDistanceToSpot_spec {takers left : MarketTakers T}
    (h : maxByDistanceToSpot spot range takers = .ok (some (taker, left))) :
    taker ∈ takers ∧ left = takers.remove taker ∧ range.Allows taker := by
  unfold maxByDistanceToSpot at h
  obtain ⟨choice, hchoice, hret⟩ := bind_eq_ok.1 h
  obtain ⟨c, rfl, hc⟩ := Option.map_eq_some_iff.1 (pure_eq_ok.1 hret)
  cases hc
  rcases chooseByDistance_eq_or hchoice with hask | hbid
  · obtain ⟨x, hx, htest⟩ := Option.bind_eq_some_iff.1 hask
    obtain rfl := testAsk_eq htest
    obtain ⟨hmem, hside⟩ := MarketTakers.mem_of_first? hx
    exact ⟨hmem, rfl, .inl ⟨hside, htest⟩⟩
  · obtain ⟨x, hx, htest⟩ := Option.bind_eq_some_iff.1 hbid
    obtain rfl := testBid_eq htest
    obtain ⟨hmem, hside⟩ := MarketTakers.mem_of_first? hx
    exact ⟨hmem, rfl, .inr ⟨hside, htest⟩⟩

section Pick

variable [LinearOrder J] [Stable M J]

/-- The book after `t` was picked. -/
def TLBState.pick (book : TLBState T M J) (t : T) : TLBState T M J :=
  book.pickedActive t (book.activeFragments.remove t)

theorem pickBestTaker_spec {book book' : TLBState T M J} {target : T}
    (h : book.pickBestTaker spot = .ok (some (target, book'))) :
    target ∈ book.activeFragments ∧ book' = book.pick target ∧
      book.allowedPriceRange.Allows target := by
  unfold TLBState.pickBestTaker at h
  obtain ⟨choice, hchoice, hret⟩ := bind_eq_ok.1 h
  obtain ⟨⟨t, left⟩, rfl, hc⟩ := Option.map_eq_some_iff.1 (pure_eq_ok.1 hret)
  cases hc
  obtain ⟨hmem, rfl, hallowed⟩ := maxByDistanceToSpot_spec hchoice
  exact ⟨hmem, rfl, hallowed⟩

theorem tryPickTaker_spec {book book' : TLBState T M J}
    (h : book.tryPickTaker s = some (t, book')) :
    book.activeFragments.first? s = some t ∧ book' = book.pick t := by
  unfold TLBState.tryPickTaker tryPickFr at h
  obtain ⟨⟨x, left⟩, hx, hc⟩ := Option.map_eq_some_iff.1 h
  obtain ⟨y, hy, hyx⟩ := Option.map_eq_some_iff.1 hx
  cases hyx
  cases hc
  exact ⟨hy, rfl⟩

end Pick

/-! ## Preselected makers -/

section Preselect

variable [TakerBehaviour T] [Stable M J] [MarketMaker M U]

variable {optimized : Bool} {p : AbsolutePrice} {preview : FillPreview}

variable {demand : ℕ} {sid : J}

omit [FrontierOrd T] in
theorem previewFill_id {maker : M}
    (h : previewFill taker p demand s optimized maker = .ok (some (sid, preview))) :
    sid = stableId maker := by
  have hdummy : ∀ {o}, dummySwap taker demand s maker = .ok (some o) → o.1 = stableId maker := by
    intro o ho
    unfold dummySwap at ho
    obtain ⟨x, -, hx⟩ := bind_eq_ok.1 ho
    split at hx <;> cases hx
    rfl
  have hopt : ∀ {o}, tryOptimizedSwap taker p demand s maker = .ok (some o) →
      o.1 = stableId maker := by
    intro o ho
    unfold tryOptimizedSwap at ho
    split at ho
    · cases ho
    · obtain ⟨x, -, hx⟩ := bind_eq_ok.1 ho
      split at hx
      · cases hx
      · split at hx <;> cases hx
        rfl
  unfold previewFill at h
  split at h
  · obtain ⟨x, hx, hret⟩ := bind_eq_ok.1 h
    split at hret
    · cases hret
      exact hopt hx
    · exact hdummy hret
  · exact hdummy h

omit [FrontierOrd T] in
theorem mem_previewFills {makers : List M} {previews : List (J × FillPreview)}
    (h : previewFills taker p demand s optimized makers = .ok previews)
    (hmem : (sid, preview) ∈ previews) : ∃ maker ∈ makers, MarketMaker.isActive maker ∧
      previewFill taker p demand s optimized maker = .ok (some (sid, preview)) := by
  induction makers generalizing previews with
  | nil =>
    cases h
    cases hmem
  | cons maker rest ih =>
    unfold previewFills at h
    split at h
    case isTrue hactive =>
      obtain ⟨o, ho, h⟩ := bind_eq_ok.1 h
      obtain ⟨others, hothers, hret⟩ := bind_eq_ok.1 h
      cases hret
      rcases mem_append.1 hmem with hmem | hmem
      · cases Option.mem_toList.1 hmem
        exact ⟨maker, mem_cons_self, hactive, ho⟩
      · obtain ⟨m, hm, hrest⟩ := ih hothers hmem
        exact ⟨m, mem_cons_of_mem _ hm, hrest⟩
    case isFalse =>
      obtain ⟨m, hm, hrest⟩ := ih h hmem
      exact ⟨m, mem_cons_of_mem _ hm, hrest⟩

theorem mem_of_bestPreview {J : Type} {previews : List (J × FillPreview)} {o : J × FillPreview}
    (h : bestPreview s previews = some o) : o ∈ previews := by
  cases s with
  | bid => exact argmin_mem h
  | ask => exact mem_reverse.1 (argmax_mem h)

theorem preselectMarketMaker_spec [LinearOrder J] {ord : HashOrder} {book : TLBState T M J}
    (h : book.preselectMarketMaker ord p demand s optimized taker = .ok (some (sid, preview))) :
    ∃ maker, book.pools.values.get? sid = some maker ∧ MarketMaker.isActive maker ∧
      previewFill taker p demand s optimized maker = .ok (some (sid, preview)) ∧
      (s.wrap p).overlaps preview.price := by
  unfold TLBState.preselectMarketMaker at h
  obtain ⟨previews, hpreviews, hret⟩ := bind_eq_ok.1 h
  obtain ⟨hmem, hoverlaps⟩ := mem_filter.1 (mem_of_bestPreview (pure_eq_ok.1 hret))
  obtain ⟨maker, hmaker, hactive, hfill⟩ := mem_previewFills hpreviews hmem
  obtain ⟨k, hk⟩ := OrdMap.mem_values_iff.1 ((HashOrder.mem_arrange ord).1 hmaker)
  have hsid : sid = k := (previewFill_id hfill).trans (book.pools.keyed hk)
  exact ⟨maker, hsid ▸ hk, hactive, hfill, hoverlaps⟩

end Preselect

/-! ## One iteration of the matching loop -/

section MatchCase

variable [TakerBehaviour T] [LinearOrder I] [LinearOrder J] [Stable T I] [Stable M J]
  [MarketMaker M U] [MakerBehavior M] [Add U]

/-- A fill: two takers that trade with each other, or a taker that trades with a maker. -/
inductive Fill (T M : Type) where
  | taker (takeA takeB : TakeInProgress T)
  | maker (take : TakeInProgress T) (make : MakeInProgress M)

/-- The state after the picked `target` traded with `counter`. -/
def Matching.afterTakes (s : Matching T M I J U) (target counter : T)
    (takeA takeB : TakeInProgress T) : Matching T M I J U :=
  { s with
    book := (((s.book.pick target).pick counter).onTake takeA.result).onTake takeB.result
    batch := (s.batch.addTake takeA).addTake takeB }

def Matching.afterMake (s : Matching T M I J U) (target : T) (sid : J) (take : TakeInProgress T)
    (make : MakeInProgress M) : Matching T M I J U :=
  { s with
    book := (((s.book.pick target).pickMakerById sid).2.onTake take.result).onMake make.result
    batch := (s.batch.addMake make).addTake take }

/-- `Filled s fill s'`: an iteration of the matching loop that adds `fill` to the batch. -/
inductive Filled (s : Matching T M I J U) : Fill T M → Matching T M I J U → Prop where
  /-- The picked taker trades with the best taker of the other side. -/
  | taker {target counter : T} {takeA takeB : TakeInProgress T} {spot : AbsolutePrice}
      (htarget : target ∈ s.book.activeFragments)
      (hcounter : counter ∈ s.book.activeFragments.remove target)
      (hside : side counter = (side target).not)
      (hprice : ((side target).wrap (price target)).overlaps (price counter))
      (hexec : executeWithTaker target counter (fun ask bid => settlePrice ask bid (some spot)) =
        .ok (takeA, takeB)) :
      Filled s (.taker takeA takeB) (s.afterTakes target counter takeA takeB)
  /-- The picked taker trades with the preselected maker. -/
  | maker {target : T} {maker : M} {sid : J} {preview : FillPreview} {take : TakeInProgress T}
      {make : MakeInProgress M} (htarget : target ∈ s.book.activeFragments)
      (hmaker : s.book.pools.values.get? sid = some maker)
      (hpreview : previewFill target (price target) (input target) (side target) s.optimized maker =
        .ok (some (sid, preview)))
      (hprice : ((side target).wrap (price target)).overlaps preview.price)
      (hswap : MakerBehavior.swapWithTaker target maker ((side target).wrap preview.input) =
        .ok (take, make)) :
      Filled s (.maker take make) (s.afterMake target sid take make)

/-- What the matching loop can do in one iteration. -/
inductive MatchCase (s : Matching T M I J U) :
    Iter (Matching T M I J U) (TLBState T M J) → Prop where
  /-- There is no spot price or no taker to pick. -/
  | stop : MatchCase s (.done s.book)
  /-- The picked taker matches nothing and is put back. -/
  | unmatched {target : T} (htarget : target ∈ s.book.activeFragments) :
      MatchCase s (.done ((s.book.pick target).preAddTaker target))
  | fill {fill : Fill T M} {s' : Matching T M I J U} (h : Filled s fill s') : MatchCase s (.again s')

variable {ord : HashOrder} {conf : ExecutionConfig U} {s : Matching T M I J U}

section

omit [TakerBehaviour T] [LinearOrder I] [Stable T I] [MarketMaker M U] [MakerBehavior M] [Add U]

@[simp] theorem activeFragments_pick {book : TLBState T M J} :
    (book.pick t).activeFragments = book.activeFragments.remove t :=
  activeFragments_pickedActive

@[simp] theorem pools_pick {book : TLBState T M J} :
    (book.pick t).pools = book.pools :=
  pools_pickedActive

end

variable {r : Iter (Matching T M I J U) (TLBState T M J)}

theorem fillFromTaker_cases {target : T}
    (htarget : target ∈ s.book.activeFragments) {maker : Option (J × FillPreview)}
    (hprefers : prefersTaker conf ((side target).wrap (price target))
      ((s.book.pick target).bestTakerPrice (side target).not) maker)
    (h : fillFromTaker s (s.book.pick target) spot target = .ok r) : MatchCase s r := by
  unfold fillFromTaker at h
  split at h
  case h_1 hnone =>
    -- the best price of the other side exists, so a taker of that side is there to be picked
    simp only [TLBState.tryPickTaker, tryPickFr, Option.map_eq_none_iff] at hnone
    simp only [prefersTaker, TLBState.bestTakerPrice, hnone, Option.map_none] at hprefers
    cases hprefers
  case h_2 counter book hpick =>
    obtain ⟨hfirst, rfl⟩ := tryPickTaker_spec hpick
    obtain ⟨hmem, hside⟩ := MarketTakers.mem_of_first? hfirst
    obtain ⟨⟨takeA, takeB⟩, hexec, hret⟩ := bind_eq_ok.1 h
    cases hret
    refine .fill (.taker htarget (by simpa using hmem) hside ?_ hexec)
    simp only [prefersTaker, TLBState.bestTakerPrice, hfirst, Option.map_some,
      OnSide.unwrap_wrap, Bool.and_eq_true] at hprefers
    exact hprefers.1.2

theorem fillTarget_cases {target : T} (htarget : target ∈ s.book.activeFragments)
    (h : fillTarget ord conf s (s.book.pick target) spot target = .ok r) : MatchCase s r := by
  unfold fillTarget at h
  obtain ⟨maker, hmaker, h⟩ := bind_eq_ok.1 h
  split at h
  case isTrue hprefers => exact fillFromTaker_cases htarget hprefers h
  case isFalse =>
    split at h
    case h_1 sid preview _ =>
      obtain ⟨m, hget, -, hfill, hprice⟩ := preselectMarketMaker_spec hmaker
      have hpick : (s.book.pick target).pickMakerById sid =
          (some m, ((s.book.pick target).pickMakerById sid).2) :=
        Prod.ext (pickMakerById_fst.trans hget) rfl
      rw [if_pos hprice, fillFromMaker, hpick] at h
      obtain ⟨⟨take, make⟩, hswap, hret⟩ := bind_eq_ok.1 h
      cases hret
      rw [pools_pick] at hget
      exact .fill (.maker htarget hget hfill hprice hswap)
    case h_2 =>
      cases h
      exact .unmatched htarget

theorem matchStep_cases (h : matchStep ord conf s = .ok r) : MatchCase s r := by
  unfold matchStep at h
  split at h
  · cases h
    exact .stop
  · obtain ⟨spot, -, h⟩ := bind_eq_ok.1 h
    obtain ⟨choice, hchoice, h⟩ := bind_eq_ok.1 h
    split at h
    · cases h
      exact .stop
    · obtain ⟨hmem, rfl, -⟩ := pickBestTaker_spec hchoice
      exact fillTarget_cases hmem h

end MatchCase

end Splash.LiquidityBook
