import Splash.Agent.Book
import Splash.Cardano.LimitLife
import Splash.LiquidityBook.Commit

/-!
# Settling an attempt

What becomes of a book when its attempt is over: the feedback of the execution rolls it back or
commits it.

* `attempt_rollback_restores` — a book that is rolled back is the book before the attempt.
* `attempt_commit_keeps_iff` — every taker that a committed recipe leaves alone survives, unless a
  partial preview with stashed takers is committed.
* `pick_respects_stash_iff` — the asks that a retry picks are not worse than the stashed ones, and
  no bid is rejected for their sake; so are the bids when the two bounds of the price range agree.
-/

namespace Splash.LiquidityBook

open Lib MarketTaker TakerBehaviour

variable {T M I J U : Type} [MarketTaker T U] [TakerBehaviour T] [FrontierOrd T] [LinearOrder I]
  [LinearOrder J] [Stable T I] [Stable M J] [MarketMaker M U] [MakerBehavior M] [Zero U] [Add U]
  [LT U] [DecidableLT U] [LawfulTaker T] [LawfulMaker M] {ord : HashOrder}
  {conf : ExecutionConfig U} {st : IdleState T M J} {after : TLBState T M J}

/-- **Rolling back restores the book.** Whatever rounds an attempt on a settled book went through,
when it returns no recipe, or its recipe fails, the book is settled and the one before the
attempt. -/
theorem attempt_rollback_restores {recipe : Option (MatchmakingRecipe T M)}
    (h : (TLBState.idle st).Attempt (I := I) ord conf recipe after) :
    (recipe = none → after = .idle st) ∧
      ∀ r, recipe = some r → after.onRecipeFailed = .idle st := by
  obtain ⟨s, book, -, -, hb, -, hconclusion⟩ := attempt_cases h
  constructor
  · rintro rfl
    cases hconclusion with
    | failed _ => exact rollback_unstash hb
  · rintro r rfl
    cases hconclusion with
    | recipe _ => exact rollback_unstash hb

/-- **What a committed recipe leaves of the book.** When the recipe of an attempt succeeds, every
taker that it did not target is still held, unless takers were stashed and the attempt ended in a
partial preview. -/
theorem attempt_commit_keeps_iff [LawfulOrd T] {recipe : MatchmakingRecipe T M}
    (hids : st.takers.DistinctIds)
    (h : (TLBState.idle st).Attempt (I := I) ord conf (some recipe) after) :
    ∃ st' : IdleState T M J, after.onRecipeSucceeded = .idle st' ∧
      ((∀ t, st.takers.Holds t → (∀ take ∈ recipe.takes, take.target ≠ t) → st'.takers.Holds t) ↔
        ¬ after.LosesStash) := by
  obtain ⟨s, book, -, -, hb, hround, hconclusion⟩ := attempt_cases h
  cases hconclusion with
  | recipe hverdict =>
    have htargets : ∀ {t}, (∀ take ∈ recipe.takes, take.target ≠ t) ↔
        ∀ id take, s.batch.takes.get? id = some take → take.target ≠ t := fun {t} => by
      have := MatchmakingRecipe.exists_target_iff hverdict (t := t)
      grind
    by_cases hloses : after.LosesStash
    · obtain ⟨t, st', ht, huntraded, hcommit, hlost⟩ := exists_lost hids hb hround hloses
      exact ⟨st', hcommit, iff_of_false (fun hkeep => hlost (hkeep t ht (htargets.2 huntraded)))
        (not_not.2 hloses)⟩
    · refine ⟨_, TLBState.commit_eq hloses, iff_of_true (fun t ht hnot => ?_) hloses⟩
      exact holds_committed hids hb hround ht (htargets.1 hnot)

/-! ## Picks under a stash -/

variable {l : List AbsolutePrice} {p : AbsolutePrice}

theorem lt_max?_getD_iff : p < l.max?.getD 0 ↔ ∃ x ∈ l, p < x := by
  cases h : l.max? with
  | none => simp [List.max?_eq_none_iff.1 h]
  | some m =>
    obtain ⟨hm, hmax⟩ := List.max?_eq_some_iff.1 h
    exact ⟨fun hp => ⟨m, hm, hp⟩, fun hp => hp.elim fun x hx => hx.2.trans_le (hmax x hx.1)⟩

theorem min?_lt_iff : (∃ m ∈ l.min?, m < p) ↔ ∃ x ∈ l, x < p := by
  constructor
  · rintro ⟨m, hm, hp⟩
    exact ⟨m, (List.min?_eq_some_iff.1 hm).1, hp⟩
  · rintro ⟨x, hx, hp⟩
    cases h : l.min? with
    | none => simp [List.min?_eq_none_iff.1 h] at hx
    | some m => exact ⟨m, rfl, ((List.min?_eq_some_iff.1 h).2 x hx).trans_lt hp⟩

section Stash

variable {T M J U : Type} [MarketTaker T U] [FrontierOrd T] [LinearOrder J] [Stable M J]
  {st : TLBState T M J} {t : T}

theorem ask_rejected_iff : st.allowedPriceRange.testAsk t = none ↔
    ∃ s ∈ st.stashedActiveTakers, side s = .ask ∧ price s < price t := by
  rw [testAsk_eq_none]
  refine min?_lt_iff.trans ?_
  simp only [List.mem_map, List.mem_filter, decide_eq_true_eq]
  grind

theorem bid_stashed_iff : price t < st.allowedPriceRange.minBidPrice.getD 0 ↔
    ∃ s ∈ st.stashedActiveTakers, side s = .bid ∧ price t < price s := by
  refine lt_max?_getD_iff.trans ?_
  simp only [List.mem_map, List.mem_filter, decide_eq_true_eq]
  grind

/-- **A retry picks better prices.** An ask is picked only if no better ask is stashed, and stashed
bids reject none. For bids that holds if the lowest stashed ask price and the highest stashed bid
price agree, an empty side counting as zero, and only then, since the test of the bids reads the
bound of the asks. -/
theorem pick_respects_stash_iff (st : TLBState T M J) :
    (∀ spot t st', st.pickBestTaker spot = .ok (some (t, st')) → side t = .ask →
      ∀ s ∈ st.stashedActiveTakers, side s = .ask → price t ≤ price s) ∧
    (∀ t : T, side t = .ask → (st.allowedPriceRange.testAsk t = none ↔
      ∃ s ∈ st.stashedActiveTakers, side s = .ask ∧ price s < price t)) ∧
    (st.allowedPriceRange.maxAskPrice.getD 0 = st.allowedPriceRange.minBidPrice.getD 0 →
      (∀ spot t st', st.pickBestTaker spot = .ok (some (t, st')) → side t = .bid →
        ∀ s ∈ st.stashedActiveTakers, side s = .bid → price s ≤ price t) ∧
      ∀ t : T, side t = .bid → (st.allowedPriceRange.testBid t = none ↔
        ∃ s ∈ st.stashedActiveTakers, side s = .bid ∧ price t < price s)) ∧
    ((∀ p, ∃ t : T, side t = .bid ∧ price t = p) →
      (∀ t : T, side t = .bid → (st.allowedPriceRange.testBid t = none ↔
        ∃ s ∈ st.stashedActiveTakers, side s = .bid ∧ price t < price s)) →
      st.allowedPriceRange.maxAskPrice.getD 0 = st.allowedPriceRange.minBidPrice.getD 0) := by
  have htested : ∀ {x : T} {o : Option T}, o = some x → o ≠ none := by
    rintro x o rfl ⟨⟩
  refine ⟨?_, fun _ _ => ask_rejected_iff, ?_, ?_⟩
  · intro spot t st' hpick hask s hs hside
    obtain ⟨-, -, ⟨-, htest⟩ | ⟨hbid, -⟩⟩ := pickBestTaker_spec hpick
    · by_contra hlt
      exact htested htest (ask_rejected_iff.2 ⟨s, hs, hside, not_le.1 hlt⟩)
    · rw [hask] at hbid
      cases hbid
  · intro hbounds
    have hrejected : ∀ t : T, st.allowedPriceRange.testBid t = none ↔
        ∃ s ∈ st.stashedActiveTakers, side s = .bid ∧ price t < price s := by
      intro t
      rw [testBid_eq_none, hbounds, bid_stashed_iff]
    refine ⟨?_, fun t _ => hrejected t⟩
    intro spot t st' hpick hbid s hs hside
    obtain ⟨-, -, ⟨hask, -⟩ | ⟨-, htest⟩⟩ := pickBestTaker_spec hpick
    · rw [hask] at hbid
      cases hbid
    · by_contra hlt
      exact htested htest ((hrejected t).2 ⟨s, hs, hside, not_le.1 hlt⟩)
  · intro hbids hrejected
    refine eq_of_forall_lt_iff fun p => ?_
    obtain ⟨t, hbid, rfl⟩ := hbids p
    rw [← testBid_eq_none, hrejected t hbid, bid_stashed_iff]

end Stash

end Splash.LiquidityBook

/-! ## A book that stashes an order -/

namespace Splash.Agent

open Lib LiquidityBook Cardano Sample MarketTaker

/-- A bid that is filled first, with less than it asks for. -/
def greedyBid : AnyOrder := order 2 tokenB tokenA 10 1 3 1000

/-- An ask and a bid that match each other exactly, once the greedy bid is stashed. -/
def stashingBook : SettledBook :=
  settledBook [order 1 tokenA tokenB 100 1 1 0, greedyBid, order 3 tokenB tokenA 100 1 2 0]
    [pool tokenA tokenB 1000000 1000000]

theorem stashingBook_rollback : ∃ recipe after,
    (TLBState.idle stashingBook).Attempt (I := Token) .byKey config (some recipe) after ∧
      after.onRecipeFailed = .idle stashingBook := by
  obtain ⟨recipe, after, h, -⟩ := exists_recipe .byKey config stashingBook 20 (fun _ _ => true) (by decide +kernel)
  exact ⟨recipe, after, h, (attempt_rollback_restores h).2 recipe rfl⟩

theorem stashingBook_commit : ∃ recipe after st',
    (TLBState.idle stashingBook).Attempt (I := Token) .byKey config (some recipe) after ∧
      after.onRecipeSucceeded = .idle st' ∧
      ((∀ t, stashingBook.takers.Holds t → (∀ take ∈ recipe.takes, take.target ≠ t) →
        st'.takers.Holds t) ↔ ¬ after.LosesStash) := by
  obtain ⟨recipe, after, h, -⟩ := exists_recipe .byKey config stashingBook 20 (fun _ _ => true) (by decide +kernel)
  obtain ⟨st', hcommit, hkeeps⟩ := attempt_commit_keeps_iff (by decide +kernel) h
  exact ⟨recipe, after, st', h, hcommit, hkeeps⟩

/-- The recipe does not target the greedy bid, and committing its preview forgets it. -/
def forgetsGreedyBid (recipe : MatchmakingRecipe AnyOrder ClassifiedPool) : Book → Bool
  | .partialPreview st =>
    recipe.takes.all (·.target ≠ greedyBid) && !st.commit.takers.Holds greedyBid
  | _ => false

/-- The greedy bid is stashed, no target of the recipe, and gone when the recipe succeeds. -/
theorem stashingBook_loses_greedyBid : ∃ recipe after st',
    (TLBState.idle stashingBook).Attempt (I := Token) .byKey config (some recipe) after ∧
      after.onRecipeSucceeded = .idle st' ∧ stashingBook.takers.Holds greedyBid ∧
      (∀ take ∈ recipe.takes, take.target ≠ greedyBid) ∧ ¬ st'.takers.Holds greedyBid := by
  obtain ⟨recipe, after, h, hlost⟩ := exists_recipe .byKey config stashingBook 20 forgetsGreedyBid (by decide +kernel)
  unfold forgetsGreedyBid at hlost
  split at hlost
  case h_2 => cases hlost
  case h_1 st =>
    rw [Bool.and_eq_true, List.all_eq_true] at hlost
    obtain ⟨htargets, hgone⟩ := hlost
    refine ⟨recipe, .partialPreview st, st.commit, h, rfl, by decide +kernel, ?_, ?_⟩
    · intro take htake
      simpa using htargets take htake
    · simpa using hgone

/-! ## A stashed ask and a stashed bid -/

/-- A bid at a third of the price. -/
def modestBid : AnyOrder := order 3 tokenB tokenA 100 3 1 0

/-- A retry on a book with one bid, after the given taker was stashed. -/
def retrying (stashed : AnyOrder) : Book :=
  .partialPreview
    { takersPreview := (settledBook [modestBid] []).takers
      consumedActiveTakers := []
      stashedActiveTakers := [stashed]
      makersIntact := .new
      makersPreview := .new }

theorem exists_bid (p : AbsolutePrice) : ∃ t : AnyOrder, side t = .bid ∧ price t = p :=
  ⟨.limit
    { LimitOrder.sampleLimit 1 0 with
      inputAsset := tokenB
      outputAsset := tokenA
      basePrice := p⁻¹ }, rfl, inv_inv p⟩

theorem retrying_not_respected :
    (retrying modestBid).allowedPriceRange.maxAskPrice.getD 0 ≠
      (retrying modestBid).allowedPriceRange.minBidPrice.getD 0 ∧
    ¬ ∀ t : AnyOrder, side t = .bid → ((retrying modestBid).allowedPriceRange.testBid t = none ↔
      ∃ s ∈ (retrying modestBid).stashedActiveTakers, side s = .bid ∧ price t < price s) := by
  have hbounds : (retrying modestBid).allowedPriceRange.maxAskPrice.getD 0 ≠
      (retrying modestBid).allowedPriceRange.minBidPrice.getD 0 := by decide +kernel
  exact ⟨hbounds, fun hall =>
    hbounds ((pick_respects_stash_iff (retrying modestBid)).2.2.2 exists_bid hall)⟩

/-- The greedy bid is stashed and a worse bid is picked; an ask is stashed and the bid is rejected. -/
theorem modestBid_picked_and_rejected :
    (∃ st', (retrying greedyBid).pickBestTaker 1 = .ok (some (modestBid, st')) ∧
      price modestBid < price greedyBid) ∧
    (retrying (order 1 tokenA tokenB 100 1 1 0)).pickBestTaker 1 = .ok none := by
  refine ⟨⟨_, rfl, by decide +kernel⟩, by decide +kernel⟩

end Splash.Agent
