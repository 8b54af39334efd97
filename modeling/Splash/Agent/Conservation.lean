import Splash.Agent.Book
import Splash.LiquidityBook.Fills

/-!
# Conservation of assets

What goes into a batch on one side comes out on the other. A taker pays its input and gets its
output, a pool moves its reserves, and a graduated pool keeps operator fees pending in the native
asset. A trade that is exempt from the fee resets the fee that is pending, and only that breaks the
balance.

* `finalizeTakes_flow`, `finalizeMakes_flow` — rebalancing moves what it leaves over to the takers.
* `fill_balance` — the balance of one fill.
* `attempt_conserves_iff` — the balance of a recipe.
-/

namespace Splash.LiquidityBook

open Lib MarketTaker List

/-! ## What takers pay and get -/

variable {T I U : Type} [MarketTaker T U]

def takeBase (take : TakeInProgress T) : ℤ :=
  match side take.target with
  | .ask => input take.target - TakeInProgress.remainingInput take
  | .bid => output take.target - TakeInProgress.accumulatedOutput take

def takeQuote (take : TakeInProgress T) : ℤ :=
  match side take.target with
  | .ask => output take.target - TakeInProgress.accumulatedOutput take
  | .bid => input take.target - TakeInProgress.remainingInput take

theorem takeBase_telescopes : Telescopes (takeBase (T := T)) := by
  intro a b c hside hprice
  simp only [takeBase, hside]
  cases side a <;> simp only [TakeInProgress.remainingInput, TakeInProgress.accumulatedOutput] <;> ring

theorem takeQuote_telescopes : Telescopes (takeQuote (T := T)) := by
  intro a b c hside hprice
  simp only [takeQuote, hside]
  cases side a <;> simp only [TakeInProgress.remainingInput, TakeInProgress.accumulatedOutput] <;> ring

theorem Booked.flow {P : T → Prop} {t : T} {removed added : ℕ} {next : Next T TerminalTake}
    (h : Booked P t removed added next) :
    (side t = .ask → takeBase ⟨t, next⟩ = removed ∧ takeQuote ⟨t, next⟩ = -added) ∧
      (side t = .bid → takeBase ⟨t, next⟩ = -added ∧ takeQuote ⟨t, next⟩ = removed) := by
  have hin := h.input_eq
  have hout := h.output_eq
  constructor
  · intro hside
    simp only [takeBase, takeQuote, hside]
    omega
  · intro hside
    simp only [takeBase, takeQuote, hside]
    omega

variable [TakerBehaviour T] [ExactTaker T]

theorem finalized_flow {take final : TakeInProgress T} {excess : ℕ}
    (hexact : ∀ t, take.result = .succ t → Exact t)
    (h : TakeInProgress.finalized take excess = .ok final) :
    (side take.target = .ask →
        takeBase final = takeBase take ∧ takeQuote final = takeQuote take - excess) ∧
      (side take.target = .bid →
        takeBase final = takeBase take - excess ∧ takeQuote final = takeQuote take) := by
  obtain ⟨htarget, hinput, houtput⟩ := TakeInProgress.finalized_spec hexact h
  constructor
  all_goals
    intro hside
    simp only [takeBase, takeQuote, htarget, hside, hinput, houtput, true_and,
      and_true]
    omega

theorem finalizeTakes_flow {excess left : Excess} {takes out : List (I × TakeInProgress T)}
    (hexact : ∀ e ∈ takes, ∀ t, e.2.result = .succ t → Exact t)
    (h : MatchmakingAttempt.finalizeTakes excess takes = .ok (out, left)) :
    (out.map (takeBase ·.2)).sum = (takes.map (takeBase ·.2)).sum - excess.base + left.base ∧
      (out.map (takeQuote ·.2)).sum = (takes.map (takeQuote ·.2)).sum - excess.quote + left.quote := by
  induction takes generalizing excess out with
  | nil =>
    cases h
    simp
  | cons e rest ih =>
    obtain ⟨id, take⟩ := e
    have hrest : ∀ e ∈ rest, ∀ t, e.2.result = .succ t → Exact t := fun e he =>
      hexact e (mem_cons_of_mem _ he)
    have htake : ∀ t, take.result = .succ t → Exact t := hexact _ mem_cons_self
    obtain ⟨final, balanced, rfl, ⟨hside, hfinal, h⟩ | ⟨hside, hfinal, h⟩⟩ :=
      MatchmakingAttempt.finalizeTakes_cons h
    · have hflow := (finalized_flow htake hfinal).2 hside
      have hothers := ih hrest h
      simp only [map_cons, sum_cons] at hothers ⊢
      omega
    · have hflow := (finalized_flow htake hfinal).1 hside
      have hothers := ih hrest h
      simp only [map_cons, sum_cons] at hothers ⊢
      omega

end Splash.LiquidityBook

namespace Splash.Agent

open Lib LiquidityBook Cardano MarketTaker

/-! ## What pools pay and get -/

section

variable (pair : PairId) (make : MakeInProgress ClassifiedPool)

/-- Base that a pool holds, with the fee that is pending when the base is the native asset. -/
def heldBase (p : ClassifiedPool) : ℤ :=
  p.inner.liquidity.base + if pair.base = .native then (p.pendingOperatorFee : ℤ) else 0

def makeBase : ℤ :=
  heldBase pair make.target - heldBase pair make.result

def makeQuote : ℤ :=
  make.target.inner.liquidity.quote - make.result.inner.liquidity.quote

theorem makeBase_telescopes : TelescopesMake (makeBase pair) := by
  intro a b c
  simp only [makeBase]
  ring

end

theorem makeQuote_telescopes : TelescopesMake makeQuote := by
  intro a b c
  simp only [makeQuote]
  ring

section Finalized

variable [Numerics] [LiquidityEstimates]

theorem finalizedMake_flow (pair : PairId) {make final : MakeInProgress ClassifiedPool}
    {e : Excess} (h : MakeInProgress.finalized make = .ok (some (final, e))) :
    makeBase pair final = makeBase pair make + e.base ∧
      makeQuote final = makeQuote make + e.quote := by
  unfold MakeInProgress.finalized at h
  dsimp only at h
  split at h
  case h_1 tradeInput hbase =>
    obtain ⟨rebalanced, hswap, h⟩ := Exec.bind_eq_ok.1 h
    obtain ⟨inner, hinner, hret⟩ := Exec.bind_eq_ok.1 hswap
    cases hret
    obtain ⟨-, -, out, hmoved⟩ := AnyPool.swap_spec hinner
    obtain ⟨hnewBase, hnewQuote⟩ := hmoved
    split at h
    case h_2 => cases h
    case h_1 excess hexcess =>
      cases h
      have hbase := checkedSub_eq_some.1 hbase
      have hexcess := checkedSub_eq_some.1 hexcess
      simp only [makeBase, makeQuote, heldBase, MarketMaker.liquidity,
        MakerBehavior.preservePreviewMetadata] at hbase hexcess ⊢
      omega
  case h_2 =>
    split at h
    case h_2 => cases h
    case h_1 tradeInput hquote =>
      obtain ⟨rebalanced, hswap, h⟩ := Exec.bind_eq_ok.1 h
      obtain ⟨inner, hinner, hret⟩ := Exec.bind_eq_ok.1 hswap
      cases hret
      obtain ⟨-, -, out, hmoved⟩ := AnyPool.swap_spec hinner
      obtain ⟨hnewQuote, hnewBase⟩ := hmoved
      split at h
      case h_2 => cases h
      case h_1 excess hexcess =>
        cases h
        have hquote := checkedSub_eq_some.1 hquote
        have hexcess := checkedSub_eq_some.1 hexcess
        simp only [makeBase, makeQuote, heldBase, MarketMaker.liquidity,
          MakerBehavior.preservePreviewMetadata] at hquote hexcess ⊢
        omega

theorem finalizeMakes_flow {J : Type} (pair : PairId) {excess total : Excess}
    {makes out : List (J × MakeInProgress ClassifiedPool)}
    (h : MatchmakingAttempt.finalizeMakes excess makes = .ok (some (out, total))) :
    (out.map (makeBase pair ·.2)).sum =
        (makes.map (makeBase pair ·.2)).sum + total.base - excess.base ∧
      (out.map (makeQuote ·.2)).sum = (makes.map (makeQuote ·.2)).sum + total.quote - excess.quote := by
  induction makes generalizing excess out with
  | nil =>
    cases h
    simp
  | cons e rest ih =>
    obtain ⟨final, e', balanced, rfl, hfinal, h⟩ := MatchmakingAttempt.finalizeMakes_cons h
    have hflow := finalizedMake_flow pair hfinal
    have hothers := ih h
    simp only [List.map_cons, List.sum_cons] at hothers ⊢
    omega

end Finalized

/-! ## The balance of a fill -/

def droppedFee (pair : PairId) : Fill AnyOrder ClassifiedPool → ℕ
  | .taker _ _ => 0
  | .maker take make =>
    if pair.base = .native ∧ make.target.feeApplicable take.target = false then
      make.target.pendingOperatorFee
    else 0

/-- A trade that is exempt from the operator fee, with a pool that has a fee pending in the base
asset. -/
def DropsFee (pair : PairId) : Fill AnyOrder ClassifiedPool → Prop
  | .taker _ _ => False
  | .maker take make =>
    pair.base = .native ∧ make.target.feeApplicable take.target = false ∧
      0 < make.target.pendingOperatorFee

variable {fill : Fill AnyOrder ClassifiedPool}

theorem droppedFee_eq_zero {pair : PairId} :
    droppedFee pair fill = 0 ↔ ¬ DropsFee pair fill := by
  cases fill with
  | taker takeA takeB => simp [droppedFee, DropsFee]
  | maker take make =>
    simp only [droppedFee, DropsFee]
    split <;> grind

section Filled

variable [Numerics]

variable {p : ClassifiedPool}

theorem effectivePrice_ask_zero {t : AnyOrder} {price : AbsolutePrice} :
    p.effectivePrice t (.ask 0) ≠ .ok (some price) := by
  intro h
  unfold ClassifiedPool.effectivePrice at h
  split at h
  · split at h
    · unfold ClassifiedPool.nativeInputPrice at h
      dsimp only at h
      split at h
      case h_1 hnet _ =>
        have := ClassifiedPool.netAmountAfterOperatorFee_eq_some hnet
        simp only [OnSide.unwrap_ask] at this
        omega
      case h_2 => cases h
    · split at h
      · unfold ClassifiedPool.nativeOutputPrice at h
        obtain ⟨estimated, -, h⟩ := Exec.bind_eq_ok.1 h
        split at h
        · dsimp only at h
          split at h <;> cases h
        · cases h
      · cases h
  · obtain ⟨out, -, h⟩ := Exec.bind_eq_ok.1 h
    cases h

variable [LiquidityEstimates]

/-- A preselected pool takes a positive chunk of an ask. -/
theorem previewFill_ask_pos {t : AnyOrder} {limit : AbsolutePrice} {demand : ℕ} {optimized : Bool}
    {sid : Token} {preview : FillPreview}
    (h : previewFill t limit demand .ask optimized p = .ok (some (sid, preview))) :
    0 < preview.input := by
  have hdummy : dummySwap t demand .ask p = .ok (some (sid, preview)) → 0 < preview.input := by
    intro h
    obtain ⟨price, hprice, h⟩ := Exec.bind_eq_ok.1 h
    split at h <;> cases h
    refine Nat.pos_of_ne_zero fun hzero => ?_
    simp only at hzero
    subst hzero
    exact effectivePrice_ask_zero hprice
  unfold previewFill at h
  split at h
  · obtain ⟨o, ho, h⟩ := Exec.bind_eq_ok.1 h
    split at h
    · cases h
      unfold tryOptimizedSwap at ho
      split at ho
      · cases ho
      · obtain ⟨price, -, ho⟩ := Exec.bind_eq_ok.1 ho
        split at ho
        · cases ho
        · split at ho <;> cases ho
          rename_i hpos
          exact hpos.1
    · exact hdummy h
  · exact hdummy h

theorem given_eq {inner : AnyPool} {input : OnSide ℕ}
    (hpos : ∀ i, input = .ask i → 0 < i) (hswap : p.inner.swap input = .ok inner) :
    Traded p.inner.liquidity inner.liquidity input (p.given inner) := by
  obtain ⟨-, -, out, hmoved⟩ := AnyPool.swap_spec hswap
  rwa [ClassifiedPool.given, givenBy_eq hmoved hpos]

variable {pair : PairId} {p : ClassifiedPool} {t : AnyOrder} {take : TakeInProgress AnyOrder}
  {make : MakeInProgress ClassifiedPool}

section

variable {amount : ℕ} (hexact : Exact t) (hpair : p.inner.pairId = pair)
  (hquote : pair.quote ≠ .native)
include hexact hpair hquote

theorem ask_balance (hside : side t = .ask) (hpos : 0 < amount)
    (h : ClassifiedPool.TradeCase p t (.ask amount) take make) :
    takeBase take + makeBase pair make = droppedFee pair (.maker take make) ∧
      takeQuote take + makeQuote make = 0 := by
  cases h with
  | none happlicable => simp [takeBase, takeQuote, hside, TakeInProgress.remainingInput,
      TakeInProgress.accumulatedOutput, makeBase, makeQuote, droppedFee, happlicable]
  | plain happlicable hswap htrade =>
    have hflow := (ExactTaker.trade hexact htrade).flow.1 hside
    obtain ⟨hbase, hquote⟩ := given_eq (fun i hi => by cases hi; exact hpos) hswap
    simp only [makeBase, makeQuote, heldBase, droppedFee, happlicable, hflow, OnSide.unwrap_ask,
      and_true]
    split <;> omega
  | @feeOnInput net inner next happlicable hnative hnet hnetPos hswap htrade =>
    have hflow := (ExactTaker.trade hexact htrade).flow.1 hside
    have hmoved : Traded _ _ (.ask net) _ := given_eq (fun i hi => by cases hi; exact hnetPos) hswap
    obtain ⟨hbase, hquote⟩ := hmoved
    have hpairBase : pair.base = .native := hpair ▸ hnative
    simp only [makeBase, makeQuote, heldBase, droppedFee, happlicable, hflow, hpairBase,
      OnSide.unwrap_ask] at hnet ⊢
    simp only [if_true, Bool.true_eq_false, and_false, if_false]
    push_cast
    omega
  | feeOnOutput _ _ hnative => exact absurd (hpair ▸ hnative) hquote

theorem bid_balance (hside : side t = .bid)
    (h : ClassifiedPool.TradeCase p t (.bid amount) take make) :
    takeBase take + makeBase pair make = droppedFee pair (.maker take make) ∧
      takeQuote take + makeQuote make = 0 := by
  cases h with
  | none happlicable => simp [takeBase, takeQuote, hside, TakeInProgress.remainingInput,
      TakeInProgress.accumulatedOutput, makeBase, makeQuote, droppedFee, happlicable]
  | plain happlicable hswap htrade =>
    have hflow := (ExactTaker.trade hexact htrade).flow.2 hside
    obtain ⟨hquote, hbase⟩ := given_eq (fun i hi => by cases hi) hswap
    simp only [makeBase, makeQuote, heldBase, droppedFee, happlicable, hflow, OnSide.unwrap_bid,
      and_true]
    split <;> omega
  | feeOnInput _ hnative => exact absurd (hpair ▸ hnative) hquote
  | feeOnOutput happlicable hother hnative hswap hnet hnetPos htrade =>
    have hflow := (ExactTaker.trade hexact htrade).flow.2 hside
    obtain ⟨hquote, hbase⟩ := given_eq (fun i hi => by cases hi) hswap
    have hpairBase : pair.base = .native := hpair ▸ hnative
    simp only [makeBase, makeQuote, heldBase, droppedFee, happlicable, hflow, hpairBase,
      OnSide.unwrap_bid] at hnet ⊢
    simp only [if_true, Bool.true_eq_false, and_false, if_false]
    push_cast
    omega

end

/-- **The balance of a fill.** It is even but for the pending fee that it resets. -/
theorem fill_balance {s s' : Matching AnyOrder ClassifiedPool Token Token ExUnits}
    (hlink : LinkInv [] s.book s.batch)
    (hpools : ∀ {sid m}, s.book.pools.values.get? sid = some m → m.inner.pairId = pair)
    (hquote : pair.quote ≠ .native) (hfill : Filled s fill s') :
    fill.total takeBase (makeBase pair) = droppedFee pair fill ∧
      fill.total takeQuote makeQuote = 0 := by
  cases hfill with
  | @taker target counter takeA takeB spot htarget hcounter hside hprice hexec =>
    obtain ⟨base, quote, -, hask, hbid, hsides⟩ := executeWithTaker_spec hexec
    have htargetExact := hlink.exact (.inl htarget)
    have hcounterExact := hlink.exact (.inl (MarketTakers.mem_remove.1 hcounter).1)
    have hA : side takeA.target = .ask ∧ Exact takeA.target := by
      rcases hsides with ⟨hs, ha, -⟩ | ⟨hs, ha, -⟩
      · exact ⟨ha ▸ hs, ha ▸ htargetExact⟩
      · exact ⟨by rw [ha, hside, hs]; rfl, ha ▸ hcounterExact⟩
    have hB : side takeB.target = .bid ∧ Exact takeB.target := by
      rcases hsides with ⟨hs, -, hb⟩ | ⟨hs, -, hb⟩
      · exact ⟨by rw [hb, hside, hs]; rfl, hb ▸ hcounterExact⟩
      · exact ⟨hb ▸ hs, hb ▸ htargetExact⟩
    have hflowA : takeBase takeA = base ∧ takeQuote takeA = -quote :=
      (ExactTaker.trade hA.2 hask).flow.1 hA.1
    have hflowB : takeBase takeB = -base ∧ takeQuote takeB = quote :=
      (ExactTaker.trade hB.2 hbid).flow.2 hB.1
    simp only [Fill.total, droppedFee]
    omega
  | @maker target maker sid preview take make htarget hmaker hpreview hprice hswap =>
    have hcase := ClassifiedPool.swapWithTaker_cases hswap
    have hexact := hlink.exact (.inl htarget)
    cases hs : side target with
    | ask =>
      rw [hs] at hcase hpreview
      exact ask_balance hexact (hpools hmaker) hquote hs (previewFill_ask_pos hpreview) hcase
    | bid =>
      rw [hs] at hcase
      exact bid_balance hexact (hpools hmaker) hquote hs hcase

end Filled

/-! ## The balance of a recipe -/

def removedFrom (s : Side) (takes : List (TakeInProgress AnyOrder)) : ℤ :=
  ((takes.filter (side ·.target = s)).map fun take =>
    (input take.target : ℤ) - TakeInProgress.remainingInput take).sum

def addedTo (s : Side) (takes : List (TakeInProgress AnyOrder)) : ℤ :=
  ((takes.filter (side ·.target = s)).map fun take =>
    (TakeInProgress.accumulatedOutput take : ℤ) - output take.target).sum

/-- Base that makers gain, with the increase of pending fees when the base is the native asset. -/
def gainedBase (pair : PairId) (makes : List (MakeInProgress ClassifiedPool)) : ℤ :=
  (makes.map fun make =>
    ((make.result.inner.liquidity.base : ℤ) - make.target.inner.liquidity.base) +
      if pair.base = .native then
        (make.result.pendingOperatorFee : ℤ) - make.target.pendingOperatorFee
      else 0).sum

def gainedQuote (makes : List (MakeInProgress ClassifiedPool)) : ℤ :=
  (makes.map fun make =>
    (make.result.inner.liquidity.quote : ℤ) - make.target.inner.liquidity.quote).sum

/-- What asks and bids give is what bids and asks receive and makers gain. -/
def Conserves (pair : PairId) (recipe : MatchmakingRecipe AnyOrder ClassifiedPool) : Prop :=
  removedFrom .ask recipe.takes = addedTo .bid recipe.takes + gainedBase pair recipe.makes ∧
    removedFrom .bid recipe.takes = addedTo .ask recipe.takes + gainedQuote recipe.makes

instance (pair : PairId) (recipe : MatchmakingRecipe AnyOrder ClassifiedPool) :
    Decidable (Conserves pair recipe) :=
  inferInstanceAs (Decidable (_ ∧ _))

theorem sum_takes (takes : List (TakeInProgress AnyOrder)) :
    (takes.map takeBase).sum = removedFrom .ask takes - addedTo .bid takes ∧
      (takes.map takeQuote).sum = removedFrom .bid takes - addedTo .ask takes := by
  induction takes with
  | nil => simp [removedFrom, addedTo]
  | cons take takes ih =>
    simp only [removedFrom, addedTo] at ih ⊢
    cases hside : side take.target
    all_goals
      simp only [List.map_cons, List.sum_cons, takeBase, takeQuote, hside, List.filter_cons,
        decide_true, if_true, reduceCtorEq, decide_false, Bool.false_eq_true, if_false]
      omega

theorem sum_makes (pair : PairId) (makes : List (MakeInProgress ClassifiedPool)) :
    (makes.map (makeBase pair)).sum = -gainedBase pair makes ∧
      (makes.map makeQuote).sum = -gainedQuote makes := by
  induction makes with
  | nil => simp [gainedBase, gainedQuote]
  | cons make makes ih =>
    simp only [gainedBase, gainedQuote] at ih ⊢
    simp only [List.map_cons, List.sum_cons, makeBase, makeQuote, heldBase] at ih ⊢
    split_ifs at ih ⊢ <;> omega

section Recipe

variable [Numerics] [LiquidityEstimates] {ord : HashOrder} {conf : ExecutionConfig ExUnits}

theorem recipe_total (pair : PairId)
    {batch : MatchmakingAttempt AnyOrder ClassifiedPool Token Token ExUnits}
    {recipe : MatchmakingRecipe AnyOrder ClassifiedPool}
    (hexact : ∀ {id take t}, batch.takes.get? id = some take → take.result = .succ t → Exact t)
    (h : MatchmakingRecipe.tryFrom ord conf batch = .ok (.recipe recipe)) :
    (recipe.takes.map takeBase).sum + (recipe.makes.map (makeBase pair)).sum =
        batch.total takeBase (makeBase pair) ∧
      (recipe.takes.map takeQuote).sum + (recipe.makes.map makeQuote).sum =
        batch.total takeQuote makeQuote := by
  obtain ⟨final, hfinal, -, htakes, hmakes⟩ := MatchmakingRecipe.tryFrom_eq_recipe h
  obtain ⟨excess, hfinalMakes, hfinalTakes⟩ := MatchmakingRecipe.finalized_eq_some hfinal
  have hmakesFlow := finalizeMakes_flow pair hfinalMakes
  have htakesFlow := finalizeTakes_flow (fun e he t ht =>
    hexact (OrdMap.mem_toList_iff.1 (ord.mem_arrange.1 he)) ht) hfinalTakes
  have hsumTakes : ∀ f : TakeInProgress AnyOrder → ℤ,
      ((ord.arrange batch.takes.toList).map (f ·.2)).sum = (batch.takes.values.map f).sum := by
    intro f
    rw [((ord.perm batch.takes.toList).map _).sum_eq, OrdMap.values, List.map_map]
    rfl
  have hsumMakes : ∀ g : MakeInProgress ClassifiedPool → ℤ,
      ((ord.arrange batch.makes.toList).map (g ·.2)).sum = (batch.makes.values.map g).sum := by
    intro g
    rw [((ord.perm batch.makes.toList).map _).sum_eq, OrdMap.values, List.map_map]
    rfl
  have hrecipeTakes : ∀ f : TakeInProgress AnyOrder → ℤ,
      (recipe.takes.map f).sum = (final.takes.map (f ·.2)).sum := by
    intro f
    rw [(htakes.map f).sum_eq, List.map_map]
    rfl
  have hrecipeMakes : ∀ g : MakeInProgress ClassifiedPool → ℤ,
      (recipe.makes.map g).sum = (final.makes.map (g ·.2)).sum := by
    intro g
    rw [(hmakes.map g).sum_eq, List.map_map]
    rfl
  simp only [hsumTakes, hsumMakes] at hmakesFlow htakesFlow
  simp only [hrecipeTakes, hrecipeMakes, MatchmakingAttempt.total]
  constructor
  · push_cast at hmakesFlow htakesFlow
    omega
  · push_cast at hmakesFlow htakesFlow
    omega

theorem swapWithTaker_pairId {pair : PairId} {t : AnyOrder} {m : ClassifiedPool} {chunk : OnSide ℕ}
    {take : TakeInProgress AnyOrder} {make : MakeInProgress ClassifiedPool}
    (hm : m.inner.pairId = pair)
    (h : MakerBehavior.swapWithTaker t m chunk = .ok (take, make)) :
    make.result.inner.pairId = pair := by
  cases ClassifiedPool.swapWithTaker_cases h with
  | none => exact hm
  | plain _ hswap => exact (AnyPool.swap_spec hswap).2.1.trans hm
  | feeOnInput _ _ _ _ hswap => exact (AnyPool.swap_spec hswap).2.1.trans hm
  | feeOnOutput _ _ _ hswap => exact (AnyPool.swap_spec hswap).2.1.trans hm

theorem fills_balance {pair : PairId} {st : SettledBook} {fills : List (Fill AnyOrder ClassifiedPool)}
    {s : Matching AnyOrder ClassifiedPool Token Token ExUnits}
    (hids : st.takers.DistinctIds) (hexact : ∀ t ∈ st.takers.active, t.IsExact)
    (hpair : ∀ sid m, st.makers.values.get? sid = some m → m.inner.pairId = pair)
    (hquote : pair.quote ≠ .native) (h : FilledBy ord conf st fills s) :
    (fills.map (Fill.total takeBase (makeBase pair))).sum = (fills.map (droppedFee pair)).sum ∧
      (fills.map (Fill.total takeQuote makeQuote)).sum = 0 := by
  obtain ⟨s₀, hs₀, hempty, hround⟩ := h
  induction hround with
  | nil => simp
  | snoc hrest _ hfill ih =>
    have hbefore : FilledBy ord conf st _ _ := ⟨s₀, hs₀, hempty, hrest⟩
    have hone := fill_balance (hbefore.linkInv hids hexact)
      (pools_invariant (P := fun m => m.inner.pairId = pair) swapWithTaker_pairId (hpair _ _)
        hbefore.reaches) hquote hfill
    simp only [List.map_append, List.sum_append, List.map_cons, List.map_nil, List.sum_cons,
      List.sum_nil]
    omega

end Recipe

/-! ## A recipe that drops a fee -/

namespace Sample

def tokenPair : PairId := .canonical .native tokenB

/-- A grid order that sells `amount` of the native asset, at half a token for each unit or better. -/
def gridAsk (beacon amount : ℕ) : AnyOrder :=
  .grid
    { beacon
      baseAsset := .native
      quoteAsset := tokenB
      buyShiftFactor := 1
      sellShiftFactor := 1
      baseReserves := amount
      quoteReserves := 0
      quoteOffer := 2 * amount
      price := (1 : ℚ≥0) / (2 : ℕ)
      relativeSide := .ask
      minMarginalOutputBase := 0
      maxExecutionBudgetPerStep := 500000
      remainingExecutionBudget := 1000000
      marginalCost := ⟨1, 1⟩ }

/-- A limit order, which pays the fee, and a grid order, which is exempt, sell to the same pool. -/
def feeDroppingBook : SettledBook :=
  settledBook [order 1 .native tokenB 1000000 1 2 0, gridAsk 2 1000000]
    [graduated (pool .native tokenB 1000000000 1000000000)]

end Sample

end Splash.Agent
