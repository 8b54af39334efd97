import Splash.LiquidityBook.Commit

/-!
# The fills of a round

Within a round the batch merges the fills of each taker into one take, and those of each maker into
one make. The takers and makers at hand are where these takes and makes ended, so every further
fill extends them seamlessly.

* `TakeInProgress.finalized_spec` — finalization adds the excess to the output of an exact taker.
* `LinkInv`, `LinkInv.fill` — takers and makers at hand are the last states of their takes and makes.
* `LinkInv.total_fill` — a fill adds its own total to that of the batch.
* `FilledBy`, `FilledBy.linkInv`, `FilledBy.total` — the same for all fills of a round.
-/

namespace Splash.LiquidityBook

open Lib MarketTaker TakerBehaviour MatchmakingAttempt Exec List TLBState

variable {T M I J U : Type} [MarketTaker T U] [TakerBehaviour T] [ExactTaker T]

/-! ## Exact takers -/

theorem TakeInProgress.finalized_spec {take final : TakeInProgress T} {excess : ℕ}
    (hexact : ∀ t, take.result = .succ t → Exact t)
    (h : TakeInProgress.finalized take excess = .ok final) :
    final.target = take.target ∧ remainingInput final = remainingInput take ∧
      accumulatedOutput final = accumulatedOutput take + excess := by
  unfold TakeInProgress.finalized at h
  obtain ⟨removed, -, h⟩ := bind_eq_ok.1 h
  split at h
  case h_1 next hnext =>
    obtain ⟨t₁, h₁, h⟩ := bind_eq_ok.1 h
    obtain ⟨t₂, h₂, h⟩ := bind_eq_ok.1 h
    have hbooked := ExactTaker.close (-(consumableBudget take.target : ℤ)) (hexact next hnext) h₁ h₂
    have hfinal : ⟨take.target, tryTerminate (withBudgetCorrected t₂ _).2⟩ = final :=
      Except.ok.inj h
    subst hfinal
    refine ⟨rfl, ?_, ?_⟩
    · have := hbooked.input_eq
      simp only [remainingInput, hnext] at this ⊢
      omega
    · have := hbooked.output_eq
      simp only [accumulatedOutput, hnext] at this ⊢
      omega
  case h_2 term hterm =>
    obtain ⟨t₁, h₁, h⟩ := bind_eq_ok.1 h
    obtain ⟨t₂, h₂, h⟩ := bind_eq_ok.1 h
    cases h
    obtain ⟨o, ho, h₁⟩ := bind_eq_ok.1 h₁
    obtain ⟨-, rfl⟩ := addU64_eq_ok.1 ho
    cases h₁
    obtain ⟨f, hf, h₂⟩ := bind_eq_ok.1 h₂
    cases h₂
    refine ⟨rfl, ?_, ?_⟩
    · simp [remainingInput, hterm]
    · simp [accumulatedOutput, hterm]

variable {make : MakeInProgress M} {take : TakeInProgress T}

theorem maker_booked [Stable T I] [Stable M J] [MarketMaker M U] [MakerBehavior M] [LawfulTaker T]
    [LawfulMaker M] {t : T} {maker : M} {chunk : OnSide ℕ} (ht : Exact t)
    (hswap : MakerBehavior.swapWithTaker t maker chunk = .ok (take, make)) :
    (∃ removed added, Booked Exact t removed added take.result) ∧
      ∀ {t'}, take.result = .succ t' → stableId t' = stableId t := by
  rcases LawfulMaker.swapWithTaker_fill hswap with ⟨hsame, -⟩ | ⟨out, hout⟩
  · rw [hsame]
    refine ⟨⟨0, 0, .refl ht⟩, fun hnext => ?_⟩
    cases hnext
    rfl
  · exact ⟨⟨_, _, ExactTaker.trade ht hout⟩, fun hnext =>
      LawfulTaker.stableId_withAppliedTrade (hout.trans (congrArg _ hnext))⟩

/-! ## Takers and makers at hand -/

section Link

variable [FrontierOrd T] [LinearOrder I] [LinearOrder J] [Stable T I] [Stable M J]

/-- The taker is active, or picked and neither traded nor put back yet. -/
def AtHand (held : List T) (book : TLBState T M J) (t : T) : Prop :=
  t ∈ book.activeFragments ∨ t ∈ held

/-- What links the takers and makers at hand to the batch, while the takers `held` are picked and
neither traded nor put back yet. -/
structure LinkInv (held : List T) (book : TLBState T M J) (batch : MatchmakingAttempt T M I J U) :
    Prop where
  nodup : held.Nodup
  fresh : ∀ t ∈ held, t ∉ book.activeFragments
  distinct : ∀ {x y}, AtHand held book x → AtHand held book y → stableId x = stableId y → x = y
  exact : ∀ {x}, AtHand held book x → Exact x
  /-- A taker at hand is where its take has ended. -/
  linked : ∀ {x take}, AtHand held book x → batch.takes.get? (stableId x) = some take →
    take.result = .succ x
  /-- A maker at hand is where its make has ended. -/
  linkedMaker : ∀ {sid m make}, book.pools.values.get? sid = some m →
    batch.makes.get? sid = some make → make.result = m
  results : ∀ {id take x}, batch.takes.get? id = some take → take.result = .succ x →
    Exact x ∧ side x = side take.target ∧ price x = price take.target

namespace LinkInv

variable {held : List T} {book : TLBState T M J} {batch : MatchmakingAttempt T M I J U} {t : T}

theorem pick (h : LinkInv held book batch) (ht : t ∈ book.activeFragments) :
    LinkInv (t :: held) (book.pick t) batch := by
  have hhand : ∀ {x}, AtHand (t :: held) (book.pick t) x → AtHand held book x := by
    intro x hx
    rcases hx with hx | hx
    · rw [activeFragments_pick] at hx
      exact .inl (MarketTakers.mem_remove.1 hx).1
    · rcases mem_cons.1 hx with rfl | hx
      · exact .inl ht
      · exact .inr hx
  refine ⟨?_, ?_, ?_, ?_, ?_, ?_, h.results⟩
  · exact nodup_cons.2 ⟨fun hheld => h.fresh t hheld ht, h.nodup⟩
  · intro x hx hactive
    rw [activeFragments_pick, MarketTakers.mem_remove_of_mem ht] at hactive
    rcases mem_cons.1 hx with rfl | hx
    · exact hactive.2 rfl
    · exact h.fresh x hx hactive.1
  · exact fun hx hy => h.distinct (hhand hx) (hhand hy)
  · exact fun hx => h.exact (hhand hx)
  · exact fun hx => h.linked (hhand hx)
  · rw [pools_pick]
    exact h.linkedMaker

theorem perm {held' : List T} (h : LinkInv held book batch) (hheld : held.Perm held') :
    LinkInv held' book batch := by
  have hhand : ∀ {x}, AtHand held' book x → AtHand held book x := fun hx =>
    hx.imp_right hheld.mem_iff.2
  exact ⟨hheld.nodup_iff.1 h.nodup, fun x hx => h.fresh x (hheld.mem_iff.2 hx),
    fun hx hy => h.distinct (hhand hx) (hhand hy), fun hx => h.exact (hhand hx),
    fun hx => h.linked (hhand hx), h.linkedMaker, h.results⟩

theorem ne_of_picked (h : LinkInv (t :: held) book batch) {x : T} (hx : AtHand held book x) :
    stableId x ≠ stableId t := by
  intro hid
  have hhand : AtHand (t :: held) book x := hx.imp_right (mem_cons_of_mem t)
  obtain rfl := h.distinct hhand (.inr mem_cons_self) hid
  rcases hx with hx | hx
  · exact h.fresh x mem_cons_self hx
  · exact (nodup_cons.1 h.nodup).1 hx

theorem onMake [MarketMaker M U] {m : M} (h : LinkInv held book batch)
    (hm : ∀ make, batch.makes.get? (stableId m) = some make → make.result = m) :
    LinkInv held (book.onMake m) batch := by
  have hactive : (book.onMake m).activeFragments = book.activeFragments :=
    activeFragments_preAddMaker
  have hhand : ∀ {x}, AtHand held (book.onMake m) x → AtHand held book x := fun hx =>
    hx.imp_left (hactive ▸ ·)
  refine ⟨h.nodup, hactive.symm ▸ h.fresh, fun hx hy => h.distinct (hhand hx) (hhand hy),
    fun hx => h.exact (hhand hx), fun hx => h.linked (hhand hx), ?_, h.results⟩
  intro sid m' make hm' hmake
  rw [TLBState.onMake, pools_preAddMaker, MarketMakers.get?_updatePool] at hm'
  split at hm'
  case isTrue hsid =>
    cases hm'
    exact hm make (hsid ▸ hmake)
  case isFalse => exact h.linkedMaker hm' hmake

variable [Add U]

theorem settle {removed added : ℕ} (h : LinkInv (take.target :: held) book batch)
    (hbooked : Booked Exact take.target removed added take.result)
    (hid : ∀ {t'}, take.result = .succ t' → stableId t' = stableId take.target) :
    LinkInv held (book.onTake take.result) (batch.addTake take) := by
  have hhand : ∀ {x}, AtHand held (book.onTake take.result) x →
      AtHand held book x ∨ take.result = .succ x := by
    rintro x (hx | hx)
    · exact (mem_activeFragments_onTake hx).imp_left .inl
    · exact .inl (.inr hx)
  have hwider : ∀ {x}, AtHand held book x → AtHand (take.target :: held) book x := fun hx =>
    hx.imp_right (mem_cons_of_mem _)
  have htarget : AtHand (take.target :: held) book take.target := .inr mem_cons_self
  refine ⟨(nodup_cons.1 h.nodup).2, ?_, ?_, ?_, ?_, ?_, ?_⟩
  · intro x hx hactive
    rcases mem_activeFragments_onTake hactive with hactive | hnext
    · exact h.fresh x (mem_cons_of_mem _ hx) hactive
    · exact h.ne_of_picked (.inr hx) (hid hnext)
  · intro x y hx hy hxy
    rcases hhand hx with hx | hx <;> rcases hhand hy with hy | hy
    · exact h.distinct (hwider hx) (hwider hy) hxy
    · exact absurd (hxy.trans (hid hy)) (h.ne_of_picked hx)
    · exact absurd (hxy.symm.trans (hid hx)) (h.ne_of_picked hy)
    · cases hx.symm.trans hy
      rfl
  · intro x hx
    rcases hhand hx with hx | hx
    · exact h.exact (hwider hx)
    · exact (hbooked.succ hx).1
  · intro x take' hx htake'
    rcases hhand hx with hx | hx
    · have hne := h.ne_of_picked hx
      rcases takes_addTake_cases htake' with ⟨hsid, -⟩ | ⟨-, hget⟩
      · exact absurd hsid hne
      · exact h.linked (hwider hx) hget
    · rcases takes_addTake_cases htake' with ⟨-, rfl⟩ | ⟨hne, -⟩
      · rw [result_merged, hx]
      · exact absurd (hid hx) hne
  · intro sid m make hm hmake
    rw [pools_onTake] at hm
    exact h.linkedMaker hm hmake
  · intro id take' x htake' hx
    rcases takes_addTake_cases htake' with ⟨-, rfl⟩ | ⟨-, hget⟩
    · rw [result_merged] at hx
      obtain ⟨hexact, hside, hprice⟩ := hbooked.succ hx
      cases hearlier : batch.takes.get? (stableId take.target) with
      | none => exact ⟨hexact, hside, hprice⟩
      | some existing =>
        -- the earlier take ended where this one starts
        have hlink := h.results hearlier (h.linked htarget hearlier)
        exact ⟨hexact, hside.trans hlink.2.1, hprice.trans hlink.2.2⟩
    · exact h.results hget hx

theorem onMaker [MarketMaker M U] {sid : J}
    (h : LinkInv held book batch) (hsid : stableId make.target = sid) :
    LinkInv held (book.pickMakerById sid).2 (batch.addMake make) := by
  have hactive := @activeFragments_pickMakerById T M J U _ _ _ _ book sid
  have hhand : ∀ {x}, AtHand held (book.pickMakerById sid).2 x → AtHand held book x := fun hx =>
    hx.imp_left (hactive ▸ ·)
  refine ⟨h.nodup, hactive.symm ▸ h.fresh, fun hx hy => h.distinct (hhand hx) (hhand hy),
    fun hx => h.exact (hhand hx), fun hx => h.linked (hhand hx), ?_, h.results⟩
  intro sid' m make' hm hmake'
  rw [pools_pickMakerById, MarketMakers.get?_eraseValue] at hm
  rw [get?_makes_addMake, hsid] at hmake'
  split at hm
  · cases hm
  case isFalse hne =>
    rw [if_neg hne] at hmake'
    exact h.linkedMaker hm hmake'

variable [LawfulTaker T] {s s' : Matching T M I J U}

theorem takeBoth {target counter : T} {takeA takeB : TakeInProgress T} {f : T → T → AbsolutePrice}
    (h : LinkInv [] s.book s.batch) (htarget : target ∈ s.book.activeFragments)
    (hcounter : counter ∈ s.book.activeFragments.remove target)
    (hexec : executeWithTaker target counter f = .ok (takeA, takeB)) :
    let picked := (s.book.pick target).pick counter
    LinkInv [takeA.target, takeB.target] picked s.batch ∧
      LinkInv [takeB.target] (picked.onTake takeA.result) (s.batch.addTake takeA) ∧
      LinkInv [] ((picked.onTake takeA.result).onTake takeB.result)
        ((s.batch.addTake takeA).addTake takeB) := by
  obtain ⟨base, quote, -, hask, hbid, hsides⟩ := executeWithTaker_spec hexec
  have hpicked : LinkInv [counter, target] ((s.book.pick target).pick counter) s.batch :=
    (h.pick htarget).pick (by rwa [activeFragments_pick])
  have hheld : LinkInv [takeA.target, takeB.target] ((s.book.pick target).pick counter) s.batch := by
    rcases hsides with ⟨-, ha, hb⟩ | ⟨-, ha, hb⟩
    · rw [ha, hb]
      exact hpicked.perm (.swap _ _ _)
    · rwa [ha, hb]
  have hA := hheld.settle (ExactTaker.trade (hheld.exact (.inr (by simp))) hask) fun {t'} hres =>
    LawfulTaker.stableId_withAppliedTrade (hask.trans (congrArg _ hres))
  have hB := hA.settle (ExactTaker.trade (hheld.exact (.inr (by simp))) hbid) fun {t'} hres =>
    LawfulTaker.stableId_withAppliedTrade (hbid.trans (congrArg _ hres))
  exact ⟨hheld, hA, hB⟩

variable [MarketMaker M U] [MakerBehavior M] [LawfulMaker M]

/-- The takers and makers at hand after a fill are where their takes and makes have ended. -/
theorem fill {fill : Fill T M} (h : LinkInv [] s.book s.batch) (hfill : Filled s fill s') :
    LinkInv [] s'.book s'.batch := by
  cases hfill with
  | taker htarget hcounter _ _ hexec => exact (h.takeBoth htarget hcounter hexec).2.2
  | @maker target maker sid preview take make htarget hmaker hpreview hprice hswap =>
    obtain ⟨rfl, rfl, hsid⟩ := LawfulMaker.swapWithTaker_target hswap
    have hkey := s.book.pools.keyed hmaker
    obtain ⟨⟨removed, added, hbooked⟩, hid⟩ := maker_booked (h.exact (.inl htarget)) hswap
    refine (((h.pick htarget).onMaker hkey).settle hbooked hid).onMake ?_
    intro mk hmk
    rw [makes_addTake, get?_makes_addMake, if_pos hsid] at hmk
    cases hmk
    exact result_merged ..

end LinkInv

/-! ## Totals over a batch -/

section Total

variable {A : Type} [AddCommGroup A] {f : TakeInProgress T → A} {g : MakeInProgress M → A}

section

variable (f : TakeInProgress T → A) (g : MakeInProgress M → A)

/-- A value of takes that adds up when a take is extended. -/
def Telescopes : Prop :=
  ∀ {a b : T} {c : Next T TerminalTake}, side b = side a → price b = price a →
    f ⟨a, c⟩ = f ⟨a, .succ b⟩ + f ⟨b, c⟩

/-- A value of makes that adds up when a make is extended. -/
def TelescopesMake : Prop :=
  ∀ {a b c : M}, g ⟨a, c⟩ = g ⟨a, b⟩ + g ⟨b, c⟩

/-- The sum of a value of takes and a value of makes over a batch. -/
def MatchmakingAttempt.total (batch : MatchmakingAttempt T M I J U) : A :=
  (batch.takes.values.map f).sum + (batch.makes.values.map g).sum

/-- The sum of a value of takes and a value of makes over a fill. -/
def Fill.total : Fill T M → A
  | .taker takeA takeB => f takeA + f takeB
  | .maker take make => f take + g make

end

variable {held : List T} {book : TLBState T M J} {batch : MatchmakingAttempt T M I J U} [Add U]

theorem LinkInv.total_addTake (h : LinkInv (take.target :: held) book batch) (hf : Telescopes f) :
    (batch.addTake take).total f g = batch.total f g + f take := by
  have hsum := OrdMap.sum_values_insert f batch.takes (stableId take.target)
    (merged (batch.takes.get? (stableId take.target)) take)
  have hmerged : f (merged (batch.takes.get? (stableId take.target)) take) =
      (batch.takes.get? (stableId take.target)).elim 0 f + f take := by
    cases hearlier : batch.takes.get? (stableId take.target) with
    | none => simp [merged]
    | some existing =>
      have hresult := h.linked (.inr mem_cons_self) hearlier
      obtain ⟨-, hside, hprice⟩ := h.results hearlier hresult
      have := hf (c := take.result) hside hprice
      rw [← hresult] at this
      exact this
  rw [hmerged, ← add_assoc, add_right_comm] at hsum
  simp only [total, addTake, add_right_cancel hsum]
  abel

theorem LinkInv.total_addMake [MarketMaker M U] (h : LinkInv held book batch)
    (hmaker : book.pools.values.get? (stableId make.target) = some make.target)
    (hg : TelescopesMake g) : (batch.addMake make).total f g = batch.total f g + g make := by
  have hsum := OrdMap.sum_values_insert g batch.makes (stableId make.target)
    (merged (batch.makes.get? (stableId make.target)) make)
  have hmerged : g (merged (batch.makes.get? (stableId make.target)) make) =
      (batch.makes.get? (stableId make.target)).elim 0 g + g make := by
    cases hearlier : batch.makes.get? (stableId make.target) with
    | none => simp [merged]
    | some existing =>
      have hmake : ⟨existing.result, make.result⟩ = make := by rw [h.linkedMaker hmaker hearlier]
      have := hg (a := existing.target) (b := existing.result) (c := make.result)
      rw [hmake] at this
      exact this
  rw [hmerged, ← add_assoc, add_right_comm] at hsum
  simp only [total, addMake, add_right_cancel hsum]
  abel

variable [MarketMaker M U] [MakerBehavior M] [LawfulTaker T] [LawfulMaker M]
  {s s' : Matching T M I J U}

theorem LinkInv.total_fill {fill : Fill T M} (h : LinkInv [] s.book s.batch)
    (hfill : Filled s fill s') (hf : Telescopes f) (hg : TelescopesMake g) :
    s'.batch.total f g = s.batch.total f g + fill.total f g := by
  cases hfill with
  | taker htarget hcounter _ _ hexec =>
    obtain ⟨hheld, hA, -⟩ := h.takeBoth htarget hcounter hexec
    calc _ = (s.batch.addTake _).total f g + f _ := hA.total_addTake hf
      _ = s.batch.total f g + f _ + f _ := congrArg (· + _) (hheld.total_addTake hf)
      _ = _ := add_assoc _ _ _
  | @maker target maker sid preview take make htarget hmaker hpreview hprice hswap =>
    obtain ⟨rfl, rfl, -⟩ := LawfulMaker.swapWithTaker_target hswap
    have hkey := s.book.pools.keyed hmaker
    have hpick := h.pick htarget
    calc _ = (s.batch.addMake make).total f g + f take := (hpick.onMaker hkey).total_addTake hf
      _ = s.batch.total f g + g make + f take :=
        congrArg (· + _) (hpick.total_addMake (by rwa [pools_pick, hkey]) hg)
      _ = _ := by rw [Fill.total]; abel

end Total

end Link

/-! ## Rounds -/

section Rounds

variable [FrontierOrd T] [LinearOrder I] [LinearOrder J] [Stable T I] [Stable M J]
  [MarketMaker M U] [MakerBehavior M] [Zero U] [Add U] [LT U] [DecidableLT U]

/-- `Round ord conf s₀ fills s`: from `s₀` the attempt gets to `s` by the given fills. -/
inductive Round (ord : HashOrder) (conf : ExecutionConfig U) (s₀ : Matching T M I J U) :
    List (Fill T M) → Matching T M I J U → Prop where
  | nil : Round ord conf s₀ [] s₀
  | snoc {fills : List (Fill T M)} {fill : Fill T M} {s s' : Matching T M I J U}
      (h : Round ord conf s₀ fills s) (hstep : attemptStep ord conf s = .ok (.again s'))
      (hfill : Filled s fill s') : Round ord conf s₀ (fills ++ [fill]) s'

/-- `FilledBy ord conf st fills s`: an attempt on the settled book `st` gets to `s`, in a round that
has made the given fills. -/
def FilledBy (ord : HashOrder) (conf : ExecutionConfig U) (st : IdleState T M J)
    (fills : List (Fill T M)) (s : Matching T M I J U) : Prop :=
  ∃ s₀, Loop.Reaches (attemptStep ord conf) (TLBState.idle st).beginAttempt s₀ ∧
    s₀.batch = .empty ∧ Round ord conf s₀ fills s

/-- `LastRound I ord conf st fills recipe after`: an attempt on the settled book `st` returns from a
round that has made the given fills. -/
def LastRound (I : Type) [LinearOrder I] [Stable T I] (ord : HashOrder) (conf : ExecutionConfig U)
    (st : IdleState T M J) (fills : List (Fill T M)) (recipe : Option (MatchmakingRecipe T M))
    (after : TLBState T M J) : Prop :=
  ∃ s : Matching T M I J U, FilledBy ord conf st fills s ∧
    attemptStep ord conf s = .ok (.done (recipe, after))

variable {ord : HashOrder} {conf : ExecutionConfig U} {st : IdleState T M J}
  {fills : List (Fill T M)} {s : Matching T M I J U}

section

omit [ExactTaker T]

/-- Every state of an attempt is one of a round. -/
theorem exists_filledBy
    (h : Loop.Reaches (attemptStep ord conf) (TLBState.idle st).beginAttempt s) :
    ∃ fills, FilledBy ord conf st fills s := by
  refine h.invariant (P := fun u => ∃ fills, FilledBy ord conf st fills u)
    ⟨[], _, .refl _, rfl, .nil⟩ fun {u u'} hreach hu hstep => ?_
  obtain ⟨fills, s₀, hs₀, hempty, hround⟩ := hu
  rcases attemptStep_cases hstep with ⟨s', fill, hs', hfill⟩ | ⟨book, -, hconclusion⟩
  · cases hs'
    exact ⟨fills ++ [fill], s₀, hs₀, hempty, hround.snoc hstep hfill⟩
  · refine ⟨[], u', hreach.snoc hstep, ?_, .nil⟩
    cases hconclusion with
    | dissatisfied _ => rfl
    | downgradeNeeded _ => rfl

theorem exists_lastRound {recipe : Option (MatchmakingRecipe T M)} {after : TLBState T M J}
    (h : (TLBState.idle st).Attempt (I := I) ord conf recipe after) :
    ∃ fills, LastRound I ord conf st fills recipe after := by
  obtain ⟨s, hreach, hstep⟩ := Loop.path_of_returns h
  obtain ⟨fills, hfills⟩ := exists_filledBy hreach
  exact ⟨fills, s, hfills, hstep⟩

theorem LastRound.verdict {recipe : MatchmakingRecipe T M} {after : TLBState T M J}
    (h : LastRound I ord conf st fills (some recipe) after) :
    ∃ s : Matching T M I J U, FilledBy ord conf st fills s ∧
      MatchmakingRecipe.tryFrom ord conf s.batch = .ok (.recipe recipe) := by
  obtain ⟨s, hfills, hstep⟩ := h
  rcases attemptStep_cases hstep with ⟨s', fill, hs', -⟩ | ⟨book, -, hconclusion⟩
  · cases hs'
  · cases hconclusion with
    | recipe hverdict => exact ⟨s, hfills, hverdict⟩

theorem FilledBy.reaches (h : FilledBy ord conf st fills s) :
    Loop.Reaches (attemptStep ord conf) (TLBState.idle st).beginAttempt s := by
  obtain ⟨s₀, hs₀, -, hround⟩ := h
  induction hround with
  | nil => exact hs₀
  | snoc _ hstep _ ih => exact ih.snoc hstep

end

variable [LawfulTaker T] [LawfulMaker M]

omit [ExactTaker T] in
theorem pools_invariant {P : M → Prop}
    (hP : ∀ {t : T} {m chunk take make}, P m →
      MakerBehavior.swapWithTaker t m chunk = .ok (take, make) → P make.result)
    (hst : ∀ {sid m}, st.makers.values.get? sid = some m → P m)
    (h : Loop.Reaches (attemptStep ord conf) (TLBState.idle st).beginAttempt s) :
    ∀ {sid m}, s.book.pools.values.get? sid = some m → P m := by
  refine h.invariant (P := fun u => ∀ {sid m}, u.book.pools.values.get? sid = some m → P m) hst
    fun {u u'} hreach hu hstep sid m hm => ?_
  rcases attemptStep_cases hstep with ⟨s', fill, hs', hfill⟩ | ⟨book, hcase, hconclusion⟩
  · cases hs'
    cases hfill with
    | taker => exact hu (by simpa [Matching.afterTakes] using hm)
    | maker _ hmaker _ _ hswap =>
      simp only [Matching.afterMake, TLBState.onMake, pools_preAddMaker,
        pools_onTake, pools_pickMakerById, pools_pick,
        MarketMakers.get?_updatePool, MarketMakers.get?_eraseValue] at hm
      split at hm
      · cases hm
        exact hP (hu hmaker) hswap
      · split at hm
        · cases hm
        · exact hu hm
  · have hinv := AttemptInv.reaches hreach
    have hmakers : book.base.makers = st.makers := by
      rw [(hinv.leave hcase).1, hinv.baseOf.makers]
    have hpools : ∀ opt : StashingOption T, (book.rollback opt).pools = st.makers := fun opt =>
      pools_rollback.trans hmakers
    cases hconclusion with
    | dissatisfied _ => exact hst (hpools _ ▸ hm)
    | downgradeNeeded _ => exact hst (hpools _ ▸ hm)

/-- The takers of a round that has not begun are those of the settled book. -/
theorem linkInv_of_empty (hids : st.takers.DistinctIds) (hexact : ∀ t ∈ st.takers.active, Exact t)
    (h : Loop.Reaches (attemptStep ord conf) (TLBState.idle st).beginAttempt s)
    (hempty : s.batch = .empty) : LinkInv [] s.book s.batch := by
  have hinv := AttemptInv.reaches h
  have htakes : ∀ id, s.batch.takes.get? id = none := fun id => by rw [hempty]; rfl
  have hmakes : ∀ id, s.batch.makes.get? id = none := fun id => by rw [hempty]; rfl
  have hactive : ∀ {t}, AtHand [] s.book t → t ∈ st.takers.active := by
    intro t ht
    rcases hinv.round.known (.inl (.inl (ht.resolve_right not_mem_nil))) with hbase | htraded
    · exact (hinv.baseOf.mem_iff t).2 (.inl hbase)
    · rw [htakes] at htraded
      cases htraded
  refine ⟨nodup_nil, fun t ht => (nomatch ht), fun hx hy => ?_,
    fun hx => hexact _ (hactive hx), fun _ htake => ?_, fun _ hmake => ?_, fun htake => ?_⟩
  · exact hids.eq_of_stableId (.inl (hactive hx)) (.inl (hactive hy))
  · rw [htakes] at htake
    cases htake
  · rw [hmakes] at hmake
    cases hmake
  · rw [htakes] at htake
    cases htake

namespace FilledBy

section

variable (hids : st.takers.DistinctIds) (hexact : ∀ t ∈ st.takers.active, Exact t)
  (h : FilledBy ord conf st fills s)
include hids hexact h

theorem linkInv : LinkInv [] s.book s.batch := by
  obtain ⟨s₀, hs₀, hempty, hround⟩ := h
  induction hround with
  | nil => exact linkInv_of_empty hids hexact hs₀ hempty
  | snoc _ _ hfill ih => exact ih.fill hfill

theorem total {A : Type} [AddCommGroup A] {f : TakeInProgress T → A} {g : MakeInProgress M → A}
    (hf : Telescopes f) (hg : TelescopesMake g) :
    s.batch.total f g = (fills.map (Fill.total f g)).sum := by
  obtain ⟨s₀, hs₀, hempty, hround⟩ := h
  induction hround with
  | nil =>
    rw [hempty]
    exact add_zero _
  | snoc hrest _ hfill ih =>
    have hlink := linkInv hids hexact ⟨s₀, hs₀, hempty, hrest⟩
    rw [hlink.total_fill hfill hf hg, ih]
    simp

end

end FilledBy

end Rounds

end Splash.LiquidityBook
