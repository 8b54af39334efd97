import Splash.Engine.Turn

/-!
# Funding boxes

A box of the funding pool is handed to a trade, leaves the pool while the trade is pending, and
comes back when the trade is rejected.

* `funding_safe` — what becomes of the boxes of the pool in every reachable state.
-/

set_option linter.unusedSectionVars false

namespace Splash.Engine

open Lib Data LiquidityBook Exec

variable {PR T M SO I V B K Bk TX : Type} [LinearOrder PR] [LinearOrder V] [LinearOrder B]
  [LinearOrder K]

/-- A transaction uses the box it was given, if any, and does not produce it again. -/
def FundingIo.Uses (funding : B) : FundingIo B → Prop
  | .replaced consumed produced => consumed = funding ∧ produced ≠ funding
  | .added unused _ | .notUsed unused => unused = funding

/-- The box handed to a trade is consumed by it, or goes back at once. -/
theorem FundingIo.Uses.mem_pool {funding : B} {io : FundingIo B} (h : io.Uses funding)
    {pool : OrdSet (compare (α := B))} (hmem : funding ∈ pool) (b : B) :
    b ∈ io.intoEffects.1.elim (pool.erase funding) (pool.erase funding).insert ↔
      b ∈ pool ∧ .consumed b ∉ io.intoEffects.2 := by
  have hback : b ∈ (pool.erase funding).insert funding ↔ b ∈ pool := by
    rw [OrdSet.mem_insert_compare, OrdSet.mem_erase_compare]
    grind
  cases io with
  | replaced c p =>
    obtain ⟨rfl, -⟩ := h
    simp [FundingIo.intoEffects, OrdSet.mem_erase_compare]
  | added unused p =>
    cases h
    simpa [FundingIo.intoEffects] using hback
  | notUsed unused =>
    cases h
    simpa [FundingIo.intoEffects] using hback

theorem FundingIo.Uses.consumed {funding : B} {io : FundingIo B} (h : io.Uses funding)
    {b : B} (hb : .consumed b ∈ io.intoEffects.2) :
    b = funding ∧ .produced b ∉ io.intoEffects.2 := by
  cases io with
  | replaced c p =>
    obtain ⟨rfl, hp⟩ := h
    simp only [FundingIo.intoEffects] at hb ⊢
    grind
  | added unused p => simp [FundingIo.intoEffects] at hb
  | notUsed unused => simp [FundingIo.intoEffects] at hb

/-- The trades of the interpreter are funded with the box they were given. -/
def Env.FundsTrades (env : Env PR T M SO V B Bk TX) : Prop :=
  ∀ recipe funding, (env.tradeInterpreter recipe funding).fundingIo.Uses funding

namespace Executor

section

variable (s : Executor PR T M SO V B K Bk) (b : B)

def Spends : Prop :=
  ∃ eff, s.pendingEffects = some eff ∧ .consumed b ∈ eff.funding

def Mints : Prop :=
  ∃ eff, s.pendingEffects = some eff ∧ .produced b ∈ eff.funding

def Produces : Input PR T M SO V B → Prop
  | .fundingEvent event => event = .produced b
  | .feedback .accepted => s.Mints b
  | _ => False

end

variable {env : Env PR T M SO V B Bk TX} {s s' : Executor PR T M SO V B K Bk} {b : B}

/-! ## The pool after feedback -/

variable {tx : Option TX} {effects : List (FundingEvent B)}

theorem mem_onFundingEffectsSuccess :
    b ∈ (s.onFundingEffectsSuccess effects).fundingPool ↔
      b ∈ s.fundingPool ∨ .produced b ∈ effects := by
  rw [← @List.mem_reverse _ _ effects]
  unfold onFundingEffectsSuccess
  dsimp only
  generalize effects.reverse = l
  generalize s.fundingPool = pool
  induction l generalizing pool with
  | nil => simp
  | cons eff l ih =>
    rw [List.foldl_cons, ih]
    cases eff with
    | consumed c => simp
    | produced c => simp [OrdSet.mem_insert_compare, or_assoc]

theorem mem_onFundingEffectsFailure [HasVersion B V] {missing : Option (List V)} :
    b ∈ (s.onFundingEffectsFailure missing effects).fundingPool ↔
      b ∈ s.fundingPool ∨ .consumed b ∈ effects ∧ HasVersion.select b ∉ missing.getD [] := by
  rw [← @List.mem_reverse _ _ effects]
  unfold onFundingEffectsFailure
  dsimp only
  generalize effects.reverse = l
  generalize s.fundingPool = pool
  induction l generalizing pool with
  | nil => simp
  | cons eff l ih =>
    rw [List.foldl_cons, ih]
    cases eff with
    | produced c => simp
    | consumed c =>
      dsimp only
      split
      · grind
      · rw [OrdSet.mem_insert_compare]
        grind

/-! ## The pool after a round -/

variable [RawId I K] [Stable T I] [Stable M I] [SpecializedOrder SO V I]

/-- What a round does to the funding pool: nothing, or the box that is consumed leaves it. -/
structure RoundFunding (s s' : Executor PR T M SO V B K Bk) : Prop where
  mem_iff : ∀ b, b ∈ s'.fundingPool ↔ b ∈ s.fundingPool ∧ ¬ s'.Spends b
  spent : ∀ b, s'.Spends b → b ∈ s.fundingPool ∧ ¬ s'.Mints b

theorem RoundFunding.of_unfunded (hpool : s'.fundingPool = s.fundingPool)
    (hpending : ∀ eff, s'.pendingEffects = some eff → eff.funding = []) : RoundFunding s s' := by
  have hnone : ∀ b, ¬ s'.Spends b := by
    rintro b ⟨eff, heff, hb⟩
    rw [hpending eff heff] at hb
    cases hb
  exact ⟨fun b => by simp [hpool, hnone b], fun b hb => absurd hb (hnone b)⟩

section

variable (henv : env.FundsTrades)
include henv

theorem roundFunding_emitTrade {pair : PR} {tx : TX} (h : EmitsTrade env s pair s' tx) :
    RoundFunding s s' := by
  obtain ⟨recipe, book, linked, consumed, funding, -, -, hfirst, heq⟩ := h
  have hmem : funding ∈ s.fundingPool := OrdSet.mem_of_first? hfirst
  have huses := henv linked funding
  obtain ⟨rfl, -⟩ := Prod.mk.inj heq
  refine ⟨fun b => ?_, ?_⟩
  · refine (huses.mem_pool hmem b).trans (and_congr_right fun _ => not_congr ⟨?_, ?_⟩)
    · exact fun hb => ⟨_, rfl, hb⟩
    · rintro ⟨_, ⟨⟩, hb⟩
      exact hb
  · rintro b ⟨_, ⟨⟩, hb⟩
    obtain ⟨rfl, hp⟩ := huses.consumed hb
    refine ⟨hmem, ?_⟩
    rintro ⟨_, ⟨⟩, hb'⟩
    exact hp hb'

theorem roundFunding_takeTurn {pair : PR} (h : s.takeTurn env pair = .ok (s', tx))
    (hnone : s.pendingEffects = none) :
    RoundFunding s s' ∧ (tx = none → s'.fundingPool = s.fundingPool ∧ s'.pendingEffects = none) := by
  rcases takeTurn_cases h with ⟨tx', rfl, -, htrade⟩ | ⟨s₁, -, hbook, hback⟩
  · exact ⟨roundFunding_emitTrade henv htrade, fun hcontra => by cases hcontra⟩
  · have hwork := hbook.onlyBook.work
    have hpool : s'.fundingPool = s.fundingPool := by
      rw [← hwork.fundingPool]
      cases hback <;> rfl
    have hpending : s₁.pendingEffects = none := hwork.pendingEffects.trans hnone
    cases hback with
    | emitted hpop hresolved hrun =>
      refine ⟨RoundFunding.of_unfunded hpool ?_, fun hcontra => by cases hcontra⟩
      rintro _ ⟨⟩
      rfl
    | _ =>
      refine ⟨RoundFunding.of_unfunded hpool fun eff heff => ?_, fun _ => ⟨hpool, hpending⟩⟩
      have hsome : s₁.pendingEffects = some eff := heff
      rw [hpending] at hsome
      cases hsome

theorem roundFunding_round (hnone : s.pendingEffects = none) (h : Round env s s' tx) :
    RoundFunding s s' ∧ (tx = none → s'.fundingPool = s.fundingPool) := by
  induction h with
  | done _ =>
    refine ⟨RoundFunding.of_unfunded rfl fun eff heff => ?_, fun _ => rfl⟩
    rw [hnone] at heff
    cases heff
  | emit _ hturn =>
    have hround := (roundFunding_takeTurn henv hturn hnone).1
    exact ⟨⟨hround.mem_iff, hround.spent⟩, fun hcontra => by cases hcontra⟩
  | skip _ hturn _ ih =>
    obtain ⟨hpool, hpending⟩ := (roundFunding_takeTurn henv hturn hnone).2 rfl
    obtain ⟨hround, hrest⟩ := ih hpending
    refine ⟨⟨fun b => ?_, fun b hb => ?_⟩, fun htx => (hrest htx).trans hpool⟩
    · rw [hround.mem_iff, hpool]
    · exact hpool ▸ hround.spent b hb

/-! ## Steps -/

variable [HasVersion B V]

/-- The box enters the pool on this feedback. -/
def Regains (s : Executor PR T M SO V B K Bk) : Feedback V → B → Prop
  | .accepted, b => s.Mints b
  | .rejected missing, b => s.Spends b ∧ HasVersion.select b ∉ missing.getD []

omit henv in
theorem mem_onFeedback {feedback : Feedback V} (hsome : s.pendingEffects.isSome = true)
    (h : s.onFeedback env feedback = .ok s') :
    s'.pendingEffects = none ∧
      ∀ b, b ∈ s'.fundingPool ↔ b ∈ s.fundingPool ∨ s.Regains feedback b := by
  obtain ⟨eff, heff⟩ := Option.isSome_iff_exists.1 hsome
  have hmints : ∀ b, s.Mints b ↔ .produced b ∈ eff.funding := by
    intro b
    simp [Mints, heff]
  have hspends : ∀ b, s.Spends b ↔ .consumed b ∈ eff.funding := by
    intro b
    simp [Spends, heff]
  simp only [onFeedback, heff] at h
  cases feedback with
  | accepted =>
    obtain ⟨s₁, hrun, h⟩ := bind_eq_ok.1 h
    cases h
    have hwork := work_onExecutionEffectsSuccess hrun
    refine ⟨hwork.pendingEffects, fun b => ?_⟩
    rw [mem_onFundingEffectsSuccess, hwork.fundingPool, Regains, hmints]
  | rejected missing =>
    obtain ⟨s₁, hrun, h⟩ := bind_eq_ok.1 h
    cases h
    have hwork := work_onExecutionEffectsFailure hrun
    refine ⟨hwork.pendingEffects.trans (giveBack_pendingEffects _ _ _ _), fun b => ?_⟩
    rw [mem_onFundingEffectsFailure, hwork.fundingPool, giveBack_fundingPool, Regains, hspends]

omit henv in
theorem funding_onPairEvent {pair : PR} {event : PairEvent T M SO V B}
    (h : s.onPairEvent env pair event = .ok s') :
    s'.fundingPool = s.fundingPool ∧ s'.pendingEffects = s.pendingEffects := by
  obtain ⟨s₁, hsync, h⟩ := bind_eq_ok.1 h
  cases h
  cases event with
  | entity channel upd =>
    have hwork := (works_processTransition env.book.respects_true s channel upd trivial).ok hsync
    exact ⟨hwork.fundingPool, hwork.pendingEffects⟩
  | order channel upd =>
    cases hsync
    cases upd with
    | created order =>
      simp only [syncBacklog]
      split <;> exact ⟨rfl, rfl⟩
    | eliminated order => exact ⟨rfl, rfl⟩

/-- What a step does to a box: it is in the pool afterwards if it was there and is not handed to a
transaction or reported as consumed, or if it is produced or given back. -/
theorem step_funding {input : Input PR T M SO V B} (hexpects : s.Expects input)
    (h : s.step env input = .ok (s', tx)) (b : B) :
    (b ∈ s'.fundingPool → b ∈ s.fundingPool ∨ s.Produces b input ∨ s.Spends b) ∧
    (s'.Spends b → b ∈ s.fundingPool ∧ b ∉ s'.fundingPool ∧ ¬ s'.Mints b) := by
  have hsettled : s'.pendingEffects = none → ¬ s'.Spends b := by
    rintro hnone ⟨eff, heff, -⟩
    rw [hnone] at heff
    cases heff
  cases input with
  | feedback feedback =>
    obtain ⟨s₁, hrun, h⟩ := bind_eq_ok.1 h
    cases h
    obtain ⟨hnone, hmem⟩ := mem_onFeedback hexpects hrun
    refine ⟨fun hb => ?_, fun hb => absurd hb (hsettled hnone)⟩
    cases feedback with
    | accepted => exact ((hmem b).1 hb).imp_right .inl
    | rejected missing => exact ((hmem b).1 hb).imp_right fun hb => .inr hb.1
  | pairEvent pair event =>
    obtain ⟨s₁, hrun, h⟩ := bind_eq_ok.1 h
    cases h
    obtain ⟨hpool, hpending⟩ := funding_onPairEvent hrun
    refine ⟨fun hb => .inl (hpool ▸ hb), fun hb => absurd hb (hsettled ?_)⟩
    exact hpending.trans hexpects
  | fundingEvent event =>
    cases h
    cases event with
    | consumed c =>
      refine ⟨fun hb => .inl (OrdSet.mem_erase_compare.1 hb).1, fun hb => ?_⟩
      exact absurd hb (hsettled hexpects)
    | produced c =>
      refine ⟨fun hb => ?_, fun hb => absurd hb (hsettled hexpects)⟩
      rcases OrdSet.mem_insert_compare.1 hb with hb | rfl
      · exact .inl hb
      · exact .inr (.inl rfl)
  | matchmake =>
    obtain ⟨hround, -⟩ := roundFunding_round henv hexpects (round_of_matchmake h)
    refine ⟨fun hb => .inl ((hround.mem_iff b).1 hb).1, fun hb => ?_⟩
    obtain ⟨hpool, hmints⟩ := hround.spent b hb
    exact ⟨hpool, fun hmem => ((hround.mem_iff b).1 hmem).2 hb, hmints⟩

/-- A box that is neither in the pool nor spent does not turn up unless it is produced. -/
theorem absent_of_unproduced (h : ReachesVia env (fun t input => ¬ t.Produces b input) s s')
    (habsent : b ∉ s.fundingPool) (hidle : ¬ s.Spends b) :
    b ∉ s'.fundingPool ∧ ¬ s'.Spends b := by
  induction h with
  | refl => exact ⟨habsent, hidle⟩
  | step _ hexpects hproduces hstep ih =>
    obtain ⟨hpool, hspends⟩ := step_funding henv hexpects hstep b
    refine ⟨fun hb => ?_, fun hb => ih.1 (hspends hb).1⟩
    rcases hpool hb with hb | hb | hb
    · exact ih.1 hb
    · exact hproduces hb
    · exact ih.2 hb

/-- The pending transaction consumes only boxes that left the pool, and produces others. -/
theorem spends_of_reaches (h : Reaches env new s) (hb : s.Spends b) :
    b ∉ s.fundingPool ∧ ¬ s.Mints b := by
  cases h with
  | refl =>
    obtain ⟨eff, heff, -⟩ := hb
    cases heff
  | step _ hexpects hstep => exact ((step_funding henv hexpects hstep b).2 hb).2

end

end Executor

end Splash.Engine
