import Splash.LiquidityBook.Core

/-!
# From a batch to a recipe

What finalization and `tryFrom` return, in terms of the batch they start from.

* `finalizeTakes_forall₂` — every take of the batch is finalized, under its own identifier.
* `tryFrom_eq_recipe` — a recipe consists of the finalized takes and makes of the batch.
* `tryFrom_eq_dissatisfied` — dissatisfied takers are targets of the batch.
-/

namespace Splash.LiquidityBook

open Lib MarketTaker TakerBehaviour Exec List

variable {T M I J U : Type} [MarketTaker T U]

/-! ## Finalized takes and makes -/

theorem TakeInProgress.finalized_target [TakerBehaviour T] {take final : TakeInProgress T}
    {excess : ℕ} (h : TakeInProgress.finalized take excess = .ok final) :
    final.target = take.target := by
  unfold TakeInProgress.finalized at h
  obtain ⟨removed, -, h⟩ := bind_eq_ok.1 h
  split at h
  all_goals
    obtain ⟨x, -, h⟩ := bind_eq_ok.1 h
    obtain ⟨y, -, h⟩ := bind_eq_ok.1 h
    cases h
    rfl

namespace MatchmakingAttempt

def FinalTakeOf [TakerBehaviour T] (e e' : I × TakeInProgress T) : Prop :=
  e'.1 = e.1 ∧ ∃ excess, TakeInProgress.finalized e.2 excess = .ok e'.2

def FinalMakeOf [MarketMaker M U] [MakerBehavior M] (e e' : J × MakeInProgress M) : Prop :=
  e'.1 = e.1 ∧ ∃ excess, MakeInProgress.finalized e.2 = .ok (some (e'.2, excess))

theorem finalizeTakes_cons [TakerBehaviour T] {excess left : Excess} {id : I}
    {take : TakeInProgress T} {rest out : List (I × TakeInProgress T)}
    (h : finalizeTakes excess ((id, take) :: rest) = .ok (out, left)) :
    ∃ final balanced, out = (id, final) :: balanced ∧
      ((side take.target = .bid ∧ TakeInProgress.finalized take excess.base = .ok final ∧
          finalizeTakes { excess with base := 0 } rest = .ok (balanced, left)) ∨
        (side take.target = .ask ∧ TakeInProgress.finalized take excess.quote = .ok final ∧
          finalizeTakes { excess with quote := 0 } rest = .ok (balanced, left))) := by
  unfold finalizeTakes at h
  split at h
  case h_1 hside =>
    obtain ⟨final, hfinal, h⟩ := bind_eq_ok.1 h
    obtain ⟨⟨balanced, l⟩, hrest, h⟩ := bind_eq_ok.1 h
    cases h
    exact ⟨final, balanced, rfl, .inl ⟨hside, hfinal, hrest⟩⟩
  case h_2 hside =>
    obtain ⟨final, hfinal, h⟩ := bind_eq_ok.1 h
    obtain ⟨⟨balanced, l⟩, hrest, h⟩ := bind_eq_ok.1 h
    cases h
    exact ⟨final, balanced, rfl, .inr ⟨hside, hfinal, hrest⟩⟩

theorem finalizeTakes_forall₂ [TakerBehaviour T] {excess left : Excess}
    {takes out : List (I × TakeInProgress T)}
    (h : finalizeTakes excess takes = .ok (out, left)) : List.Forall₂ FinalTakeOf takes out := by
  induction takes generalizing excess out with
  | nil =>
    cases h
    exact .nil
  | cons e rest ih =>
    obtain ⟨final, balanced, rfl, ⟨-, hfinal, hrest⟩ | ⟨-, hfinal, hrest⟩⟩ := finalizeTakes_cons h
    · exact .cons ⟨rfl, _, hfinal⟩ (ih hrest)
    · exact .cons ⟨rfl, _, hfinal⟩ (ih hrest)

theorem finalizeMakes_cons [MarketMaker M U] [MakerBehavior M] {excess total : Excess} {id : J}
    {make : MakeInProgress M} {rest out : List (J × MakeInProgress M)}
    (h : finalizeMakes excess ((id, make) :: rest) = .ok (some (out, total))) :
    ∃ final e balanced, out = (id, final) :: balanced ∧
      MakeInProgress.finalized make = .ok (some (final, e)) ∧
      finalizeMakes ⟨excess.base + e.base, excess.quote + e.quote⟩ rest =
        .ok (some (balanced, total)) := by
  unfold finalizeMakes at h
  obtain ⟨o, ho, h⟩ := bind_eq_ok.1 h
  split at h
  · cases h
  · obtain ⟨base, hbase, h⟩ := bind_eq_ok.1 h
    obtain ⟨quote, hquote, h⟩ := bind_eq_ok.1 h
    obtain ⟨-, rfl⟩ := addU64_eq_ok.1 hbase
    obtain ⟨-, rfl⟩ := addU64_eq_ok.1 hquote
    obtain ⟨o', ho', h⟩ := bind_eq_ok.1 h
    split at h
    · cases h
    · cases h
      exact ⟨_, _, _, rfl, ho, ho'⟩

end MatchmakingAttempt

/-! ## Dissatisfied takers -/

namespace FinalRecipe

theorem dissatisfied_sublist {takes : List (I × TakeInProgress T)} {ts : List T}
    (h : dissatisfied takes = .ok ts) : ts.Sublist (takes.map (·.2.target)) := by
  induction takes generalizing ts with
  | nil =>
    cases h
    exact .slnil
  | cons e rest ih =>
    unfold dissatisfied at h
    obtain ⟨added, -, h⟩ := bind_eq_ok.1 h
    obtain ⟨others, hothers, h⟩ := bind_eq_ok.1 h
    split at h
    · cases h
      exact (ih hothers).cons_cons _
    · cases h
      exact (ih hothers).cons _

end FinalRecipe

/-! ## Verdicts -/

namespace MatchmakingRecipe

variable {makes : List (MakeInProgress M)} {takes : List (TakeInProgress T)}

theorem takes_mk :
    MatchmakingRecipe.takes ⟨takes.map .inl ++ makes.map .inr⟩ = takes := by
  simp [MatchmakingRecipe.takes, filterMap_map, Function.comp_def]

theorem makes_mk :
    MatchmakingRecipe.makes ⟨takes.map .inl ++ makes.map .inr⟩ = makes := by
  simp [MatchmakingRecipe.makes, filterMap_map, Function.comp_def]

variable [LinearOrder I] [LinearOrder J]

theorem orderTakes_perm [Stable T I] {ordering : List I} {takes out : List (TakeInProgress T)}
    (h : orderTakes ordering takes = .ok out) : out.Perm takes := by
  unfold orderTakes at h
  split at h
  · cases h
    exact perm_insertionSort _ _
  · cases h

variable [TakerBehaviour T] [MarketMaker M U] [MakerBehavior M] {ord : HashOrder}
  {conf : ExecutionConfig U} {batch : MatchmakingAttempt T M I J U}

variable {final : FinalRecipe T M I J} {recipe : MatchmakingRecipe T M} {t : T}

theorem finalized_eq_some (h : batch.finalized ord = .ok (some final)) :
    ∃ excess, MatchmakingAttempt.finalizeMakes ⟨0, 0⟩ (ord.arrange batch.makes.toList) =
        .ok (some (final.makes, excess)) ∧
      MatchmakingAttempt.finalizeTakes excess (ord.arrange batch.takes.toList) =
        .ok (final.takes, ⟨0, 0⟩) := by
  unfold MatchmakingAttempt.finalized at h
  obtain ⟨o, ho, h⟩ := bind_eq_ok.1 h
  split at h
  · cases h
  · obtain ⟨⟨takes, left⟩, htakes, h⟩ := bind_eq_ok.1 h
    dsimp only at h
    split at h
    case isTrue hleft =>
      cases h
      obtain ⟨base, quote⟩ := left
      obtain ⟨rfl, rfl⟩ : base = 0 ∧ quote = 0 := hleft
      exact ⟨_, ho, htakes⟩
    case isFalse => cases h

theorem targets_perm (hfinal : batch.finalized ord = .ok (some final)) :
    (final.takes.map (·.2.target)).Perm (batch.takes.values.map (·.target)) := by
  obtain ⟨excess, -, htakes⟩ := finalized_eq_some hfinal
  have heq : ∀ {l l' : List (I × TakeInProgress T)}, List.Forall₂ MatchmakingAttempt.FinalTakeOf l l' →
      l'.map (·.2.target) = l.map (·.2.target) := fun h => by
    induction h with
    | nil => rfl
    | cons hab _ ih =>
      obtain ⟨-, x, hx⟩ := hab
      rw [map_cons, map_cons, TakeInProgress.finalized_target hx, ih]
  rw [heq (MatchmakingAttempt.finalizeTakes_forall₂ htakes), OrdMap.values, map_map]
  exact (ord.perm _).map _

variable [Stable T I]

/-- The cases of `tryFrom` in which the batch was finalized. -/
theorem tryFrom_cases {v : Verdict T M} (h : tryFrom ord conf batch = .ok v) :
    v = .failed ∨ ∃ final unsatisfied, batch.finalized ord = .ok (some final) ∧
      final.unsatisfiedFragments ord = .ok unsatisfied ∧
      ((unsatisfied ≠ [] ∧ v = .dissatisfied unsatisfied) ∨
        (unsatisfied = [] ∧ ∃ takes,
          orderTakes final.ordering ((ord.arrange final.takes).map Prod.snd) = .ok takes ∧
          (∀ make ∈ (ord.arrange final.makes).map Prod.snd, MakeInProgress.isZero make = false) ∧
          ((checkRecipeComplexity final conf.baseStepBudget = true ∧
              v = .recipe ⟨takes.map .inl ++ ((ord.arrange final.makes).map Prod.snd).map .inr⟩) ∨
            (checkRecipeComplexity final conf.baseStepBudget = false ∧ v = .downgradeNeeded)))) := by
  unfold tryFrom at h
  split at h
  case isFalse =>
    cases h
    exact .inl rfl
  case isTrue =>
    obtain ⟨o, hfinal, h⟩ := bind_eq_ok.1 h
    split at h
    · cases h
      exact .inl rfl
    case h_2 final =>
      obtain ⟨unsatisfied, huns, h⟩ := bind_eq_ok.1 h
      split at h
      case isTrue hempty =>
        obtain ⟨takes, htakes, h⟩ := bind_eq_ok.1 h
        dsimp only at h
        by_cases hzero : ((ord.arrange final.makes).map Prod.snd).any MakeInProgress.isZero
        · rw [if_pos hzero] at h
          cases h
          exact .inl rfl
        · rw [if_neg hzero] at h
          have hzero : ∀ make ∈ (ord.arrange final.makes).map Prod.snd,
              MakeInProgress.isZero make = false := fun make hmake =>
            Bool.eq_false_iff.2 fun hmz => hzero (any_eq_true.2 ⟨make, hmake, hmz⟩)
          refine .inr ⟨final, unsatisfied, hfinal, huns,
            .inr ⟨isEmpty_iff.1 hempty, takes, htakes, hzero, ?_⟩⟩
          split at h
          case isTrue hok =>
            cases h
            exact .inl ⟨hok, rfl⟩
          case isFalse hok =>
            cases h
            exact .inr ⟨by simpa using hok, rfl⟩
      case isFalse hempty =>
        cases h
        exact .inr ⟨_, _, hfinal, huns, .inl ⟨by simpa using hempty, rfl⟩⟩

theorem tryFrom_eq_recipe (h : tryFrom ord conf batch = .ok (.recipe recipe)) :
    ∃ final, batch.finalized ord = .ok (some final) ∧
      FinalRecipe.dissatisfied (ord.arrange final.takes) = .ok [] ∧
      recipe.takes.Perm (final.takes.map Prod.snd) ∧
      recipe.makes.Perm (final.makes.map Prod.snd) := by
  obtain hf | ⟨final, unsatisfied, hfinal, huns, ⟨-, hf⟩ | ⟨rfl, takes, htakes, -, ⟨-, hr⟩ | ⟨-, hf⟩⟩⟩ :=
    tryFrom_cases h
  · cases hf
  · cases hf
  · cases hr
    refine ⟨final, hfinal, huns, ?_, ?_⟩
    · rw [takes_mk]
      exact (orderTakes_perm htakes).trans ((ord.perm _).map _)
    · rw [makes_mk]
      exact (ord.perm _).map _
  · cases hf

omit [MarketTaker T U] [TakerBehaviour T] [MarketMaker M U] [MakerBehavior M] [Stable T I] in
theorem mem_targets : t ∈ batch.takes.values.map (·.target) ↔
    ∃ id take, batch.takes.get? id = some take ∧ take.target = t := by
  simp only [mem_map, OrdMap.mem_values_iff]
  tauto

theorem exists_target_iff (h : tryFrom ord conf batch = .ok (.recipe recipe)) :
    (∃ take ∈ recipe.takes, take.target = t) ↔
      ∃ id take, batch.takes.get? id = some take ∧ take.target = t := by
  obtain ⟨final, hfinal, -, htakes, -⟩ := tryFrom_eq_recipe h
  have hperm := htakes.map (·.target)
  rw [map_map] at hperm
  have hperm := hperm.trans (targets_perm hfinal)
  rw [← mem_targets, ← hperm.mem_iff, mem_map]

theorem tryFrom_eq_dissatisfied {ts : List T}
    (h : tryFrom ord conf batch = .ok (.dissatisfied ts)) :
    ts ≠ [] ∧ ts.Subperm (batch.takes.values.map (·.target)) := by
  obtain hf | ⟨final, unsatisfied, hfinal, huns, ⟨hne, hf⟩ | ⟨-, takes, -, -, ⟨-, hf⟩ | ⟨-, hf⟩⟩⟩ :=
    tryFrom_cases h
  · cases hf
  · cases hf
    refine ⟨hne, (FinalRecipe.dissatisfied_sublist huns).subperm.trans ?_⟩
    exact (((ord.perm _).map _).trans (targets_perm hfinal)).subperm
  · cases hf
  · cases hf

end MatchmakingRecipe

end Splash.LiquidityBook
