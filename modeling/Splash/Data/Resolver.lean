import Mathlib

/-!
# The latest state of an entity

A repository keeps the last confirmed, unconfirmed and predicted state of an entity, and for a
predicted version the one it was predicted from. The predicted state is taken when its predecessors
lead to the anchoring point, which is the unconfirmed state or else the confirmed one.

* `resolves_iff` — when the latest state is found.
-/

namespace Splash.Data

structure EntityRepo (E V : Type) where
  lastConfirmed : Option E
  lastUnconfirmed : Option E
  lastPredicted : Option E
  predictionPredecessor : V → Option V

namespace EntityRepo

variable {E V : Type} [DecidableEq V]

/-- Walks along at most `n` predecessors; absent when the walk is not over by then. -/
def isLinking (repo : EntityRepo E V) (anchoringSid : V) : ℕ → V → Option Bool
  | 0, _ => none
  | n + 1, headSid =>
    (repo.predictionPredecessor headSid).elim (some false) fun prevStateId =>
      if prevStateId = anchoringSid then some true else repo.isLinking anchoringSid n prevStateId

def predictionIsValid (repo : EntityRepo E V) (anchoringSid : V) (n : ℕ) (predictedSid : V) :
    Option Bool :=
  if predictedSid = anchoringSid then some true else repo.isLinking anchoringSid n predictedSid

def resolveEntityState (version : E → V) (n : ℕ) (repo : EntityRepo E V) : Option (Option E) :=
  match repo.lastConfirmed, repo.lastUnconfirmed, repo.lastPredicted with
  | some conf, unconf, some pred =>
    let anchoringPoint := unconf.getD conf
    (repo.predictionIsValid (version anchoringPoint) n (version pred)).map fun valid =>
      some (if valid then pred else anchoringPoint)
  | _, some unconf, none => some (some unconf)
  | some conf, _, _ => some (some conf)
  | _, _, _ => some none

/-! ## What is found -/

variable {repo : EntityRepo E V} {version : E → V} {n : ℕ} {sid anchor : V}

section

variable (version : E → V) (repo : EntityRepo E V)

def Link (sid prev : V) : Prop := repo.predictionPredecessor sid = some prev

/-- The most recent of the states that are not predicted. -/
def latestSeen : Option E := repo.lastUnconfirmed.or repo.lastConfirmed

def Descends : Prop :=
  ∃ pred ∈ repo.lastPredicted, ∃ anchor ∈ repo.latestSeen,
    Relation.ReflTransGen repo.Link (version pred) (version anchor)

/-- Some state is found when there is one: the predicted one if it descends from the others, and
else the most recent of these. -/
def Resolves : Prop :=
  ∃ n r, repo.resolveEntityState version n = some r ∧
    (r = none → repo.latestSeen = none ∧ repo.lastPredicted = none) ∧
    (repo.Descends version → r = repo.lastPredicted) ∧
    (¬ repo.Descends version → r = repo.latestSeen)

end

theorem isLinking_eq_some {b : Bool} (h : repo.isLinking anchor n sid = some b) :
    b = true ↔ Relation.TransGen repo.Link sid anchor := by
  induction n generalizing sid with
  | zero => cases h
  | succ n ih =>
    unfold isLinking at h
    rw [Relation.TransGen.head'_iff]
    cases hprev : repo.predictionPredecessor sid with
    | none =>
      rw [hprev] at h
      cases h
      simp [Link, hprev]
    | some prev =>
      have hlink : ∀ c, repo.Link sid c ↔ c = prev := by simp [Link, hprev, eq_comm]
      rw [hprev, Option.elim_some] at h
      simp only [hlink, exists_eq_left]
      split_ifs at h with heq
      · cases h
        exact iff_of_true rfl (heq ▸ .refl)
      · rw [ih h, Relation.reflTransGen_iff_eq_or_transGen, or_iff_right (Ne.symm heq)]

theorem predictionIsValid_eq_some {b : Bool} (h : repo.predictionIsValid anchor n sid = some b) :
    b = true ↔ Relation.ReflTransGen repo.Link sid anchor := by
  rw [Relation.reflTransGen_iff_eq_or_transGen]
  unfold predictionIsValid at h
  split_ifs at h with heq
  · cases h
    exact iff_of_true rfl (.inl heq.symm)
  · rw [isLinking_eq_some h, or_iff_right (Ne.symm heq)]

/-- **The latest state is found** exactly when a predicted one comes with a confirmed one, and the
walk along its predecessors ends. -/
theorem resolves_iff : repo.Resolves version ↔
    ∀ pred ∈ repo.lastPredicted, ∃ conf ∈ repo.lastConfirmed, ∃ n b,
      repo.predictionIsValid (version (repo.lastUnconfirmed.getD conf)) n (version pred) =
        some b := by
  unfold Resolves resolveEntityState
  cases hpred : repo.lastPredicted with
  | none =>
    have hnot : ¬ repo.Descends version := by simp [Descends, hpred]
    refine iff_of_true ⟨0, repo.latestSeen, ?_, fun h => ⟨h, rfl⟩, fun h => absurd h hnot,
      fun _ => rfl⟩ (by simp)
    unfold latestSeen
    cases repo.lastConfirmed <;> cases repo.lastUnconfirmed <;> rfl
  | some pred =>
    cases hconf : repo.lastConfirmed with
    | none =>
      refine iff_of_false ?_ (by simp)
      rintro ⟨n, r, hrun, hnone, -⟩
      have hr : r = none := by
        revert hrun
        cases repo.lastUnconfirmed <;> exact fun hrun => (Option.some.inj hrun).symm
      cases (hnone hr).2
    | some conf =>
      have hseen : repo.latestSeen = some (repo.lastUnconfirmed.getD conf) := by
        unfold latestSeen
        rw [hconf]
        cases repo.lastUnconfirmed <;> rfl
      simp only [Option.mem_some_iff, forall_eq', exists_eq_left']
      generalize repo.lastUnconfirmed.getD conf = anchor at hseen ⊢
      have hdescends : repo.Descends version ↔
          Relation.ReflTransGen repo.Link (version pred) (version anchor) := by
        simp [Descends, hpred, hseen]
      constructor
      · rintro ⟨n, r, hrun, -⟩
        obtain ⟨b, hb, -⟩ := Option.map_eq_some_iff.1 hrun
        exact ⟨n, b, hb⟩
      · rintro ⟨n, b, hb⟩
        refine ⟨n, some (if b then pred else anchor), by rw [hb, Option.map_some], ?_⟩
        rw [hdescends, ← predictionIsValid_eq_some hb, hseen]
        cases b <;> simp

/-- A predicted state hides the unconfirmed one while nothing is confirmed. -/
theorem unconfirmed_hidden :
    ¬ (⟨none, some 1, some 2, fun _ => some 1⟩ : EntityRepo ℕ ℕ).Resolves id := by
  rintro ⟨n, r, hrun, hnone, -⟩
  have hr : r = none := (Option.some.inj hrun).symm
  cases (hnone hr).2

end EntityRepo

end Splash.Data
