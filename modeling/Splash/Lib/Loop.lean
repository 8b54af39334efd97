import Mathlib

/-!
# Loops

A loop runs one iteration after another until an iteration leaves it with a result or fails.
`run` executes it with a bound on the iterations, `Path` records the states it goes through.

* `path_of_returns` — a loop returns what the last iteration of some path leaves it with.
* `Reaches.invariant` — what holds at the start and survives an iteration holds at every state
  reached.
-/

namespace Splash.Lib

/-- How an iteration ends: go on from a new state, or leave the loop. -/
inductive Iter (σ ρ : Type*) where
  | again (s : σ)
  | done (r : ρ)

namespace Loop

variable {σ ρ ε : Type*} {step : σ → Except ε (Iter σ ρ)}

/-- Runs at most `n` iterations; absent when the loop is not over by then. -/
def run (step : σ → Except ε (Iter σ ρ)) : ℕ → σ → Option (Except ε ρ)
  | 0, _ => none
  | n + 1, s =>
    match step s with
    | .error e => some (.error e)
    | .ok (.done r) => some (.ok r)
    | .ok (.again s') => run step n s'

/-- `Path step s l t`: from `s` the loop gets to `t`, one iteration for each state of `l`. -/
inductive Path (step : σ → Except ε (Iter σ ρ)) : σ → List σ → σ → Prop where
  | nil (s : σ) : Path step s [] s
  | cons {s s' t : σ} {l : List σ} (h : step s = .ok (.again s')) (rest : Path step s' l t) :
      Path step s (s :: l) t

def Reaches (step : σ → Except ε (Iter σ ρ)) (s t : σ) : Prop := ∃ l, Path step s l t

def Returns (step : σ → Except ε (Iter σ ρ)) (s : σ) (r : ρ) : Prop :=
  ∃ n, run step n s = some (.ok r)

variable {s t u : σ}

theorem Path.append {l m : List σ} (h : Path step s l t) (h' : Path step t m u) :
    Path step s (l ++ m) u := by
  induction h with
  | nil => exact h'
  | cons hs _ ih => exact .cons hs (ih h')

theorem Path.snoc {l : List σ} (h : Path step s l t) (ht : step t = .ok (.again u)) :
    Path step s (l ++ [t]) u :=
  h.append (.cons ht (.nil u))

/-- An invariant that may look at the states passed so far. -/
theorem Path.invariant {P : List σ → σ → Prop} {s t : σ} {l : List σ} (hP : P [] s)
    (hstep : ∀ {m u u'}, Path step s m u → P m u → step u = .ok (.again u') → P (m ++ [u]) u')
    (h : Path step s l t) : P l t := by
  suffices ∀ {u v m k}, Path step s m u → P m u → Path step u k v → P (m ++ k) v by
    simpa using this (.nil s) hP h
  intro u v m k hm hPm hk
  induction hk generalizing m with
  | nil => simpa using hPm
  | cons hu _ ih =>
    have := ih (hm.snoc hu) (hstep hm hPm hu)
    simpa using this

namespace Reaches

theorem refl (s : σ) : Reaches step s s := ⟨[], .nil s⟩

theorem head {s s' t : σ} (h : step s = .ok (.again s')) (h' : Reaches step s' t) :
    Reaches step s t :=
  let ⟨l, hl⟩ := h'
  ⟨s :: l, .cons h hl⟩

theorem trans (h : Reaches step s t) (h' : Reaches step t u) : Reaches step s u :=
  let ⟨l, hl⟩ := h
  let ⟨m, hm⟩ := h'
  ⟨l ++ m, hl.append hm⟩

theorem snoc (h : Reaches step s t) (ht : step t = .ok (.again u)) :
    Reaches step s u :=
  h.trans (head ht (refl u))

theorem invariant {P : σ → Prop} {s t : σ} (h : Reaches step s t) (hs : P s)
    (hstep : ∀ {u u'}, Reaches step s u → P u → step u = .ok (.again u') → P u') : P t := by
  obtain ⟨l, hl⟩ := h
  exact Path.invariant (P := fun _ u => P u) hs (fun hm hPm hu => hstep ⟨_, hm⟩ hPm hu) hl

end Reaches

/-- A loop returns what the last iteration of a path leaves it with. -/
theorem path_of_returns {s : σ} {r : ρ} (h : Returns step s r) :
    ∃ t, Reaches step s t ∧ step t = .ok (.done r) := by
  obtain ⟨n, hn⟩ := h
  induction n generalizing s with
  | zero => cases hn
  | succ n ih =>
    simp only [run] at hn
    split at hn
    case h_1 => cases hn
    case h_2 hs =>
      cases hn
      exact ⟨s, .refl s, hs⟩
    case h_3 hs =>
      obtain ⟨t, ht, hr⟩ := ih hn
      exact ⟨t, .head hs ht, hr⟩

/-- The loop returns within `n` iterations, and the result passes the check. -/
def returnsWith (step : σ → Except ε (Iter σ ρ)) (n : ℕ) (s : σ) (check : ρ → Bool) : Bool :=
  match run step n s with
  | some (.ok r) => check r
  | _ => false

theorem exists_of_returnsWith {n : ℕ} {s : σ} {check : ρ → Bool}
    (h : returnsWith step n s check = true) : ∃ r, Returns step s r ∧ check r = true := by
  unfold returnsWith at h
  split at h
  case h_1 r hr => exact ⟨r, ⟨n, hr⟩, h⟩
  case h_2 => cases h

end Loop

end Splash.Lib
