import Splash.Engine.Executor

/-!
# What the handlers leave alone

The handlers that bring a book in line with its entities change the states and the book of one pair
and nothing else. `Work` says so, along with a property of the book that every external mutation
keeps; each handler has one lemma.
-/

namespace Splash.Engine

open Lib Data LiquidityBook

variable {PR T M SO I V B K Bk TX : Type}

/-- Every external mutation keeps `P`, and panics only as allowed. -/
structure BookOps.Respects (ops : BookOps Bk T M) (P : Bk → Prop) (allowed : Panic → Prop) :
    Prop where
  updateTaker : ∀ t b, P b → Exec.Meets (ops.updateTaker t b) P allowed
  removeTaker : ∀ t b, P b → Exec.Meets (ops.removeTaker t b) P allowed
  updateMaker : ∀ m b, P b → Exec.Meets (ops.updateMaker m b) P allowed
  removeMaker : ∀ m b, P b → Exec.Meets (ops.removeMaker m b) P allowed

theorem BookOps.respects_true (ops : BookOps Bk T M) :
    ops.Respects (fun _ => True) fun _ => True := by
  have hall : ∀ r : Exec Bk, Exec.Meets r (fun _ => True) fun _ => True := by
    intro r
    cases r <;> trivial
  exact ⟨fun _ _ _ => hall _, fun _ _ _ => hall _, fun _ _ _ => hall _, fun _ _ _ => hall _⟩

/-- A fault of the executor, other than an external mutation that panics with something not
allowed. -/
def Fault.Allowed (allowed : Panic → Prop) : Fault V → Prop
  | .externalMutation p => allowed p
  | _ => True

variable [LinearOrder PR] [LinearOrder V] [LinearOrder B] [LinearOrder K]

namespace Executor

variable {env : Env PR T M SO V B Bk TX} {s s' s'' : Executor PR T M SO V B K Bk} {pair : PR}
  {P : Bk → Prop} {allowed : Panic → Prop}

@[simp] theorem bookOf_setBook (s : Executor PR T M SO V B K Bk) (pair p : PR) (book : Bk) :
    (s.setBook pair book).bookOf env p = if p = pair then book else s.bookOf env p := by
  simp only [bookOf, setBook, OrdMap.get?_insert]
  split <;> rfl

@[simp] theorem backlogOf_setBacklog (s : Executor PR T M SO V B K Bk) (pair p : PR)
    (backlog : HotPriorityBacklog (Bundled SO B) V) :
    (s.setBacklog pair backlog).backlogOf env p = if p = pair then backlog else s.backlogOf env p := by
  simp only [backlogOf, setBacklog, OrdMap.get?_insert]
  split <;> rfl

/-- From `s` to `s'` nothing but the states and the book of the pair changed, and this book keeps
`P`. -/
structure Work (env : Env PR T M SO V B Bk TX) (P : Bk → Prop) (pair : PR)
    (s s' : Executor PR T M SO V B K Bk) : Prop where
  fundingPool : s'.fundingPool = s.fundingPool
  multiBacklog : s'.multiBacklog = s.multiBacklog
  pendingEffects : s'.pendingEffects = s.pendingEffects
  focusSet : s'.focusSet = s.focusSet
  others : ∀ p, p ≠ pair → s'.bookOf env p = s.bookOf env p
  keeps : P (s.bookOf env pair) → P (s'.bookOf env pair)

namespace Work

theorem refl (s : Executor PR T M SO V B K Bk) : Work env P pair s s :=
  ⟨rfl, rfl, rfl, rfl, fun _ _ => rfl, id⟩

theorem trans (h : Work env P pair s s') (h' : Work env P pair s' s'') :
    Work env P pair s s'' where
  fundingPool := h'.fundingPool.trans h.fundingPool
  multiBacklog := h'.multiBacklog.trans h.multiBacklog
  pendingEffects := h'.pendingEffects.trans h.pendingEffects
  focusSet := h'.focusSet.trans h.focusSet
  others p hp := (h'.others p hp).trans (h.others p hp)
  keeps hP := h'.keeps (h.keeps hP)

theorem ofStates (s : Executor PR T M SO V B K Bk) (states : States (EvolvingEntity T M V B) V K) :
    Work env P pair s { s with states } :=
  ⟨rfl, rfl, rfl, rfl, fun _ _ => rfl, id⟩

theorem ofBook (s : Executor PR T M SO V B K Bk) {book : Bk} (h : P (s.bookOf env pair) → P book) :
    Work env P pair s (s.setBook pair book) :=
  ⟨rfl, rfl, rfl, rfl, fun p hp => by simp [hp], fun hP => by simpa using h hP⟩

end Work

/-- The result of a handler that works on the book of a pair. -/
abbrev Works (env : Env PR T M SO V B Bk TX) (P : Bk → Prop) (allowed : Panic → Prop) (pair : PR)
    (s : Executor PR T M SO V B K Bk) (r : Except (Fault V) (Executor PR T M SO V B K Bk)) : Prop :=
  P (s.bookOf env pair) → Exec.Meets r (Work env P pair s) (Fault.Allowed allowed)

variable {r : Except (Fault V) (Executor PR T M SO V B K Bk)}

theorem Works.ofWork (h : Work env P pair s s')
    (hr : Works env P allowed pair s' r) : Works env P allowed pair s r :=
  fun hP => (hr (h.keeps hP)).mono fun _ hw => h.trans hw

theorem Works.bind
    {f : Executor PR T M SO V B K Bk → Except (Fault V) (Executor PR T M SO V B K Bk)}
    (hr : Works env P allowed pair s r) (hf : ∀ s', Works env P allowed pair s' (f s')) :
    Works env P allowed pair s (r >>= f) := by
  intro hP
  refine (hr hP).bind fun s' hw => ?_
  exact (hf s' (hw.keeps hP)).mono fun _ hw' => hw.trans hw'

section

variable (hops : env.book.Respects P allowed) (s : Executor PR T M SO V B K Bk)
  (tr : Option (Ior (EvolvingEntity T M V B) (EvolvingEntity T M V B)))
include hops

omit hops in
theorem Works.return : Works env P allowed pair s (pure s) :=
  fun _ => Work.refl s

omit hops in
theorem works_mutateBook {f : Bk → Exec Bk} (hf : ∀ b, P b → Exec.Meets (f b) P allowed)
    (s : Executor PR T M SO V B K Bk) : Works env P allowed pair s (s.mutateBook env pair f) := by
  intro hP
  have hmeets := hf _ hP
  unfold mutateBook
  cases hrun : f (s.bookOf env pair) with
  | ok book =>
    rw [hrun] at hmeets
    exact Work.ofBook s fun _ => hmeets
  | error p =>
    rw [hrun] at hmeets
    exact hmeets

theorem works_syncBook (tr : Ior (EvolvingEntity T M V B) (EvolvingEntity T M V B)) :
    Works env P allowed pair s (s.syncBook env pair tr) := by
  match tr with
  | .left ⟨.inl o, _⟩ => exact works_mutateBook (hops.removeTaker _) s
  | .left ⟨.inr p, _⟩ => exact works_mutateBook (hops.removeMaker _) s
  | .both ⟨.inl old, _⟩ ⟨.inl new, _⟩ =>
    exact (works_mutateBook (hops.removeTaker _) s).bind fun s' =>
      works_mutateBook (hops.updateTaker _) s'
  | .both ⟨.inl _, _⟩ ⟨.inr new, _⟩ => exact works_mutateBook (hops.updateMaker _) s
  | .both ⟨.inr _, _⟩ ⟨.inr new, _⟩ => exact works_mutateBook (hops.updateMaker _) s
  | .both ⟨.inr _, _⟩ ⟨.inl _, _⟩ => exact fun _ => trivial
  | .right ⟨.inl new, _⟩ => exact works_mutateBook (hops.updateTaker _) s
  | .right ⟨.inr new, _⟩ => exact works_mutateBook (hops.updateMaker _) s

theorem works_syncTransition : Works env P allowed pair s (s.syncTransition env pair tr) := by
  cases tr with
  | none => exact Works.return s
  | some tr => exact works_syncBook hops s tr

end

variable [RawId I K] [Stable T I] [Stable M I]

section

variable (hops : env.book.Respects P allowed) (versions : List V) (s : Executor PR T M SO V B K Bk)
include hops

theorem works_processTransition (channel : Channel) (upd : Transition (EvolvingEntity T M V B)) :
    Works env P allowed pair s (s.processTransition env pair channel upd) :=
  Works.ofWork (Work.ofStates s _) (works_syncTransition hops _ _)

theorem meets_invalidateVersions (hP : P (s.bookOf env pair)) :
    Exec.Meets (invalidateVersions env pair versions s) (fun r => Work env P pair s r.1)
      (Fault.Allowed allowed) := by
  induction versions generalizing s with
  | nil => exact Work.refl s
  | cons ver versions ih =>
    have hone : Exec.Meets (s.invalidateVersion env pair ver) (fun r => Work env P pair s r.1)
        (Fault.Allowed allowed) := by
      unfold invalidateVersion
      split
      · exact Work.refl s
      · refine Exec.Meets.bind (Works.ofWork (Work.ofStates s _)
          (works_syncTransition hops _ _) hP) fun s' hw => ?_
        exact hw
    refine hone.bind fun r hw => ?_
    refine (ih r.1 (hw.keeps hP)).bind fun r' hw' => ?_
    exact hw.trans hw'

theorem works_applyEffects (effects : List (ExecutionEff (EvolvingEntity T M V B)))
    (s : Executor PR T M SO V B K Bk) :
    Works env P allowed pair s (applyEffects env pair effects s) := by
  induction effects generalizing s with
  | nil => exact Works.return s
  | cons eff effects ih =>
    have hprocessed : ∀ ver, Work env P pair s (s.onEntityProcessed ver) := fun ver =>
      Work.ofStates s _
    refine Works.bind ?_ fun s' => ih s'
    cases eff with
    | updated elim upd =>
      exact Works.ofWork (hprocessed (EntitySnapshot.version elim))
        (works_processTransition hops _ .localTxSubmit (.forward (.both elim upd)))
    | eliminated elim =>
      exact Works.ofWork (hprocessed (EntitySnapshot.version elim))
        (works_processTransition hops _ .localTxSubmit (.forward (.left elim)))

end

section

omit [RawId I K] [Stable T I] [Stable M I]

theorem works_removeTakers (hops : env.book.Respects P allowed) (takers : List T)
    (s : Executor PR T M SO V B K Bk) :
    Works env P allowed pair s (removeTakers env pair takers s) := by
  induction takers generalizing s with
  | nil => exact Works.return s
  | cons t takers ih => exact (works_mutateBook (hops.removeTaker t) s).bind fun s' => ih s'

theorem works_removeOrphans (hops : env.book.Respects P allowed) (orphans : List (Orphan T M))
    (s : Executor PR T M SO V B K Bk) :
    Works env P allowed pair s (removeOrphans env pair orphans s) := by
  induction orphans generalizing s with
  | nil => exact Works.return s
  | cons o orphans ih =>
    cases o with
    | inl taker => exact (works_mutateBook (hops.removeTaker taker) s).bind fun s' => ih s'
    | inr maker => exact (works_mutateBook (hops.removeMaker maker) s).bind fun s' => ih s'

end

/-! ## Feedback -/

variable [SpecializedOrder SO V I]

theorem work_onExecutionEffectsSuccess {eff : Effects PR T M SO V B}
    (h : s.onExecutionEffectsSuccess env eff = .ok s') : Work env (fun _ => True) eff.pair s s' := by
  unfold onExecutionEffectsSuccess at h
  split at h
  case h_1 effects _ =>
    exact (Work.ofBook s fun _ => trivial).trans
      ((works_applyEffects env.book.respects_true _ _ trivial).ok h)
  case h_2 pool order _ =>
    cases h
    exact Work.ofStates s _

def giveBack (env : Env PR T M SO V B Bk TX) (eff : Effects PR T M SO V B) (missing : List V)
    (s : Executor PR T M SO V B K Bk) : Executor PR T M SO V B K Bk :=
  match eff.execution with
  | .fromLiquidityBook _ => s
  | .fromBacklog _ order => s.returnOrder env eff.pair missing order

section GiveBack

variable (env) (eff : Effects PR T M SO V B) (missing : List V) (s)

omit [RawId I K] [Stable T I] [Stable M I]

@[simp] theorem giveBack_fundingPool : (s.giveBack env eff missing).fundingPool = s.fundingPool := by
  unfold giveBack
  split <;> rfl

@[simp] theorem giveBack_pendingEffects :
    (s.giveBack env eff missing).pendingEffects = s.pendingEffects := by
  unfold giveBack
  split <;> rfl

@[simp] theorem giveBack_focusSet : (s.giveBack env eff missing).focusSet = s.focusSet := by
  unfold giveBack
  split <;> rfl

@[simp] theorem bookOf_giveBack (p : PR) :
    (s.giveBack env eff missing).bookOf env p = s.bookOf env p := by
  unfold giveBack
  split <;> rfl

theorem backlogOf_giveBack {p : PR} (hp : p ≠ eff.pair) :
    (s.giveBack env eff missing).backlogOf env p = s.backlogOf env p := by
  unfold giveBack
  split
  · rfl
  · rw [returnOrder, backlogOf_setBacklog, if_neg hp]

end GiveBack

theorem work_onExecutionEffectsFailure {missing : Option (List V)} {eff : Effects PR T M SO V B}
    (h : s.onExecutionEffectsFailure env missing eff = .ok s') :
    Work env (fun _ => True) eff.pair (s.giveBack env eff (missing.getD [])) s' := by
  have hfailed : Work env (fun _ => True) eff.pair s (s.failRecipe env eff.pair) :=
    Work.ofBook s fun _ => trivial
  unfold onExecutionEffectsFailure at h
  split at h
  case h_1 missingInputs effects hexec =>
    obtain ⟨⟨s₁, unknown⟩, hinv, h⟩ := Exec.bind_eq_ok.1 h
    have hwork := (meets_invalidateVersions env.book.respects_true _ _ trivial).ok hinv
    dsimp only at h
    split at h
    · cases h
    · cases h
      simp only [giveBack, hexec]
      exact hfailed.trans hwork
  case h_2 missingInputs pool order hexec =>
    obtain ⟨⟨s₁, unknown⟩, hinv, h⟩ := Exec.bind_eq_ok.1 h
    cases h
    simp only [giveBack, hexec]
    exact (meets_invalidateVersions env.book.respects_true _ _ trivial).ok hinv
  case h_3 effects hexec =>
    simp only [giveBack, hexec]
    exact hfailed.trans ((works_removeTakers env.book.respects_true _ _ trivial).ok h)
  case h_4 pool order hexec =>
    cases h
    simp only [giveBack, hexec]
    exact Work.refl _

end Executor

end Splash.Engine
