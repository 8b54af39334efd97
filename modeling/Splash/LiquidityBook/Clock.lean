import Splash.LiquidityBook.Frontier

/-!
# The clock of a book

Takers are added, removed and activated while the clock advances. A taker whose lower bound lies in
the future waits in the slot of its lower bound, and the clock activates the slot of the time that
it is set to. It does not look at the slots in between.

* `Exact` — the active takers are those whose bounds cover the current time.
* `Orderly` — the clock is never set past a slot that takers wait in, among other things.
* `exact_run` — along orderly updates the active takers are exact.
-/

namespace Splash.LiquidityBook

open Lib MarketTaker MarketTakers

/-! ## Time bounds -/

namespace TimeBounds

/-- The times that are documented for the bounds. -/
def Covers : TimeBounds → ℕ → Prop
  | .until t, time => time ≤ t
  | .after t, time => t ≤ time
  | .within t₀ t₁, time => t₀ ≤ time ∧ time ≤ t₁
  | .none, _ => True

/-- The check of the bounds. The comparisons with the lower bounds are the other way round. -/
def contain : TimeBounds → ℕ → Bool
  | .until t, time => time ≤ t
  | .after t, time => t ≥ time
  | .within t₀ t₁, time => t₀ ≥ time && time ≤ t₁
  | .none, _ => true

instance (bounds : TimeBounds) (time : ℕ) : Decidable (bounds.Covers time) := by
  cases bounds <;> unfold Covers <;> infer_instance

variable {bounds : TimeBounds} {now time b : ℕ}

theorem futureBound_eq_some :
    bounds.futureBound now = some b ↔ bounds.lowerBound = some b ∧ now < b := by
  unfold futureBound
  rw [Option.filter_eq_some_iff, decide_eq_true_iff]

theorem lowerBound_le_of_covers (h : bounds.Covers time) (hb : bounds.lowerBound = some b) :
    b ≤ time := by
  cases bounds <;> simp_all [Covers, lowerBound]

theorem covers_of_later (hnow : bounds.futureBound now = Option.none) (hle : now ≤ time)
    (h : bounds.Covers time) : bounds.Covers now := by
  cases bounds <;> simp_all [Covers, futureBound, lowerBound] <;> omega

end TimeBounds

variable {T U : Type} [MarketTaker T U] [FrontierOrd T]

/-! ## Takers that do not collide -/

namespace MarketTakers

variable {mt : MarketTakers T} {t x : T}

theorem mem_insert_of_apart (h : ∀ y ∈ mt, Collide t y → y = t) :
    x ∈ mt.insert t ↔ x ∈ mt ∨ x = t := by
  rw [mem_insert]
  refine or_congr_right' fun hx => and_iff_left_of_imp ?_
  rintro rfl y hy hcol
  exact hx (h y hy hcol ▸ hy)

theorem mem_remove_of_apart (h : ∀ y ∈ mt, Collide t y → y = t) :
    x ∈ mt.remove t ↔ x ∈ mt ∧ x ≠ t := by
  rw [mem_remove]
  refine and_congr_right fun hx => not_congr ⟨h x hx, ?_⟩
  rintro rfl
  exact collide_self x

theorem mem_insertAll_of_apart {ts : List T}
    (h : ∀ x y, x ∈ mt ∨ x ∈ ts → y ∈ mt ∨ y ∈ ts → Collide x y → y = x) :
    x ∈ mt.insertAll ts ↔ x ∈ mt ∨ x ∈ ts := by
  refine ⟨fun hx => ?_, fun hx => mem_insertAll (fun y hy => h x y hx hy) hx⟩
  clear h
  induction ts generalizing mt with
  | nil => exact .inl hx
  | cons t ts ih =>
    rcases ih hx with hx | hx
    · exact (mem_insert.1 hx).imp_right fun ht => List.mem_cons.2 (.inl ht.1)
    · exact .inr (List.mem_cons_of_mem t hx)

end MarketTakers

/-! ## Updates -/

namespace Chronology

/-- The takers that wait for a time. -/
def slot (c : Chronology T) (time : ℕ) : MarketTakers T := (c.inactive.get? time).getD .new

/-- Sets the clock. The takers of the slot of the new time become active, and the active ones are
told the time. -/
def advanceClocks (withUpdatedTime : T → ℕ → Next T Unit) (c : Chronology T) (newTime : ℕ) :
    Chronology T where
  timeNow := newTime
  active := (c.slot newTime).insertAll (c.active.toList.filterMap fun t =>
    match withUpdatedTime t newTime with
    | .succ next => some next
    | .term _ => none)
  inactive := c.inactive.erase newTime

inductive Op (T : Type) where
  | add (t : T)
  | remove (t : T)
  | advance (time : ℕ)

variable (withUpdatedTime : T → ℕ → Next T Unit)

section

variable (live : T → Prop) (c : Chronology T)

def apply : Op T → Chronology T
  | .add t => c.addFragment t
  | .remove t => c.removeFragment t
  | .advance time => c.advanceClocks withUpdatedTime time

/-- The takers after some updates, listed from the last one. -/
def run (start : ℕ) : List (Op T) → Chronology T
  | [] => ⟨start, .new, .empty⟩
  | op :: ops => (run start ops).apply withUpdatedTime op

/-- The takers that were added and not removed. -/
def Live : List (Op T) → T → Prop
  | [], _ => False
  | .add t :: ops, x => x = t ∨ Live ops x
  | .remove t :: ops, x => x ≠ t ∧ Live ops x
  | .advance _ :: ops, x => Live ops x

/-- The active takers are those that may be traded now, and the others wait for a later time. -/
structure Exact : Prop where
  active_iff : ∀ x, x ∈ c.active ↔ live x ∧ (timeBounds x).Covers c.timeNow
  inactive : ∀ x, HeldInactive c.inactive x →
    ∃ b, (timeBounds x).lowerBound = some b ∧ c.timeNow < b

/-- No other taker has the place of this one. -/
def Apart (t : T) : Prop :=
  ∀ y, live y → MarketTakers.Collide t y ∨ MarketTakers.Collide y t → y = t

/-- What keeps the takers exact. A taker that is added has bounds that begin in the future or cover
the present. The clock is not set back and not set past a lower bound that takers wait for, and the
takers that are told the time stay as they are just when their bounds cover it. -/
def Meets (now : ℕ) (live : T → Prop) : Op T → Prop
  | .add t => Apart live t ∧
    (timeBounds t).Covers (((timeBounds t).futureBound now).getD now)
  | .remove t => Apart live t
  | .advance time => now ≤ time ∧
    (∀ x b, live x → (timeBounds x).futureBound now = some b → time ≤ b) ∧
    ∀ x, live x → (timeBounds x).Covers now →
      (withUpdatedTime x time = .succ x ∧ (timeBounds x).Covers time ∨
        withUpdatedTime x time = .term () ∧ ¬ (timeBounds x).Covers time)

def Orderly (start : ℕ) : List (Op T) → Prop
  | [] => True
  | op :: ops => Orderly start ops ∧
    Meets withUpdatedTime (run withUpdatedTime start ops).timeNow (Live ops) op

/-! ## The invariant -/

/-- The active takers are exact, the others wait in the slots of their lower bounds, and no two take
the same place. -/
structure Arranged : Prop where
  active_iff : ∀ x, x ∈ c.active ↔ live x ∧ (timeBounds x).Covers c.timeNow
  slot_iff : ∀ time x, x ∈ c.slot time ↔
    live x ∧ (timeBounds x).futureBound c.timeNow = some time
  apart : ∀ x y, live x → live y → MarketTakers.Collide x y → y = x
  begins : ∀ x b, live x → (timeBounds x).futureBound c.timeNow = some b →
    (timeBounds x).Covers b

end

variable {withUpdatedTime} {c : Chronology T} {live : T → Prop} {t : T}

theorem not_covers_of_futureBound {bounds : TimeBounds} {now b : ℕ}
    (hb : bounds.futureBound now = some b) : ¬ bounds.Covers now := fun hcovers => by
  obtain ⟨hlower, hlt⟩ := TimeBounds.futureBound_eq_some.1 hb
  exact absurd (TimeBounds.lowerBound_le_of_covers hcovers hlower) hlt.not_ge

section

variable (h : Arranged live c) (hapart : Apart live t)
include h hapart

omit hapart in
theorem Arranged.exact : Exact live c where
  active_iff := h.active_iff
  inactive := by
    rintro x ⟨time, slot, hslot, hx⟩
    have hmem : x ∈ c.slot time := by rwa [Chronology.slot, hslot]
    exact ⟨time, TimeBounds.futureBound_eq_some.1 ((h.slot_iff time x).1 hmem).2⟩

theorem Arranged.apart_active :
    ∀ y ∈ c.active, MarketTakers.Collide t y → y = t := fun y hy hcol =>
  hapart y ((h.active_iff y).1 hy).1 (.inl hcol)

theorem Arranged.apart_slot (time : ℕ) :
    ∀ y ∈ c.slot time, MarketTakers.Collide t y → y = t := fun y hy hcol =>
  hapart y ((h.slot_iff time y).1 hy).1 (.inl hcol)

theorem addFragment_spec :
    (c.addFragment t).timeNow = c.timeNow ∧
    (∀ x, x ∈ (c.addFragment t).active ↔
      x ∈ c.active ∨ x = t ∧ (timeBounds t).futureBound c.timeNow = none) ∧
    ∀ time x, x ∈ (c.addFragment t).slot time ↔
      x ∈ c.slot time ∨ x = t ∧ (timeBounds t).futureBound c.timeNow = some time := by
  unfold addFragment
  cases (timeBounds t).futureBound c.timeNow with
  | none =>
    refine ⟨rfl, fun x => ?_, fun time x => by simp [slot]⟩
    simpa using mem_insert_of_apart (h.apart_active hapart)
  | some b =>
    refine ⟨rfl, fun x => by simp, fun time x => ?_⟩
    by_cases htime : time = b
    · subst htime
      simpa [slot, addInactive] using mem_insert_of_apart (h.apart_slot hapart time)
    · simp [slot, addInactive, htime, Ne.symm htime]

theorem removeFragment_spec :
    (c.removeFragment t).timeNow = c.timeNow ∧
    (∀ x, x ∈ (c.removeFragment t).active ↔
      x ∈ c.active ∧ ¬ (x = t ∧ (timeBounds t).futureBound c.timeNow = none)) ∧
    ∀ time x, x ∈ (c.removeFragment t).slot time ↔
      x ∈ c.slot time ∧ ¬ (x = t ∧ (timeBounds t).futureBound c.timeNow = some time) := by
  unfold removeFragment
  cases (timeBounds t).futureBound c.timeNow with
  | none =>
    refine ⟨rfl, fun x => ?_, fun time x => by simp [slot]⟩
    simpa using mem_remove_of_apart (h.apart_active hapart)
  | some b =>
    dsimp only
    cases hslot : c.inactive.get? b with
    | none =>
      refine ⟨rfl, fun x => by simp, fun time x => ?_⟩
      by_cases htime : time = b
      · subst htime
        simp [slot, hslot, not_mem_new]
      · simp [Ne.symm htime]
    | some s =>
      refine ⟨rfl, fun x => by simp, fun time x => ?_⟩
      by_cases htime : time = b
      · subst htime
        have hremove := mem_remove_of_apart (x := x) (h.apart_slot hapart time)
        simpa [slot, hslot] using hremove
      · simp [slot, htime, Ne.symm htime]

theorem Arranged.add
    (hbounds : (timeBounds t).Covers (((timeBounds t).futureBound c.timeNow).getD c.timeNow)) :
    Arranged (fun x => x = t ∨ live x) (c.addFragment t) := by
  obtain ⟨htime, hactive, hslot⟩ := addFragment_spec h hapart
  have hnow : (timeBounds t).futureBound c.timeNow = none ↔ (timeBounds t).Covers c.timeNow := by
    cases hb : (timeBounds t).futureBound c.timeNow with
    | none => simpa [hb] using hbounds
    | some b => simpa using not_covers_of_futureBound hb
  refine ⟨fun x => ?_, fun time x => ?_, ?_, ?_⟩
  · rw [hactive, htime, h.active_iff, hnow]
    grind
  · rw [hslot, htime, h.slot_iff]
    grind
  · rintro x y (rfl | hx) (rfl | hy) hcol
    · rfl
    · exact hapart y hy (.inl hcol)
    · exact (hapart x hx (.inr hcol)).symm
    · exact h.apart x y hx hy hcol
  · rw [htime]
    rintro x b (rfl | hx) hb
    · rwa [hb] at hbounds
    · exact h.begins x b hx hb

theorem Arranged.remove :
    Arranged (fun x => x ≠ t ∧ live x) (c.removeFragment t) := by
  obtain ⟨htime, hactive, hslot⟩ := removeFragment_spec h hapart
  have hnow : (timeBounds t).Covers c.timeNow → (timeBounds t).futureBound c.timeNow = none :=
    fun hcovers => Option.eq_none_iff_forall_not_mem.2 fun b hb => not_covers_of_futureBound hb hcovers
  refine ⟨fun x => ?_, fun time x => ?_, fun x y hx hy => h.apart x y hx.2 hy.2, ?_⟩
  · rw [hactive, htime, h.active_iff]
    grind
  · rw [hslot, htime, h.slot_iff]
    grind
  · rw [htime]
    exact fun x b hx => h.begins x b hx.2

omit hapart in
theorem Arranged.advance {time : ℕ} (hmeets : Meets withUpdatedTime c.timeNow live (.advance time)) :
    Arranged live (c.advanceClocks withUpdatedTime time) := by
  obtain ⟨hle, hskip, hupdate⟩ := hmeets
  have hkept : ∀ x, x ∈ (c.active.toList.filterMap fun t =>
      match withUpdatedTime t time with
      | .succ next => some next
      | .term _ => none) ↔ x ∈ c.active ∧ (timeBounds x).Covers time := by
    intro x
    simp only [List.mem_filterMap, mem_toList]
    constructor
    · rintro ⟨y, hy, heq⟩
      obtain ⟨hlive, hcovers⟩ := (h.active_iff y).1 hy
      obtain ⟨hnext, hcovers⟩ | ⟨hnext, -⟩ := hupdate y hlive hcovers
      · rw [hnext] at heq
        cases heq
        exact ⟨hy, hcovers⟩
      · rw [hnext] at heq
        cases heq
    · rintro ⟨hx, hcovers⟩
      obtain ⟨hlive, hnow⟩ := (h.active_iff x).1 hx
      obtain ⟨hnext, -⟩ | ⟨-, hnot⟩ := hupdate x hlive hnow
      · exact ⟨x, hx, by rw [hnext]⟩
      · exact absurd hcovers hnot
  -- a taker that waits and may be traded at the new time waits for just this time
  have hbegin : ∀ x, live x → ((timeBounds x).Covers time ↔
      (timeBounds x).futureBound c.timeNow = some time ∨
        (timeBounds x).Covers c.timeNow ∧ (timeBounds x).Covers time) := by
    intro x hlive
    refine ⟨fun hcovers => ?_, fun hor => hor.elim (h.begins x time hlive) (·.2)⟩
    cases hb : (timeBounds x).futureBound c.timeNow with
    | none => exact .inr ⟨TimeBounds.covers_of_later hb hle hcovers, hcovers⟩
    | some b =>
      have hlower := (TimeBounds.futureBound_eq_some.1 hb).1
      have := TimeBounds.lowerBound_le_of_covers hcovers hlower
      have := hskip x b hlive hb
      exact .inl (congrArg some (by omega))
  refine ⟨fun x => ?_, fun slot x => ?_, h.apart, fun x b hlive hb => ?_⟩
  · unfold advanceClocks
    dsimp only
    rw [mem_insertAll_of_apart, hkept, h.slot_iff, h.active_iff]
    · have := hbegin x
      grind
    · intro y z hy hz
      rw [hkept, h.slot_iff, h.active_iff] at hy hz
      exact h.apart y z (by grind) (by grind)
  · show x ∈ ((c.inactive.erase time).get? slot).getD .new ↔
      live x ∧ (timeBounds x).futureBound time = some slot
    have hslot := h.slot_iff slot x
    have hwaits := hskip x slot
    rw [OrdMap.get?_erase]
    rw [TimeBounds.futureBound_eq_some] at hslot hwaits ⊢
    by_cases hnew : slot = time
    · simp [hnew, not_mem_new]
    · rw [if_neg hnew]
      change x ∈ c.slot slot ↔ _
      rw [hslot]
      refine and_congr_right fun hlive => and_congr_right fun hlower => ⟨fun hlt => ?_, fun hlt => ?_⟩
      · have := hwaits hlive ⟨hlower, hlt⟩
        omega
      · omega
  · obtain ⟨hlower, hlt⟩ := TimeBounds.futureBound_eq_some.1 hb
    exact h.begins x b hlive (TimeBounds.futureBound_eq_some.2 ⟨hlower, lt_of_le_of_lt hle hlt⟩)

end

theorem arranged_run {start : ℕ} {ops : List (Op T)} (h : Orderly withUpdatedTime start ops) :
    Arranged (Live ops) (run withUpdatedTime start ops) := by
  induction ops with
  | nil =>
    have hempty : ∀ x, x ∉ (new : MarketTakers T) := fun _ => not_mem_new
    exact ⟨fun x => iff_of_false (hempty x) And.left, fun _ x => iff_of_false (hempty x) And.left,
      fun _ _ => False.elim, fun _ _ => False.elim⟩
  | cons op ops ih =>
    cases op with
    | add t => exact (ih h.1).add h.2.1 h.2.2
    | remove t => exact (ih h.1).remove h.2
    | advance time => exact (ih h.1).advance h.2

/-- **Along orderly updates** the active takers are exactly the live ones whose bounds cover the
current time, and every other one waits for a later time. -/
theorem exact_run {start : ℕ} {ops : List (Op T)} (h : Orderly withUpdatedTime start ops) :
    Exact (Live ops) (run withUpdatedTime start ops) :=
  (arranged_run h).exact

end Chronology

/-! ## A bid that waits -/

structure WaitingBid where
  begins : ℕ

instance : MarketTaker WaitingBid Unit where
  side _ := .bid
  input _ := 10
  output _ := 0
  price _ := 1
  operatorFee _ _ := 0
  fee _ := 0
  consumableBudget _ := 0
  marginalCostHint _ := ()
  minMarginalOutput _ := 0
  timeBounds bid := .after bid.begins

instance : FrontierOrd WaitingBid where
  cmp _ := compareOn WaitingBid.begins
  trans _ := inferInstance

def WaitingBid.withUpdatedTime (bid : WaitingBid) (time : ℕ) : Next WaitingBid Unit :=
  if (timeBounds bid).contain time then .succ bid else .term ()

def waitingUntil (time : ℕ) : List (Chronology.Op WaitingBid) := [.advance time, .add ⟨5⟩]

theorem waitingBid_activated :
    ⟨5⟩ ∈ (Chronology.run WaitingBid.withUpdatedTime 0 (waitingUntil 5)).active := by
  have hexact : Chronology.Exact (Chronology.Live (waitingUntil 5))
      (Chronology.run WaitingBid.withUpdatedTime 0 (waitingUntil 5)) := by
    refine Chronology.exact_run ⟨⟨trivial, fun _ h => h.elim, by decide⟩, by decide, ?_, ?_⟩
    · rintro x b (rfl | h) hb
      · cases hb
        exact le_rfl
      · exact h.elim
    · rintro x (rfl | h) hcovers
      · exact absurd hcovers (by decide)
      · exact h.elim
  exact (hexact.active_iff ⟨5⟩).2 ⟨.inl rfl, by decide⟩

/-- A bid that may be executed from the time 5 on is not active when the clock is set from 0 to 7. -/
theorem waitingBid_skipped :
    Chronology.Live (waitingUntil 7) ⟨5⟩ ∧ (timeBounds (⟨5⟩ : WaitingBid)).Covers 7 ∧
      (Chronology.run WaitingBid.withUpdatedTime 0 (waitingUntil 7)).timeNow = 7 ∧
      ⟨5⟩ ∉ (Chronology.run WaitingBid.withUpdatedTime 0 (waitingUntil 7)).active :=
  ⟨.inl rfl, by decide, rfl, not_mem_new⟩

end Splash.LiquidityBook
