import Mathlib

/-!
# Computations that may panic

`Exec α` is a computation that returns an `α` or panics. Sums and differences of unsigned 64-bit
amounts panic when they leave the range.

* `bind_eq_ok` — a sequence returns when both parts return.
* `bind_eq_some` — a sequence of partial computations has a result when both parts have one.
* `Meets.bind`, `Gives.bind` — pre- and postconditions of a sequence.
* `addU64_eq_ok`, `subU64_eq_ok` — what a returned sum or difference is.
* `sumU64_eq_ok` — what a returned sum over a list is.
-/

namespace Splash.Lib

/-- Why a computation stopped. -/
inductive Panic where
  /-- Machine arithmetic left its range. -/
  | overflow
  /-- A quotient by zero. -/
  | divisionByZero
  /-- A panic written in the code, with its text. -/
  | explicit (msg : String)
  /-- A loop that is still running when its iterations are used up. -/
  | diverged
  deriving DecidableEq, Repr

/-- A computation that returns or panics. -/
abbrev Exec := Except Panic

namespace Exec

universe u v

variable {ε : Type u} {α β : Type v}

variable {a : α} {x : Except ε α}

variable {b : β} {o : Option α}

theorem bind_eq_ok {f : α → Except ε β} : (x >>= f) = .ok b ↔ ∃ a, x = .ok a ∧ f a = .ok b := by
  cases x with
  | error e => exact ⟨fun h => (nomatch h), fun ⟨_, h, _⟩ => (nomatch h)⟩
  | ok a => exact ⟨fun h => ⟨a, rfl, h⟩, fun ⟨_, h, hf⟩ => Except.ok.inj h ▸ hf⟩

@[simp] theorem pure_eq_ok {a b : α} : (pure a : Except ε α) = .ok b ↔ a = b :=
  ⟨fun h => Except.ok.inj h, fun h => h ▸ rfl⟩

@[simp] theorem throw_ne_ok {e : ε} : (throw e : Except ε α) ≠ .ok a := fun h => nomatch h

theorem map_eq_ok {f : α → β} : x.map f = .ok b ↔ ∃ a, x = .ok a ∧ f a = b := by
  cases x with
  | error e => exact ⟨fun h => (nomatch h), fun ⟨_, h, _⟩ => (nomatch h)⟩
  | ok a => exact ⟨fun h => ⟨a, rfl, Except.ok.inj h⟩, fun ⟨_, h, hf⟩ => by cases h; rw [← hf]; rfl⟩

/-- Unwraps an option; an absent value panics with `msg`. -/
def expect (msg : String) : Option α → Exec α
  | some a => .ok a
  | none => .error (.explicit msg)

@[simp] theorem expect_eq_ok {msg : String} : expect msg o = .ok a ↔ o = some a := by
  cases o <;> simp [expect]

/-! ## Computations without a result -/

/-- A value that may be absent. -/
def ofOption (o : Option α) : OptionT Exec α := OptionT.mk (.ok o)

theorem ofOption_eq_some : (ofOption o).run = .ok (some a) ↔ o = some a :=
  ⟨fun h => Except.ok.inj h, fun h => congrArg Except.ok h⟩

theorem lift_eq_some {x : Exec α} :
    (OptionT.lift x).run = .ok (some a) ↔ x = .ok a := by
  cases x with
  | error e => exact ⟨fun h => (nomatch h), fun h => (nomatch h)⟩
  | ok b => exact ⟨fun h => by cases h; rfl, fun h => by cases h; rfl⟩

theorem bind_eq_some {x : OptionT Exec α} {f : α → OptionT Exec β} :
    (x >>= f).run = .ok (some b) ↔ ∃ a, x.run = .ok (some a) ∧ (f a).run = .ok (some b) := by
  obtain hx | hx | ⟨a, hx⟩ : (∃ e, x.run = .error e) ∨ x.run = .ok none ∨
      ∃ a, x.run = .ok (some a) := by
    rcases x.run with e | _ | a
    · exact .inl ⟨e, rfl⟩
    · exact .inr (.inl rfl)
    · exact .inr (.inr ⟨a, rfl⟩)
  · obtain ⟨e, hx⟩ := hx
    rw [OptionT.run_bind, hx]
    exact ⟨fun h => (nomatch h), fun ⟨_, h, _⟩ => (nomatch h)⟩
  · rw [OptionT.run_bind, hx]
    exact ⟨fun h => (nomatch h), fun ⟨_, h, _⟩ => (nomatch h)⟩
  · rw [OptionT.run_bind, hx]
    exact ⟨fun h => ⟨a, rfl, h⟩, fun ⟨_, h, hf⟩ => Option.some.inj (Except.ok.inj h) ▸ hf⟩

theorem pure_eq_some {a b : α} : (pure a : OptionT Exec α).run = .ok (some b) ↔ a = b :=
  ⟨fun h => Option.some.inj (Except.ok.inj h), fun h => h ▸ rfl⟩

/-! ## Pre- and postconditions -/

/-- What is returned satisfies `Q`, and an error is one of those allowed. -/
def Meets (x : Except ε α) (Q : α → Prop) (allowed : ε → Prop) : Prop :=
  match x with
  | .ok a => Q a
  | .error e => allowed e

section Meets

variable {allowed : ε → Prop} {P Q : α → Prop} {R : β → Prop}

theorem Meets.mono (h : Meets x P allowed) (hPQ : ∀ a, P a → Q a) :
    Meets x Q allowed := by
  cases x with
  | ok a => exact hPQ a h
  | error e => exact h

theorem Meets.bind {f : α → Except ε β} (hx : Meets x P allowed)
    (hf : ∀ a, P a → Meets (f a) R allowed) : Meets (x >>= f) R allowed := by
  cases x with
  | ok a => exact hf a hx
  | error e => exact hx

theorem Meets.ok (h : Meets x Q allowed) (ha : x = .ok a) : Q a := by
  subst ha
  exact h

end Meets

/-- The computation returns just when `p` holds, and then what is returned satisfies `Q`. -/
structure Gives (x : Except ε α) (p : Prop) (Q : α → Prop) : Prop where
  returns : p → ∃ a, x = .ok a
  spec : ∀ a, x = .ok a → p ∧ Q a

namespace Gives

variable {x : Except ε α} {f : α → Except ε β} {p q : Prop} {P Q : α → Prop} {R : β → Prop}

theorem of_cases (hok : p → ∃ a, x = .ok a ∧ Q a) (hnot : ¬ p → ∀ a, x ≠ .ok a) : Gives x p Q where
  returns hp := (hok hp).imp fun _ h => h.1
  spec a ha := by
    have hp : p := by_contra fun hp => hnot hp a ha
    obtain ⟨b, hb, hQ⟩ := hok hp
    cases hb.symm.trans ha
    exact ⟨hp, hQ⟩

theorem ok (hQ : Q a) : Gives (.ok a : Except ε α) True Q :=
  of_cases (fun _ => ⟨a, rfl, hQ⟩) fun hp => absurd trivial hp

theorem congr (h : Gives x p P) (hp : p ↔ q) (hQ : ∀ a, P a → Q a) : Gives x q Q where
  returns hq := h.returns (hp.2 hq)
  spec a ha := ⟨hp.1 (h.spec a ha).1, hQ a (h.spec a ha).2⟩

theorem bind (hx : Gives x p P) (hf : ∀ a, P a → Gives (f a) q R) : Gives (x >>= f) (p ∧ q) R where
  returns hpq := by
    obtain ⟨a, ha⟩ := hx.returns hpq.1
    obtain ⟨b, hb⟩ := (hf a (hx.spec a ha).2).returns hpq.2
    exact ⟨b, bind_eq_ok.2 ⟨a, ha, hb⟩⟩
  spec b hb := by
    obtain ⟨a, ha, hb⟩ := bind_eq_ok.1 hb
    obtain ⟨hp, hP⟩ := hx.spec a ha
    obtain ⟨hq, hR⟩ := (hf a hP).spec b hb
    exact ⟨⟨hp, hq⟩, hR⟩

theorem map {g : α → β} (h : Gives x p P) (hg : ∀ a, P a → R (g a)) : Gives (x.map g) p R :=
  of_cases
    (fun hp => (h.returns hp).elim fun a ha => ⟨g a, map_eq_ok.2 ⟨a, ha, rfl⟩, hg a (h.spec a ha).2⟩)
    fun hp _ hb => (map_eq_ok.1 hb).elim fun a ha => hp (h.spec a ha.1).1

end Gives

end Exec

/-! ## Bounded arithmetic -/

/-- A number that has to fit below a bound. -/
def fit (bound n : ℕ) : Exec ℕ := if n ≤ bound then .ok n else .error .overflow

@[simp] theorem fit_eq_ok {bound n m : ℕ} : fit bound n = .ok m ↔ n ≤ bound ∧ m = n := by
  unfold fit
  split <;> grind

/-- A quotient that panics when the divisor is zero. -/
def divide (a b : ℕ) : Exec ℕ := if b = 0 then .error .divisionByZero else .ok (a / b)

variable {a b c : ℕ}

@[simp] theorem divide_eq_ok : divide a b = .ok c ↔ b ≠ 0 ∧ c = a / b := by
  unfold divide
  split <;> grind

/-! ## Unsigned 64-bit amounts -/

def u64Max : ℕ := 2 ^ 64 - 1

/-- A difference that is absent when it is negative. -/
def checkedSub (a b : ℕ) : Option ℕ := if b ≤ a then some (a - b) else none

@[simp] theorem checkedSub_eq_some : checkedSub a b = some c ↔ a = c + b := by
  unfold checkedSub
  split <;> grind

@[simp] theorem checkedSub_eq_none {a b : ℕ} : checkedSub a b = none ↔ a < b := by
  unfold checkedSub
  split <;> grind

/-- A sum that is absent when it leaves the range. -/
def checkedAdd (a b : ℕ) : Option ℕ := if a + b ≤ u64Max then some (a + b) else none

theorem checkedAdd_eq_some :
    checkedAdd a b = some c ↔ a + b ≤ u64Max ∧ a + b = c := by
  unfold checkedAdd
  split <;> grind

/-- A difference that panics when it is negative. -/
def subU64 (a b : ℕ) : Exec ℕ := if b ≤ a then .ok (a - b) else .error .overflow

@[simp] theorem subU64_eq_ok : subU64 a b = .ok c ↔ a = c + b := by
  unfold subU64
  split <;> grind

abbrev subU512 : ℕ → ℕ → Exec ℕ := subU64

/-- A sum that panics when it leaves the range. -/
def addU64 (a b : ℕ) : Exec ℕ := if a + b ≤ u64Max then .ok (a + b) else .error .overflow

@[simp] theorem addU64_eq_ok :
    addU64 a b = .ok c ↔ a + b ≤ u64Max ∧ c = a + b := by
  unfold addU64
  split <;> grind

/-- A sum of computed amounts. It panics where an amount cannot be computed or the sum leaves the
range. -/
def sumU64 {α : Type} (f : α → Exec ℕ) (l : List α) : Exec ℕ :=
  l.foldlM (fun acc a => do addU64 acc (← f a)) 0

theorem sumU64_eq_ok {α : Type} {f : α → Exec ℕ} {g : α → ℕ} {P : α → Prop}
    (hf : ∀ a n, f a = .ok n ↔ P a ∧ n = g a) {l : List α} {n : ℕ} :
    sumU64 f l = .ok n ↔ (∀ a ∈ l, P a) ∧ (l.map g).sum ≤ u64Max ∧ n = (l.map g).sum := by
  suffices h : ∀ acc ≤ u64Max, l.foldlM (fun acc a => do addU64 acc (← f a)) acc = .ok n ↔
      (∀ a ∈ l, P a) ∧ acc + (l.map g).sum ≤ u64Max ∧ n = acc + (l.map g).sum by
    simpa [sumU64] using h 0 (Nat.zero_le _)
  induction l with
  | nil =>
    intro acc hacc
    rw [List.foldlM_nil, Exec.pure_eq_ok]
    simp [hacc, eq_comm]
  | cons a l ih =>
    intro acc _
    rw [List.foldlM_cons, Exec.bind_eq_ok]
    simp only [Exec.bind_eq_ok, hf, addU64_eq_ok, List.map_cons, List.sum_cons,
      List.forall_mem_cons]
    constructor
    · rintro ⟨_, ⟨_, ⟨ha, rfl⟩, hle, rfl⟩, hl⟩
      rw [ih _ hle] at hl
      exact ⟨⟨ha, hl.1⟩, by omega, by omega⟩
    · rintro ⟨⟨ha, hl⟩, hle, rfl⟩
      refine ⟨acc + g a, ⟨g a, ⟨ha, rfl⟩, by omega, rfl⟩, ?_⟩
      rw [ih _ (by omega)]
      exact ⟨hl, by omega, by omega⟩

def u128Max : ℕ := 2 ^ 128 - 1

def u512Max : ℕ := 2 ^ 512 - 1

end Splash.Lib
