import Splash.Lib.Exec

/-!
# Vocabulary of the liquidity book

Sides and prices of a pair, time bounds, and the transitions that takers and makers go through.
A pair is quoted as units of the quote asset for one unit of the base asset. An ask sells base
for quote, a bid sells quote for base.
-/

namespace Splash.LiquidityBook

open Lib

/-! ## Sides -/

inductive Side where
  | bid
  | ask
  deriving DecidableEq, Repr

inductive OnSide (α : Type) where
  | bid (a : α)
  | ask (a : α)
  deriving DecidableEq, Repr

namespace Side

def not : Side → Side
  | .bid => .ask
  | .ask => .bid

def wrap {α : Type} : Side → α → OnSide α
  | .bid, a => .bid a
  | .ask, a => .ask a

end Side

namespace OnSide

variable {α β : Type}

def unwrap : OnSide α → α
  | .bid a => a
  | .ask a => a

def map (f : α → β) : OnSide α → OnSide β
  | .bid a => .bid (f a)
  | .ask a => .ask (f a)

@[simp] theorem unwrap_bid (a : α) : (OnSide.bid a).unwrap = a := rfl

@[simp] theorem unwrap_ask (a : α) : (OnSide.ask a).unwrap = a := rfl

@[simp] theorem unwrap_wrap (s : Side) (a : α) : (s.wrap a).unwrap = a := by cases s <;> rfl

end OnSide

/-! ## Prices -/

/-- Price of the base asset in units of the quote asset (Quote/Base). -/
abbrev AbsolutePrice := ℚ≥0

/-- The price `numer / denom`, absent for a zero denominator. -/
def AbsolutePrice.new (numer denom : ℕ) : Option AbsolutePrice :=
  if denom ≠ 0 then some ((numer : ℚ≥0) / denom) else none

namespace OnSide

/-- The price of a trade that takes `input` and gives `output`. -/
def priceFor (input : OnSide ℕ) (output : ℕ) : Option AbsolutePrice :=
  match input with
  | .bid input => AbsolutePrice.new input output
  | .ask input => AbsolutePrice.new output input

/-- Compares prices on opposite sides. -/
def overlaps : OnSide AbsolutePrice → AbsolutePrice → Bool
  -- a bid has to be at least as high as what it meets
  | .bid this, that => that ≤ this
  -- an ask has to be at most as high as what it meets
  | .ask this, that => this ≤ that

/-- Compares prices on the same side. -/
def betterThan : OnSide AbsolutePrice → AbsolutePrice → Bool
  | .bid this, that => that ≤ this
  | .ask this, that => this ≤ that

end OnSide

/-! ## Time bounds -/

/-- When a taker may be executed. -/
inductive TimeBounds where
  | until (t : ℕ)
  | after (t : ℕ)
  | within (t₀ t₁ : ℕ)
  | none
  deriving DecidableEq, Repr

/-- The earliest time a taker may be executed, when it has one. -/
def TimeBounds.lowerBound : TimeBounds → Option ℕ
  | .after t => some t
  | .within t₀ _ => some t₀
  | .until _ => Option.none
  | .none => Option.none

def TimeBounds.futureBound (bounds : TimeBounds) (time : ℕ) : Option ℕ :=
  bounds.lowerBound.filter (time < ·)

/-! ## Transitions -/

/-- The state after a transition: a successor or a terminal state. -/
inductive Next (S T : Type) where
  | succ (s : S)
  | term (t : T)
  deriving DecidableEq, Repr

def Next.mapSucc {S S' T : Type} (f : S → S') : Next S T → Next S' T
  | .succ s => .succ (f s)
  | .term t => .term t

structure Trans (Init Res : Type) where
  target : Init
  result : Res
  deriving DecidableEq, Repr

def Trans.combine {Init Res : Type} (first other : Trans Init Res) : Trans Init Res where
  target := first.target
  result := other.result

structure TerminalTake where
  /-- Remainder of the input asset. -/
  remainingInput : ℕ
  /-- Output asset accumulated. -/
  accumulatedOutput : ℕ
  /-- Remaining execution budget. -/
  remainingBudget : ℕ
  /-- Remaining operator fee. -/
  remainingFee : ℕ
  deriving DecidableEq, Repr

namespace TerminalTake

/-- Moves the budget by `delta`, not below zero, and tells by how much it moved. -/
def withBudgetCorrected (t : TerminalTake) (delta : ℤ) : ℤ × TerminalTake :=
  let budgetRemainder : ℤ := t.remainingBudget
  let updated := max (budgetRemainder + delta) 0
  (updated - budgetRemainder, { t with remainingBudget := updated.toNat })

def withOutputAdded (t : TerminalTake) (addedOutput : ℕ) : Exec TerminalTake := do
  let output ← addU64 t.accumulatedOutput addedOutput
  return { t with accumulatedOutput := output }

def withFeeCharged (t : TerminalTake) (fee : ℕ) : Exec TerminalTake := do
  let rest ← subU64 t.remainingFee fee
  return { t with remainingFee := rest }

end TerminalTake

/-- A take: a taker and what it became. -/
abbrev TakeInProgress (T : Type) := Trans T (Next T TerminalTake)

/-- A make: a maker and what it became. Makers never terminate. -/
abbrev MakeInProgress (M : Type) := Trans M M

end Splash.LiquidityBook
