import Splash.LiquidityBook.Market

/-!
# Assets, pairs and execution units

Assets of the ledger in their canonical order: the native asset comes first, then the tokens by
policy and name. The smaller asset of a pair is its base, so the native asset is always a base.
-/

namespace Splash.Cardano

open LiquidityBook

/-- A token. Policies and names are byte strings of which only the order is of interest, so both
are numbers here. -/
structure Token where
  policy : ℕ
  name : ℕ
  deriving DecidableEq, Repr

namespace Token

def key (t : Token) : ℕ ×ₗ ℕ := toLex (t.policy, t.name)

theorem key_injective : Function.Injective key := by
  rintro ⟨p, n⟩ ⟨p', n'⟩ h
  cases h
  rfl

instance : LinearOrder Token := LinearOrder.lift' key key_injective

/-- The name of beacon tokens, `AssetName::zero()`: one byte, which is zero. Names are ordered by
their length, then by their bytes, which are padded to 32. -/
def zeroName : ℕ := 256 ^ 32

end Token

inductive AssetClass where
  | native
  | token (t : Token)
  deriving DecidableEq, Repr

namespace AssetClass

def toWithBot : AssetClass → WithBot Token
  | .native => ⊥
  | .token t => t

theorem toWithBot_injective : Function.Injective toWithBot := by
  rintro (_ | t) (_ | t') h <;> cases h <;> rfl

instance : LinearOrder AssetClass := LinearOrder.lift' toWithBot toWithBot_injective

def isNative : AssetClass → Bool
  | .native => true
  | .token _ => false

end AssetClass

/-! ## Pairs -/

/-- The base and the quote of the canonical pair of two assets. -/
def orderCanonical (x y : AssetClass) : AssetClass × AssetClass := (min x y, max x y)

structure PairId where
  base : AssetClass
  quote : AssetClass
  deriving DecidableEq, Repr

namespace PairId

def canonical (x y : AssetClass) : PairId := ⟨(orderCanonical x y).1, (orderCanonical x y).2⟩

def assets (pair : PairId) : AssetClass × AssetClass := (pair.base, pair.quote)

end PairId

/-- The side of a trade relative to the canonical pair. -/
def sideOf (input output : AssetClass) : Side :=
  if (orderCanonical input output).1 = input then .ask else .bid

/-! ## Execution units -/

structure ExUnits where
  mem : ℕ
  steps : ℕ
  deriving DecidableEq, Repr

namespace ExUnits

instance : Zero ExUnits := ⟨⟨0, 0⟩⟩

instance : Add ExUnits := ⟨fun a b => ⟨a.mem + b.mem, a.steps + b.steps⟩⟩

def key (u : ExUnits) : ℕ ×ₗ ℕ := toLex (u.mem, u.steps)

theorem key_injective : Function.Injective key := by
  rintro ⟨m, s⟩ ⟨m', s'⟩ h
  cases h
  rfl

instance : LinearOrder ExUnits := LinearOrder.lift' key key_injective

end ExUnits

end Splash.Cardano
