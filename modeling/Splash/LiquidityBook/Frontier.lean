import Splash.Lib.OrdMap
import Splash.LiquidityBook.Market

/-!
# Takers and makers of a book

`MarketTakers` keeps the takers of a book in two ordered sets, one for each side; that a set holds
takers of its own side only is part of the structure. `Chronology` spreads takers across the time
axis. `MarketMakers` keeps the makers by their stable identifiers; that every maker is stored under
its own identifier is part of the structure.

* `mem_insert`, `mem_remove` — what the updates of a taker set do to membership.
* `mem_insert_of_subset`, `mem_remove_of_mem` — the same for takers of one common set.
* `ext_mem` — taker sets with the same members are equal.
-/

namespace Splash.LiquidityBook

open Lib MarketTaker List OrdSet

variable {T M I J U : Type} [MarketTaker T U] [FrontierOrd T]

/-- Takers by side, best first. -/
structure MarketTakers (T : Type) {U : outParam Type} [MarketTaker T U] [FrontierOrd T] where
  asks : OrdSet (FrontierOrd.cmp (T := T) .ask)
  bids : OrdSet (FrontierOrd.cmp (T := T) .bid)
  asks_side : ∀ t ∈ asks, side t = .ask
  bids_side : ∀ t ∈ bids, side t = .bid

variable {t : T} {x : T}

namespace MarketTakers

instance [DecidableEq T] : DecidableEq (MarketTakers T) := fun a b =>
  decidable_of_iff (a.asks = b.asks ∧ a.bids = b.bids)
    ⟨fun h => by cases a; cases b; obtain ⟨rfl, rfl⟩ := h; rfl, fun h => h ▸ ⟨rfl, rfl⟩⟩

instance : Membership T (MarketTakers T) := ⟨fun mt t => t ∈ mt.asks ∨ t ∈ mt.bids⟩

variable {mt : MarketTakers T} {ts : List T}

theorem mem_def : t ∈ mt ↔ t ∈ mt.asks ∨ t ∈ mt.bids := Iff.rfl

def new : MarketTakers T where
  asks := .empty
  bids := .empty
  asks_side _ h := absurd h (not_mem_empty _)
  bids_side _ h := absurd h (not_mem_empty _)

theorem not_mem_new : t ∉ (new : MarketTakers T) := fun h =>
  h.elim (not_mem_empty t) (not_mem_empty t)

theorem mem_asks_iff : t ∈ mt.asks ↔ t ∈ mt ∧ side t = .ask := by
  refine ⟨fun h => ⟨.inl h, mt.asks_side t h⟩, fun ⟨h, hs⟩ => h.resolve_right fun hb => ?_⟩
  rw [mt.bids_side t hb] at hs
  cases hs

theorem mem_bids_iff : t ∈ mt.bids ↔ t ∈ mt ∧ side t = .bid := by
  refine ⟨fun h => ⟨.inr h, mt.bids_side t h⟩, fun ⟨h, hs⟩ => h.resolve_left fun ha => ?_⟩
  rw [mt.asks_side t ha] at hs
  cases hs

/-- Inserts a taker on its side; a taker that compares as equal stays. -/
def insert (mt : MarketTakers T) (t : T) : MarketTakers T :=
  match h : side t with
  | .ask =>
    { mt with
      asks := mt.asks.insert t
      asks_side := fun x hx => (OrdSet.mem_insert.1 hx).elim (mt.asks_side x) (·.1 ▸ h) }
  | .bid =>
    { mt with
      bids := mt.bids.insert t
      bids_side := fun x hx => (OrdSet.mem_insert.1 hx).elim (mt.bids_side x) (·.1 ▸ h) }

/-- Removes the taker that compares as equal from the side of `t`. -/
def remove (mt : MarketTakers T) (t : T) : MarketTakers T :=
  match side t with
  | .ask =>
    { mt with
      asks := mt.asks.erase t
      asks_side := fun x hx => mt.asks_side x (OrdSet.mem_erase.1 hx).1 }
  | .bid =>
    { mt with
      bids := mt.bids.erase t
      bids_side := fun x hx => mt.bids_side x (OrdSet.mem_erase.1 hx).1 }

/-- Two takers that a book cannot hold together. -/
def Collide (t x : T) : Prop := side x = side t ∧ FrontierOrd.cmp (side t) t x = .eq

theorem collide_self (t : T) : Collide t t := ⟨rfl, Std.ReflCmp.compare_self⟩

theorem mem_insert {t x : T} :
    x ∈ mt.insert t ↔ x ∈ mt ∨ x = t ∧ ∀ b ∈ mt, ¬ Collide t b := by
  unfold insert
  split
  case h_1 h =>
    have hfree : (∀ b ∈ mt.asks, FrontierOrd.cmp .ask t b ≠ .eq) ↔ ∀ b ∈ mt, ¬ Collide t b := by
      simp only [mem_asks_iff, Collide, h]
      grind
    simp only [mem_def (t := x), OrdSet.mem_insert, hfree]
    grind
  case h_2 h =>
    have hfree : (∀ b ∈ mt.bids, FrontierOrd.cmp .bid t b ≠ .eq) ↔ ∀ b ∈ mt, ¬ Collide t b := by
      simp only [mem_bids_iff, Collide, h]
      grind
    simp only [mem_def (t := x), OrdSet.mem_insert, hfree]
    grind

theorem mem_remove {t x : T} :
    x ∈ mt.remove t ↔ x ∈ mt ∧ ¬ Collide t x := by
  unfold remove
  split
  case h_1 h =>
    change x ∈ mt.asks.erase t ∨ x ∈ mt.bids ↔ _
    rw [mem_erase, mem_asks_iff, mem_bids_iff, Collide, h]
    cases hx : side x <;> simp
  case h_2 h =>
    change x ∈ mt.asks ∨ x ∈ mt.bids.erase t ↔ _
    rw [mem_erase, mem_asks_iff, mem_bids_iff, Collide, h]
    cases hx : side x <;> simp

theorem eq_of_collide {a b : T} (ha : a ∈ mt) (hb : b ∈ mt) (h : Collide a b) : a = b := by
  obtain ⟨hside, hcmp⟩ := h
  cases hs : side a with
  | ask =>
    have hb' := mem_asks_iff.2 ⟨hb, hside.trans hs⟩
    exact eq_of_mem (mem_asks_iff.2 ⟨ha, hs⟩) hb' (hs ▸ hcmp)
  | bid =>
    have hb' := mem_bids_iff.2 ⟨hb, hside.trans hs⟩
    exact eq_of_mem (mem_bids_iff.2 ⟨ha, hs⟩) hb' (hs ▸ hcmp)

theorem ext_mem {a b : MarketTakers T} (h : ∀ x, x ∈ a ↔ x ∈ b) : a = b := by
  have hasks : a.asks = b.asks := OrdSet.ext_mem fun x => by rw [mem_asks_iff, mem_asks_iff, h]
  have hbids : a.bids = b.bids := OrdSet.ext_mem fun x => by rw [mem_bids_iff, mem_bids_iff, h]
  cases a; cases b; cases hasks; cases hbids; rfl

variable {mt u : MarketTakers T}

theorem mem_insert_of_subset (hsub : ∀ x ∈ mt, x ∈ u) (ht : t ∈ u)
    : x ∈ mt.insert t ↔ x ∈ mt ∨ x = t := by
  rw [mem_insert]
  constructor
  · rintro (hx | ⟨rfl, -⟩)
    · exact .inl hx
    · exact .inr rfl
  · rintro (hx | rfl)
    · exact .inl hx
    · by_cases hmem : x ∈ mt
      · exact .inl hmem
      · exact .inr ⟨rfl, fun b hb hcol => hmem (eq_of_collide ht (hsub b hb) hcol ▸ hb)⟩

theorem insert_remove (ht : t ∈ mt) : (mt.remove t).insert t = mt := by
  refine ext_mem fun x => ?_
  have hsub : ∀ x ∈ mt.remove t, x ∈ mt := fun x hx => (mem_remove.1 hx).1
  rw [mem_insert_of_subset hsub ht, mem_remove]
  constructor
  · rintro (hx | rfl)
    · exact hx.1
    · exact ht
  · intro hx
    by_cases hcol : Collide t x
    · exact .inr (eq_of_collide ht hx hcol).symm
    · exact .inl ⟨hx, hcol⟩

theorem mem_remove_of_mem {t x : T} (ht : t ∈ mt) :
    x ∈ mt.remove t ↔ x ∈ mt ∧ x ≠ t := by
  rw [mem_remove]
  refine and_congr_right fun hx => not_congr ⟨fun h => (eq_of_collide ht hx h).symm, ?_⟩
  rintro rfl
  exact collide_self x

def insertAll (mt : MarketTakers T) (ts : List T) : MarketTakers T := ts.foldl insert mt

def removeAll (mt : MarketTakers T) (ts : List T) : MarketTakers T := ts.foldl remove mt

theorem mem_insertAll_of_subset (hsub : ∀ x ∈ mt, x ∈ u)
    (hts : ∀ t ∈ ts, t ∈ u) : x ∈ mt.insertAll ts ↔ x ∈ mt ∨ x ∈ ts := by
  induction ts generalizing mt with
  | nil => simp [insertAll]
  | cons t ts ih =>
    have ht : t ∈ u := hts t mem_cons_self
    have hsub' : ∀ x ∈ mt.insert t, x ∈ u := fun x hx =>
      ((mem_insert_of_subset hsub ht).1 hx).elim (hsub x) (· ▸ ht)
    have := ih hsub' (fun s hs => hts s (mem_cons_of_mem t hs))
    rw [insertAll, foldl_cons, ← insertAll, this, mem_insert_of_subset hsub ht, mem_cons,
      or_assoc]

theorem mem_removeAll_of_subset (hsub : ∀ x ∈ mt, x ∈ u)
    (hts : ∀ t ∈ ts, t ∈ u) : x ∈ mt.removeAll ts ↔ x ∈ mt ∧ x ∉ ts := by
  induction ts generalizing mt with
  | nil => simp [removeAll]
  | cons t ts ih =>
    have ht : t ∈ u := hts t mem_cons_self
    have hone : x ∈ mt.remove t ↔ x ∈ mt ∧ x ≠ t := by
      rw [mem_remove]
      refine and_congr_right fun hx => not_congr
        ⟨fun h => (eq_of_collide ht (hsub x hx) h).symm, ?_⟩
      rintro rfl
      exact collide_self x
    have := @ih (mt.remove t) (fun x hx => hsub x (mem_remove.1 hx).1)
      (fun s hs => hts s (mem_cons_of_mem t hs))
    rw [removeAll, foldl_cons, ← removeAll, this, hone, mem_cons, not_or, and_assoc]

theorem mem_insertAll_of_mem (hx : x ∈ mt) :
    x ∈ mt.insertAll ts := by
  induction ts generalizing mt with
  | nil => exact hx
  | cons t ts ih => exact ih (mem_insert.2 (.inl hx))

theorem mem_insertAll (hfree : ∀ y, y ∈ mt ∨ y ∈ ts → Collide x y → y = x) (hx : x ∈ mt ∨ x ∈ ts) :
    x ∈ mt.insertAll ts := by
  induction ts generalizing mt with
  | nil => exact hx.resolve_right not_mem_nil
  | cons t ts ih =>
    refine @ih (mt.insert t) (fun y hy hcol => ?_) ?_
    · rcases hy with hy | hy
      · rcases mem_insert.1 hy with hy | ⟨rfl, -⟩
        · exact hfree y (.inl hy) hcol
        · exact hfree y (.inr mem_cons_self) hcol
      · exact hfree y (.inr (mem_cons_of_mem t hy)) hcol
    · rcases hx with hx | hx
      · exact .inl (mem_insert.2 (.inl hx))
      · rcases mem_cons.1 hx with rfl | hx
        · refine .inl (mem_insert.2 ?_)
          by_cases hmem : x ∈ mt
          · exact .inl hmem
          · exact .inr ⟨rfl, fun y hy hcol => hmem (hfree y (.inl hy) hcol ▸ hy)⟩
        · exact .inr hx

def toList (mt : MarketTakers T) : List T := mt.asks.toList ++ mt.bids.toList

theorem mem_toList : t ∈ mt.toList ↔ t ∈ mt := mem_append

def first? (mt : MarketTakers T) : Side → Option T
  | .ask => mt.asks.first?
  | .bid => mt.bids.first?

theorem mem_of_first? {s : Side} (h : mt.first? s = some t) :
    t ∈ mt ∧ side t = s := by
  cases s with
  | ask => exact mem_asks_iff.1 (OrdSet.mem_of_first? h)
  | bid => exact mem_bids_iff.1 (OrdSet.mem_of_first? h)

end MarketTakers

/-- Takers spread across the time axis. -/
structure Chronology (T : Type) {U : outParam Type} [MarketTaker T U] [FrontierOrd T] where
  timeNow : ℕ
  active : MarketTakers T
  inactive : OrdMap ℕ (MarketTakers T)
  deriving DecidableEq

namespace Chronology

def addInactive (inactive : OrdMap ℕ (MarketTakers T)) (time : ℕ) (t : T) :
    OrdMap ℕ (MarketTakers T) :=
  inactive.insert time (((inactive.get? time).getD .new).insert t)

def addAllInactive (inactive : OrdMap ℕ (MarketTakers T)) (changes : List (ℕ × T)) :
    OrdMap ℕ (MarketTakers T) :=
  changes.foldl (fun inactive (time, t) => addInactive inactive time t) inactive

section

variable (c : Chronology T) (t : T)

def addFragment : Chronology T :=
  match (timeBounds t).futureBound c.timeNow with
  | some lowerBound => { c with inactive := addInactive c.inactive lowerBound t }
  | none => { c with active := c.active.insert t }

def removeFragment : Chronology T :=
  match (timeBounds t).futureBound c.timeNow with
  | some lowerBound =>
    match c.inactive.get? lowerBound with
    | some slot => { c with inactive := c.inactive.insert lowerBound (slot.remove t) }
    | none => c
  | none => { c with active := c.active.remove t }

def takers : List T :=
  c.active.toList ++ c.inactive.values.flatMap MarketTakers.toList

/-- The taker is filed under some time. -/
def HeldInactive (inactive : OrdMap ℕ (MarketTakers T)) (t : T) : Prop :=
  ∃ time slot, inactive.get? time = some slot ∧ t ∈ slot

/-- The book holds the taker, active or not. -/
def Holds : Prop := t ∈ c.active ∨ HeldInactive c.inactive t

end

theorem mem_inactive_iff {c : Chronology T} :
    t ∈ c.inactive.values.flatMap MarketTakers.toList ↔ HeldInactive c.inactive t := by
  simp only [mem_flatMap, MarketTakers.mem_toList, OrdMap.mem_values_iff, HeldInactive]
  grind

theorem mem_takers_iff {c : Chronology T} : t ∈ c.takers ↔ c.Holds t := by
  rw [takers, mem_append, MarketTakers.mem_toList, mem_inactive_iff, Holds]

instance [DecidableEq T] (c : Chronology T) (t : T) : Decidable (c.Holds t) :=
  decidable_of_iff _ mem_takers_iff

variable {inactive : OrdMap ℕ (MarketTakers T)}

/-- A filed taker was there before or is the new one; nothing that was there is lost. -/
theorem heldInactive_addInactive {time : ℕ} {t x : T} :
    HeldInactive (addInactive inactive time t) x ↔ HeldInactive inactive x ∨
      x = t ∧ ∀ y ∈ (inactive.get? time).getD .new, ¬ MarketTakers.Collide t y := by
  have hslot : x ∈ (inactive.get? time).getD .new ↔
      ∃ slot, inactive.get? time = some slot ∧ x ∈ slot := by
    cases inactive.get? time with
    | none => simp [MarketTakers.not_mem_new]
    | some slot => simp
  simp only [HeldInactive, addInactive, OrdMap.get?_insert]
  constructor
  · rintro ⟨time', slot, hget, hx⟩
    split at hget
    case isFalse => exact .inl ⟨time', slot, hget, hx⟩
    case isTrue =>
      cases hget
      rcases MarketTakers.mem_insert.1 hx with hx | hx
      · exact .inl ⟨time, hslot.1 hx⟩
      · exact .inr hx
  · rintro (⟨time', slot, hget, hx⟩ | hx)
    · by_cases htime : time' = time
      · subst htime
        refine ⟨time', _, if_pos rfl, MarketTakers.mem_insert.2 (.inl (hslot.2 ⟨slot, hget, hx⟩))⟩
      · exact ⟨time', slot, by rw [if_neg htime, hget], hx⟩
    · exact ⟨time, _, if_pos rfl, MarketTakers.mem_insert.2 (.inr hx)⟩

/-- What is filed is there in the end, unless another taker takes its place. -/
theorem heldInactive_addAllInactive {changes : List (ℕ × T)}
    (hfree : ∀ y, HeldInactive inactive y ∨ (∃ time, (time, y) ∈ changes) →
      MarketTakers.Collide x y → y = x)
    (hx : HeldInactive inactive x ∨ ∃ time, (time, x) ∈ changes) :
    HeldInactive (addAllInactive inactive changes) x := by
  induction changes generalizing inactive with
  | nil => exact hx.resolve_right fun ⟨_, h⟩ => not_mem_nil h
  | cons change changes ih =>
    obtain ⟨time, t⟩ := change
    refine @ih (addInactive inactive time t) (fun y hy hcol => ?_) ?_
    · rcases hy with hy | ⟨time', hy⟩
      · rcases heldInactive_addInactive.1 hy with hy | ⟨rfl, -⟩
        · exact hfree y (.inl hy) hcol
        · exact hfree y (.inr ⟨time, mem_cons_self⟩) hcol
      · exact hfree y (.inr ⟨time', mem_cons_of_mem _ hy⟩) hcol
    · rcases hx with hx | ⟨time', hx⟩
      · exact .inl (heldInactive_addInactive.2 (.inl hx))
      · rcases mem_cons.1 hx with heq | hx
        · cases heq
          refine .inl (heldInactive_addInactive.2 ?_)
          by_cases hheld : HeldInactive inactive x
          · exact .inl hheld
          · refine .inr ⟨rfl, fun y hy hcol => hheld ?_⟩
            cases hslot : inactive.get? time with
            | none => simp [hslot, MarketTakers.not_mem_new] at hy
            | some slot =>
              rw [hslot] at hy
              have hyheld : HeldInactive inactive y := ⟨time, slot, hslot, hy⟩
              exact hfree y (.inl hyheld) hcol ▸ hyheld
        · exact .inr ⟨time', hx⟩

end Chronology

structure MarketMakers (M J : Type) [LinearOrder J] [Stable M J] where
  values : OrdMap J M
  qualityIndex : OrdMap ℕ J
  keyed : ∀ {sid m}, values.get? sid = some m → stableId m = sid

namespace MarketMakers

variable [LinearOrder J] [Stable M J]

instance [DecidableEq M] : DecidableEq (MarketMakers M J) := fun a b =>
  decidable_of_iff (a.values = b.values ∧ a.qualityIndex = b.qualityIndex)
    ⟨fun h => by cases a; cases b; obtain ⟨rfl, rfl⟩ := h; rfl, fun h => h ▸ ⟨rfl, rfl⟩⟩

def new : MarketMakers M J := ⟨.empty, .empty, fun h => nomatch h⟩

variable {m : M} {sid : J} {values : OrdMap J M}

section

variable (h : ∀ {sid m}, values.get? sid = some m → stableId m = sid) (pool : M)
include h

theorem keyed_insert (hm : (values.insert (stableId pool) pool).get? sid = some m) :
    stableId m = sid := by
  rw [OrdMap.get?_insert] at hm
  split at hm
  case isTrue hsid => exact Option.some.inj hm ▸ hsid.symm
  case isFalse => exact h hm

theorem keyed_erase (key : J) (hm : (values.erase key).get? sid = some m) : stableId m = sid := by
  rw [OrdMap.get?_erase] at hm
  split at hm
  case isTrue => cases hm
  case isFalse => exact h hm

end

/-- Takes a maker out of the stored ones; the index by quality is left as it is. -/
def eraseValue (mm : MarketMakers M J) (sid : J) : MarketMakers M J where
  values := mm.values.erase sid
  qualityIndex := mm.qualityIndex
  keyed := keyed_erase mm.keyed sid

@[simp] theorem get?_eraseValue (mm : MarketMakers M J) (sid sid' : J) :
    (mm.eraseValue sid).values.get? sid' = if sid' = sid then none else mm.values.get? sid' :=
  OrdMap.get?_erase ..

variable [MarketMaker M U]

section

variable (mm : MarketMakers M J) (pool : M) (sid : J)

def updatePool : MarketMakers M J where
  values := mm.values.insert (stableId pool) pool
  qualityIndex :=
    let index := match mm.values.get? (stableId pool) with
      | some oldPool => mm.qualityIndex.erase (MarketMaker.quality oldPool)
      | none => mm.qualityIndex
    index.insert (MarketMaker.quality pool) (stableId pool)
  keyed := keyed_insert mm.keyed pool

@[simp] theorem get?_updatePool : (mm.updatePool pool).values.get? sid =
      if sid = stableId pool then some pool else mm.values.get? sid :=
  OrdMap.get?_insert ..

def removePool : MarketMakers M J where
  values := mm.values.erase (stableId pool)
  qualityIndex := mm.qualityIndex.erase (MarketMaker.quality pool)
  keyed := keyed_erase mm.keyed (stableId pool)

end

end MarketMakers

end Splash.LiquidityBook
