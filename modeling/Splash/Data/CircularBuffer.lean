import Mathlib

/-!
# The stored circular buffer

A bounded buffer in a key-value table. Its two indices are machine integers of `w` bits that wrap
around, and it is empty when they are equal.

* `Holds` — the list a buffer holds, the oldest element first.
* `Holds.pushBack` — a push appends; a full buffer drops its oldest element, and a buffer whose
  indices meet again loses everything.
* `Holds.readBack`, `Holds.popBack` — the end of the list is read and removed.
* `refines_deque` — from the start on, the buffer is a deque of bounded length.
-/

namespace Splash.Data

open Function List

structure CircularBuffer (w : ℕ) (T : Type) where
  startIx : BitVec w
  endIx : BitVec w
  slots : BitVec w → Option T

namespace CircularBuffer

variable {w : ℕ} {T : Type}

def init : CircularBuffer w T := ⟨0, 0, fun _ => none⟩

variable (b : CircularBuffer w T)

def isFull (capacity : BitVec w) : Bool :=
  b.startIx ≠ b.endIx ∧ b.endIx - b.startIx = capacity

def pushBack (capacity : BitVec w) (a : T) : CircularBuffer w T :=
  let slots := update b.slots b.endIx (some a)
  if b.isFull capacity then
    ⟨b.startIx + 1, b.endIx + 1, update slots b.startIx none⟩
  else ⟨b.startIx, b.endIx + 1, slots⟩

def readBack : Option T :=
  if b.startIx ≠ b.endIx then b.slots (b.endIx - 1) else none

def popBack : Option T × CircularBuffer w T :=
  if b.startIx ≠ b.endIx then
    (b.slots (b.endIx - 1),
      ⟨b.startIx, b.endIx - 1, update b.slots (b.endIx - 1) none⟩)
  else (none, b)

def size : ℕ := (b.endIx - b.startIx).toNat

/-- Everything, the oldest first; a missing element is a panic. -/
def readAll : Option (List T) :=
  if b.startIx ≠ b.endIx then
    (List.range b.size).mapM fun i => b.slots (b.startIx + BitVec.ofNat w i)
  else some []

/-! ## The list held -/

structure Holds (b : CircularBuffer w T) (l : List T) : Prop where
  lt : l.length < 2 ^ w
  endIx : b.endIx = b.startIx + BitVec.ofNat w l.length
  slots : ∀ i a, l[i]? = some a → b.slots (b.startIx + BitVec.ofNat w i) = some a

theorem ofNat_inj {m n : ℕ} (hm : m < 2 ^ w) (hn : n < 2 ^ w)
    (h : BitVec.ofNat w m = BitVec.ofNat w n) : m = n := by
  have hnat := congrArg BitVec.toNat h
  rwa [BitVec.toNat_ofNat, BitVec.toNat_ofNat, Nat.mod_eq_of_lt hm, Nat.mod_eq_of_lt hn] at hnat

theorem ofNat_succ (n : ℕ) : BitVec.ofNat w (n + 1) = BitVec.ofNat w n + 1 := by
  rw [BitVec.ofNat_add]
  rfl

theorem slot_ne (start : BitVec w) {i j : ℕ} (hi : i < 2 ^ w) (hj : j < 2 ^ w) (hne : i ≠ j) :
    start + BitVec.ofNat w i ≠ start + BitVec.ofNat w j :=
  fun heq => hne (ofNat_inj hi hj (add_left_cancel heq))

theorem holds_init : (init : CircularBuffer w T).Holds [] where
  lt := Nat.two_pow_pos w
  endIx := (BitVec.add_zero _).symm
  slots _ _ h := by simp at h

namespace Holds

variable {b : CircularBuffer w T} {l : List T} {a : T}

section

variable (h : b.Holds l)
include h

theorem size_eq : b.size = l.length := by
  unfold size
  rw [h.endIx, add_sub_cancel_left, BitVec.toNat_ofNat, Nat.mod_eq_of_lt h.lt]

theorem startIx_eq_iff : b.startIx = b.endIx ↔ l = [] := by
  constructor
  · intro heq
    rw [h.endIx, left_eq_add] at heq
    exact length_eq_zero_iff.1 (ofNat_inj h.lt (Nat.two_pow_pos w) heq)
  · rintro rfl
    exact (h.endIx.trans (BitVec.add_zero _)).symm

theorem isFull_iff (capacity : BitVec w) :
    b.isFull capacity = true ↔ l ≠ [] ∧ l.length = capacity.toNat := by
  have hlen : b.endIx - b.startIx = capacity ↔ l.length = capacity.toNat := by
    rw [← BitVec.toNat_inj, ← h.size_eq]
    rfl
  unfold isFull
  rw [decide_eq_true_iff, hlen, Ne, h.startIx_eq_iff]

def pushed (w capacity : ℕ) (l : List T) (a : T) : List T :=
  if l ≠ [] ∧ l.length = capacity then l.tail ++ [a]
  else if l.length + 1 < 2 ^ w then l ++ [a] else []

variable {capacity : BitVec w}

theorem append (hlt : l.length + 1 < 2 ^ w) :
    (⟨b.startIx, b.endIx + 1, update b.slots b.endIx (some a)⟩ :
      CircularBuffer w T).Holds (l ++ [a]) := by
  refine ⟨by simpa using hlt, ?_, fun i c hi => ?_⟩
  · rw [h.endIx, length_append, length_singleton, ofNat_succ, add_assoc]
  · have hile : i ≤ l.length := by
      have := (List.getElem?_eq_some_iff.1 hi).1
      rw [length_append, length_singleton] at this
      omega
    show update b.slots b.endIx (some a) (b.startIx + BitVec.ofNat w i) = some c
    rw [h.endIx]
    rcases hile.lt_or_eq with hlow | rfl
    · rw [update_of_ne (slot_ne b.startIx (by omega) h.lt (by omega))]
      rw [List.getElem?_append_left hlow] at hi
      exact h.slots i c hi
    · rw [update_self]
      rw [List.getElem?_append_right le_rfl, Nat.sub_self] at hi
      exact hi

omit h in
theorem dropFirst {x : T} (h : b.Holds (x :: l)) :
    (⟨b.startIx + 1, b.endIx, update b.slots b.startIx none⟩ :
      CircularBuffer w T).Holds l := by
  have hlt := h.lt
  rw [length_cons] at hlt
  have hshift : ∀ i, b.startIx + 1 + BitVec.ofNat w i = b.startIx + BitVec.ofNat w (i + 1) := by
    intro i
    rw [ofNat_succ, add_assoc, add_comm 1]
  refine ⟨by omega, h.endIx.trans (hshift l.length).symm, fun i c hi => ?_⟩
  have hil := (List.getElem?_eq_some_iff.1 hi).1
  have hstart : b.startIx + BitVec.ofNat w (i + 1) ≠ b.startIx := by
    have := slot_ne b.startIx (i := i + 1) (j := 0) (by omega) (by omega) (by omega)
    rwa [show BitVec.ofNat w 0 = 0 from rfl, add_zero] at this
  show update b.slots b.startIx none (b.startIx + 1 + BitVec.ofNat w i) = some c
  rw [hshift, update_of_ne hstart]
  exact h.slots (i + 1) c hi

theorem pushBack_full (hfull : b.isFull capacity = true) :
    (b.pushBack capacity a).Holds (l.tail ++ [a]) := by
  obtain ⟨hne, -⟩ := (h.isFull_iff capacity).1 hfull
  obtain ⟨x, l, rfl⟩ := exists_cons_of_ne_nil hne
  unfold pushBack
  simp only [hfull, if_true, tail_cons]
  have hends : b.startIx ≠ b.endIx := mt h.startIx_eq_iff.1 hne
  rw [update_comm hends.symm]
  exact h.dropFirst.append h.lt

theorem pushBack_append (hfull : b.isFull capacity = false) (hlt : l.length + 1 < 2 ^ w) :
    (b.pushBack capacity a).Holds (l ++ [a]) := by
  unfold pushBack
  simp only [hfull, Bool.false_eq_true, if_false]
  exact h.append hlt

theorem pushBack_wrap (hfull : b.isFull capacity = false) (hlt : ¬ l.length + 1 < 2 ^ w) :
    (b.pushBack capacity a).Holds [] := by
  have hlen : l.length + 1 = 2 ^ w := by
    have := h.lt
    omega
  unfold pushBack
  simp only [hfull, Bool.false_eq_true, if_false]
  refine ⟨Nat.two_pow_pos w, ?_, fun i c hi => by simp at hi⟩
  have hzero : BitVec.ofNat w (2 ^ w) = BitVec.ofNat w 0 := by
    apply BitVec.eq_of_toNat_eq
    rw [BitVec.toNat_ofNat, BitVec.toNat_ofNat, Nat.mod_self, Nat.zero_mod]
  show b.endIx + 1 = b.startIx + BitVec.ofNat w 0
  rw [h.endIx, add_assoc, ← ofNat_succ, hlen, hzero]

/-- **A push.** -/
theorem pushBack (capacity : BitVec w) (a : T) :
    (b.pushBack capacity a).Holds (pushed w capacity.toNat l a) := by
  unfold pushed
  split_ifs with hfull hlt
  · exact h.pushBack_full ((h.isFull_iff capacity).2 hfull)
  · exact h.pushBack_append (Bool.eq_false_iff.2 (mt (h.isFull_iff capacity).1 hfull)) hlt
  · exact h.pushBack_wrap (Bool.eq_false_iff.2 (mt (h.isFull_iff capacity).1 hfull)) hlt

end

theorem pushed_suffix {capacity : ℕ} {full : List T} (h : l <:+ full) :
    pushed w capacity l a <:+ full ++ [a] := by
  unfold pushed
  split_ifs
  · exact (suffix_append_inj_of_length_eq rfl).2 ⟨(tail_suffix l).trans h, rfl⟩
  · exact (suffix_append_inj_of_length_eq rfl).2 ⟨h, rfl⟩
  · exact nil_suffix

theorem endIx_sub_one (h : b.Holds (l ++ [a])) :
    b.endIx - 1 = b.startIx + BitVec.ofNat w l.length := by
  rw [h.endIx, length_append, length_singleton, ofNat_succ, ← add_assoc,
    add_sub_cancel_right]

theorem slots_last (h : b.Holds (l ++ [a])) : b.slots (b.endIx - 1) = some a := by
  rw [h.endIx_sub_one]
  exact h.slots l.length a (by simp)

theorem readBack (h : b.Holds l) : b.readBack = l.getLast? := by
  unfold CircularBuffer.readBack
  rcases eq_nil_or_concat' l with rfl | ⟨l, a, rfl⟩
  · rw [if_neg (not_not_intro (h.startIx_eq_iff.2 rfl))]
    rfl
  · rw [if_pos (mt h.startIx_eq_iff.1 (by simp)), h.slots_last]
    simp

theorem popBack_nil (h : b.Holds []) : b.popBack = (none, b) := by
  unfold CircularBuffer.popBack
  rw [if_neg (not_not_intro (h.startIx_eq_iff.2 rfl))]

theorem popBack (h : b.Holds (l ++ [a])) :
    b.popBack.1 = some a ∧ b.popBack.2.Holds l := by
  unfold CircularBuffer.popBack
  rw [if_pos (mt h.startIx_eq_iff.1 (by simp))]
  have hlt := h.lt
  rw [length_append, length_singleton] at hlt
  refine ⟨h.slots_last, by omega, h.endIx_sub_one, fun i c hi => ?_⟩
  have hi' := (List.getElem?_eq_some_iff.1 hi).1
  show update b.slots (b.endIx - 1) none (b.startIx + BitVec.ofNat w i) = some c
  rw [h.endIx_sub_one, update_of_ne (slot_ne b.startIx (by omega) (by omega) (by omega))]
  refine h.slots i c ?_
  rw [List.getElem?_append_left hi', hi]

theorem readAll (h : b.Holds l) : b.readAll = some l := by
  have hrange : (List.range b.size).map (fun i => b.slots (b.startIx + BitVec.ofNat w i)) =
      l.map some := by
    refine ext_getElem (by simp [h.size_eq]) fun i _ hi => ?_
    simp only [getElem_map, getElem_range]
    exact h.slots i _ (List.getElem?_eq_getElem _)
  unfold CircularBuffer.readAll
  split_ifs with hends
  · calc
      _ = ((List.range b.size).map fun i => b.slots (b.startIx + BitVec.ofNat w i)).mapM id := by
        rw [mapM_map]
        rfl
      _ = some l := by
        rw [hrange, mapM_map]
        exact (mapM_pure (f := id)).trans (congrArg some l.map_id)
  · rw [h.startIx_eq_iff.1 (not_not.1 hends)]

end Holds

/-! ## A bounded deque -/

inductive Op (T : Type) where
  | pushBack (a : T)
  | popBack

def step (capacity : BitVec w) (b : CircularBuffer w T) : Op T → CircularBuffer w T
  | .pushBack a => b.pushBack capacity a
  | .popBack => b.popBack.2

/-- The deque: a push on a full one drops the oldest element. -/
def Op.onDeque (capacity : ℕ) (l : List T) : Op T → List T
  | .pushBack a => (if l.length = capacity then l.tail else l) ++ [a]
  | .popBack => l.dropLast

variable {capacity : BitVec w}

theorem Holds.step {b : CircularBuffer w T} {l : List T} (h : b.Holds l)
    (hle : l.length ≤ capacity.toNat) (hpos : 0 < capacity.toNat) (op : Op T) :
    (b.step capacity op).Holds (op.onDeque capacity.toNat l) ∧
      (op.onDeque capacity.toNat l).length ≤ capacity.toNat := by
  cases op with
  | pushBack a =>
    have hpushed := h.pushBack capacity a
    have hlt := capacity.isLt
    unfold Op.onDeque
    split_ifs with hfull
    · have hne : l ≠ [] := ne_nil_of_length_pos (hfull ▸ hpos)
      rw [pushed, if_pos ⟨hne, hfull⟩] at hpushed
      exact ⟨hpushed, by simp; omega⟩
    · rw [pushed, if_neg (fun hc => hfull hc.2), if_pos (by omega)] at hpushed
      exact ⟨hpushed, by simp; omega⟩
  | popBack =>
    refine ⟨?_, by simp [Op.onDeque]; omega⟩
    rcases eq_nil_or_concat' l with rfl | ⟨l, a, rfl⟩
    · rw [CircularBuffer.step, h.popBack_nil]
      exact h
    · rw [Op.onDeque, dropLast_concat]
      exact h.popBack.2

/-- **The buffer is a bounded deque**, however often its indices have wrapped around. -/
theorem refines_deque (hpos : 0 < capacity.toNat) (ops : List (Op T)) :
    let b := ops.foldl (step capacity) init
    let l := ops.foldl (Op.onDeque capacity.toNat) []
    b.readAll = some l ∧ l.length ≤ capacity.toNat ∧ b.readBack = l.getLast? ∧
      b.popBack.1 = l.getLast? := by
  have hrun : (ops.foldl (step capacity) init).Holds (ops.foldl (Op.onDeque capacity.toNat) []) ∧
      (ops.foldl (Op.onDeque capacity.toNat) []).length ≤ capacity.toNat := by
    induction ops using List.reverseRecOn with
    | nil => exact ⟨holds_init, Nat.zero_le _⟩
    | append_singleton ops op ih =>
      simp only [foldl_append, foldl_cons, foldl_nil]
      exact ih.1.step ih.2 hpos op
  refine ⟨hrun.1.readAll, hrun.2, hrun.1.readBack, ?_⟩
  rw [← hrun.1.readBack, readBack, popBack]
  split_ifs <;> rfl

theorem wrapped_deque :
    (((List.range 6).map Op.pushBack).foldl (step 2#2) init).readAll = some [4, 5] :=
  (refines_deque (by decide) _).1

end CircularBuffer

end Splash.Data
