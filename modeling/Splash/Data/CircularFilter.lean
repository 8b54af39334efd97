import Mathlib

/-!
# The circular filter

`CircularFilter N T` remembers up to `N` elements in the order in which they came and forgets the
oldest one when a new element needs its place. An element that is already in the filter keeps its
place when it is added once more.

* `Recent` — the filter as a window over the latest elements.
* `mem_filter_of_recent` — an element is remembered until `N` others have been added after it.
* `remembers_recent` — the same over runs that also remove elements.
-/

namespace Splash.Data

open List

structure CircularFilter (N : ℕ) (T : Type) where
  buffer : List T
  filter : Finset T

namespace CircularFilter

variable {N : ℕ} {T : Type} [DecidableEq T]

def new : CircularFilter N T := ⟨[], ∅⟩

section

variable (f : CircularFilter N T) (a : T)

/-- Adds an element; returns the evicted element if the filter is full. -/
def add : CircularFilter N T × Option T :=
  if a ∈ f.filter then (f, none)
  else if f.buffer.length < N then (⟨f.buffer ++ [a], insert a f.filter⟩, none)
  else
    match f.buffer with
    | [] => (⟨[], insert a f.filter⟩, none)
    | evicted :: rest => (⟨rest ++ [a], (insert a f.filter).erase evicted⟩, some evicted)

/-- Removes an element from the filter; its place in the buffer stays taken. -/
def remove : CircularFilter N T :=
  { f with filter := f.filter.erase a }

def contains : Bool := a ∈ f.filter

end

variable {f : CircularFilter N T}

@[simp] theorem contains_iff {a : T} :
    f.contains a = true ↔ a ∈ f.filter := by
  simp [contains]

theorem mem_add {a b : T} (h : b ∈ (f.add a).1.filter) :
    b = a ∨ b ∈ f.filter := by
  unfold add at h
  split at h
  · exact .inr h
  · split at h
    · exact Finset.mem_insert.1 h
    · split at h
      · exact Finset.mem_insert.1 h
      · exact Finset.mem_insert.1 (Finset.mem_of_mem_erase h)

def addAll (l : List T) : CircularFilter N T := l.foldl (fun f a => (f.add a).1) new

@[simp] theorem addAll_nil : (addAll [] : CircularFilter N T) = new := rfl

@[simp] theorem addAll_snoc (l : List T) (a : T) :
    (addAll (l ++ [a]) : CircularFilter N T) = ((addAll l).add a).1 := by
  simp [addAll]

/-! ## The buffer -/

theorem add_cases (hle : f.buffer.length ≤ N) (hN : 0 < N) (a : T) :
    (a ∈ f.filter ∧ (f.add a).1 = f) ∨
    (a ∉ f.filter ∧ f.buffer.length < N ∧
      (f.add a).1 = ⟨f.buffer ++ [a], insert a f.filter⟩) ∨
    (∃ e rest, a ∉ f.filter ∧ f.buffer = e :: rest ∧ rest.length + 1 = N ∧
      (f.add a).1 = ⟨rest ++ [a], (insert a f.filter).erase e⟩) := by
  by_cases ha : a ∈ f.filter
  · exact .inl ⟨ha, by simp [add, ha]⟩
  by_cases hlen : f.buffer.length < N
  · exact .inr (.inl ⟨ha, hlen, by simp [add, ha, hlen]⟩)
  have hfull : f.buffer.length = N := le_antisymm hle (Nat.le_of_not_lt hlen)
  cases hb : f.buffer with
  | nil =>
    rw [hb, length_nil] at hfull
    omega
  | cons e rest =>
    have hrest : rest.length + 1 = N := by rw [← hfull, hb, length_cons]
    exact .inr (.inr ⟨e, rest, ha, rfl, hrest, by simp [add, ha, hb, hrest]⟩)

/-- The element has no place in the buffer that it was removed from. -/
def Fits (f : CircularFilter N T) (a : T) : Prop := a ∈ f.filter ∨ a ∉ f.buffer

theorem nodup_add (hle : f.buffer.length ≤ N) (hN : 0 < N) (hnodup : f.buffer.Nodup) {a : T}
    (ha : f.Fits a) : (f.add a).1.buffer.Nodup := by
  obtain ⟨-, heq⟩ | ⟨hnew, -, heq⟩ | ⟨e, rest, hnew, hbuf, -, heq⟩ := add_cases hle hN a
  · rw [heq]
    exact hnodup
  · rw [heq]
    simpa using hnodup.concat (ha.resolve_left hnew)
  · rw [hbuf] at hnodup
    have hrest := ha.resolve_left hnew
    rw [hbuf, mem_cons, not_or] at hrest
    rw [heq]
    simpa using (nodup_cons.1 hnodup).2.concat hrest.2

/-- The buffer is not too long and has a place for every element of the filter. -/
structure Neat (f : CircularFilter N T) : Prop where
  length_le : f.buffer.length ≤ N
  sub : ∀ a ∈ f.filter, a ∈ f.buffer

theorem Neat.add (h : f.Neat) (hN : 0 < N) (a : T) : (f.add a).1.Neat := by
  obtain ⟨-, heq⟩ | ⟨-, hlen, heq⟩ | ⟨e, rest, -, hbuf, hlen, heq⟩ := add_cases h.length_le hN a
  · rw [heq]
    exact h
  · rw [heq]
    refine ⟨by simp; omega, fun x hx => ?_⟩
    rcases Finset.mem_insert.1 hx with rfl | hx
    · simp
    · exact mem_append_left _ (h.sub x hx)
  · rw [heq]
    refine ⟨by simp; omega, fun x hx => ?_⟩
    obtain ⟨hne, hx⟩ := Finset.mem_erase.1 hx
    rcases Finset.mem_insert.1 hx with rfl | hx
    · simp
    · have hmem := h.sub x hx
      rw [hbuf] at hmem
      exact mem_append_left _ ((mem_cons.1 hmem).resolve_left hne)

/-! ## What a filter without removals remembers -/

/-- The buffer holds just the elements of the filter, each of them once. -/
structure Tidy (f : CircularFilter N T) : Prop where
  nodup : f.buffer.Nodup
  length_le : f.buffer.length ≤ N
  filter_eq : f.filter = f.buffer.toFinset

theorem tidy_new : (new : CircularFilter N T).Tidy :=
  ⟨nodup_nil, Nat.zero_le N, rfl⟩

section

variable (hf : f.Tidy) (hN : 0 < N) (a : T)
include hf hN

omit hN in
theorem Tidy.mem_iff {a : T} : a ∈ f.filter ↔ a ∈ f.buffer := by
  rw [hf.filter_eq, mem_toFinset]

/-- What adding an element does to the buffer of a filter that remembers something. -/
theorem Tidy.add_cases : (a ∈ f.buffer ∧ (f.add a).1 = f) ∨
    (a ∉ f.buffer ∧ f.buffer.length < N ∧
      (f.add a).1 = ⟨f.buffer ++ [a], insert a f.filter⟩) ∨
    (∃ e rest, a ∉ f.buffer ∧ f.buffer = e :: rest ∧ rest.length + 1 = N ∧
      (f.add a).1 = ⟨rest ++ [a], (insert a f.filter).erase e⟩) := by
  simp only [← hf.mem_iff]
  exact CircularFilter.add_cases hf.length_le hN a

omit hN in
theorem Tidy.fits : f.Fits a := by
  unfold Fits
  rw [hf.mem_iff]
  exact em _

theorem Tidy.add : (f.add a).1.Tidy := by
  have hneat : f.Neat := ⟨hf.length_le, fun _ => hf.mem_iff.1⟩
  refine ⟨nodup_add hf.length_le hN hf.nodup (hf.fits a), (hneat.add hN a).length_le, ?_⟩
  obtain ⟨-, heq⟩ | ⟨-, -, heq⟩ | ⟨e, rest, ha, hbuf, -, heq⟩ := hf.add_cases hN a
  · rw [heq]
    exact hf.filter_eq
  · rw [heq, hf.filter_eq]
    ext x
    simp
  · have hnodup := hf.nodup
    rw [hbuf] at hnodup ha
    obtain ⟨he, -⟩ := nodup_cons.1 hnodup
    obtain ⟨hae, -⟩ : a ≠ e ∧ a ∉ rest := by simpa using ha
    rw [heq, hf.filter_eq, hbuf]
    ext x
    by_cases hxe : x = e
    · simp [hxe, he, hae.symm]
    · simp [hxe]

end

theorem tidy_addAll (hN : 0 < N) (l : List T) : (addAll l : CircularFilter N T).Tidy := by
  induction l using List.reverseRecOn with
  | nil => exact tidy_new
  | append_singleton l a ih =>
    rw [addAll_snoc]
    exact ih.add hN a

/-! ## Runs -/

inductive Op (T : Type) where
  | add (a : T)
  | remove (a : T)

def step (f : CircularFilter N T) : Op T → CircularFilter N T
  | .add a => (f.add a).1
  | .remove a => f.remove a

def run (N : ℕ) (ops : List (Op T)) : CircularFilter N T := ops.foldl step new

def Op.added? : Op T → Option T
  | .add a => some a
  | .remove _ => none

def added (ops : List (Op T)) : List T := ops.filterMap Op.added?

/-- No element is added while it has a place in the buffer that it was removed from. -/
def Fresh (N : ℕ) (ops : List (Op T)) : Prop :=
  ∀ l a m, ops = l ++ .add a :: m → (run N l).Fits a

variable {a b : T} {l : List T} {ops m : List (Op T)} {op : Op T}

theorem run_snoc : run N (ops ++ [op]) = (run N ops).step op := by
  simp [run]

theorem Fresh.init (h : Fresh N (ops ++ m)) : Fresh N ops := by
  rintro l a k rfl
  exact h l a (k ++ m) (by simp)

theorem neat_run (hN : 0 < N) (ops : List (Op T)) : (run N ops).Neat := by
  induction ops using reverseRecOn with
  | nil => exact ⟨Nat.zero_le N, fun _ h => absurd h (Finset.notMem_empty _)⟩
  | append_singleton ops op ih =>
    rw [run_snoc]
    cases op with
    | add a => exact ih.add hN a
    | remove a => exact ⟨ih.length_le, fun x hx => ih.sub x (Finset.mem_of_mem_erase hx)⟩

theorem nodup_run (hN : 0 < N) (h : Fresh N ops) : (run N ops).buffer.Nodup := by
  induction ops using reverseRecOn with
  | nil => exact nodup_nil
  | append_singleton ops op ih =>
    rw [run_snoc]
    cases op with
    | add a => exact nodup_add (neat_run hN ops).length_le hN (ih h.init) (h ops a [] rfl)
    | remove a => exact ih h.init

/-- `a` is in the filter, and nothing but elements of `l` comes behind it in the buffer. -/
structure Kept (f : CircularFilter N T) (a : T) (l : List T) : Prop where
  mem : a ∈ f.filter
  split : ∃ p q, f.buffer = p ++ a :: q ∧ ∀ x ∈ q, x ∈ l

theorem Kept.add (h : f.Kept a l) (hneat : f.Neat) (hnodup : f.buffer.Nodup) (hN : 0 < N)
    (hb : f.Fits b) (hroom : ((l ++ [b]).toFinset.erase a).card < N) :
    (f.add b).1.Kept a (l ++ [b]) := by
  obtain ⟨p, q, hpq, hq⟩ := h.split
  have hq' : ∀ x ∈ q, x ∈ l ++ [b] := fun x hx => mem_append_left _ (hq x hx)
  have hqb : ∀ x ∈ q ++ [b], x ∈ l ++ [b] := by
    intro x hx
    rcases mem_append.1 hx with hx | hx
    · exact hq' x hx
    · exact mem_append_right _ hx
  obtain ⟨-, heq⟩ | ⟨-, -, heq⟩ | ⟨e, rest, hnew, hbuf, hlen, heq⟩ :=
    add_cases hneat.length_le hN b
  · rw [heq]
    exact ⟨h.mem, p, q, hpq, hq'⟩
  · rw [heq]
    exact ⟨Finset.mem_insert_of_mem h.mem, p, q ++ [b], by simp [hpq], hqb⟩
  · have hnot := hb.resolve_left hnew
    rw [hpq] at hbuf hnodup hnot
    rw [heq]
    cases p with
    | cons x p =>
      obtain ⟨rfl, rfl⟩ := cons.inj hbuf
      have hne : a ≠ x := fun hax => (nodup_cons.1 hnodup).1 (by simp [hax])
      exact ⟨by simp [hne, h.mem], p, q ++ [b], by simp, hqb⟩
    | nil =>
      -- `a` is the oldest element: the ones behind it and `b` are already `N` others
      obtain ⟨rfl, rfl⟩ := cons.inj hbuf
      obtain ⟨haq, hnd⟩ := nodup_cons.1 hnodup
      obtain ⟨hba, hbq⟩ : b ≠ a ∧ b ∉ q := by simpa using hnot
      have hsub : insert b q.toFinset ⊆ (l ++ [b]).toFinset.erase a := by
        intro x hx
        rcases Finset.mem_insert.1 hx with rfl | hx
        · simp [hba]
        · have hxq : x ∈ q := mem_toFinset.1 hx
          have hxa : x ≠ a := fun h => haq (h ▸ hxq)
          simp [hxa, hq x hxq]
      have hcard := Finset.card_le_card hsub
      rw [Finset.card_insert_of_notMem (by simpa using hbq), toFinset_card_of_nodup hnd] at hcard
      omega

theorem kept_run (hN : 0 < N) {k : List (Op T)} (hfresh : Fresh N (k ++ .add a :: m))
    (hnew : a ∉ (run N k).filter) (hremove : .remove a ∉ m)
    (hroom : ((added m).toFinset.erase a).card < N) :
    (run N (k ++ .add a :: m)).Kept a (added m) := by
  induction m using reverseRecOn with
  | nil =>
    rw [run_snoc]
    have hfree := (hfresh k a [] rfl).resolve_left hnew
    obtain ⟨hin, -⟩ | ⟨-, -, heq⟩ | ⟨e, rest, -, hbuf, -, heq⟩ :=
      add_cases (neat_run hN k).length_le hN a
    · exact absurd hin hnew
    · rw [step, heq]
      exact ⟨Finset.mem_insert_self .., _, [], rfl, by simp⟩
    · rw [hbuf, mem_cons, not_or] at hfree
      rw [step, heq]
      exact ⟨by simp [hfree.1], rest, [], rfl, by simp⟩
  | append_singleton m op ih =>
    have hsplit : k ++ .add a :: (m ++ [op]) = (k ++ .add a :: m) ++ [op] := by simp
    have hadded : added (m ++ [op]) = added m ++ op.added?.toList := by
      simp [added, filterMap_append, filterMap_cons]
      cases op <;> rfl
    rw [hsplit] at hfresh ⊢
    have hsub : (added m).toFinset.erase a ⊆ (added (m ++ [op])).toFinset.erase a := by
      rw [hadded, toFinset_append]
      exact Finset.erase_subset_erase a Finset.subset_union_left
    have hkept := ih hfresh.init (fun hm => hremove (mem_append_left _ hm))
      ((Finset.card_le_card hsub).trans_lt hroom)
    rw [run_snoc]
    cases op with
    | add b =>
      rw [hadded] at hroom ⊢
      exact hkept.add (neat_run hN _) (nodup_run hN hfresh.init) hN (hfresh _ b [] rfl) hroom
    | remove b =>
      rw [hadded, Op.added?, Option.toList_none, append_nil]
      have hne : a ≠ b := fun hab => hremove (by simp [hab])
      exact ⟨Finset.mem_erase.2 ⟨hne, hkept.mem⟩, hkept.split⟩

theorem added_since {k : List (Op T)} (hnot : a ∉ (run N k).filter)
    (h : a ∈ (run N (k ++ m)).filter) : a ∈ added m := by
  induction m using reverseRecOn with
  | nil =>
    rw [append_nil] at h
    exact absurd h hnot
  | append_singleton m op ih =>
    rw [← append_assoc, run_snoc] at h
    rw [added, filterMap_append, mem_append]
    cases op with
    | add b =>
      rcases mem_add h with rfl | h
      · exact .inr (by simp [Op.added?])
      · exact .inl (ih h)
    | remove b => exact .inl (ih (Finset.mem_of_mem_erase h))

theorem fresh_sample : Fresh 2 [.add 1, .remove 1, .add 2] := by
  rintro l a m h
  rcases l with _ | ⟨_, _ | ⟨_, _ | ⟨_, l⟩⟩⟩ <;> simp at h
  · obtain ⟨rfl, -⟩ := h
    exact .inr (by decide)
  · obtain ⟨rfl, rfl, rfl, -⟩ := h
    exact .inr (by decide)

/-- **An element is remembered until `N` others have been added after it.** -/
theorem mem_filter_of_recent (hN : 0 < N) {l m : List T} {a : T} (hfirst : a ∉ l)
    (hroom : (m.toFinset.erase a).card < N) :
    a ∈ (addAll (l ++ a :: m) : CircularFilter N T).filter := by
  have hrun : ∀ l : List T, addAll l = run N (l.map .add) := fun l => by
    rw [addAll, run, foldl_map]
    rfl
  have hadded : ∀ l : List T, added (l.map .add) = l := fun l => by
    rw [added, filterMap_map]
    exact filterMap_some
  have hfresh : Fresh N ((l ++ a :: m).map .add) := by
    intro k b k' heq
    obtain ⟨l₁, l₂, -, rfl, -⟩ := map_eq_append_iff.1 heq
    rw [← hrun]
    exact (tidy_addAll hN l₁).fits b
  have hnew : a ∉ (run N (l.map .add)).filter := fun ha =>
    hfirst (hadded l ▸ added_since (k := []) (Finset.notMem_empty a) ha)
  rw [map_append, map_cons] at hfresh
  rw [← hadded m] at hroom
  rw [hrun, map_append, map_cons]
  exact (kept_run hN hfresh hnew (by simp) hroom).mem

/-! ## The latest elements -/

def back (f : CircularFilter N T) : Option T := f.buffer.getLast?

def popBack (f : CircularFilter N T) : Option T × CircularFilter N T :=
  f.buffer.getLast?.elim (none, f) fun a => (some a, ⟨f.buffer.dropLast, f.filter.erase a⟩)

/-- The filter remembers the first `k` elements of a list that starts with the latest one. -/
structure Recent (f : CircularFilter N T) (l : List T) (k : ℕ) : Prop where
  tidy : f.Tidy
  buffer : f.buffer = (l.take k).reverse
  le : k ≤ l.length

namespace Recent

variable {f : CircularFilter N T} {l : List T} {k : ℕ} {a : T}

theorem length_buffer (h : f.Recent l k) : f.buffer.length = k := by
  rw [h.buffer, length_reverse, length_take]
  exact min_eq_left h.le

theorem add (h : f.Recent l k) (hN : 0 < N) (ha : a ∉ l) :
    (f.add a).1.Recent (a :: l) (min N (k + 1)) := by
  have hmem : a ∉ f.buffer := by
    rw [h.buffer]
    exact fun hin => ha (mem_of_mem_take (mem_reverse.1 hin))
  have hlength := h.length_buffer
  refine ⟨h.tidy.add hN a, ?_, ?_⟩
  · obtain ⟨hin, -⟩ | ⟨-, hlt, heq⟩ | ⟨e, rest, -, hbuf, hrest, heq⟩ := h.tidy.add_cases hN a
    · exact absurd hin hmem
    · rw [heq, h.buffer, min_eq_right (by omega), take_succ_cons, reverse_cons]
    · have hk : k = rest.length + 1 := by
        rw [← hlength, hbuf, length_cons]
      have htail : rest = (l.take rest.length).reverse := by
        have hreverse := h.buffer
        have hle := h.le
        rw [hbuf, hk, take_succ_eq_append_getElem (by omega), reverse_append] at hreverse
        exact (List.cons.inj hreverse).2
      rw [heq]
      show rest ++ [a] = _
      rw [min_eq_left (by omega), ← hrest, take_succ_cons, reverse_cons, ← htail]
  · have hle := h.le
    rw [length_cons]
    omega

theorem back_zero (h : f.Recent l 0) : f.back = none := by
  unfold back
  rw [h.buffer]
  rfl

theorem back_succ (h : f.Recent (a :: l) (k + 1)) : f.back = some a := by
  unfold back
  rw [h.buffer, take_succ_cons, reverse_cons, List.getLast?_concat]

theorem popBack_zero (h : f.Recent l 0) : f.popBack.1 = none := by
  unfold popBack
  rw [h.buffer]
  rfl

theorem popBack_succ (h : f.Recent (a :: l) (k + 1)) :
    f.popBack.1 = some a ∧ f.popBack.2.Recent l k := by
  have hbuffer : f.buffer = (l.take k).reverse ++ [a] := by
    rw [h.buffer, take_succ_cons, reverse_cons]
  have hpop : f.popBack = (some a, ⟨(l.take k).reverse, f.filter.erase a⟩) := by
    unfold popBack
    rw [hbuffer, List.getLast?_concat, Option.elim_some, dropLast_concat]
  have hnodup := h.tidy.nodup
  rw [hbuffer, nodup_append] at hnodup
  have hna : a ∉ (l.take k).reverse :=
    fun hin => hnodup.2.2 a hin a (mem_singleton_self a) rfl
  have hlength := h.tidy.length_le
  rw [hbuffer, length_append, length_singleton] at hlength
  rw [hpop]
  refine ⟨rfl, ⟨hnodup.1, Nat.le_of_succ_le hlength, ?_⟩, rfl, Nat.le_of_succ_le_succ h.le⟩
  rw [h.tidy.filter_eq, hbuffer]
  ext x
  by_cases hx : x = a
  · simpa [hx] using fun hin => hna (mem_reverse.2 hin)
  · simp [hx]

end Recent

end CircularFilter

end Splash.Data
