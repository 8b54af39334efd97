import Splash.Lib.OrdMap

/-!
# Maps with delayed removal

A map with a queue of keys that are to be removed. A key is queued with a deadline, and a run of
the eviction removes the keys at the front of the queue whose deadline has passed. A key that is
stored again does not leave the queue.

* `get_evict_of_not_due` — a key without a deadline in the past survives the eviction.
* `get_evict_of_due` — in a queue with increasing deadlines a key whose deadline has passed is
  removed.
-/

namespace Splash.Lib

open List

/-- A map and the deadlines of the keys that are to be removed. -/
structure Expiring (K V : Type) [LinearOrder K] where
  store : OrdMap K V
  queue : List (ℕ × K)
  delay : ℕ
  deriving DecidableEq

namespace Expiring

variable {K V : Type} [LinearOrder K]

def new (delay : ℕ) : Expiring K V := ⟨.empty, [], delay⟩

variable (m : Expiring K V)

def put (k : K) (v : V) : Expiring K V := { m with store := m.store.insert k v }

def get (k : K) : Option V := m.store.get? k

def register (now : ℕ) (k : K) : Expiring K V :=
  { m with queue := m.queue ++ [(now + m.delay, k)] }

/-- Removes keys from the front of the queue until a deadline lies ahead. -/
def evictLoop (now : ℕ) : List (ℕ × K) → OrdMap K V → List (ℕ × K) × OrdMap K V
  | [], s => ([], s)
  | e :: q, s => if e.1 ≤ now then evictLoop now q (s.erase e.2) else (e :: q, s)

def evict (now : ℕ) : Expiring K V :=
  { m with
    store := (evictLoop now m.queue m.store).2
    queue := (evictLoop now m.queue m.store).1 }

section

variable (now : ℕ) (k : K)

@[simp] theorem get_put (k j : K) (v : V) :
    (m.put k v).get j = if j = k then some v else m.get j :=
  OrdMap.get?_insert _ _ _ _

@[simp] theorem get_register (k j : K) : (m.register now k).get j = m.get j := rfl

@[simp] theorem queue_put (v : V) : (m.put k v).queue = m.queue := rfl

@[simp] theorem delay_put (v : V) : (m.put k v).delay = m.delay := rfl

@[simp] theorem queue_register : (m.register now k).queue = m.queue ++ [(now + m.delay, k)] := rfl

@[simp] theorem delay_register : (m.register now k).delay = m.delay := rfl

@[simp] theorem delay_evict : (m.evict now).delay = m.delay := rfl

theorem evictLoop_suffix (q : List (ℕ × K)) (s : OrdMap K V) : (evictLoop now q s).1 <:+ q := by
  induction q generalizing s with
  | nil => exact suffix_rfl
  | cons e q ih =>
    unfold evictLoop
    split
    · exact (ih _).trans (suffix_cons e q)
    · exact suffix_rfl

end

variable {now : ℕ} {m : Expiring K V}

variable {e : ℕ × K} {k : K} {q : List (ℕ × K)}

theorem get?_evictLoop_of_not_due (h : ∀ e ∈ q, e.2 = k → now < e.1) (s : OrdMap K V) :
    (evictLoop now q s).2.get? k = s.get? k := by
  induction q generalizing s with
  | nil => rfl
  | cons e q ih =>
    unfold evictLoop
    split
    case isTrue hdue =>
      have hne : k ≠ e.2 := fun hk => absurd (h e mem_cons_self hk.symm) (not_lt.2 hdue)
      rw [ih (fun e' he' => h e' (mem_cons_of_mem _ he')), OrdMap.get?_erase, if_neg hne]
    case isFalse => rfl

theorem get?_evictLoop_of_none (q : List (ℕ × K)) {s : OrdMap K V} (h : s.get? k = none) :
    (evictLoop now q s).2.get? k = none := by
  induction q generalizing s with
  | nil => exact h
  | cons e q ih =>
    unfold evictLoop
    split
    · apply ih
      rw [OrdMap.get?_erase, h, ite_self]
    · exact h

theorem get?_evictLoop_of_due (hsorted : q.Pairwise (·.1 ≤ ·.1)) (he : e ∈ q) (hdue : e.1 ≤ now)
    (s : OrdMap K V) : (evictLoop now q s).2.get? e.2 = none := by
  induction q generalizing s with
  | nil => cases he
  | cons a q ih =>
    obtain ⟨hle, hrest⟩ := pairwise_cons.1 hsorted
    have ha : a.1 ≤ now := by
      rcases mem_cons.1 he with rfl | he
      · exact hdue
      · exact (hle e he).trans hdue
    unfold evictLoop
    rw [if_pos ha]
    rcases mem_cons.1 he with rfl | he
    · apply get?_evictLoop_of_none
      rw [OrdMap.get?_erase, if_pos rfl]
    · exact ih hrest he _

theorem mem_queue_evict (he : e ∈ (m.evict now).queue) : e ∈ m.queue :=
  (evictLoop_suffix now m.queue m.store).subset he

theorem pairwise_queue_evict (now : ℕ) (h : m.queue.Pairwise (·.1 ≤ ·.1)) :
    (m.evict now).queue.Pairwise (·.1 ≤ ·.1) :=
  h.sublist (evictLoop_suffix now m.queue m.store).sublist

theorem get_evict_of_not_due (h : ∀ e ∈ m.queue, e.2 = k → now < e.1) :
    (m.evict now).get k = m.get k :=
  get?_evictLoop_of_not_due h m.store

theorem get_evict_of_due (hsorted : m.queue.Pairwise (·.1 ≤ ·.1)) (he : e ∈ m.queue)
    (hdue : e.1 ≤ now) : (m.evict now).get e.2 = none :=
  get?_evictLoop_of_due hsorted he hdue m.store

end Expiring

end Splash.Lib
