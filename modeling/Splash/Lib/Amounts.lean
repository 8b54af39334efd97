import Splash.Lib.Exec
import Splash.Lib.OrdMap

/-!
# Amounts by key

Maps from keys to amounts: adding to an amount, taking from it down to nothing, and spending from
it, where more than there is panics and a key that is not there is passed over.

* `qty_add`, `get?_add`, `get?_sub` — the amounts and entries afterwards.
* `get?_addAll_filter` — the entries of a map that satisfy a condition.
-/

namespace Splash.Lib.Amounts

open List Option

variable {K : Type} [LinearOrder K]

variable (m : OrdMap K ℕ)

section

variable (entries : List (K × ℕ)) (k : K)

def qty : ℕ := (m.get? k).getD 0

def add (amount : ℕ) : OrdMap K ℕ := m.insert k (qty m k + amount)

/-- Takes from the amount of a key; what is used up is removed. -/
def sub (amount : ℕ) : OrdMap K ℕ :=
  (m.get? k).elim m fun held =>
    if held > amount then m.insert k (held - amount) else m.erase k

/-- Spends from the amount of a key. A key that is not there is passed over. -/
def spend (amount : ℕ) : Exec (OrdMap K ℕ) :=
  (m.get? k).elim (.ok m) fun held =>
    if amount ≤ held then .ok (if held - amount = 0 then m.erase k else m.insert k (held - amount))
    else .error .overflow

def addAll : OrdMap K ℕ :=
  entries.foldl (fun m entry => add m entry.1 entry.2) m

def spendAll : Exec (OrdMap K ℕ) :=
  entries.foldlM (fun m entry => spend m entry.1 entry.2) m

def total : ℕ :=
  (entries.map fun entry => if k = entry.1 then entry.2 else 0).sum

end

/-! ## Amounts -/

variable {m m' : OrdMap K ℕ} {k j : K} {amount : ℕ}

theorem qty_of_some {held : ℕ} (h : m.get? k = some held) : qty m k = held := by
  rw [qty, h, getD_some]

theorem qty_of_none (h : m.get? k = none) : qty m k = 0 := by
  rw [qty, h, getD_none]

section

variable (m : OrdMap K ℕ) (k j : K) (amount : ℕ)

theorem qty_insert : qty (m.insert k amount) j = if j = k then amount else qty m j := by
  unfold qty
  rw [OrdMap.get?_insert]
  split <;> rfl

theorem qty_add : qty (add m k amount) j = qty m j + if j = k then amount else 0 := by
  unfold add
  rw [qty_insert]
  split
  case isTrue heq => rw [heq]
  case isFalse => rw [add_zero]

/-! ## Entries -/

theorem get?_add :
    (add m k amount).get? j = if j = k then some (qty m k + amount) else m.get? j := by
  unfold add
  rw [OrdMap.get?_insert]

def rest (amount held : ℕ) : Option ℕ := if held > amount then some (held - amount) else none

theorem get?_sub :
    (sub m k amount).get? j = if j = k then (m.get? k).bind (rest amount) else m.get? j := by
  unfold sub rest
  cases hget : m.get? k with
  | none =>
    rw [elim_none, bind_none]
    split
    case isTrue heq => rw [heq, hget]
    case isFalse => rfl
  | some held =>
    rw [elim_some, bind_some]
    by_cases hlt : held > amount
    · rw [if_pos hlt, if_pos hlt, OrdMap.get?_insert]
    · rw [if_neg hlt, if_neg hlt, OrdMap.get?_erase]

end

theorem get?_addAll_of_nodup {entries : List (K × ℕ)} (hnodup : (entries.map (·.1)).Nodup)
    (hm : ∀ entry ∈ entries, m.get? entry.1 = none) (j : K) (amount : ℕ) :
    (addAll m entries).get? j = some amount ↔ m.get? j = some amount ∨ (j, amount) ∈ entries := by
  unfold addAll
  induction entries generalizing m with
  | nil => simp
  | cons entry entries ih =>
    obtain ⟨hnot, hnodup⟩ := nodup_cons.1 hnodup
    have hentry : m.get? entry.1 = none := hm entry mem_cons_self
    have hother : ∀ e ∈ entries, e.1 ≠ entry.1 := by
      intro e he heq
      exact hnot (mem_map.2 ⟨e, he, heq⟩)
    rw [foldl_cons, ih hnodup, mem_cons]
    · rw [get?_add, qty_of_none hentry, Nat.zero_add]
      by_cases heq : j = entry.1
      · subst heq
        have habsent : (entry.1, amount) ∉ entries := fun h => hother _ h rfl
        rw [if_pos rfl, hentry]
        simp only [habsent, or_false, Option.some.injEq, reduceCtorEq, false_or, Prod.ext_iff,
          true_and]
        exact eq_comm
      · rw [if_neg heq]
        have hne : (j, amount) ≠ entry := fun h => heq (congrArg Prod.fst h)
        simp [hne]
    · intro e he
      rw [get?_add, if_neg (hother e he)]
      exact hm e (mem_cons_of_mem _ he)

theorem get?_addAll_filter (m : OrdMap K ℕ) (p : K × ℕ → Bool) (j : K) (amount : ℕ) :
    (addAll OrdMap.empty (m.toList.filter p)).get? j = some amount ↔
      m.get? j = some amount ∧ p (j, amount) = true := by
  have hnodup : ((m.toList.filter p).map (·.1)).Nodup := by
    have hkeys : (m.toList.map (·.1)).Nodup :=
      List.Pairwise.imp ne_of_lt (pairwise_map.2 m.pairwise_toList)
    exact hkeys.sublist (filter_sublist.map _)
  rw [get?_addAll_of_nodup hnodup (fun _ _ => rfl), OrdMap.get?_empty, mem_filter,
    OrdMap.mem_toList_iff]
  simp

/-! ## Keys -/

@[simp] theorem has_add (m : OrdMap K ℕ) (k j : K) (amount : ℕ) :
    (add m k amount).has j = true ↔ j = k ∨ m.has j = true := by
  unfold add
  rw [OrdMap.has_insert]

theorem get?_of_has (h : m.has k = true) : m.get? k = some (qty m k) := by
  obtain ⟨held, hheld⟩ := OrdMap.has_iff.1 h
  rw [hheld, qty_of_some hheld]

end Splash.Lib.Amounts
