import Splash.Lib.OrdSet

/-!
# Ordered maps

A finite map kept as its entries in increasing order of their keys. Two maps with the same
lookups are the same map.

* `get?_insert`, `get?_erase` — what the two updates do to lookups.
* `ext_get?` — maps with the same lookups are equal.
* `erase_perm`, `insert_perm`, `sum_values_insert` — the entries before and after an update.
* `filter_toList_eq_singleton` — a condition that one entry satisfies.
* `get?_foldl_local`, `get?_foldl_erase`, `get?_foldl_insert` — updates along a list.
* `get?_foldl_insert_toList`, `get?_foldlM_toList` — updates along the entries of a map.
* `HashOrder` — an unspecified order of iteration.
-/

namespace Splash.Lib

open List OrdSet

/-- A finite map, as the ordered set of its entries. -/
structure OrdMap (K V : Type*) [LinearOrder K] where
  entries : OrdSet (compareOn (Prod.fst : K × V → K))

variable {α : Type*} {l : List α}

namespace OrdMap

variable {K V : Type*} [LinearOrder K]

instance [DecidableEq V] : DecidableEq (OrdMap K V) := fun m n =>
  decidable_of_iff (m.entries = n.entries) ⟨fun h => by cases m; cases n; cases h; rfl, congrArg _⟩

variable (m : OrdMap K V)

def toList : List (K × V) := m.entries.toList

def values : List V := m.toList.map Prod.snd

def size : ℕ := m.toList.length

def empty : OrdMap K V := ⟨OrdSet.empty⟩

def get? (k : K) : Option V := (m.toList.find? (·.1 = k)).map Prod.snd

def erase (k : K) : OrdMap K V := ⟨m.entries.eraseIf (·.1 = k)⟩

def insert (k : K) (v : V) : OrdMap K V := ⟨(m.erase k).entries.insert (k, v)⟩

theorem compareOn_fst_eq {a b : K × V} : compareOn Prod.fst a b = .eq ↔ a.1 = b.1 :=
  compare_eq_iff_eq

variable {m : OrdMap K V} {k : K} {v : V}

theorem mem_entries_iff {e : K × V} : e ∈ m.entries ↔ e ∈ m.toList := Iff.rfl

theorem mem_toList_iff :
    (k, v) ∈ m.toList ↔ m.get? k = some v := by
  constructor
  · intro h
    cases hf : m.toList.find? (·.1 = k) with
    | none => simpa using List.find?_eq_none.1 hf _ h
    | some e =>
      have hkey : e.1 = k := by simpa using List.find?_some hf
      have he : e = (k, v) := eq_of_mem (mem_of_find?_eq_some hf) h
        (compareOn_fst_eq.2 hkey)
      simp [get?, hf, he]
  · intro h
    obtain ⟨e, he, rfl⟩ := Option.map_eq_some_iff.1 h
    have hkey : e.1 = k := by simpa using List.find?_some he
    exact hkey ▸ mem_of_find?_eq_some he

theorem mem_values_of_get? (h : m.get? k = some v) :
    v ∈ m.values :=
  mem_map.2 ⟨(k, v), mem_toList_iff.2 h, rfl⟩

theorem mem_values_iff : v ∈ m.values ↔ ∃ k, m.get? k = some v := by
  refine ⟨fun h => ?_, fun ⟨k, h⟩ => mem_values_of_get? h⟩
  obtain ⟨⟨k, w⟩, he, rfl⟩ := mem_map.1 h
  exact ⟨k, mem_toList_iff.1 he⟩

theorem pairwise_toList (m : OrdMap K V) : m.toList.Pairwise fun a b => a.1 < b.1 :=
  m.entries.sorted.imp fun h => compare_lt_iff_lt.1 h

theorem ext_get? {m n : OrdMap K V} (h : ∀ k, m.get? k = n.get? k) : m = n := by
  have hent : m.entries = n.entries := ext_mem fun e => by
    rw [mem_entries_iff, mem_entries_iff, mem_toList_iff, mem_toList_iff, h]
  cases m; cases n; cases hent; rfl

@[simp] theorem get?_empty (k : K) : (empty : OrdMap K V).get? k = none := rfl

theorem get?_eq_iff {o : Option V} :
    m.get? k = o ↔ ∀ v, m.get? k = some v ↔ o = some v := by
  constructor
  · rintro rfl v
    rfl
  · intro h
    exact Option.ext h

@[simp] theorem get?_erase (m : OrdMap K V) (k j : K) :
    (m.erase k).get? j = if j = k then none else m.get? j := by
  refine get?_eq_iff.2 fun v => ?_
  rw [← mem_toList_iff]
  refine OrdSet.mem_eraseIf.trans ?_
  rw [mem_entries_iff, mem_toList_iff, decide_eq_false_iff_not]
  by_cases h : j = k
  · simp [h]
  · simp [h]

@[simp] theorem get?_insert (m : OrdMap K V) (k j : K) (v : V) :
    (m.insert k v).get? j = if j = k then some v else m.get? j := by
  refine get?_eq_iff.2 fun w => ?_
  rw [← mem_toList_iff]
  have hfree : ∀ b ∈ (m.erase k).entries, compareOn Prod.fst (k, v) b ≠ .eq := fun b hb hcmp => by
    have := (mem_toList_iff (m := m.erase k)).1 hb
    simp [← compareOn_fst_eq.1 hcmp] at this
  refine OrdSet.mem_insert.trans ?_
  rw [and_iff_left hfree, Prod.mk.injEq]
  rw [mem_entries_iff, mem_toList_iff, get?_erase]
  by_cases h : j = k
  · simp [h, eq_comm]
  · simp [h]

theorem erase_perm (h : m.get? k = some v) :
    m.toList.Perm ((k, v) :: (m.erase k).toList) := by
  have hmem : (k, v) ∈ m.entries := mem_toList_iff.2 h
  have herase : m.entries.erase (k, v) = (m.erase k).entries := ext_mem fun e => by
    rw [mem_erase, Ne, compareOn_fst_eq]
    refine Iff.trans ?_ OrdSet.mem_eraseIf.symm
    simp [eq_comm]
  have hperm := OrdSet.erase_perm hmem
  rwa [herase] at hperm

theorem insert_perm (m : OrdMap K V) (k : K) (v : V) :
    (m.insert k v).toList.Perm ((k, v) :: (m.erase k).toList) := by
  have h := erase_perm (m := m.insert k v) (k := k) (v := v) (by simp)
  have herase : (m.insert k v).erase k = m.erase k := ext_get? fun j => by
    by_cases hj : j = k <;> simp [hj]
  rwa [herase] at h

theorem erase_of_get?_none (h : m.get? k = none) : m.erase k = m := by
  refine ext_get? fun j => ?_
  by_cases hj : j = k
  · simp [hj, h]
  · simp [hj]

/-- A sum over the values after an insertion: the new value comes in for the one it replaces. -/
theorem sum_values_insert {A : Type*} [AddCommMonoid A] (f : V → A) (m : OrdMap K V) (k : K) (v : V) :
    ((m.insert k v).values.map f).sum + ((m.get? k).elim 0 f) = (m.values.map f).sum + f v := by
  have hins := ((m.insert_perm k v).map (f ∘ Prod.snd)).sum_eq
  simp only [values, map_map]
  cases hget : m.get? k with
  | none =>
    rw [erase_of_get?_none hget] at hins
    rw [hins, map_cons, sum_cons]
    simp [add_comm]
  | some w =>
    have hera := ((erase_perm hget).map (f ∘ Prod.snd)).sum_eq
    rw [hins, hera, map_cons, map_cons, sum_cons, sum_cons]
    simp only [Function.comp_apply, Option.elim_some]
    abel

/-! ## Updates along a list -/

theorem get?_foldl_erase (f : α → K) (l : List α) (m : OrdMap K V) (k : K) :
    (l.foldl (fun m a => m.erase (f a)) m).get? k
      = if ∃ a ∈ l, f a = k then none else m.get? k := by
  induction l generalizing m with
  | nil => simp
  | cons a l ih =>
    rw [foldl_cons, ih, get?_erase]
    by_cases hl : ∃ b ∈ l, f b = k
    · rw [if_pos hl, if_pos (hl.imp fun b hb => ⟨mem_cons_of_mem a hb.1, hb.2⟩)]
    · by_cases ha : f a = k <;> simp_all [eq_comm]

/-- Lookups after updates along a list that touch one key each. -/
theorem get?_foldl_local (key : α → K) {f : OrdMap K V → α → OrdMap K V}
    {g : Option V → α → Option V} (hkey : ∀ m a, (f m a).get? (key a) = g (m.get? (key a)) a)
    (hother : ∀ m a k, k ≠ key a → (f m a).get? k = m.get? k) (l : List α) (m : OrdMap K V) (k : K) :
    (l.foldl f m).get? k = (l.filter (key · = k)).foldl g (m.get? k) := by
  induction l generalizing m with
  | nil => rfl
  | cons a l ih =>
    rw [foldl_cons, ih]
    by_cases hk : key a = k
    · rw [filter_cons_of_pos (by simpa using hk), foldl_cons, ← hk, hkey]
    · rw [filter_cons_of_neg (by simpa using hk), hother _ _ _ (Ne.symm hk)]

theorem filter_toList_key (m : OrdMap K V) (k : K) :
    m.toList.filter (·.1 = k) = ((m.get? k).map (Prod.mk k)).toList := by
  have hsorted := m.pairwise_toList
  have hget : m.get? k = (m.toList.find? (·.1 = k)).map Prod.snd := rfl
  rw [hget]
  generalize m.toList = l at hsorted ⊢
  induction l with
  | nil => rfl
  | cons e l ih =>
    obtain ⟨hlt, hl⟩ := pairwise_cons.1 hsorted
    by_cases he : e.1 = k
    · have hrest : l.filter (·.1 = k) = [] := by
        refine filter_eq_nil_iff.2 fun a ha => ?_
        simp only [decide_eq_true_eq]
        exact fun heq => (hlt a ha).ne (he.trans heq.symm)
      rw [filter_cons_of_pos (by simpa using he), List.find?_cons_of_pos (by simpa using he), hrest,
        ← he]
      rfl
    · rw [filter_cons_of_neg (by simpa using he), List.find?_cons_of_neg (by simpa using he),
        ih hl]

theorem filter_toList_eq_singleton {p : K × V → Bool} :
    m.toList.filter p = [(k, v)] ↔ m.get? k = some v ∧ p (k, v) = true ∧
      ∀ j w, m.get? j = some w → p (j, w) = true → j = k := by
  constructor
  · intro h
    have hmem : (k, v) ∈ m.toList.filter p := by
      rw [h]
      exact mem_singleton_self _
    obtain ⟨hin, hp⟩ := mem_filter.1 hmem
    refine ⟨mem_toList_iff.1 hin, hp, fun j w hget hpj => ?_⟩
    have hmem' : (j, w) ∈ m.toList.filter p := mem_filter.2 ⟨mem_toList_iff.2 hget, hpj⟩
    rw [h] at hmem'
    exact congrArg Prod.fst (mem_singleton.1 hmem')
  · intro ⟨hget, hp, hunique⟩
    have hkey : m.toList.filter p = m.toList.filter (·.1 = k) := by
      refine filter_congr fun entry hentry => ?_
      have hentry' : m.get? entry.1 = some entry.2 := mem_toList_iff.1 hentry
      by_cases heq : entry.1 = k
      · have hvalue : entry = (k, v) := by
          rw [heq, hget] at hentry'
          exact Prod.ext heq (Option.some.inj hentry').symm
        rw [hvalue, hp, decide_eq_true rfl]
      · rw [decide_eq_false heq]
        exact Bool.eq_false_iff.2 fun hpe => heq (hunique entry.1 entry.2 hentry' hpe)
    rw [hkey, filter_toList_key, hget]
    rfl

theorem get?_foldl_insert {f : α → K} {g : α → V}
    (hkey : ∀ a ∈ l, ∀ b ∈ l, f a = f b → g a = g b) :
    (l.foldl (fun m a => m.insert (f a) (g a)) empty).get? k = some v
      ↔ ∃ a ∈ l, f a = k ∧ g a = v := by
  induction l using List.reverseRecOn with
  | nil => simp
  | append_singleton l b ih =>
    have hkey' : ∀ a ∈ l, ∀ b ∈ l, f a = f b → g a = g b := fun a ha b hb =>
      hkey a (mem_append_left _ ha) b (mem_append_left _ hb)
    rw [foldl_append, foldl_cons, foldl_nil, get?_insert]
    by_cases hk : k = f b
    · have hlast : ∀ a ∈ l, f a = k → g a = g b := fun a ha hak =>
        hkey a (mem_append_left _ ha) b (by simp) (hak.trans hk)
      grind
    · rw [if_neg hk, ih hkey']
      grind

theorem get?_foldl_insert_of_not_mem {f : α → K} {g : α → V}
    (h : ∀ a ∈ l, f a ≠ k) (m : OrdMap K V) :
    (l.foldl (fun m a => m.insert (f a) (g a)) m).get? k = m.get? k := by
  induction l generalizing m with
  | nil => rfl
  | cons a l ih =>
    obtain ⟨ha, hl⟩ := forall_mem_cons.1 h
    rw [foldl_cons, ih hl, get?_insert, if_neg ha.symm]

theorem get?_foldl_insert_of_mem {f : α → K} {g : α → V}
    (hmem : ∃ a ∈ l, f a = k) (hval : ∀ a ∈ l, f a = k → g a = v) (m : OrdMap K V) :
    (l.foldl (fun m a => m.insert (f a) (g a)) m).get? k = some v := by
  induction l generalizing m with
  | nil =>
    obtain ⟨_, ha, _⟩ := hmem
    cases ha
  | cons a l ih =>
    obtain ⟨hvala, hvall⟩ := forall_mem_cons.1 hval
    rw [foldl_cons]
    by_cases hl : ∃ b ∈ l, f b = k
    · exact ih hl hvall _
    · have hak : f a = k := by
        obtain ⟨b, hb, hbk⟩ := hmem
        rcases mem_cons.1 hb with rfl | hb
        · exact hbk
        · exact absurd ⟨b, hb, hbk⟩ hl
      rw [get?_foldl_insert_of_not_mem (fun b hb hbk => hl ⟨b, hb, hbk⟩), get?_insert,
        if_pos hak.symm, hvala hak]

theorem get?_foldl_insert_toList (n m : OrdMap K V) (k : K) :
    (n.toList.foldl (fun m e => m.insert e.1 e.2) m).get? k = (n.get? k).or (m.get? k) := by
  cases hk : n.get? k with
  | none =>
    refine get?_foldl_insert_of_not_mem (fun e he hek => ?_) m
    rw [← hek, mem_toList_iff.1 he] at hk
    cases hk
  | some v =>
    refine get?_foldl_insert_of_mem ⟨(k, v), mem_toList_iff.2 hk, rfl⟩
      (fun e he (hek : e.1 = k) => ?_) m
    rw [← hek, mem_toList_iff.1 he] at hk
    exact Option.some.inj hk

/-- Lookups after every entry of a map is replaced by one that is related to it. -/
theorem get?_foldlM_toList {ε : Type*} {step : OrdMap K V → K × V → Except ε (OrdMap K V)}
    {R : K → V → V → Prop}
    (hstep : ∀ m e m', step m e = .ok m' → m.get? e.1 = some e.2 → ∃ w, R e.1 e.2 w ∧
      ∀ k, m'.get? k = if k = e.1 then some w else m.get? k)
    {m m' : OrdMap K V} (h : m.toList.foldlM step m = .ok m') (k : K) :
    (m.get? k = none → m'.get? k = none) ∧
      ∀ v, m.get? k = some v → ∃ w, R k v w ∧ m'.get? k = some w := by
  -- The entries still to be replaced are as they were.
  suffices key : ∀ (l : List (K × V)) (n n' : OrdMap K V), (l.Pairwise fun a b => a.1 < b.1) →
      (∀ e ∈ l, n.get? e.1 = some e.2) → l.foldlM step n = .ok n' →
      ((∀ e ∈ l, e.1 ≠ k) → n'.get? k = n.get? k) ∧
        ∀ v, (k, v) ∈ l → ∃ w, R k v w ∧ n'.get? k = some w by
    obtain ⟨hother, hmem⟩ := key m.toList m m' m.pairwise_toList
      (fun e he => mem_toList_iff.1 he) h
    refine ⟨fun hnone => ?_, fun v hv => hmem v (mem_toList_iff.2 hv)⟩
    rw [hother fun e he hek => ?_, hnone]
    rw [← hek, mem_toList_iff.1 he] at hnone
    cases hnone
  intro l
  induction l with
  | nil =>
    intro n n' _ _ hfold
    cases hfold
    exact ⟨fun _ => rfl, fun v hv => nomatch hv⟩
  | cons e l ih =>
    intro n n' hsorted hn hfold
    obtain ⟨he, hl⟩ := pairwise_cons.1 hsorted
    obtain ⟨hne, hnl⟩ := forall_mem_cons.1 hn
    rw [foldlM_cons] at hfold
    cases hs : step n e with
    | error err =>
      rw [hs] at hfold
      cases hfold
    | ok n₁ =>
      rw [hs] at hfold
      obtain ⟨w, hw, hget⟩ := hstep n e n₁ hs hne
      have hrest : ∀ a ∈ l, n₁.get? a.1 = some a.2 := fun a ha => by
        rw [hget, if_neg (he a ha).ne', hnl a ha]
      obtain ⟨hother, hmem⟩ := ih n₁ n' hl hrest hfold
      constructor
      · intro hk
        obtain ⟨hek, hlk⟩ := forall_mem_cons.1 hk
        rw [hother hlk, hget, if_neg (Ne.symm hek)]
      · intro v hv
        rcases mem_cons.1 hv with hv | hv
        · subst hv
          refine ⟨w, hw, ?_⟩
          rw [hother fun a ha => (he a ha).ne', hget, if_pos rfl]
        · exact hmem v hv

theorem mem_takeWhile_le {b : K} {e : K × V} :
    e ∈ m.toList.takeWhile (·.1 ≤ b) ↔ e ∈ m.toList ∧ e.1 ≤ b := by
  have hsorted := m.pairwise_toList
  generalize m.toList = l at hsorted ⊢
  induction l with
  | nil => simp
  | cons a l ih =>
    obtain ⟨ha, hl⟩ := pairwise_cons.1 hsorted
    by_cases hab : a.1 ≤ b
    · rw [takeWhile_cons_of_pos (by simpa using hab)]
      simp only [mem_cons]
      constructor
      · rintro (rfl | h)
        · exact ⟨.inl rfl, hab⟩
        · exact ⟨.inr ((ih hl).1 h).1, ((ih hl).1 h).2⟩
      · rintro ⟨rfl | h, hb⟩
        · exact .inl rfl
        · exact .inr ((ih hl).2 ⟨h, hb⟩)
    · rw [takeWhile_cons_of_neg (by simpa using hab)]
      constructor
      · intro h
        cases h
      · rintro ⟨he, heb⟩
        rcases mem_cons.1 he with rfl | he
        · exact absurd heb hab
        · exact absurd ((ha e he).le.trans heb) hab

/-- A strictly increasing list with the entries of a map is the list of its entries. -/
theorem toList_eq_of_sorted {l : List (K × V)}
    (hsorted : l.Pairwise fun a b => a.1 < b.1) (hmem : ∀ e, e ∈ l ↔ e ∈ m.toList) :
    m.toList = l := by
  have hm := m.pairwise_toList
  have hnodup : ∀ {k : List (K × V)}, (k.Pairwise fun a b => a.1 < b.1) → k.Nodup := fun h =>
    h.imp fun {a b} (hlt : a.1 < b.1) heq => hlt.ne (congrArg Prod.fst heq)
  have hperm : m.toList.Perm l :=
    (perm_ext_iff_of_nodup (hnodup hm) (hnodup hsorted)).2 fun e => (hmem e).symm
  exact hperm.eq_of_pairwise (fun a b _ _ hab hba => absurd hab hba.asymm) hm hsorted

theorem size_erase (h : m.get? k = some v) : (m.erase k).size + 1 = m.size := by
  have hlen := (erase_perm h).length_eq
  rw [length_cons] at hlen
  exact hlen.symm

theorem get?_eq_none_of_size (h : m.size = 0) (k : K) : m.get? k = none := by
  have hnil : m.toList = [] := eq_nil_of_length_eq_zero h
  simp [get?, hnil]

theorem toList_insert_of_lt (h : ∀ e ∈ m.toList, e.1 < k) :
    (m.insert k v).toList = m.toList ++ [(k, v)] := by
  apply toList_eq_of_sorted
  · rw [pairwise_append]
    refine ⟨m.pairwise_toList, pairwise_singleton _ _, fun a ha b hb => ?_⟩
    rw [mem_singleton.1 hb]
    exact h a ha
  · rintro ⟨j, w⟩
    rw [mem_toList_iff, get?_insert, mem_append, mem_toList_iff, mem_singleton,
      Prod.mk.injEq]
    by_cases hj : j = k
    · subst hj
      have hnone : m.get? j ≠ some w := fun hget => (h _ (mem_toList_iff.2 hget)).false
      simp [hnone, eq_comm]
    · simp [hj]

theorem toList_erase_concat {l : List (K × V)}
    (h : m.toList = l ++ [(k, v)]) : (m.erase k).toList = l := by
  have hsorted := m.pairwise_toList
  rw [h, pairwise_append] at hsorted
  obtain ⟨hl, -, hlt⟩ := hsorted
  apply toList_eq_of_sorted hl
  rintro ⟨j, w⟩
  rw [mem_toList_iff, get?_erase]
  have hmem : (j, w) ∈ m.toList ↔ m.get? j = some w := mem_toList_iff
  rw [h, mem_append, mem_singleton, Prod.mk.injEq] at hmem
  by_cases hj : j = k
  · subst hj
    have hnot : (j, w) ∉ l := fun hin => (hlt _ hin _ mem_cons_self).false
    simp [hnot]
  · simp only [hj, false_and, or_false, if_false] at hmem ⊢
    exact hmem

theorem dropWhile_lt_eq_filter (m : OrdMap K V) (b : K) :
    m.toList.dropWhile (·.1 < b) = m.toList.filter (b ≤ ·.1) := by
  have hsorted := m.pairwise_toList
  generalize m.toList = l at hsorted ⊢
  induction l with
  | nil => rfl
  | cons a l ih =>
    obtain ⟨ha, hl⟩ := pairwise_cons.1 hsorted
    by_cases hab : a.1 < b
    · rw [dropWhile_cons_of_pos (by simpa using hab),
        filter_cons_of_neg (by simpa using hab)]
      exact ih hl
    · have hall : ∀ e ∈ a :: l, decide (b ≤ e.1) = true := by
        intro e he
        rcases mem_cons.1 he with rfl | he
        · simpa using hab
        · simpa using (not_lt.1 hab).trans (ha e he).le
      rw [dropWhile_cons_of_neg (by simpa using hab), filter_eq_self.2 hall]

/-! ## Keys -/

def keys (m : OrdMap K V) : List K := m.toList.map Prod.fst

def has (m : OrdMap K V) (k : K) : Bool := (m.get? k).isSome

theorem has_iff : m.has k = true ↔ ∃ v, m.get? k = some v :=
  Option.isSome_iff_exists

@[simp] theorem has_empty (k : K) : (empty : OrdMap K V).has k = false := rfl

@[simp] theorem has_insert (m : OrdMap K V) (k j : K) (v : V) :
    (m.insert k v).has j = true ↔ j = k ∨ m.has j = true := by
  unfold has
  rw [get?_insert]
  by_cases hj : j = k <;> simp [hj]

@[simp] theorem has_erase (m : OrdMap K V) (k j : K) :
    (m.erase k).has j = true ↔ j ≠ k ∧ m.has j = true := by
  unfold has
  rw [get?_erase]
  by_cases hj : j = k <;> simp [hj]

theorem has_foldl_erase (f : α → K) (l : List α) (m : OrdMap K V) (k : K) :
    (l.foldl (fun m a => m.erase (f a)) m).has k = true
      ↔ (∀ a ∈ l, f a ≠ k) ∧ m.has k = true := by
  unfold has
  rw [get?_foldl_erase]
  by_cases hk : ∃ a ∈ l, f a = k
  · obtain ⟨a, ha, hak⟩ := hk
    rw [if_pos ⟨a, ha, hak⟩]
    exact iff_of_false Bool.false_ne_true fun h => h.1 a ha hak
  · rw [if_neg hk]
    exact (and_iff_right fun a ha hak => hk ⟨a, ha, hak⟩).symm

theorem mem_keys : k ∈ m.keys ↔ m.has k = true := by
  rw [has_iff]
  constructor
  · intro hk
    obtain ⟨⟨k, v⟩, he, rfl⟩ := mem_map.1 hk
    exact ⟨v, mem_toList_iff.1 he⟩
  · rintro ⟨v, hv⟩
    exact mem_map.2 ⟨(k, v), mem_toList_iff.2 hv, rfl⟩

theorem pairwise_keys (m : OrdMap K V) : m.keys.Pairwise (· < ·) :=
  pairwise_map.2 m.pairwise_toList

end OrdMap

/-- The order in which hash maps are iterated. Nothing is known of it but that every entry occurs
just once. -/
structure HashOrder where
  arrange : {α : Type} → List α → List α
  perm : ∀ {α : Type} (l : List α), (arrange l).Perm l

namespace HashOrder

@[simp] theorem mem_arrange (ord : HashOrder) {α : Type} {l : List α} {a : α} :
    a ∈ ord.arrange l ↔ a ∈ l :=
  (ord.perm l).mem_iff

/-- Iteration in the order of the entries. -/
def byKey : HashOrder := ⟨id, fun _ => .rfl⟩

end HashOrder

end Splash.Lib
