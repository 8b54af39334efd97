import Splash.Data.CircularFilter
import Splash.Lib.OrdMap

/-!
# The backlog of specialized orders

`HotPriorityBacklog` is a bounded buffer of orders, the heaviest of which is popped first. An order
that was softly evicted is not accepted any more, but stays if it is already there.

* `tryPop_eq_some` — a popped order was there and leaves nothing else changed.
* `tryPop_eq_none` — nothing is popped just from an empty backlog.
* `refines_bag` — the backlog is a bounded priority multiset.
* `softEvict_stays_out_iff` — when a softly evicted order stays out.
-/

namespace Splash.Engine

open Lib Data OrdMap List

/-- An order specialized for a concrete pool. -/
class SpecializedOrder (O : Type) (V I : outParam Type) where
  selfRef : O → V
  poolRef : O → I
  weight : O → ℕ

open SpecializedOrder

variable {O V I : Type} [LinearOrder V] [SpecializedOrder O V I]

structure HotPriorityBacklog (O V : Type) [LinearOrder V] where
  /-- Weights of the orders. -/
  queue : OrdMap V ℕ
  store : OrdMap V O
  softEvictedOrders : CircularFilter 256 V
  /-- How many more orders fit in. -/
  capacity : ℕ

namespace HotPriorityBacklog

def new (capacity : ℕ) : HotPriorityBacklog O V := ⟨.empty, .empty, .new, capacity⟩

variable (b : HotPriorityBacklog O V)

/-- The order may be put into the backlog. -/
def Accepts (id : V) : Prop :=
  0 < b.capacity ∧ b.store.get? id = none ∧ b.softEvictedOrders.contains id = false

instance (b : HotPriorityBacklog O V) (id : V) : Decidable (b.Accepts id) :=
  decidable_of_iff (0 < b.capacity ∧ (b.store.get? id).isNone ∧
    b.softEvictedOrders.contains id = false) (by simp [Accepts])

def put (ord : O) : HotPriorityBacklog O V :=
  if b.Accepts (selfRef ord) then
    { b with
      queue := b.queue.insert (selfRef ord) (weight ord)
      store := b.store.insert (selfRef ord) ord
      capacity := b.capacity - 1 }
  else b

/-- The id with the greatest weight; of several such ids, any. -/
def heaviest (ord : HashOrder) (queue : OrdMap V ℕ) : Option V :=
  ((ord.arrange queue.toList).argmax Prod.snd).map Prod.fst

def popStored (ord : HashOrder) : ℕ → HotPriorityBacklog O V → Option O × HotPriorityBacklog O V
  | 0, b => (none, b)
  | n + 1, b =>
    (heaviest ord b.queue).elim (none, b) fun id =>
      (b.store.get? id).elim (popStored ord n { b with queue := b.queue.erase id }) fun o =>
        (some o, { b with
          queue := b.queue.erase id, store := b.store.erase id, capacity := b.capacity + 1 })

def tryPop (ord : HashOrder) (b : HotPriorityBacklog O V) : Option O × HotPriorityBacklog O V :=
  popStored ord b.queue.size b

def remove (id : V) : HotPriorityBacklog O V :=
  { b with
    softEvictedOrders := b.softEvictedOrders.remove id
    store := b.store.erase id
    capacity := if (b.store.get? id).isSome then b.capacity + 1 else b.capacity }

def softEvict (id : V) : HotPriorityBacklog O V :=
  { b with softEvictedOrders := (b.softEvictedOrders.add id).1 }

/-! ## Popping -/

variable {b : HotPriorityBacklog O V} {ord : HashOrder} {queue : OrdMap V ℕ}

theorem heaviest_isSome (ord : HashOrder)
    (h : 0 < queue.size) : ∃ id, heaviest ord queue = some id := by
  have hne : ord.arrange queue.toList ≠ [] := by
    intro hnil
    have hlen := (ord.perm queue.toList).length_eq
    rw [hnil, length_nil] at hlen
    rw [size] at h
    omega
  cases harg : (ord.arrange queue.toList).argmax Prod.snd with
  | none => exact absurd (List.argmax_eq_none.1 harg) hne
  | some e => exact ⟨e.1, by simp [heaviest, harg]⟩

variable {b b' : HotPriorityBacklog O V} {id : V} {o : O}

theorem get?_of_heaviest (h : heaviest ord queue = some id) :
    ∃ w, queue.get? id = some w ∧ ∀ k v, queue.get? k = some v → v ≤ w := by
  obtain ⟨e, he, rfl⟩ := Option.map_eq_some_iff.1 h
  have hmem := argmax_mem he
  rw [HashOrder.mem_arrange] at hmem
  refine ⟨e.2, mem_toList_iff.1 hmem, fun k v hk => ?_⟩
  refine le_of_mem_argmax (f := Prod.snd) (a := (k, v)) ?_ he
  rw [HashOrder.mem_arrange]
  exact mem_toList_iff.2 hk

/-- Every stored order is in the queue, under its own id. -/
structure Queued (b : HotPriorityBacklog O V) : Prop where
  queued : ∀ id, (b.store.get? id).isSome = true → (b.queue.get? id).isSome = true
  selfRef_eq : ∀ id o, b.store.get? id = some o → selfRef o = id

theorem queued_new (capacity : ℕ) : (new capacity : HotPriorityBacklog O V).Queued where
  queued := by simp [new]
  selfRef_eq := by simp [new]

section

variable (h : b.Queued)
include h

theorem Queued.put (ord : O) : (b.put ord).Queued := by
  unfold HotPriorityBacklog.put
  split
  · refine ⟨fun id hid => ?_, fun id o ho => ?_⟩
    · simp only [get?_insert] at hid ⊢
      split
      · rfl
      · next hne =>
        rw [if_neg hne] at hid
        exact h.queued id hid
    · simp only [get?_insert] at ho
      split at ho
      · next heq =>
        cases ho
        exact heq.symm
      · exact h.selfRef_eq id o ho
  · exact h

/-- `b'` stores nothing new, and what it stores is queued as before. -/
def Within (b b' : HotPriorityBacklog O V) : Prop :=
  ∀ id o, b'.store.get? id = some o → b.store.get? id = some o ∧ b'.queue.get? id = b.queue.get? id

omit h in
theorem Within.trans {b'' : HotPriorityBacklog O V} (h : b.Within b') (h' : b'.Within b'') :
    b.Within b'' := by
  intro id o ho
  obtain ⟨ho', hq⟩ := h' id o ho
  obtain ⟨ho'', hq'⟩ := h id o ho'
  exact ⟨ho'', hq.trans hq'⟩

theorem Queued.mono (hb : b.Within b') : b'.Queued := by
  refine ⟨fun id hid => ?_, fun id o ho => h.selfRef_eq id o (hb id o ho).1⟩
  obtain ⟨o, ho⟩ := Option.isSome_iff_exists.1 hid
  rw [(hb id o ho).2]
  exact h.queued id (Option.isSome_iff_exists.2 ⟨o, (hb id o ho).1⟩)

omit h in
theorem within_erase {store : OrdMap V O} (hstore : store = b.store.erase id) {queue : OrdMap V ℕ}
    (hqueue : ∀ k ≠ id, queue.get? k = b.queue.get? k) (soft : CircularFilter 256 V) (capacity : ℕ) :
    b.Within ⟨queue, store, soft, capacity⟩ := by
  intro k o hk
  simp only [hstore, get?_erase] at hk
  split at hk
  · cases hk
  · next hne => exact ⟨hk, hqueue k hne⟩

theorem Queued.remove (id : V) : (b.remove id).Queued :=
  h.mono (within_erase rfl (fun _ _ => rfl) _ _)

theorem Queued.softEvict (id : V) : (b.softEvict id).Queued :=
  ⟨h.queued, h.selfRef_eq⟩

omit h in
theorem within_eraseStale (hid : b.store.get? id = none) :
    b.Within { b with queue := b.queue.erase id } :=
  within_erase (erase_of_get?_none hid).symm (fun k hne => by simp [hne]) _ _

omit h in
/-- Stale entries of the queue are dropped until a stored order is found; it is a heaviest one. -/
theorem popStored_spec (ord : HashOrder) (n : ℕ) (b : HotPriorityBacklog O V) :
    b.Within (popStored ord n b).2 ∧
      (popStored ord n b).2.softEvictedOrders = b.softEvictedOrders ∧
      ((∃ id o w, b.store.get? id = some o ∧ b.queue.get? id = some w ∧
        (∀ k o' v, b.store.get? k = some o' → b.queue.get? k = some v → v ≤ w) ∧
        (popStored ord n b).1 = some o ∧ (popStored ord n b).2.store = b.store.erase id ∧
        (popStored ord n b).2.capacity = b.capacity + 1) ∨
      ((popStored ord n b).1 = none ∧ (popStored ord n b).2.store = b.store ∧
        (popStored ord n b).2.capacity = b.capacity)) := by
  induction n generalizing b with
  | zero => exact ⟨fun _ _ ho => ⟨ho, rfl⟩, rfl, .inr ⟨rfl, rfl, rfl⟩⟩
  | succ n ih =>
    cases hpick : heaviest ord b.queue with
    | none =>
      have hrun : popStored ord (n + 1) b = (none, b) := by simp [popStored, hpick]
      rw [hrun]
      exact ⟨fun _ _ ho => ⟨ho, rfl⟩, rfl, .inr ⟨rfl, rfl, rfl⟩⟩
    | some id =>
      cases hstore : b.store.get? id with
      | none =>
        have hrun : popStored ord (n + 1) b
            = popStored ord n { b with queue := b.queue.erase id } := by
          simp [popStored, hpick, hstore]
        have hstale := within_eraseStale hstore
        obtain ⟨hwithin, hsoft, hcases⟩ := ih { b with queue := b.queue.erase id }
        rw [hrun]
        refine ⟨hstale.trans hwithin, hsoft, hcases.imp_left ?_⟩
        rintro ⟨j, o, w, hj, hw, hmax, hpop⟩
        rw [(hstale j o hj).2] at hw
        refine ⟨j, o, w, hj, hw, fun k o' v hk hv => hmax k o' v hk ?_, hpop⟩
        rwa [(hstale k o' hk).2]
      | some o =>
        have hrun : popStored ord (n + 1) b = (some o, { b with
            queue := b.queue.erase id, store := b.store.erase id, capacity := b.capacity + 1 }) := by
          simp [popStored, hpick, hstore]
        obtain ⟨w, hw, hmax⟩ := get?_of_heaviest hpick
        rw [hrun]
        exact ⟨within_erase rfl (fun k hne => by simp [hne]) _ _, rfl,
          .inl ⟨id, o, w, hstore, hw, fun k _ v _ => hmax k v, rfl, rfl, rfl⟩⟩

theorem store_empty_of_popStored (ord : HashOrder) {n : ℕ} (hn : n = b.queue.size)
    (hpop : (HotPriorityBacklog.popStored ord n b).1 = none) (id : V) : b.store.get? id = none := by
  induction n generalizing b with
  | zero =>
    by_contra hsome
    obtain ⟨w, hw⟩ := Option.isSome_iff_exists.1
      (h.queued id (Option.isSome_iff_ne_none.2 hsome))
    have := size_erase hw
    omega
  | succ n ih =>
    obtain ⟨k, hpick⟩ := heaviest_isSome ord (show 0 < b.queue.size by omega)
    cases hstore : b.store.get? k with
    | none =>
      obtain ⟨w, hw, -⟩ := get?_of_heaviest hpick
      have hsize := size_erase hw
      have hrun : HotPriorityBacklog.popStored ord (n + 1) b
          = HotPriorityBacklog.popStored ord n { b with queue := b.queue.erase k } := by
        simp [HotPriorityBacklog.popStored, hpick, hstore]
      rw [hrun] at hpop
      exact ih (b := { b with queue := b.queue.erase k }) (h.mono (within_eraseStale hstore))
        (by simp only; omega) hpop
    | some o => simp [HotPriorityBacklog.popStored, hpick, hstore] at hpop

/-- **A popped order was in the backlog and leaves nothing else changed.** -/
theorem tryPop_eq_some (hpop : b.tryPop ord = (some o, b')) :
    b.store.get? (selfRef o) = some o ∧ b'.store = b.store.erase (selfRef o) ∧
      b'.capacity = b.capacity + 1 ∧ b'.softEvictedOrders = b.softEvictedOrders := by
  rw [tryPop] at hpop
  obtain ⟨-, hsoft, ⟨id, o', -, hget, -, -, hsome, hstore, hcap⟩ | ⟨hnone, -⟩⟩ :=
    popStored_spec ord b.queue.size b
  · rw [hpop] at hsome hstore hcap hsoft
    cases hsome
    have hid := h.selfRef_eq id o hget
    subst hid
    exact ⟨hget, hstore, hcap, hsoft⟩
  · rw [hpop] at hnone
    cases hnone

/-- **Nothing is popped just from an empty backlog.** -/
theorem tryPop_eq_none (hpop : b.tryPop ord = (none, b')) :
    (∀ id, b.store.get? id = none) ∧ b'.store = b.store ∧
      b'.capacity = b.capacity ∧ b'.softEvictedOrders = b.softEvictedOrders := by
  rw [tryPop] at hpop
  refine ⟨store_empty_of_popStored h ord rfl (by rw [hpop]), ?_⟩
  obtain ⟨-, hsoft, ⟨id, o, -, -, -, -, hsome, -⟩ | ⟨-, hstore, hcap⟩⟩ :=
    popStored_spec ord b.queue.size b
  · rw [hpop] at hsome
    cases hsome
  · rw [hpop] at hstore hcap hsoft
    exact ⟨hstore, hcap, hsoft⟩

theorem Queued.tryPop (ord : HashOrder) : (b.tryPop ord).2.Queued :=
  h.mono (popStored_spec ord _ b).1

end

/-! ## Orders that stay -/

theorem get?_put_self {ord : O} (h : b.Accepts (selfRef ord)) :
    (b.put ord).store.get? (selfRef ord) = some ord := by
  simp [put, h]

/-- From `b` to `b'` an order with this id stays, and is not softly evicted. -/
structure Keeps (id : V) (b b' : HotPriorityBacklog O V) : Prop where
  stored : (b.store.get? id).isSome = true → (b'.store.get? id).isSome = true
  fresh : id ∉ b.softEvictedOrders.filter → id ∉ b'.softEvictedOrders.filter

theorem keeps_of_eq (h : b' = b) (id : V) : Keeps id b b' := by
  subst h
  exact ⟨fun hid => hid, fun hid => hid⟩

section

variable (b : HotPriorityBacklog O V)

theorem keeps_put (ord : O) (id : V) : Keeps id b (b.put ord) := by
  unfold put
  split
  · refine ⟨fun hid => ?_, fun hid => hid⟩
    rw [get?_insert]
    split
    · rfl
    · exact hid
  · exact ⟨fun hid => hid, fun hid => hid⟩

theorem keeps_remove {id k : V} (hne : k ≠ id) : Keeps id b (b.remove k) := by
  refine ⟨fun hid => ?_, fun hid hmem => hid (Finset.mem_of_mem_erase hmem)⟩
  rw [remove, get?_erase, if_neg (Ne.symm hne)]
  exact hid

theorem keeps_softEvict {id k : V} (hne : k ≠ id) : Keeps id b (b.softEvict k) := by
  refine ⟨fun hid => hid, fun hid hmem => ?_⟩
  rcases CircularFilter.mem_add hmem with heq | hmem
  · exact hne heq.symm
  · exact hid hmem

/-! ## Runs -/

def orderExists (id : V) : Bool := (b.store.get? id).isSome

inductive Op (O V : Type) where
  | put (order : O)
  | tryPop (ord : HashOrder)
  | remove (id : V)
  | softEvict (id : V)

def step : Op O V → Option O × HotPriorityBacklog O V
  | .put order => (none, b.put order)
  | .tryPop ord => b.tryPop ord
  | .remove id => (none, b.remove id)
  | .softEvict id => (none, b.softEvict id)

end

def run (capacity : ℕ) (ops : List (Op O V)) : HotPriorityBacklog O V :=
  ops.foldl (fun b op => (b.step op).2) (new capacity)

variable {capacity : ℕ} {ops : List (Op O V)} {op : Op O V} {id : V}

theorem run_snoc : run capacity (ops ++ [op]) = ((run capacity ops).step op).2 := by
  simp [run]

/-- Every stored order has its own weight in the queue, and takes one place. -/
structure Sound (capacity : ℕ) (b : HotPriorityBacklog O V) : Prop extends Queued b where
  weighed : ∀ id o, b.store.get? id = some o → b.queue.get? id = some (weight o)
  room : b.store.size + b.capacity = capacity

section

variable (h : b.Sound capacity)
include h

theorem Sound.mono {b' : HotPriorityBacklog O V} (hb : b.Within b')
    (hroom : b'.store.size + b'.capacity = b.store.size + b.capacity) : b'.Sound capacity where
  toQueued := h.toQueued.mono hb
  weighed id o ho := (hb id o ho).2.trans (h.weighed id o (hb id o ho).1)
  room := hroom.trans h.room

theorem Sound.put (order : O) : (b.put order).Sound capacity := by
  by_cases haccepts : b.Accepts (selfRef order)
  · have hput : b.put order = { b with
        queue := b.queue.insert (selfRef order) (weight order)
        store := b.store.insert (selfRef order) order
        capacity := b.capacity - 1 } := if_pos haccepts
    refine ⟨h.toQueued.put order, fun id o ho => ?_, ?_⟩
    · rw [hput] at ho ⊢
      simp only [OrdMap.get?_insert] at ho ⊢
      split_ifs at ho ⊢
      · cases ho
        rfl
      · exact h.weighed id o ho
    · obtain ⟨hpos, hnone, -⟩ := haccepts
      have hsize := (b.store.insert_perm (selfRef order) order).length_eq
      rw [erase_of_get?_none hnone, length_cons] at hsize
      have hroom := h.room
      rw [hput]
      unfold OrdMap.size at hroom ⊢
      simp only [hsize]
      omega
  · rw [show b.put order = b from if_neg haccepts]
    exact h

theorem Sound.step (op : Op O V) : (b.step op).2.Sound capacity := by
  cases op with
  | put order => exact h.put order
  | tryPop ord =>
    obtain ⟨hwithin, -, ⟨id, o, w, hget, -, -, -, hstore, hcap⟩ | ⟨-, hstore, hcap⟩⟩ :=
      popStored_spec ord b.queue.size b
    · refine h.mono hwithin ?_
      have hsize := size_erase hget
      rw [HotPriorityBacklog.step, tryPop, hstore, hcap]
      omega
    · exact h.mono hwithin (by rw [HotPriorityBacklog.step, tryPop, hstore, hcap])
  | remove id =>
    refine h.mono (within_erase rfl (fun _ _ => rfl) _ _) ?_
    show (b.store.erase id).size + (if (b.store.get? id).isSome then _ else _) = _
    split
    · next hsome =>
      obtain ⟨o, ho⟩ := Option.isSome_iff_exists.1 hsome
      have hsize := size_erase ho
      omega
    · next hnone => rw [erase_of_get?_none (Option.not_isSome_iff_eq_none.1 hnone)]
  | softEvict id => exact h.mono (fun _ _ ho => ⟨ho, rfl⟩) rfl

theorem Sound.weight_le {b' : HotPriorityBacklog O V} {ord : HashOrder} {o o' : O}
    (hpop : b.tryPop ord = (some o, b')) (ho' : b.store.get? id = some o') :
    weight o' ≤ weight o := by
  rw [tryPop] at hpop
  obtain ⟨-, -, ⟨k, _, w, hget, hw, hmax, hsome, -⟩ | ⟨hnone, -⟩⟩ :=
    popStored_spec ord b.queue.size b
  · rw [hpop] at hsome
    cases hsome
    rw [h.weighed k o hget] at hw
    cases hw
    exact hmax id o' _ ho' (h.weighed id o' ho')
  · rw [hpop] at hnone
    cases hnone

end

theorem sound_run (capacity : ℕ) (ops : List (Op O V)) : (run capacity ops).Sound capacity := by
  induction ops using List.reverseRecOn with
  | nil => exact ⟨queued_new capacity, by simp [run, new], Nat.zero_add capacity⟩
  | append_singleton ops op ih =>
    rw [run_snoc]
    exact ih.step op

/-- What a call does to the orders in a bounded priority multiset: those that are `barred` are not
taken in. -/
def BagStep (capacity : ℕ) (barred : Finset V) (s : OrdMap V O) :
    Op O V → Option O → OrdMap V O → Prop
  | .put o, out, s' => out = none ∧
    (s.size < capacity ∧ s.get? (selfRef o) = none ∧ selfRef o ∉ barred →
      s' = s.insert (selfRef o) o) ∧
    (¬ (s.size < capacity ∧ s.get? (selfRef o) = none ∧ selfRef o ∉ barred) → s' = s)
  | .tryPop _, none, s' => (∀ id, s.get? id = none) ∧ s' = s
  | .tryPop _, some o, s' => s.get? (selfRef o) = some o ∧
    (∀ id o', s.get? id = some o' → weight o' ≤ weight o) ∧ s' = s.erase (selfRef o)
  | .remove id, out, s' => out = none ∧ s' = s.erase id
  | .softEvict _, out, s' => out = none ∧ s' = s

/-- **The backlog is a bounded priority multiset.** -/
theorem refines_bag (capacity : ℕ) (ops : List (Op O V)) :
    let b := run capacity ops
    b.store.size + b.capacity = capacity ∧
      (∀ op, BagStep capacity b.softEvictedOrders.filter b.store op (b.step op).1
        (b.step op).2.store) ∧
      (∀ id, b.orderExists id = true ↔ ∃ o, b.store.get? id = some o) ∧
      (b.capacity = 0 → ∀ o, b.put o = b) := by
  have h := sound_run capacity ops
  refine ⟨h.room, fun op => ?_, fun id => Option.isSome_iff_exists, fun hfull o => ?_⟩
  · generalize run capacity ops = b at h
    cases op with
    | put o =>
      have haccepts : b.Accepts (selfRef o) ↔ b.store.size < capacity ∧
          b.store.get? (selfRef o) = none ∧ selfRef o ∉ b.softEvictedOrders.filter := by
        have hroom := h.room
        unfold Accepts
        rw [← Bool.not_eq_true, CircularFilter.contains_iff]
        exact and_congr_left' (by omega)
      rw [BagStep, ← haccepts]
      exact ⟨rfl, fun ha => by rw [step, put, if_pos ha], fun ha => by rw [step, put, if_neg ha]⟩
    | tryPop ord =>
      rw [step]
      rcases hpop : b.tryPop ord with ⟨_ | o, b'⟩
      · obtain ⟨hempty, hstore, -⟩ := tryPop_eq_none h.toQueued hpop
        exact ⟨hempty, hstore⟩
      · obtain ⟨hget, hstore, -⟩ := tryPop_eq_some h.toQueued hpop
        exact ⟨hget, fun id o' ho' => h.weight_le hpop ho', hstore⟩
    | remove id => exact ⟨rfl, rfl⟩
    | softEvict id => exact ⟨rfl, rfl⟩
  · exact if_neg fun ha => ha.1.ne' hfull

theorem within_step (hop : ∀ o, op ≠ .put o) : b.Within (b.step op).2 := by
  cases op with
  | put o => exact absurd rfl (hop o)
  | tryPop ord => exact (popStored_spec ord _ b).1
  | remove id => exact within_erase rfl (fun _ _ => rfl) _ _
  | softEvict id => exact fun _ _ ho => ⟨ho, rfl⟩

/-- An order gets into the backlog only by being put there. -/
theorem put_of_stored (h : (b.step op).2.store.get? id = some o) (hnone : b.store.get? id = none) :
    ∃ o', op = .put o' ∧ selfRef o' = id ∧ b.Accepts id := by
  by_cases hop : ∀ o', op ≠ .put o'
  · cases hnone.symm.trans (within_step hop id o h).1
  · obtain ⟨o', rfl⟩ := not_forall_not.1 hop
    rw [step, put] at h
    split at h
    · next haccepts =>
      rw [OrdMap.get?_insert] at h
      split at h
      · next heq => exact ⟨o', rfl, heq.symm, heq ▸ haccepts⟩
      · cases hnone.symm.trans h
    · cases hnone.symm.trans h

theorem put_since {l m : List (Op O V)} (hnone : (run capacity l).store.get? id = none)
    (hsome : (run capacity (l ++ m)).store.get? id = some o) :
    ∃ m₁ o' m₂, m = m₁ ++ .put o' :: m₂ ∧ selfRef o' = id ∧
      (run capacity (l ++ m₁)).Accepts id := by
  induction m using List.reverseRecOn generalizing o with
  | nil =>
    rw [append_nil] at hsome
    cases hnone.symm.trans hsome
  | append_singleton m op ih =>
    rw [← append_assoc, run_snoc] at hsome
    cases hbefore : (run capacity (l ++ m)).store.get? id with
    | none =>
      obtain ⟨o', rfl, ho', haccepts⟩ := put_of_stored hsome hbefore
      exact ⟨m, o', [], rfl, ho', haccepts⟩
    | some o₁ =>
      obtain ⟨m₁, o', m₂, rfl, hput⟩ := ih hbefore
      exact ⟨m₁, o', m₂ ++ [op], by simp, hput⟩

theorem exists_pops (h : b.Queued) (hid : (b.store.get? id).isSome = true) :
    ∃ n o, selfRef o = id ∧ (((List.replicate n (.tryPop .byKey)).foldl
      (fun b op => (b.step op).2) b).tryPop .byKey).1 = some o := by
  induction hsize : b.store.size generalizing b with
  | zero =>
    rw [OrdMap.get?_eq_none_of_size hsize] at hid
    cases hid
  | succ size ih =>
    rcases hpop : b.tryPop .byKey with ⟨_ | o, b'⟩
    · rw [(tryPop_eq_none h hpop).1] at hid
      cases hid
    · by_cases ho : selfRef o = id
      · exact ⟨0, o, ho, by rw [replicate_zero, foldl_nil, hpop]⟩
      · obtain ⟨hget, hstore, -⟩ := tryPop_eq_some h hpop
        have hb' : b'.Queued := by
          have := h.tryPop .byKey
          rwa [hpop] at this
        obtain ⟨n, o', ho', hpops⟩ := ih hb' (by rw [hstore]; simpa [Ne.symm ho] using hid) (by
          have := size_erase hget
          rw [hstore]
          omega)
        refine ⟨n + 1, o', ho', ?_⟩
        rw [replicate_succ, foldl_cons, step, hpop]
        exact hpops

/-- **A softly evicted order stays out until it is put again** exactly when it was not stored at the
time: its eviction leaves a stored order where it is. -/
theorem softEvict_stays_out_iff (capacity : ℕ) (ops : List (Op O V)) (id : V) :
    (∀ m ord o, ((run capacity (ops ++ .softEvict id :: m)).tryPop ord).1 = some o →
      selfRef o = id → ∃ m₁ o' m₂, m = m₁ ++ .put o' :: m₂ ∧ selfRef o' = id ∧
        (run capacity (ops ++ .softEvict id :: m₁)).Accepts id) ↔
      (run capacity ops).orderExists id = false := by
  constructor
  · intro hout
    by_contra hstored
    obtain ⟨n, o, ho, hpops⟩ := exists_pops ((sound_run capacity ops).toQueued.softEvict id)
      (Bool.eq_true_of_not_eq_false hstored)
    obtain ⟨m₁, o', m₂, hm, -⟩ := hout (.replicate n (.tryPop .byKey)) .byKey o
      (by rw [run, foldl_append, foldl_cons]; exact hpops) ho
    cases eq_of_mem_replicate (hm ▸ mem_append_right m₁ mem_cons_self)
  · rintro hnone m ord o hpop rfl
    have hevicted : (run capacity (ops ++ [.softEvict (selfRef o)])).store.get? (selfRef o) =
        none := by
      rw [run_snoc]
      exact Option.not_isSome_iff_eq_none.1 (Bool.eq_false_iff.1 hnone)
    have hstored := (tryPop_eq_some (sound_run _ _).toQueued (Prod.ext hpop rfl)).1
    rw [append_cons] at hstored
    obtain ⟨m₁, o', m₂, hm, hput⟩ := put_since hevicted hstored
    rw [← append_cons] at hput
    exact ⟨m₁, o', m₂, hm, hput⟩

theorem stored_popped_though_evicted :
    letI : SpecializedOrder ℕ ℕ ℕ := ⟨fun n => n, fun n => n, fun n => n⟩
    ((run 1 [.put 7, .softEvict 7] : HotPriorityBacklog ℕ ℕ).tryPop .byKey).1 = some 7 := by
  decide

end HotPriorityBacklog

end Splash.Engine
