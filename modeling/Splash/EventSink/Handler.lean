import Splash.Engine.Transition
import Splash.Lib.Expiring

/-!
# The handler of entity updates

`PairUpdateHandler` finds the entities that a transaction consumes and produces. It keeps an index
of the versions it has seen: a produced version is stored, a consumed one is registered for
eviction, and every handled transaction first evicts what is due.

* `extractContinuousTransitions` — the transitions of entities in a transaction.
* `tryHandle` — what the handler does to its index for each kind of event.
* `index_keeps_live` — a version that was never registered is kept, and a registered one stays
  readable until its deadline.
-/

namespace Splash.EventSink

open Lib Engine Expiring List

/-! ## Transactions and entities -/

abbrev OutputRef := ℕ ×ₗ ℕ

/-- A transaction as the handlers see it. The parsers read further parts of it, its signers,
metadata and mints, as its `context`. -/
structure TxView (O C : Type) where
  hash : ℕ
  inputs : List OutputRef
  outputs : List (ℕ × O)
  context : C

/-- What the handler needs to know of entities. An output is parsed with the identifiers of the
consumed entities and of those produced so far at hand. -/
structure EntityKind (E I O C : Type) where
  version : E → OutputRef
  stableId : E → I
  tryFromLedger : TxView O C → OutputRef → List I → List I → O → Option E

/-- The events of a handler: a transaction is applied or unapplied on the ledger, accepted to the
mempool or dropped from it. -/
inductive Event (O C : Type) where
  | txApplied (tx : TxView O C)
  | txUnapplied (tx : TxView O C)
  | txAccepted (tx : TxView O C)
  | txDropped (tx : TxView O C)

variable {E I O C : Type}

def Event.tx : Event O C → TxView O C
  | txApplied tx => tx
  | txUnapplied tx => tx
  | txAccepted tx => tx
  | txDropped tx => tx

/-- Events that put a transaction in force; the others take one back. -/
def Event.isDo : Event O C → Bool
  | txApplied _ => true
  | txUnapplied _ => false
  | txAccepted _ => true
  | txDropped _ => false

def swap : Ior E E → Ior E E
  | .left a => .right a
  | .right b => .left b
  | .both a b => .both b a

def consumed? : Ior E E → Option E
  | .left a => some a
  | .right _ => none
  | .both a _ => some a

def produced? : Ior E E → Option E
  | .left _ => none
  | .right b => some b
  | .both _ b => some b

/-! ## The source -/

section Source

variable [LinearOrder I] (ord : HashOrder) (kind : EntityKind E I O C)

section

variable (now : ℕ) (index : Expiring OutputRef E) (event : Event O C)

def consumedEntities (tx : TxView O C) : OrdMap I E :=
  tx.inputs.foldl (fun m v => (index.get v).elim m fun e => m.insert (kind.stableId e) e) .empty

/-- Outputs are popped from the last one on. -/
def producedEntities (consumedIdentifiers : List I) (tx : TxView O C) : OrdMap I E :=
  tx.outputs.reverse.foldl (fun m o =>
    (kind.tryFromLedger tx (toLex (tx.hash, o.1)) consumedIdentifiers
      (ord.arrange (m.toList.map Prod.fst)) o.2).elim m fun e => m.insert (kind.stableId e) e) .empty

/-- The transitions of the entities that a transaction consumes or produces. There is none when it
has no outputs. -/
def extractContinuousTransitions (tx : TxView O C) : List (Ior E E) :=
  if tx.outputs.isEmpty then []
  else
    let consumedEntities := consumedEntities kind index tx
    let consumedIdentifiers := ord.arrange (consumedEntities.toList.map Prod.fst)
    let producedEntities := producedEntities ord kind consumedIdentifiers tx
    let keys := ord.arrange
      ((consumedEntities.toList.map Prod.fst ++ producedEntities.toList.map Prod.fst).dedup)
    keys.filterMap fun k => toTransition (consumedEntities.get? k) (producedEntities.get? k)

def indexTransition : Ior E E → Expiring OutputRef E
  | .left consumed => index.register now (kind.version consumed)
  | .right produced => index.put (kind.version produced) produced
  | .both consumed produced =>
    (index.register now (kind.version consumed)).put (kind.version produced) produced

/-- The transitions that the index is given for an event. A transaction that is dropped from the
mempool is indexed as it is; only what is sent on is inverted. -/
def indexedTransitions (transitions : List (Ior E E)) : List (Ior E E) :=
  match event with
  | .txApplied _ => transitions
  | .txUnapplied _ => transitions.map swap
  | .txAccepted _ => transitions
  | .txDropped _ => transitions

/-- Handles an event at a moment: what is due is evicted, then the transitions are indexed. -/
def tryHandle : Expiring OutputRef E :=
  let transitions := extractContinuousTransitions ord kind index event.tx
  if transitions.isEmpty then index
  else (indexedTransitions event transitions).foldl (indexTransition kind now) (index.evict now)

end

end Source

/-! ## Runs -/

/-- An event of the past: when it was handled, and the transitions that were found in it. -/
structure Entry (E O C : Type) where
  now : ℕ
  event : Event O C
  transitions : List (Ior E E)

/-- The index, and all events so far, the last one first. -/
structure State (E O C : Type) where
  index : Expiring OutputRef E
  history : List (Entry E O C)

section Runs

variable [LinearOrder I] (ord : HashOrder) (kind : EntityKind E I O C)

def step (s : State E O C) (now : ℕ) (event : Event O C) : State E O C where
  index := tryHandle ord kind now s.index event
  history := ⟨now, event, extractContinuousTransitions ord kind s.index event.tx⟩ :: s.history

def run (delay : ℕ) : List (ℕ × Event O C) → State E O C
  | [] => ⟨.new delay, []⟩
  | e :: es => step ord kind (run delay es) e.1 e.2

end Runs

namespace Entry

variable (kind : EntityKind E I O C) (e : Entry E O C)

def Registers (v : OutputRef) : Prop :=
  ∃ tr ∈ indexedTransitions e.event e.transitions, (consumed? tr).map kind.version = some v

def Puts (v : OutputRef) : Prop :=
  ∃ tr ∈ indexedTransitions e.event e.transitions, (produced? tr).map kind.version = some v

end Entry

instance (kind : EntityKind E I O C) (e : Entry E O C) (v : OutputRef) :
    Decidable (e.Registers kind v) :=
  inferInstanceAs (Decidable (∃ tr ∈ indexedTransitions e.event e.transitions,
    (consumed? tr).map kind.version = some v))

instance (kind : EntityKind E I O C) (e : Entry E O C) (v : OutputRef) :
    Decidable (e.Puts kind v) :=
  inferInstanceAs (Decidable (∃ tr ∈ indexedTransitions e.event e.transitions,
    (produced? tr).map kind.version = some v))

/-- The last event of a transaction put it in force. -/
def inForce (x : ℕ) : List (Entry E O C) → Bool
  | [] => false
  | e :: h => if e.event.tx.hash = x then e.event.isDo else inForce x h

/-- A version that was produced by a transaction in force, and that no transaction in force
consumes. -/
def Live (kind : EntityKind E I O C) (h : List (Entry E O C)) (v : OutputRef) : Prop :=
  (∃ e ∈ h, e.event.isDo = true ∧ e.Puts kind v ∧ inForce e.event.tx.hash h = true) ∧
    ∀ e ∈ h, e.event.isDo = true → v ∈ e.event.tx.inputs → inForce e.event.tx.hash h = false

instance (kind : EntityKind E I O C) (h : List (Entry E O C)) (v : OutputRef) :
    Decidable (Live kind h v) :=
  inferInstanceAs (Decidable (_ ∧ _))

/-- Time does not run backward, and a transaction is only taken back while it is in force. -/
def Ordered [LinearOrder I] (ord : HashOrder) (kind : EntityKind E I O C) (delay : ℕ) :
    List (ℕ × Event O C) → Prop
  | [] => True
  | e :: es =>
    Ordered ord kind delay es ∧ (∀ e' ∈ (run ord kind delay es).history, e'.now ≤ e.1) ∧
      (e.2.isDo = false → inForce e.2.tx.hash (run ord kind delay es).history = true)

instance decidableOrdered [LinearOrder I] (ord : HashOrder) (kind : EntityKind E I O C)
    (delay : ℕ) : (es : List (ℕ × Event O C)) → Decidable (Ordered ord kind delay es)
  | [] => isTrue trivial
  | _ :: es =>
    have := decidableOrdered ord kind delay es
    inferInstanceAs (Decidable (_ ∧ _ ∧ _))

/-- No event revives a version that was registered for eviction, or consumes it once more. -/
def Fresh (kind : EntityKind E I O C) : List (Entry E O C) → Prop
  | [] => True
  | e :: h =>
    Fresh kind h ∧
      (∀ v, Live kind (e :: h) v → ∀ e' ∈ e :: h, ¬ e'.Registers kind v) ∧
      (e.event.isDo = true → ∀ v ∈ e.event.tx.inputs, ∀ e' ∈ h, ¬ e'.Registers kind v)

/-! ## What indexing does -/

section Index

variable {kind : EntityKind E I O C} {now : ℕ} {m : Expiring OutputRef E} {v : OutputRef}

@[simp] theorem delay_indexTransition (tr : Ior E E) :
    (indexTransition kind now m tr).delay = m.delay := by
  cases tr <;> rfl

theorem queue_indexTransition (tr : Ior E E) :
    (indexTransition kind now m tr).queue =
      m.queue ++ ((consumed? tr).map fun e => (now + m.delay, kind.version e)).toList := by
  cases tr with
  | left => rfl
  | right => exact (append_nil _).symm
  | both => rfl

theorem get_indexTransition (tr : Ior E E) :
    ((indexTransition kind now m tr).get v).isSome ↔
      (m.get v).isSome ∨ (produced? tr).map kind.version = some v := by
  cases tr with
  | left a => simp [indexTransition, produced?]
  | right b =>
    by_cases hv : v = kind.version b
    · simp [indexTransition, produced?, hv]
    · simp [indexTransition, produced?, hv, Ne.symm hv]
  | both a b =>
    by_cases hv : v = kind.version b
    · simp [indexTransition, produced?, hv]
    · simp [indexTransition, produced?, hv, Ne.symm hv]

@[simp] theorem delay_foldl (trs : List (Ior E E)) :
    (trs.foldl (indexTransition kind now) m).delay = m.delay := by
  induction trs generalizing m with
  | nil => rfl
  | cons tr trs ih => rw [foldl_cons, ih, delay_indexTransition]

theorem queue_foldl (trs : List (Ior E E)) :
    (trs.foldl (indexTransition kind now) m).queue =
      m.queue ++ trs.filterMap fun tr =>
        (consumed? tr).map fun e => (now + m.delay, kind.version e) := by
  induction trs generalizing m with
  | nil => exact (append_nil _).symm
  | cons tr trs ih =>
    rw [foldl_cons, ih, queue_indexTransition, delay_indexTransition, append_assoc,
      filterMap_cons]
    cases consumed? tr <;> rfl

theorem get_foldl (trs : List (Ior E E)) :
    ((trs.foldl (indexTransition kind now) m).get v).isSome ↔
      (m.get v).isSome ∨ ∃ tr ∈ trs, (produced? tr).map kind.version = some v := by
  induction trs generalizing m with
  | nil => simp
  | cons tr trs ih =>
    rw [foldl_cons, ih, get_indexTransition, exists_mem_cons_iff, or_assoc]

end Index

/-! ## The index along a run -/

section Invariant

/-- What the index knows of the events of the past. -/
structure Remembers (kind : EntityKind E I O C) (delay : ℕ) (s : State E O C) : Prop where
  delay_eq : s.index.delay = delay
  /-- Only registered versions are queued. -/
  queue : ∀ q ∈ s.index.queue, ∃ e ∈ s.history, e.Registers kind q.2 ∧ q.1 = e.now + delay
  /-- Deadlines do not decrease. -/
  sorted : s.index.queue.Pairwise (·.1 ≤ ·.1)
  /-- A stored version is kept while all its deadlines lie ahead. -/
  store : ∀ v, (∃ e ∈ s.history, e.Puts kind v) →
    (∀ e ∈ s.history, e.Registers kind v → ∀ e' ∈ s.history, e'.now < e.now + delay) →
    (s.index.get v).isSome

variable {kind : EntityKind E I O C} {newer older : List (Entry E O C)}

theorem remembers_new {delay : ℕ} : Remembers kind delay (⟨.new delay, []⟩ : State E O C) where
  delay_eq := rfl
  queue := fun _ h => nomatch h
  sorted := .nil
  store := fun _ h => let ⟨_, he, _⟩ := h; nomatch he

theorem indexedTransitions_nil (event : Event O C) :
    indexedTransitions event ([] : List (Ior E E)) = [] := by
  cases event <;> rfl

theorem not_puts_of_nil (now : ℕ) (event : Event O C)
    (v : OutputRef) : ¬ (⟨now, event, []⟩ : Entry E O C).Puts kind v := by
  rintro ⟨tr, htr, -⟩
  rw [indexedTransitions_nil] at htr
  cases htr

theorem Fresh.of_append (h : Fresh kind (newer ++ older)) : Fresh kind older := by
  induction newer with
  | nil => exact h
  | cons e newer ih => exact ih h.1

variable {e : Entry E O C} {event : Event O C} {index : Expiring OutputRef E} {now : ℕ}
  {v : OutputRef}

theorem Fresh.not_registered {h : List (Entry E O C)} (hfresh : Fresh kind h)
    (hlive : Live kind h v) : ∀ e ∈ h, ¬ e.Registers kind v := by
  cases h with
  | nil => exact fun _ he => nomatch he
  | cons e h => exact hfresh.2.1 v hlive

variable [LinearOrder I] {ord : HashOrder} {kind : EntityKind E I O C} {delay : ℕ}

theorem tryHandle_of_empty (h : extractContinuousTransitions ord kind index event.tx = []) :
    tryHandle ord kind now index event = index := by
  unfold tryHandle
  rw [h]
  rfl

theorem tryHandle_of_ne (h : extractContinuousTransitions ord kind index event.tx ≠ []) :
    tryHandle ord kind now index event =
      (indexedTransitions event (extractContinuousTransitions ord kind index event.tx)).foldl
        (indexTransition kind now) (index.evict now) := by
  unfold tryHandle
  rw [if_neg (by simpa using h)]

/-- **One event**: the index remembers it next to all events before. -/
theorem Remembers.step {s : State E O C} (h : Remembers kind delay s)
    (hnow : ∀ e ∈ s.history, e.now ≤ now) (event : Event O C) :
    Remembers kind delay (step ord kind s now event) := by
  unfold EventSink.step
  by_cases hempty : extractContinuousTransitions ord kind s.index event.tx = []
  · rw [tryHandle_of_empty hempty, hempty]
    refine ⟨h.delay_eq, fun q hq => ?_, h.sorted, fun v hput hahead => ?_⟩
    · obtain ⟨e, he, hreg⟩ := h.queue q hq
      exact ⟨e, mem_cons_of_mem _ he, hreg⟩
    · apply h.store v
      · obtain ⟨e, he, hputs⟩ := hput
        rcases mem_cons.1 he with rfl | he
        · exact absurd hputs (not_puts_of_nil now event v)
        · exact ⟨e, he, hputs⟩
      · intro e he hreg e' he'
        exact hahead e (mem_cons_of_mem _ he) hreg e' (mem_cons_of_mem _ he')
  · rw [tryHandle_of_ne hempty]
    generalize extractContinuousTransitions ord kind s.index event.tx = trs
    refine ⟨?_, fun q hq => ?_, ?_, fun v hput hahead => ?_⟩
    · rw [delay_foldl, delay_evict]
      exact h.delay_eq
    · simp only [queue_foldl, delay_evict, h.delay_eq] at hq
      rcases mem_append.1 hq with hq | hq
      · obtain ⟨e, he, hreg⟩ := h.queue q (mem_queue_evict hq)
        exact ⟨e, mem_cons_of_mem _ he, hreg⟩
      · obtain ⟨tr, htr, hq⟩ := mem_filterMap.1 hq
        obtain ⟨x, hx, rfl⟩ := Option.map_eq_some_iff.1 hq
        refine ⟨_, mem_cons_self, ⟨tr, htr, ?_⟩, rfl⟩
        rw [hx]
        rfl
    · simp only [queue_foldl, delay_evict, h.delay_eq]
      have hlast : ∀ q ∈ (indexedTransitions event trs).filterMap (fun tr =>
          (consumed? tr).map fun e => (now + delay, kind.version e)), q.1 = now + delay := by
        intro q hq
        obtain ⟨tr, -, hq⟩ := mem_filterMap.1 hq
        obtain ⟨x, -, rfl⟩ := Option.map_eq_some_iff.1 hq
        rfl
      rw [pairwise_append]
      refine ⟨pairwise_queue_evict now h.sorted, ?_, fun a ha b hb => ?_⟩
      · apply pairwise_of_forall_mem_list
        intro a ha b hb
        rw [hlast a ha, hlast b hb]
      · obtain ⟨e, he, -, hdeadline⟩ := h.queue a (mem_queue_evict ha)
        have hle := hnow e he
        rw [hdeadline, hlast b hb]
        omega
    · rw [get_foldl]
      obtain ⟨e, he, hputs⟩ := hput
      rcases mem_cons.1 he with rfl | he
      · exact .inr hputs
      · left
        have hkept : ∀ q ∈ s.index.queue, q.2 = v → now < q.1 := by
          rintro q hq rfl
          obtain ⟨e₀, he₀, hreg, hdeadline⟩ := h.queue q hq
          rw [hdeadline]
          exact hahead e₀ (mem_cons_of_mem _ he₀) hreg _ mem_cons_self
        rw [get_evict_of_not_due hkept]
        apply h.store v ⟨e, he, hputs⟩
        intro e₀ he₀ hreg e' he'
        exact hahead e₀ (mem_cons_of_mem _ he₀) hreg e' (mem_cons_of_mem _ he')

variable {es : List (ℕ × Event O C)}

/-- **Every run**: the index remembers all its events. -/
theorem remembers_run (h : Ordered ord kind delay es) :
    Remembers kind delay (run ord kind delay es) := by
  induction es with
  | nil => exact remembers_new
  | cons e es ih =>
    obtain ⟨hes, hnow, -⟩ := h
    exact (ih hes).step hnow e.2

theorem now_le_of_append (hordered : Ordered ord kind delay es)
    (hsplit : (run ord kind delay es).history = newer ++ e :: older) :
    ∀ e' ∈ newer, e.now ≤ e'.now := by
  induction es generalizing newer with
  | nil =>
    have hnil : [] = newer ++ e :: older := hsplit
    simp at hnil
  | cons a es ih =>
    obtain ⟨hes, hnow, -⟩ := hordered
    cases newer with
    | nil => exact fun _ he' => nomatch he'
    | cons e₁ newer =>
      obtain ⟨rfl, hrest⟩ := List.cons.inj hsplit
      intro e' he'
      rcases mem_cons.1 he' with rfl | he'
      · exact hnow e (hrest ▸ mem_append_right _ mem_cons_self)
      · exact ih hes hrest e' he'

/-- A version that is consumed stays readable until its first deadline. -/
theorem readable_of_consumed (hordered : Ordered ord kind delay es)
    (hfresh : Fresh kind (run ord kind delay es).history)
    (hsplit : (run ord kind delay es).history = newer ++ e :: older) (hdo : e.event.isDo = true)
    (hv : v ∈ e.event.tx.inputs) (hput : ∃ e₀ ∈ older, e₀.Puts kind v)
    (hnow : ∀ e' ∈ (run ord kind delay es).history, e'.now < e.now + delay) :
    ((run ord kind delay es).index.get v).isSome := by
  apply (remembers_run hordered).store v
  · obtain ⟨e₀, he₀, hputs⟩ := hput
    refine ⟨e₀, ?_, hputs⟩
    rw [hsplit]
    exact mem_append_right _ (mem_cons_of_mem _ he₀)
  · intro e₁ he₁ hreg e' he'
    -- the version was not registered before it was consumed, so every deadline lies ahead
    have hlater : e.now ≤ e₁.now := by
      rw [hsplit] at he₁ hfresh
      rcases mem_append.1 he₁ with he₁ | he₁
      · exact now_le_of_append hordered hsplit e₁ he₁
      · rcases mem_cons.1 he₁ with rfl | he₁
        · exact le_rfl
        · exact absurd hreg (hfresh.of_append.2.2 hdo v hv e₁ he₁)
    have hlt := hnow e' he'
    omega

/-- **What the index keeps and what it forgets.** In a run where no event revives a version that
was registered for eviction, or consumes it once more, every live version is stored, and a
consumed one is readable for the delay. In any run, an event that is handled at or after the
deadline of a version forgets the version, live or not, unless the event stores it. -/
theorem index_keeps_live {es : List (ℕ × Event O C)} (hordered : Ordered ord kind delay es) :
    (Fresh kind (run ord kind delay es).history →
      (∀ v, Live kind (run ord kind delay es).history v →
        ((run ord kind delay es).index.get v).isSome) ∧
      ∀ v newer e older, (run ord kind delay es).history = newer ++ e :: older →
        e.event.isDo = true → v ∈ e.event.tx.inputs → (∃ e₀ ∈ older, e₀.Puts kind v) →
        (∀ e' ∈ (run ord kind delay es).history, e'.now < e.now + delay) →
        ((run ord kind delay es).index.get v).isSome) ∧
    ∀ q ∈ (run ord kind delay es).index.queue, ∀ now event, q.1 ≤ now →
      extractContinuousTransitions ord kind (run ord kind delay es).index event.tx ≠ [] →
      (¬ ∃ tr ∈ indexedTransitions event
          (extractContinuousTransitions ord kind (run ord kind delay es).index event.tx),
        (produced? tr).map kind.version = some q.2) →
      (step ord kind (run ord kind delay es) now event).index.get q.2 = none := by
  have hinv := remembers_run hordered
  refine ⟨fun hfresh => ⟨fun v hlive => ?_, ?_⟩, ?_⟩
  · obtain ⟨⟨e, he, -, hputs, -⟩, -⟩ := id hlive
    apply hinv.store v ⟨e, he, hputs⟩
    intro e' he' hreg
    exact absurd hreg (hfresh.not_registered hlive e' he')
  · intro v newer e older hsplit hdo hv hput hnow
    exact readable_of_consumed hordered hfresh hsplit hdo hv hput hnow
  · intro q hq now event hdue hne hnot
    show (tryHandle ord kind now _ event).get q.2 = none
    rw [tryHandle_of_ne hne, ← Option.not_isSome_iff_eq_none, get_foldl]
    rintro (hstored | hput)
    · rw [get_evict_of_due hinv.sorted hq hdue] at hstored
      cases hstored
    · exact hnot hput

end Invariant

/-! ## Samples -/

/-- Entities that are their version and an identifier; an output is the identifier. -/
def sampleKind : EntityKind (OutputRef × ℕ) ℕ ℕ Unit where
  version := Prod.fst
  stableId := Prod.snd
  tryFromLedger := fun _ ref _ _ id => some (ref, id)

def sampleOpen : TxView ℕ Unit := ⟨0, [], [(0, 7)], ()⟩

def sampleSpend : TxView ℕ Unit := ⟨1, [toLex (0, 0)], [(0, 7)], ()⟩

def sampleOther : TxView ℕ Unit := ⟨2, [], [(0, 9)], ()⟩

/-- In a run that opens and spends an entity only the spent version is registered. -/
theorem fresh_sampleSpend :
    Fresh sampleKind (run .byKey sampleKind 10
      [(1, .txApplied sampleSpend), (0, .txApplied sampleOpen)]).history := by
  have hreg : ∀ e ∈ (run .byKey sampleKind 10
      [(1, .txApplied sampleSpend), (0, .txApplied sampleOpen)]).history,
      ∀ tr ∈ indexedTransitions e.event e.transitions,
        ∀ w ∈ (consumed? tr).map sampleKind.version, w = toLex (0, 0) := by
    decide +kernel
  have honly : ∀ v e, e ∈ (run .byKey sampleKind 10
      [(1, .txApplied sampleSpend), (0, .txApplied sampleOpen)]).history →
      e.Registers sampleKind v → v = toLex (0, 0) := by
    rintro v e he ⟨tr, htr, hv⟩
    exact hreg e he tr htr v hv
  have hdead : ¬ Live sampleKind (run .byKey sampleKind 10
      [(1, .txApplied sampleSpend), (0, .txApplied sampleOpen)]).history (toLex (0, 0)) := by
    decide +kernel
  have hfirst : ∀ e ∈ (run .byKey sampleKind 10 [(0, .txApplied sampleOpen)]).history,
      ∀ v, ¬ e.Registers sampleKind v := by
    have hnone : ∀ e ∈ (run .byKey sampleKind 10 [(0, .txApplied sampleOpen)]).history,
        ∀ tr ∈ indexedTransitions e.event e.transitions, consumed? tr = none := by
      decide +kernel
    rintro e he v ⟨tr, htr, hv⟩
    rw [hnone e he tr htr] at hv
    cases hv
  refine ⟨⟨trivial, fun v _ e he => hfirst e he v, fun _ v hv => nomatch hv⟩, ?_, ?_⟩
  · intro v hlive e he hv
    obtain rfl := honly v e he hv
    exact hdead hlive
  · intro _ v _ e he
    exact hfirst e he v

/-- The new version of a spent entity is live and stored. -/
theorem sampleSpend_kept :
    Live sampleKind (run .byKey sampleKind 10
        [(1, .txApplied sampleSpend), (0, .txApplied sampleOpen)]).history (toLex (1, 0)) ∧
      ((run .byKey sampleKind 10
        [(1, .txApplied sampleSpend), (0, .txApplied sampleOpen)]).index.get
          (toLex (1, 0))).isSome := by
  have hordered : Ordered .byKey sampleKind 10
      [(1, .txApplied sampleSpend), (0, .txApplied sampleOpen)] := by
    decide +kernel
  have hlive : Live sampleKind (run .byKey sampleKind 10
      [(1, .txApplied sampleSpend), (0, .txApplied sampleOpen)]).history (toLex (1, 0)) := by
    decide +kernel
  exact ⟨hlive, ((index_keeps_live hordered).1 fresh_sampleSpend).1 _ hlive⟩

/-- Versions that are revived are forgotten when the deadline passes that they were given before,
after a rollback and after a drop from the mempool alike. A transaction that is accepted first and
applied later starts the delay only once. -/
theorem sampleSpend_forgotten :
    (∀ es : List (ℕ × Event ℕ Unit),
      es = [(11, .txApplied sampleOther), (2, .txUnapplied sampleSpend),
        (1, .txApplied sampleSpend), (0, .txApplied sampleOpen)] ∨
      es = [(11, .txApplied sampleOther), (2, .txDropped sampleSpend),
        (1, .txAccepted sampleSpend), (0, .txApplied sampleOpen)] →
      Ordered .byKey sampleKind 10 es ∧
      Live sampleKind (run .byKey sampleKind 10 es).history (toLex (0, 0)) ∧
      (run .byKey sampleKind 10 es).index.get (toLex (0, 0)) = none) ∧
    (run .byKey sampleKind 10 [(11, .txApplied sampleOther), (9, .txApplied sampleSpend),
      (1, .txAccepted sampleSpend), (0, .txApplied sampleOpen)]).index.get (toLex (0, 0)) =
      none := by
  refine ⟨?_, by decide +kernel⟩
  rintro es (rfl | rfl)
  · decide +kernel
  · decide +kernel

end Splash.EventSink
