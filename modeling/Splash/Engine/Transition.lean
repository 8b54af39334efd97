import Splash.Data.CircularFilter
import Splash.Engine.StateIndex

/-!
# Transitions of on-chain states

Transitions of entities come from the ledger, from the mempool and from transactions of the
executor itself. `updateState` takes note of one and says how the resolved state of the entity
changed.

* `resolveState_updateState_iff` — the next state of a transition is resolved just if no slot that
  is read before the written one holds a state.
-/

namespace Splash.Engine

open Lib Data EntitySnapshot RawId

/-- One of two values, or both. -/
inductive Ior (A B : Type) where
  | left (a : A)
  | right (b : B)
  | both (a : A) (b : B)
  deriving DecidableEq

inductive Channel where
  | ledger
  | mempool
  | localTxSubmit
  deriving DecidableEq

/-- A state transition (left: old state, right: new state), or the rollback of one (left: rolled
back state, right: revived state). -/
inductive Transition (E : Type) where
  | forward (states : Ior E E)
  | backward (states : Ior E E)

variable {E S V K : Type} [EntitySnapshot E S V] [LinearOrder V] [LinearOrder K] [RawId S K]

/-- The states the executor knows, and the versions it does not want to hear of. -/
structure States (E V K : Type) [LinearOrder V] [LinearOrder K] where
  index : StateIndex E V K
  skipFilter : CircularFilter 256 V

def Channel.slot : Channel → Slot
  | ledger => .lastConfirmed
  | mempool => .lastUnconfirmed
  | localTxSubmit => .lastPredicted

/-- How a resolved state changed. -/
def toTransition : Option E → Option E → Option (Ior E E)
  | some elim, none => some (.left elim)
  | none, some new => some (.right new)
  | some prev, some new => some (.both prev new)
  | none, none => none

namespace States

section

variable (st : States E V K) (channel : Channel)

def skip (newState : E) : States E V K :=
  { st with
    index := st.index.put (if channel = .ledger then .lastConfirmed else .fallback) newState }

/-- A transition to a new state; `rolledBack` is the version that is rolled back. -/
def observe (rolledBack : Option V) (newState : E) : States E V K × Option (Ior E E) :=
  let id := stableId newState
  let index := (rolledBack.elim st.index st.index.invalidateVersion).put channel.slot newState
  ({ st with index }, toTransition (resolveState id st.index) (resolveState id index))

/-- The states after an entity is gone. -/
def vanish (state : E) : States E V K :=
  if channel = .ledger ∨ ¬ isQuasiPermanent state then
    { st with index := st.index.eliminate (stableId state) }
  else st

def updateState : Transition E → States E V K × Option (Ior E E)
  | .forward (.right newState) | .forward (.both _ newState) =>
    if st.skipFilter.contains (version newState) then (st.skip channel newState, none)
    else st.observe channel none newState
  | .backward (.right newState) =>
    { st with skipFilter := st.skipFilter.remove (version newState) }.observe channel none newState
  | .backward (.both rolledBack newState) =>
    { st with skipFilter := st.skipFilter.remove (version newState) }.observe channel
      (some (version rolledBack)) newState
  | .forward (.left state) | .backward (.left state) => (st.vanish channel state, some (.left state))

end

end States

/-! ## Freshness of the resolved state -/

namespace Slot

def readOrder : List Slot := [lastPredicted, lastUnconfirmed, fallback, lastConfirmed]

def readBefore (slot : Slot) : List Slot := readOrder.takeWhile (· ≠ slot)

end Slot

omit [EntitySnapshot E S V] in
theorem resolveState_eq_findSome? (id : S) (ix : StateIndex E V K) :
    resolveState id ix = Slot.readOrder.findSome? (ix.get · id) := by
  simp only [resolveState, Slot.readOrder, List.findSome?]
  cases ix.get .lastPredicted id <;> cases ix.get .lastUnconfirmed id <;>
    cases ix.get .fallback id <;> cases ix.get .lastConfirmed id <;> rfl

namespace StateIndex

variable {owner : V → S} {ix : StateIndex E V K}

variable {e : E} {slot slot' : Slot}

theorem Inv.get_eq_none_iff (h : Inv owner ix) {sid : S} :
    ix.get slot sid = none ↔ ix.slotVersion slot sid = none := by
  constructor
  · intro hget
    cases hslot : ix.slotVersion slot sid with
    | none => rfl
    | some v =>
      obtain ⟨e, he, -⟩ := h.points slot (raw sid) v hslot
      simp [get, hslot, he] at hget
  · intro hslot
    simp [get, hslot]

theorem get_put_same (ix : StateIndex E V K) (slot : Slot) (e : E) :
    (ix.put slot e).get slot (stableId e) = some e := by
  simp [get, slotVersion_put, get?_store_put]

/-- A slot that is not written keeps its state, unless it holds the version that is put. -/
theorem Inv.get_put_of_ne (h : Inv owner ix) (hne : slot' ≠ slot) {cur : E}
    (hget : ix.get slot' (stableId e) = some cur) (hver : version cur ≠ version e) :
    (ix.put slot e).get slot' (stableId e) = some cur := by
  obtain ⟨v, hslot, hcur⟩ := Option.bind_eq_some_iff.1 hget
  have hv : v ≠ version e := by
    rw [← (h.stored v cur hcur).1]
    exact hver
  have hbound : v ∈ ix.boundVersions slot (stableId e) := mem_boundVersions.2 ⟨slot', hne, hslot⟩
  rw [get, slotVersion_put, if_neg hne, hslot, Option.bind_some, get?_store_put, if_neg hv,
    if_neg fun hdrop => hdrop.2 hbound, hcur]

theorem Inv.get_put_eq_none (h : Inv owner ix) (hne : slot' ≠ slot)
    (hget : ix.get slot' (stableId e) = none) : (ix.put slot e).get slot' (stableId e) = none := by
  rw [get, slotVersion_put, if_neg hne, h.get_eq_none_iff.1 hget, Option.bind_none]

end StateIndex

open StateIndex

/-- A state in a slot read before the written one hides what is written. -/
theorem resolveState_put_iff {owner : V → S} {ix : StateIndex E V K} (h : Inv owner ix) {slot : Slot}
    {cur new : E} (hcur : resolveState (stableId new) ix = some cur)
    (hver : version new ≠ version cur) :
    resolveState (stableId new) (ix.put slot new) = some new
      ↔ ∀ slot' ∈ slot.readBefore, ix.get slot' (stableId new) = none := by
  have hsplit : Slot.readOrder = slot.readBefore ++ slot :: (Slot.readOrder.dropWhile (· ≠ slot)).tail := by
    cases slot <;> decide
  have hne : ∀ slot' ∈ slot.readBefore, slot' ≠ slot := by
    intro slot' hmem
    simpa using List.mem_takeWhile_imp hmem
  rw [resolveState_eq_findSome?] at hcur
  rw [resolveState_eq_findSome?, hsplit, List.findSome?_append, List.findSome?_cons,
    get_put_same]
  constructor
  · intro hnew
    by_contra hhidden
    -- the first state that is read before the written slot is the resolved one
    have hfirst : slot.readBefore.findSome? (ix.get · (stableId new)) = some cur := by
      rw [hsplit, List.findSome?_append] at hcur
      cases hf : slot.readBefore.findSome? (ix.get · (stableId new)) with
      | none => exact absurd (List.findSome?_eq_none_iff.1 hf) hhidden
      | some e =>
        rw [hf] at hcur
        exact hcur
    obtain ⟨l₁, slot', l₂, hl, hget, hnone⟩ := List.findSome?_eq_some_iff.1 hfirst
    have hstill : slot.readBefore.findSome? ((ix.put slot new).get · (stableId new)) = some cur := by
      refine List.findSome?_eq_some_iff.2 ⟨l₁, slot', l₂, hl, ?_, ?_⟩
      · exact h.get_put_of_ne (hne slot' (by simp [hl])) hget fun hv => hver hv.symm
      · intro s hs
        exact h.get_put_eq_none (hne s (by simp [hl, hs])) (hnone s hs)
    rw [hstill] at hnew
    exact hver (congrArg version (Option.some.inj hnew)).symm
  · intro hfree
    have hnone : slot.readBefore.findSome? ((ix.put slot new).get · (stableId new)) = none :=
      List.findSome?_eq_none_iff.2 fun s hs => h.get_put_eq_none (hne s hs) (hfree s hs)
    rw [hnone]
    rfl

/-- **The next state of a transition is resolved just if no slot that is read before the written one
holds a state.** -/
theorem resolveState_updateState_iff (ops : List (Op E S V)) (howned : Owned ops)
    (skipFilter : CircularFilter 256 V) (channel : Channel) (old new cur : E)
    (hcur : resolveState (stableId new) (run ops : StateIndex E V K) = some cur)
    (hnext : version new ≠ version cur) (hskip : skipFilter.contains (version new) = false) :
    resolveState (stableId new)
        (States.updateState ⟨run ops, skipFilter⟩ channel (.forward (.both old new))).1.index
        = some new
      ↔ ∀ slot ∈ channel.slot.readBefore,
          (run ops : StateIndex E V K).get slot (stableId new) = none := by
  obtain ⟨owner, howner⟩ := howned
  have hinv : Inv owner (run ops : StateIndex E V K) := inv_run howner
  have hindex : (States.updateState (⟨run ops, skipFilter⟩ : States E V K) channel
      (.forward (.both old new))).1.index = (run ops : StateIndex E V K).put channel.slot new := by
    simp [States.updateState, hskip, States.observe]
  rw [hindex]
  exact resolveState_put_iff hinv hcur hnext

def poolVersion (ver : ℕ) : PoolState := ⟨nftPool.id, ver⟩

/-- A transaction seen in the mempool right after the confirmed state is resolved. -/
theorem mempool_update_resolved :
    resolveState nftPool.id (States.updateState
      (⟨run [.put .lastConfirmed (poolVersion 0)], .new⟩ : States PoolState ℕ (List ℕ)) .mempool
      (.forward (.both (poolVersion 0) (poolVersion 1)))).1.index = some (poolVersion 1) := by
  refine (resolveState_updateState_iff (K := List ℕ) [.put .lastConfirmed (poolVersion 0)] ?_ .new
    .mempool (poolVersion 0) (poolVersion 1) (poolVersion 0) (by decide +kernel) (by decide)
    (by decide)).2 (by decide +kernel)
  exact ⟨fun _ => nftPool.id, fun slot e he => by
    cases List.mem_singleton.1 he
    rfl⟩

/-- A pool whose swap was seen in the mempool and then confirmed. -/
def confirmedSwap : States PoolState ℕ (List ℕ) :=
  ((States.updateState ⟨run [.put .lastConfirmed (poolVersion 0)], .new⟩ .mempool
    (.forward (.both (poolVersion 0) (poolVersion 1)))).1.updateState .ledger
    (.forward (.both (poolVersion 0) (poolVersion 1)))).1

/-- The next confirmed transition does not reach the resolved state: the unconfirmed slot still
holds the version before it. -/
theorem confirmedSwap_stale :
    resolveState nftPool.id confirmedSwap.index = some (poolVersion 1) ∧
    confirmedSwap.skipFilter.contains (version (poolVersion 2)) = false ∧
    resolveState nftPool.id (confirmedSwap.updateState .ledger
      (.forward (.both (poolVersion 1) (poolVersion 2)))).1.index = some (poolVersion 1) := by
  refine ⟨by decide +kernel, by decide +kernel, by decide +kernel⟩

end Splash.Engine
