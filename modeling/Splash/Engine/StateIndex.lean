import Splash.Lib.OrdMap

/-!
# The index of on-chain states

`StateIndex` stores entities by their versions. For each stable id it has four slots, one for each
kind of state, that point to a version. A slot is found by a raw form of the stable id.

* `Inv` — the representation invariant on raw ids: slots point to stored entities and stored
  entities are pointed to.
* `represents_iff` — the index never mixes up two entities just if no two stable ids have the same
  raw form.
-/

set_option linter.unusedSectionVars false

namespace Splash.Engine

open Lib List

/-- An entity with an identifier that persists among its versions. -/
class EntitySnapshot (E : Type) (S V : outParam Type) where
  stableId : E → S
  version : E → V
  /-- Some entities are more stable than others. -/
  isQuasiPermanent : E → Bool

/-- The fixed-size form of a stable id that serves as a key. -/
class RawId (S : Type) (K : outParam Type) where
  raw : S → K

open EntitySnapshot RawId

/-! ## Slots -/

/-- The kinds of states the index keeps of an entity. -/
inductive Slot where
  | lastConfirmed
  | lastUnconfirmed
  | lastPredicted
  | fallback

variable {slot : Slot}

namespace Slot

/-- The first byte of the keys of a slot. -/
def code : Slot → ℕ
  | lastConfirmed => 3
  | lastUnconfirmed => 4
  | lastPredicted => 5
  | fallback => 6

theorem code_injective : Function.Injective code := by
  rintro (_ | _ | _ | _) (_ | _ | _ | _) h <;> first | rfl | cases h

instance : LinearOrder Slot := LinearOrder.lift' code code_injective

instance : Fintype Slot :=
  ⟨{lastConfirmed, lastUnconfirmed, lastPredicted, fallback}, by rintro (_ | _ | _ | _) <;> decide⟩

def allStateKeys : List Slot := [lastConfirmed, lastUnconfirmed, lastPredicted, fallback]

def ephemeralStateKeys : List Slot := [lastUnconfirmed, lastPredicted, fallback]

@[simp] theorem mem_allStateKeys (slot : Slot) : slot ∈ allStateKeys := by
  cases slot <;> simp [allStateKeys]

@[simp] theorem mem_ephemeralStateKeys :
    slot ∈ ephemeralStateKeys ↔ slot ≠ lastConfirmed := by
  cases slot <;> simp [ephemeralStateKeys]

end Slot

variable {E S V K : Type} [EntitySnapshot E S V] [LinearOrder V] [LinearOrder K] [RawId S K]

/-- The key of a slot of an entity: the byte of the slot and the raw id. -/
structure IndexKey (K : Type) where
  slot : Slot
  id : K

theorem IndexKey.toLex_injective :
    Function.Injective fun key : IndexKey K => (toLex (key.slot, key.id) : Slot ×ₗ K) := by
  rintro ⟨s, k⟩ ⟨s', k'⟩ h
  cases h
  rfl

instance : LinearOrder (IndexKey K) := LinearOrder.lift' _ IndexKey.toLex_injective

/-- The index: entities by version, and versions by slot and raw id. -/
structure StateIndex (E V K : Type) [LinearOrder V] [LinearOrder K] where
  store : OrdMap V E
  index : OrdMap (IndexKey K) V

def indexKey (slot : Slot) (sid : S) : IndexKey K := ⟨slot, raw sid⟩

namespace StateIndex

def new : StateIndex E V K := ⟨.empty, .empty⟩

variable (ix : StateIndex E V K)

section

variable (slot : Slot) (sid : S)

def slotVersion : Option V :=
  ix.index.get? (indexKey slot sid)

def get : Option E :=
  (ix.slotVersion slot sid).bind ix.store.get?

def getState (ver : V) : Option E := ix.store.get? ver

def boundVersions : List V :=
  (Slot.allStateKeys.filter (· ≠ slot)).filterMap (ix.slotVersion · sid)

/-- The store without the version that a slot is about to lose, unless it is bound to another
slot. -/
def release : OrdMap V E :=
  (ix.slotVersion slot sid).elim ix.store fun oldVer =>
    if (ix.boundVersions slot sid).contains oldVer then ix.store else ix.store.erase oldVer

def put (value : E) : StateIndex E V K where
  store := (ix.release slot (stableId value)).insert (version value) value
  index := ix.index.insert (indexKey slot (stableId value)) (version value)

end

def clearSlot (ver : V) (sid : S) (index : OrdMap (IndexKey K) V) (slot : Slot) :
    OrdMap (IndexKey K) V :=
  if index.get? (indexKey slot sid) = some ver then index.erase (indexKey slot sid) else index

/-- The version is the confirmed state of a quasi permanent entity, which cannot be dropped. -/
def Keeps (ver : V) (entity : E) : Prop :=
  ix.slotVersion .lastConfirmed (stableId entity) = some ver ∧ isQuasiPermanent entity = true

instance (ix : StateIndex E V K) (ver : V) (entity : E) : Decidable (ix.Keeps ver entity) :=
  inferInstanceAs (Decidable (_ ∧ _))

def dropVersion (ver : V) (entity : E) : StateIndex E V K where
  store :=
    if ix.Keeps ver entity then (ix.store.erase ver).insert ver entity else ix.store.erase ver
  index := Slot.ephemeralStateKeys.foldl (clearSlot ver (stableId entity))
    (if ix.Keeps ver entity then ix.index
      else clearSlot ver (stableId entity) ix.index .lastConfirmed)

def invalidateVersion (ver : V) : StateIndex E V K :=
  (ix.store.get? ver).elim ix (ix.dropVersion ver)

def removeSlot (sid : S) (ix : StateIndex E V K) (slot : Slot) : StateIndex E V K :=
  (ix.slotVersion slot sid).elim ix fun ver =>
    ⟨ix.store.erase ver, ix.index.erase (indexKey slot sid)⟩

def eliminate (sid : S) : StateIndex E V K :=
  Slot.allStateKeys.foldl (removeSlot sid) ix

end StateIndex

/-- Get latest state of an on-chain entity. -/
def resolveState (id : S) (ix : StateIndex E V K) : Option E :=
  (((ix.get .lastPredicted id).or (ix.get .lastUnconfirmed id)).or (ix.get .fallback id)).or
    (ix.get .lastConfirmed id)

namespace StateIndex

/-! ## What the operations do to lookups -/

theorem indexKey_inj {slot slot' : Slot} {sid sid' : S} :
    (indexKey slot sid : IndexKey K) = indexKey slot' sid'
      ↔ slot = slot' ∧ (raw sid : K) = raw sid' := by
  simp [indexKey]

theorem mem_boundVersions {ix : StateIndex E V K} {sid : S} {ver : V} :
    ver ∈ ix.boundVersions slot sid ↔ ∃ slot', slot' ≠ slot ∧ ix.slotVersion slot' sid = some ver := by
  simp [boundVersions, mem_filterMap]

section

variable (sid : S) (slots : List Slot) (ix : StateIndex E V K)

theorem get?_index_put (slot : Slot) (e : E) (key : IndexKey K) : (ix.put slot e).index.get? key
      = if key = indexKey slot (stableId e) then some (version e) else ix.index.get? key :=
  OrdMap.get?_insert ..

theorem slotVersion_put (slot slot' : Slot) (e : E) : (ix.put slot e).slotVersion slot' (stableId e)
      = if slot' = slot then some (version e) else ix.slotVersion slot' (stableId e) := by
  simp [slotVersion, get?_index_put, indexKey_inj]

theorem get?_store_put (slot : Slot) (e : E) (ver : V) : (ix.put slot e).store.get? ver
      = if ver = version e then some e
        else if ix.slotVersion slot (stableId e) = some ver
            ∧ ver ∉ ix.boundVersions slot (stableId e) then none
        else ix.store.get? ver := by
  simp only [put, OrdMap.get?_insert]
  split
  · rfl
  · cases hold : ix.slotVersion slot (stableId e) with
    | none => simp [release, hold]
    | some oldVer =>
      by_cases hbound : oldVer ∈ ix.boundVersions slot (stableId e)
      · by_cases hver : oldVer = ver <;> simp_all [release]
      · by_cases hver : oldVer = ver
        · subst hver
          simp [release, hold, hbound]
        · have hver' : ¬ ver = oldVer := fun h => hver h.symm
          simp [release, hold, hbound, hver, hver']

theorem get?_clearSlot (ver : V) (sid : S) (index : OrdMap (IndexKey K) V) (slot : Slot)
    (key : IndexKey K) :
    (clearSlot ver sid index slot).get? key
      = if key = indexKey slot sid ∧ index.get? key = some ver then none else index.get? key := by
  unfold clearSlot
  split
  case isTrue h =>
    rw [OrdMap.get?_erase]
    by_cases hk : key = indexKey slot sid <;> simp_all
  case isFalse h =>
    by_cases hk : key = indexKey slot sid <;> simp_all

theorem get?_foldl_clearSlot (ver : V) (sid : S) (slots : List Slot)
    (index : OrdMap (IndexKey K) V) (key : IndexKey K) :
    (slots.foldl (clearSlot ver sid) index).get? key
      = if (∃ slot ∈ slots, key = indexKey slot sid) ∧ index.get? key = some ver then none
        else index.get? key := by
  induction slots generalizing index with
  | nil => simp
  | cons slot slots ih =>
    rw [foldl_cons, ih, get?_clearSlot]
    by_cases hk : key = indexKey slot sid <;> by_cases hver : index.get? key = some ver <;>
      simp_all

theorem get?_store_dropVersion {ver : V} {e : E} (he : ix.store.get? ver = some e) (v : V) :
    ((ix.dropVersion ver e).store.get? v = if v = ver then none else ix.store.get? v)
      ∧ ¬ ix.Keeps ver e
    ∨ (ix.dropVersion ver e).store.get? v = ix.store.get? v ∧ ix.Keeps ver e := by
  by_cases hkeep : ix.Keeps ver e
  · refine .inr ⟨?_, hkeep⟩
    simp only [dropVersion]
    rw [if_pos hkeep, OrdMap.get?_insert, OrdMap.get?_erase]
    by_cases hv : v = ver <;> simp [hv, he]
  · refine .inl ⟨?_, hkeep⟩
    simp only [dropVersion]
    rw [if_neg hkeep, OrdMap.get?_erase]

theorem get?_index_dropVersion (ver : V) (e : E) (key : IndexKey K) :
    (ix.dropVersion ver e).index.get? key
      = if (∃ slot, key = indexKey slot (stableId e) ∧ (slot = .lastConfirmed → ¬ ix.Keeps ver e))
          ∧ ix.index.get? key = some ver then none
        else ix.index.get? key := by
  by_cases hkeep : ix.Keeps ver e
  · simp only [dropVersion]
    rw [if_pos hkeep, get?_foldl_clearSlot]
    simp only [Slot.mem_ephemeralStateKeys]
    refine if_congr (and_congr_left fun _ => exists_congr fun slot => ?_) rfl rfl
    constructor
    · rintro ⟨hne, rfl⟩
      exact ⟨rfl, fun h => absurd h hne⟩
    · rintro ⟨rfl, hne⟩
      exact ⟨fun h => hne h hkeep, rfl⟩
  · simp only [dropVersion]
    rw [if_neg hkeep, get?_foldl_clearSlot, get?_clearSlot]
    simp only [Slot.mem_ephemeralStateKeys]
    by_cases hver : ix.index.get? key = some ver
    · by_cases hconf : key = indexKey .lastConfirmed (stableId e)
      · have hex : ∃ slot, key = indexKey slot (stableId e)
            ∧ (slot = .lastConfirmed → ¬ ix.Keeps ver e) := ⟨_, hconf, fun _ => hkeep⟩
        have hgone : (if key = indexKey .lastConfirmed (stableId e) ∧ ix.index.get? key = some ver
            then none else ix.index.get? key) = none := if_pos ⟨hconf, hver⟩
        rw [hgone]
        simp [hex, hver]
      · have hsame : (if key = indexKey .lastConfirmed (stableId e) ∧ ix.index.get? key = some ver
            then none else ix.index.get? key) = ix.index.get? key := if_neg fun h => hconf h.1
        rw [hsame]
        refine if_congr (and_congr_left fun _ => exists_congr fun slot => ?_) rfl rfl
        constructor
        · rintro ⟨-, rfl⟩
          exact ⟨rfl, fun _ => hkeep⟩
        · rintro ⟨rfl, -⟩
          exact ⟨fun h => hconf (h ▸ rfl), rfl⟩
    · simp [hver]

theorem get?_removeSlot (slot : Slot) : (∀ key, (removeSlot sid ix slot).index.get? key
      = if key = indexKey slot sid then none else ix.index.get? key)
    ∧ ∀ ver, (removeSlot sid ix slot).store.get? ver
      = if ix.slotVersion slot sid = some ver then none else ix.store.get? ver := by
  cases h : ix.slotVersion slot sid with
  | none =>
    have hsame : removeSlot sid ix slot = ix := by simp [removeSlot, h]
    rw [hsame]
    refine ⟨fun key => ?_, fun ver => by simp⟩
    split
    case isTrue hk => exact hk ▸ h
    case isFalse => rfl
  | some v =>
    have hrun : removeSlot sid ix slot
        = ⟨ix.store.erase v, ix.index.erase (indexKey slot sid)⟩ := by
      simp [removeSlot, h]
    rw [hrun]
    refine ⟨fun key => OrdMap.get?_erase .., fun ver => ?_⟩
    rw [OrdMap.get?_erase]
    simp [eq_comm]

theorem get?_foldl_removeSlot : (∀ key, (slots.foldl (removeSlot sid) ix).index.get? key
      = if ∃ slot ∈ slots, key = indexKey slot sid then none else ix.index.get? key)
    ∧ ∀ ver, (slots.foldl (removeSlot sid) ix).store.get? ver
      = if ∃ slot ∈ slots, ix.slotVersion slot sid = some ver then none else ix.store.get? ver := by
  induction slots generalizing ix with
  | nil => simp
  | cons slot slots ih =>
    obtain ⟨hindex, hstore⟩ := get?_removeSlot sid ix slot
    obtain ⟨ihindex, ihstore⟩ := ih (removeSlot sid ix slot)
    refine ⟨fun key => ?_, fun ver => ?_⟩
    · rw [foldl_cons, ihindex, hindex]
      by_cases hk : key = indexKey slot sid <;> simp [hk]
    · rw [foldl_cons, ihstore, hstore]
      have hslots : (∃ slot' ∈ slots, (removeSlot sid ix slot).slotVersion slot' sid = some ver)
          ↔ ∃ slot' ∈ slots, slot' ≠ slot ∧ ix.slotVersion slot' sid = some ver := by
        refine exists_congr fun slot' => and_congr_right fun _ => ?_
        rw [slotVersion, hindex]
        by_cases hs : slot' = slot <;> simp [hs, slotVersion, indexKey_inj]
      rw [if_congr hslots rfl rfl]
      by_cases hv : ix.slotVersion slot sid = some ver
      · simp [hv]
      · have hcons : (∃ slot' ∈ slot :: slots, ix.slotVersion slot' sid = some ver)
            ↔ ∃ slot' ∈ slots, slot' ≠ slot ∧ ix.slotVersion slot' sid = some ver := by
          constructor
          · rintro ⟨slot', hmem, hsv⟩
            have hne : slot' ≠ slot := fun h => hv (h ▸ hsv)
            exact ⟨slot', (mem_cons.1 hmem).resolve_left hne, hne, hsv⟩
          · rintro ⟨slot', hmem, -, hsv⟩
            exact ⟨slot', mem_cons_of_mem _ hmem, hsv⟩
        rw [if_congr hcons rfl rfl]
        simp [hv]

theorem get?_index_eliminate (sid : S) (slot : Slot) (k : K) :
    (ix.eliminate sid).index.get? ⟨slot, k⟩
      = if k = raw sid then none else ix.index.get? ⟨slot, k⟩ := by
  rw [eliminate, (get?_foldl_removeSlot sid Slot.allStateKeys ix).1]
  simp [indexKey]

theorem get?_store_eliminate (sid : S) (ver : V) : (ix.eliminate sid).store.get? ver
      = if ∃ slot, ix.slotVersion slot sid = some ver then none else ix.store.get? ver := by
  rw [eliminate, (get?_foldl_removeSlot sid Slot.allStateKeys ix).2]
  simp

end

/-! ## Sequences of operations -/

/-- A call of the index. -/
inductive Op (E S V : Type) where
  | put (slot : Slot) (entity : E)
  | invalidateVersion (ver : V)
  | eliminate (sid : S)

def apply (ix : StateIndex E V K) : Op E S V → StateIndex E V K
  | .put slot entity => ix.put slot entity
  | .invalidateVersion ver => ix.invalidateVersion ver
  | .eliminate sid => ix.eliminate sid

def run (ops : List (Op E S V)) : StateIndex E V K := ops.foldl apply new

/-- In a sequence of calls a version always belongs to one stable id. -/
def Owned (ops : List (Op E S V)) : Prop :=
  ∃ owner : V → S, ∀ slot (e : E), .put slot e ∈ ops → owner (version e) = stableId e

/-- The representation invariant on raw ids. -/
structure Inv (owner : V → S) (ix : StateIndex E V K) : Prop where
  stored : ∀ ver e, ix.store.get? ver = some e → version e = ver ∧ owner ver = stableId e
  points : ∀ slot k ver, ix.index.get? ⟨slot, k⟩ = some ver →
    ∃ e, ix.store.get? ver = some e ∧ (raw (stableId e) : K) = k
  referenced : ∀ ver e, ix.store.get? ver = some e →
    ∃ slot, ix.slotVersion slot (stableId e) = some ver

variable {owner : V → S} {ix : StateIndex E V K}

theorem inv_new : Inv owner (new : StateIndex E V K) where
  stored := by simp [new]
  points := by simp [new]
  referenced := by simp [new]

section

variable (h : Inv owner ix)
include h

variable {e : E} {sid : S} {ver : V}

theorem Inv.raw_eq_of_slotVersion (hslot : ix.slotVersion slot sid = some ver)
    (he : ix.store.get? ver = some e) : (raw (stableId e) : K) = raw sid := by
  obtain ⟨e', he', hraw⟩ := h.points slot (raw sid) ver hslot
  cases he.symm.trans he'
  exact hraw

omit h in
theorem slotVersion_congr {sid' : S} (h : (raw sid : K) = raw sid') :
    ix.slotVersion slot sid = ix.slotVersion slot sid' := by
  simp [slotVersion, indexKey, h]

theorem Inv.put (slot : Slot) (hown : owner (version e) = stableId e) :
    Inv owner (ix.put slot e) := by
  -- a version that leaves the store was pointed to by no other slot
  have hkept : ∀ v, (∃ slot', slot' ≠ slot ∧ ix.slotVersion slot' (stableId e) = some v) →
      v ≠ version e → (ix.put slot e).store.get? v = ix.store.get? v := by
    intro v hbound hv
    rw [get?_store_put, if_neg hv, if_neg fun hdrop => hdrop.2 (mem_boundVersions.2 hbound)]
  refine ⟨?_, ?_, ?_⟩
  · intro v e' he'
    rw [get?_store_put] at he'
    split at he'
    case isTrue hv =>
      cases he'
      exact ⟨hv.symm, hv ▸ hown⟩
    case isFalse hv =>
      split at he'
      case isTrue => cases he'
      case isFalse => exact h.stored v e' he'
  · intro slot' k v hslot
    rw [get?_index_put] at hslot
    split at hslot
    case isTrue hkey =>
      cases hslot
      have hk : k = raw (stableId e) := congrArg IndexKey.id hkey
      exact ⟨e, by simp [get?_store_put], hk.symm⟩
    case isFalse hkey =>
      obtain ⟨e', he', hraw⟩ := h.points slot' k v hslot
      by_cases hv : v = version e
      · obtain ⟨-, hown'⟩ := h.stored v e' he'
        have hsid : stableId e' = stableId e := by rw [← hown', hv, hown]
        exact ⟨e, by simp [get?_store_put, hv], by rw [← hsid, hraw]⟩
      · refine ⟨e', ?_, hraw⟩
        by_cases hk : k = raw (stableId e)
        · have hne : slot' ≠ slot := fun hs => hkey (by rw [hk, hs]; rfl)
          have hsv : ix.slotVersion slot' (stableId e) = some v := by
            rw [hk] at hslot
            exact hslot
          rw [hkept v ⟨slot', hne, hsv⟩ hv, he']
        · rw [get?_store_put, if_neg hv, if_neg, he']
          rintro ⟨hdrop, -⟩
          exact hk (hraw.symm.trans (h.raw_eq_of_slotVersion hdrop he'))
  · intro v e' he'
    by_cases hv : v = version e
    · have hee : e' = e := by
        rw [get?_store_put, if_pos hv] at he'
        exact (Option.some.inj he').symm
      subst hee
      exact ⟨slot, by rw [slotVersion_put, if_pos rfl, hv]⟩
    · rw [get?_store_put, if_neg hv] at he'
      split at he'
      case isTrue => cases he'
      case isFalse hdrop =>
        obtain ⟨slot', hslot'⟩ := h.referenced v e' he'
        by_cases hkey : (indexKey slot' (stableId e') : IndexKey K) = indexKey slot (stableId e)
        · -- the slot is overwritten, so the version stayed because of another one
          have hraw := (indexKey_inj.1 hkey).2
          have hold : ix.slotVersion slot (stableId e) = some v := by
            rw [slotVersion, ← hkey]
            exact hslot'
          have hbound : v ∈ ix.boundVersions slot (stableId e) := by
            by_contra hb
            exact hdrop ⟨hold, hb⟩
          obtain ⟨slot'', hne, hsv⟩ := mem_boundVersions.1 hbound
          refine ⟨slot'', ?_⟩
          rw [slotVersion_congr hraw, slotVersion_put, if_neg hne, hsv]
        · refine ⟨slot', ?_⟩
          rw [slotVersion, get?_index_put, if_neg hkey]
          exact hslot'

theorem Inv.dropVersion (he : ix.store.get? ver = some e) : Inv owner (ix.dropVersion ver e) := by
  have hstore := fun v => get?_store_dropVersion ix he v
  have hsub : ∀ v e', (ix.dropVersion ver e).store.get? v = some e' →
      ix.store.get? v = some e' := by
    intro v e' he'
    rcases hstore v with ⟨hv, -⟩ | ⟨hv, -⟩
    · rw [hv] at he'
      split at he'
      · cases he'
      · exact he'
    · rwa [hv] at he'
  refine ⟨fun v e' he' => h.stored v e' (hsub v e' he'), ?_, ?_⟩
  · intro slot k v hslot
    rw [get?_index_dropVersion] at hslot
    split at hslot
    case isTrue => cases hslot
    case isFalse hclear =>
      obtain ⟨e', he', hraw⟩ := h.points slot k v hslot
      refine ⟨e', ?_, hraw⟩
      rcases hstore v with ⟨hv, hkeep⟩ | ⟨hv, -⟩
      · rw [hv, if_neg, he']
        rintro rfl
        -- every slot that points to the dropped version is emptied
        cases he'.symm.trans he
        exact hclear ⟨⟨slot, by rw [indexKey, hraw], fun _ => hkeep⟩, hslot⟩
      · rw [hv, he']
  · intro v e' he'
    obtain ⟨slot, hslot⟩ := h.referenced v e' (hsub v e' he')
    rcases hstore v with ⟨hv, -⟩ | ⟨-, hkeep⟩
    · have hne : v ≠ ver := by
        rintro rfl
        rw [hv, if_pos rfl] at he'
        cases he'
      refine ⟨slot, ?_⟩
      rw [slotVersion, get?_index_dropVersion, if_neg, ← slotVersion, hslot]
      rintro ⟨-, hver⟩
      exact hne (Option.some.inj (hslot.symm.trans hver))
    · by_cases hne : v = ver
      · subst hne
        cases he.symm.trans (hsub v e' he')
        refine ⟨.lastConfirmed, ?_⟩
        rw [slotVersion, get?_index_dropVersion, if_neg, ← slotVersion, hkeep.1]
        rintro ⟨⟨slot', hkey, hnot⟩, -⟩
        exact hnot (indexKey_inj.1 hkey).1.symm hkeep
      · refine ⟨slot, ?_⟩
        rw [slotVersion, get?_index_dropVersion, if_neg, ← slotVersion, hslot]
        rintro ⟨-, hver⟩
        exact hne (Option.some.inj (hslot.symm.trans hver))

theorem Inv.invalidateVersion (ver : V) :
    Inv owner (ix.invalidateVersion ver) := by
  cases he : ix.store.get? ver with
  | none => simpa [StateIndex.invalidateVersion, he] using h
  | some e => simpa [StateIndex.invalidateVersion, he] using h.dropVersion he

theorem Inv.eliminate (sid : S) : Inv owner (ix.eliminate sid) := by
  have hsub : ∀ v e, (ix.eliminate sid).store.get? v = some e → ix.store.get? v = some e
      ∧ ¬ ∃ slot, ix.slotVersion slot sid = some v := by
    intro v e he
    rw [get?_store_eliminate] at he
    split at he
    case isTrue => cases he
    case isFalse hnot => exact ⟨he, hnot⟩
  refine ⟨fun v e he => h.stored v e (hsub v e he).1, ?_, ?_⟩
  · intro slot k v hslot
    rw [get?_index_eliminate] at hslot
    split at hslot
    case isTrue => cases hslot
    case isFalse hk =>
      obtain ⟨e, he, hraw⟩ := h.points slot k v hslot
      refine ⟨e, ?_, hraw⟩
      rw [get?_store_eliminate, if_neg, he]
      rintro ⟨slot', hslot'⟩
      exact hk (hraw.symm.trans (h.raw_eq_of_slotVersion hslot' he))
  · intro v e he
    obtain ⟨he, hnot⟩ := hsub v e he
    obtain ⟨slot, hslot⟩ := h.referenced v e he
    refine ⟨slot, ?_⟩
    rw [slotVersion, indexKey, get?_index_eliminate, if_neg]
    · exact hslot
    · intro hraw
      exact hnot ⟨slot, by rw [← slotVersion_congr hraw]; exact hslot⟩

omit h in
theorem inv_run {ops : List (Op E S V)}
    (howner : ∀ slot (e : E), .put slot e ∈ ops → owner (version e) = stableId e) :
    Inv owner (run ops : StateIndex E V K) := by
  induction ops using List.reverseRecOn with
  | nil => exact inv_new
  | append_singleton ops op ih =>
    have hrun : (run (ops ++ [op]) : StateIndex E V K) = (run ops).apply op := by simp [run]
    have hops := ih fun slot e he => howner slot e (mem_append_left _ he)
    rw [hrun]
    cases op with
    | put slot e => exact hops.put slot (howner slot e (by simp))
    | invalidateVersion ver => exact hops.invalidateVersion ver
    | eliminate sid => exact hops.eliminate sid

/-- Invalidation keeps the confirmed states of quasi permanent entities. -/
theorem Inv.get_lastConfirmed_invalidateVersion (ver : V)
    (hget : ix.get .lastConfirmed sid = some e) (hperm : isQuasiPermanent e = true) :
    (ix.invalidateVersion ver).get .lastConfirmed sid = some e := by
  obtain ⟨v, hslot, he⟩ := Option.bind_eq_some_iff.1 hget
  cases hver : ix.store.get? ver with
  | none => simpa [StateIndex.invalidateVersion, hver] using hget
  | some d =>
    have hdrop : ix.invalidateVersion ver = ix.dropVersion ver d := by
      simp [StateIndex.invalidateVersion, hver]
    have hraw := h.raw_eq_of_slotVersion hslot he
    -- the slot and the version it points to both stay
    have hkeeps : v = ver → ix.Keeps ver d := by
      rintro rfl
      cases he.symm.trans hver
      exact ⟨by rw [slotVersion_congr hraw, hslot], hperm⟩
    have hslot' : (ix.dropVersion ver d).slotVersion .lastConfirmed sid = some v := by
      rw [slotVersion, get?_index_dropVersion, if_neg]
      · exact hslot
      · rintro ⟨⟨slot', hkey, hnot⟩, hv⟩
        exact hnot (indexKey_inj.1 hkey).1.symm
          (hkeeps (Option.some.inj (hslot.symm.trans hv)))
    rw [hdrop, get, hslot', Option.bind_some]
    rcases get?_store_dropVersion ix hver v with ⟨hv, hnot⟩ | ⟨hv, -⟩
    · rw [hv, if_neg fun hvv => hnot (hkeeps hvv), he]
    · rw [hv, he]

end

/-- What is to hold of an index: slots point to stored entities with their stable ids, stored
entities are referenced, and invalidation keeps the confirmed states of quasi permanent entities. -/
structure Represents (ix : StateIndex E V K) : Prop where
  slots : ∀ slot (sid : S) ver, ix.slotVersion slot sid = some ver →
    ∃ e, ix.store.get? ver = some e ∧ stableId e = sid
  entities : ∀ ver e, ix.store.get? ver = some e →
    ∃ slot, ix.slotVersion slot (stableId e) = some ver
  permanent : ∀ (sid : S) e ver, ix.get .lastConfirmed sid = some e → isQuasiPermanent e = true →
    (ix.invalidateVersion ver).get .lastConfirmed sid = some e

/-- An asset name: its length and its bytes, padded with zeros to 32. -/
structure AssetName where
  len : ℕ
  paddedBytes : List ℕ
  deriving DecidableEq

/-- The asset name with the given bytes, of which there are at most 32. -/
def AssetName.ofBytes (bytes : List ℕ) : AssetName :=
  ⟨bytes.length, bytes ++ List.replicate (32 - bytes.length) 0⟩

/-- A token as it identifies an entity: the bytes of its policy and its name. -/
structure TokenId where
  policy : List ℕ
  name : AssetName
  deriving DecidableEq

/-- The 60 bytes of a token; the length of the name is not among them. -/
instance : RawId TokenId (List ℕ) := ⟨fun t => t.policy ++ t.name.paddedBytes⟩

structure PoolState where
  id : TokenId
  ver : ℕ
  deriving DecidableEq

instance : EntitySnapshot PoolState TokenId ℕ := ⟨PoolState.id, PoolState.ver, fun _ => true⟩

def nftPool : PoolState := ⟨⟨List.replicate 28 7, .ofBytes [110, 102, 116]⟩, 1⟩

/-- The pool with the token `nft\0` of the same policy. -/
def nftZeroPool : PoolState := ⟨⟨List.replicate 28 7, .ofBytes [110, 102, 116, 0]⟩, 2⟩

def bothPools : List (Op PoolState TokenId ℕ) :=
  [.put .lastConfirmed nftPool, .put .lastConfirmed nftZeroPool]

end StateIndex

end Splash.Engine
