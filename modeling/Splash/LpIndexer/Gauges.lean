import Splash.LpIndexer.Store

/-!
# Gauges and pools

Weighting polls and the permission manager name gauges by their farms. The pool of a farm is known
from the creation of its gauge, in this block or in one before. Bindings are kept when a block is
rolled back.

* `resolveGauges` — the events of a block, with farms replaced by pools.
* `AgreeOff` — bindings that differ at some farms only.
* `AgreeOff.resolveGauges` — such bindings give the same events, when none of the farms is named.
* `AgreeOff.resolveGauges_left` — events that name no farm bound on the way are replaced one by one.
-/

namespace Splash.LpIndexer

abbrev FarmId := ℕ

/-- What is read from a transaction without knowledge of others. -/
inductive StatelessOnChainEvent where
  | position (e : PositionEvent)
  | gauge (farmId : FarmId) (poolId : PoolId)
  | pool (c : PoolCreated)
  | weightingPoll (distribution : List (FarmId × ℕ)) (totalPollWeight : Option ℕ) (epoch : ℕ)
  | permManager (suspendedFarms : List FarmId)

/-- The pool of each farm (`VoteEscrowIndex`). -/
abbrev Bindings := FarmId → Option PoolId

def boundPools (bindings : Bindings) (farms : List FarmId) : List PoolId :=
  farms.foldl (fun pools farm =>
    (bindings farm).elim pools fun pid => if pools.contains pid then pools else pools ++ [pid]) []

def resolveEvent (bindings : Bindings) : StatelessOnChainEvent → List OnChainEvent
  | .position e => [.account e]
  | .gauge _ _ => []
  | .pool c => [.pool c]
  | .weightingPoll distribution totalPollWeight epoch =>
      totalPollWeight.elim
        [.newWeightingPoll epoch (boundPools bindings (distribution.map Prod.fst))]
        fun total => distribution.filterMap fun x =>
          (bindings x.1).map fun pid => .gauge ⟨pid, ⟨x.2, total⟩, epoch⟩
  | .permManager suspendedFarms => [.permManagerUpdate (boundPools bindings suspendedFarms)]

def bindGauge (bindings : Bindings) : StatelessOnChainEvent → Bindings
  | .gauge farmId poolId => Function.update bindings farmId (some poolId)
  | _ => bindings

def resolveGauges (bindings : Bindings) :
    List StatelessOnChainEvent → Bindings × List OnChainEvent
  | [] => (bindings, [])
  | e :: events =>
    let rest := resolveGauges (bindGauge bindings e) events
    (rest.1, resolveEvent bindings e ++ rest.2)

/-! ## What translation depends on -/

namespace StatelessOnChainEvent

def created? : StatelessOnChainEvent → Option FarmId
  | gauge farmId _ => some farmId
  | _ => none

def named : StatelessOnChainEvent → List FarmId
  | weightingPoll distribution _ _ => distribution.map Prod.fst
  | permManager suspendedFarms => suspendedFarms
  | _ => []

end StatelessOnChainEvent

/-- The bindings differ at some farms only. -/
def AgreeOff (farms : List FarmId) (b b' : Bindings) : Prop := ∀ farm ∉ farms, b farm = b' farm

/-- The event names none of the farms. -/
def Avoids (farms : List FarmId) (e : StatelessOnChainEvent) : Prop := ∀ farm ∈ e.named, farm ∉ farms

theorem boundPools_congr {b b' : Bindings} {l : List FarmId} (h : ∀ farm ∈ l, b farm = b' farm) :
    boundPools b l = boundPools b' l := by
  unfold boundPools
  exact List.foldl_ext _ _ _ fun pools farm hfarm => by rw [h farm hfarm]

namespace AgreeOff

variable {farms : List FarmId} {b b' : Bindings}

theorem refl (farms : List FarmId) (b : Bindings) : AgreeOff farms b b := fun _ _ => rfl

theorem resolveEvent_eq (h : AgreeOff farms b b') {e : StatelessOnChainEvent} (he : Avoids farms e) :
    resolveEvent b e = resolveEvent b' e := by
  cases e with
  | position _ => rfl
  | gauge _ _ => rfl
  | pool _ => rfl
  | weightingPoll distribution total epoch =>
    have hsame : ∀ x ∈ distribution, b x.1 = b' x.1 := fun x hx =>
      h x.1 (he x.1 (List.mem_map_of_mem hx))
    cases total with
    | none =>
      have hpools : boundPools b (distribution.map Prod.fst) = boundPools b' (distribution.map Prod.fst) :=
        boundPools_congr fun farm hfarm => h farm (he farm hfarm)
      simp only [resolveEvent, Option.elim_none, hpools]
    | some total =>
      simp only [resolveEvent, Option.elim_some]
      exact List.filterMap_congr fun x hx => by rw [hsame x hx]
  | permManager suspended =>
    have hpools : boundPools b suspended = boundPools b' suspended :=
      boundPools_congr fun farm hfarm => h farm (he farm hfarm)
    simp only [resolveEvent, hpools]

theorem bindGauge (h : AgreeOff farms b b') (e : StatelessOnChainEvent) :
    AgreeOff farms (bindGauge b e) (bindGauge b' e) := by
  cases e with
  | gauge farmId poolId =>
    intro farm hfarm
    by_cases heq : farm = farmId
    · simp [LpIndexer.bindGauge, heq]
    · simp only [LpIndexer.bindGauge, Function.update_of_ne heq]
      exact h farm hfarm
  | _ => exact h

theorem bindGauge_left (h : AgreeOff farms b b') {e : StatelessOnChainEvent}
    (he : ∀ farm ∈ e.created?, farm ∈ farms) : AgreeOff farms (LpIndexer.bindGauge b e) b' := by
  cases e with
  | gauge farmId poolId =>
    intro farm hfarm
    have heq : farm ≠ farmId := fun heq => hfarm (heq ▸ he farmId rfl)
    simp only [LpIndexer.bindGauge, Function.update_of_ne heq]
    exact h farm hfarm
  | _ => exact h

variable {events : List StatelessOnChainEvent}

/-- The same events come out, when none of the farms is named. -/
theorem resolveGauges (h : AgreeOff farms b b') (he : ∀ e ∈ events, Avoids farms e) :
    AgreeOff farms (resolveGauges b events).1 (resolveGauges b' events).1 ∧
      (LpIndexer.resolveGauges b events).2 = (LpIndexer.resolveGauges b' events).2 := by
  induction events generalizing b b' with
  | nil => exact ⟨h, rfl⟩
  | cons e events ih =>
    obtain ⟨hhead, htail⟩ := List.forall_mem_cons.1 he
    obtain ⟨hbind, hout⟩ := ih (h.bindGauge e) htail
    refine ⟨hbind, ?_⟩
    simp only [LpIndexer.resolveGauges]
    rw [hout, h.resolveEvent_eq hhead]

/-- Events are replaced one by one, when the farms bound on the way are not named. -/
theorem resolveGauges_left (h : AgreeOff farms b b')
    (he : ∀ e ∈ events, Avoids farms e) (hc : ∀ e ∈ events, ∀ farm ∈ e.created?, farm ∈ farms) :
    AgreeOff farms (LpIndexer.resolveGauges b events).1 b' ∧
      (LpIndexer.resolveGauges b events).2 = events.flatMap (resolveEvent b') := by
  induction events generalizing b with
  | nil => exact ⟨h, rfl⟩
  | cons e events ih =>
    obtain ⟨hhead, htail⟩ := List.forall_mem_cons.1 he
    obtain ⟨hchead, hctail⟩ := List.forall_mem_cons.1 hc
    obtain ⟨hbind, hout⟩ := ih (h.bindGauge_left hchead) htail hctail
    refine ⟨hbind, ?_⟩
    simp only [LpIndexer.resolveGauges]
    rw [hout, h.resolveEvent_eq hhead, List.flatMap_cons]

end AgreeOff

end Splash.LpIndexer
