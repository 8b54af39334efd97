import Splash.Dao.Routine

/-!
# Running the epochs

Polls are created when the routine asks for one, get votes while their epoch is open, give away
their weights afterwards and are eliminated after the cooldown. Time passes between all of that, and
epochs may be missed.

* `Reachable` — what is reached from the deployment.
* `Reachable.consistent` — the projections are consistent in every state reached.
* `phasesInOrder_iff` — the phases of a poll are seen in order, unless the first poll is read at the
  very start of the first epoch.
* `overdue_iff` — in the first centuries a poll is overdue exactly in the time between ten minutes
  and an hour after its end, if a weight is left.
* **`Reachable.sound_iff`** — when a reading is sound.
-/

namespace Splash.Dao

open Lib WeightingPoll Function InflationBox Option

/-! ## Tables -/

section Tables

variable {α β : Type} [DecidableEq α] {table : α → Option β} {a b : α} {v x : β}

theorem of_update_eq_some (h : update table a (some v) b = some x) :
    b = a ∧ x = v ∨ b ≠ a ∧ table b = some x := by
  by_cases heq : b = a
  · subst heq
    rw [update_self] at h
    exact .inl ⟨rfl, (Option.some.inj h).symm⟩
  · rw [update_of_ne heq] at h
    exact .inr ⟨heq, h⟩

theorem update_eq_none_iff :
    update table a (some v) b = none ↔ b ≠ a ∧ table b = none := by
  by_cases heq : b = a
  · subst heq
    rw [update_self]
    exact ⟨nofun, fun h => absurd rfl h.1⟩
  · rw [update_of_ne heq]
    exact ⟨fun h => ⟨heq, h⟩, fun h => h.2⟩

theorem update_eq_none_iff_of_known (h : table a ≠ none) :
    update table a (some v) b = none ↔ table b = none := by
  rw [update_eq_none_iff]
  refine ⟨fun hnone => hnone.2, fun hnone => ⟨?_, hnone⟩⟩
  rintro rfl
  exact h hnone

end Tables

/-! ## Worlds and steps -/

/-- The projections at a network time in seconds. -/
structure World (F P : Type) where
  projections : Projections F P
  networkTime : ℕ

/-- The time in milliseconds. -/
def World.now {F P : Type} (w : World F P) : ℕ := w.networkTime * 1000

section Runs

variable {F P O : Type}

def deployed (splashReserves : ℕ) (activeFarms : List FarmId) (smartFarm : FarmId → Option F)
    (permManager : P) : Projections F P where
  inflationBox := update (fun _ => none) 0
    (some { lastProcessedEpoch := none, splashReserves := splashReserves })
  pollFactory := update (fun _ => none) 0
    (some { lastPollEpoch := none, activeFarms := activeFarms })
  weightingPoll := fun _ => none
  smartFarm := smartFarm
  permManager := some permManager

namespace Projections

section

variable (s : Projections F P) (farm : FarmId)

def putPoll (epoch : ℕ) (poll : WeightingPoll) : Projections F P :=
  { s with weightingPoll := update s.weightingPoll epoch (some poll) }

def putFactory (id : ℕ) (factory : PollFactory) : Projections F P :=
  { s with pollFactory := update s.pollFactory id (some factory) }

def putFarm (entity : F) : Projections F P :=
  { s with smartFarm := update s.smartFarm farm (some entity) }

/-- Stores a new poll with the box and the factory after it. -/
def putCreated (box : InflationBox) (factory : PollFactory) (poll : WeightingPoll) :
    Projections F P :=
  { s with
    inflationBox := update s.inflationBox box.stableId (some box)
    pollFactory := update s.pollFactory factory.stableId (some factory)
    weightingPoll := update s.weightingPoll poll.epoch (some poll) }

end

end Projections

variable (nextOrder : WeightingPoll → Option O) (genesis : ℕ)

inductive Step : World F P → World F P → Prop where
  /-- Time passes. -/
  | wait {s : Projections F P} {t t' : ℕ} (hle : t ≤ t') : Step ⟨s, t⟩ ⟨s, t'⟩
  /-- The routine creates the poll of the current epoch. -/
  | createPoll {s : Projections F P} {t : ℕ} {state : RoutineState F P O}
      {box box' : InflationBox} {factory : PollFactory} {rate : ℕ}
      (hread : s.readState nextOrder genesis t = .ok state)
      (hpending : state.currentEpochState = .pendingCreatePoll box factory)
      (hrelease : box.releaseNextTranche = .ok (box', rate)) :
      Step ⟨s, t⟩ ⟨s.putCreated box' (factory.nextWeightingPoll rate).1
        (factory.nextWeightingPoll rate).2, t⟩
  /-- A vote is applied to a poll that is open. -/
  | vote {s : Projections F P} {t epoch : ℕ} {poll poll' : WeightingPoll}
      {votes : List (FarmId × ℕ)} (power : Option ℕ)
      (hpoll : s.weightingPoll epoch = some poll)
      (hopen : poll.weightingOpen genesis (t * 1000) = true)
      (hvotes : poll.applyVotes votes = .ok poll') :
      Step ⟨s, t⟩ ⟨s.putPoll epoch { poll' with weightingPower := power }, t⟩
  /-- Some of the emission goes to a farm after the end of the epoch. -/
  | distribute {s : Projections F P} {t epoch weight : ℕ} {farm : FarmId}
      {poll : WeightingPoll} {distribution : List (FarmId × ℕ)} (remaining : ℕ)
      (hpoll : s.weightingPoll epoch = some poll)
      (hover : epochEnd genesis epoch ≤ t * 1000)
      (htake : takeWeight farm weight poll.distribution = .ok distribution) :
      Step ⟨s, t⟩ ⟨s.putPoll epoch { poll with
        distribution := distribution, remainingSplashEmission := remaining }, t⟩
  /-- A poll is eliminated. -/
  | eliminate {s : Projections F P} {t epoch : ℕ} {poll : WeightingPoll}
      (hpoll : s.weightingPoll epoch = some poll)
      (hcan : poll.canBeEliminated genesis (t * 1000) = true) :
      Step ⟨s, t⟩ ⟨s.putPoll epoch { poll with eliminated := true }, t⟩
  /-- A farm becomes known. -/
  | addFarm {s : Projections F P} {t : ℕ} (farm : FarmId) (entity : F) :
      Step ⟨s, t⟩ ⟨s.putFarm farm entity, t⟩
  /-- The farms of the coming epochs are replaced. -/
  | setFarms {s : Projections F P} {t id : ℕ} {factory : PollFactory}
      (activeFarms : List FarmId) (hfactory : s.pollFactory id = some factory)
      (hfarms : ∀ farm ∈ activeFarms, s.smartFarm farm ≠ none) :
      Step ⟨s, t⟩ ⟨s.putFactory id { factory with activeFarms := activeFarms }, t⟩

inductive Reachable : World F P → Prop where
  | deploy (splashReserves : ℕ) {activeFarms : List FarmId} {smartFarm : FarmId → Option F}
      (permManager : P) {t : ℕ} (hfarms : ∀ farm ∈ activeFarms, smartFarm farm ≠ none)
      (hsince : genesis ≤ t * 1000) :
      Reachable ⟨deployed splashReserves activeFarms smartFarm permManager, t⟩
  | step {w w' : World F P} (h : Reachable w) (hstep : Step nextOrder genesis w w') :
      Reachable w'

/-! ## Consistency -/

theorem consistent_deployed {splashReserves : ℕ} {activeFarms : List FarmId}
    {smartFarm : FarmId → Option F} {permManager : P} {now : ℕ}
    (hfarms : ∀ farm ∈ activeFarms, smartFarm farm ≠ none) (hsince : genesis ≤ now) :
    (deployed splashReserves activeFarms smartFarm permManager).Consistent 0 genesis now where
  since := hsince
  boxes id := by
    by_cases hid : id = 0 <;> simp [deployed, hid, Nat.pos_iff_ne_zero]
  box_id {id box} hbox := by
    by_cases hid : id = 0
    · subst hid
      cases hbox
      rfl
    · simp [deployed, hid] at hbox
  factories id := by
    by_cases hid : id = 0 <;> simp [deployed, hid, Nat.pos_iff_ne_zero]
  factory_id {id factory} hfactory := by
    by_cases hid : id = 0
    · subst hid
      cases hfactory
      rfl
    · simp [deployed, hid] at hfactory
  factory_farms {id factory} hfactory := by
    by_cases hid : id = 0
    · subst hid
      cases hfactory
      exact hfarms
    · simp [deployed, hid] at hfactory
  polls epoch := ⟨fun _ => Nat.zero_le _, fun _ => rfl⟩
  poll_epoch h := nomatch h
  poll_farms h := nomatch h
  created epoch _ hlt := absurd hlt (Nat.not_lt_zero _)
  eliminated h := nomatch h
  permManager_known := some_ne_none _

variable {count : ℕ} {epoch : ℕ} {poll : WeightingPoll}

namespace Projections

variable {nextOrder genesis} {s : Projections F P} {count now : ℕ}

section

variable (h : s.Consistent count genesis now)
include h

theorem Consistent.mono {now' : ℕ} (hle : now ≤ now') :
    s.Consistent count genesis now' where
  since := h.since.trans hle
  boxes := h.boxes
  box_id := h.box_id
  factories := h.factories
  factory_id := h.factory_id
  factory_farms := h.factory_farms
  polls := h.polls
  poll_epoch := h.poll_epoch
  poll_farms := h.poll_farms
  created epoch hpos hlt := (h.created epoch hpos hlt).trans hle
  eliminated hpoll helim := ⟨(h.eliminated hpoll helim).1, (h.eliminated hpoll helim).2.trans_le hle⟩
  permManager_known := h.permManager_known

theorem Consistent.putPoll
    {poll poll' : WeightingPoll} (hpoll : s.weightingPoll epoch = some poll)
    (hepoch : poll'.epoch = poll.epoch)
    (hfarms : poll'.distribution.map (·.1) = poll.distribution.map (·.1))
    (helim : poll'.eliminated = true → poll'.nextFarm = none ∧
      epochEnd genesis epoch + cooldownPeriodMillis + cooldownPeriodExtraBuffer < now) :
    (s.putPoll epoch poll').Consistent count genesis now := by
  refine { h with polls := ?_, poll_epoch := ?_, poll_farms := ?_, eliminated := ?_ }
  · intro e
    exact (update_eq_none_iff_of_known (hpoll ▸ some_ne_none _)).trans (h.polls e)
  · intro e p hp
    obtain ⟨rfl, rfl⟩ | ⟨-, hold⟩ := of_update_eq_some hp
    · exact hepoch.trans (h.poll_epoch hpoll)
    · exact h.poll_epoch hold
  · intro e p hp entry hentry
    obtain ⟨rfl, rfl⟩ | ⟨-, hold⟩ := of_update_eq_some hp
    · have hmem : entry.1 ∈ poll.distribution.map (·.1) := hfarms ▸ List.mem_map_of_mem hentry
      obtain ⟨old, hold, hfst⟩ := List.mem_map.1 hmem
      rw [← hfst]
      exact h.poll_farms hpoll old hold
    · exact h.poll_farms hold entry hentry
  · intro e p hp hflag
    obtain ⟨rfl, rfl⟩ | ⟨-, hold⟩ := of_update_eq_some hp
    · exact helim hflag
    · exact h.eliminated hold hflag

theorem Consistent.putFarm (farm : FarmId) (entity : F) :
    (s.putFarm farm entity).Consistent count genesis now := by
  have hknown : ∀ other, s.smartFarm other ≠ none → (s.putFarm farm entity).smartFarm other ≠ none := by
    intro other hother hnone
    exact hother (update_eq_none_iff.1 hnone).2
  exact { h with
    factory_farms := fun hf farm hfarm => hknown farm (h.factory_farms hf farm hfarm)
    poll_farms := fun hp entry hentry => hknown _ (h.poll_farms hp entry hentry) }

theorem Consistent.putFactory {id : ℕ}
    {factory factory' : PollFactory} (hfactory : s.pollFactory id = some factory)
    (hid : factory'.stableId = factory.stableId)
    (hfarms : ∀ farm ∈ factory'.activeFarms, s.smartFarm farm ≠ none) :
    (s.putFactory id factory').Consistent count genesis now := by
  refine { h with factories := ?_, factory_id := ?_, factory_farms := ?_ }
  · intro i
    exact (update_eq_none_iff_of_known (hfactory ▸ some_ne_none _)).trans (h.factories i)
  · intro i f hf
    obtain ⟨rfl, rfl⟩ | ⟨-, hold⟩ := of_update_eq_some hf
    · exact hid.trans (h.factory_id hfactory)
    · exact h.factory_id hold
  · intro i f hf
    obtain ⟨rfl, rfl⟩ | ⟨-, hold⟩ := of_update_eq_some hf
    · exact hfarms
    · exact h.factory_farms hold

/-- The epoch for which a poll is asked is the next one, and it has begun. -/
theorem Consistent.next_of_absent {current : ℕ}
    (hcurrent : s.ReportsCurrent genesis now current) (hnone : s.weightingPoll current = none) :
    min (timeMillisToEpoch now genesis) count = count ∧
      (0 < count → epochStart genesis count + epochBoundaryShift ≤ now) := by
  have hcount := (h.polls current).1 hnone
  obtain ⟨hzero, rfl⟩ | ⟨last, hlast, ⟨rfl, -⟩ | ⟨rfl, hend⟩⟩ := h.reportsCurrent_cases hcurrent
  · omega
  · omega
  · have hcount' : count = last + 1 := by omega
    rw [epochEnd_eq, ← hcount'] at hend
    omega

theorem Consistent.putCreated {box : InflationBox}
    {factory : PollFactory}
    (hbox : box.stableId = count + 1) (hfactory : factory.stableId = count + 1)
    (hfarms : ∀ farm ∈ factory.activeFarms, s.smartFarm farm ≠ none)
    (hepoch : poll.epoch = count) (hlive : poll.eliminated = false)
    (hpoll : ∀ entry ∈ poll.distribution, s.smartFarm entry.1 ≠ none)
    (hstart : 0 < count → epochStart genesis count + epochBoundaryShift ≤ now) :
    (s.putCreated box factory poll).Consistent (count + 1) genesis now where
  since := h.since
  boxes id := by
    refine update_eq_none_iff.trans ?_
    rw [h.boxes, hbox]
    omega
  box_id {id found} hread := by
    obtain ⟨rfl, rfl⟩ | ⟨-, hold⟩ := of_update_eq_some hread
    · rfl
    · exact h.box_id hold
  factories id := by
    refine update_eq_none_iff.trans ?_
    rw [h.factories, hfactory]
    omega
  factory_id {id found} hread := by
    obtain ⟨rfl, rfl⟩ | ⟨-, hold⟩ := of_update_eq_some hread
    · rfl
    · exact h.factory_id hold
  factory_farms {id found} hread := by
    obtain ⟨rfl, rfl⟩ | ⟨-, hold⟩ := of_update_eq_some hread
    · exact hfarms
    · exact h.factory_farms hold
  polls epoch := by
    refine update_eq_none_iff.trans ?_
    rw [h.polls, hepoch]
    omega
  poll_epoch {epoch p} hread := by
    obtain ⟨rfl, rfl⟩ | ⟨-, hold⟩ := of_update_eq_some hread
    · rfl
    · exact h.poll_epoch hold
  poll_farms {epoch p} hread := by
    obtain ⟨rfl, rfl⟩ | ⟨-, hold⟩ := of_update_eq_some hread
    · exact hpoll
    · exact h.poll_farms hold
  created epoch hpos hlt := by
    rcases Nat.lt_succ_iff_lt_or_eq.1 hlt with hold | rfl
    · exact h.created epoch hpos hold
    · exact hstart hpos
  eliminated {epoch p} hread hflag := by
    obtain ⟨rfl, rfl⟩ | ⟨-, hold⟩ := of_update_eq_some hread
    · rw [hlive] at hflag
      cases hflag
    · exact h.eliminated hold hflag
  permManager_known := h.permManager_known

end

end Projections

variable {nextOrder : WeightingPoll → Option O}

theorem Step.consistent {genesis : ℕ} {w w' : World F P} (hstep : Step nextOrder genesis w w')
    (h : w.projections.Consistent count genesis w.now) :
    ∃ count', w'.projections.Consistent count' genesis w'.now := by
  cases hstep with
  | wait hle => exact ⟨count, h.mono (Nat.mul_le_mul_right _ hle)⟩
  | @createPoll s t state box box' factory rate hread hpending hrelease =>
    obtain ⟨hbox, hfactory, current, hcurrent, hnone⟩ :=
      Projections.readState_pendingCreate hread hpending
    obtain ⟨hmin, hstart⟩ := h.next_of_absent hcurrent hnone
    have hboxId : box.stableId = count :=
      (h.box_id (h.readInflationBox.symm.trans hbox)).trans hmin
    have hfactoryRead := (latestUpTo_eq h.factories _).symm.trans hfactory
    have hfactoryId : factory.stableId = count := (h.factory_id hfactoryRead).trans hmin
    have hfarms := h.factory_farms hfactoryRead
    obtain ⟨_, -, hrelease⟩ := Exec.bind_eq_ok.1 hrelease
    obtain ⟨reserves, -, hrelease⟩ := Exec.bind_eq_ok.1 hrelease
    cases hrelease
    refine ⟨count + 1, h.putCreated (congrArg (· + 1) hboxId)
      (congrArg (· + 1) hfactoryId) hfarms hfactoryId rfl ?_ hstart⟩
    intro entry hentry
    obtain ⟨farm, hfarm, rfl⟩ := List.mem_map.1 hentry
    exact hfarms farm hfarm
  | @vote s t epoch poll poll' votes power hpoll hopen hvotes =>
    obtain ⟨hfarms, hpoll'⟩ := map_fst_of_applyVotes hvotes
    refine ⟨count, h.putPoll hpoll (by rw [hpoll']) hfarms ?_⟩
    intro hflag
    have hflag' : poll.eliminated = true := by
      rw [hpoll'] at hflag
      exact hflag
    have hcooled := (h.eliminated hpoll hflag').2
    rw [weightingOpen_eq_true, h.poll_epoch hpoll] at hopen
    have hnow : World.now ⟨s, t⟩ = t * 1000 := rfl
    omega
  | @distribute s t epoch weight farm poll distribution remaining hpoll hover htake =>
    obtain ⟨hfarms, hzero⟩ := takeWeight_spec htake
    refine ⟨count, h.putPoll hpoll rfl hfarms ?_⟩
    intro hflag
    obtain ⟨hnext, hcooled⟩ := h.eliminated hpoll hflag
    exact ⟨nextFarm_eq_none.2 (hzero (nextFarm_eq_none.1 hnext)), hcooled⟩
  | @eliminate s t epoch poll hpoll hcan =>
    obtain ⟨hnext, -, hcooled⟩ := canBeEliminated_eq_true.1 hcan
    rw [h.poll_epoch hpoll] at hcooled
    exact ⟨count, h.putPoll hpoll rfl rfl fun _ => ⟨hnext, hcooled⟩⟩
  | addFarm farm entity => exact ⟨count, h.putFarm farm entity⟩
  | setFarms activeFarms hfactory hfarms => exact ⟨count, h.putFactory hfactory rfl hfarms⟩

theorem Reachable.consistent {genesis : ℕ}
    {w : World F P} (h : Reachable nextOrder genesis w) :
    ∃ count, w.projections.Consistent count genesis w.now := by
  induction h with
  | deploy splashReserves permManager hfarms hsince =>
    exact ⟨0, consistent_deployed genesis hfarms hsince⟩
  | step _ hstep ih =>
    obtain ⟨count, hcount⟩ := ih
    exact hstep.consistent hcount

/-! ## Phases -/

inductive Phase where
  | weighting
  | waiting
  | distributing
  | exhausted
  | eliminated
  deriving DecidableEq, Repr

def Phase.rank : Phase → ℕ
  | .weighting => 0
  | .waiting => 1
  | .distributing => 2
  | .exhausted => 3
  | .eliminated => 4

def PollState.phase : PollState → Phase
  | .weightingOngoing => .weighting
  | .waitingForDistributionToStart => .waiting
  | .distributionOngoing _ _ => .distributing
  | .pollExhaustedButNotReadyToEliminate => .exhausted
  | .pollExhaustedAndReadyToEliminate => .exhausted
  | .eliminated => .eliminated

namespace WeightingPoll

def seenPhase (poll : WeightingPoll) (genesis now : ℕ) : Phase :=
  if poll.eliminated then .eliminated else (poll.state genesis now).phase

variable {poll : WeightingPoll} {genesis now : ℕ}

theorem seenPhase_of_open (hlive : poll.eliminated = false)
    (h : poll.weightingOpen genesis now = true) : poll.seenPhase genesis now = .weighting := by
  rw [seenPhase, hlive, if_neg Bool.false_ne_true, state_of_open h]
  rfl

theorem seenPhase_of_closed (hlive : poll.eliminated = false)
    (h : poll.weightingOpen genesis now = false) : poll.seenPhase genesis now =
      if poll.nextFarm = none then .exhausted
      else if epochEnd genesis poll.epoch + distributeInflationStartDelayMillis < now then
        .distributing
      else .waiting := by
  rw [seenPhase, hlive, if_neg Bool.false_ne_true]
  cases hnext : poll.nextFarm with
  | none =>
    rw [state_of_exhausted h hnext, hlive, if_neg Bool.false_ne_true, if_pos rfl]
    split <;> rfl
  | some entry =>
    rw [state_of_weight h hnext, if_neg (some_ne_none _)]
    split <;> rfl

theorem rank_seenPhase_le (poll : WeightingPoll) (genesis now : ℕ) :
    (poll.seenPhase genesis now).rank ≤ Phase.eliminated.rank := by
  generalize poll.seenPhase genesis now = phase
  cases phase <;> decide

/-- Between two readings after the start of its epoch, a poll that keeps its epoch, whose weights are
not raised after the end and which stays eliminated, is seen in a later phase or in the same. -/
theorem rank_seenPhase_mono {poll' : WeightingPoll} {now' : ℕ} (hle : now ≤ now')
    (hstart : epochStart genesis poll.epoch < now) (hepoch : poll'.epoch = poll.epoch)
    (helim : poll.eliminated = true → poll'.eliminated = true)
    (hnext : epochEnd genesis poll.epoch ≤ now → poll.nextFarm = none → poll'.nextFarm = none) :
    (poll.seenPhase genesis now).rank ≤ (poll'.seenPhase genesis now').rank := by
  cases hflag' : poll'.eliminated with
  | true =>
    have hlast : poll'.seenPhase genesis now' = .eliminated := by
      rw [seenPhase, hflag', if_pos rfl]
    rw [hlast]
    exact rank_seenPhase_le poll genesis now
  | false =>
    have hflag : poll.eliminated = false :=
      Bool.eq_false_iff.2 fun hflag => Bool.false_ne_true (hflag'.symm.trans (helim hflag))
    by_cases hopen : poll.weightingOpen genesis now = true
    · rw [seenPhase_of_open hflag hopen]
      exact Nat.zero_le _
    have hover : epochEnd genesis poll.epoch ≤ now := by
      rw [weightingOpen_eq_true] at hopen
      omega
    have hclosed' : poll'.weightingOpen genesis now' = false := by
      rw [Bool.eq_false_iff, Ne, weightingOpen_eq_true, hepoch]
      omega
    rw [seenPhase_of_closed hflag (Bool.eq_false_iff.2 hopen), seenPhase_of_closed hflag' hclosed',
      hepoch]
    by_cases hnone : poll.nextFarm = none
    · rw [if_pos hnone, if_pos (hnext hover hnone)]
    · rw [if_neg hnone]
      by_cases hdelay : epochEnd genesis poll.epoch + distributeInflationStartDelayMillis < now
      · rw [if_pos hdelay, if_pos (hdelay.trans_le hle)]
        split <;> decide
      · rw [if_neg hdelay]
        split
        · decide
        · split <;> decide

end WeightingPoll

/-- From now on the phases of the poll of an epoch are seen in order. -/
def PhasesInOrder (nextOrder : WeightingPoll → Option O) (genesis : ℕ) (w : World F P)
    (epoch : ℕ) : Prop :=
  ∀ {w' poll poll'}, Relation.ReflTransGen (Step nextOrder genesis) w w' →
    w.projections.weightingPoll epoch = some poll →
    w'.projections.weightingPoll epoch = some poll' →
    (poll.seenPhase genesis w.now).rank ≤ (poll'.seenPhase genesis w'.now).rank

/-- What becomes of a poll: it keeps its epoch, stays eliminated, and once its epoch is over it gets
no weight. -/
structure Follows (genesis now : ℕ) (poll poll' : WeightingPoll) : Prop where
  epoch : poll'.epoch = poll.epoch
  eliminated : poll.eliminated = true → poll'.eliminated = true
  nextFarm : epochEnd genesis poll.epoch ≤ now → poll.nextFarm = none → poll'.nextFarm = none

theorem Follows.refl (genesis now : ℕ) (poll : WeightingPoll) : Follows genesis now poll poll :=
  ⟨rfl, id, fun _ => id⟩

theorem Follows.trans {genesis now now' : ℕ} {poll poll' poll'' : WeightingPoll}
    (h : Follows genesis now poll poll') (h' : Follows genesis now' poll' poll'')
    (hle : now ≤ now') : Follows genesis now poll poll'' where
  epoch := h'.epoch.trans h.epoch
  eliminated hflag := h'.eliminated (h.eliminated hflag)
  nextFarm hover hnone :=
    h'.nextFarm (by rw [h.epoch]; exact hover.trans hle) (h.nextFarm hover hnone)

section Steps

variable {nextOrder : WeightingPoll → Option O} {genesis : ℕ} {w w' : World F P}

theorem Step.now_le (hstep : Step nextOrder genesis w w') : w.now ≤ w'.now := by
  cases hstep with
  | wait hle => exact Nat.mul_le_mul_right _ hle
  | _ => exact le_rfl

theorem Projections.follows_putPoll {s : Projections F P} {now epoch e : ℕ}
    {poll poll' p : WeightingPoll} (hpoll : s.weightingPoll epoch = some poll)
    (hfollows : Follows genesis now poll poll') (hp : s.weightingPoll e = some p) :
    ∃ p', (s.putPoll epoch poll').weightingPoll e = some p' ∧ Follows genesis now p p' := by
  by_cases he : e = epoch
  · subst he
    rw [hpoll] at hp
    cases hp
    exact ⟨poll', update_self .., hfollows⟩
  · exact ⟨p, (update_of_ne he ..).trans hp, .refl ..⟩

theorem Step.follows (hstep : Step nextOrder genesis w w')
    (h : w.projections.Consistent count genesis w.now)
    (hpoll : w.projections.weightingPoll epoch = some poll) :
    ∃ poll', w'.projections.weightingPoll epoch = some poll' ∧
      Follows genesis w.now poll poll' := by
  cases hstep with
  | wait hle => exact ⟨poll, hpoll, .refl ..⟩
  | @createPoll s t state box box' factory rate hread hpending hrelease =>
    obtain ⟨-, hfactory, current, hcurrent, hnone⟩ :=
      Projections.readState_pendingCreate hread hpending
    have hmin := (h.next_of_absent hcurrent hnone).1
    have hid : factory.stableId = count :=
      (h.factory_id ((latestUpTo_eq h.factories _).symm.trans hfactory)).trans hmin
    have hne : epoch ≠ (factory.nextWeightingPoll rate).2.epoch := by
      rintro rfl
      have hnext : s.weightingPoll factory.stableId = none := (h.polls _).2 hid.ge
      exact nomatch hpoll.symm.trans hnext
    exact ⟨poll, (update_of_ne hne ..).trans hpoll, .refl ..⟩
  | @vote s t votedEpoch voted voted' votes power hvoted hopen hvotes =>
    obtain ⟨-, hvoted'⟩ := map_fst_of_applyVotes hvotes
    refine Projections.follows_putPoll hvoted ⟨by rw [hvoted'], ?_, ?_⟩ hpoll
    · intro hflag
      rw [hvoted']
      exact hflag
    · intro hover
      rw [weightingOpen_eq_true] at hopen
      have hnow : World.now ⟨s, t⟩ = t * 1000 := rfl
      omega
  | @distribute s t paidEpoch weight farm paid distribution remaining hpaid hover htake =>
    refine Projections.follows_putPoll hpaid ⟨rfl, id, ?_⟩ hpoll
    intro _ hnone
    exact nextFarm_eq_none.2
      ((takeWeight_spec htake).2 (nextFarm_eq_none.1 hnone))
  | eliminate hgone hcan =>
    exact Projections.follows_putPoll hgone ⟨rfl, fun _ => rfl, fun _ => id⟩ hpoll
  | addFarm farm entity => exact ⟨poll, hpoll, .refl ..⟩
  | setFarms activeFarms hfactory hfarms => exact ⟨poll, hpoll, .refl ..⟩

section

variable (hsteps : Relation.ReflTransGen (Step nextOrder genesis) w w')
  (h : w.projections.Consistent count genesis w.now)
  (hpoll : w.projections.weightingPoll epoch = some poll)
include hsteps h hpoll

theorem follows_of_steps :
    w.now ≤ w'.now ∧ (∃ count', w'.projections.Consistent count' genesis w'.now) ∧
      ∃ poll', w'.projections.weightingPoll epoch = some poll' ∧
        Follows genesis w.now poll poll' := by
  induction hsteps with
  | refl => exact ⟨le_rfl, ⟨count, h⟩, poll, hpoll, .refl ..⟩
  | tail _ hstep ih =>
    obtain ⟨hle, ⟨count', h'⟩, poll', hpoll', hfollows⟩ := ih
    obtain ⟨poll'', hpoll'', hfollows'⟩ := hstep.follows h' hpoll'
    exact ⟨hle.trans hstep.now_le, hstep.consistent h', poll'', hpoll'', hfollows.trans hfollows' hle⟩

omit hsteps in
/-- **The phases of a poll are seen in order exactly when it is read after the start of its
epoch.** -/
theorem phasesInOrder_iff :
    PhasesInOrder nextOrder genesis w epoch ↔ epochStart genesis epoch < w.now := by
  have hepoch := h.poll_epoch hpoll
  constructor
  · intro horder
    by_contra hearly
    -- one second later the poll is open
    have hlt := h.lt_of_poll hpoll
    have hstart : epochStart genesis epoch = w.now := by
      have hsince := h.since
      cases epoch with
      | zero =>
        unfold epochStart at hearly ⊢
        omega
      | succ last =>
        have hcreated := h.created (last + 1) (Nat.succ_pos last) hlt
        omega
    have hlive : poll.eliminated = false := by
      rw [Bool.eq_false_iff]
      intro hflag
      have hcooled := (h.eliminated hpoll hflag).2
      unfold epochEnd at hcooled
      omega
    have hclosed : poll.weightingOpen genesis w.now = false := by
      rw [Bool.eq_false_iff, Ne, weightingOpen_eq_true, hepoch]
      omega
    have hnow' : World.now ⟨w.projections, w.networkTime + 1⟩ = w.now + 1000 := by
      unfold World.now
      rw [add_mul, one_mul]
    have hopen' : poll.weightingOpen genesis (w.now + 1000) = true := by
      rw [weightingOpen_eq_true, hepoch, epochEnd, hstart]
      unfold epochLen
      omega
    have hle := horder (.single (.wait (Nat.le_succ w.networkTime))) hpoll hpoll
    rw [hnow', seenPhase_of_open hlive hopen',
      seenPhase_of_closed hlive hclosed] at hle
    revert hle
    split
    · decide
    · split <;> decide
  · intro hstart w' p p' hsteps hp hp'
    rw [hpoll] at hp
    cases hp
    obtain ⟨hle, -, poll', hpoll', hfollows⟩ := follows_of_steps hsteps h hpoll
    rw [hpoll'] at hp'
    cases hp'
    exact rank_seenPhase_mono hle (by rw [hepoch]; exact hstart) hfollows.epoch
      hfollows.eliminated hfollows.nextFarm

end

end Steps

/-! ## When a reading is sound -/

/-- As many milliseconds pass before the epoch of a time may lag behind by ten minutes: more than
three centuries. -/
def exactClockMillis : ℕ := distributeInflationStartDelayMillis * 2 ^ 24

/-- In the first centuries an epoch is reached ten minutes after its start at the latest. -/
theorem le_timeMillisToEpoch_of_delay {genesis now epoch : ℕ} (hexact : now - genesis < exactClockMillis)
    (h : epochStart genesis epoch + distributeInflationStartDelayMillis < now) :
    epoch ≤ timeMillisToEpoch now genesis := by
  have hlag : (now - genesis) / 2 ^ 24 < distributeInflationStartDelayMillis := by
    rw [Nat.div_lt_iff_lt_mul (Nat.two_pow_pos _)]
    exact hexact
  have hsmall : epoch < 2 ^ 24 := by
    unfold exactClockMillis distributeInflationStartDelayMillis at hexact
    unfold epochStart epochLen at h
    omega
  exact le_timeMillisToEpoch hsmall (by omega)

namespace Projections

variable {s : Projections F P} {count genesis now : ℕ}

/-- **In the first centuries a poll is overdue exactly in the time between ten minutes and an hour
after its end, if a weight is left.** -/
theorem Consistent.overdue_iff (h : s.Consistent count genesis now)
    (hexact : now - genesis < exactClockMillis) :
    s.Overdue genesis now ↔ ∃ epoch poll, s.weightingPoll epoch = some poll ∧
      poll.nextFarm ≠ none ∧ epochEnd genesis epoch + distributeInflationStartDelayMillis < now ∧
        now < epochEnd genesis epoch + epochBoundaryShift := by
  constructor
  · rintro ⟨epoch, poll, hcurrent, hpoll, hlate⟩
    have hlt := h.lt_of_poll hpoll
    rw [WeightingPoll.Late, h.poll_epoch hpoll] at hlate
    -- a late poll is at least ten minutes past the end of its epoch
    have hdelay : epochEnd genesis epoch + distributeInflationStartDelayMillis < now := by
      have hlong : distributeInflationStartDelayMillis < cooldownPeriodMillis := by decide
      rcases hlate with ⟨-, hdelay⟩ | ⟨-, hflag | hcooled⟩
      · exact hdelay
      · have hcooled := (h.eliminated hpoll hflag).2
        omega
      · omega
    have hclock : epoch + 1 ≤ timeMillisToEpoch now genesis :=
      le_timeMillisToEpoch_of_delay hexact (by rw [← epochEnd_eq]; exact hdelay)
    obtain ⟨hzero, -⟩ | ⟨last, hlast, ⟨rfl, hshift⟩ | ⟨rfl, -⟩⟩ := h.reportsCurrent_cases hcurrent
    · omega
    · refine ⟨epoch, poll, hpoll, ?_, hdelay, hshift⟩
      have hlong : epochBoundaryShift < cooldownPeriodMillis := by decide
      rcases hlate with ⟨hweight, -⟩ | ⟨-, hflag | hcooled⟩
      · exact hweight
      · have hcooled := (h.eliminated hpoll hflag).2
        omega
      · omega
    · omega
  · rintro ⟨epoch, poll, hpoll, hweight, hdelay, hshift⟩
    have hlt := h.lt_of_poll hpoll
    have hclock : epoch + 1 ≤ timeMillisToEpoch now genesis :=
      le_timeMillisToEpoch_of_delay hexact (by rw [← epochEnd_eq]; exact hdelay)
    have hcount : count = epoch + 1 := by
      by_contra hne
      have hcreated := h.created (epoch + 1) (Nat.succ_pos epoch) (by omega)
      rw [← epochEnd_eq] at hcreated
      omega
    obtain ⟨box, factory, permManager, hbox, -⟩ := h.initialized_eq
    have hid : box.stableId = epoch + 1 := by
      have hread := h.readInflationBox.symm.trans hbox
      rw [h.box_id hread]
      omega
    obtain ⟨last, hprocessed⟩ : ∃ last, box.lastProcessedEpoch = some last := by
      cases hprocessed : box.lastProcessedEpoch with
      | none =>
        rw [stableId, nextEpoch, hprocessed] at hid
        cases hid
      | some last => exact ⟨last, rfl⟩
    rw [stableId, nextEpoch, hprocessed] at hid
    cases hid
    have hlong : epochBoundaryShift < epochLen := by decide
    have hactive : box.activeEpoch genesis now = .ok epoch :=
      (activeEpoch_eq_ok hprocessed).2
        ⟨by unfold epochEnd at hdelay; omega, .inl ⟨rfl, hshift⟩⟩
    refine ⟨epoch, poll, ⟨box, hbox, hactive⟩, hpoll, .inl ⟨hweight, ?_⟩⟩
    rw [h.poll_epoch hpoll]
    exact hdelay

end Projections

/-- A reading is sound when it does not reach a branch that is thought impossible, the phases of
each poll are seen in order from then on, and the poll of the current epoch does not distribute. -/
structure World.Sound (nextOrder : WeightingPoll → Option O) (genesis : ℕ)
    (w : World F P) : Prop where
  reachable : ∀ branch,
    w.projections.readState nextOrder genesis w.networkTime ≠ .error (.unreachable branch)
  ordered : ∀ {epoch poll}, w.projections.weightingPoll epoch = some poll →
    PhasesInOrder nextOrder genesis w epoch
  current : ∀ {epoch poll}, w.projections.ReportsCurrent genesis w.now epoch →
    w.projections.weightingPoll epoch = some poll →
    (poll.seenPhase genesis w.now) ≠ .distributing

/-- **In every state reached a reading is sound exactly when the poll of the current epoch is not
overdue and the first poll is not read at the very start of its epoch.** In the first centuries a
poll is overdue exactly between ten minutes and an hour after its end, if a weight is left. -/
theorem Reachable.sound_iff {nextOrder : WeightingPoll → Option O} {genesis : ℕ}
    {w : World F P} (h : Reachable nextOrder genesis w) :
    (w.Sound nextOrder genesis ↔ ¬ w.projections.Overdue genesis w.now ∧
      (w.projections.weightingPoll 0 ≠ none → genesis < w.now)) ∧
    (w.now - genesis < exactClockMillis → (w.projections.Overdue genesis w.now ↔
      ∃ epoch poll, w.projections.weightingPoll epoch = some poll ∧ poll.nextFarm ≠ none ∧
        epochEnd genesis epoch + distributeInflationStartDelayMillis < w.now ∧
        w.now < epochEnd genesis epoch + epochBoundaryShift)) := by
  obtain ⟨count, hcount⟩ := h.consistent
  refine ⟨?_, hcount.overdue_iff⟩
  have hiff := hcount.readState_unreachable_iff nextOrder
  constructor
  · intro hsound
    refine ⟨fun hoverdue => ?_, fun hfirst => ?_⟩
    · obtain ⟨branch, hbranch⟩ := hiff.2 hoverdue
      exact hsound.reachable branch hbranch
    · obtain ⟨poll, hpoll⟩ := Option.ne_none_iff_exists'.1 hfirst
      have hstart := (phasesInOrder_iff hcount hpoll).1 (hsound.ordered hpoll)
      unfold epochStart at hstart
      omega
  · rintro ⟨htimely, hfirst⟩
    refine ⟨fun branch hbranch => htimely (hiff.1 ⟨branch, hbranch⟩), ?_, ?_⟩
    · intro epoch poll hpoll
      refine (phasesInOrder_iff hcount hpoll).2 ?_
      have hlt := hcount.lt_of_poll hpoll
      cases epoch with
      | zero =>
        have hstart := hfirst (hpoll ▸ some_ne_none _)
        unfold epochStart
        omega
      | succ last =>
        have hcreated := hcount.created (last + 1) (Nat.succ_pos last) hlt
        have hpos : 0 < epochBoundaryShift := by decide
        omega
    · intro epoch poll hcurrent hpoll hphase
      refine htimely ⟨epoch, poll, hcurrent, hpoll, ?_⟩
      unfold seenPhase at hphase
      split at hphase
      · cases hphase
      · cases hstate : poll.state genesis w.now with
        | distributionOngoing farm weight =>
          obtain ⟨hnext, hdelay⟩ := state_eq_distributionOngoing hstate
          exact .inl ⟨hnext ▸ some_ne_none _, hdelay⟩
        | _ =>
          rw [hstate] at hphase
          cases hphase

/-! ## A poll that still has a weight an epoch later -/

def sampleDeployed : Projections Unit Unit :=
  deployed 1000000000000 [7] (fun _ => some ()) ()

def samplePoll (weight : ℕ) (power : Option ℕ) : WeightingPoll where
  epoch := 0
  distribution := [(7, weight)]
  emissionRate := 224000000000
  remainingSplashEmission := 224000000000
  weightingPower := power
  eliminated := false

def sampleCreated : Projections Unit Unit :=
  sampleDeployed.putCreated { lastProcessedEpoch := some 0, splashReserves := 776000000000 }
    { lastPollEpoch := some 0, activeFarms := [7] } (samplePoll 0 none)

/-- The first poll gets a vote of weight 10. -/
def sampleVoted : Projections Unit Unit := sampleCreated.putPoll 0 (samplePoll 10 (some 10))

/-- The vote is given in the first minute. -/
theorem sampleVoted_reachable (networkTime : ℕ) (hlater : 60 ≤ networkTime) :
    Reachable (fun _ => (none : Option Unit)) 0 ⟨sampleVoted, networkTime⟩ := by
  have hdeployed : Reachable (fun _ => (none : Option Unit)) 0 ⟨sampleDeployed, 60⟩ :=
    .deploy _ _ (fun _ _ => some_ne_none _) (Nat.zero_le _)
  have hread : sampleDeployed.readState (fun _ => (none : Option Unit)) 0 60 =
      .ok ⟨none, .pendingCreatePoll ⟨none, 1000000000000⟩ ⟨none, [7]⟩, none⟩ := rfl
  have hrelease : releaseNextTranche ⟨none, 1000000000000⟩ =
      .ok (⟨some 0, 776000000000⟩, 224000000000) := rfl
  have hcreated : Reachable (fun _ => (none : Option Unit)) 0 ⟨sampleCreated, 60⟩ :=
    hdeployed.step (.createPoll hread rfl hrelease)
  have hpoll : sampleCreated.weightingPoll 0 = some (samplePoll 0 none) := rfl
  have hvotes : (samplePoll 0 none).applyVotes [(7, 10)] = .ok (samplePoll 10 none) := rfl
  have hvoted : Reachable (fun _ => (none : Option Unit)) 0 ⟨sampleVoted, 60⟩ :=
    hcreated.step (.vote (some 10) hpoll (by decide) hvotes)
  exact hvoted.step (.wait hlater)

/-- Half an hour after the end of its epoch the poll is still that of the current epoch, and it
distributes. -/
theorem sampleVoted_panics :
    Reachable (fun _ => (none : Option Unit)) 0 ⟨sampleVoted, 606600⟩ ∧
      sampleVoted.readState (fun _ => (none : Option Unit)) 0 606600 =
        .error (.unreachable .distributeOnCurrent) :=
  ⟨sampleVoted_reachable _ (by decide), rfl⟩

theorem sampleVoted_sound :
    Reachable (fun _ => (none : Option Unit)) 0 ⟨sampleVoted, 300000⟩ ∧
      World.Sound (fun _ => (none : Option Unit)) 0 ⟨sampleVoted, 300000⟩ := by
  have hreachable := sampleVoted_reachable 300000 (by decide)
  refine ⟨hreachable, (Reachable.sound_iff hreachable).1.2 ⟨?_, fun _ => by decide⟩⟩
  rw [(Reachable.sound_iff hreachable).2 (by decide)]
  rintro ⟨epoch, poll, hpoll, _, hlate, _⟩
  cases epoch with
  | zero => exact absurd hlate (by decide)
  | succ last => exact nomatch hpoll

end Runs

end Splash.Dao
