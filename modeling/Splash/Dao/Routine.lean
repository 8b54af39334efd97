import Splash.Dao.Poll

/-!
# The state of the routine

`read_state` looks up the inflation box and the poll factory by the epoch of the network time, takes
the epoch of the box for the current one, and derives from the polls what there is to do. Branches
that are thought impossible panic.

* `readState` — the reading.
* `ReportsCurrent` — the epoch that is reported as the current one.
* `Overdue` — the poll of the current epoch is in a state that is thought impossible.
* `readState_unreachable_iff` — in a consistent state an impossible branch is reached exactly when
  the poll of the current epoch is overdue.
-/

namespace Splash.Dao

open Lib WeightingPoll InflationBox

/-! ## The projections -/

/-- The latest states of the entities. -/
structure Projections (F P : Type) where
  inflationBox : ℕ → Option InflationBox
  pollFactory : ℕ → Option PollFactory
  weightingPoll : ℕ → Option WeightingPoll
  smartFarm : FarmId → Option F
  permManager : Option P

inductive WPollEliminated where
  | wPollEliminated
  deriving DecidableEq, Repr

/-- Branches that are thought impossible. -/
inductive Unreachable where
  /-- "Weighting is over for epoch" -/
  | weightingOver (epoch : ℕ)
  /-- "Impossible to distribute inflation on current epoch" -/
  | distributeOnCurrent
  /-- "Impossible to eliminate wpoll on current epoch" -/
  | eliminateOnCurrent
  /-- The poll of the current epoch is eliminated. -/
  | currentEliminated
  deriving DecidableEq, Repr

/-- Why a reading stopped. -/
inductive RoutinePanic where
  | unreachable (branch : Unreachable)
  /-- "State is inconsistent": a farm is not known. -/
  | inconsistent
  | arithmetic (reason : Panic)
  deriving DecidableEq, Repr

inductive EpochRoutineState (F P O : Type) where
  | uninitialized
  | pendingCreatePoll (inflationBox : InflationBox) (pollFactory : PollFactory)
  | weightingInProgress (nextPendingOrder : Option O)
  | distributionInProgress (nextFarm : F) (weightingPoll : WeightingPoll) (nextFarmWeight : ℕ)
      (permManager : P)
  | waitingForDistributionToStart
  | waitingToEliminate
  | pendingEliminatePoll (weightingPoll : WeightingPoll) (permManager : P)
  | eliminated

structure RoutineState (F P O : Type) where
  previousEpochState : Option (EpochRoutineState F P O)
  currentEpochState : EpochRoutineState F P O
  eliminateWpoll : Option (WeightingPoll × P × ℕ)

/-- The farm and the weight that a poll distributes to next. -/
def PollState.distributing : PollState → Option (FarmId × ℕ)
  | .distributionOngoing farm weight => some (farm, weight)
  | _ => none

/-- The first of the entities with identifiers from that of the current time down to zero. -/
def latestUpTo {α : Type} (read : ℕ → Option α) (epoch : ℕ) : Option α :=
  (List.range (epoch + 1)).reverse.findSome? read

namespace Projections

variable {F P O : Type}

variable (s : Projections F P)

def readInflationBox (genesis now : ℕ) : Option InflationBox :=
  latestUpTo s.inflationBox (timeMillisToEpoch now genesis)

def readPollFactory (genesis now : ℕ) : Option PollFactory :=
  latestUpTo s.pollFactory (timeMillisToEpoch now genesis)

def readWeightingPoll (epoch : ℕ) :
    Option (WPollEliminated ⊕ WeightingPoll) :=
  (s.weightingPoll epoch).map fun poll =>
    if poll.eliminated then .inl .wPollEliminated else .inr poll

/-- The poll of an epoch, unless it is eliminated. -/
def livePoll (epoch : ℕ) : Option WeightingPoll :=
  (s.readWeightingPoll epoch).bind fun read => read.getRight?

def getLatestWpollToEliminate (startingEpoch genesis now : ℕ) :
    Option (WeightingPoll × ℕ) :=
  (List.range (startingEpoch + 1)).reverse.findSome? fun epoch =>
    (s.livePoll epoch).bind fun poll =>
      if poll.state genesis now = .pollExhaustedAndReadyToEliminate then some (poll, epoch) else none

def getOldestWpollToDistributeInflation
    (beforeEpoch genesis now : ℕ) : Option (WeightingPoll × (FarmId × ℕ) × ℕ) :=
  (List.range beforeEpoch).findSome? fun epoch =>
    (s.livePoll epoch).bind fun poll =>
      (poll.state genesis now).distributing.map fun nextFarm => (poll, nextFarm, epoch)

def distributionState (poll : WeightingPoll) (nextFarm : FarmId × ℕ)
    (permManager : P) : Except RoutinePanic (EpochRoutineState F P O) :=
  (s.smartFarm nextFarm.1).elim (.error .inconsistent) fun farm =>
    .ok (.distributionInProgress farm poll nextFarm.2 permManager)

def previousPollState (permManager : P) (previous : ℕ)
    (poll : WeightingPoll) :
    PollState → Except RoutinePanic (Option (EpochRoutineState F P O))
  | .weightingOngoing => .error (.unreachable (.weightingOver previous))
  | .distributionOngoing farm weight =>
    (s.distributionState poll (farm, weight) permManager).map some
  | .pollExhaustedButNotReadyToEliminate => .ok (some .waitingToEliminate)
  | .pollExhaustedAndReadyToEliminate => .ok (some (.pendingEliminatePoll poll permManager))
  | .eliminated => .ok (some .eliminated)
  | .waitingForDistributionToStart => .ok (some .waitingForDistributionToStart)

/-- What there is to do for the epoch before the current one. -/
def previousEpochState (permManager : P) (previous genesis now : ℕ) :
    Except RoutinePanic (Option (EpochRoutineState F P O)) :=
  match s.getOldestWpollToDistributeInflation previous genesis now with
  | some (poll, nextFarm, _) => (s.distributionState poll nextFarm permManager).map some
  | none =>
    match s.readWeightingPoll previous with
    | some (.inr poll) => s.previousPollState permManager previous poll (poll.state genesis now)
    | some (.inl _) => .ok (some .eliminated)
    | none => .ok none

section

variable (nextOrder : WeightingPoll → Option O)

def currentPollState (poll : WeightingPoll) :
    PollState → Except RoutinePanic (EpochRoutineState F P O)
  | .weightingOngoing => .ok (.weightingInProgress (nextOrder poll))
  | .distributionOngoing _ _ => .error (.unreachable .distributeOnCurrent)
  | .pollExhaustedAndReadyToEliminate => .error (.unreachable .eliminateOnCurrent)
  | .pollExhaustedButNotReadyToEliminate => .ok .waitingToEliminate
  | .eliminated => .ok .eliminated
  | .waitingForDistributionToStart => .ok .waitingForDistributionToStart

def currentEpochState (box : InflationBox) (factory : PollFactory) (current genesis now : ℕ) :
    Except RoutinePanic (EpochRoutineState F P O) :=
  match s.readWeightingPoll current with
  | none => .ok (.pendingCreatePoll box factory)
  | some (.inr poll) => currentPollState nextOrder poll (poll.state genesis now)
  | some (.inl _) => .error (.unreachable .currentEliminated)

def earlierEpochs (permManager : P) (current genesis now : ℕ) :
    Except RoutinePanic
      (Option (EpochRoutineState F P O) × Option (WeightingPoll × P × ℕ)) :=
  if current > 0 then do
    let previous ← s.previousEpochState permManager (current - 1) genesis now
    pure (previous, (s.getLatestWpollToEliminate (current - 1) genesis now).map
      fun eliminate => (eliminate.1, permManager, eliminate.2))
  else pure (none, none)

/-- The entities that the reading needs. -/
def initialized (genesis now : ℕ) :
    Option (InflationBox × PollFactory × P) :=
  (s.readInflationBox genesis now).bind fun box =>
    (s.readPollFactory genesis now).bind fun factory =>
      s.permManager.map fun permManager => (box, factory, permManager)

def readState (genesis networkTime : ℕ) : Except RoutinePanic (RoutineState F P O) :=
  match s.initialized genesis (networkTime * 1000) with
  | some (box, factory, permManager) => do
    let current ← (box.activeEpoch genesis (networkTime * 1000)).mapError .arithmetic
    let earlier ← s.earlierEpochs permManager current genesis (networkTime * 1000)
    let currentState ←
      s.currentEpochState nextOrder box factory current genesis (networkTime * 1000)
    pure
      { previousEpochState := earlier.1
        currentEpochState := currentState
        eliminateWpoll := earlier.2 }
  | none => pure
      { previousEpochState := none
        currentEpochState := .uninitialized
        eliminateWpoll := none }

end

end Projections

/-! ## Consistent projections -/

theorem latestUpTo_succ {α : Type} (read : ℕ → Option α) (epoch : ℕ) :
    latestUpTo read (epoch + 1) = (read (epoch + 1)).or (latestUpTo read epoch) := by
  unfold latestUpTo
  rw [List.range_succ, List.reverse_append, List.reverse_singleton, List.singleton_append,
    List.findSome?_cons]
  cases read (epoch + 1) <;> rfl

/-- Of entities with the identifiers up to `count` the one closest to the asked epoch is found. -/
theorem latestUpTo_eq {α : Type} {read : ℕ → Option α} {count : ℕ}
    (h : ∀ id, read id = none ↔ count < id) (epoch : ℕ) :
    latestUpTo read epoch = read (min epoch count) := by
  induction epoch with
  | zero =>
    rw [Nat.zero_min]
    unfold latestUpTo
    cases hread : read 0 <;> simp [List.range_succ, hread]
  | succ epoch ih =>
    rw [latestUpTo_succ, ih]
    by_cases hle : epoch + 1 ≤ count
    · have hsome : read (epoch + 1) ≠ none := fun hnone => absurd ((h _).1 hnone) (by omega)
      obtain ⟨entity, hentity⟩ := Option.ne_none_iff_exists'.1 hsome
      rw [min_eq_left hle, hentity, Option.some_or]
    · rw [(h (epoch + 1)).2 (by omega), Option.none_or, min_eq_right (by omega),
        min_eq_right (by omega)]

/-- A poll that is past the time in which its epoch may be the current one. -/
def WeightingPoll.Late (poll : WeightingPoll) (genesis now : ℕ) : Prop :=
  poll.nextFarm ≠ none ∧ epochEnd genesis poll.epoch + distributeInflationStartDelayMillis < now ∨
    poll.nextFarm = none ∧ (poll.eliminated = true ∨
      epochEnd genesis poll.epoch + cooldownPeriodMillis + cooldownPeriodExtraBuffer < now)

namespace Projections

variable {F P O : Type}

/-- The projections of the first `count` epochs: each has a poll, which was created in time, and the
inflation box and the factory are known before and after each. -/
structure Consistent (s : Projections F P) (count genesis now : ℕ) : Prop where
  since : genesis ≤ now
  boxes : ∀ id, s.inflationBox id = none ↔ count < id
  box_id : ∀ {id box}, s.inflationBox id = some box → box.stableId = id
  factories : ∀ id, s.pollFactory id = none ↔ count < id
  factory_id : ∀ {id factory}, s.pollFactory id = some factory → factory.stableId = id
  factory_farms : ∀ {id factory}, s.pollFactory id = some factory →
    ∀ farm ∈ factory.activeFarms, s.smartFarm farm ≠ none
  polls : ∀ epoch, s.weightingPoll epoch = none ↔ count ≤ epoch
  poll_epoch : ∀ {epoch poll}, s.weightingPoll epoch = some poll → poll.epoch = epoch
  poll_farms : ∀ {epoch poll}, s.weightingPoll epoch = some poll →
    ∀ entry ∈ poll.distribution, s.smartFarm entry.1 ≠ none
  created : ∀ epoch, 0 < epoch → epoch < count →
    epochStart genesis epoch + epochBoundaryShift ≤ now
  eliminated : ∀ {epoch poll}, s.weightingPoll epoch = some poll → poll.eliminated = true →
    poll.nextFarm = none ∧
      epochEnd genesis epoch + cooldownPeriodMillis + cooldownPeriodExtraBuffer < now
  permManager_known : s.permManager ≠ none

def ReportsCurrent (s : Projections F P) (genesis now epoch : ℕ) : Prop :=
  ∃ box, s.readInflationBox genesis now = some box ∧ box.activeEpoch genesis now = .ok epoch

/-- The poll of the current epoch is past its time. -/
def Overdue (s : Projections F P) (genesis now : ℕ) : Prop :=
  ∃ epoch poll, s.ReportsCurrent genesis now epoch ∧ s.weightingPoll epoch = some poll ∧
    poll.Late genesis now

section Consistent

variable {s : Projections F P} {count genesis now : ℕ}

variable {epoch : ℕ} {poll : WeightingPoll}

section

variable (h : s.Consistent count genesis now)
include h

theorem Consistent.lt_of_poll
    (hpoll : s.weightingPoll epoch = some poll) : epoch < count := by
  by_contra hge
  cases hpoll.symm.trans ((h.polls epoch).2 (not_lt.1 hge))

theorem Consistent.readInflationBox :
    s.readInflationBox genesis now = s.inflationBox (min (timeMillisToEpoch now genesis) count) :=
  latestUpTo_eq h.boxes _

/-- The current epoch is the last one with a poll up to an hour after its end, then the next one. -/
theorem Consistent.reportsCurrent_cases
    (hcurrent : s.ReportsCurrent genesis now epoch) :
    min (timeMillisToEpoch now genesis) count = 0 ∧ epoch = 0 ∨
    ∃ last, min (timeMillisToEpoch now genesis) count = last + 1 ∧
      (epoch = last ∧ now < epochEnd genesis last + epochBoundaryShift ∨
        epoch = last + 1 ∧ epochEnd genesis last + epochBoundaryShift ≤ now) := by
  obtain ⟨box, hbox, hactive⟩ := hcurrent
  rw [h.readInflationBox] at hbox
  have hid := h.box_id hbox
  cases hlast : box.lastProcessedEpoch with
  | none =>
    rw [activeEpoch_of_none hlast] at hactive
    rw [stableId, nextEpoch, hlast, Option.elim_none] at hid
    exact .inl ⟨hid.symm, (Except.ok.inj hactive).symm⟩
  | some last =>
    rw [stableId, nextEpoch, hlast, Option.elim_some] at hid
    exact .inr ⟨last, hid.symm, ((activeEpoch_eq_ok hlast).1 hactive).2⟩

theorem Consistent.epochStart_le
    (hcurrent : s.ReportsCurrent genesis now epoch) : epochStart genesis epoch ≤ now := by
  obtain ⟨-, rfl⟩ | ⟨last, hlast, ⟨rfl, -⟩ | ⟨rfl, hend⟩⟩ := h.reportsCurrent_cases hcurrent
  · have hsince := h.since
    unfold epochStart
    omega
  · cases epoch with
    | zero =>
      have hsince := h.since
      unfold epochStart
      omega
    | succ last =>
      have hcreated := h.created (last + 1) (Nat.succ_pos last) (by omega)
      omega
  · rw [epochEnd_eq] at hend
    omega

end

theorem readWeightingPoll_of_none (h : s.weightingPoll epoch = none) :
    s.readWeightingPoll epoch = none := by
  rw [readWeightingPoll, h, Option.map_none]

theorem readWeightingPoll_of_some
    (h : s.weightingPoll epoch = some poll) : s.readWeightingPoll epoch =
      some (if poll.eliminated then .inl .wPollEliminated else .inr poll) := by
  rw [readWeightingPoll, h, Option.map_some]

theorem weightingPoll_of_livePoll
    (h : s.livePoll epoch = some poll) : s.weightingPoll epoch = some poll := by
  unfold livePoll at h
  cases hpoll : s.weightingPoll epoch with
  | none =>
    rw [readWeightingPoll_of_none hpoll] at h
    cases h
  | some stored =>
    rw [readWeightingPoll_of_some hpoll, Option.bind_some] at h
    split at h
    · cases h
    · cases h
      rfl

theorem nextFarm_of_distributing {entry : FarmId × ℕ}
    (h : (poll.state genesis now).distributing = some entry) : poll.nextFarm = some entry := by
  cases hstate : poll.state genesis now with
  | distributionOngoing farm weight =>
    rw [hstate] at h
    cases h
    exact (state_eq_distributionOngoing hstate).1
  | _ =>
    rw [hstate] at h
    cases h

section

variable (h : s.Consistent count genesis now)
include h

theorem Consistent.distributionState_ok
    (hpoll : s.weightingPoll epoch = some poll) {entry : FarmId × ℕ}
    (hentry : poll.nextFarm = some entry) (permManager : P) :
    ∃ state : EpochRoutineState F P O,
      s.distributionState poll entry permManager = .ok state := by
  have hknown := h.poll_farms hpoll entry (nextFarm_mem hentry)
  obtain ⟨farm, hfarm⟩ := Option.ne_none_iff_exists'.1 hknown
  rw [distributionState, hfarm, Option.elim_some]
  exact ⟨_, rfl⟩

theorem Consistent.previousPollState_ok (permManager : P)
    {previous : ℕ} (hpoll : s.weightingPoll previous = some poll)
    (hover : epochEnd genesis previous ≤ now) :
    ∃ state : Option (EpochRoutineState F P O),
      s.previousPollState permManager previous poll (poll.state genesis now) = .ok state := by
  cases hstate : poll.state genesis now with
  | weightingOngoing =>
    by_cases hopen : poll.weightingOpen genesis now = true
    · rw [weightingOpen_eq_true, h.poll_epoch hpoll] at hopen
      omega
    · exact absurd hstate (state_ne_weightingOngoing (Bool.eq_false_iff.2 hopen))
  | distributionOngoing farm weight =>
    obtain ⟨state, hok⟩ : ∃ state : EpochRoutineState F P O, _ :=
      h.distributionState_ok hpoll (state_eq_distributionOngoing hstate).1 permManager
    rw [previousPollState, hok]
    exact ⟨_, rfl⟩
  | _ => exact ⟨_, rfl⟩

theorem Consistent.previousEpochState_ok (permManager : P)
    {previous : ℕ} (hover : epochEnd genesis previous ≤ now) :
    ∃ state : Option (EpochRoutineState F P O),
      s.previousEpochState permManager previous genesis now = .ok state := by
  unfold previousEpochState
  split
  case h_1 poll nextFarm old hold =>
    obtain ⟨epoch, -, hepoch⟩ := List.exists_of_findSome?_eq_some hold
    obtain ⟨live, hlive, hfound⟩ := Option.bind_eq_some_iff.1 hepoch
    obtain ⟨entry, hentry, heq⟩ := Option.map_eq_some_iff.1 hfound
    cases heq
    obtain ⟨state, hstate⟩ : ∃ state : EpochRoutineState F P O, _ :=
      h.distributionState_ok (weightingPoll_of_livePoll hlive) (nextFarm_of_distributing hentry)
        permManager
    rw [hstate]
    exact ⟨_, rfl⟩
  case h_2 =>
    cases hpoll : s.weightingPoll previous with
    | none =>
      rw [readWeightingPoll_of_none hpoll]
      exact ⟨_, rfl⟩
    | some poll =>
      rw [readWeightingPoll_of_some hpoll]
      by_cases heliminated : poll.eliminated = true
      · rw [if_pos heliminated]
        exact ⟨_, rfl⟩
      · rw [if_neg heliminated]
        exact h.previousPollState_ok permManager hpoll hover

/-- The poll of the current epoch is in an impossible state exactly when it is late. -/
theorem Consistent.currentEpochState_unreachable_iff
    (nextOrder : WeightingPoll → Option O) (box : InflationBox) (factory : PollFactory)
    (current : ℕ) :
    (∃ branch, s.currentEpochState nextOrder box factory current genesis now =
      .error (.unreachable branch)) ↔
      ∃ poll, s.weightingPoll current = some poll ∧ poll.Late genesis now := by
  unfold currentEpochState
  cases hpoll : s.weightingPoll current with
  | none =>
    rw [readWeightingPoll_of_none hpoll]
    exact ⟨fun h => (nomatch h.choose_spec), fun h => (nomatch h.choose_spec.1)⟩
  | some poll =>
    rw [readWeightingPoll_of_some hpoll]
    simp only [Option.some.injEq, exists_eq_left']
    by_cases heliminated : poll.eliminated = true
    · rw [if_pos heliminated]
      exact ⟨fun _ => .inr ⟨(h.eliminated hpoll heliminated).1, .inl heliminated⟩,
        fun _ => ⟨_, rfl⟩⟩
    rw [if_neg heliminated]
    show (∃ branch, currentPollState nextOrder poll (poll.state genesis now) =
      .error (.unreachable branch)) ↔ _
    unfold WeightingPoll.Late
    by_cases hopen : poll.weightingOpen genesis now = true
    · rw [state_of_open hopen]
      rw [weightingOpen_eq_true] at hopen
      refine ⟨fun h => (nomatch h.choose_spec), ?_⟩
      rintro (⟨-, hlate⟩ | ⟨-, helim | hcooled⟩)
      · omega
      · exact absurd helim heliminated
      · omega
    rw [Bool.not_eq_true] at hopen
    cases hnext : poll.nextFarm with
    | none =>
      rw [state_of_exhausted hopen hnext, if_neg heliminated]
      split
      case isTrue hcooled => exact ⟨fun _ => .inr ⟨rfl, .inr hcooled⟩, fun _ => ⟨_, rfl⟩⟩
      case isFalse hwarm =>
        refine ⟨fun h => (nomatch h.choose_spec), ?_⟩
        rintro (⟨hweight, -⟩ | ⟨-, helim | hcooled⟩)
        · exact absurd rfl hweight
        · exact absurd helim heliminated
        · exact absurd hcooled hwarm
    | some entry =>
      rw [state_of_weight hopen hnext]
      split
      case isTrue hlate => exact ⟨fun _ => .inl ⟨nofun, hlate⟩, fun _ => ⟨_, rfl⟩⟩
      case isFalse hearly =>
        refine ⟨fun h => (nomatch h.choose_spec), ?_⟩
        rintro (⟨-, hlate⟩ | ⟨hnone, -⟩)
        · exact absurd hlate hearly
        · cases hnone

theorem Consistent.initialized_eq :
    ∃ box factory permManager, s.readInflationBox genesis now = some box ∧
      s.initialized genesis now = some (box, factory, permManager) := by
  obtain ⟨box, hbox⟩ := Option.ne_none_iff_exists'.1 fun hnone =>
    absurd ((h.boxes (min (timeMillisToEpoch now genesis) count)).1 hnone) (by omega)
  obtain ⟨factory, hfactory⟩ := Option.ne_none_iff_exists'.1 fun hnone =>
    absurd ((h.factories (min (timeMillisToEpoch now genesis) count)).1 hnone) (by omega)
  obtain ⟨permManager, hperm⟩ := Option.ne_none_iff_exists'.1 h.permManager_known
  rw [← h.readInflationBox] at hbox
  have hread : s.readPollFactory genesis now = some factory :=
    (latestUpTo_eq h.factories _).trans hfactory
  refine ⟨box, factory, permManager, hbox, ?_⟩
  rw [initialized, hbox, Option.bind_some, hread, Option.bind_some, hperm, Option.map_some]

end

end Consistent

variable {s : Projections F P} {box : InflationBox} {factory : PollFactory}

variable {count current genesis networkTime now : ℕ} {permManager : P}

theorem readState_eq {earlier : Option (EpochRoutineState F P O) × Option (WeightingPoll × P × ℕ)}
    (hinit : s.initialized genesis (networkTime * 1000) = some (box, factory, permManager))
    (hactive : box.activeEpoch genesis (networkTime * 1000) = .ok current)
    (hearlier : s.earlierEpochs permManager current genesis (networkTime * 1000) = .ok earlier)
    (nextOrder : WeightingPoll → Option O) : s.readState nextOrder genesis networkTime =
      (s.currentEpochState nextOrder box factory current genesis (networkTime * 1000)).map
        fun state => ⟨earlier.1, state, earlier.2⟩ := by
  unfold readState
  rw [hinit]
  simp only [hactive]
  show (s.earlierEpochs permManager current genesis (networkTime * 1000) >>= _) = _
  rw [hearlier]
  rfl

theorem readState_of_error {reason : Panic}
    (hinit : s.initialized genesis (networkTime * 1000) = some (box, factory, permManager))
    (hactive : box.activeEpoch genesis (networkTime * 1000) = .error reason)
    (nextOrder : WeightingPoll → Option O) :
    s.readState nextOrder genesis networkTime = .error (.arithmetic reason) := by
  unfold readState
  rw [hinit]
  simp only [hactive]
  rfl

theorem Consistent.earlierEpochs_ok (h : s.Consistent count genesis now)
    (hcurrent : s.ReportsCurrent genesis now current) (permManager : P) :
    ∃ earlier : Option (EpochRoutineState F P O) × Option (WeightingPoll × P × ℕ),
      s.earlierEpochs permManager current genesis now = .ok earlier := by
  unfold earlierEpochs
  split
  case isTrue hpos =>
    obtain ⟨previous, rfl⟩ := Nat.exists_eq_succ_of_ne_zero hpos.ne'
    have hover : epochEnd genesis previous ≤ now := by
      rw [epochEnd_eq]
      exact h.epochStart_le hcurrent
    obtain ⟨state, hstate⟩ : ∃ state : Option (EpochRoutineState F P O), _ :=
      h.previousEpochState_ok permManager hover
    rw [Nat.succ_sub_one, hstate]
    exact ⟨_, rfl⟩
  case isFalse => exact ⟨_, rfl⟩

/-- **In a consistent state an impossible branch is reached exactly when the poll of the current
epoch is overdue.** -/
theorem Consistent.readState_unreachable_iff (h : s.Consistent count genesis (networkTime * 1000))
    (nextOrder : WeightingPoll → Option O) :
    (∃ branch, s.readState nextOrder genesis networkTime = .error (.unreachable branch)) ↔
      s.Overdue genesis (networkTime * 1000) := by
  obtain ⟨box, factory, permManager, hbox, hinit⟩ := h.initialized_eq
  have hreports : ∀ epoch, s.ReportsCurrent genesis (networkTime * 1000) epoch ↔
      box.activeEpoch genesis (networkTime * 1000) = .ok epoch := by
    intro epoch
    refine ⟨?_, fun hok => ⟨box, hbox, hok⟩⟩
    rintro ⟨read, hread, hok⟩
    rw [hbox] at hread
    cases hread
    exact hok
  cases hactive : box.activeEpoch genesis (networkTime * 1000) with
  | error reason =>
    rw [readState_of_error hinit hactive]
    refine ⟨fun h => (nomatch h.choose_spec), ?_⟩
    rintro ⟨epoch, _, hcurrent, _⟩
    rw [hreports, hactive] at hcurrent
    cases hcurrent
  | ok current =>
    have hcurrent := (hreports current).2 hactive
    obtain ⟨earlier, hearlier⟩ : ∃ earlier : Option (EpochRoutineState F P O) × _, _ :=
      h.earlierEpochs_ok hcurrent permManager
    have hiff := h.currentEpochState_unreachable_iff nextOrder box factory current
    rw [readState_eq hinit hactive hearlier]
    constructor
    · rintro ⟨branch, herror⟩
      have hbranch : ∃ branch, s.currentEpochState nextOrder box factory current genesis
          (networkTime * 1000) = .error (.unreachable branch) := by
        cases hstate : s.currentEpochState nextOrder box factory current genesis
          (networkTime * 1000) with
        | ok state =>
          rw [hstate] at herror
          cases herror
        | error reason =>
          rw [hstate] at herror
          cases herror
          exact ⟨branch, rfl⟩
      obtain ⟨poll, hpoll, hlate⟩ := hiff.1 hbranch
      exact ⟨current, poll, hcurrent, hpoll, hlate⟩
    · rintro ⟨epoch, poll, hepoch, hpoll, hlate⟩
      rw [hreports, hactive] at hepoch
      cases hepoch
      obtain ⟨branch, hbranch⟩ := hiff.2 ⟨poll, hpoll, hlate⟩
      exact ⟨branch, by rw [hbranch]; rfl⟩

variable {nextOrder : WeightingPoll → Option O}

theorem currentEpochState_pendingCreate {box box' : InflationBox} {factory factory' : PollFactory}
    (h : s.currentEpochState nextOrder box factory current genesis now =
      .ok (.pendingCreatePoll box' factory')) :
    box' = box ∧ factory' = factory ∧ s.weightingPoll current = none := by
  unfold currentEpochState at h
  cases hpoll : s.weightingPoll current with
  | none =>
    rw [readWeightingPoll_of_none hpoll] at h
    cases h
    exact ⟨rfl, rfl, rfl⟩
  | some poll =>
    rw [readWeightingPoll_of_some hpoll] at h
    by_cases heliminated : poll.eliminated = true
    · rw [if_pos heliminated] at h
      cases h
    · rw [if_neg heliminated] at h
      replace h : currentPollState nextOrder poll (poll.state genesis now) =
        .ok (.pendingCreatePoll box' factory') := h
      cases hstate : poll.state genesis now <;> rw [hstate] at h <;> exact nomatch h

theorem readState_pendingCreate {state : RoutineState F P O}
    (h : s.readState nextOrder genesis networkTime = .ok state)
    (hpending : state.currentEpochState = .pendingCreatePoll box factory) :
    s.readInflationBox genesis (networkTime * 1000) = some box ∧
      s.readPollFactory genesis (networkTime * 1000) = some factory ∧
      ∃ current, s.ReportsCurrent genesis (networkTime * 1000) current ∧
        s.weightingPoll current = none := by
  unfold readState at h
  cases hinit : s.initialized genesis (networkTime * 1000) with
  | none =>
    rw [hinit] at h
    cases h
    cases hpending
  | some entities =>
    obtain ⟨box', factory', permManager⟩ := entities
    obtain ⟨found, hfound, hrest⟩ := Option.bind_eq_some_iff.1 hinit
    obtain ⟨foundFactory, hfoundFactory, hperm⟩ := Option.bind_eq_some_iff.1 hrest
    obtain ⟨perm, -, hentities⟩ := Option.map_eq_some_iff.1 hperm
    cases hentities
    rw [hinit] at h
    obtain ⟨current, hcurrent, h⟩ := Exec.bind_eq_ok.1 h
    obtain ⟨earlier, -, h⟩ := Exec.bind_eq_ok.1 h
    obtain ⟨currentState, hstate, h⟩ := Exec.bind_eq_ok.1 h
    cases h
    subst hpending
    obtain ⟨rfl, rfl, hnone⟩ := currentEpochState_pendingCreate hstate
    have hactive : box.activeEpoch genesis (networkTime * 1000) = .ok current := by
      cases hactive : box.activeEpoch genesis (networkTime * 1000) with
      | error reason =>
        rw [hactive] at hcurrent
        cases hcurrent
      | ok epoch =>
        rw [hactive] at hcurrent
        cases hcurrent
        rfl
    exact ⟨hfound, hfoundFactory, current, ⟨box, hfound, hactive⟩, hnone⟩

end Projections

end Splash.Dao
