import Splash.Lib.SinglePrecision
import Splash.LpIndexer.Query

/-!
# Epochs and polls

Each epoch has a poll. Votes give weights to farms while the epoch lasts; afterwards the emission of
the epoch goes to the farms by their weights, and the poll is eliminated after a cooldown. The
inflation box and the poll factory count the epochs that have a poll. Times are in milliseconds.

* `le_timeMillisToEpoch` — how far the epoch computed in single precision may lag behind.
* `InflationBox.activeEpoch_eq_ok` — the epoch that a box is in.
* `InflationBox.schedule_iff` — how long the schedule of emissions lasts.
* `WeightingPoll.state_of_weight`, `WeightingPoll.state_of_exhausted` — the state of a poll whose
  epoch is not open, by its weights and the time.
-/

namespace Splash.Dao

open Lib SinglePrecision Exec List

/-! ## Time -/

def epochLen : ℕ := 604800000

/-- Period after the poll deadline after which the poll may be destroyed. -/
def cooldownPeriodMillis : ℕ := 2592000000

def cooldownPeriodExtraBuffer : ℕ := 300000

/-- Period after the poll deadline after which the distribution may start. -/
def distributeInflationStartDelayMillis : ℕ := 600000

/-- Added to the end of an epoch, such that transactions are entirely in the next one. -/
def epochBoundaryShift : ℕ := 3600000

def u32Max : ℕ := 2 ^ 32 - 1

def epochStart (genesis epoch : ℕ) : ℕ := genesis + epoch * epochLen

def epochEnd (genesis epoch : ℕ) : ℕ := epochStart genesis epoch + epochLen

/-- The epoch of a time, computed in single precision. The conversion to 32 bits saturates. -/
def timeMillisToEpoch (timeMillis genesis : ℕ) : ℕ :=
  min (floorQuotient (roundNat (timeMillis - genesis))
    (roundNat epochLen)) u32Max

theorem epochEnd_eq (genesis epoch : ℕ) : epochEnd genesis epoch = epochStart genesis (epoch + 1) := by
  unfold epochEnd epochStart
  rw [add_mul, one_mul, add_assoc]

/-- The computed epoch has reached `epoch` when the time is behind its start by more than one part
in `2 ^ 24` of the time since genesis. -/
theorem le_timeMillisToEpoch {timeMillis genesis epoch : ℕ} (hepoch : epoch < 2 ^ 24)
    (h : epochStart genesis epoch + (timeMillis - genesis) / 2 ^ 24 ≤ timeMillis) :
    epoch ≤ timeMillisToEpoch timeMillis genesis := by
  have hlen : roundNat epochLen = epochLen := by decide +kernel
  have hround := le_roundNat_add (timeMillis - genesis)
  unfold precision at hround
  unfold timeMillisToEpoch
  rw [hlen]
  apply le_min
  · apply le_floorQuotient (by decide) hepoch
    unfold epochStart at h
    omega
  · unfold u32Max
    omega

/-! ## Inflation boxes -/

abbrev FarmId := ℕ

/-- The box that holds the emission of the epochs to come. -/
structure InflationBox where
  lastProcessedEpoch : Option ℕ
  splashReserves : ℕ
  deriving DecidableEq, Repr

namespace InflationBox

section

variable (box : InflationBox)

/-- The epoch that the box is in. The difference is one of unsigned numbers. -/
def activeEpoch (genesis now : ℕ) : Exec ℕ :=
  box.lastProcessedEpoch.elim (pure 0) fun last => do
    let shifted ← subU64 now epochBoundaryShift
    pure (if epochEnd genesis last > shifted then last else last + 1)

def nextEpoch : ℕ := box.lastProcessedEpoch.elim 0 (· + 1)

def releaseNextTranche : Exec (InflationBox × ℕ) := do
  let rate ← LpIndexer.emissionRate box.nextEpoch
  let reserves ← subU64 box.splashReserves rate
  pure ({ lastProcessedEpoch := some box.nextEpoch, splashReserves := reserves }, rate)

def stableId : ℕ := box.nextEpoch

end

variable {box : InflationBox} {epoch n : ℕ}

theorem activeEpoch_of_none (h : box.lastProcessedEpoch = none) (genesis now : ℕ) :
    box.activeEpoch genesis now = .ok 0 := by
  unfold activeEpoch
  rw [h]
  rfl

theorem activeEpoch_eq_ok {last : ℕ} (h : box.lastProcessedEpoch = some last) {genesis now : ℕ} :
    box.activeEpoch genesis now = .ok epoch ↔
      epochBoundaryShift ≤ now ∧
        (epoch = last ∧ now < epochEnd genesis last + epochBoundaryShift ∨
          epoch = last + 1 ∧ epochEnd genesis last + epochBoundaryShift ≤ now) := by
  unfold activeEpoch
  rw [h]
  simp only [Option.elim_some, bind_eq_ok, subU64_eq_ok, pure_eq_ok]
  constructor
  · rintro ⟨shifted, hshifted, hepoch⟩
    split at hepoch <;> omega
  · rintro ⟨hle, hcases⟩
    refine ⟨now - epochBoundaryShift, by omega, ?_⟩
    split <;> omega

/-! ### The schedule -/

open LpIndexer

def totalCommunityEmission : ℕ := 32000000000000

/-- The first `n` releases from the total emission, the last tranche first. -/
def releases : ℕ → Exec (InflationBox × List ℕ)
  | 0 => pure (⟨none, totalCommunityEmission⟩, [])
  | n + 1 => do
    let released ← releases n
    let (box, tranche) ← released.1.releaseNextTranche
    pure (box, tranche :: released.2)

theorem emissionInRange_iff : EmissionInRange epoch ↔ epoch < 390 := by
  constructor
  · intro h
    by_contra hlarge
    have hperiod : 30 ≤ epoch / emissionReductionPeriodLen :=
      (Nat.le_div_iff_mul_le (by decide)).2 (not_lt.1 hlarge)
    have hpow := Nat.pow_le_pow_right (n := tailReductionRateNum) (by decide)
      (Nat.sub_le_sub_right hperiod 1)
    obtain h | ⟨-, h, -⟩ := h
    · omega
    · exact absurd ((Nat.mul_le_mul_left _ hpow).trans h) (by decide +kernel)
  · exact fun h => (by decide +kernel : ∀ epoch < 390, EmissionInRange epoch) epoch h

theorem exactEmission_le {earlier : ℕ} (h : earlier ≤ epoch) (hepoch : epoch < 390) :
    exactEmission epoch ≤ exactEmission earlier := by
  have hstep : ∀ n < 389, exactEmission (n + 1) ≤ exactEmission n := by decide +kernel
  induction epoch, h using Nat.le_induction with
  | base => rfl
  | succ n hn ih => exact (hstep n (by omega)).trans (ih (by omega))

theorem sum_releases {r : InflationBox × List ℕ} (h : releases n = .ok r) :
    r.2.sum + r.1.splashReserves = totalCommunityEmission := by
  induction n generalizing r with
  | zero =>
    cases h
    rfl
  | succ n ih =>
    obtain ⟨released, hreleased, h⟩ := bind_eq_ok.1 h
    obtain ⟨⟨box, tranche⟩, hnext, h⟩ := bind_eq_ok.1 h
    cases h
    obtain ⟨rate, -, hnext⟩ := bind_eq_ok.1 hnext
    obtain ⟨reserves, hreserves, hnext⟩ := bind_eq_ok.1 hnext
    cases hnext
    rw [← ih hreleased, subU64_eq_ok.1 hreserves, List.sum_cons]
    ring

theorem exists_releases_of_le {m : ℕ} (hle : m ≤ n) (h : ∃ r, releases n = .ok r) :
    ∃ r, releases m = .ok r := by
  induction n, hle using Nat.le_induction with
  | base => exact h
  | succ n _ ih =>
    obtain ⟨r, hr⟩ := h
    obtain ⟨released, hreleased, -⟩ := bind_eq_ok.1 hr
    exact ih ⟨released, hreleased⟩

theorem exists_releases_iff : (∃ r, releases n = .ok r) ↔ n ≤ 364 := by
  constructor
  · intro h
    by_contra hn
    obtain ⟨r, hr⟩ := exists_releases_of_le (not_le.1 hn) h
    have hok : (releases 365).isOk = true := by rw [hr]; rfl
    exact absurd hok (by decide +kernel)
  · intro hn
    refine exists_releases_of_le hn ?_
    have hok : (releases 364).isOk = true := by decide +kernel
    cases h : releases 364 with
    | ok r => exact ⟨r, rfl⟩
    | error e => cases h ▸ hok

/-- **The schedule** can be computed before the epoch in which a product exceeds 512 bits, and the
total emission lasts for 364 tranches. -/
theorem schedule_iff (epoch n : ℕ) :
    ((∃ rate, emissionRate epoch = .ok rate ∧
      ∀ earlier < epoch, ∃ r, emissionRate earlier = .ok r ∧ rate ≤ r) ↔ epoch < 390) ∧
    ((∃ r, releases n = .ok r ∧ r.2.sum + r.1.splashReserves = totalCommunityEmission) ↔
      n ≤ 364) := by
  simp only [emissionRate_eq_ok, emissionInRange_iff]
  refine ⟨⟨?_, fun h => ⟨_, ⟨h, rfl⟩, fun k hk => ?_⟩⟩, ?_⟩
  · rintro ⟨rate, ⟨h, -⟩, -⟩
    exact h
  · exact ⟨_, ⟨hk.trans h, rfl⟩, exactEmission_le hk.le h⟩
  · rw [← exists_releases_iff]
    constructor
    · rintro ⟨r, hr, -⟩
      exact ⟨r, hr⟩
    · rintro ⟨r, hr⟩
      exact ⟨r, hr, sum_releases hr⟩

theorem schedule_ends : emissionRate 390 = .error .overflow ∧ releases 365 = .error .overflow :=
  ⟨by decide +kernel, by decide +kernel⟩

end InflationBox

/-! ## Polls -/

structure WeightingPoll where
  epoch : ℕ
  distribution : List (FarmId × ℕ)
  emissionRate : ℕ
  remainingSplashEmission : ℕ
  weightingPower : Option ℕ
  eliminated : Bool
  deriving DecidableEq, Repr

inductive PollState where
  | weightingOngoing
  | distributionOngoing (farm : FarmId) (weight : ℕ)
  | waitingForDistributionToStart
  | pollExhaustedAndReadyToEliminate
  | pollExhaustedButNotReadyToEliminate
  | eliminated
  deriving DecidableEq, Repr

namespace WeightingPoll

variable (poll : WeightingPoll)

/-- The sum of the weights. It is taken only when there is no weight left. -/
def reservesSplash : ℕ := (poll.distribution.map (·.2)).sum

def distributionFinished : Bool := poll.reservesSplash == 0

def canBeEliminated (genesis timeNow : ℕ) : Bool :=
  poll.distributionFinished && !poll.eliminated &&
    decide (timeNow >
      epochEnd genesis poll.epoch + cooldownPeriodMillis + cooldownPeriodExtraBuffer)

def nextFarm : Option (FarmId × ℕ) :=
  poll.distribution.find? (fun entry => decide (entry.2 > 0))

def weightingOpen (genesis timeNow : ℕ) : Bool :=
  decide (epochStart genesis poll.epoch < timeNow ∧ epochEnd genesis poll.epoch > timeNow)

def state (genesis timeNow : ℕ) : PollState :=
  if poll.weightingOpen genesis timeNow then .weightingOngoing
  else
    match poll.nextFarm with
    | none =>
      if poll.eliminated then .eliminated
      else if poll.canBeEliminated genesis timeNow then .pollExhaustedAndReadyToEliminate
      else .pollExhaustedButNotReadyToEliminate
    | some (farm, weight) =>
      if timeNow > epochEnd genesis poll.epoch + distributeInflationStartDelayMillis then
        .distributionOngoing farm weight
      else .waitingForDistributionToStart

end WeightingPoll

/-- Adds a weight to the first entry of a farm; there has to be one. -/
def addWeight (farm : FarmId) (weight : ℕ) : List (FarmId × ℕ) → Exec (List (FarmId × ℕ))
  | [] => .error (.explicit "called `Option::unwrap()` on a `None` value")
  | entry :: rest =>
    if entry.1 = farm then do
      let sum ← addU64 entry.2 weight
      pure ((entry.1, sum) :: rest)
    else do
      let updated ← addWeight farm weight rest
      pure (entry :: updated)

def WeightingPoll.applyVotes (poll : WeightingPoll) (orderDistribution : List (FarmId × ℕ)) :
    Exec WeightingPoll := do
  let distribution ← orderDistribution.foldlM
    (fun distribution vote => addWeight vote.1 vote.2 distribution) poll.distribution
  pure { poll with distribution := distribution }

/-- Takes a weight from the first entry of a farm; there has to be one, with that much. -/
def takeWeight (farm : FarmId) (weight : ℕ) : List (FarmId × ℕ) → Exec (List (FarmId × ℕ))
  | [] => .error (.explicit "called `Option::unwrap()` on a `None` value")
  | entry :: rest =>
    if entry.1 = farm then
      if weight ≤ entry.2 then .ok ((entry.1, entry.2 - weight) :: rest)
      else .error (.explicit "assertion failed: old_weight >= farm_weight")
    else do
      let updated ← takeWeight farm weight rest
      pure (entry :: updated)

/-! ## The poll factory -/

structure PollFactory where
  lastPollEpoch : Option ℕ
  activeFarms : List FarmId
  deriving DecidableEq, Repr

namespace PollFactory

def nextEpoch (factory : PollFactory) : ℕ := factory.lastPollEpoch.elim 0 (· + 1)

/-- The poll of the next epoch, in which no farm has a weight yet. -/
def nextWeightingPoll (factory : PollFactory) (emissionRate : ℕ) : PollFactory × WeightingPoll :=
  ({ factory with lastPollEpoch := some factory.nextEpoch },
    { epoch := factory.nextEpoch
      distribution := factory.activeFarms.map fun farm => (farm, 0)
      emissionRate := emissionRate
      remainingSplashEmission := emissionRate
      weightingPower := none
      eliminated := false })

def stableId (factory : PollFactory) : ℕ := factory.nextEpoch

end PollFactory

/-! ## Weights -/

variable {entries entries' : List (FarmId × ℕ)}

theorem map_fst_of_addWeight {farm : FarmId} {weight : ℕ}
    (h : addWeight farm weight entries = .ok entries') :
    entries'.map (·.1) = entries.map (·.1) := by
  induction entries generalizing entries' with
  | nil => exact nomatch h
  | cons entry rest ih =>
    unfold addWeight at h
    split at h
    · obtain ⟨sum, -, hsum⟩ := bind_eq_ok.1 h
      cases hsum
      rfl
    · obtain ⟨updated, hupdated, hcons⟩ := bind_eq_ok.1 h
      cases hcons
      rw [map_cons, map_cons, ih hupdated]

theorem WeightingPoll.map_fst_of_applyVotes {poll poll' : WeightingPoll}
    {votes : List (FarmId × ℕ)} (h : poll.applyVotes votes = .ok poll') :
    poll'.distribution.map (·.1) = poll.distribution.map (·.1) ∧
      poll' = { poll with distribution := poll'.distribution } := by
  obtain ⟨distribution, hvotes, hpoll⟩ := bind_eq_ok.1 h
  cases hpoll
  refine ⟨?_, rfl⟩
  clear h
  generalize poll.distribution = entries at hvotes
  induction votes generalizing entries with
  | nil =>
    cases hvotes
    rfl
  | cons vote votes ih =>
    rw [foldlM_cons] at hvotes
    obtain ⟨next, hnext, hrest⟩ := bind_eq_ok.1 hvotes
    exact (ih _ hrest).trans (map_fst_of_addWeight hnext)

theorem takeWeight_spec {farm : FarmId} {weight : ℕ}
    (h : takeWeight farm weight entries = .ok entries') :
    entries'.map (·.1) = entries.map (·.1) ∧
      ((∀ entry ∈ entries, entry.2 = 0) → ∀ entry ∈ entries', entry.2 = 0) := by
  induction entries generalizing entries' with
  | nil => exact nomatch h
  | cons entry rest ih =>
    unfold takeWeight at h
    split at h
    · split at h
      · cases h
        refine ⟨rfl, fun hzero e he => ?_⟩
        rcases mem_cons.1 he with rfl | hrest
        · have hhead := hzero entry mem_cons_self
          show entry.2 - weight = 0
          omega
        · exact hzero e (mem_cons_of_mem _ hrest)
      · cases h
    · obtain ⟨updated, hupdated, hcons⟩ := bind_eq_ok.1 h
      cases hcons
      obtain ⟨hfarms, hweights⟩ := ih hupdated
      refine ⟨by rw [map_cons, map_cons, hfarms], fun hzero e he => ?_⟩
      rcases mem_cons.1 he with rfl | hrest
      · exact hzero e mem_cons_self
      · exact hweights (fun e' he' => hzero e' (mem_cons_of_mem _ he')) e hrest

/-! ## The states of a poll -/

namespace WeightingPoll

variable {poll : WeightingPoll} {genesis now : ℕ}

theorem weightingOpen_eq_true : poll.weightingOpen genesis now = true ↔
    epochStart genesis poll.epoch < now ∧ now < epochEnd genesis poll.epoch :=
  decide_eq_true_iff

theorem nextFarm_eq_none : poll.nextFarm = none ↔ ∀ entry ∈ poll.distribution, entry.2 = 0 := by
  unfold nextFarm
  simp only [List.find?_eq_none, decide_eq_true_iff, not_lt, Nat.le_zero]

theorem nextFarm_mem {entry : FarmId × ℕ} (h : poll.nextFarm = some entry) :
    entry ∈ poll.distribution :=
  mem_of_find?_eq_some h

theorem distributionFinished_of_nextFarm (h : poll.nextFarm = none) :
    poll.distributionFinished = true := by
  rw [distributionFinished, beq_iff_eq, reservesSplash, sum_eq_zero_iff]
  intro weight hweight
  obtain ⟨entry, hentry, rfl⟩ := mem_map.1 hweight
  exact nextFarm_eq_none.1 h entry hentry

theorem nextFarm_of_distributionFinished (h : poll.distributionFinished = true) :
    poll.nextFarm = none := by
  rw [distributionFinished, beq_iff_eq, reservesSplash, sum_eq_zero_iff] at h
  rw [nextFarm_eq_none]
  intro entry hentry
  exact h _ (mem_map_of_mem hentry)

theorem canBeEliminated_eq_true : poll.canBeEliminated genesis now = true ↔
    poll.nextFarm = none ∧ poll.eliminated = false ∧
      epochEnd genesis poll.epoch + cooldownPeriodMillis + cooldownPeriodExtraBuffer < now := by
  unfold canBeEliminated
  rw [Bool.and_eq_true, Bool.and_eq_true, Bool.not_eq_true', decide_eq_true_iff, and_assoc]
  exact and_congr_left' ⟨nextFarm_of_distributionFinished, distributionFinished_of_nextFarm⟩

theorem state_of_open (h : poll.weightingOpen genesis now = true) :
    poll.state genesis now = .weightingOngoing := if_pos h

section

variable (hclosed : poll.weightingOpen genesis now = false)
include hclosed

theorem state_of_weight {entry : FarmId × ℕ}
    (h : poll.nextFarm = some entry) : poll.state genesis now =
      if epochEnd genesis poll.epoch + distributeInflationStartDelayMillis < now then
        .distributionOngoing entry.1 entry.2
      else .waitingForDistributionToStart := by
  unfold state
  rw [if_neg (by rw [hclosed]; exact Bool.false_ne_true), h]

theorem state_of_exhausted
    (h : poll.nextFarm = none) : poll.state genesis now =
      if poll.eliminated then .eliminated
      else if epochEnd genesis poll.epoch + cooldownPeriodMillis + cooldownPeriodExtraBuffer < now then
        .pollExhaustedAndReadyToEliminate
      else .pollExhaustedButNotReadyToEliminate := by
  unfold state
  rw [if_neg (by rw [hclosed]; exact Bool.false_ne_true), h]
  by_cases heliminated : poll.eliminated = true
  · simp only [if_pos heliminated]
  · simp only [if_neg heliminated]
    congr 1
    rw [canBeEliminated_eq_true]
    simp only [h, Bool.eq_false_iff.2 heliminated, true_and]

theorem state_ne_weightingOngoing :
    poll.state genesis now ≠ .weightingOngoing := by
  intro h
  cases hnext : poll.nextFarm with
  | none =>
    rw [state_of_exhausted hclosed hnext] at h
    split at h
    · cases h
    · split at h <;> exact nomatch h
  | some entry =>
    rw [state_of_weight hclosed hnext] at h
    split at h <;> exact nomatch h

end

/-- A poll that distributes is past its delay, and the farm is the first one with a weight. -/
theorem state_eq_distributionOngoing {farm : FarmId} {weight : ℕ}
    (h : poll.state genesis now = .distributionOngoing farm weight) :
    poll.nextFarm = some (farm, weight) ∧
      epochEnd genesis poll.epoch + distributeInflationStartDelayMillis < now := by
  by_cases hopen : poll.weightingOpen genesis now = true
  · rw [state_of_open hopen] at h
    cases h
  rw [Bool.not_eq_true] at hopen
  cases hnext : poll.nextFarm with
  | none =>
    rw [state_of_exhausted hopen hnext] at h
    split at h
    · cases h
    · split at h <;> exact nomatch h
  | some entry =>
    rw [state_of_weight hopen hnext] at h
    split at h
    case isTrue hlate =>
      cases h
      exact ⟨rfl, hlate⟩
    case isFalse => exact nomatch h

end WeightingPoll

end Splash.Dao
