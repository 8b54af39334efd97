import Splash.LpIndexer.Store

/-!
# Rewards of an account

`query_account` goes through the pools of an account and their positions by increasing epochs, and
adds up the rewards. All pools share the greatest epoch counted so far and a cache of active pools.

* `queryAccount` — the query.
* `reward_safe_iff` — when the reward of a position is computed safely.
* `owed` — the rewards of the account in its pools that are not suspended.
* `tallies_queryPool`, `tallies_foldlM` — what the visited entries add to the sum.
* `counted_eq_filter` — which entries are counted: an entry is masked when an earlier pool has one in
  the same or a later epoch.
* `queryAccount_eq_ok` — when the query returns, and the amount it returns.
* **`queryAccount_exact_iff`** — the amount is the one owed exactly when the entries that earlier
  pools mask are worth as much as the counted entries of suspended pools.
-/

namespace Splash.LpIndexer

open Lib Exec List Option

/-! ## The reward of a position -/

def emissionReductionPeriodLen : ℕ := 13

def rateInitial : ℕ := 224000000000

def rateAfterFirstReduction : ℕ := 156800000000

def tailReductionRateNum : ℕ := 94524

def tailReductionRateDen : ℕ := 100000

/-- The emission of an epoch. Powers have 512 bits. -/
def emissionRate (epoch : ℕ) : Exec ℕ :=
  let reductionPeriod := epoch / emissionReductionPeriodLen
  if reductionPeriod = 0 then .ok rateInitial
  else if reductionPeriod = 1 then .ok rateAfterFirstReduction
  else do
    let numPow ← fit u512Max (tailReductionRateNum ^ (reductionPeriod - 1))
    let num ← fit u512Max (rateAfterFirstReduction * numPow)
    let denom ← fit u512Max (tailReductionRateDen ^ (reductionPeriod - 1))
    divide num denom

def exactEmission (epoch : ℕ) : ℕ :=
  if epoch / emissionReductionPeriodLen = 0 then rateInitial
  else rateAfterFirstReduction * tailReductionRateNum ^ (epoch / emissionReductionPeriodLen - 1) /
    tailReductionRateDen ^ (epoch / emissionReductionPeriodLen - 1)

def EmissionInRange (epoch : ℕ) : Prop :=
  epoch / emissionReductionPeriodLen ≤ 1 ∨
    tailReductionRateNum ^ (epoch / emissionReductionPeriodLen - 1) ≤ u512Max ∧
    rateAfterFirstReduction * tailReductionRateNum ^ (epoch / emissionReductionPeriodLen - 1)
      ≤ u512Max ∧
    tailReductionRateDen ^ (epoch / emissionReductionPeriodLen - 1) ≤ u512Max

instance (epoch : ℕ) : Decidable (EmissionInRange epoch) := inferInstanceAs (Decidable (_ ∨ _))

variable {cfg : Settings} {current epoch fromEpoch n : ℕ} {pid : PoolId}

theorem emissionRate_eq_ok :
    emissionRate epoch = .ok n ↔ EmissionInRange epoch ∧ n = exactEmission epoch := by
  unfold emissionRate EmissionInRange exactEmission
  generalize epoch / emissionReductionPeriodLen = k
  match k with
  | 0 => simp [eq_comm]
  | 1 => simp [eq_comm]
  | k + 2 =>
    have hden : tailReductionRateDen ^ (k + 1) ≠ 0 := pow_ne_zero _ (by decide)
    have hone : k + 2 ≠ 1 := by omega
    have hlarge : ¬ k + 2 ≤ 1 := by omega
    rw [if_neg (Nat.succ_ne_zero _), if_neg (Nat.succ_ne_zero _), if_neg hone]
    simp only [bind_eq_ok, fit_eq_ok, divide_eq_ok, hlarge, false_or,
      show k + 2 - 1 = k + 1 from rfl]
    constructor
    · rintro ⟨_, ⟨hpow, rfl⟩, _, ⟨hnum, rfl⟩, _, ⟨hdenom, rfl⟩, -, rfl⟩
      exact ⟨⟨hpow, hnum, hdenom⟩, rfl⟩
    · rintro ⟨⟨hpow, hnum, hdenom⟩, rfl⟩
      exact ⟨_, ⟨hpow, rfl⟩, _, ⟨hnum, rfl⟩, _, ⟨hdenom, rfl⟩, hden, rfl⟩

section

variable (epoch : ℕ) (w : GaugeWeight) (positionShareBps : ℕ)

def gaugeRewardInEpoch : Exec ℕ := do
  let emission ← emissionRate (epoch % 2 ^ 32)
  let gaugeReward ← w.mul emission
  let scaled ← fit u64Max (gaugeReward * positionShareBps)
  return scaled / 10000

def gaugeEmission : ℕ :=
  w.weight * exactEmission (epoch % 2 ^ 32) / w.total % 2 ^ 64

def exactGaugeReward : ℕ :=
  gaugeEmission epoch w * positionShareBps / 10000

def GaugeRewardInRange : Prop :=
  EmissionInRange (epoch % 2 ^ 32) ∧ w.total ≠ 0 ∧
    gaugeEmission epoch w * positionShareBps ≤ u64Max

end

theorem gaugeRewardInEpoch_eq_ok {w : GaugeWeight} {bps : ℕ} :
    gaugeRewardInEpoch epoch w bps = .ok n ↔
      GaugeRewardInRange epoch w bps ∧ n = exactGaugeReward epoch w bps := by
  unfold gaugeRewardInEpoch GaugeRewardInRange exactGaugeReward gaugeEmission GaugeWeight.mul
  simp only [bind_eq_ok, emissionRate_eq_ok, divide_eq_ok, fit_eq_ok, pure_eq_ok]
  constructor
  · rintro ⟨_, ⟨hem, rfl⟩, _, ⟨_, ⟨htotal, rfl⟩, rfl⟩, _, ⟨hfit, rfl⟩, rfl⟩
    exact ⟨⟨hem, htotal, hfit⟩, rfl⟩
  · rintro ⟨⟨hem, htotal, hfit⟩, rfl⟩
    exact ⟨_, ⟨hem, rfl⟩, _, ⟨_, ⟨htotal, rfl⟩, rfl⟩, _, ⟨hfit, rfl⟩, rfl⟩

/-- A position of the account in an epoch in which its pool has a gauge. -/
structure Entry where
  pool : PoolId
  epoch : ℕ
  position : AccountPosition
  weight : GaugeWeight

namespace Entry

def reward (x : Entry) : Exec ℕ := do
  gaugeRewardInEpoch x.epoch x.weight (← x.position.weightedAverageShareBps)

def exactReward (x : Entry) : ℕ := exactGaugeReward x.epoch x.weight x.position.exactAverage

def InRange (x : Entry) : Prop :=
  x.position.AverageInRange ∧ GaugeRewardInRange x.epoch x.weight x.position.exactAverage

theorem reward_eq_ok (x : Entry) (n : ℕ) : x.reward = .ok n ↔ x.InRange ∧ n = x.exactReward := by
  unfold reward InRange exactReward
  simp only [bind_eq_ok, AccountPosition.weightedAverageShareBps_eq_ok,
    gaugeRewardInEpoch_eq_ok]
  constructor
  · rintro ⟨_, ⟨havg, rfl⟩, hgauge, rfl⟩
    exact ⟨⟨havg, hgauge⟩, rfl⟩
  · rintro ⟨⟨havg, hgauge⟩, rfl⟩
    exact ⟨_, ⟨havg, rfl⟩, hgauge, rfl⟩

/-- The share of a gauge in the emission of an epoch, before it is cast to 64 bits. -/
def fullEmission (x : Entry) : ℕ := x.weight.weight * exactEmission (x.epoch % 2 ^ 32) / x.weight.total

/-- **When a reward is computed safely**: nothing is divided by zero, and nothing leaves its range. -/
theorem reward_safe_iff (x : Entry) :
    ((∃ n, x.reward = .ok n) ∧ x.fullEmission < 2 ^ 64) ↔
      (x.position.till = x.position.since ∨
        (∀ i ∈ x.position.shareIntervals, i.start ≤ i.stop ∧ i.share.2 ≠ 0 ∧
          i.share.1 * 10000 ≤ u64Max) ∧
        (x.position.shareIntervals.map ShareInterval.exactBps).sum ≤ u64Max ∧
        x.position.since ≤ x.position.till) ∧
      EmissionInRange (x.epoch % 2 ^ 32) ∧ x.weight.total ≠ 0 ∧ x.fullEmission < 2 ^ 64 ∧
      x.fullEmission * x.position.exactAverage ≤ u64Max := by
  have hreturns : (∃ n, x.reward = .ok n) ↔ x.InRange := by simp [reward_eq_ok]
  have hbps : (x.position.shareIntervals.map ShareInterval.exactBps).sum ≤ u64Max →
      ∀ i ∈ x.position.shareIntervals, i.exactBps ≤ u64Max := fun hsum i hi =>
    (single_le_sum (fun _ _ => Nat.zero_le _) _ (mem_map_of_mem hi)).trans hsum
  have hemission : x.fullEmission < 2 ^ 64 → gaugeEmission x.epoch x.weight = x.fullEmission :=
    Nat.mod_eq_of_lt
  unfold InRange AccountPosition.AverageInRange GaugeRewardInRange ShareInterval.InRange at hreturns
  rw [hreturns]
  constructor
  · rintro ⟨⟨havg, hem, htotal, hfit⟩, hfull⟩
    rw [hemission hfull] at hfit
    refine ⟨havg.imp_right fun h => ⟨fun i hi => ?_, h.2⟩, hem, htotal, hfull, hfit⟩
    obtain ⟨hle, hown, hsupply, -⟩ := h.1 i hi
    exact ⟨hle, hsupply, hown⟩
  · rintro ⟨havg, hem, htotal, hfull, hfit⟩
    rw [← hemission hfull] at hfit
    refine ⟨⟨havg.imp_right fun h => ⟨fun i hi => ?_, h.2⟩, hem, htotal, hfit⟩, hfull⟩
    obtain ⟨hle, hsupply, hown⟩ := h.1 i hi
    exact ⟨hle, hown, hsupply, hbps h.2.1 i hi⟩

/-- After all of a pool was redeemed, the average share divides by its supply. -/
theorem emptied_pool_panics :
    (do
      let p ← (⟨[]⟩ : AccountPosition).updateFromUserEvent ⟨1000, 0⟩ 10 (.deposit ⟨1, 7, 100, 100⟩)
      let p ← p.updateFromUserEvent ⟨1000, 0⟩ 20 (.redeem ⟨1, 7, 100, 0⟩)
      p.weightedAverageShareBps) = .error .divisionByZero := by
  decide

end Entry

/-! ## The query -/

structure AccountReward where
  amount : ℕ
  latestEpochInclusive : ℕ
  deriving DecidableEq

/-- What the pools share while they are visited: the greatest epoch counted and the active pools
looked up so far. -/
structure Scan where
  maxEpoch : ℕ
  activePoolsByEpoch : ℕ → Option (List PoolId)

variable (db : PositionDB)

/-- Looks the active pools of an epoch up in the cache, then in the database. -/
def Scan.lookup (st : Scan) (epoch : ℕ) : Option (List PoolId × Scan) :=
  (st.activePoolsByEpoch epoch).elim
    ((db.activePools epoch).map fun active =>
      (active, { st with
        activePoolsByEpoch := Function.update st.activePoolsByEpoch epoch (some active) }))
    fun active => some (active, st)

def visitPosition (current : ℕ) (pid : PoolId) (s : Scan × ℕ)
    (e : ℕ × AccountPosition) : Exec (Scan × ℕ) :=
  (s.1.lookup db e.1).elim (.ok s) fun hit =>
    if hit.1.contains pid then
      (db.gaugeWeights pid e.1).elim (.ok (hit.2, s.2)) fun w =>
        if ((e.1 = 0 ∧ hit.2.maxEpoch = 0) ∨ hit.2.maxEpoch < e.1) ∧ e.1 < current ∧ w.nonZero then do
          let reward ← Entry.reward ⟨pid, e.1, e.2, w⟩
          let sum ← addU64 s.2 reward
          return ({ hit.2 with
            maxEpoch := if hit.2.maxEpoch < e.1 then e.1 else hit.2.maxEpoch }, sum)
        else .ok (hit.2, s.2)
    else .ok (hit.2, s.2)

def queryPool (current : ℕ) (cred : Credential) (fromEpoch : ℕ) (s : Scan × ℕ)
    (pid : PoolId) : Exec (Scan × ℕ) :=
  if db.suspendedPools.getCurrentSuspendedPools.any (·.contains pid) then .ok s
  else do
    let r ← (db.positionsFrom pid cred fromEpoch).foldlM (visitPosition db current pid) (s.1, 0)
    return (r.1, ← addU64 s.2 r.2)

def queryAccount (cfg : Settings) (db : PositionDB) (cred : Credential) (fromEpoch : ℕ) :
    Exec (Option AccountReward) := do
  let slot ← expect "called unwrap on a None value" db.currentSlot
  if slot < cfg.epochStart then return none
  else
    let current ← cfg.converter.toEpoch (← subU64 slot cfg.confirmationDelaySlots)
    let r ← (db.accountPools cred).keys.foldlM (queryPool db current cred fromEpoch)
      (⟨0, fun _ => none⟩, 0)
    return some ⟨r.2, r.1.maxEpoch⟩

/-! ## What is counted -/

section

variable (current : ℕ) (cred : Credential) (fromEpoch : ℕ) (pid : PoolId)

/-- The entry of a position, when its pool is active and has weight in a past epoch. -/
def readyEntry (e : ℕ × AccountPosition) : Option Entry :=
  if (db.activePools e.1).any (·.contains pid) ∧ e.1 < current then
    ((db.gaugeWeights pid e.1).filter (·.nonZero)).map (Entry.mk pid e.1 e.2)
  else none

def entriesOf : List Entry :=
  (db.positionsFrom pid cred fromEpoch).filterMap (readyEntry db current pid)

def entries : List Entry :=
  (db.accountPools cred).keys.flatMap (entriesOf db current cred fromEpoch)

end

/-- The greatest epoch after some entries. -/
def latest (m : ℕ) (l : List Entry) : ℕ := l.foldl (fun m x => max m x.epoch) m

def counted : ℕ → List Entry → List Entry
  | _, [] => []
  | m, x :: l =>
    if (x.epoch = 0 ∧ m = 0) ∨ m < x.epoch then x :: counted (max m x.epoch) l
    else counted (max m x.epoch) l

theorem counted_append (m : ℕ) (l l' : List Entry) :
    counted m (l ++ l') = counted m l ++ counted (latest m l) l' := by
  induction l generalizing m with
  | nil => rfl
  | cons x l ih =>
    simp only [cons_append, counted, latest, foldl_cons]
    split
    · rw [cons_append, ih]
      rfl
    · exact ih _

/-- Within a pool, the entries after the greatest epoch are counted. -/
theorem counted_of_pairwise {l : List Entry} (h : l.Pairwise fun x y => x.epoch < y.epoch) (m : ℕ) :
    counted m l = l.filter fun x => m = 0 ∨ m < x.epoch := by
  induction l generalizing m with
  | nil => rfl
  | cons x l ih =>
    obtain ⟨hx, hl⟩ := pairwise_cons.1 h
    have hrest : counted (max m x.epoch) l = l.filter fun y => m = 0 ∨ m < y.epoch := by
      rw [ih hl]
      apply filter_congr
      intro y hy
      have hlt := hx y hy
      rw [decide_eq_decide]
      omega
    by_cases hcount : m = 0 ∨ m < x.epoch
    · rw [filter_cons_of_pos (by simpa using hcount), counted, if_pos (by omega), hrest]
    · rw [filter_cons_of_neg (by simpa using hcount), counted, if_neg (by omega), hrest]

/-! ## The visit adds up what is counted -/

/-- From any sum, `step` adds the rewards of the entries, and leaves the scan at `st`. -/
def Tallies (step : ℕ → Exec (Scan × ℕ)) (l : List Entry) (st : Scan) : Prop :=
  ∀ acc ≤ u64Max, ∀ r, step acc = .ok r ↔ (∀ x ∈ l, x.InRange) ∧
    acc + (l.map Entry.exactReward).sum ≤ u64Max ∧ r = (st, acc + (l.map Entry.exactReward).sum)

variable {db : PositionDB} {st : Scan} {cred : Credential}

namespace Tallies

theorem nil (st : Scan) : Tallies (fun acc => .ok (st, acc)) [] st := by
  intro acc hacc r
  simp [hacc, eq_comm]

theorem single (x : Entry) (st : Scan) :
    Tallies (fun acc => do
      let reward ← x.reward
      let sum ← addU64 acc reward
      return (st, sum)) [x] st := by
  intro acc _ r
  simp only [bind_eq_ok, x.reward_eq_ok, addU64_eq_ok, pure_eq_ok, map_cons,
    map_nil, sum_cons, sum_nil, add_zero, forall_mem_singleton]
  constructor
  · rintro ⟨_, ⟨hx, rfl⟩, _, ⟨hfit, rfl⟩, rfl⟩
    exact ⟨hx, hfit, rfl⟩
  · rintro ⟨hx, hfit, rfl⟩
    exact ⟨_, ⟨hx, rfl⟩, _, ⟨hfit, rfl⟩, rfl⟩

variable {f : ℕ → Exec (Scan × ℕ)} {l : List Entry}

theorem bind {g : Scan × ℕ → Exec (Scan × ℕ)} {l' : List Entry} {st st' : Scan}
    (hf : Tallies f l st) (hg : Tallies (fun acc => g (st, acc)) l' st') :
    Tallies (fun acc => f acc >>= g) (l ++ l') st' := by
  intro acc hacc r
  simp only [bind_eq_ok, hf acc hacc, map_append, sum_append,
    forall_mem_append]
  constructor
  · rintro ⟨_, ⟨hl, hle, rfl⟩, hr⟩
    obtain ⟨hl', hle', rfl⟩ := (hg _ hle r).1 hr
    exact ⟨⟨hl, hl'⟩, by omega, by rw [add_assoc]⟩
  · rintro ⟨⟨hl, hl'⟩, hle, rfl⟩
    have hle' : acc + (l.map Entry.exactReward).sum ≤ u64Max := by omega
    refine ⟨_, ⟨hl, hle', rfl⟩, (hg _ hle' _).2 ⟨hl', by omega, by rw [add_assoc]⟩⟩

/-- A sum of its own, added at the end, is the same sum. -/
theorem nested (hf : Tallies f l st) : Tallies (fun acc => do
      let r ← f 0
      return (r.1, ← addU64 acc r.2)) l st := by
  intro acc _ r
  simp only [bind_eq_ok, hf 0 (Nat.zero_le _), addU64_eq_ok, pure_eq_ok]
  constructor
  · rintro ⟨_, ⟨hl, -, rfl⟩, _, ⟨hle, rfl⟩, rfl⟩
    rw [zero_add] at hle ⊢
    exact ⟨hl, hle, rfl⟩
  · rintro ⟨hl, hle, rfl⟩
    refine ⟨_, ⟨hl, by omega, rfl⟩, _, ⟨?_, rfl⟩, ?_⟩
    · rw [zero_add]
      exact hle
    · rw [zero_add]

end Tallies

/-- The cache holds what the database holds. -/
def Scan.Agrees (db : PositionDB) (st : Scan) : Prop :=
  ∀ epoch active, st.activePoolsByEpoch epoch = some active → db.activePools epoch = some active

section

variable (h : st.Agrees db) (current : ℕ) (cred : Credential) (fromEpoch : ℕ) (pid : PoolId)
include h

theorem Scan.Agrees.lookup_none {epoch : ℕ} (hnone : db.activePools epoch = none) :
    st.lookup db epoch = none := by
  unfold Scan.lookup
  cases hcache : st.activePoolsByEpoch epoch with
  | none => simp [hnone]
  | some active => exact absurd (h _ _ hcache) (by simp [hnone])

theorem Scan.Agrees.lookup_some {epoch : ℕ} {active : List PoolId}
    (hsome : db.activePools epoch = some active) :
    ∃ st', st.lookup db epoch = some (active, st') ∧ st'.maxEpoch = st.maxEpoch ∧
      st'.Agrees db := by
  unfold Scan.lookup
  cases hcache : st.activePoolsByEpoch epoch with
  | none =>
    refine ⟨{ st with
      activePoolsByEpoch := Function.update st.activePoolsByEpoch epoch (some active) },
      by rw [hsome]; rfl, rfl, ?_⟩
    intro k l hk
    change Function.update st.activePoolsByEpoch epoch (some active) k = some l at hk
    rw [Function.update_apply] at hk
    split at hk
    · next heq => rw [heq, hsome, hk]
    · exact h k l hk
  | some l =>
    have heq : l = active := Option.some.inj ((h _ _ hcache).symm.trans hsome)
    exact ⟨st, by rw [heq]; rfl, rfl, h⟩

theorem tallies_visitPosition (e : ℕ × AccountPosition) :
    ∃ st', st'.Agrees db ∧ st'.maxEpoch = latest st.maxEpoch (readyEntry db current pid e).toList ∧
      Tallies (fun acc => visitPosition db current pid (st, acc) e)
        (counted st.maxEpoch (readyEntry db current pid e).toList) st' := by
  unfold visitPosition readyEntry
  cases hactive : db.activePools e.1 with
  | none =>
    have hlookup : st.lookup db e.1 = none := h.lookup_none hactive
    simp only [hlookup, any_none, Bool.false_eq_true, false_and, if_false,
      toList_none, elim_none]
    exact ⟨st, h, rfl, .nil st⟩
  | some active =>
    obtain ⟨st', hlookup, hmax, hagrees⟩ := h.lookup_some hactive
    simp only [hlookup, any_some, elim_some]
    by_cases hpid : active.contains pid = true
    · cases hweight : db.gaugeWeights pid e.1 with
      | none =>
        simp only [hpid, elim_none, filter_none, map_none, ite_self,
          toList_none]
        exact ⟨st', hagrees, hmax, .nil st'⟩
      | some w =>
        simp only [hpid, if_true, elim_some, true_and]
        by_cases hready : e.1 < current ∧ w.nonZero = true
        · obtain ⟨hpast, hw⟩ := hready
          have hentry : (if e.1 < current then
              ((some w).filter (·.nonZero)).map (Entry.mk pid e.1 e.2) else none).toList
                = [⟨pid, e.1, e.2, w⟩] := by simp [hpast, hw, Option.filter]
          rw [hentry]
          simp only [hpast, hw, and_true, hmax, counted, latest, foldl_cons, foldl_nil]
          by_cases hcount : (e.1 = 0 ∧ st.maxEpoch = 0) ∨ st.maxEpoch < e.1
          · simp only [hcount, if_true]
            refine ⟨_, ?_, ?_, Tallies.single ⟨pid, e.1, e.2, w⟩ _⟩
            · exact hagrees
            · change (if st.maxEpoch < e.1 then e.1 else st.maxEpoch) = max st.maxEpoch e.1
              split <;> omega
          · simp only [hcount, if_false]
            exact ⟨st', hagrees, by rw [hmax]; omega, .nil st'⟩
        · have hentry : (if e.1 < current then
              ((some w).filter (·.nonZero)).map (Entry.mk pid e.1 e.2) else none).toList = [] := by
            by_cases hpast : e.1 < current
            · have hw : w.nonZero = false := by simpa [hpast] using hready
              simp [hw, Option.filter]
            · simp [hpast]
          have hskip : ¬ (((e.1 = 0 ∧ st'.maxEpoch = 0) ∨ st'.maxEpoch < e.1) ∧ e.1 < current ∧
              w.nonZero = true) := fun hall => hready hall.2
          simp only [hentry, hskip, if_false]
          exact ⟨st', hagrees, hmax, .nil st'⟩
    · simp only [hpid, if_false, false_and, Bool.false_eq_true, toList_none]
      exact ⟨st', hagrees, hmax, .nil st'⟩

omit h in
theorem latest_append (m : ℕ) (l l' : List Entry) :
    latest m (l ++ l') = latest (latest m l) l' :=
  foldl_append

omit h in
theorem tallies_foldlM {α : Type} {step : Scan × ℕ → α → Exec (Scan × ℕ)} {f : α → List Entry}
    (hstep : ∀ st : Scan, st.Agrees db → ∀ a, ∃ st', st'.Agrees db ∧
      st'.maxEpoch = latest st.maxEpoch (f a) ∧
      Tallies (fun acc => step (st, acc) a) (counted st.maxEpoch (f a)) st')
    (l : List α) (st : Scan) (h : st.Agrees db) :
    ∃ st', st'.Agrees db ∧ st'.maxEpoch = latest st.maxEpoch (l.flatMap f) ∧
      Tallies (fun acc => l.foldlM step (st, acc)) (counted st.maxEpoch (l.flatMap f)) st' := by
  induction l generalizing st with
  | nil => exact ⟨st, h, rfl, .nil st⟩
  | cons a l ih =>
    obtain ⟨st₁, hagrees₁, hmax₁, htally₁⟩ := hstep st h a
    obtain ⟨st₂, hagrees₂, hmax₂, htally₂⟩ := ih st₁ hagrees₁
    refine ⟨st₂, hagrees₂, ?_, ?_⟩
    · rw [hmax₂, hmax₁, flatMap_cons, latest_append]
    · rw [flatMap_cons, counted_append, ← hmax₁]
      simp only [foldlM_cons]
      exact htally₁.bind htally₂

theorem tallies_queryPool : ∃ st', st'.Agrees db ∧
      st'.maxEpoch = latest st.maxEpoch (entriesOf db current cred fromEpoch pid) ∧
      Tallies (fun acc => queryPool db current cred fromEpoch (st, acc) pid)
        (counted st.maxEpoch (entriesOf db current cred fromEpoch pid)) st' := by
  have hentries : entriesOf db current cred fromEpoch pid = (db.positionsFrom pid cred fromEpoch).flatMap
      fun e => (readyEntry db current pid e).toList := by
    rw [entriesOf, filterMap_eq_flatMap_toList]
  rw [hentries]
  obtain ⟨st', hagrees, hmax, htally⟩ :=
    tallies_foldlM (fun st hst e => tallies_visitPosition hst current pid e)
      (db.positionsFrom pid cred fromEpoch) st h
  refine ⟨st', hagrees, hmax, ?_⟩
  unfold queryPool
  simp only [SuspendedPools.getCurrentSuspendedPools_eq_none, any_none, Bool.false_eq_true,
    if_false]
  exact htally.nested

end

/-- The greatest epoch that the entries of the pools before `pid` have. -/
def latestBefore (db : PositionDB) (current : ℕ) (cred : Credential) (fromEpoch : ℕ)
    (pid : PoolId) : ℕ :=
  latest 0 (((db.accountPools cred).keys.filter (· < pid)).flatMap
    (entriesOf db current cred fromEpoch))

/-- An entry is masked when an earlier pool has an entry in the same or a later epoch. -/
def masked (db : PositionDB) (current : ℕ) (cred : Credential) (fromEpoch : ℕ) (x : Entry) : Bool :=
  let m := latestBefore db current cred fromEpoch x.pool
  0 < m ∧ x.epoch ≤ m

theorem pool_of_mem_entriesOf {x : Entry} (hx : x ∈ entriesOf db current cred fromEpoch pid) :
    x.pool = pid := by
  obtain ⟨e, -, he⟩ := mem_filterMap.1 hx
  unfold readyEntry at he
  split at he
  · obtain ⟨w, -, rfl⟩ := map_eq_some_iff.1 he
    rfl
  · cases he

section

variable (db : PositionDB) (current : ℕ) (cred : Credential) (fromEpoch : ℕ)

theorem pairwise_entriesOf (pid : PoolId) :
    (entriesOf db current cred fromEpoch pid).Pairwise fun x y => x.epoch < y.epoch := by
  have hepoch : ∀ e x, readyEntry db current pid e = some x → x.epoch = e.1 := by
    intro e x he
    unfold readyEntry at he
    split at he
    · obtain ⟨w, -, rfl⟩ := map_eq_some_iff.1 he
      rfl
    · cases he
  refine pairwise_filterMap.2 ((db.pairwise_positionsFrom pid cred fromEpoch).imp ?_)
  intro a b hlt x hx y hy
  rw [hepoch a x hx, hepoch b y hy]
  exact hlt

theorem counted_eq_filter : counted 0 (entries db current cred fromEpoch)
      = (entries db current cred fromEpoch).filter fun x =>
          !masked db current cred fromEpoch x := by
  have hsorted := (db.accountPools cred).pairwise_keys
  -- The pools visited so far are those before the next one.
  suffices h : ∀ done todo, (db.accountPools cred).keys = done ++ todo →
      counted (latest 0 (done.flatMap (entriesOf db current cred fromEpoch)))
        (todo.flatMap (entriesOf db current cred fromEpoch))
        = (todo.flatMap (entriesOf db current cred fromEpoch)).filter fun x =>
            !masked db current cred fromEpoch x by
    exact h [] _ rfl
  intro done todo
  induction todo generalizing done with
  | nil => intro _; rfl
  | cons pid todo ih =>
    intro hkeys
    have hbefore : (db.accountPools cred).keys.filter (· < pid) = done := by
      rw [hkeys, pairwise_append, pairwise_cons] at hsorted
      obtain ⟨-, ⟨htodo, -⟩, hdone⟩ := hsorted
      rw [hkeys, filter_append, filter_cons_of_neg (by simp)]
      rw [filter_eq_self.2 fun q hq => by simpa using hdone q hq pid mem_cons_self]
      rw [filter_eq_nil_iff.2 fun q hq => by simpa using (htodo q hq).le, append_nil]
    have hthis : counted (latest 0 (done.flatMap (entriesOf db current cred fromEpoch)))
        (entriesOf db current cred fromEpoch pid)
        = (entriesOf db current cred fromEpoch pid).filter fun x =>
            !masked db current cred fromEpoch x := by
      rw [counted_of_pairwise (pairwise_entriesOf db current cred fromEpoch pid)]
      apply filter_congr
      intro x hx
      simp only [masked, latestBefore, pool_of_mem_entriesOf hx, hbefore]
      rw [← decide_not, decide_eq_decide]
      omega
    rw [flatMap_cons, counted_append, filter_append, hthis, ← latest_append]
    congr 1
    have hnext := ih (done ++ [pid]) (by rw [hkeys, append_assoc]; rfl)
    rw [flatMap_append, flatMap_singleton] at hnext
    exact hnext

/-! ## What is owed -/

/-- What a pool owes to an account for an epoch. -/
def owedIn (pid : PoolId) (epoch : ℕ) : ℕ :=
  if (db.activePools epoch).any (·.contains pid) then
    ((db.gaugeWeights pid epoch).filter (·.nonZero)).elim 0 fun w =>
      ((db.accountPositions pid).get? (toLex (cred, epoch))).elim 0 fun p =>
        exactGaugeReward epoch w p.exactAverage
  else 0

/-- What the pools that are not suspended owe to an account for the epochs from one up to another. -/
def owed : ℕ :=
  (((db.accountPools cred).keys.filter fun pid => !db.suspendedPools.recorded.contains pid).map
    fun pid => ∑ epoch ∈ Finset.Ico fromEpoch current, owedIn db cred pid epoch).sum

end

def rewards (l : List Entry) : ℕ := (l.map Entry.exactReward).sum

@[simp] theorem rewards_nil : rewards [] = 0 := rfl

@[simp] theorem rewards_cons (x : Entry) (l : List Entry) :
    rewards (x :: l) = x.exactReward + rewards l := by
  simp [rewards]

@[simp] theorem rewards_append (l l' : List Entry) : rewards (l ++ l') = rewards l + rewards l' := by
  simp [rewards]

theorem rewards_readyEntry {e : ℕ × AccountPosition} (he : e ∈ db.positionsFrom pid cred fromEpoch) :
    rewards (readyEntry db current pid e).toList
      = if e.1 < current then owedIn db cred pid e.1 else 0 := by
  have hget := (PositionDB.mem_positionsFrom.1 he).1
  unfold readyEntry owedIn
  rw [hget]
  by_cases hpast : e.1 < current
  · by_cases hactive : (db.activePools e.1).any (·.contains pid) = true
    · simp only [hactive, hpast, and_self, if_true]
      cases (db.gaugeWeights pid e.1).filter (·.nonZero) with
      | none => rfl
      | some w => simp [Entry.exactReward]
    · rw [if_neg fun h => hactive h.1, if_neg hactive, ite_self]
      rfl
  · rw [if_neg fun h => hpast h.2, if_neg hpast]
    rfl

section

variable (db : PositionDB) (current : ℕ) (cred : Credential) (fromEpoch : ℕ)

theorem rewards_entriesOf (pid : PoolId) : rewards (entriesOf db current cred fromEpoch pid)
      = ∑ epoch ∈ Finset.Ico fromEpoch current, owedIn db cred pid epoch := by
  have hnodup : ((db.positionsFrom pid cred fromEpoch).map Prod.fst).Nodup :=
    pairwise_map.2 ((db.pairwise_positionsFrom pid cred fromEpoch).imp Nat.ne_of_lt)
  have hlist : ∀ l : List (ℕ × AccountPosition), (∀ e ∈ l, e ∈ db.positionsFrom pid cred fromEpoch) →
      rewards (l.filterMap (readyEntry db current pid))
        = ((l.map Prod.fst).map fun k => if k < current then owedIn db cred pid k else 0).sum := by
    intro l hl
    induction l with
    | nil => rfl
    | cons e l ih =>
      obtain ⟨he, hl⟩ := forall_mem_cons.1 hl
      rw [map_cons, map_cons, sum_cons, ← ih hl, ← rewards_readyEntry he,
        ← rewards_append, filterMap_cons]
      cases readyEntry db current pid e <;> rfl
  have habsent : ∀ k ∈ Finset.Ico fromEpoch current,
      k ∉ ((db.positionsFrom pid cred fromEpoch).map Prod.fst).toFinset.filter (· < current) →
        owedIn db cred pid k = 0 := by
    intro k hk hnot
    obtain ⟨hfrom, hpast⟩ := Finset.mem_Ico.1 hk
    have hnone : (db.accountPositions pid).get? (toLex (cred, k)) = none := by
      by_contra hsome
      obtain ⟨p, hp⟩ := ne_none_iff_exists'.1 hsome
      refine hnot (Finset.mem_filter.2 ⟨mem_toFinset.2 (mem_map.2 ⟨(k, p), ?_, rfl⟩), hpast⟩)
      exact PositionDB.mem_positionsFrom.2 ⟨hp, hfrom⟩
    simp only [owedIn, hnone, elim_none]
    cases (db.gaugeWeights pid k).filter (·.nonZero) <;> simp
  rw [entriesOf, hlist _ fun e he => he, ← sum_toFinset _ hnodup, ← Finset.sum_filter]
  refine Finset.sum_subset ?_ habsent
  intro k hk
  obtain ⟨hmem, hpast⟩ := Finset.mem_filter.1 hk
  obtain ⟨e, he, rfl⟩ := mem_map.1 (mem_toFinset.1 hmem)
  exact Finset.mem_Ico.2 ⟨(PositionDB.mem_positionsFrom.1 he).2, hpast⟩

def suspended (x : Entry) : Bool := db.suspendedPools.recorded.contains x.pool

theorem owed_eq : owed db current cred fromEpoch
      = rewards ((entries db current cred fromEpoch).filter fun x => !suspended db x) := by
  unfold owed entries
  induction (db.accountPools cred).keys with
  | nil => rfl
  | cons pid l ih =>
    have hpool : (entriesOf db current cred fromEpoch pid).filter (fun x => !suspended db x)
        = if db.suspendedPools.recorded.contains pid then []
          else entriesOf db current cred fromEpoch pid := by
      split
      · next hs =>
        rw [filter_eq_nil_iff]
        intro x hx
        simpa [suspended, pool_of_mem_entriesOf hx] using hs
      · next hs =>
        rw [filter_eq_self]
        intro x hx
        simpa [suspended, pool_of_mem_entriesOf hx] using hs
    rw [flatMap_cons, filter_append, rewards_append, hpool, ← ih, filter_cons]
    cases hs : db.suspendedPools.recorded.contains pid with
    | true =>
      simp only [Bool.not_true, Bool.false_eq_true, if_false, if_true, rewards_nil, zero_add]
    | false =>
      simp only [Bool.not_false, Bool.false_eq_true, if_false, if_true, map_cons,
        sum_cons, rewards_entriesOf]

end

/-- Two ways to split the entries, by what is counted and by what is owed. -/
theorem rewards_split (p q : Entry → Bool) (l : List Entry) :
    rewards (l.filter fun x => !p x) + rewards (l.filter fun x => !q x && p x)
      = rewards (l.filter fun x => !q x) + rewards (l.filter fun x => q x && !p x) := by
  induction l with
  | nil => rfl
  | cons x l ih =>
    cases hp : p x <;> cases hq : q x <;> simp [hp, hq] <;> omega

/-! ## The result -/

def ConfirmedEpoch (cfg : Settings) (db : PositionDB) (current : ℕ) : Prop :=
  ∃ slot, db.currentSlot = some slot ∧ cfg.confirmationDelaySlots ≤ slot ∧
    cfg.epochStart ≤ slot - cfg.confirmationDelaySlots ∧
    current = (slot - cfg.confirmationDelaySlots - cfg.epochStart) / cfg.numSlotsInEpoch

theorem ConfirmedEpoch.unique {m : ℕ} (hm : ConfirmedEpoch cfg db m) (hn : ConfirmedEpoch cfg db n) :
    m = n := by
  obtain ⟨s, hs, -, -, rfl⟩ := hm
  obtain ⟨t, ht, -, -, rfl⟩ := hn
  rw [Option.some.inj (hs.symm.trans ht)]

/-- The entries that the query adds up. -/
def unmasked (db : PositionDB) (current : ℕ) (cred : Credential) (fromEpoch : ℕ) : List Entry :=
  (entries db current cred fromEpoch).filter fun x => !masked db current cred fromEpoch x

theorem queryAccount_eq_ok :
    (∃ r, queryAccount cfg db cred fromEpoch = .ok (some r) ∧ r.amount = n) ↔
      ∃ current, ConfirmedEpoch cfg db current ∧
        (∀ x ∈ unmasked db current cred fromEpoch, x.InRange) ∧
        rewards (unmasked db current cred fromEpoch) ≤ u64Max ∧
        n = rewards (unmasked db current cred fromEpoch) := by
  have hpools : ∀ current, ∃ st, Tallies
      (fun acc => (db.accountPools cred).keys.foldlM (queryPool db current cred fromEpoch)
        (⟨0, fun _ => none⟩, acc)) (unmasked db current cred fromEpoch) st := by
    intro current
    obtain ⟨st, -, -, htally⟩ := tallies_foldlM
      (fun st hst pid => tallies_queryPool hst current cred fromEpoch pid)
      (db.accountPools cred).keys ⟨0, fun _ => none⟩ (fun _ _ h => nomatch h)
    refine ⟨st, ?_⟩
    rw [unmasked, ← counted_eq_filter]
    exact htally
  unfold queryAccount
  simp only [bind_eq_ok, expect_eq_ok]
  constructor
  · rintro ⟨r, ⟨slot, hslot, h⟩, rfl⟩
    split at h
    · cases Except.ok.inj h
    · simp only [bind_eq_ok, subU64_eq_ok, EpochSlotConversion.toEpoch_eq_ok,
        pure_eq_ok] at h
      obtain ⟨confirmed, hconf, current, ⟨hstart, -, hcurrent⟩, s, hs, hr⟩ := h
      obtain ⟨st, htally⟩ := hpools current
      obtain ⟨hall, hle, rfl⟩ := (htally 0 (Nat.zero_le _) s).1 hs
      cases hr
      have hsub : slot - cfg.confirmationDelaySlots = confirmed := by omega
      rw [zero_add] at hle
      refine ⟨current, ⟨slot, hslot, by omega, by rw [hsub]; exact hstart, ?_⟩, hall, hle, zero_add _⟩
      rw [hsub]
      exact hcurrent
  · rintro ⟨current, ⟨slot, hslot, hdelay, hstart, hcurrent⟩, hall, hle, rfl⟩
    obtain ⟨st, htally⟩ := hpools current
    have hs := (htally 0 (Nat.zero_le _) _).2 ⟨hall, by rw [zero_add]; exact hle, rfl⟩
    rw [zero_add] at hs
    refine ⟨⟨_, st.maxEpoch⟩, ⟨slot, hslot, ?_⟩, rfl⟩
    rw [if_neg (by omega)]
    simp only [bind_eq_ok, subU64_eq_ok, EpochSlotConversion.toEpoch_eq_ok, pure_eq_ok]
    exact ⟨slot - cfg.confirmationDelaySlots, by omega, current,
      ⟨hstart, cfg.slots_pos.ne', hcurrent⟩, _, hs, rfl⟩

/-- **The query returns what is owed exactly when the entries that earlier pools mask are worth as
much as the counted entries of suspended pools.** -/
theorem queryAccount_exact_iff (cfg : Settings) (db : PositionDB) (cred : Credential)
    (fromEpoch : ℕ) :
    (∃ current r, ConfirmedEpoch cfg db current ∧
        queryAccount cfg db cred fromEpoch = .ok (some r) ∧
        r.amount = owed db current cred fromEpoch) ↔
      ∃ current, ConfirmedEpoch cfg db current ∧
        (∀ x ∈ unmasked db current cred fromEpoch, x.InRange) ∧
        rewards (unmasked db current cred fromEpoch) ≤ u64Max ∧
        rewards ((entries db current cred fromEpoch).filter fun x =>
            !suspended db x && masked db current cred fromEpoch x)
          = rewards ((entries db current cred fromEpoch).filter fun x =>
              suspended db x && !masked db current cred fromEpoch x) := by
  have hsplit := fun current => rewards_split (masked db current cred fromEpoch) (suspended db)
    (entries db current cred fromEpoch)
  constructor
  · rintro ⟨current, r, hcurrent, hr, hamount⟩
    obtain ⟨current', hcurrent', hall, hle, hn⟩ := queryAccount_eq_ok.1 ⟨r, hr, rfl⟩
    obtain rfl := hcurrent'.unique hcurrent
    refine ⟨current', hcurrent, hall, hle, ?_⟩
    have h := hsplit current'
    rw [← owed_eq, ← hamount, hn, unmasked] at h
    omega
  · rintro ⟨current, hcurrent, hall, hle, heq⟩
    obtain ⟨r, hr, hamount⟩ := queryAccount_eq_ok.2 ⟨current, hcurrent, hall, hle, rfl⟩
    refine ⟨current, r, hcurrent, hr, ?_⟩
    have h := hsplit current
    rw [← owed_eq, heq] at h
    rw [hamount, unmasked]
    omega

def sampleSettings : Settings := ⟨5, 10, 0, by decide⟩

/-- An account with half of the liquidity of two pools throughout epoch 1. Both pools are active, with
half of the weight each. -/
def sampleTwoPools : PositionDB :=
  { PositionDB.empty with
    accountPositions := fun _ => OrdMap.empty.insert (toLex (7, 1)) ⟨[⟨10, 19, (1, 2)⟩]⟩
    accountPools := fun _ => (OrdMap.empty.insert 1 ()).insert 2 ()
    gaugeWeights := fun _ _ => some ⟨1, 2⟩
    activePools := fun _ => some [1, 2]
    currentSlot := some 30 }

/-- The second pool is masked by the first one, and its reward is missing. -/
theorem sampleTwoPools_underpaid : ConfirmedEpoch sampleSettings sampleTwoPools 2 ∧
    queryAccount sampleSettings sampleTwoPools 7 0 = .ok (some ⟨56000000000, 1⟩) ∧
    owed sampleTwoPools 2 7 0 = 112000000000 :=
  ⟨⟨30, rfl, by decide, by decide, rfl⟩, by decide +kernel, by decide +kernel⟩

end Splash.LpIndexer
