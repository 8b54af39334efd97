import Splash.Lib.Exec

/-!
# Positions of liquidity providers

The share that an account has in a pool during an epoch, as a step function over slots. Every
deposit and redeem in the pool closes the current step and opens one of width zero.

* `EpochSlotConversion` — how slots are divided into epochs.
* `AccountPosition` — the steps, with the updates made for the account's own events, for events of
  other accounts and for rollbacks.
* `weightedAverageShareBps_eq_ok` — when the average share is computed, and what it is.
* `addNewShareInterval_eq_ok` — the steps after an update.
* `updateAll_spec`, `updateFromExternalPoolChanges_spec` — the steps after a slot with events of the
  account, or of others.
-/

namespace Splash.LpIndexer

open Lib Exec Option

abbrev PoolId := ℕ

abbrev Credential := ℕ

/-- The division of slots into epochs (`DefaultEpochSlotConversion`). -/
structure EpochSlotConversion where
  slotsInEpoch : ℕ
  epochStart : ℕ

variable {c : EpochSlotConversion} {slot : ℕ}

namespace EpochSlotConversion

section

variable (c : EpochSlotConversion) (epoch : ℕ)

def toEpoch (slot : ℕ) : Exec ℕ := do
  divide (← subU64 slot c.epochStart) c.slotsInEpoch

def firstSlot : ℕ :=
  c.epochStart + epoch * c.slotsInEpoch

def lastSlot : ℕ :=
  c.firstSlot epoch + c.slotsInEpoch - 1

end

/-- The epochs after one up to another. -/
def adjacentEpochs (epoch current : ℕ) : List ℕ :=
  if epoch = current then [] else List.range' (epoch + 1) (current - epoch)

theorem toEpoch_eq_ok {epoch : ℕ} :
    c.toEpoch slot = .ok epoch ↔
      c.epochStart ≤ slot ∧ c.slotsInEpoch ≠ 0 ∧ epoch = (slot - c.epochStart) / c.slotsInEpoch := by
  unfold toEpoch
  simp only [bind_eq_ok, subU64_eq_ok, divide_eq_ok]
  constructor
  · rintro ⟨d, hd, hpos, rfl⟩
    have hsub : slot - c.epochStart = d := by omega
    exact ⟨by omega, hpos, by rw [hsub]⟩
  · rintro ⟨hle, hpos, rfl⟩
    exact ⟨slot - c.epochStart, by omega, hpos, rfl⟩

end EpochSlotConversion

/-! ## Events -/

structure Deposit where
  poolId : PoolId
  account : Credential
  /-- Amount of LP minted by the deposit. -/
  lpMint : ℕ
  /-- Total LP supply of the pool after the deposit. -/
  lpSupply : ℕ
  deriving DecidableEq

structure Redeem where
  poolId : PoolId
  account : Credential
  /-- Amount of LP burned by the redeem. -/
  lpBurned : ℕ
  /-- Total LP supply of the pool after the redeem. -/
  lpSupply : ℕ
  deriving DecidableEq

inductive PositionEvent where
  | deposit (d : Deposit)
  | redeem (r : Redeem)
  deriving DecidableEq

namespace PositionEvent

def poolId : PositionEvent → PoolId
  | deposit d => d.poolId
  | redeem r => r.poolId

def account : PositionEvent → Credential
  | deposit d => d.account
  | redeem r => r.account

def resultingPoolLpSupply : PositionEvent → ℕ
  | deposit d => d.lpSupply
  | redeem r => r.lpSupply

def net : PositionEvent → ℤ
  | deposit d => d.lpMint
  | redeem r => -r.lpBurned

end PositionEvent

/-! ## Intervals -/

/-- A stretch of slots, without its last one, in which a share does not change. A share is the
account's LP and the LP supply of the pool. -/
structure ShareInterval where
  start : ℕ
  stop : ℕ
  share : ℕ × ℕ
  deriving DecidableEq

namespace ShareInterval

variable (i : ShareInterval)

def extendTo (slot : ℕ) : ShareInterval := { i with stop := slot }

/-- The share in basis points, weighted by the width of the interval. -/
def shareBps : Exec ℕ := do
  let width ← subU64 i.stop i.start
  let own ← fit u64Max (i.share.1 * 10000)
  let bps ← divide own i.share.2
  fit u64Max (width * bps)

/-- What `shareBps` computes when nothing leaves its range. -/
def exactBps : ℕ := (i.stop - i.start) * (i.share.1 * 10000 / i.share.2)

def InRange : Prop :=
  i.start ≤ i.stop ∧ i.share.1 * 10000 ≤ u64Max ∧ i.share.2 ≠ 0 ∧ i.exactBps ≤ u64Max

instance (i : ShareInterval) : Decidable i.InRange := inferInstanceAs (Decidable (_ ∧ _))

theorem shareBps_eq_ok (n : ℕ) :
    i.shareBps = .ok n ↔ i.InRange ∧ n = i.exactBps := by
  unfold shareBps InRange exactBps
  simp only [bind_eq_ok, subU64_eq_ok, fit_eq_ok, divide_eq_ok]
  constructor
  · rintro ⟨width, hwidth, _, ⟨hown, rfl⟩, _, ⟨htotal, rfl⟩, hfit, rfl⟩
    have hsub : i.stop - i.start = width := by omega
    rw [hsub]
    exact ⟨⟨by omega, hown, htotal, hfit⟩, rfl⟩
  · rintro ⟨⟨hle, hown, htotal, hfit⟩, rfl⟩
    exact ⟨i.stop - i.start, by omega, _, ⟨hown, rfl⟩, _, ⟨htotal, rfl⟩, hfit, rfl⟩

end ShareInterval

/-! ## Positions -/

/-- The share of an account in a pool over one epoch, oldest interval first. -/
structure AccountPosition where
  shareIntervals : List ShareInterval
  deriving DecidableEq

namespace AccountPosition

def new (slot : ℕ) (share : ℕ × ℕ) : AccountPosition := ⟨[⟨slot, slot, share⟩]⟩

variable (p : AccountPosition)

def getCurrentShare : Option ShareInterval := p.shareIntervals.getLast?

def isCurrentlyZeroShare : Bool :=
  p.getCurrentShare.all (·.share.1 = 0)

def since : ℕ := p.shareIntervals.head?.elim 0 (·.start)

def till : ℕ := p.getCurrentShare.elim 0 (·.stop)

def weightedAverageShareBps : Exec ℕ :=
  if p.shareIntervals = [] then .ok 0
  else if p.till = p.since then .ok 0
  else do
    let sum ← sumU64 ShareInterval.shareBps p.shareIntervals
    divide sum (← subU64 p.till p.since)

def exactAverage : ℕ :=
  (p.shareIntervals.map ShareInterval.exactBps).sum / (p.till - p.since)

def AverageInRange : Prop :=
  p.till = p.since ∨ (∀ i ∈ p.shareIntervals, i.InRange) ∧
    (p.shareIntervals.map ShareInterval.exactBps).sum ≤ u64Max ∧ p.since ≤ p.till

instance (p : AccountPosition) : Decidable p.AverageInRange := inferInstanceAs (Decidable (_ ∨ _))

theorem weightedAverageShareBps_eq_ok (n : ℕ) :
    p.weightedAverageShareBps = .ok n ↔ p.AverageInRange ∧ n = p.exactAverage := by
  unfold weightedAverageShareBps AverageInRange exactAverage
  by_cases hempty : p.shareIntervals = []
  · have hspan : p.till = p.since := by simp [till, since, getCurrentShare, hempty]
    rw [if_pos hempty, hspan]
    simp [eq_comm]
  · by_cases hspan : p.till = p.since
    · rw [if_neg hempty, if_pos hspan, hspan]
      simp [eq_comm]
    · rw [if_neg hempty, if_neg hspan]
      simp only [bind_eq_ok, sumU64_eq_ok ShareInterval.shareBps_eq_ok, subU64_eq_ok,
        divide_eq_ok, hspan, false_or]
      constructor
      · rintro ⟨_, ⟨hall, hfit, rfl⟩, width, hwidth, -, rfl⟩
        have hsub : p.till - p.since = width := by omega
        exact ⟨⟨hall, hfit, by omega⟩, by rw [hsub]⟩
      · rintro ⟨⟨hall, hfit, hle⟩, rfl⟩
        exact ⟨_, ⟨hall, hfit, rfl⟩, p.till - p.since, by omega, by omega, rfl⟩

def extendCurrentShareTo (slot : ℕ) : Exec AccountPosition :=
  p.getCurrentShare.elim (.error (.explicit "called unwrap on a None value")) fun last =>
    .ok ⟨p.shareIntervals.dropLast ++ [last.extendTo slot]⟩

/-- Closes the current interval at `slot`, or at the end of its epoch, drops intervals of width zero
and opens a new one. -/
def addNewShareInterval (c : EpochSlotConversion) (p : AccountPosition) (slot : ℕ)
    (share : ℕ × ℕ) : Exec AccountPosition := do
  let closed ← p.getCurrentShare.elim (.ok p.shareIntervals) fun last => do
    if last.stop ≤ slot then
      let lastEpoch ← c.toEpoch last.stop
      let epoch ← c.toEpoch slot
      return p.shareIntervals.dropLast ++
        [last.extendTo (if lastEpoch = epoch then slot else c.lastSlot lastEpoch)]
    else throw (.explicit "assertion failed: last_interval.end <= current_slot")
  return ⟨closed.filter (fun i => i.start < i.stop) ++ [⟨slot, slot, share⟩]⟩

variable {last : ShareInterval} {p p' : AccountPosition}

theorem addNewShareInterval_eq_ok {share : ℕ × ℕ} {l : List ShareInterval}
    (hp : p.shareIntervals = l ++ [last]) :
    p.addNewShareInterval c slot share = .ok p' ↔ last.stop ≤ slot ∧ ∃ lastEpoch epoch,
      c.toEpoch last.stop = .ok lastEpoch ∧ c.toEpoch slot = .ok epoch ∧
      p' = ⟨(l ++ [last.extendTo (if lastEpoch = epoch then slot else c.lastSlot lastEpoch)]).filter
        (fun i => i.start < i.stop) ++ [⟨slot, slot, share⟩]⟩ := by
  have hlast : p.getCurrentShare = some last := by simp [getCurrentShare, hp]
  have hdrop : p.shareIntervals.dropLast = l := by simp [hp]
  unfold addNewShareInterval
  rw [hlast, hdrop, elim_some]
  by_cases hle : last.stop ≤ slot
  · simp only [hle, if_true, true_and, bind_eq_ok, pure_eq_ok]
    constructor
    · rintro ⟨_, ⟨lastEpoch, hl, epoch, he, rfl⟩, rfl⟩
      exact ⟨lastEpoch, epoch, hl, he, rfl⟩
    · rintro ⟨lastEpoch, epoch, hl, he, rfl⟩
      exact ⟨_, ⟨lastEpoch, hl, epoch, he, rfl⟩, rfl⟩
  · simp only [hle, if_false, false_and, iff_false, bind_eq_ok]
    rintro ⟨_, h, -⟩
    exact throw_ne_ok h

section

variable (c : EpochSlotConversion) (p : AccountPosition) (slot : ℕ)

/-- Follows events of other accounts of the pool. -/
def updateFromExternalPoolChanges (newPoolLpSupply : ℕ) : Exec AccountPosition :=
  p.getCurrentShare.elim (.ok p) fun last =>
    if 0 < last.share.1 then p.addNewShareInterval c slot (last.share.1, newPoolLpSupply)
    else .ok p

def newPositionLq (current : Option ShareInterval) : PositionEvent → Exec ℕ
  | .deposit d => current.elim (.ok d.lpMint) fun last =>
      Exec.expect "called unwrap on a None value" (checkedAdd last.share.1 d.lpMint)
  | .redeem r => current.elim (.error (.explicit "Cannot redeem from an empty position")) fun last =>
      Exec.expect "called unwrap on a None value" (checkedSub last.share.1 r.lpBurned)

def updateFromUserEvent (event : PositionEvent) : Exec AccountPosition := do
  let lq ← newPositionLq p.getCurrentShare event
  p.addNewShareInterval c slot (lq, event.resultingPoolLpSupply)

end

theorem newPositionLq_eq_ok {event : PositionEvent} {n : ℕ}
    (h : newPositionLq (some last) event = .ok n) : (n : ℤ) = last.share.1 + event.net := by
  cases event with
  | deposit d =>
    simp only [newPositionLq, elim_some, expect_eq_ok, checkedAdd_eq_some] at h
    simp only [PositionEvent.net]
    omega
  | redeem r =>
    simp only [newPositionLq, elim_some, expect_eq_ok, checkedSub_eq_some] at h
    simp only [PositionEvent.net]
    omega

/-! ### A slot closes the current interval -/

def settled (l : List ShareInterval) : List ShareInterval := l.filter fun i => i.start < i.stop

@[simp] theorem settled_settled_append (l : List ShareInterval) (slot : ℕ) (share : ℕ × ℕ) :
    settled (settled l ++ [⟨slot, slot, share⟩]) = settled l := by
  simp [settled, List.filter_filter]

theorem addNewShareInterval_at_end {share : ℕ × ℕ} (hp : p.getCurrentShare = some last)
    (hstop : last.stop = slot) (h : p.addNewShareInterval c slot share = .ok p') :
    p'.shareIntervals = settled p.shareIntervals ++ [⟨slot, slot, share⟩] := by
  obtain ⟨l, hl⟩ := List.getLast?_eq_some_iff.1 hp
  obtain ⟨-, e, e', he, he', rfl⟩ := (addNewShareInterval_eq_ok hl).1 h
  rw [hstop] at he
  have hsame : e = e' := Except.ok.inj (he.symm.trans he')
  have hlast : last.extendTo slot = last := by rw [← hstop]; rfl
  rw [if_pos hsame, hlast, ← hl]
  rfl

def updateAll (c : EpochSlotConversion) (slot : ℕ) (p : AccountPosition)
    (events : List PositionEvent) : Exec AccountPosition :=
  events.foldlM (fun p e => p.updateFromUserEvent c slot e) p

theorem updateAll_spec {events : List PositionEvent} (hp : p.getCurrentShare = some last)
    (hstop : last.stop = slot) (hne : events ≠ []) (h : updateAll c slot p events = .ok p') :
    ∃ n supply : ℕ, p'.shareIntervals = settled p.shareIntervals ++ [⟨slot, slot, (n, supply)⟩] ∧
      (n : ℤ) = last.share.1 + (events.map PositionEvent.net).sum := by
  induction events generalizing p last with
  | nil => exact absurd rfl hne
  | cons e events ih =>
    unfold updateAll at h
    rw [List.foldlM_cons] at h
    obtain ⟨q, hq, h⟩ := bind_eq_ok.1 h
    obtain ⟨n, hn, hadd⟩ := bind_eq_ok.1 hq
    rw [hp] at hn
    have hlq := newPositionLq_eq_ok hn
    have hclosed := addNewShareInterval_at_end hp hstop hadd
    by_cases hrest : events = []
    · subst hrest
      cases h
      exact ⟨n, _, hclosed, by simpa using hlq⟩
    · have hcur : q.getCurrentShare = some ⟨slot, slot, (n, e.resultingPoolLpSupply)⟩ := by
        simp [getCurrentShare, hclosed]
      obtain ⟨n', supply, hp', hn'⟩ := ih hcur rfl hrest h
      refine ⟨n', supply, ?_, ?_⟩
      · rw [hp', hclosed, settled_settled_append]
      · rw [hn', hlq, List.map_cons, List.sum_cons]
        exact add_assoc _ _ _

theorem updateFromExternalPoolChanges_spec {slot supply : ℕ} (hp : p.getCurrentShare = some last)
    (hstop : last.stop = slot) (hpos : 0 < last.share.1)
    (h : p.updateFromExternalPoolChanges c slot supply = .ok p') :
    p'.shareIntervals = settled p.shareIntervals ++ [⟨slot, slot, (last.share.1, supply)⟩] := by
  unfold updateFromExternalPoolChanges at h
  rw [hp, elim_some, if_pos hpos] at h
  exact addNewShareInterval_at_end hp hstop h

/-- Forgets what happened after `slot`. Of the intervals kept, only the last can reach beyond it, and
starts no later. -/
def rollbackTo (p : AccountPosition) (slot : ℕ) : AccountPosition :=
  if p.shareIntervals.head?.any (slot < ·.start) then ⟨[]⟩
  else
    let kept := p.shareIntervals.filter fun i => i.stop ≤ slot ∨ i.start ≤ slot ∧ slot < i.stop
    kept.getLast?.elim ⟨[]⟩ fun last =>
      ⟨kept.dropLast ++ [if slot < last.stop then last.extendTo slot else last]⟩

end AccountPosition

end Splash.LpIndexer
