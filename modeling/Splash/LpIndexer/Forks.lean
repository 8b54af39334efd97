import Splash.LpIndexer.Gauges
import Splash.LpIndexer.Runs

/-!
# Forks

A branch of the chain is followed, abandoned block by block and replaced by another one.

* `rollForward`, `rollBackward` — a block is appended, or discarded with its events in reverse order.
* `appendBlocks_spec`, `discardBlocks_eq_ok` — the tables after a branch is appended or discarded.
* **`forkIndependent_iff`** — when an abandoned branch leaves no trace.
-/

namespace Splash.LpIndexer

open Lib Function Exec List Option

/-! ## The log -/

/-- Suspended and active pools are written at once, all other events are logged. -/
def OnChainEvent.logged : OnChainEvent → Bool
  | permManagerUpdate _ => false
  | newWeightingPoll _ _ => false
  | _ => true

variable (events : List OnChainEvent)

def loggedAt (n : ℕ) : Option OnChainEvent :=
  events[n]?.filter OnChainEvent.logged

variable {db : PositionDB} {epoch slot : ℕ} {α β : Type*}

theorem filter_zipIdx (l : List α) (k n : ℕ) :
    ((l.zipIdx k).filter fun x => x.2 = n + k) = (l[n]?.map fun a => (a, n + k)).toList := by
  induction l generalizing k n with
  | nil => rfl
  | cons a l ih =>
    rw [zipIdx_cons]
    cases n with
    | zero =>
      have hrest : (l.zipIdx (k + 1)).filter (fun x => x.2 = 0 + k) = [] := by
        refine filter_eq_nil_iff.2 fun x hx => ?_
        have hle := le_snd_of_mem_zipIdx hx
        simp only [decide_eq_true_eq]
        omega
      rw [filter_cons_of_pos (by simp), hrest, zero_add]
      rfl
    | succ n =>
      have hshift : n + 1 + k = n + (k + 1) := by omega
      rw [filter_cons_of_neg (by simp), hshift, ih (k + 1) n]
      rfl

/-- Writes or erases the events of a block at their positions. -/
theorem get?_foldl_zipIdx
    {f : OrdMap (ℕ ×ₗ ℕ) OnChainEvent → OnChainEvent × ℕ → OrdMap (ℕ ×ₗ ℕ) OnChainEvent}
    {g : Option OnChainEvent → OnChainEvent → Option OnChainEvent}
    (hkey : ∀ m x, (f m x).get? (toLex (slot, x.2)) = g (m.get? (toLex (slot, x.2))) x.1)
    (hother : ∀ m x k, k ≠ toLex (slot, x.2) → (f m x).get? k = m.get? k)
    (events : List OnChainEvent) (m : OrdMap (ℕ ×ₗ ℕ) OnChainEvent) (s n : ℕ) :
    (events.zipIdx.foldl f m).get? (toLex (s, n)) = if s = slot
      then events[n]?.elim (m.get? (toLex (s, n))) (g (m.get? (toLex (s, n))))
      else m.get? (toLex (s, n)) := by
  rw [OrdMap.get?_foldl_local (fun x : OnChainEvent × ℕ => toLex (slot, x.2))
    (g := fun o x => g o x.1) hkey hother]
  by_cases hs : s = slot
  · have hfilter : (events.zipIdx.filter fun x => toLex (slot, x.2) = toLex (s, n))
        = (events[n]?.map fun a => (a, n)).toList := by
      have hpred : (fun x : OnChainEvent × ℕ => decide (toLex (slot, x.2) = toLex (s, n)))
          = fun x => decide (x.2 = n + 0) := by
        funext x
        simp [hs]
      rw [hpred]
      exact filter_zipIdx events 0 n
    rw [if_pos hs, hfilter]
    cases events[n]? with
    | none => rfl
    | some e => rfl
  · have hfilter : (events.zipIdx.filter fun x => toLex (slot, x.2) = toLex (s, n)) = [] := by
      refine filter_eq_nil_iff.2 fun x _ => ?_
      simp only [decide_eq_true_eq, toLex_inj, Prod.mk.injEq, not_and]
      intro heq
      exact absurd heq.symm hs
    rw [if_neg hs, hfilter]
    rfl

section

variable (slot : ℕ) (m : OrdMap (ℕ ×ₗ ℕ) OnChainEvent) (x : OnChainEvent × ℕ)

def logEvent : OrdMap (ℕ ×ₗ ℕ) OnChainEvent :=
  if x.1.logged then m.insert (toLex (slot, x.2)) x.1 else m

def eraseEvent : OrdMap (ℕ ×ₗ ℕ) OnChainEvent :=
  if x.1.logged then m.erase (toLex (slot, x.2)) else m

end

section

variable (slot : ℕ) (events : List OnChainEvent) (m : OrdMap (ℕ ×ₗ ℕ) OnChainEvent) (s n : ℕ)

theorem get?_logEvents : (events.zipIdx.foldl (logEvent slot) m).get? (toLex (s, n))
      = (if s = slot then loggedAt events n else none).or (m.get? (toLex (s, n))) := by
  rw [get?_foldl_zipIdx (g := fun o e => if e.logged then some e else o)]
  · unfold loggedAt
    by_cases hs : s = slot
    · rw [if_pos hs, if_pos hs]
      cases events[n]? with
      | none => rfl
      | some e => cases h : e.logged <;> simp [h, Option.filter]
    · rw [if_neg hs, if_neg hs, none_or]
  · intro m x
    unfold logEvent
    split <;> simp
  · intro m x k hk
    unfold logEvent
    split
    · rw [OrdMap.get?_insert, if_neg hk]
    · rfl

theorem get?_eraseEvents : (events.zipIdx.foldl (eraseEvent slot) m).get? (toLex (s, n))
      = if s = slot ∧ (loggedAt events n).isSome then none else m.get? (toLex (s, n)) := by
  rw [get?_foldl_zipIdx (g := fun o e => if e.logged then none else o)]
  · unfold loggedAt
    by_cases hs : s = slot
    · rw [if_pos hs]
      cases events[n]? with
      | none => simp
      | some e => cases h : e.logged <;> simp [h, Option.filter, hs]
    · rw [if_neg hs, if_neg fun h => hs h.1]
  · intro m x
    unfold eraseEvent
    split <;> simp
  · intro m x k hk
    unfold eraseEvent
    split
    · rw [OrdMap.get?_erase, if_neg hk]
    · rfl

end

/-! ## Other tables -/

namespace OnChainEvent

/-- The active pools of an epoch, from a new weighting poll. -/
def poll? : OnChainEvent → Option (ℕ × List PoolId)
  | newWeightingPoll epoch active => some (epoch, active)
  | _ => none

def weighted? : OnChainEvent → Option (PoolId × ℕ)
  | gauge g => some (g.poolId, g.epoch)
  | _ => none

def suspended? : OnChainEvent → Option (List PoolId)
  | permManagerUpdate suspended => some suspended
  | _ => none

end OnChainEvent

section

variable (active : ℕ → Option (List PoolId)) (x : ℕ × List PoolId)

def setActive : ℕ → Option (List PoolId) :=
  update active x.1 (some x.2)

def dropActive : ℕ → Option (List PoolId) :=
  update active x.1 none

end

def dropWeight (weights : PoolId → ℕ → Option GaugeWeight) (x : PoolId × ℕ) :
    PoolId → ℕ → Option GaugeWeight :=
  update weights x.1 (update (weights x.1) x.2 none)

/-- The assertions on active pools hold when the polls are taken back one by one. -/
def Takes (active : ℕ → Option (List PoolId)) : List (ℕ × List PoolId) → Prop
  | [] => True
  | x :: polls => active x.1 = some x.2 ∧ Takes (dropActive active x) polls

variable {db db' : PositionDB} {polls : List (ℕ × List PoolId)} {blocks : List Block}
  {cfg : Settings}

theorem setActive_foldl_of_not_mem (h : epoch ∉ polls.map Prod.fst)
    (active : ℕ → Option (List PoolId)) : polls.foldl setActive active epoch = active epoch := by
  induction polls generalizing active with
  | nil => rfl
  | cons x polls ih =>
    obtain ⟨hne, hrest⟩ := ne_and_not_mem_of_not_mem_cons h
    rw [foldl_cons, ih hrest, setActive, update_of_ne hne]

theorem setActive_foldl_of_mem (h : epoch ∈ polls.map Prod.fst)
    (active active' : ℕ → Option (List PoolId)) :
    polls.foldl setActive active epoch = polls.foldl setActive active' epoch := by
  induction polls generalizing active active' with
  | nil => cases h
  | cons x polls ih =>
    rw [foldl_cons, foldl_cons]
    by_cases hrest : epoch ∈ polls.map Prod.fst
    · exact ih hrest _ _
    · have hx : epoch = x.1 := (mem_cons.1 h).resolve_right hrest
      rw [setActive_foldl_of_not_mem hrest, setActive_foldl_of_not_mem hrest, setActive, setActive, hx,
        update_self, update_self]

theorem setActive_foldl_eq_some (h : (polls.map Prod.fst).Nodup)
    {x : ℕ × List PoolId} (hx : x ∈ polls) (active : ℕ → Option (List PoolId)) :
    polls.foldl setActive active x.1 = some x.2 := by
  induction polls generalizing active with
  | nil => cases hx
  | cons y polls ih =>
    obtain ⟨hnot, hnodup⟩ := nodup_cons.1 h
    rcases mem_cons.1 hx with rfl | hx
    · rw [foldl_cons, setActive_foldl_of_not_mem hnot, setActive, update_self]
    · exact ih hnodup hx _

theorem dropActive_foldl (polls : List (ℕ × List PoolId)) (active : ℕ → Option (List PoolId))
    (epoch : ℕ) : polls.foldl dropActive active epoch
      = if epoch ∈ polls.map Prod.fst then none else active epoch := by
  induction polls generalizing active with
  | nil => rfl
  | cons x polls ih =>
    rw [foldl_cons, ih, dropActive, map_cons]
    by_cases hx : epoch = x.1
    · simp [hx]
    · simp only [mem_cons, hx, false_or, update_of_ne hx]

theorem dropWeight_foldl (l : List (PoolId × ℕ)) (weights : PoolId → ℕ → Option GaugeWeight)
    (pid : PoolId) (epoch : ℕ) : l.foldl dropWeight weights pid epoch
      = if (pid, epoch) ∈ l then none else weights pid epoch := by
  induction l generalizing weights with
  | nil => rfl
  | cons x l ih =>
    obtain ⟨pid', epoch'⟩ := x
    rw [foldl_cons, ih, dropWeight]
    by_cases hpid : pid = pid'
    · subst hpid
      by_cases hepoch : epoch = epoch'
      · simp [hepoch]
      · simp [hepoch]
    · simp [hpid]

variable {active : ℕ → Option (List PoolId)}

/-- The polls can be taken back when each epoch has one, which is stored. -/
theorem takes_iff :
    Takes active polls ↔
      (polls.map Prod.fst).Nodup ∧ ∀ x ∈ polls, active x.1 = some x.2 := by
  induction polls generalizing active with
  | nil => simp [Takes]
  | cons x polls ih =>
    rw [Takes, ih, map_cons, nodup_cons, forall_mem_cons]
    constructor
    · intro h
      obtain ⟨hx, hnodup, hall⟩ := h
      have hne : ∀ y ∈ polls, y.1 ≠ x.1 := by
        intro y hy heq
        have hval := hall y hy
        rw [dropActive, heq, update_self] at hval
        cases hval
      refine ⟨⟨fun hmem => ?_, hnodup⟩, hx, fun y hy => ?_⟩
      · obtain ⟨y, hy, heq⟩ := mem_map.1 hmem
        exact hne y hy heq
      · have hval := hall y hy
        rwa [dropActive, update_of_ne (hne y hy)] at hval
    · intro h
      obtain ⟨⟨hnot, hnodup⟩, hx, hall⟩ := h
      refine ⟨hx, hnodup, fun y hy => ?_⟩
      have hne : y.1 ≠ x.1 := fun heq => hnot (heq ▸ mem_map_of_mem hy)
      rw [dropActive, update_of_ne hne]
      exact hall y hy

theorem takes_append {l l' : List (ℕ × List PoolId)} :
    Takes active (l ++ l') ↔ Takes active l ∧ Takes (l.foldl dropActive active) l' := by
  induction l generalizing active with
  | nil => simp [Takes]
  | cons x l ih => simp [Takes, ih, and_assoc]

/-! ## Blocks -/

def pollsIn : List (ℕ × List PoolId) := events.filterMap OnChainEvent.poll?

def weightsIn : List (PoolId × ℕ) :=
  events.filterMap OnChainEvent.weighted?

def suspensionsIn : List (List PoolId) :=
  events.filterMap OnChainEvent.suspended?

theorem appendEvents_eq (slot : ℕ) (l : List (OnChainEvent × ℕ)) (db : PositionDB) :
    l.foldl (appendEvent slot) db = { db with
      events := l.foldl (logEvent slot) db.events
      activePools := (pollsIn (l.map Prod.fst)).foldl setActive db.activePools
      suspendedPools := (suspensionsIn (l.map Prod.fst)).foldl (fun t p => t.set p slot)
        db.suspendedPools } := by
  induction l generalizing db with
  | nil => rfl
  | cons x l ih =>
    obtain ⟨e, n⟩ := x
    rw [foldl_cons, ih]
    cases e <;> rfl

theorem rollbackActivePools_eq_ok {active : List PoolId} :
    rollbackActivePools db epoch active = .ok db' ↔ db.activePools epoch = some active ∧
      db' = { db with activePools := dropActive db.activePools (epoch, active) } := by
  unfold rollbackActivePools
  simp only [bind_eq_ok, expect_eq_ok]
  constructor
  · intro h
    obtain ⟨stored, hstored, h⟩ := h
    split at h
    · next heq =>
      rw [heq] at hstored
      exact ⟨hstored, (Except.ok.inj h).symm⟩
    · cases h
  · intro h
    obtain ⟨hstored, rfl⟩ := h
    exact ⟨active, hstored, by rw [if_pos rfl]; rfl⟩

theorem discardEvent_eq_ok {x : OnChainEvent × ℕ} :
    discardEvent slot db x = .ok db' ↔ suspensionsIn [x.1] = [] ∧
      Takes db.activePools (pollsIn [x.1]) ∧ db' = { db with
        events := eraseEvent slot db.events x
        activePools := (pollsIn [x.1]).foldl dropActive db.activePools
        gaugeWeights := (weightsIn [x.1]).foldl dropWeight db.gaugeWeights } := by
  obtain ⟨e, n⟩ := x
  cases e with
  | permManagerUpdate suspended =>
    refine ⟨fun h => ?_, fun h => nomatch h.1⟩
    obtain ⟨t, ht, -⟩ := bind_eq_ok.1 h
    rw [SuspendedPools.rollback, SuspendedPools.getCurrentSlot_eq_none] at ht
    cases ht
  | newWeightingPoll epoch active =>
    refine rollbackActivePools_eq_ok.trans ⟨fun h => ⟨rfl, ⟨h.1, trivial⟩, h.2⟩, fun h => ?_⟩
    exact ⟨h.2.1.1, h.2.2⟩
  | gauge g => exact ⟨fun h => ⟨rfl, trivial, (Except.ok.inj h).symm⟩, fun h => by rw [h.2.2]; rfl⟩
  | account e => exact ⟨fun h => ⟨rfl, trivial, (Except.ok.inj h).symm⟩, fun h => by rw [h.2.2]; rfl⟩
  | pool c => exact ⟨fun h => ⟨rfl, trivial, (Except.ok.inj h).symm⟩, fun h => by rw [h.2.2]; rfl⟩

theorem filterMap_cons_eq (f : α → Option β) (a : α) (l : List α) :
    (a :: l).filterMap f = [a].filterMap f ++ l.filterMap f :=
  filterMap_append (l := [a])

theorem discardEvents_eq_ok {l : List (OnChainEvent × ℕ)} :
    l.foldlM (discardEvent slot) db = .ok db' ↔ suspensionsIn (l.map Prod.fst) = [] ∧
      Takes db.activePools (pollsIn (l.map Prod.fst)) ∧ db' = { db with
        events := l.foldl (eraseEvent slot) db.events
        activePools := (pollsIn (l.map Prod.fst)).foldl dropActive db.activePools
        gaugeWeights := (weightsIn (l.map Prod.fst)).foldl dropWeight db.gaugeWeights } := by
  induction l generalizing db with
  | nil => exact ⟨fun h => ⟨rfl, trivial, (Except.ok.inj h).symm⟩, fun h => by rw [h.2.2]; rfl⟩
  | cons x l ih =>
    have hcons : ∀ {β : Type} (f : OnChainEvent → Option β),
        ((x :: l).map Prod.fst).filterMap f = [x.1].filterMap f ++ (l.map Prod.fst).filterMap f :=
      fun f => filterMap_cons_eq f x.1 _
    rw [foldlM_cons, bind_eq_ok, suspensionsIn, pollsIn, weightsIn, hcons, hcons, hcons,
      append_eq_nil_iff, takes_append, foldl_append, foldl_append, foldl_cons]
    constructor
    · intro h
      obtain ⟨db₁, h₁, h⟩ := h
      obtain ⟨hsus, htakes, rfl⟩ := discardEvent_eq_ok.1 h₁
      obtain ⟨hsus', htakes', rfl⟩ := ih.1 h
      exact ⟨⟨hsus, hsus'⟩, ⟨htakes, htakes'⟩, rfl⟩
    · intro h
      obtain ⟨⟨hsus, hsus'⟩, ⟨htakes, htakes'⟩, rfl⟩ := h
      exact ⟨_, discardEvent_eq_ok.2 ⟨hsus, htakes, rfl⟩, ih.2 ⟨hsus', htakes', rfl⟩⟩

/-! ## Branches -/

def appendBlock (db : PositionDB) (b : Block) : PositionDB :=
  b.events.zipIdx.foldl (appendEvent b.slot) { db with currentSlot := some b.slot }

/-- What some blocks log at a slot and a position. -/
def loggedIn : List Block → ℕ → ℕ → Option OnChainEvent
  | [], _, _ => none
  | b :: blocks, s, n => (loggedIn blocks s n).or (if s = b.slot then loggedAt b.events n else none)

/-- The updates of suspended pools in some blocks. -/
def suspendAll (blocks : List Block) (t : SuspendedPools) : SuspendedPools :=
  blocks.foldl (fun t b => (suspensionsIn b.events).foldl (fun t p => t.set p b.slot) t) t

theorem appendBlock_eq (db : PositionDB) (b : Block) : appendBlock db b = { db with
    events := b.events.zipIdx.foldl (logEvent b.slot) db.events
    activePools := (pollsIn b.events).foldl setActive db.activePools
    suspendedPools := suspendAll [b] db.suspendedPools
    currentSlot := some b.slot } := by
  rw [appendBlock, appendEvents_eq, zipIdx_map_fst]
  rfl

theorem appendBlocks_spec (blocks : List Block) (db : PositionDB) :
    (∀ s n, (blocks.foldl appendBlock db).events.get? (toLex (s, n))
        = (loggedIn blocks s n).or (db.events.get? (toLex (s, n)))) ∧
      (blocks.foldl appendBlock db).activePools
        = (blocks.flatMap fun b => pollsIn b.events).foldl setActive db.activePools ∧
      (blocks.foldl appendBlock db).suspendedPools = suspendAll blocks db.suspendedPools ∧
      (blocks.foldl appendBlock db).gaugeWeights = db.gaugeWeights ∧
      (blocks.foldl appendBlock db).accountPositions = db.accountPositions ∧
      (blocks.foldl appendBlock db).rollbackToSlot = db.rollbackToSlot ∧
      (blocks.foldl appendBlock db).currentSlot
        = (blocks.getLast?.map Block.slot).or db.currentSlot := by
  induction blocks generalizing db with
  | nil => exact ⟨fun _ _ => rfl, rfl, rfl, rfl, rfl, rfl, rfl⟩
  | cons b blocks ih =>
    obtain ⟨hev, hact, hsus, hgauge, hpos, hroll, hcur⟩ := ih (appendBlock db b)
    rw [foldl_cons, hact, hsus, hgauge, hpos, hroll, hcur, appendBlock_eq]
    refine ⟨fun s n => ?_, ?_, rfl, rfl, rfl, rfl, ?_⟩
    · rw [appendBlock_eq] at hev
      rw [hev, get?_logEvents, loggedIn, Option.or_assoc]
    · rw [flatMap_cons, foldl_append]
    · cases blocks with
      | nil => rfl
      | cons b' blocks => simp [List.getLast?_cons]

theorem loggedIn_of_mem (hslots : (blocks.map Block.slot).Nodup) {b : Block}
    (hb : b ∈ blocks) (n : ℕ) : loggedIn blocks b.slot n = loggedAt b.events n := by
  induction blocks with
  | nil => cases hb
  | cons a blocks ih =>
    obtain ⟨hnot, hnodup⟩ := nodup_cons.1 hslots
    have hnone : ∀ l : List Block, a.slot ∉ l.map Block.slot → loggedIn l a.slot n = none := by
      intro l hl
      induction l with
      | nil => rfl
      | cons c l ihl =>
        obtain ⟨hne, hrest⟩ := ne_and_not_mem_of_not_mem_cons hl
        rw [loggedIn, ihl hrest, if_neg hne, none_or]
    rcases mem_cons.1 hb with rfl | hb
    · rw [loggedIn, hnone blocks hnot, if_pos rfl, none_or]
    · have hne : b.slot ≠ a.slot := fun heq => hnot (heq ▸ mem_map_of_mem hb)
      rw [loggedIn, ih hnodup hb, if_neg hne, or_none]

theorem exists_of_loggedIn {s n : ℕ} (h : loggedIn blocks s n ≠ none) :
    ∃ b ∈ blocks, b.slot = s := by
  induction blocks with
  | nil => exact absurd rfl h
  | cons b blocks ih =>
    by_cases hs : s = b.slot
    · exact ⟨b, mem_cons_self, hs.symm⟩
    · rw [loggedIn, if_neg hs, or_none] at h
      obtain ⟨a, ha, hslot⟩ := ih h
      exact ⟨a, mem_cons_of_mem b ha, hslot⟩

def discardBlocks (db : PositionDB) (blocks : List Block) : Exec PositionDB :=
  blocks.foldlM (fun db b => batchDiscard db b.slot b.events) db

def eraseBlocks (blocks : List Block) (m : OrdMap (ℕ ×ₗ ℕ) OnChainEvent) :
    OrdMap (ℕ ×ₗ ℕ) OnChainEvent :=
  blocks.foldl (fun m b => b.events.zipIdx.foldl (eraseEvent b.slot) m) m

theorem get?_eraseBlocks (blocks : List Block) (m : OrdMap (ℕ ×ₗ ℕ) OnChainEvent) (s n : ℕ) :
    (eraseBlocks blocks m).get? (toLex (s, n))
      = if ∃ b ∈ blocks, s = b.slot ∧ (loggedAt b.events n).isSome then none
        else m.get? (toLex (s, n)) := by
  induction blocks generalizing m with
  | nil => simp [eraseBlocks]
  | cons b blocks ih =>
    have hcons : eraseBlocks (b :: blocks) m
        = eraseBlocks blocks (b.events.zipIdx.foldl (eraseEvent b.slot) m) := rfl
    rw [hcons, ih, get?_eraseEvents]
    by_cases hb : s = b.slot ∧ (loggedAt b.events n).isSome
    · rw [if_pos hb, ite_self, if_pos ⟨b, mem_cons_self, hb⟩]
    · rw [if_neg hb]
      refine if_congr ?_ rfl rfl
      simp only [exists_mem_cons_iff, hb, false_or]

theorem discardBlocks_eq_ok :
    discardBlocks db blocks = .ok db' ↔ (∀ b ∈ blocks, suspensionsIn b.events = []) ∧
      Takes db.activePools (blocks.flatMap fun b => pollsIn b.events) ∧ db' = { db with
        events := eraseBlocks blocks db.events
        activePools := (blocks.flatMap fun b => pollsIn b.events).foldl dropActive db.activePools
        gaugeWeights := (blocks.flatMap fun b => weightsIn b.events).foldl dropWeight db.gaugeWeights
        rollbackToSlot := (blocks.getLast?.map Block.slot).or db.rollbackToSlot } := by
  induction blocks generalizing db with
  | nil =>
    exact ⟨fun h => ⟨fun _ hb => (nomatch hb), trivial, (Except.ok.inj h).symm⟩,
      fun h => by rw [h.2.2]; rfl⟩
  | cons b blocks ih =>
    have hlast : ∀ o : Option ℕ, ((b :: blocks).getLast?.map Block.slot).or o
        = (blocks.getLast?.map Block.slot).or (some b.slot) := by
      intro o
      cases blocks with
      | nil => rfl
      | cons b' blocks => simp [List.getLast?_cons]
    have hone : ∀ db₁, batchDiscard db b.slot b.events = .ok db₁ ↔ suspensionsIn b.events = [] ∧
        Takes db.activePools (pollsIn b.events) ∧ db₁ = { db with
          events := b.events.zipIdx.foldl (eraseEvent b.slot) db.events
          activePools := (pollsIn b.events).foldl dropActive db.activePools
          gaugeWeights := (weightsIn b.events).foldl dropWeight db.gaugeWeights
          rollbackToSlot := some b.slot } := by
      intro db₁
      unfold batchDiscard
      simp only [bind_eq_ok, discardEvents_eq_ok, zipIdx_map_fst, pure_eq_ok]
      constructor
      · intro h
        obtain ⟨_, ⟨hsus, htakes, rfl⟩, rfl⟩ := h
        exact ⟨hsus, htakes, rfl⟩
      · intro h
        obtain ⟨hsus, htakes, rfl⟩ := h
        exact ⟨_, ⟨hsus, htakes, rfl⟩, rfl⟩
    rw [discardBlocks, foldlM_cons, bind_eq_ok, forall_mem_cons, flatMap_cons,
      takes_append, foldl_append, flatMap_cons, foldl_append, hlast]
    constructor
    · intro h
      obtain ⟨db₁, h₁, h⟩ := h
      obtain ⟨hsus, htakes, rfl⟩ := (hone db₁).1 h₁
      obtain ⟨hsus', htakes', rfl⟩ := ih.1 h
      exact ⟨⟨hsus, hsus'⟩, ⟨htakes, htakes'⟩, rfl⟩
    · intro h
      obtain ⟨⟨hsus, hsus'⟩, ⟨htakes, htakes'⟩, rfl⟩ := h
      exact ⟨_, (hone _).2 ⟨hsus, htakes, rfl⟩, ih.2 ⟨hsus', htakes', rfl⟩⟩

/-! ## Positions after a rollback -/

theorem get?_rollbackPositions (toSlot back current : ℕ) (m : OrdMap (Credential ×ₗ ℕ) AccountPosition)
    (cred : Credential) (k : ℕ) :
    (m.toList.foldl (rollbackPosition toSlot back current) m).get? (toLex (cred, k))
      = (m.get? (toLex (cred, k))).bind fun p => if back + 1 ≤ k ∧ k ≤ current then none
          else if k = back then some (p.rollbackTo toSlot) else some p := by
  rw [OrdMap.get?_foldl_local Prod.fst (g := fun o e =>
    if back + 1 ≤ (ofLex e.1).2 ∧ (ofLex e.1).2 ≤ current then none
    else if (ofLex e.1).2 = back then some (e.2.rollbackTo toSlot) else o), OrdMap.filter_toList_key]
  · cases m.get? (toLex (cred, k)) with
    | none => rfl
    | some p => rfl
  · intro m e
    unfold rollbackPosition
    split_ifs <;> simp
  · intro m e j hj
    unfold rollbackPosition
    split_ifs
    · rw [OrdMap.get?_erase, if_neg hj]
    · rw [OrdMap.get?_insert, if_neg hj]
    · rfl

/-- What is done before the first block after a rollback. -/
def restore (cfg : Settings) (db : PositionDB) : Exec PositionDB :=
  db.rollbackToSlot.elim (.ok db) fun toSlot => do
    let db' ← rollbackAccountPositions (rollbackConverter cfg) db toSlot
    return { db' with rollbackToSlot := none }

def appendAll (cfg : Settings) (db : PositionDB) (blocks : List Block) : Exec PositionDB :=
  blocks.foldlM (fun db b => batchAppend cfg db b.slot b.events) db

theorem appendAll_forward (h : db.rollbackToSlot = none) (blocks : List Block) :
    appendAll cfg db blocks = .ok (blocks.foldl appendBlock db) := by
  induction blocks generalizing db with
  | nil => rfl
  | cons b blocks ih =>
    have hone : batchAppend cfg db b.slot b.events = .ok (appendBlock db b) := by
      rw [batchAppend, h]
      rfl
    have hroll : (appendBlock db b).rollbackToSlot = none := by
      rw [appendBlock_eq]
      exact h
    rw [appendAll, foldlM_cons, hone]
    exact ih hroll

theorem restore_frame (h : restore cfg db = .ok db') :
    db'.rollbackToSlot = none ∧ db'.events = db.events ∧ db'.activePools = db.activePools ∧
      db'.suspendedPools = db.suspendedPools ∧ db'.gaugeWeights = db.gaugeWeights := by
  unfold restore at h
  cases hroll : db.rollbackToSlot with
  | none =>
    rw [hroll] at h
    cases h
    exact ⟨hroll, rfl, rfl, rfl, rfl⟩
  | some toSlot =>
    rw [hroll] at h
    obtain ⟨db₁, h₁, h⟩ := bind_eq_ok.1 h
    cases h
    obtain ⟨_, -, h₁⟩ := bind_eq_ok.1 h₁
    obtain ⟨_, -, h₁⟩ := bind_eq_ok.1 h₁
    obtain ⟨_, -, h₁⟩ := bind_eq_ok.1 h₁
    cases h₁
    exact ⟨rfl, rfl, rfl, rfl, rfl⟩

theorem appendAll_eq_ok (hne : blocks ≠ []) : appendAll cfg db blocks = .ok db' ↔
      ∃ db₁, restore cfg db = .ok db₁ ∧ db' = blocks.foldl appendBlock db₁ := by
  obtain ⟨b, blocks, rfl⟩ := exists_cons_of_ne_nil hne
  have hone : batchAppend cfg db b.slot b.events
      = restore cfg db >>= fun r => .ok (appendBlock r b) := rfl
  have hrest : ∀ r, restore cfg db = .ok r →
      appendAll cfg (appendBlock r b) blocks = .ok ((b :: blocks).foldl appendBlock r) := by
    intro r hr
    have hroll : r.rollbackToSlot = none := (restore_frame hr).1
    refine appendAll_forward ?_ blocks
    rw [appendBlock_eq]
    exact hroll
  rw [appendAll, foldlM_cons, hone]
  simp only [bind_eq_ok]
  constructor
  · intro h
    obtain ⟨db₂, ⟨db₁, hrestore, happ⟩, h⟩ := h
    cases happ
    exact ⟨db₁, hrestore, (Except.ok.inj ((hrest db₁ hrestore).symm.trans h)).symm⟩
  · intro h
    obtain ⟨db₁, hrestore, rfl⟩ := h
    exact ⟨_, ⟨db₁, hrestore, rfl⟩, hrest db₁ hrestore⟩

/-- The positions stay as they are when they are rolled back from the slot `last` to `first`. -/
def Kept (cfg : Settings) (db : PositionDB) (first last : ℕ) : Prop :=
  ∃ back current, (rollbackConverter cfg).toEpoch first = .ok back ∧
    (rollbackConverter cfg).toEpoch last = .ok current ∧
    ∀ pid cred k p, (db.accountPositions pid).get? (toLex (cred, k)) = some p →
      ¬ (back < k ∧ k ≤ current) ∧ (k = back → p.rollbackTo first = p)

/-- A rollback returns with the same positions exactly when they are kept. -/
theorem restore_same_iff (cfg : Settings) {first last : ℕ} (hroll : db.rollbackToSlot = some first)
    (hcur : db.currentSlot = some last) :
    (∃ db', restore cfg db = .ok db' ∧ db'.accountPositions = db.accountPositions) ↔
      Kept cfg db first last := by
  have hsame : ∀ back current, (fun pid => (db.accountPositions pid).toList.foldl
        (rollbackPosition first back current) (db.accountPositions pid)) = db.accountPositions ↔
      ∀ pid cred k p, (db.accountPositions pid).get? (toLex (cred, k)) = some p →
        ¬ (back < k ∧ k ≤ current) ∧ (k = back → p.rollbackTo first = p) := by
    intro back current
    constructor
    · intro h pid cred k p hp
      have hget := get?_rollbackPositions first back current (db.accountPositions pid) cred k
      rw [congrFun h pid, hp, bind_some] at hget
      split_ifs at hget with hin hk
      · exact ⟨fun hin' => by omega, fun _ => (Option.some.inj hget).symm⟩
      · exact ⟨fun hin' => hin ⟨by omega, hin'.2⟩, fun hk' => absurd hk' hk⟩
    · intro h
      funext pid
      refine OrdMap.ext_get? fun key => ?_
      have hget := get?_rollbackPositions first back current (db.accountPositions pid)
        (ofLex key).1 (ofLex key).2
      refine hget.trans ?_
      change _ = (db.accountPositions pid).get? (toLex ((ofLex key).1, (ofLex key).2))
      cases hp : (db.accountPositions pid).get? (toLex ((ofLex key).1, (ofLex key).2)) with
      | none => rfl
      | some p =>
        obtain ⟨hnot, hk⟩ := h pid _ _ p hp
        rw [bind_some, if_neg fun hin => hnot ⟨by omega, hin.2⟩]
        split_ifs with heq
        · rw [hk heq]
        · rfl
  unfold restore Kept
  rw [hroll, elim_some]
  simp only [rollbackAccountPositions, hcur, bind_eq_ok, expect_eq_ok, pure_eq_ok]
  constructor
  · intro h
    obtain ⟨_, ⟨_, ⟨_, hslot, current, hcurrent, back, hback, rfl⟩, rfl⟩, hpos⟩ := h
    cases hslot
    exact ⟨back, current, hback, hcurrent, (hsame back current).1 hpos⟩
  · intro h
    obtain ⟨back, current, hback, hcurrent, hall⟩ := h
    exact ⟨_, ⟨_, ⟨last, rfl, current, hcurrent, back, hback, rfl⟩, rfl⟩, (hsame back current).2 hall⟩

/-! ## Abandoned branches -/

/-- The tables that a fork must not change. -/
structure SameState (db db' : PositionDB) : Prop where
  events : db.events = db'.events
  positions : db.accountPositions = db'.accountPositions
  weights : db.gaugeWeights = db'.gaugeWeights
  active : db.activePools = db'.activePools
  suspended : db.suspendedPools = db'.suspendedPools

/-- What an abandoned branch must meet to leave no trace once another branch is appended. -/
structure Undone (cfg : Settings) (db : PositionDB) (fork other : List Block) : Prop where
  /-- No pools are suspended. -/
  suspended : ∀ b ∈ fork, suspensionsIn b.events = []
  /-- There is at most one new poll for an epoch. -/
  polls : ((fork.flatMap fun b => pollsIn b.events).map Prod.fst).Nodup
  /-- An epoch with a new poll had none before, or has one in the other branch. -/
  active : ∀ x ∈ fork.flatMap fun b => pollsIn b.events, db.activePools x.1 = none ∨
    x.1 ∈ (other.flatMap fun b => pollsIn b.events).map Prod.fst
  /-- No weight was stored for the pools and epochs that are weighted. -/
  weights : ∀ x ∈ fork.flatMap fun b => weightsIn b.events, db.gaugeWeights x.1 x.2 = none
  /-- The event with the position of a logged event in the reversed block is logged too, or the other
  branch logs an event with the slot and the position. -/
  log : ∀ b ∈ fork, ∀ n, (loggedAt b.events n).isSome → (loggedAt b.events.reverse n).isSome ∨
    (loggedIn other b.slot n).isSome
  /-- The rollback of positions changes nothing. -/
  positions : ∀ first ∈ fork.head?, ∀ last ∈ fork.getLast?, other ≠ [] →
    Kept cfg db first.slot last.slot

/-- The events of a block as they are discarded: they come in reverse order, up to the order of events
of one kind. -/
structure Mirrored (b b' : Block) : Prop where
  slot : b'.slot = b.slot
  polls : (pollsIn b'.events).Perm (pollsIn b.events)
  weights : (weightsIn b'.events).Perm (weightsIn b.events)
  suspensions : (suspensionsIn b'.events).Perm (suspensionsIn b.events)
  log : ∀ n, (loggedAt b'.events n).isSome = (loggedAt b.events.reverse n).isSome

theorem setActive_eq_iff {active active' : ℕ → Option (List PoolId)} :
    polls.foldl setActive active = polls.foldl setActive active' ↔
      ∀ epoch ∉ polls.map Prod.fst, active epoch = active' epoch := by
  constructor
  · intro h epoch hnot
    have hepoch := congrFun h epoch
    rwa [setActive_foldl_of_not_mem hnot, setActive_foldl_of_not_mem hnot] at hepoch
  · intro h
    funext epoch
    by_cases hmem : epoch ∈ polls.map Prod.fst
    · exact setActive_foldl_of_mem hmem _ _
    · rw [setActive_foldl_of_not_mem hmem, setActive_foldl_of_not_mem hmem, h epoch hmem]

theorem sameState_append_iff (blocks : List Block) (hsus : db.suspendedPools = db'.suspendedPools) :
    SameState (blocks.foldl appendBlock db) (blocks.foldl appendBlock db') ↔
      (∀ s n, loggedIn blocks s n = none →
        db.events.get? (toLex (s, n)) = db'.events.get? (toLex (s, n))) ∧
      db.accountPositions = db'.accountPositions ∧ db.gaugeWeights = db'.gaugeWeights ∧
      ∀ epoch ∉ (blocks.flatMap fun b => pollsIn b.events).map Prod.fst,
        db.activePools epoch = db'.activePools epoch := by
  obtain ⟨hev, hact, hsusp, hgauge, hpos, -, -⟩ := appendBlocks_spec blocks db
  obtain ⟨hev', hact', hsusp', hgauge', hpos', -, -⟩ := appendBlocks_spec blocks db'
  constructor
  · intro h
    refine ⟨fun s n hnone => ?_, ?_, ?_, ?_⟩
    · have hget := congrArg (fun m => m.get? (toLex (s, n))) h.events
      simpa only [hev, hev', hnone, none_or] using hget
    · rw [← hpos, ← hpos', h.positions]
    · rw [← hgauge, ← hgauge', h.weights]
    · have hactive := h.active
      rw [hact, hact'] at hactive
      exact setActive_eq_iff.1 hactive
  · intro h
    obtain ⟨hlog, hpositions, hweights, hactive⟩ := h
    refine ⟨OrdMap.ext_get? fun key => ?_, ?_, ?_, ?_, ?_⟩
    · change (blocks.foldl appendBlock db).events.get? (toLex ((ofLex key).1, (ofLex key).2))
        = (blocks.foldl appendBlock db').events.get? (toLex ((ofLex key).1, (ofLex key).2))
      rw [hev, hev']
      cases hl : loggedIn blocks (ofLex key).1 (ofLex key).2 with
      | none => rw [hlog _ _ hl]
      | some e => rfl
    · rw [hpos, hpos', hpositions]
    · rw [hgauge, hgauge', hweights]
    · rw [hact, hact']
      exact setActive_eq_iff.2 hactive
    · rw [hsusp, hsusp', hsus]

theorem flatMap_perm_of_forall₂ {γ : Type*} {R : α → β → Prop} {f : α → List γ} {g : β → List γ}
    (hR : ∀ a b, R a b → (g b).Perm (f a)) {l : List α} {l' : List β} (h : List.Forall₂ R l l') :
    (l'.reverse.flatMap g).Perm (l.flatMap f) := by
  refine ((reverse_perm l').flatMap_right g).trans ?_
  induction h with
  | nil => exact .refl _
  | cons hab _ ih => exact (hR _ _ hab).append ih

section Fork

variable {cfg : Settings} {db : PositionDB} {fork back other : List Block}
  (hforward : db.rollbackToSlot = none) (hslots : (fork.map Block.slot).Nodup)
  (hfresh : ∀ b ∈ fork, ∀ n, db.events.get? (toLex (b.slot, n)) = none)
  (hback : List.Forall₂ Mirrored fork back)

def abandoned (db : PositionDB) (fork back : List Block) : PositionDB :=
  { fork.foldl appendBlock db with
    events := eraseBlocks back.reverse (fork.foldl appendBlock db).events
    activePools := (back.reverse.flatMap fun b => pollsIn b.events).foldl dropActive
      (fork.foldl appendBlock db).activePools
    gaugeWeights := (back.reverse.flatMap fun b => weightsIn b.events).foldl dropWeight
      (fork.foldl appendBlock db).gaugeWeights
    rollbackToSlot := (back.reverse.getLast?.map Block.slot).or
      (fork.foldl appendBlock db).rollbackToSlot }

include hback in
theorem discard_fork_eq_ok {db' : PositionDB} :
    discardBlocks (fork.foldl appendBlock db) back.reverse = .ok db' ↔
      (∀ b ∈ fork, suspensionsIn b.events = []) ∧
      ((fork.flatMap fun b => pollsIn b.events).map Prod.fst).Nodup ∧
      db' = abandoned db fork back := by
  have hperm : (back.reverse.flatMap fun b => pollsIn b.events).Perm
      (fork.flatMap fun b => pollsIn b.events) := flatMap_perm_of_forall₂ (fun _ _ h => h.polls) hback
  have hsus : (∀ b ∈ back.reverse, suspensionsIn b.events = []) ↔
      ∀ b ∈ fork, suspensionsIn b.events = [] := by
    have hmap := flatMap_perm_of_forall₂ (fun _ _ h => h.suspensions) hback
    rw [← flatMap_eq_nil_iff, ← flatMap_eq_nil_iff]
    exact ⟨fun h => (h ▸ hmap).nil_eq.symm, fun h => (h ▸ hmap).eq_nil⟩
  have htakes : Takes (fork.foldl appendBlock db).activePools
      (back.reverse.flatMap fun b => pollsIn b.events) ↔
      ((fork.flatMap fun b => pollsIn b.events).map Prod.fst).Nodup := by
    rw [takes_iff, (hperm.map Prod.fst).nodup_iff]
    refine ⟨And.left, fun hnodup => ⟨hnodup, fun x hx => ?_⟩⟩
    rw [(appendBlocks_spec fork db).2.1]
    exact setActive_foldl_eq_some hnodup (hperm.mem_iff.1 hx) _
  rw [discardBlocks_eq_ok, hsus, htakes]
  rfl

include hslots hfresh hback in
/-- What the log of an abandoned branch must meet. -/
theorem abandoned_log_iff :
    (∀ s n, loggedIn other s n = none → (abandoned db fork back).events.get? (toLex (s, n))
        = db.events.get? (toLex (s, n))) ↔
      ∀ b ∈ fork, ∀ n, (loggedAt b.events n).isSome → (loggedAt b.events.reverse n).isSome ∨
        (loggedIn other b.slot n).isSome := by
  have herased : ∀ s n, (∃ b ∈ back.reverse, s = b.slot ∧ (loggedAt b.events n).isSome) ↔
      ∃ b ∈ fork, s = b.slot ∧ (loggedAt b.events.reverse n).isSome := by
    intro s n
    simp only [mem_reverse]
    induction hback with
    | nil => simp
    | cons hab _ ih =>
      rw [exists_mem_cons_iff, exists_mem_cons_iff, ih (nodup_cons.1 hslots).2
        fun b hb => hfresh b (mem_cons_of_mem _ hb), hab.slot, hab.log]
  have hget : ∀ s n, (abandoned db fork back).events.get? (toLex (s, n))
      = if ∃ b ∈ fork, s = b.slot ∧ (loggedAt b.events.reverse n).isSome then none
        else (loggedIn fork s n).or (db.events.get? (toLex (s, n))) := by
    intro s n
    rw [abandoned, get?_eraseBlocks, (appendBlocks_spec fork db).1]
    exact if_congr (herased s n) rfl rfl
  constructor
  · intro h b hb n hsome
    by_contra hnot
    obtain ⟨hrev, hother⟩ := not_or.1 hnot
    have hkept := h b.slot n (Option.not_isSome_iff_eq_none.1 hother)
    have hpresent : ¬ ∃ b' ∈ fork, b.slot = b'.slot ∧ (loggedAt b'.events.reverse n).isSome := by
      intro hex
      obtain ⟨b', hb', hslot, hlogged⟩ := hex
      obtain rfl : b = b' := inj_on_of_nodup_map hslots hb hb' hslot
      exact hrev hlogged
    rw [hget, if_neg hpresent, loggedIn_of_mem hslots hb, hfresh b hb, or_none] at hkept
    rw [hkept] at hsome
    cases hsome
  · intro h s n hnone
    rw [hget]
    split_ifs with hex
    · obtain ⟨b, hb, rfl, -⟩ := hex
      exact (hfresh b hb n).symm
    · cases hin : loggedIn fork s n with
      | none => rfl
      | some e =>
        -- What is left over would be replaced by the other branch.
        obtain ⟨b, hb, rfl⟩ := exists_of_loggedIn (by rw [hin]; exact some_ne_none e)
        rw [loggedIn_of_mem hslots hb] at hin
        rcases h b hb n (by rw [hin]; rfl) with hrev | hother
        · exact absurd ⟨b, hb, rfl, hrev⟩ hex
        · rw [hnone] at hother
          cases hother

include hback in
theorem abandoned_weights_iff : (abandoned db fork back).gaugeWeights = db.gaugeWeights ↔
    ∀ x ∈ fork.flatMap fun b => weightsIn b.events, db.gaugeWeights x.1 x.2 = none := by
  have hperm : (back.reverse.flatMap fun b => weightsIn b.events).Perm
      (fork.flatMap fun b => weightsIn b.events) :=
    flatMap_perm_of_forall₂ (fun _ _ h => h.weights) hback
  have hget : ∀ pid epoch, (abandoned db fork back).gaugeWeights pid epoch
      = if (pid, epoch) ∈ fork.flatMap fun b => weightsIn b.events then none
        else db.gaugeWeights pid epoch := by
    intro pid epoch
    refine (dropWeight_foldl _ _ pid epoch).trans ?_
    rw [(appendBlocks_spec fork db).2.2.2.1]
    exact if_congr hperm.mem_iff rfl rfl
  constructor
  · intro h x hx
    have hx' := congrFun (congrFun h x.1) x.2
    rwa [hget, if_pos hx, eq_comm] at hx'
  · intro h
    funext pid epoch
    rw [hget]
    split_ifs with hx
    · exact (h (pid, epoch) hx).symm
    · rfl

include hback in
theorem abandoned_active_iff {epochs : List ℕ} :
    (∀ epoch ∉ epochs, (abandoned db fork back).activePools epoch = db.activePools epoch) ↔
      ∀ x ∈ fork.flatMap fun b => pollsIn b.events, db.activePools x.1 = none ∨ x.1 ∈ epochs := by
  have hperm : (back.reverse.flatMap fun b => pollsIn b.events).Perm
      (fork.flatMap fun b => pollsIn b.events) := flatMap_perm_of_forall₂ (fun _ _ h => h.polls) hback
  have hget : ∀ epoch, (abandoned db fork back).activePools epoch
      = if epoch ∈ (fork.flatMap fun b => pollsIn b.events).map Prod.fst then none
        else db.activePools epoch := by
    intro epoch
    refine (dropActive_foldl _ _ epoch).trans ?_
    rw [(appendBlocks_spec fork db).2.1]
    by_cases hmem : epoch ∈ (fork.flatMap fun b => pollsIn b.events).map Prod.fst
    · rw [if_pos hmem, if_pos ((hperm.map Prod.fst).mem_iff.2 hmem)]
    · rw [if_neg hmem, if_neg fun h => hmem ((hperm.map Prod.fst).mem_iff.1 h),
        setActive_foldl_of_not_mem hmem]
  constructor
  · intro h x hx
    by_cases hepoch : x.1 ∈ epochs
    · exact .inr hepoch
    · have hx' := h x.1 hepoch
      rw [hget, if_pos (mem_map_of_mem hx)] at hx'
      exact .inl hx'.symm
  · intro h epoch hnot
    rw [hget]
    split_ifs with hmem
    · obtain ⟨x, hx, rfl⟩ := mem_map.1 hmem
      exact ((h x hx).resolve_right hnot).symm
    · rfl

theorem suspendAll_eq (h : ∀ b ∈ fork, suspensionsIn b.events = []) (t : SuspendedPools) :
    suspendAll fork t = t := by
  induction fork with
  | nil => rfl
  | cons b fork ih =>
    obtain ⟨hb, hrest⟩ := forall_mem_cons.1 h
    rw [suspendAll, foldl_cons, hb]
    exact ih hrest

include hforward hback in
/-- What the positions must meet before the other branch is appended. -/
theorem abandoned_restore_iff :
    (∃ db', restore cfg (abandoned db fork back) = .ok db' ∧
      db'.accountPositions = db.accountPositions) ↔
    ∀ first ∈ fork.head?, ∀ last ∈ fork.getLast?, Kept cfg db first.slot last.slot := by
  obtain ⟨-, -, -, -, hpos, hroll, hcur⟩ := appendBlocks_spec fork db
  have hpositions : (abandoned db fork back).accountPositions = db.accountPositions := hpos
  cases hback with
  | nil =>
    refine ⟨fun _ first hfirst => (nomatch hfirst), fun _ => ⟨_, ?_, hpositions⟩⟩
    rw [restore, show (abandoned db [] []).rollbackToSlot = none from hforward]
    rfl
  | @cons b b' fork back hab hrest =>
    obtain ⟨last, hlast⟩ : ∃ last, (b :: fork).getLast? = some last :=
      ⟨_, List.getLast?_eq_some_getLast (cons_ne_nil b fork)⟩
    have hto : (abandoned db (b :: fork) (b' :: back)).rollbackToSlot = some b.slot := by
      simp [abandoned, hab.slot]
    have hnow : (abandoned db (b :: fork) (b' :: back)).currentSlot = some last.slot := by
      refine hcur.trans ?_
      rw [hlast]
      rfl
    have hiff := restore_same_iff cfg hto hnow
    rw [hpositions] at hiff
    rw [hiff]
    have hkept : Kept cfg (abandoned db (b :: fork) (b' :: back)) b.slot last.slot ↔
        Kept cfg db b.slot last.slot := by
      unfold Kept
      rw [hpositions]
    rw [hkept]
    constructor
    · intro h first hfirst l hl
      obtain rfl : b = first := Option.some.inj hfirst
      obtain rfl : last = l := Option.some.inj (hlast.symm.trans hl)
      exact h
    · intro h
      exact h b rfl last hlast

include hforward hslots hfresh hback in
/-- **A branch leaves no trace** when it is appended and discarded and another one is appended, exactly
when it is `Undone`. -/
theorem undone_iff :
    (∃ db₂ db₃, discardBlocks (fork.foldl appendBlock db) back.reverse = .ok db₂ ∧
      appendAll cfg db₂ other = .ok db₃ ∧ SameState db₃ (other.foldl appendBlock db)) ↔
    Undone cfg db fork other := by
  have hsame : ∀ r : PositionDB, (∀ b ∈ fork, suspensionsIn b.events = []) →
      r.events = (abandoned db fork back).events →
      r.activePools = (abandoned db fork back).activePools →
      r.suspendedPools = (abandoned db fork back).suspendedPools →
      r.gaugeWeights = (abandoned db fork back).gaugeWeights →
      (SameState (other.foldl appendBlock r) (other.foldl appendBlock db) ↔
        (∀ b ∈ fork, ∀ n, (loggedAt b.events n).isSome → (loggedAt b.events.reverse n).isSome ∨
          (loggedIn other b.slot n).isSome) ∧
        r.accountPositions = db.accountPositions ∧
        (∀ x ∈ fork.flatMap fun b => weightsIn b.events, db.gaugeWeights x.1 x.2 = none) ∧
        ∀ x ∈ fork.flatMap fun b => pollsIn b.events, db.activePools x.1 = none ∨
          x.1 ∈ (other.flatMap fun b => pollsIn b.events).map Prod.fst) := by
    intro r hsus hev hact hsusp hgauge
    have hsuspended : r.suspendedPools = db.suspendedPools :=
      hsusp.trans (((appendBlocks_spec fork db).2.2.1).trans (suspendAll_eq hsus _))
    rw [sameState_append_iff other hsuspended, hev, hgauge, hact,
      abandoned_log_iff hslots hfresh hback, abandoned_weights_iff hback, abandoned_active_iff hback]
  constructor
  · intro h
    obtain ⟨db₂, db₃, hdiscard, happend, hstate⟩ := h
    obtain ⟨hsus, hpolls, rfl⟩ := (discard_fork_eq_ok hback).1 hdiscard
    by_cases hne : other = []
    · subst hne
      cases happend
      obtain ⟨hlog, -, hweights, hactive⟩ := (hsame _ hsus rfl rfl rfl rfl).1 hstate
      exact ⟨hsus, hpolls, hactive, hweights, hlog, fun _ _ _ _ hne => absurd rfl hne⟩
    · obtain ⟨r, hrestore, rfl⟩ := (appendAll_eq_ok hne).1 happend
      obtain ⟨-, hev, hact, hsusp, hgauge⟩ := restore_frame hrestore
      obtain ⟨hlog, hpos, hweights, hactive⟩ := (hsame r hsus hev hact hsusp hgauge).1 hstate
      have hkept := (abandoned_restore_iff hforward hback).1 ⟨r, hrestore, hpos⟩
      exact ⟨hsus, hpolls, hactive, hweights, hlog, fun first hfirst last hlast _ =>
        hkept first hfirst last hlast⟩
  · intro h
    have hdiscard : discardBlocks (fork.foldl appendBlock db) back.reverse
        = .ok (abandoned db fork back) := (discard_fork_eq_ok hback).2 ⟨h.suspended, h.polls, rfl⟩
    by_cases hne : other = []
    · subst hne
      refine ⟨_, _, hdiscard, rfl, (hsame _ h.suspended rfl rfl rfl rfl).2
        ⟨h.log, (appendBlocks_spec fork db).2.2.2.2.1, h.weights, h.active⟩⟩
    · obtain ⟨r, hrestore, hpos⟩ := (abandoned_restore_iff hforward hback).2
        fun first hfirst last hlast => h.positions first hfirst last hlast hne
      obtain ⟨-, hev, hact, hsusp, hgauge⟩ := restore_frame hrestore
      exact ⟨_, _, hdiscard, (appendAll_eq_ok hne).2 ⟨r, hrestore, rfl⟩,
        (hsame r h.suspended hev hact hsusp hgauge).2 ⟨h.log, hpos, h.weights, h.active⟩⟩

end Fork

end Splash.LpIndexer
