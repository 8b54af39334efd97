import Splash.LpIndexer.Bookkeeping
import Splash.LpIndexer.Forks

/-!
# Forks of the chain

Blocks come with what is read from their transactions, and farms are replaced by pools as they come. A
block that is rolled back comes with its transactions in reverse order.

* `rollForward`, `rollBackward` — a block is appended or discarded.
* `followBranch_eq`, `rollBackward_foldlM` — the same with pools in place of farms.
* `mirrored_resolved` — the events of a block that is rolled back are those of the block in reverse
  order, up to the order of weights.
* **`forkIndependent_iff`** — when an abandoned branch leaves no trace, for every chain and every branch
  whose new gauges are not named on it or on the other branch.
-/

namespace Splash.LpIndexer

open Lib List Exec

/-! ## The pipeline -/

structure ChainBlock where
  slot : ℕ
  events : List StatelessOnChainEvent

/-- The database and the bindings of gauges. -/
structure Indexer where
  db : PositionDB
  bindings : Bindings

section

variable (cfg : Settings) (s : Indexer) (fork other : List ChainBlock)

def rollForward (b : ChainBlock) : Exec Indexer := do
  let resolved := resolveGauges s.bindings b.events
  let db ← batchAppend cfg s.db b.slot resolved.2
  return ⟨db, resolved.1⟩

def rollBackward (b : ChainBlock) : Exec Indexer := do
  let resolved := resolveGauges s.bindings b.events.reverse
  let db ← batchDiscard s.db b.slot resolved.2
  return ⟨db, resolved.1⟩

def followBranch (blocks : List ChainBlock) : Exec Indexer :=
  blocks.foldlM (rollForward cfg) s

def abandonBranch (blocks : List ChainBlock) : Exec Indexer :=
  blocks.reverse.foldlM rollBackward s

/-- The tables after the other branch do not show that a branch was followed and abandoned. -/
def ForkIndependent : Prop :=
  ∃ s₁ s₂ s₃ s₄, followBranch cfg s fork = .ok s₁ ∧ abandonBranch s₁ fork = .ok s₂ ∧
    followBranch cfg s₂ other = .ok s₃ ∧ followBranch cfg s other = .ok s₄ ∧ SameState s₃.db s₄.db

/-! ## Pools in place of farms -/

def ChainBlock.resolved (bindings : Bindings) (b : ChainBlock) : Block :=
  ⟨b.slot, b.events.flatMap (resolveEvent bindings)⟩

def ChainBlock.reversed (bindings : Bindings) (b : ChainBlock) : Block :=
  ⟨b.slot, b.events.reverse.flatMap (resolveEvent bindings)⟩

/-- The blocks of a branch, as gauges are bound on the way. -/
def resolveBranch (bindings : Bindings) : List ChainBlock → Bindings × List Block
  | [] => (bindings, [])
  | b :: blocks =>
    let head := resolveGauges bindings b.events
    let rest := resolveBranch head.1 blocks
    (rest.1, ⟨b.slot, head.2⟩ :: rest.2)

theorem followBranch_eq (blocks : List ChainBlock) :
    followBranch cfg s blocks = (appendAll cfg s.db (resolveBranch s.bindings blocks).2).map
      (Indexer.mk · (resolveBranch s.bindings blocks).1) := by
  induction blocks generalizing s with
  | nil => rfl
  | cons b blocks ih =>
    rw [followBranch, foldlM_cons]
    simp only [rollForward, resolveBranch, appendAll, foldlM_cons]
    cases hb : batchAppend cfg s.db b.slot (resolveGauges s.bindings b.events).2 with
    | error e => rfl
    | ok db => exact ih ⟨db, (resolveGauges s.bindings b.events).1⟩

end

section

variable (farms : List FarmId) (blocks : List ChainBlock)

def createdOn : List FarmId :=
  blocks.flatMap fun b => b.events.filterMap StatelessOnChainEvent.created?

/-- No event of a branch names one of the farms. -/
def Unnamed : Prop :=
  ∀ b ∈ blocks, ∀ e ∈ b.events, Avoids farms e

/-- The gauges created on a branch are among some farms. -/
def Creates : Prop :=
  ∀ b ∈ blocks, ∀ e ∈ b.events, ∀ farm ∈ e.created?, farm ∈ farms

theorem creates_createdOn : Creates (createdOn blocks) blocks :=
  fun b hb e he _ hfarm => mem_flatMap.2 ⟨b, hb, mem_filterMap.2 ⟨e, he, hfarm⟩⟩

end

section Bindings

variable {farms : List FarmId} {b b' : Bindings}

variable {blocks : List ChainBlock}

theorem resolveBranch_congr (h : AgreeOff farms b b')
    (hu : Unnamed farms blocks) : (resolveBranch b blocks).2 = (resolveBranch b' blocks).2 := by
  induction blocks generalizing b b' with
  | nil => rfl
  | cons block blocks ih =>
    obtain ⟨hhead, htail⟩ := forall_mem_cons.1 hu
    obtain ⟨hbind, hout⟩ := h.resolveGauges hhead
    simp only [resolveBranch]
    rw [hout, ih hbind htail]

theorem resolveBranch_left (h : AgreeOff farms b b')
    (hu : Unnamed farms blocks) (hc : Creates farms blocks) :
    AgreeOff farms (resolveBranch b blocks).1 b' ∧
      (resolveBranch b blocks).2 = blocks.map (ChainBlock.resolved b') := by
  induction blocks generalizing b with
  | nil => exact ⟨h, rfl⟩
  | cons block blocks ih =>
    obtain ⟨huhead, hutail⟩ := forall_mem_cons.1 hu
    obtain ⟨hchead, hctail⟩ := forall_mem_cons.1 hc
    obtain ⟨hbind, hout⟩ := h.resolveGauges_left huhead hchead
    obtain ⟨hbind', hout'⟩ := ih hbind hutail hctail
    refine ⟨hbind', ?_⟩
    simp only [resolveBranch]
    rw [hout, hout']
    rfl

def bindBack (bindings : Bindings) (blocks : List ChainBlock) : Bindings :=
  blocks.foldl (fun b block => (resolveGauges b block.events.reverse).1) bindings

theorem rollBackward_foldlM (s : Indexer) (h : AgreeOff farms s.bindings b')
    (hu : Unnamed farms blocks) (hc : Creates farms blocks) :
    AgreeOff farms (bindBack s.bindings blocks) b' ∧ blocks.foldlM rollBackward s
      = (discardBlocks s.db (blocks.map (ChainBlock.reversed b'))).map
          (Indexer.mk · (bindBack s.bindings blocks)) := by
  induction blocks generalizing s with
  | nil => exact ⟨h, rfl⟩
  | cons block blocks ih =>
    obtain ⟨huhead, hutail⟩ := forall_mem_cons.1 hu
    obtain ⟨hchead, hctail⟩ := forall_mem_cons.1 hc
    obtain ⟨hbind, hout⟩ : AgreeOff farms (resolveGauges s.bindings block.events.reverse).1 b' ∧
        (resolveGauges s.bindings block.events.reverse).2
          = block.events.reverse.flatMap (resolveEvent b') :=
      h.resolveGauges_left (fun e he => huhead e (mem_reverse.1 he))
        fun e he => hchead e (mem_reverse.1 he)
    have hrest := fun db => ih ⟨db, (resolveGauges s.bindings block.events.reverse).1⟩ hbind hutail
      hctail
    refine ⟨(hrest s.db).1, ?_⟩
    rw [foldlM_cons]
    simp only [rollBackward, discardBlocks, map_cons, foldlM_cons, hout,
      ChainBlock.reversed]
    cases hb : batchDiscard s.db block.slot (block.events.reverse.flatMap (resolveEvent b')) with
    | error e => rfl
    | ok db => exact (hrest db).2

end Bindings

/-! ## Blocks in reverse -/

/-- The events that one transaction gives are logged or not, all of them. -/
theorem map_logged_resolveEvent (bindings : Bindings) (e : StatelessOnChainEvent) :
    ((resolveEvent bindings e).map OnChainEvent.logged).reverse
      = (resolveEvent bindings e).map OnChainEvent.logged := by
  cases e with
  | position _ => rfl
  | gauge _ _ => rfl
  | pool _ => rfl
  | weightingPoll distribution total epoch =>
    cases total with
    | none => rfl
    | some total =>
      have hall : ∀ x ∈ (resolveEvent bindings (.weightingPoll distribution (some total) epoch)).map
          OnChainEvent.logged, x = true := by
        intro x hx
        obtain ⟨e, he, rfl⟩ := mem_map.1 hx
        obtain ⟨y, -, hy⟩ := mem_filterMap.1 he
        obtain ⟨pid, -, rfl⟩ := Option.map_eq_some_iff.1 hy
        rfl
      rw [eq_replicate_of_mem hall, reverse_replicate]
  | permManager _ => rfl

theorem isSome_loggedAt (events : List OnChainEvent) (n : ℕ) :
    (loggedAt events n).isSome = ((events.map OnChainEvent.logged)[n]?).getD false := by
  rw [List.getElem?_map, loggedAt]
  cases events[n]? with
  | none => rfl
  | some e => cases h : e.logged <;> simp [h, Option.filter]

/-- A block that is rolled back has the events of the block in reverse order, up to the order of
weights. -/
theorem mirrored_resolved (bindings : Bindings) (b : ChainBlock) :
    Mirrored (b.resolved bindings) (b.reversed bindings) := by
  have hperm : (b.reversed bindings).events.Perm (b.resolved bindings).events :=
    (reverse_perm b.events).flatMap_right _
  refine ⟨rfl, hperm.filterMap _, hperm.filterMap _, hperm.filterMap _, fun n => ?_⟩
  rw [isSome_loggedAt, isSome_loggedAt]
  congr 2
  simp only [ChainBlock.reversed, ChainBlock.resolved, map_flatMap, reverse_flatMap]
  refine flatMap_congr fun e _ => ?_
  rw [Function.comp_apply, map_reverse, map_logged_resolveEvent]

/-! ## Forks after a run -/

/-- Nothing is logged after the current slot, and no rollback is pending. -/
theorem Run.log_le {cfg : Settings} {db : PositionDB} {T : List Block} (run : Run cfg db T) :
    db.rollbackToSlot = none ∧ ∀ key e, db.events.get? key = some e →
      ∃ s, db.currentSlot = some s ∧ (ofLex key).1 ≤ s := by
  induction run with
  | start => exact ⟨rfl, fun _ _ h => nomatch h⟩
  | append run hslot happ ih =>
    next db db' T slot events =>
    obtain ⟨hforward, hlog⟩ := ih
    obtain ⟨restored, hrest, happ⟩ := bind_eq_ok.1 happ
    rw [hforward] at hrest
    cases hrest
    cases happ
    obtain ⟨-, hcur, hroll, hev⟩ :=
      appendEvents_spec slot events.zipIdx { db with currentSlot := some slot }
    refine ⟨hroll.trans hforward, fun key e he => ⟨slot, hcur, ?_⟩⟩
    rcases hev key e he with hold | hnew
    · obtain ⟨s, hs, hle⟩ := hlog key e hold
      exact hle.trans (hslot s hs).le
    · exact hnew.le
  | process ord run hslot hproc ih =>
    next db db' T slot =>
    obtain ⟨hforward, hlog⟩ := ih
    obtain ⟨maxSlot, hmax, hmature, hproc⟩ := tryProcessMatureEvents_true hslot hproc
    obtain ⟨hev, hcur, hroll, -⟩ := processSlot_spec hproc
    refine ⟨hroll.trans hforward, fun key e he => ?_⟩
    rw [hev, OrdMap.get?_foldl_erase] at he
    split at he
    · cases he
    · rw [hcur]
      exact hlog key e he

/-- **Fork independence.** For every chain, an abandoned branch leaves no trace exactly when it is
`Undone`, provided that no farm whose gauge is created on it is named on it or on the other branch. -/
theorem forkIndependent_iff {cfg : Settings} {db : PositionDB} {T : List Block} (run : Run cfg db T)
    (bindings : Bindings) (fork other : List ChainBlock)
    (hslots : (fork.map ChainBlock.slot).Pairwise (· < ·))
    (hlater : ∀ b ∈ fork, ∀ s, db.currentSlot = some s → s < b.slot)
    (hfork : Unnamed (createdOn fork) fork) (hother : Unnamed (createdOn fork) other) :
    ForkIndependent cfg ⟨db, bindings⟩ fork other ↔
      Undone cfg db (fork.map (ChainBlock.resolved bindings)) (resolveBranch bindings other).2 := by
  obtain ⟨hforward, hlog⟩ := run.log_le
  have hcreates := creates_createdOn fork
  obtain ⟨hbind₁, hblocks⟩ := resolveBranch_left (.refl (createdOn fork) bindings) hfork hcreates
  have hcreatesr : Creates (createdOn fork) fork.reverse := fun b hb =>
    hcreates b (mem_reverse.1 hb)
  have hforkr : Unnamed (createdOn fork) fork.reverse := fun b hb => hfork b (mem_reverse.1 hb)
  -- Both branches on an indexer without a pending rollback.
  have hfollow : ∀ blocks, followBranch cfg ⟨db, bindings⟩ blocks
      = .ok ⟨(resolveBranch bindings blocks).2.foldl appendBlock db,
          (resolveBranch bindings blocks).1⟩ := by
    intro blocks
    rw [followBranch_eq, appendAll_forward hforward]
    rfl
  have hback : List.Forall₂ Mirrored (fork.map (ChainBlock.resolved bindings))
      (fork.map (ChainBlock.reversed bindings)) := by
    rw [forall₂_map_left_iff, forall₂_map_right_iff]
    exact forall₂_same.2 fun b _ => mirrored_resolved bindings b
  -- The fork is rolled back with its own bindings in place.
  obtain ⟨hbind₂, habandon⟩ : AgreeOff (createdOn fork)
        (bindBack (resolveBranch bindings fork).1 fork.reverse) bindings ∧
      abandonBranch ⟨(resolveBranch bindings fork).2.foldl appendBlock db,
        (resolveBranch bindings fork).1⟩ fork
      = (discardBlocks ((fork.map (ChainBlock.resolved bindings)).foldl appendBlock db)
          (fork.map (ChainBlock.reversed bindings)).reverse).map
          (Indexer.mk · (bindBack (resolveBranch bindings fork).1 fork.reverse)) := by
    rw [← map_reverse, hblocks]
    exact rollBackward_foldlM ⟨_, (resolveBranch bindings fork).1⟩ hbind₁ hforkr hcreatesr
  rw [← undone_iff hforward ?_ ?_ hback]
  · constructor
    · intro h
      obtain ⟨s₁, s₂, s₃, s₄, h₁, h₂, h₃, h₄, hsame⟩ := h
      cases (hfollow fork).symm.trans h₁
      cases (hfollow other).symm.trans h₄
      rw [habandon] at h₂
      obtain ⟨db₂, hdb₂, rfl⟩ := map_eq_ok.1 h₂
      rw [followBranch_eq] at h₃
      obtain ⟨db₃, hdb₃, rfl⟩ := map_eq_ok.1 h₃
      rw [resolveBranch_congr hbind₂ hother] at hdb₃
      exact ⟨db₂, db₃, hdb₂, hdb₃, hsame⟩
    · intro h
      obtain ⟨db₂, db₃, hdb₂, hdb₃, hsame⟩ := h
      refine ⟨_, ⟨db₂, bindBack (resolveBranch bindings fork).1 fork.reverse⟩, ⟨db₃,
        (resolveBranch (bindBack (resolveBranch bindings fork).1 fork.reverse) other).1⟩, _,
        hfollow fork, ?_, ?_, hfollow other, hsame⟩
      · rw [habandon, hdb₂]
        rfl
      · rw [followBranch_eq, resolveBranch_congr hbind₂ hother, hdb₃]
        rfl
  · rw [map_map]
    exact hslots.imp fun hlt => hlt.ne
  · intro b hb n
    obtain ⟨block, hblock, rfl⟩ := mem_map.1 hb
    cases hget : db.events.get? (toLex ((block.resolved bindings).slot, n)) with
    | none => rfl
    | some e =>
      obtain ⟨s, hs, hle⟩ := hlog _ e hget
      exact absurd (hlater block hblock s hs) (not_lt.2 hle)

theorem sampleLate_pos : 0 < 10 := Nat.succ_pos 9

/-- Epochs of ten slots from slot 1000 on, without a delay. -/
def sampleLate : Settings := ⟨0, 10, 1000, sampleLate_pos⟩

def sampleBase : PositionDB := appendBlock .empty ⟨1000, [sampleDeposit 7 10 10]⟩

theorem sampleBase_run : Run sampleLate sampleBase [] :=
  .append .start (fun _ h => nomatch h) rfl

def sampleDeposited (account lpMint lpSupply : ℕ) : StatelessOnChainEvent :=
  .position (.deposit ⟨1, account, lpMint, lpSupply⟩)

/-- Two blocks with deposits, and the block of the other branch. -/
def sampleFork : List ChainBlock :=
  [⟨1001, [sampleDeposited 7 5 15]⟩, ⟨1002, [sampleDeposited 8 5 20, sampleDeposited 7 5 25]⟩]

def sampleOther : List ChainBlock := [⟨1003, [sampleDeposited 8 1 11]⟩]

theorem sampleFork_independent :
    ForkIndependent sampleLate ⟨sampleBase, fun _ => none⟩ sampleFork sampleOther := by
  refine (forkIndependent_iff sampleBase_run (fun _ => none) sampleFork sampleOther (by decide)
    ?_ ?_ ?_).2 ⟨by decide, by decide, by decide, by decide, ?_, ?_⟩
  · intro b hb s hs
    obtain rfl : 1000 = s := Option.some.inj hs
    revert b
    decide
  · intro b hb e he farm hfarm hmem
    exact absurd hmem (by decide +revert)
  · intro b hb e he farm hfarm hmem
    exact absurd hmem (by decide +revert)
  · intro b hb n
    obtain _ | _ | n := n
    all_goals
      revert b
      simp [sampleFork, ChainBlock.resolved, resolveEvent, loggedAt, OnChainEvent.logged,
        sampleDeposited]
  · intro first hfirst last hlast _
    obtain rfl : (⟨1001, _⟩ : Block) = first := Option.some.inj hfirst
    obtain rfl : (⟨1002, _⟩ : Block) = last := Option.some.inj hlast
    refine ⟨0, 0, by decide, by decide, fun _ _ _ _ hp => ?_⟩
    cases hp

/-- A block with a deposit and a new weighting poll. -/
def sampleMixed : List ChainBlock := [⟨1001, [sampleDeposited 7 5 15, .weightingPoll [] none 3]⟩]

def logAfter (r : Exec Indexer) : Exec (List ((ℕ ×ₗ ℕ) × OnChainEvent)) := r.map (·.db.events.toList)

/-- The deposit of the abandoned block stays in the log. -/
theorem sampleMixed_dependent :
    ¬ ForkIndependent sampleLate ⟨sampleBase, fun _ => none⟩ sampleMixed sampleOther := by
  intro h
  obtain ⟨s₁, s₂, s₃, s₄, h₁, h₂, h₃, h₄, hsame⟩ := h
  have hfork : logAfter (do
      let s₁ ← followBranch sampleLate ⟨sampleBase, fun _ => none⟩ sampleMixed
      let s₂ ← abandonBranch s₁ sampleMixed
      followBranch sampleLate s₂ sampleOther) = .ok [(toLex (1000, 0), sampleDeposit 7 10 10),
        (toLex (1001, 0), sampleDeposit 7 5 15), (toLex (1003, 0), sampleDeposit 8 1 11)] := by
    decide +kernel
  have hother : logAfter (followBranch sampleLate ⟨sampleBase, fun _ => none⟩ sampleOther)
      = .ok [(toLex (1000, 0), sampleDeposit 7 10 10), (toLex (1003, 0), sampleDeposit 8 1 11)] := by
    decide +kernel
  obtain ⟨s₃', hs₃, hlog⟩ := map_eq_ok.1 hfork
  obtain ⟨s₁', hs₁, hs₃⟩ := bind_eq_ok.1 hs₃
  cases h₁.symm.trans hs₁
  obtain ⟨s₂', hs₂, hs₃⟩ := bind_eq_ok.1 hs₃
  cases h₂.symm.trans hs₂
  cases h₃.symm.trans hs₃
  rw [h₄] at hother
  have hlists := hlog.symm.trans
    ((congrArg OrdMap.toList hsame.events).trans (Except.ok.inj hother))
  exact absurd (congrArg List.length hlists) (by decide)

end Splash.LpIndexer
