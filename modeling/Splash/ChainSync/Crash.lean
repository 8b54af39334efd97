import Splash.ChainSync.EventSource

/-!
# Crashes

The process may stop after any single operation of the store. A cached block takes two
operations, the tip first and the block second, and an unlinked block takes two as well, the block
first and the tip second. Between the two the tip names a block that is not stored.

* `take_ops_cases` — what has been written when the process stops.
* `not_recoverable_between` — between the two operations of a change the cache is broken.
* `recoverable_iff` — the cache survives a crash just when no change is half done.
-/

namespace Splash.ChainSync

open Lib LedgerCache List

variable {TB TW AD R : Type}

/-- The changes that are complete after `n` single operations. -/
def completed : List (CacheStep TB TW AD R) → ℕ → List (CacheStep TB TW AD R)
  | [], _ => []
  | s :: log, n => if s.ops.length ≤ n then s :: completed log (n - s.ops.length) else []

/-- The cache can be used again: its tip is a point up to the horizon or a stored block, its links
visit the cached blocks of the chain, and every session from it is faithful. -/
structure Recoverable (fromCborBytes : R → Option (MultiEraBlock TB TW AD))
    (handleRollbacksAfter : ℕ) (start : Point) (cache : LedgerCache R)
    (c : List (RawBlock TB TW AD R)) : Prop where
  tip : ∀ tip, cache.tip = some tip →
    tip.getSlot ≤ handleRollbacksAfter ∨ (cache.getBlock tip).isSome
  links : CachesChain handleRollbacksAfter cache c
  resumes : Faithful fromCborBytes handleRollbacksAfter start cache c

/-- What has been written when the process stops: the complete changes, and perhaps the first
operation of the next one. -/
theorem take_ops_cases (log : List (CacheStep TB TW AD R)) (n : ℕ) :
    ∃ rest part, log = completed log n ++ rest ∧
      (log.flatMap CacheStep.ops).take n = (completed log n).flatMap CacheStep.ops ++ part ∧
      (part = [] ∨ ∃ s rest' op op', rest = s :: rest' ∧ s.ops = [op, op'] ∧ part = [op]) := by
  induction log generalizing n with
  | nil => exact ⟨[], [], rfl, take_nil, .inl rfl⟩
  | cons s log ih =>
    by_cases hn : s.ops.length ≤ n
    · obtain ⟨rest, part, hlog, htake, hpart⟩ := ih (n - s.ops.length)
      refine ⟨rest, part, ?_, ?_, hpart⟩
      · rw [completed, if_pos hn, cons_append, ← hlog]
      · rw [completed, if_pos hn, flatMap_cons, flatMap_cons, take_append,
          take_of_length_le hn, htake, append_assoc]
    · refine ⟨s :: log, s.ops.take n, ?_, ?_, ?_⟩
      · rw [completed, if_neg hn, nil_append]
      · rw [completed, if_neg hn, flatMap_cons, take_append_of_le_length (by omega)]
        rfl
      · cases n with
        | zero => exact .inl rfl
        | succ n =>
          right
          cases s with
          | point b => exact absurd (Nat.succ_le_succ (Nat.zero_le n)) hn
          | block b prevPoint =>
            have hzero : n = 0 := by
              have : ¬ 2 ≤ n + 1 := hn
              omega
            exact ⟨_, _, _, _, rfl, rfl, by rw [hzero]; rfl⟩
          | unlink tip prevPoint =>
            have hzero : n = 0 := by
              have : ¬ 2 ≤ n + 1 := hn
              omega
            exact ⟨_, _, _, _, rfl, rfl, by rw [hzero]; rfl⟩

section

variable {fromCborBytes : R → Option (MultiEraBlock TB TW AD)} {start : Point}
  {handleRollbacksAfter : ℕ} {cache : LedgerCache R} {c c' : List (RawBlock TB TW AD R)}

section

variable (h : Holds fromCborBytes (handleRollbacksAfter + 1) .origin start cache c)
include h

/-- A cache that holds the chain of the node can be used again. -/
theorem Holds.recoverable :
    Recoverable fromCborBytes handleRollbacksAfter start cache c where
  tip := by
    intro tip htip
    obtain htip' | ⟨hnone, -⟩ := h.tip
    · cases htip.symm.trans htip'
      cases c with
      | nil => exact .inl (Nat.zero_le _)
      | cons b c =>
        by_cases hkept : handleRollbacksAfter + 1 ≤ b.slot
        · right
          show (cache.getBlock b.point).isSome
          rw [h.getBlock_tip hkept]
          rfl
        · left
          show b.slot ≤ handleRollbacksAfter
          omega
    · exact absurd (htip.symm.trans hnone) (Option.some_ne_none _)
  links := h.cachesChain
  resumes := h.faithful

/-- Between the two operations of a change the tip names a block that is not stored. -/
theorem not_recoverable_between {s : CacheStep TB TW AD R} {op op' : StoreOp R}
    (hs : s.Sound fromCborBytes (handleRollbacksAfter + 1) .origin start cache c)
    (hops : s.ops = [op, op']) :
    ¬ Recoverable fromCborBytes handleRollbacksAfter start (cache.apply op) c' := by
  intro hrec
  cases hs with
  | point => cases hops
  | @block c b hslot _ hkept =>
    cases hops
    have habsent : cache.getBlock b.point = none := by
      apply h.getBlock_eq_none
      intro b' hb' _ hpoint
      exact (hslot b' hb').ne (congrArg Point.getSlot hpoint)
    rcases hrec.tip b.point rfl with hle | hstored
    · exact absurd hle (by simpa using hkept)
    · have hstored' : (cache.getBlock b.point).isSome := hstored
      rw [habsent] at hstored'
      cases hstored'
  | @unlink c b hkept =>
    cases hops
    rcases hrec.tip b.point h.getTip_cons with hle | hstored
    · exact absurd hle (by simpa using hkept)
    · have hstored' : ((cache.blocks.erase b.point).get? b.point).isSome := hstored
      rw [OrdMap.get?_erase, if_pos rfl] at hstored'
      cases hstored'

end

/-- **The cache survives a crash just when no change is half done.** Whatever the node sends, and
after whichever single operation the process stops, the cache can be used again if and only if
what was written is a list of complete changes. -/
theorem recoverable_iff {us : List (ChainUpgrade TB TW AD R)}
    (hus : Follows fromCborBytes start [] us c) (hhandled : Handled handleRollbacksAfter us) :
    ∃ out, ledgerTransactions fromCborBytes handleRollbacksAfter none .empty us = .ok out ∧
      ∀ n, Recoverable fromCborBytes handleRollbacksAfter start
          (empty.execute (out.ops.take n))
          ((completed out.log n).foldl CacheStep.follow []) ↔
        out.ops.take n = (completed out.log n).flatMap CacheStep.ops := by
  have hempty : Holds fromCborBytes (handleRollbacksAfter + 1) .origin start empty [] :=
    .empty
  obtain ⟨out, hrun, -, hlog, -⟩ := processUpstream_spec hempty hus hhandled
  refine ⟨out, hrun, fun n => ?_⟩
  obtain ⟨rest, part, hsplit, htake, hpart⟩ := take_ops_cases out.log n
  have hsound := hlog
  rw [hsplit] at hsound
  obtain ⟨hdone, hrest⟩ := hsound.of_append
  have hholds := hdone.holds hempty
  constructor
  · intro hrec
    obtain rfl | ⟨s, rest', op, op', rfl, hops, rfl⟩ := hpart
    · rw [append_nil] at htake
      exact htake
    · have hstate : empty.execute (out.ops.take n) =
          (empty.execute ((completed out.log n).flatMap CacheStep.ops)).apply op := by
        unfold Output.ops
        rw [htake, execute_append]
        rfl
      rw [hstate] at hrec
      exact absurd hrec (not_recoverable_between hholds hrest.1 hops)
  · intro hwritten
    rw [hwritten]
    exact hholds.recoverable

end

/-- A crash after the block is cached, and before it is unlinked, leaves a cache that can be used
again. -/
theorem sampleForward_recoverable :
    ∃ out, ledgerTransactions some 5 none .empty
        [sampleForward .conway 10, .rollBackward (.specific 7 0)] = .ok out ∧
      out.ops.take 2 = (completed out.log 2).flatMap CacheStep.ops ∧
      Recoverable some 5 (.specific 7 0) (empty.execute (out.ops.take 2))
        ((completed out.log 2).foldl CacheStep.follow []) := by
  obtain ⟨out, hrun, hiff⟩ := recoverable_iff (follows_sampleBlock 10 (by decide))
    handled_sampleForward
  have hwritten : out.ops.take 2 = (completed out.log 2).flatMap CacheStep.ops := by
    cases hrun
    rfl
  exact ⟨out, hrun, hwritten, (hiff 2).2 hwritten⟩

/-- A crash between the two operations that cache a block, or between the two that unlink it,
leaves a tip after the horizon that names no stored block. -/
theorem sampleForward_halfDone :
    ∃ out, ledgerTransactions some 5 none .empty
        [sampleForward .conway 10, .rollBackward (.specific 7 0)] = .ok out ∧
      ∀ n, n = 1 ∨ n = 3 →
        (empty.execute (out.ops.take n)).tip = some (.specific 10 10) ∧
        (empty.execute (out.ops.take n)).getBlock (.specific 10 10) = none ∧
        ∀ c, ¬ Recoverable some 5 (.specific 7 0)
          (empty.execute (out.ops.take n)) c := by
  refine ⟨_, rfl, fun n hn => ?_⟩
  have hbroken : ∀ cache : LedgerCache (MultiEraBlock ℕ ℕ ℕ), cache.tip = some (.specific 10 10) →
      cache.getBlock (.specific 10 10) = none →
      ∀ c : List (RawBlock ℕ ℕ ℕ (MultiEraBlock ℕ ℕ ℕ)),
        ¬ Recoverable some 5 (.specific 7 0) cache c := by
    intro cache htip hget c hrec
    rcases hrec.tip _ htip with hle | hstored
    · exact absurd hle (by decide)
    · rw [hget] at hstored
      cases hstored
  rcases hn with rfl | rfl
  · exact ⟨rfl, rfl, hbroken _ rfl rfl⟩
  · exact ⟨rfl, rfl, hbroken _ rfl rfl⟩

end Splash.ChainSync
