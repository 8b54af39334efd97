import Splash.LpIndexer.Runs

/-!
# Bookkeeping of liquidity

Two properties of the positions in all states of a run: positions of a pool advance together, and the
LP recorded for an account is what it minted less what it burned. Both fail in runs in which an
account redeems everything, and the second one also where an event is repeated in a slot.

* **`Run.inStep`** — positions of a pool advance together in every run that leaves no account without
  LP.
* `positionsIn_distinct` — nothing is dropped from a slot without repeated events.
* **`Run.recordedLp_exact`** — recorded LP is exact in every run that also repeats no event in a slot.
* `replay_sound` — a run can be computed.
-/

namespace Splash.LpIndexer

open Lib AccountPosition List

/-! ## Positions advance together -/

def lastSpan (p : AccountPosition) : Option (ℕ × ℕ) := (spans p.shareIntervals).getLast?

/-- The positions of a pool advance together. -/
structure InStep (cfg : Settings) (db : PositionDB) (pid : PoolId) : Prop where
  /-- Positions in one epoch have the same last interval. -/
  aligned : ∀ k cred cred' p p', (db.accountPositions pid).get? (toLex (cred, k)) = some p →
    (db.accountPositions pid).get? (toLex (cred', k)) = some p' → lastSpan p = lastSpan p'
  /-- The intervals of a position follow one another inside its epoch. -/
  tidy : ∀ k cred p, (db.accountPositions pid).get? (toLex (cred, k)) = some p →
    Tidy (cfg.converter.firstSlot k) (cfg.converter.lastSlot k) (spans p.shareIntervals)
  /-- The assertion on the latest positions holds when the next slot is processed. -/
  passes : ∀ ord slot current, firstSlot db = some slot → cfg.converter.toEpoch slot = .ok current →
    ∃ s, carryAll ord cfg.converter current slot
      (latestAccountPositions (db.accountPositions pid)) = .ok s

/-- **Positions of a pool advance together** in every run that leaves no account without LP. -/
theorem Run.inStep {cfg : Settings} {db : PositionDB} {T : List Block} (run : Run cfg db T)
    (hkeep : Throughout (Retains cfg) T) (pid : PoolId) : InStep cfg db pid := by
  obtain ⟨u, hwait, hsync⟩ := run.synced hkeep
  obtain ⟨E, P, h⟩ := hsync pid
  refine ⟨?_, ?_, ?_⟩
  · intro k cred cred' p p' hp hp'
    obtain ⟨hs, hne⟩ := h.suffix cred k p hp
    obtain ⟨hs', hne'⟩ := h.suffix cred' k p' hp'
    rw [lastSpan, lastSpan, getLast?_of_suffix hs hne, getLast?_of_suffix hs' hne']
  · intro k cred p hp
    exact (h.tidy k).suffix (h.suffix cred k p hp).1
  · intro ord slot current hslot hcur
    have hu : u ≤ slot := by
      obtain ⟨key, e, he, rfl⟩ := exists_of_firstSlot hslot
      exact hwait.later key e he
    obtain ⟨s, hs, -⟩ := carryAll_spec ord cfg.converter slot
      (fun _ _ => h.mark_eq) (h.le_current hu hcur)
    exact ⟨s, hs⟩

def sampleSlots : Settings := ⟨0, 10, 0, Nat.succ_pos 9⟩

def sampleDeposit (account lpMint lpSupply : ℕ) : OnChainEvent :=
  .account (.deposit ⟨1, account, lpMint, lpSupply⟩)

def sampleRedeem (account lpBurned lpSupply : ℕ) : OnChainEvent :=
  .account (.redeem ⟨1, account, lpBurned, lpSupply⟩)

/-- Two accounts deposit, in two epochs, and one of them redeems a part. -/
def sampleShared : List Op :=
  [.append 1 [sampleDeposit 7 10 10], .append 2 [sampleDeposit 8 10 20],
    .append 13 [sampleRedeem 7 4 16, sampleDeposit 8 1 17], .append 14 [],
    .process, .process, .process]

theorem sampleShared_inStep : ∃ db T, Run sampleSlots db T ∧ T.length = 3 ∧
    InStep sampleSlots db 1 := by
  have h : (replay sampleSlots sampleShared).map
      (fun s => (s.2.length, throughoutB (retainsB sampleSlots) [] s.2)) = .ok (3, true) := by
    decide +kernel
  obtain ⟨s, hs, hcheck⟩ := Exec.map_eq_ok.1 h
  obtain ⟨hlen, hcheck⟩ := Prod.mk.inj hcheck
  have run := replay_sound hs
  exact ⟨s.1, s.2, run, hlen,
    run.inStep (throughout_of_check (fun _ _ => retains_of_check) hcheck) 1⟩

/-- Account 7 redeems everything, then account 8 deposits twice. -/
def sampleExit : List Op :=
  [.append 1 [sampleDeposit 7 10 10], .append 2 [sampleDeposit 8 10 20],
    .append 3 [sampleRedeem 7 10 10], .append 4 [sampleDeposit 8 5 15],
    .append 5 [sampleDeposit 8 5 20], .append 6 [], .process, .process, .process, .process]

/-- The position of account 7 is not closed at slot 4, and the assertion fails at slot 5. -/
theorem sampleExit_out_of_step : ∃ db T, Run sampleSlots db T ∧ ¬ InStep sampleSlots db 1 ∧
    (tryProcessMatureEvents .byKey sampleSlots db).map Prod.fst
      = .error (.explicit "assertion failed: latest_account_positions.iter().all") := by
  have h : (replay sampleSlots sampleExit).map (fun s => (firstSlot s.1,
      ((carryAll .byKey sampleSlots.converter 0 5
        (latestAccountPositions (s.1.accountPositions 1))).map fun _ => ()).isOk,
      (tryProcessMatureEvents .byKey sampleSlots s.1).map Prod.fst))
      = .ok (some 5, false,
          .error (.explicit "assertion failed: latest_account_positions.iter().all")) := by
    decide +kernel
  obtain ⟨s, hs, hfail⟩ := Exec.map_eq_ok.1 h
  simp only [Prod.mk.injEq] at hfail
  obtain ⟨hfirst, hcarry, htry⟩ := hfail
  refine ⟨s.1, s.2, replay_sound hs, fun hstep => ?_, htry⟩
  obtain ⟨carried, hok⟩ := hstep.passes .byKey 5 0 hfirst (by decide)
  rw [hok] at hcarry
  cases hcarry

/-! ## Recorded LP -/

def recordedLp (db : PositionDB) (pid : PoolId) (cred : Credential) : ℕ :=
  (db.positionsFrom pid cred 0).getLast?.elim 0 fun e => (shareOf e.2).1

/-- What an account minted less what it burned. -/
def balance (T : List Block) (pid : PoolId) (cred : Credential) : ℤ :=
  (T.map fun b => gain (positionsIn b.events pid) cred).sum

/-- No deposit or redeem is repeated in the slot, and there is none before the first epoch. -/
def Plain (cfg : Settings) (b : Block) : Prop :=
  ∀ pid, (positionsIn b.events pid).Nodup ∧
    (positionsIn b.events pid ≠ [] → cfg.epochStart ≤ b.slot)

theorem positionsIn_distinct {events : List OnChainEvent} {pid : PoolId}
    (h : (positionsIn events pid).Nodup) :
    positionsIn (distinct events) pid = positionsIn events pid := by
  induction events using List.reverseRecOn with
  | nil => rfl
  | append_singleton l a ih =>
    rw [positionsIn_append] at h
    obtain ⟨hl, -, hdisj⟩ := nodup_append.1 h
    rw [distinct, foldl_append, foldl_cons, foldl_nil, ← distinct, positionsIn_append,
      ← ih hl]
    split
    · next ha =>
      -- A repeated event is not one of the pool.
      have hnil : positionsIn [a] pid = [] := by
        refine eq_nil_iff_forall_not_mem.2 fun e he => ?_
        refine hdisj e ?_ e he rfl
        obtain ⟨hin, hpid⟩ := mem_filter.1 he
        obtain ⟨x, hx, hpos⟩ := mem_filterMap.1 hin
        obtain rfl := mem_singleton.1 hx
        exact mem_filter.2
          ⟨mem_filterMap.2 ⟨x, mem_distinct.1 (contains_iff_mem.1 ha), hpos⟩, hpid⟩
      rw [hnil, append_nil]
    · rw [positionsIn_append]

variable {cfg : Settings}

theorem Plain.creditedIn_eq {b : Block} (h : Plain cfg b) (pid : PoolId) :
    creditedIn cfg b pid = positionsIn b.events pid := by
  obtain ⟨hnodup, hslot⟩ := h pid
  unfold creditedIn
  split
  · exact positionsIn_distinct hnodup
  · next hearly =>
    by_contra hne
    exact hearly (hslot (Ne.symm hne))

theorem credited_eq_balance {T : List Block}
    (h : Throughout (fun _ b => Plain cfg b) T) (pid : PoolId) (cred : Credential) :
    credited cfg T pid cred = balance T pid cred := by
  have hall : ∀ b ∈ T, Plain cfg b := by
    intro b hb
    obtain ⟨pre, post, rfl⟩ := append_of_mem hb
    exact h pre b post rfl
  unfold credited balance
  congr 1
  refine map_congr_left fun b hb => ?_
  rw [(hall b hb).creditedIn_eq]

theorem Synced.recordedLp_eq {db : PositionDB} {pid : PoolId} {lp : Credential → ℤ}
    {u E : ℕ} {P : ℕ → List (ℕ × ℕ)}
    (h : Synced cfg.converter (db.accountPositions pid) lp u E P) (cred : Credential) :
    (recordedLp db pid cred : ℤ) = lp cred := by
  unfold recordedLp
  cases hlast : (db.positionsFrom pid cred 0).getLast? with
  | none =>
    have hnil := List.getLast?_eq_none_iff.1 hlast
    refine (h.absent cred ?_).symm
    by_contra hne
    obtain ⟨p, hp⟩ := Option.ne_none_iff_exists'.1 hne
    have hmem : (E, p) ∈ db.positionsFrom pid cred 0 :=
      PositionDB.mem_positionsFrom.2 ⟨hp, Nat.zero_le _⟩
    rw [hnil] at hmem
    cases hmem
  | some e =>
    obtain ⟨l, hl⟩ := List.getLast?_eq_some_iff.1 hlast
    have he := (PositionDB.mem_positionsFrom.1 (mem_of_getLast? hlast)).1
    obtain ⟨hle, q, hq⟩ := h.top cred e.1 e.2 he
    -- The last record is the one of the epoch `E`.
    have heE : e.1 = E := by
      have hmem : (E, q) ∈ db.positionsFrom pid cred 0 :=
        PositionDB.mem_positionsFrom.2 ⟨hq, Nat.zero_le _⟩
      have hsorted := db.pairwise_positionsFrom pid cred 0
      rw [hl] at hmem hsorted
      rcases mem_append.1 hmem with hin | hin
      · have hlt := (pairwise_append.1 hsorted).2.2 _ hin e mem_cons_self
        simp only at hlt
        omega
      · rw [← mem_singleton.1 hin]
    rw [heE] at he
    obtain ⟨i, hi, hlp, -⟩ := h.share cred e.2 he
    simpa [shareOf, hi] using hlp

/-- **Recorded LP is exact** in every run that leaves no account without LP, repeats no deposit or
redeem in a slot and has none before the first epoch. The latest record of an account, and the
position that the next slot builds on, have what the account minted less what it burned. -/
theorem Run.recordedLp_exact {cfg : Settings} {db : PositionDB} {T : List Block} (run : Run cfg db T)
    (hkeep : Throughout (fun T b => Retains cfg T b ∧ Plain cfg b) T) (pid : PoolId)
    (cred : Credential) :
    (recordedLp db pid cred : ℤ) = balance T pid cred ∧
      (lpOf ((latestAccountPositions (db.accountPositions pid)).get? cred) : ℤ)
        = balance T pid cred := by
  obtain ⟨u, -, hsync⟩ := run.synced (hkeep.mono fun _ _ h => h.1)
  obtain ⟨E, P, h⟩ := hsync pid
  rw [h.recordedLp_eq, h.lpOf_latest, credited_eq_balance (hkeep.mono fun _ _ h => h.2)]
  exact ⟨rfl, rfl⟩

/-- Checks that no deposit or redeem is repeated, and that there is none before the first epoch. -/
def plainB (cfg : Settings) (b : Block) : Bool :=
  decide (b.events.filterMap OnChainEvent.position?).Nodup && decide (cfg.epochStart ≤ b.slot)

theorem plain_of_check {b : Block} (h : plainB cfg b = true) : Plain cfg b := by
  obtain ⟨hnodup, hslot⟩ := Bool.and_eq_true_iff.1 h
  exact fun pid => ⟨(of_decide_eq_true hnodup).filter _, fun _ => of_decide_eq_true hslot⟩

theorem sampleShared_exact : ∃ db T, Run sampleSlots db T ∧ balance T 1 7 = 6 ∧
    (recordedLp db 1 7 : ℤ) = balance T 1 7 := by
  have h : (replay sampleSlots sampleShared).map (fun s => (balance s.2 1 7,
      throughoutB (fun T b => retainsB sampleSlots T b && plainB sampleSlots b) [] s.2))
      = .ok (6, true) := by
    decide +kernel
  obtain ⟨s, hs, hcheck⟩ := Exec.map_eq_ok.1 h
  obtain ⟨hbalance, hcheck⟩ := Prod.mk.inj hcheck
  have run := replay_sound hs
  refine ⟨s.1, s.2, run, hbalance, (run.recordedLp_exact (throughout_of_check ?_ hcheck) 1 7).1⟩
  intro T b hb
  obtain ⟨hretain, hplain⟩ := Bool.and_eq_true_iff.1 hb
  exact ⟨retains_of_check hretain, plain_of_check hplain⟩

/-- In one slot account 7 deposits, redeems and deposits the same amount again. -/
def sampleRepeated : List Op :=
  [.append 1 [sampleDeposit 7 10 10],
    .append 2 [sampleDeposit 7 5 15, sampleRedeem 7 5 10, sampleDeposit 7 5 15], .append 3 [],
    .process, .process]

/-- The second of the two equal deposits is lost. -/
theorem sampleRepeated_loses_deposit : ∃ db T, Run sampleSlots db T ∧ T.length = 2 ∧
    recordedLp db 1 7 = 10 ∧ balance T 1 7 = 15 := by
  have h : (replay sampleSlots sampleRepeated).map
      (fun s => (s.2.length, recordedLp s.1 1 7, balance s.2 1 7)) = .ok (2, 10, 15) := by
    decide +kernel
  obtain ⟨s, hs, hcheck⟩ := Exec.map_eq_ok.1 h
  simp only [Prod.mk.injEq] at hcheck
  exact ⟨s.1, s.2, replay_sound hs, hcheck⟩

end Splash.LpIndexer
