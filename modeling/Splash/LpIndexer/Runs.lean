import Splash.LpIndexer.Alignment
import Splash.LpIndexer.EventLog

/-!
# Runs of the indexer

Blocks are appended to the log and mature slots are processed, one at a time. What a slot does to the
positions of a pool is read off the events of the pool.

* `processSlot_spec` — the positions of each pool after a slot.
* `Run` — a run, with the slots that are processed and their events.
* `Run.pools` — what every slot keeps up for the positions of a pool holds in every state of a run.
* `Run.synced` — the positions of every pool are in step as long as no account is left without LP.
-/

namespace Splash.LpIndexer

open Lib Exec List OrdMap Option

/-! ## Events of a pool -/

def OnChainEvent.position? : OnChainEvent → Option PositionEvent
  | account e => some e
  | gauge _ => none
  | pool _ => none
  | permManagerUpdate _ => none
  | newWeightingPoll _ _ => none

def positionsIn (events : List OnChainEvent) (pid : PoolId) : List PositionEvent :=
  (events.filterMap OnChainEvent.position?).filter fun e => e.poolId = pid

def framesOf (m : OrdMap PoolId EventsByPool) (pid : PoolId) : List PositionEvent :=
  (m.get? pid).elim [] EventsByPool.accountFrames

theorem positionsIn_append (l l' : List OnChainEvent) (pid : PoolId) :
    positionsIn (l ++ l') pid = positionsIn l pid ++ positionsIn l' pid := by
  simp [positionsIn]

theorem framesOf_aggregateEvent (s : OrdMap PoolId EventsByPool × (PoolId → Option ℕ))
    (e : OnChainEvent) (pid : PoolId) :
    framesOf (aggregateEvent s e).1 pid = framesOf s.1 pid ++ positionsIn [e] pid := by
  have hinsert : ∀ q f, framesOf (s.1.insert q f) pid
      = if pid = q then f.accountFrames else framesOf s.1 pid := by
    intro q f
    unfold framesOf
    rw [OrdMap.get?_insert]
    split <;> rfl
  have hold : ∀ q, ((s.1.get? q).getD .new).accountFrames = framesOf s.1 q := by
    intro q
    unfold framesOf
    cases s.1.get? q <;> rfl
  cases e with
  | account e =>
    simp only [aggregateEvent, OnChainEvent.poolId, elim_some, hinsert,
      EventsByPool.applyEvent, hold]
    by_cases hpid : pid = e.poolId
    · simp [positionsIn, OnChainEvent.position?, hpid]
    · simp [positionsIn, OnChainEvent.position?, hpid, Ne.symm hpid]
  | gauge g =>
    simp only [aggregateEvent, OnChainEvent.poolId, elim_some, hinsert,
      EventsByPool.applyEvent, hold]
    by_cases hpid : pid = g.poolId <;> simp [positionsIn, OnChainEvent.position?, hpid]
  | pool c =>
    simp only [aggregateEvent, OnChainEvent.poolId, elim_some, hinsert,
      EventsByPool.applyEvent, hold]
    by_cases hpid : pid = c.poolId <;> simp [positionsIn, OnChainEvent.position?, hpid]
  | permManagerUpdate _ => simp [aggregateEvent, OnChainEvent.poolId, positionsIn,
      OnChainEvent.position?]
  | newWeightingPoll _ _ => simp [aggregateEvent, OnChainEvent.poolId, positionsIn,
      OnChainEvent.position?]

/-- The frame of a pool holds its deposits and redeems in the order of the slot. -/
theorem framesOf_aggregateEvents (events : List OnChainEvent) (lq : PoolId → Option ℕ)
    (pid : PoolId) : framesOf (aggregateEvents events lq).1 pid = positionsIn events pid := by
  unfold aggregateEvents
  induction events using List.reverseRecOn with
  | nil => rfl
  | append_singleton events e ih =>
    rw [foldl_append, foldl_cons, foldl_nil, framesOf_aggregateEvent, ih,
      positionsIn_append]

/-! ## A slot -/

def SameLog (db db' : PositionDB) : Prop :=
  db'.events = db.events ∧ db'.currentSlot = db.currentSlot ∧ db'.rollbackToSlot = db.rollbackToSlot

theorem SameLog.trans {a b d : PositionDB} (h : SameLog a b) (h' : SameLog b d) : SameLog a d :=
  ⟨h'.1.trans h.1, h'.2.1.trans h.2.1, h'.2.2.trans h.2.2⟩

variable {db db' tx tx' : PositionDB} {key : ℕ ×ₗ ℕ} {m m' : Table} {pid : PoolId}
  {s : PositionDB × List Block}

theorem putGauges_spec {current : ℕ} {l : List GaugeWeighted}
    (h : l.foldlM (putGauge current) tx = .ok tx') :
    SameLog tx tx' ∧ tx'.accountPositions = tx.accountPositions := by
  induction l generalizing tx with
  | nil =>
    cases h
    exact ⟨⟨rfl, rfl, rfl⟩, rfl⟩
  | cons g l ih =>
    rw [foldlM_cons] at h
    obtain ⟨tx₁, htx₁, h⟩ := bind_eq_ok.1 h
    obtain ⟨hsame, hpos⟩ := ih h
    unfold putGauge at htx₁
    split at htx₁
    · cases htx₁
      exact ⟨hsame, hpos⟩
    · cases htx₁

theorem putPositions_spec (pid : PoolId) (l : List ((Credential ×ₗ ℕ) × AccountPosition))
    (tx : PositionDB) : SameLog tx (l.foldl (putPosition pid) tx) ∧
      (l.foldl (putPosition pid) tx).accountPositions
        = Function.update tx.accountPositions pid
            (l.foldl (fun m e => m.insert e.1 e.2) (tx.accountPositions pid)) := by
  induction l generalizing tx with
  | nil => exact ⟨⟨rfl, rfl, rfl⟩, (Function.update_eq_self pid _).symm⟩
  | cons e l ih =>
    obtain ⟨hsame, hpos⟩ := ih (putPosition pid tx e)
    refine ⟨SameLog.trans ⟨rfl, rfl, rfl⟩ hsame, ?_⟩
    rw [foldl_cons, hpos]
    simp [putPosition]

inductive PoolStep (cfg : Settings) (slot : ℕ) (events : List PositionEvent) (m m' : Table) : Prop where
  /-- Positions are not kept before the first epoch. -/
  | early (hslot : slot < cfg.epochStart) (heq : m' = m)
  /-- There is no event of the pool. -/
  | quiet (hevents : events = []) (heq : m' = m)
  | synced (ord : HashOrder) (current supply : ℕ) (R : Table)
      (hcur : cfg.converter.toEpoch slot = .ok current)
      (hR : syncAccountPositions ord cfg.converter events (latestAccountPositions m) slot supply = .ok R)
      (heq : m' = storeAll R m)

variable {cfg : Settings} {slot : ℕ} {db : PositionDB} {ord : HashOrder} {e : OnChainEvent}

theorem processPool_spec {f : PoolId × EventsByPool}
    (hread : tx.accountPositions f.1 = db.accountPositions f.1)
    (h : (processPool ord cfg db slot tx f).run = .ok (some tx')) :
    SameLog tx tx' ∧ (∀ pid ≠ f.1, tx'.accountPositions pid = tx.accountPositions pid) ∧
      PoolStep cfg slot f.2.accountFrames (db.accountPositions f.1) (tx'.accountPositions f.1) := by
  unfold processPool at h
  obtain ⟨supply, -, h⟩ := bind_eq_some.1 h
  split at h
  · obtain ⟨current, hcur, h⟩ := bind_eq_some.1 h
    split at h
    · cases h
    · obtain ⟨weighted, hweighted, h⟩ := bind_eq_some.1 h
      obtain ⟨R, hR, h⟩ := bind_eq_some.1 h
      rw [lift_eq_some] at hcur hweighted hR
      obtain rfl := pure_eq_some.1 h
      obtain ⟨hsame₁, hpos₁⟩ := putGauges_spec hweighted
      obtain ⟨hsame₂, hpos₂⟩ := putPositions_spec f.1 R.toList weighted
      refine ⟨hsame₁.trans hsame₂, fun pid hpid => ?_, .synced ord current supply R hcur hR ?_⟩
      · rw [hpos₂, Function.update_of_ne hpid, hpos₁]
      · rw [hpos₂, Function.update_self, hpos₁, hread]
        rfl
  · next hslot =>
    obtain rfl := pure_eq_some.1 h
    exact ⟨⟨rfl, rfl, rfl⟩, fun _ _ => rfl, .early (not_le.1 hslot) hread⟩

theorem processPools_spec (db : PositionDB) {l : List (PoolId × EventsByPool)}
    (hnodup : (l.map Prod.fst).Nodup)
    (hread : ∀ f ∈ l, tx.accountPositions f.1 = db.accountPositions f.1)
    (h : (l.foldlM (processPool ord cfg db slot) tx).run = .ok (some tx')) : SameLog tx tx' ∧
      (∀ pid ∉ l.map Prod.fst, tx'.accountPositions pid = tx.accountPositions pid) ∧
      ∀ f ∈ l, PoolStep cfg slot f.2.accountFrames (db.accountPositions f.1)
        (tx'.accountPositions f.1) := by
  induction l generalizing tx with
  | nil =>
    obtain rfl := pure_eq_some.1 h
    exact ⟨⟨rfl, rfl, rfl⟩, fun _ _ => rfl, fun _ hf => nomatch hf⟩
  | cons f l ih =>
    rw [foldlM_cons] at h
    obtain ⟨tx₁, htx₁, h⟩ := bind_eq_some.1 h
    obtain ⟨hreadf, hreadl⟩ := forall_mem_cons.1 hread
    obtain ⟨hnotin, hnodup⟩ := nodup_cons.1 hnodup
    obtain ⟨hsame₁, hother₁, hstep₁⟩ := processPool_spec hreadf htx₁
    have hne : ∀ g ∈ l, g.1 ≠ f.1 := fun g hg heq => hnotin (heq ▸ mem_map_of_mem hg)
    obtain ⟨hsame, hother, hstep⟩ := ih hnodup
      (fun g hg => by rw [hother₁ g.1 (hne g hg), hreadl g hg]) h
    refine ⟨hsame₁.trans hsame, fun pid hpid => ?_, fun g hg => ?_⟩
    · obtain ⟨hpf, hpl⟩ := not_or.1 fun hin => hpid (mem_cons.2 hin)
      rw [hother pid hpl, hother₁ pid hpf]
    · rcases mem_cons.1 hg with rfl | hg
      · rw [hother g.1 hnotin]
        exact hstep₁
      · exact hstep g hg

theorem processSlot_spec (h : (processSlot ord cfg db slot).run = .ok (some db')) :
    db'.events = (takenAt db slot).foldl (fun m e => m.erase e.1) db.events ∧
      db'.currentSlot = db.currentSlot ∧ db'.rollbackToSlot = db.rollbackToSlot ∧
      ∀ pid, PoolStep cfg slot (positionsIn (distinct ((takenAt db slot).map Prod.snd)) pid)
        (db.accountPositions pid) (db'.accountPositions pid) := by
  simp only [processSlot] at h
  have hframes := framesOf_aggregateEvents (distinct ((takenAt db slot).map Prod.snd)) db.poolLq
  generalize aggregateEvents (distinct ((takenAt db slot).map Prod.snd)) db.poolLq = frames at h hframes
  have hperm := ord.perm frames.1.toList
  have hnodup : ((ord.arrange frames.1.toList).map Prod.fst).Nodup :=
    ((hperm.map Prod.fst).nodup_iff).2
      (pairwise_map.2 (frames.1.pairwise_toList.imp fun hlt => hlt.ne))
  obtain ⟨⟨hev, hslot, hroll⟩, hother, hstep⟩ :=
    processPools_spec db hnodup (by exact fun _ _ => rfl) h
  refine ⟨hev, hslot, hroll, fun pid => ?_⟩
  rw [← hframes pid, framesOf]
  cases hget : frames.1.get? pid with
  | none =>
    refine .quiet rfl (hother pid fun hin => ?_)
    obtain ⟨f, hf, rfl⟩ := mem_map.1 hin
    have hmem := mem_toList_iff.1 (ord.mem_arrange.1 hf)
    rw [hget] at hmem
    cases hmem
  | some f =>
    exact hstep (pid, f) (ord.mem_arrange.2 (mem_toList_iff.2 hget))

/-! ## The log -/

theorem mem_takeWhile_of_sorted {α : Type} {f : α → ℕ} {l : List α} {s : ℕ}
    (hsorted : l.Pairwise fun a b => f a ≤ f b) (hmin : ∀ a ∈ l, s ≤ f a) {a : α} (ha : a ∈ l)
    (hs : f a = s) : a ∈ l.takeWhile fun a => f a = s := by
  induction l with
  | nil => cases ha
  | cons b l ih =>
    obtain ⟨hb, hl⟩ := pairwise_cons.1 hsorted
    obtain ⟨hbmin, hlmin⟩ := forall_mem_cons.1 hmin
    have hbs : f b = s := by
      rcases mem_cons.1 ha with rfl | ha
      · exact hs
      · have hle := hb a ha
        omega
    rw [takeWhile_cons_of_pos (by simpa using hbs)]
    rcases mem_cons.1 ha with rfl | ha
    · exact mem_cons_self
    · exact mem_cons_of_mem _ (ih hl hlmin ha)

theorem log_sorted (db : PositionDB) :
    db.events.toList.Pairwise fun a b => (ofLex a.1).1 ≤ (ofLex b.1).1 := by
  refine db.events.pairwise_toList.imp ?_
  intro a b hlt
  rcases Prod.Lex.lt_iff.1 hlt with h | ⟨h, -⟩
  · exact h.le
  · exact h.le

section

variable (h : firstSlot db = some slot)
include h

theorem firstSlot_le (he : db.events.get? key = some e) : slot ≤ (ofLex key).1 := by
  have hmem := mem_toList_iff.2 he
  have hsorted := log_sorted db
  unfold firstSlot at h
  cases hl : db.events.toList with
  | nil =>
    rw [hl] at hmem
    cases hmem
  | cons b l =>
    rw [hl] at hmem hsorted h
    cases h
    rcases mem_cons.1 hmem with rfl | hmem
    · exact le_rfl
    · exact (pairwise_cons.1 hsorted).1 _ hmem

theorem exists_of_firstSlot : ∃ key e, db.events.get? key = some e ∧ (ofLex key).1 = slot := by
  obtain ⟨e, he, rfl⟩ := Option.map_eq_some_iff.1 h
  exact ⟨e.1, e.2, mem_toList_iff.1 (mem_of_head? he), rfl⟩

theorem slot_lt_of_remaining
    (he : ((takenAt db slot).foldl (fun m e => m.erase e.1) db.events).get? key = some e) :
    slot < (ofLex key).1 := by
  rw [OrdMap.get?_foldl_erase (fun e : (ℕ ×ₗ ℕ) × OnChainEvent => e.1)] at he
  split at he
  · cases he
  · next hnot =>
    refine lt_of_le_of_ne (firstSlot_le h he) fun heq => hnot ⟨(key, e), ?_, rfl⟩
    refine mem_takeWhile_of_sorted (log_sorted db) (fun a ha => ?_) (mem_toList_iff.2 he)
      heq.symm
    exact firstSlot_le h (mem_toList_iff.1 ha)

end

theorem tryProcessMatureEvents_true (hslot : firstSlot db = some slot)
    (h : tryProcessMatureEvents ord cfg db = .ok (true, db')) :
    ∃ maxSlot, db.currentSlot = some maxSlot ∧ slot + cfg.confirmationDelaySlots < maxSlot ∧
      (processSlot ord cfg db slot).run = .ok (some db') := by
  unfold tryProcessMatureEvents at h
  cases hmax : db.currentSlot with
  | none =>
    rw [hmax] at h
    cases h
  | some maxSlot =>
    rw [hmax, hslot, elim_some, elim_some] at h
    split at h
    · cases h
    · obtain ⟨r, hr, h⟩ := bind_eq_ok.1 h
      cases r with
      | none => cases h
      | some db'' =>
        obtain rfl : db'' = db' := congrArg Prod.snd (Except.ok.inj h)
        exact ⟨maxSlot, rfl, by omega, hr⟩

/-! ## Runs -/

/-- The events of a slot. -/
structure Block where
  slot : ℕ
  events : List OnChainEvent

/-- A run over blocks with increasing slots, with the slots that are processed and the events taken
out of the log for them. -/
inductive Run (cfg : Settings) : PositionDB → List Block → Prop where
  | start : Run cfg .empty []
  | append {db db' : PositionDB} {T : List Block} {slot : ℕ} {events : List OnChainEvent}
      (run : Run cfg db T) (hslot : ∀ s, db.currentSlot = some s → s < slot)
      (h : batchAppend cfg db slot events = .ok db') : Run cfg db' T
  | process {db db' : PositionDB} {T : List Block} {slot : ℕ} (ord : HashOrder) (run : Run cfg db T)
      (hslot : firstSlot db = some slot) (h : tryProcessMatureEvents ord cfg db = .ok (true, db')) :
      Run cfg db' (T ++ [⟨slot, (takenAt db slot).map Prod.snd⟩])

/-- Every slot meets a condition on it and on the slots before. -/
def Throughout (cond : List Block → Block → Prop) (T : List Block) : Prop :=
  ∀ pre b post, T = pre ++ b :: post → cond pre b

variable {T : List Block} {b : Block}

variable {cond : List Block → Block → Prop}

theorem Throughout.concat (h : Throughout cond (T ++ [b])) : Throughout cond T ∧ cond T b :=
  ⟨fun pre a post heq => h pre a (post ++ [b]) (by rw [heq, append_assoc]; rfl), h T b [] rfl⟩

theorem Throughout.mono {cond cond' : List Block → Block → Prop}
    (h : Throughout cond T) (himp : ∀ pre b, cond pre b → cond' pre b) : Throughout cond' T :=
  fun pre b post heq => himp pre b (h pre b post heq)

section

variable (cfg : Settings) (T : List Block)

/-- The deposits and redeems of a pool that a slot credits to accounts: those from the first epoch on,
without repetitions. -/
def creditedIn (b : Block) (pid : PoolId) : List PositionEvent :=
  if cfg.epochStart ≤ b.slot then positionsIn (distinct b.events) pid else []

def credited (pid : PoolId) (cred : Credential) : ℤ :=
  (T.map fun b => gain (creditedIn cfg b pid) cred).sum

@[simp] theorem credited_concat (b : Block) (pid : PoolId) (cred : Credential) :
    credited cfg (T ++ [b]) pid cred = credited cfg T pid cred + gain (creditedIn cfg b pid) cred := by
  simp [credited]

/-- No account with an event in the slot is left without LP. -/
def Retains (b : Block) : Prop :=
  ∀ pid cred, eventsOf (creditedIn cfg b pid) cred ≠ [] → credited cfg (T ++ [b]) pid cred ≠ 0

end

/-- The log holds events of slots from `u` on. -/
structure Waiting (db : PositionDB) (u : ℕ) : Prop where
  later : ∀ key e, db.events.get? key = some e → u ≤ (ofLex key).1
  reached : u ≤ db.currentSlot.getD 0
  forward : db.rollbackToSlot = none

/-- What a slot does to the positions of a pool, in terms of the events that are credited. -/
theorem PoolStep.credited (h : PoolStep cfg b.slot (positionsIn (distinct b.events) pid) m m') :
    (creditedIn cfg b pid = [] ∧ m' = m) ∨
      ∃ (ord : HashOrder) (current supply : ℕ) (R : Table),
        cfg.converter.toEpoch b.slot = .ok current ∧
        syncAccountPositions ord cfg.converter (creditedIn cfg b pid) (latestAccountPositions m)
          b.slot supply = .ok R ∧ m' = storeAll R m := by
  cases h with
  | early hslot heq => exact .inl ⟨if_neg (not_le.2 hslot), heq⟩
  | quiet hevents heq => exact .inl ⟨by simp [creditedIn, hevents], heq⟩
  | synced ord current supply R hcur hR heq =>
    have hcredited : creditedIn cfg b pid = positionsIn (distinct b.events) pid :=
      if_pos (EpochSlotConversion.toEpoch_eq_ok.1 hcur).1
    exact .inr ⟨ord, current, supply, R, hcur, by rw [hcredited]; exact hR, heq⟩

theorem gain_of_credited_nil (h : creditedIn cfg b pid = []) (cred : Credential) :
    gain (creditedIn cfg b pid) cred = 0 :=
  gain_of_eq_nil (by rw [h]; rfl)

theorem Synced.step {lp : Credential → ℤ} {u E : ℕ} {P : ℕ → List (ℕ × ℕ)}
    (h : Synced cfg.converter m lp u E P) (hu : u ≤ b.slot)
    (hstep : PoolStep cfg b.slot (positionsIn (distinct b.events) pid) m m')
    (hpos : ∀ cred, eventsOf (creditedIn cfg b pid) cred ≠ [] →
      lp cred + gain (creditedIn cfg b pid) cred ≠ 0) :
    ∃ E' P', Synced cfg.converter m' (fun cred => lp cred + gain (creditedIn cfg b pid) cred)
      (b.slot + 1) E' P' := by
  rcases hstep.credited with ⟨hnil, rfl⟩ | ⟨ord, current, supply, R, hcur, hR, rfl⟩
  · simp only [gain_of_credited_nil hnil, add_zero]
    exact ⟨E, P, h.mono (by omega)⟩
  · cases hfinal : (creditedIn cfg b pid).getLast? with
    | none =>
      have hnil := List.getLast?_eq_none_iff.1 hfinal
      simp only [gain_of_credited_nil hnil, add_zero]
      exact ⟨_, h.idle hu hcur hR hnil⟩
    | some final => exact ⟨current, h.advance hu hcur hR hfinal hpos⟩

/-- What every slot of a run keeps up for the positions of a pool holds in every state. -/
theorem Run.pools
    (Inv : PoolId → List Block → Table → ℕ → Prop) (hstart : ∀ pid, Inv pid [] OrdMap.empty 0)
    (hstep : ∀ pid T b m m' u, cond T b → Inv pid T m u → u ≤ b.slot →
      PoolStep cfg b.slot (positionsIn (distinct b.events) pid) m m' →
      Inv pid (T ++ [b]) m' (b.slot + 1))
    (run : Run cfg db T) (hkeep : Throughout cond T) :
    ∃ u, Waiting db u ∧ ∀ pid, Inv pid T (db.accountPositions pid) u := by
  induction run with
  | start => exact ⟨0, ⟨fun _ _ h => (nomatch h), le_rfl, rfl⟩, hstart⟩
  | append run hslot happ ih =>
    next db db' T slot events =>
    obtain ⟨u, hwait, hinv⟩ := ih hkeep
    obtain ⟨restored, hrest, happ⟩ := bind_eq_ok.1 happ
    rw [hwait.forward] at hrest
    cases hrest
    cases happ
    obtain ⟨hpos, hcur, hroll, hev⟩ :=
      appendEvents_spec slot events.zipIdx { db with currentSlot := some slot }
    have hu : u ≤ slot := by
      have hreached := hwait.reached
      cases hs : db.currentSlot with
      | none =>
        rw [hs, getD_none] at hreached
        omega
      | some s =>
        have hlt := hslot s hs
        rw [hs, getD_some] at hreached
        omega
    refine ⟨u, ⟨fun key e he => ?_, by rw [hcur]; exact hu, hroll.trans hwait.forward⟩, fun pid => ?_⟩
    · rcases hev key e he with h | h
      · exact hwait.later key e h
      · omega
    · rw [hpos]
      exact hinv pid
  | process ord run hslot hproc ih =>
    next db db' T slot =>
    obtain ⟨hkeep, hcond⟩ := hkeep.concat
    obtain ⟨u, hwait, hinv⟩ := ih hkeep
    obtain ⟨maxSlot, hmax, hmature, hproc⟩ := tryProcessMatureEvents_true hslot hproc
    obtain ⟨hev, hcur, hroll, hpools⟩ := processSlot_spec hproc
    have hu : u ≤ slot := by
      obtain ⟨key, e, he, rfl⟩ := exists_of_firstSlot hslot
      exact hwait.later key e he
    refine ⟨slot + 1, ⟨fun key e he => ?_, ?_, hroll.trans hwait.forward⟩, fun pid => ?_⟩
    · rw [hev] at he
      exact slot_lt_of_remaining hslot he
    · rw [hcur, hmax, getD_some]
      omega
    · exact hstep pid T _ _ _ u hcond (hinv pid) hu (hpools pid)

/-- The positions of every pool are in step as long as no account is left without LP. -/
theorem Run.synced (run : Run cfg db T) (hkeep : Throughout (Retains cfg) T) :
    ∃ u, Waiting db u ∧
      ∀ pid, ∃ E P, Synced cfg.converter (db.accountPositions pid) (credited cfg T pid) u E P := by
  apply Run.pools (fun pid T m u => ∃ E P, Synced cfg.converter m (credited cfg T pid) u E P) _ _ run
    hkeep
  · intro pid
    exact ⟨0, _, .empty cfg.converter⟩
  · intro pid T b m m' u hretain hinv hu hstep
    obtain ⟨E, P, hsync⟩ := hinv
    rw [funext (credited_concat cfg T b pid)]
    refine hsync.step hu hstep fun cred hne => ?_
    rw [← credited_concat]
    exact hretain pid cred hne

/-! ## Computed runs -/

inductive Op where
  | append (slot : ℕ) (events : List OnChainEvent)
  | process

def replayOp (cfg : Settings) (s : PositionDB × List Block) : Op → Exec (PositionDB × List Block)
  | .append slot events =>
      if s.1.currentSlot.all (· < slot) then do return (← batchAppend cfg s.1 slot events, s.2)
      else throw (.explicit "slots decrease")
  | .process => do
      let r ← tryProcessMatureEvents .byKey cfg s.1
      return if r.1 then (r.2, s.2 ++ (firstSlot s.1).toList.map fun slot =>
        ⟨slot, (takenAt s.1 slot).map Prod.snd⟩) else s

def replay (cfg : Settings) (ops : List Op) : Exec (PositionDB × List Block) :=
  ops.foldlM (replayOp cfg) (.empty, [])

theorem replayOp_sound {s' : PositionDB × List Block} {op : Op} (run : Run cfg s.1 s.2)
    (h : replayOp cfg s op = .ok s') : Run cfg s'.1 s'.2 := by
  cases op with
  | append slot events =>
    simp only [replayOp] at h
    split at h
    · next hslot =>
      obtain ⟨db, hdb, h⟩ := bind_eq_ok.1 h
      cases h
      refine .append run (fun t ht => ?_) hdb
      rw [ht] at hslot
      simpa using hslot
    · cases h
  | process =>
    obtain ⟨⟨done, db⟩, hr, h⟩ := bind_eq_ok.1 h
    cases h
    cases done with
    | false => exact run
    | true =>
      cases hfirst : firstSlot s.1 with
      | none =>
        have hsame : db = s.1 := by
          unfold tryProcessMatureEvents at hr
          cases hmax : s.1.currentSlot with
          | none =>
            rw [hmax] at hr
            cases hr
          | some t =>
            rw [hmax, hfirst] at hr
            exact (congrArg Prod.snd (Except.ok.inj hr)).symm
        simpa [hfirst, hsame] using run
      | some slot => simpa [hfirst] using Run.process .byKey run hfirst hr

theorem replay_sound {ops : List Op} (h : replay cfg ops = .ok s) : Run cfg s.1 s.2 := by
  suffices hops : ∀ (l : List Op) (a : PositionDB × List Block), Run cfg a.1 a.2 →
      l.foldlM (replayOp cfg) a = .ok s → Run cfg s.1 s.2 from hops ops _ .start h
  intro l
  induction l with
  | nil =>
    intro a run hl
    cases hl
    exact run
  | cons op l ih =>
    intro a run hl
    rw [foldlM_cons] at hl
    obtain ⟨b, hb, hl⟩ := bind_eq_ok.1 hl
    exact ih b (replayOp_sound run hb) hl

/-- Checks a condition at every slot. -/
def throughoutB (cond : List Block → Block → Bool) : List Block → List Block → Bool
  | _, [] => true
  | done, b :: l => cond done b && throughoutB cond (done ++ [b]) l

theorem throughout_of_check {cond : List Block → Block → Bool} {P : List Block → Block → Prop}
    (hcond : ∀ T b, cond T b = true → P T b) (h : throughoutB cond [] T = true) :
    Throughout P T := by
  suffices hdone : ∀ (l done : List Block), throughoutB cond done l = true →
      ∀ pre b post, l = pre ++ b :: post → P (done ++ pre) b from
    fun pre b post heq => hdone T [] h pre b post heq
  intro l
  induction l with
  | nil => exact fun _ _ pre b post heq => by simp at heq
  | cons a l ih =>
    intro done hl pre b post heq
    obtain ⟨ha, hl⟩ := Bool.and_eq_true_iff.1 hl
    cases pre with
    | nil =>
      obtain ⟨rfl, -⟩ := List.cons.inj heq
      rw [append_nil]
      exact hcond done a ha
    | cons x pre =>
      obtain ⟨rfl, hrest⟩ := List.cons.inj heq
      have hnext := ih (done ++ [a]) hl pre b post hrest
      rwa [append_assoc] at hnext

def retainsB (cfg : Settings) (T : List Block) (b : Block) : Bool :=
  (b.events.filterMap OnChainEvent.position?).all fun e =>
    decide (credited cfg (T ++ [b]) e.poolId e.account ≠ 0)

theorem mem_distinct {l : List OnChainEvent} : e ∈ distinct l ↔ e ∈ l := by
  induction l using List.reverseRecOn with
  | nil => rfl
  | append_singleton l a ih =>
    rw [distinct, foldl_append, foldl_cons, foldl_nil, ← distinct, mem_append,
      mem_singleton]
    split
    · next ha =>
      rw [ih]
      refine ⟨.inl, fun he => he.elim id fun hea => ?_⟩
      rw [hea] at ih ⊢
      exact ih.1 (contains_iff_mem.1 ha)
    · rw [mem_append, mem_singleton, ih]

theorem retains_of_check (h : retainsB cfg T b = true) : Retains cfg T b := by
  intro pid cred hne
  obtain ⟨e, he⟩ := exists_mem_of_ne_nil _ hne
  obtain ⟨hin, hcred⟩ := mem_filter.1 he
  have hcred : e.account = cred := of_decide_eq_true hcred
  unfold creditedIn at hin
  split at hin
  · obtain ⟨hin, hpid⟩ := mem_filter.1 hin
    have hpid : e.poolId = pid := of_decide_eq_true hpid
    obtain ⟨x, hx, hpos⟩ := mem_filterMap.1 hin
    have hall := all_eq_true.1 h e (mem_filterMap.2 ⟨x, mem_distinct.1 hx, hpos⟩)
    rw [← hcred, ← hpid]
    exact of_decide_eq_true hall
  · cases hin

end Splash.LpIndexer
