import Splash.Rewards.Funding

/-!
# Funding boxes over a run

Own transactions are submitted, confirmed, dropped and rolled back, and payments to the funding
address come and go with the blocks that hold them.

* `Exact` — a box is recorded once, and the boxes that are offered are those that exist and are not
  spent.
* `Tracks` — what the tables hold during an orderly run.
* `exact_iff_orderly` — the repository is exact at every point of a run just when no dropped
  transaction had spent a box that still exists and no payment comes back whose box was spent.
-/

namespace Splash.Rewards.Funding

open Lib FundingRepo List OrdMap

/-- A transaction of the distributor, which pays with funding boxes and takes the change. -/
structure OwnTx (cfg : Setup) where
  tx : Tx
  spentPredicted : List OutputRef
  spentConfirmed : List OutputRef
  change : FundingBox
  otherEvent_eq : tx.otherEvent = true
  created_eq : tx.created cfg = [change]
  spends : ∀ i ∈ spentPredicted ++ spentConfirmed, i ∈ tx.inputs

def OwnTx.spent {cfg : Setup} (t : OwnTx cfg) : List OutputRef := t.spentPredicted ++ t.spentConfirmed

/-- A transaction in a block: one of the distributor, or a payment. -/
inductive Entry (cfg : Setup) where
  | own (t : OwnTx cfg)
  | payment (tx : Tx)

namespace Entry

variable {cfg : Setup}

def tx : Entry cfg → Tx
  | .own t => t.tx
  | .payment tx => tx

def own? : Entry cfg → Option (OwnTx cfg)
  | .own t => some t
  | .payment _ => none

end Entry

inductive Step (cfg : Setup) where
  | submit (t : OwnTx cfg)
  | forward (block : List (Entry cfg))
  | back (block : List (Entry cfg))
  | drop (t : OwnTx cfg)

variable {cfg : Setup}

def step (s : Bot) : Step cfg → Exec Bot
  | .submit t => s.submit t.spentPredicted t.spentConfirmed [t.change]
  | .forward block => .ok (s.rollForward cfg (block.map Entry.tx))
  | .back block => .ok (s.rollBackward cfg (block.map Entry.tx))
  | .drop t => s.dropped cfg t.tx

def run : List (Step cfg) → Exec Bot
  | [] => .ok .init
  | e :: es => run es >>= fun s => step s e

/-! ## Transactions of a run -/

def chain : List (Step cfg) → List (List (Entry cfg))
  | [] => []
  | .forward block :: es => block :: chain es
  | .back _ :: es => (chain es).tail
  | _ :: es => chain es

variable (es : List (Step cfg))

def confirmed : List (Entry cfg) := (chain es).flatten

/-- The own transactions that wait for their confirmation. -/
def pending : List (Step cfg) → List (OwnTx cfg)
  | [] => []
  | .submit t :: es => t :: pending es
  | .forward block :: es =>
    (pending es).filter fun t => !(block.map fun e => e.tx.hash).contains t.tx.hash
  | .back block :: es => block.filterMap Entry.own? ++ pending es
  | .drop t :: es => (pending es).filter fun t' => t'.tx.hash ≠ t.tx.hash

def submitted : List (Step cfg) → List (OwnTx cfg)
  | [] => []
  | .submit t :: es => t :: submitted es
  | _ :: es => submitted es

def hashes : List (Step cfg) → List ℕ
  | [] => []
  | .submit t :: es => t.tx.hash :: hashes es
  | .forward block :: es => (block.map fun e => e.tx.hash) ++ hashes es
  | _ :: es => hashes es

def own : List (OwnTx cfg) := pending es ++ (confirmed es).filterMap Entry.own?

/-- The boxes that pending and confirmed transactions make. -/
def Exists (f : FundingBox) : Prop :=
  (∃ t ∈ own es, f ∈ t.tx.created cfg) ∨ ∃ tx, Entry.payment tx ∈ confirmed es ∧ f ∈ tx.created cfg

/-- The boxes that exist and that no pending or confirmed transaction spends. -/
def Available (f : FundingBox) : Prop :=
  Exists es f ∧ ∀ t ∈ own es, f.id ∉ t.spent

/-- The boxes that some submitted transaction spends. -/
def SpentEver (id : OutputRef) : Prop := ∃ t ∈ submitted es, id ∈ t.spent

/-- Transactions are funded with boxes that were offered, and are confirmed or dropped while they are
pending. A payment spends none of the boxes. Blocks are rolled back from the last one. -/
def Valid : List (Step cfg) → Prop
  | [] => True
  | .submit t :: es => Valid es ∧ t.tx.hash ∉ hashes es ∧
      ∃ s, run es = .ok s ∧ s.repo.collect.select = .ok (t.spentPredicted, t.spentConfirmed)
  | .forward block :: es => Valid es ∧ (∀ t, Entry.own t ∈ block → t ∈ pending es) ∧
      (∀ tx, Entry.payment tx ∈ block → tx.otherEvent = false ∧
        (∀ t ∈ submitted es, t.tx.hash ≠ tx.hash) ∧ ∀ f, Exists es f → f.id ∉ tx.inputs) ∧
      ((block ++ confirmed es).map fun e => e.tx.hash).Nodup
  | .back block :: es => Valid es ∧ (chain es).head? = some block
  | .drop t :: es => Valid es ∧ t ∈ pending es

/-- Each box is recorded in at most one state and offered at most once, and the boxes that are
offered are those that exist and are not spent. -/
structure Exact (es : List (Step cfg)) (s : Bot) : Prop where
  one : ∀ id k k', (s.repo.get k id).isSome → (s.repo.get k' id).isSome → k = k'
  nodup : ((s.repo.collect.confirmed ++ s.repo.collect.predicted).map FundingBox.id).Nodup
  offered : ∀ f, f ∈ s.repo.collect.confirmed ++ s.repo.collect.predicted ↔ Available es f

/-- A transaction is dropped when the boxes it spent are gone, and no payment comes back whose box
was spent. -/
def Orderly : List (Step cfg) → Prop
  | [] => True
  | .forward block :: es => Orderly es ∧
      ∀ tx, Entry.payment tx ∈ block → ∀ f ∈ tx.created cfg, ¬ SpentEver es f.id
  | .drop t :: es => Orderly es ∧ ∀ f, f.id ∈ t.spent → ¬ Exists (.drop t :: es) f
  | _ :: es => Orderly es

/-! ## Pending and confirmed transactions -/

variable {es : List (Step cfg)} {t t' : OwnTx cfg} {tx : Tx} {f : FundingBox} {id : OutputRef}
  {block : List (Entry cfg)}

/-- What holds of the transactions of a run. -/
structure Ledger (es : List (Step cfg)) : Prop where
  own_submitted : ∀ t ∈ own es, t ∈ submitted es
  submitted_inj : ∀ t ∈ submitted es, ∀ t' ∈ submitted es, t.tx.hash = t'.tx.hash → t = t'
  foreign : ∀ tx, Entry.payment tx ∈ confirmed es → ∀ t ∈ submitted es, t.tx.hash ≠ tx.hash
  plain : ∀ tx, Entry.payment tx ∈ confirmed es → tx.otherEvent = false
  disjoint : ∀ t ∈ pending es, ∀ e ∈ confirmed es, e.tx.hash ≠ t.tx.hash
  nodup : ((confirmed es).map fun e => e.tx.hash).Nodup
  submitted_hash : ∀ t ∈ submitted es, t.tx.hash ∈ hashes es
  confirmed_hash : ∀ e ∈ confirmed es, e.tx.hash ∈ hashes es

theorem mem_filterMap_own? {l : List (Entry cfg)} : t ∈ l.filterMap Entry.own? ↔ Entry.own t ∈ l := by
  rw [mem_filterMap]
  constructor
  · rintro ⟨e, he, heq⟩
    cases e with
    | own t' =>
      cases heq
      exact he
    | payment tx => cases heq
  · intro h
    exact ⟨_, h, rfl⟩

theorem mem_own : t ∈ own es ↔ t ∈ pending es ∨ Entry.own t ∈ confirmed es := by
  rw [own, mem_append, mem_filterMap_own?]

theorem confirmed_forward : confirmed (.forward block :: es) = block ++ confirmed es := rfl

theorem confirmed_back (h : (chain es).head? = some block) :
    confirmed es = block ++ confirmed (.back block :: es) := by
  show (chain es).flatten = block ++ (chain es).tail.flatten
  cases hchain : chain es with
  | nil =>
    rw [hchain] at h
    cases h
  | cons b blocks =>
    rw [hchain] at h
    cases h
    rfl

theorem mem_pending_forward : t ∈ pending (.forward block :: es) ↔
    t ∈ pending es ∧ ∀ e ∈ block, e.tx.hash ≠ t.tx.hash := by
  rw [pending, mem_filter]
  simp

theorem mem_pending_drop : t' ∈ pending (.drop t :: es) ↔
    t' ∈ pending es ∧ t'.tx.hash ≠ t.tx.hash := by
  rw [pending, mem_filter, decide_eq_true_iff]

theorem mem_pending_back : t ∈ pending (.back block :: es) ↔ Entry.own t ∈ block ∨ t ∈ pending es := by
  rw [pending, mem_append, mem_filterMap_own?]

/-- A rollback makes the own transactions of the block wait again. -/
theorem mem_own_back (h : (chain es).head? = some block) : t ∈ own (.back block :: es) ↔ t ∈ own es := by
  rw [mem_own, mem_own, mem_pending_back, confirmed_back h, mem_append]
  tauto

theorem mem_own_submit : t' ∈ own (.submit t :: es) ↔ t' = t ∨ t' ∈ own es := by
  rw [mem_own, mem_own, pending, mem_cons, or_assoc]
  rfl

namespace Ledger

theorem nil : Ledger ([] : List (Step cfg)) := by
  constructor <;> simp [own, submitted, confirmed, chain, pending]

section

variable (hl : Ledger es)
include hl

theorem mem_own_forward (hv : Valid (.forward block :: es)) :
    t ∈ own (.forward block :: es) ↔ t ∈ own es := by
  obtain ⟨-, hown, hpayment, -⟩ := hv
  rw [mem_own, mem_own, mem_pending_forward, confirmed_forward, mem_append]
  constructor
  · rintro (⟨hpending, -⟩ | hblock | hconfirmed)
    · exact .inl hpending
    · exact .inl (hown t hblock)
    · exact .inr hconfirmed
  · rintro (hpending | hconfirmed)
    · by_cases hfree : ∀ e ∈ block, e.tx.hash ≠ t.tx.hash
      · exact .inl ⟨hpending, hfree⟩
      · push Not at hfree
        obtain ⟨e, he, hhash⟩ := hfree
        have hsubmitted := hl.own_submitted t (mem_own.2 (.inl hpending))
        cases e with
        | own t' =>
          have hsubmitted' := hl.own_submitted t' (mem_own.2 (.inl (hown t' he)))
          obtain rfl := hl.submitted_inj t' hsubmitted' t hsubmitted hhash
          exact .inr (.inl he)
        | payment tx => exact absurd hhash.symm ((hpayment tx he).2.1 t hsubmitted)
    · exact .inr (.inr hconfirmed)

theorem mem_own_drop (ht : t ∈ pending es) :
    t' ∈ own (.drop t :: es) ↔ t' ∈ own es ∧ t' ≠ t := by
  have hsubmitted := hl.own_submitted t (mem_own.2 (.inl ht))
  have hhash : ∀ t' ∈ own es, t'.tx.hash ≠ t.tx.hash ↔ t' ≠ t := fun t' ht' =>
    ⟨fun hne heq => hne (heq ▸ rfl), fun hne heq =>
      hne (hl.submitted_inj t' (hl.own_submitted t' ht') t hsubmitted heq)⟩
  rw [mem_own, mem_pending_drop]
  constructor
  · rintro (⟨hpending, hne⟩ | hconfirmed)
    · exact ⟨mem_own.2 (.inl hpending), (hhash t' (mem_own.2 (.inl hpending))).1 hne⟩
    · have hmem : t' ∈ own es := mem_own.2 (.inr hconfirmed)
      exact ⟨hmem, (hhash t' hmem).1 (hl.disjoint t ht _ hconfirmed)⟩
  · rintro ⟨hmem, hne⟩
    have hne' := (hhash t' hmem).2 hne
    rcases mem_own.1 hmem with hpending | hconfirmed
    · exact .inl ⟨hpending, hne'⟩
    · exact .inr hconfirmed

theorem payment_back (h : (chain es).head? = some block) :
    Entry.payment tx ∈ confirmed (.back block :: es) ↔
      Entry.payment tx ∈ confirmed es ∧ Entry.payment tx ∉ block := by
  have hnodup := hl.nodup
  rw [confirmed_back h, map_append, nodup_append] at hnodup
  rw [confirmed_back h, mem_append]
  constructor
  · intro hmem
    exact ⟨.inr hmem, fun hblock =>
      hnodup.2.2 _ (mem_map_of_mem hblock) _ (mem_map_of_mem hmem) rfl⟩
  · rintro ⟨hmem | hmem, hnot⟩
    · exact absurd hmem hnot
    · exact hmem

theorem submit (hv : Valid (.submit t :: es)) : Ledger (.submit t :: es) := by
  obtain ⟨-, hfresh, -⟩ := hv
  have hne : ∀ t' ∈ submitted es, t'.tx.hash ≠ t.tx.hash := fun t' ht' heq =>
    hfresh (heq ▸ hl.submitted_hash t' ht')
  have hconfirmed : ∀ e ∈ confirmed es, e.tx.hash ≠ t.tx.hash := fun e he heq =>
    hfresh (heq ▸ hl.confirmed_hash e he)
  refine ⟨fun t' ht' => ?_, fun t₁ h₁ t₂ h₂ heq => ?_, fun tx htx t' ht' => ?_, hl.plain,
    fun t' ht' => ?_, hl.nodup, fun t' ht' => ?_,
    fun e he => mem_cons_of_mem _ (hl.confirmed_hash e he)⟩
  · rcases mem_own_submit.1 ht' with rfl | ht'
    · exact mem_cons_self
    · exact mem_cons_of_mem _ (hl.own_submitted t' ht')
  · rcases mem_cons.1 h₁ with heq₁ | h₁ <;> rcases mem_cons.1 h₂ with heq₂ | h₂
    · exact heq₁.trans heq₂.symm
    · exact absurd (heq₁ ▸ heq.symm) (hne _ h₂)
    · exact absurd (heq₂ ▸ heq) (hne _ h₁)
    · exact hl.submitted_inj t₁ h₁ t₂ h₂ heq
  · rcases mem_cons.1 ht' with rfl | ht'
    · exact (hconfirmed _ htx).symm
    · exact hl.foreign tx htx t' ht'
  · rcases mem_cons.1 ht' with rfl | ht'
    · exact hconfirmed
    · exact hl.disjoint t' ht'
  · rcases mem_cons.1 ht' with rfl | ht'
    · exact mem_cons_self
    · exact mem_cons_of_mem _ (hl.submitted_hash t' ht')

theorem forward (hv : Valid (.forward block :: es)) :
    Ledger (.forward block :: es) := by
  have howns := fun t : OwnTx cfg => hl.mem_own_forward (t := t) hv
  obtain ⟨-, hown, hpayment, hnodup⟩ := hv
  refine ⟨fun t ht => hl.own_submitted t ((howns t).1 ht), hl.submitted_inj, fun tx htx => ?_,
    fun tx htx => ?_, fun t ht e he => ?_, hnodup,
    fun t ht => mem_append_right _ (hl.submitted_hash t ht), fun e he => ?_⟩
  · rcases mem_append.1 htx with htx | htx
    · exact (hpayment tx htx).2.1
    · exact hl.foreign tx htx
  · rcases mem_append.1 htx with htx | htx
    · exact (hpayment tx htx).1
    · exact hl.plain tx htx
  · rw [mem_pending_forward] at ht
    rcases mem_append.1 he with he | he
    · exact ht.2 e he
    · exact hl.disjoint t ht.1 e he
  · rcases mem_append.1 he with he | he
    · exact mem_append_left _ (mem_map_of_mem he)
    · exact mem_append_right _ (hl.confirmed_hash e he)

theorem back (h : (chain es).head? = some block) : Ledger (.back block :: es) := by
  have hsub : ∀ e ∈ confirmed (.back block :: es), e ∈ confirmed es := by
    intro e he
    rw [confirmed_back h]
    exact mem_append_right _ he
  have hnodup := hl.nodup
  rw [confirmed_back h, map_append, nodup_append] at hnodup
  refine ⟨fun t ht => hl.own_submitted t ((mem_own_back h).1 ht), hl.submitted_inj,
    fun tx htx => hl.foreign tx (hsub _ htx), fun tx htx => hl.plain tx (hsub _ htx),
    fun t ht e he => ?_, hnodup.2.1, hl.submitted_hash, fun e he => hl.confirmed_hash e (hsub e he)⟩
  rcases mem_pending_back.1 ht with hblock | hpending
  · exact (hnodup.2.2 _ (mem_map_of_mem hblock) _ (mem_map_of_mem he)).symm
  · exact hl.disjoint t hpending e (hsub e he)

theorem drop (ht : t ∈ pending es) : Ledger (.drop t :: es) :=
  ⟨fun t' ht' => hl.own_submitted t' ((hl.mem_own_drop ht).1 ht').1, hl.submitted_inj, hl.foreign,
    hl.plain, fun t' ht' => hl.disjoint t' (mem_pending_drop.1 ht').1, hl.nodup, hl.submitted_hash,
    hl.confirmed_hash⟩

end

end Ledger

theorem ledger_of_valid (hv : Valid es) : Ledger es := by
  induction es with
  | nil => exact .nil
  | cons e es ih =>
    cases e with
    | submit t => exact (ih hv.1).submit hv
    | forward block => exact (ih hv.1).forward hv
    | back block => exact (ih hv.1).back hv.2
    | drop t => exact (ih hv.1).drop hv.2

/-! ## What the tables hold -/

/-- The tables of an orderly run. Boxes of payments are in the tables of confirmed boxes and change
is in those of predicted ones, even after it was confirmed. A box that was spent stays recorded. -/
structure Tracks (es : List (Step cfg)) (s : Bot) : Prop where
  scripted : Scripted s.utxos
  confirmedAvailable : ∀ id f, s.repo.get .confirmedAvailable id = some f ↔
    f.id = id ∧ (∃ tx, Entry.payment tx ∈ confirmed es ∧ f ∈ tx.created cfg) ∧ ¬ SpentEver es id
  predictedAvailable : ∀ id f, s.repo.get .predictedAvailable id = some f ↔
    f.id = id ∧ (∃ t ∈ own es, f ∈ t.tx.created cfg) ∧ ¬ SpentEver es id
  confirmedSpent : ∀ id, (s.repo.get .confirmedSpent id).isSome ↔
    SpentEver es id ∧ ∀ t ∈ submitted es, t.tx.hash ≠ FundingBox.txHash id
  predictedSpent : ∀ id, (s.repo.get .predictedSpent id).isSome ↔
    SpentEver es id ∧ ∃ t ∈ submitted es, t.tx.hash = FundingBox.txHash id
  seen : ∀ id, SpentEver es id → FundingBox.txHash id ∈ hashes es
  once : ∀ t ∈ submitted es, ∀ t' ∈ submitted es, ∀ id, id ∈ t.spent → id ∈ t'.spent → t = t'
  kept : ∀ f, SpentEver es f.id → Exists es f → ∃ t ∈ own es, f.id ∈ t.spent

def BoxState.isSpent : BoxState → Prop
  | .confirmedAvailable | .predictedAvailable => False
  | .confirmedSpent | .predictedSpent => True

def BoxState.isPredicted : BoxState → Prop
  | .confirmedAvailable | .confirmedSpent => False
  | .predictedAvailable | .predictedSpent => True

namespace Tracks

variable {s : Bot}

variable {k : BoxState}

theorem nodup_values (h : ∀ id f, s.repo.get k id = some f → f.id = id) :
    ((s.repo.table k).values.map FundingBox.id).Nodup := by
  have hkeys : (s.repo.table k).values.map FundingBox.id = (s.repo.table k).toList.map Prod.fst := by
    unfold OrdMap.values
    rw [map_map]
    refine map_congr_left fun e he => ?_
    exact h e.1 e.2 (mem_toList_iff.1 he)
  rw [hkeys]
  exact pairwise_map.2 ((pairwise_toList _).imp fun hlt => hlt.ne)

theorem init : Tracks ([] : List (Step cfg)) .init := by
  have hspent : ∀ id, ¬ SpentEver ([] : List (Step cfg)) id := by
    rintro id ⟨t, ht, -⟩
    cases ht
  constructor <;> simp [Bot.init, Scripted, hspent, confirmed, chain, own, pending, submitted]

theorem spentEver_submit : SpentEver (.submit t :: es) id ↔ id ∈ t.spent ∨ SpentEver es id := by
  unfold SpentEver
  rw [submitted]
  simp only [mem_cons, exists_eq_or_imp]

theorem mem_spent : id ∈ t.spent ↔ id ∈ t.spentPredicted ∨ id ∈ t.spentConfirmed := mem_append

theorem mem_created_own : f ∈ t.tx.created cfg ↔ f = t.change := by
  rw [t.created_eq, mem_singleton]

theorem txHash_change : FundingBox.txHash t.change.id = t.tx.hash :=
  txHash_of_mem_created (mem_created_own.2 rfl)

theorem mem_payments (hplain : ∀ tx, Entry.payment tx ∈ block → tx.otherEvent = false) :
    f ∈ payments cfg (block.map Entry.tx) ↔
      ∃ tx, Entry.payment tx ∈ block ∧ f ∈ tx.created cfg := by
  simp only [payments, mem_flatMap, mem_filter, mem_map]
  constructor
  · rintro ⟨tx, ⟨⟨e, he, rfl⟩, hother⟩, hcreated⟩
    cases e with
    | own t =>
      rw [Entry.tx, t.otherEvent_eq] at hother
      cases hother
    | payment tx => exact ⟨tx, he, hcreated⟩
  · rintro ⟨tx, htx, hcreated⟩
    exact ⟨tx, ⟨⟨_, htx, rfl⟩, by rw [hplain tx htx]; rfl⟩, hcreated⟩

theorem nodup_payments {txs : List Tx} (h : (txs.map Tx.hash).Nodup) :
    ((payments cfg txs).map FundingBox.id).Nodup := by
  have hpairs : (txs.filter fun tx => !tx.otherEvent).Pairwise fun a b => a.hash ≠ b.hash :=
    (pairwise_map.1 h).filter _
  unfold payments
  rw [map_flatMap, nodup_flatMap]
  refine ⟨fun tx _ => nodup_created tx, hpairs.imp ?_⟩
  intro a b hab id ha hb
  obtain ⟨f, hf, rfl⟩ := mem_map.1 ha
  obtain ⟨g, hg, heq⟩ := mem_map.1 hb
  apply hab
  rw [← txHash_of_mem_created hf, ← heq, txHash_of_mem_created hg]

theorem mem_payments_reverse {txs : List Tx} : f ∈ payments cfg txs.reverse ↔ f ∈ payments cfg txs := by
  simp [payments]

section

variable (h : Tracks es s) (hl : Ledger es)
include h hl

/-- The state of a record says whether the box was spent and whether it is change. -/
theorem of_isSome (hk : (s.repo.get k id).isSome) :
    (SpentEver es id ↔ k.isSpent) ∧
      ((∃ t ∈ submitted es, t.tx.hash = FundingBox.txHash id) ↔ k.isPredicted) := by
  cases k with
  | confirmedAvailable =>
    obtain ⟨f, hf⟩ := Option.isSome_iff_exists.1 hk
    obtain ⟨rfl, ⟨tx, htx, hcreated⟩, hspent⟩ := (h.confirmedAvailable id f).1 hf
    refine ⟨iff_of_false hspent not_false, iff_of_false ?_ not_false⟩
    rintro ⟨t, ht, hhash⟩
    rw [txHash_of_mem_created hcreated] at hhash
    exact hl.foreign tx htx t ht hhash
  | predictedAvailable =>
    obtain ⟨f, hf⟩ := Option.isSome_iff_exists.1 hk
    obtain ⟨rfl, ⟨t, ht, hcreated⟩, hspent⟩ := (h.predictedAvailable id f).1 hf
    exact ⟨iff_of_false hspent not_false, iff_of_true
      ⟨t, hl.own_submitted t ht, (txHash_of_mem_created hcreated).symm⟩ trivial⟩
  | confirmedSpent =>
    obtain ⟨hspent, hforeign⟩ := (h.confirmedSpent id).1 hk
    refine ⟨iff_of_true hspent trivial, iff_of_false ?_ not_false⟩
    rintro ⟨t, ht, hhash⟩
    exact hforeign t ht hhash
  | predictedSpent =>
    obtain ⟨hspent, howned⟩ := (h.predictedSpent id).1 hk
    exact ⟨iff_of_true hspent trivial, iff_of_true howned trivial⟩

theorem one {k k' : BoxState} (hk : (s.repo.get k id).isSome) (hk' : (s.repo.get k' id).isSome) :
    k = k' := by
  obtain ⟨hspent, hpredicted⟩ := h.of_isSome hl hk
  obtain ⟨hspent', hpredicted'⟩ := h.of_isSome hl hk'
  have hs := hspent.symm.trans hspent'
  have hp := hpredicted.symm.trans hpredicted'
  revert hs hp
  cases k <;> cases k' <;> simp [BoxState.isSpent, BoxState.isPredicted]

omit hl in
theorem mem_confirmed : f ∈ s.repo.collect.confirmed ↔
    s.repo.get .confirmedAvailable f.id = some f := by
  refine mem_values_iff.trans ⟨?_, fun hf => ⟨f.id, hf⟩⟩
  rintro ⟨id, hid⟩
  obtain ⟨rfl, -⟩ := (h.confirmedAvailable id f).1 hid
  exact hid

omit hl in
theorem mem_predicted : f ∈ s.repo.collect.predicted ↔
    s.repo.get .predictedAvailable f.id = some f := by
  refine mem_values_iff.trans ⟨?_, fun hf => ⟨f.id, hf⟩⟩
  rintro ⟨id, hid⟩
  obtain ⟨rfl, -⟩ := (h.predictedAvailable id f).1 hid
  exact hid

/-- **Tables that track an orderly run are exact.** -/
theorem exact : Exact es s := by
  refine ⟨fun _ _ _ => h.one hl, ?_, fun f => ?_⟩
  · rw [map_append, nodup_append]
    refine ⟨nodup_values fun id f hf => ((h.confirmedAvailable id f).1 hf).1,
      nodup_values fun id f hf => ((h.predictedAvailable id f).1 hf).1, ?_⟩
    intro id hid id' hid' heq
    obtain ⟨f, hf, rfl⟩ := mem_map.1 hid
    obtain ⟨g, hg, rfl⟩ := mem_map.1 hid'
    have hf' := Option.isSome_iff_exists.2 ⟨f, h.mem_confirmed.1 hf⟩
    have hg' := Option.isSome_iff_exists.2 ⟨g, h.mem_predicted.1 hg⟩
    rw [heq] at hf'
    cases h.one hl hf' hg'
  · rw [mem_append, h.mem_confirmed, h.mem_predicted, h.confirmedAvailable,
      h.predictedAvailable]
    constructor
    · rintro (⟨-, hpaid, hspent⟩ | ⟨-, howned, hspent⟩)
      · exact ⟨.inr hpaid, fun t ht hid => hspent ⟨t, hl.own_submitted t ht, hid⟩⟩
      · exact ⟨.inl howned, fun t ht hid => hspent ⟨t, hl.own_submitted t ht, hid⟩⟩
    · rintro ⟨hexists, hunspent⟩
      have hspent : ¬ SpentEver es f.id := by
        intro hspent
        obtain ⟨t, ht, hid⟩ := h.kept f hspent hexists
        exact hunspent t ht hid
      rcases hexists with howned | hpaid
      · exact .inr ⟨rfl, howned, hspent⟩
      · exact .inl ⟨rfl, hpaid, hspent⟩

/-! ### Submitted transactions -/

theorem txHash_mem (hk : (s.repo.get k id).isSome) : FundingBox.txHash id ∈ hashes es := by
  by_cases hspent : SpentEver es id
  · exact h.seen id hspent
  · obtain ⟨hspent', -⟩ := h.of_isSome hl hk
    obtain ⟨f, hf⟩ := Option.isSome_iff_exists.1 hk
    cases k with
    | confirmedAvailable =>
      obtain ⟨rfl, ⟨tx, htx, hcreated⟩, -⟩ := (h.confirmedAvailable id f).1 hf
      rw [txHash_of_mem_created hcreated]
      exact hl.confirmed_hash _ htx
    | predictedAvailable =>
      obtain ⟨rfl, ⟨t, ht, hcreated⟩, -⟩ := (h.predictedAvailable id f).1 hf
      rw [txHash_of_mem_created hcreated]
      exact hl.submitted_hash t (hl.own_submitted t ht)
    | confirmedSpent => exact absurd (hspent'.2 trivial) hspent
    | predictedSpent => exact absurd (hspent'.2 trivial) hspent

section

variable (hsel : s.repo.collect.select = .ok (t.spentPredicted, t.spentConfirmed))
include hsel

omit hl in
theorem selected :
    (t.spentPredicted.Nodup ∧ ∀ i ∈ t.spentPredicted, (s.repo.get .predictedAvailable i).isSome) ∧
      t.spentConfirmed.Nodup ∧ ∀ i ∈ t.spentConfirmed, (s.repo.get .confirmedAvailable i).isSome := by
  obtain ⟨hpredicted, hconfirmed⟩ := select_sublist hsel
  refine ⟨⟨hpredicted.nodup (nodup_values fun id f hf => ((h.predictedAvailable id f).1 hf).1),
    fun i hi => ?_⟩, hconfirmed.nodup (nodup_values fun id f hf =>
    ((h.confirmedAvailable id f).1 hf).1), fun i hi => ?_⟩
  · obtain ⟨f, hf, rfl⟩ := mem_map.1 (hpredicted.subset hi)
    exact Option.isSome_iff_exists.2 ⟨f, h.mem_predicted.1 hf⟩
  · obtain ⟨f, hf, rfl⟩ := mem_map.1 (hconfirmed.subset hi)
    exact Option.isSome_iff_exists.2 ⟨f, h.mem_confirmed.1 hf⟩

structure Submitted (t : OwnTx cfg) (r r' : FundingRepo) : Prop where
  confirmedAvailable : ∀ id f, r'.get .confirmedAvailable id = some f ↔
    r.get .confirmedAvailable id = some f ∧ id ∉ t.spentConfirmed
  predictedAvailable : ∀ id f, r'.get .predictedAvailable id = some f ↔
    id = t.change.id ∧ f = t.change ∨
      id ≠ t.change.id ∧ r.get .predictedAvailable id = some f ∧ id ∉ t.spentPredicted
  confirmedSpent : ∀ id, (r'.get .confirmedSpent id).isSome ↔
    id ∈ t.spentConfirmed ∨ (r.get .confirmedSpent id).isSome
  predictedSpent : ∀ id, (r'.get .predictedSpent id).isSome ↔
    id ∈ t.spentPredicted ∨ (r.get .predictedSpent id).isSome

omit hl in
theorem exists_submitted :
    ∃ r', s.submit t.spentPredicted t.spentConfirmed [t.change] = .ok ⟨s.utxos, r'⟩ ∧
      Submitted t s.repo r' := by
  obtain ⟨⟨hpn, hp⟩, hcn, hc⟩ := h.selected hsel
  obtain ⟨r₁, hr₁, hm₁⟩ := foldlM_spendPredicted hpn hp
  have hm₂ : FundingRepo.Moved .confirmedAvailable .confirmedSpent t.spentConfirmed r₁
      (t.spentConfirmed.foldl .spendConfirmed r₁) := by
    refine foldl_spendConfirmed hcn fun i hi => ?_
    rw [hm₁.others _ _ (by decide) (by decide)]
    exact hc i hi
  refine ⟨(t.spentConfirmed.foldl .spendConfirmed r₁).put .predictedAvailable t.change.id t.change,
    ?_, ⟨fun id f => ?_, fun id f => ?_, fun id => ?_, fun id => ?_⟩⟩
  · unfold Bot.submit
    rw [hr₁]
    rfl
  · rw [get_put, if_neg (by simp)]
    by_cases hid : id ∈ t.spentConfirmed
    · simp [hm₂.left id hid, hid]
    · rw [hm₂.stays _ _ hid, hm₁.others _ _ (by decide) (by decide)]
      simp [hid]
  · rw [get_put, hm₂.others _ _ (by decide) (by decide)]
    by_cases hchange : id = t.change.id
    · simp [hchange, eq_comm]
    · by_cases hid : id ∈ t.spentPredicted
      · simp [hchange, hm₁.left id hid, hid]
      · simp [hchange, hm₁.stays _ _ hid, hid]
  · rw [get_put, if_neg (by simp)]
    by_cases hid : id ∈ t.spentConfirmed
    · rw [hm₂.arrived id hid, hm₁.others _ _ (by decide) (by decide)]
      simp [hid, hc id hid]
    · rw [hm₂.stays _ _ hid, hm₁.others _ _ (by decide) (by decide)]
      simp [hid]
  · rw [get_put, if_neg (by simp), hm₂.others _ _ (by decide) (by decide)]
    by_cases hid : id ∈ t.spentPredicted
    · rw [hm₁.arrived id hid]
      simp [hid, hp id hid]
    · rw [hm₁.stays _ _ hid]
      simp [hid]

/-- What is known of the boxes that a transaction is funded with. -/
structure Funds (es : List (Step cfg)) (t : OwnTx cfg) : Prop where
  unspent : ∀ i ∈ t.spent, ¬ SpentEver es i
  seen : ∀ i ∈ t.spent, FundingBox.txHash i ∈ hashes es
  predicted : ∀ i ∈ t.spentPredicted, ∃ t' ∈ submitted es, t'.tx.hash = FundingBox.txHash i
  confirmed : ∀ i ∈ t.spentConfirmed, ∀ t' ∈ submitted es, t'.tx.hash ≠ FundingBox.txHash i

theorem funds :
    Funds es t := by
  obtain ⟨⟨-, hp⟩, -, hc⟩ := h.selected hsel
  refine ⟨fun i hi => ?_, fun i hi => ?_, fun i hi => ?_, fun i hi t' ht' heq => ?_⟩
  · rcases mem_spent.1 hi with hi | hi
    · exact (h.of_isSome hl (hp i hi)).1.not.2 not_false
    · exact (h.of_isSome hl (hc i hi)).1.not.2 not_false
  · rcases mem_spent.1 hi with hi | hi
    · exact h.txHash_mem hl (hp i hi)
    · exact h.txHash_mem hl (hc i hi)
  · exact (h.of_isSome hl (hp i hi)).2.2 trivial
  · exact (h.of_isSome hl (hc i hi)).2.1 ⟨t', ht', heq⟩

end

theorem submit (hfresh : t.tx.hash ∉ hashes es)
    (hsel : s.repo.collect.select = .ok (t.spentPredicted, t.spentConfirmed)) :
    ∃ s', step s (.submit t) = .ok s' ∧ Tracks (.submit t :: es) s' := by
  obtain ⟨r', hr', hsub⟩ := h.exists_submitted hsel
  have hfunds := h.funds hl hsel
  have hnew : ∀ id, FundingBox.txHash id ∈ hashes es → t.tx.hash ≠ FundingBox.txHash id :=
    fun id hid heq => hfresh (heq ▸ hid)
  have hchange : ¬ SpentEver (.submit t :: es) t.change.id := by
    rw [spentEver_submit]
    rintro (hid | hid)
    · exact hnew _ (hfunds.seen _ hid) txHash_change.symm
    · exact hnew _ (h.seen _ hid) txHash_change.symm
  refine ⟨_, hr', h.scripted, fun id f => ?_, fun id f => ?_, fun id => ?_, fun id => ?_,
    fun id hid => ?_, fun t₁ h₁ t₂ h₂ id hid₁ hid₂ => ?_, fun f hspent hexists => ?_⟩
  · rw [hsub.confirmedAvailable, h.confirmedAvailable, spentEver_submit, mem_spent]
    constructor
    · rintro ⟨⟨rfl, ⟨tx, htx, hcreated⟩, hspent⟩, hid⟩
      refine ⟨rfl, ⟨tx, htx, hcreated⟩, ?_⟩
      rintro ((hid' | hid') | hid')
      · obtain ⟨t', ht', heq⟩ := hfunds.predicted _ hid'
        exact hl.foreign tx htx t' ht' (heq.trans (txHash_of_mem_created hcreated))
      · exact hid hid'
      · exact hspent hid'
    · rintro ⟨hid, hpaid, hspent⟩
      exact ⟨⟨hid, hpaid, fun hs => hspent (.inr hs)⟩, fun hs => hspent (.inl (.inr hs))⟩
  · rw [hsub.predictedAvailable, h.predictedAvailable]
    constructor
    · rintro (⟨rfl, rfl⟩ | ⟨-, ⟨rfl, ⟨t', ht', hcreated⟩, hspent⟩, hid⟩)
      · exact ⟨rfl, ⟨t, mem_own_submit.2 (.inl rfl), mem_created_own.2 rfl⟩, hchange⟩
      · refine ⟨rfl, ⟨t', mem_own_submit.2 (.inr ht'), hcreated⟩, ?_⟩
        rw [spentEver_submit, mem_spent]
        rintro ((hid' | hid') | hid')
        · exact hid hid'
        · exact hfunds.confirmed _ hid' t' (hl.own_submitted t' ht')
            (txHash_of_mem_created hcreated).symm
        · exact hspent hid'
    · rintro ⟨rfl, ⟨t', ht', hcreated⟩, hspent⟩
      rw [spentEver_submit, mem_spent] at hspent
      rcases mem_own_submit.1 ht' with rfl | ht'
      · obtain rfl := mem_created_own.1 hcreated
        exact .inl ⟨rfl, rfl⟩
      · refine .inr ⟨fun heq => ?_, ⟨rfl, ⟨t', ht', hcreated⟩, fun hs => hspent (.inr hs)⟩,
          fun hs => hspent (.inl (.inl hs))⟩
        have hhash := txHash_of_mem_created hcreated
        rw [heq, txHash_change] at hhash
        exact hfresh (hhash ▸ hl.submitted_hash t' (hl.own_submitted t' ht'))
  · rw [hsub.confirmedSpent, h.confirmedSpent, spentEver_submit, mem_spent]
    rw [submitted, forall_mem_cons]
    constructor
    · rintro (hid | ⟨hspent, hforeign⟩)
      · exact ⟨.inl (.inr hid), hnew _ (hfunds.seen id (mem_spent.2 (.inr hid))),
          hfunds.confirmed id hid⟩
      · exact ⟨.inr hspent, hnew _ (h.seen id hspent), hforeign⟩
    · rintro ⟨(hid | hid) | hspent, -, hforeign⟩
      · obtain ⟨t', ht', heq⟩ := hfunds.predicted id hid
        exact absurd heq (hforeign t' ht')
      · exact .inl hid
      · exact .inr ⟨hspent, hforeign⟩
  · rw [hsub.predictedSpent, h.predictedSpent, spentEver_submit, mem_spent]
    constructor
    · rintro (hid | ⟨hspent, t', ht', heq⟩)
      · obtain ⟨t', ht', heq⟩ := hfunds.predicted id hid
        exact ⟨.inl (.inl hid), t', mem_cons_of_mem _ ht', heq⟩
      · exact ⟨.inr hspent, t', mem_cons_of_mem _ ht', heq⟩
    · rintro ⟨hspent, t', ht', heq⟩
      rcases mem_cons.1 ht' with rfl | ht'
      · have hseen : FundingBox.txHash id ∈ hashes es := by
          rcases hspent with hid | hid
          · exact hfunds.seen id (mem_spent.2 hid)
          · exact h.seen id hid
        exact absurd heq (hnew id hseen)
      · rcases hspent with (hid | hid) | hid
        · exact .inl hid
        · exact absurd heq (hfunds.confirmed id hid t' ht')
        · exact .inr ⟨hid, t', ht', heq⟩
  · rcases spentEver_submit.1 hid with hid | hid
    · exact mem_cons_of_mem _ (hfunds.seen id hid)
    · exact mem_cons_of_mem _ (h.seen id hid)
  · rcases mem_cons.1 h₁ with heq₁ | h₁ <;> rcases mem_cons.1 h₂ with heq₂ | h₂
    · exact heq₁.trans heq₂.symm
    · exact absurd ⟨t₂, h₂, hid₂⟩ (hfunds.unspent id (heq₁ ▸ hid₁))
    · exact absurd ⟨t₁, h₁, hid₁⟩ (hfunds.unspent id (heq₂ ▸ hid₂))
    · exact h.once t₁ h₁ t₂ h₂ id hid₁ hid₂
  · rcases spentEver_submit.1 hspent with hid | hid
    · exact ⟨t, mem_own_submit.2 (.inl rfl), hid⟩
    · have hold : Exists es f := by
        rcases hexists with ⟨t', ht', hcreated⟩ | hpaid
        · rcases mem_own_submit.1 ht' with rfl | ht'
          · obtain rfl := mem_created_own.1 hcreated
            exact absurd hspent hchange
          · exact .inl ⟨t', ht', hcreated⟩
        · exact .inr hpaid
      obtain ⟨t', ht', hid'⟩ := h.kept f hid hold
      exact ⟨t', mem_own_submit.2 (.inr ht'), hid'⟩

/-! ### Blocks -/

section

variable (hv : Valid (.forward block :: es))
include hv

theorem get_rollForward :
    (s.rollForward cfg (block.map Entry.tx)).repo.get k id = some f ↔
      k = .confirmedAvailable ∧ f ∈ payments cfg (block.map Entry.tx) ∧ f.id = id ∨
      (k = .confirmedAvailable → id ∉ (payments cfg (block.map Entry.tx)).map FundingBox.id) ∧
        s.repo.get k id = some f := by
  obtain ⟨-, -, hpayment, hnodup⟩ := hv
  have hhashes : ((block.map Entry.tx).map Tx.hash).Nodup := by
    rw [map_append, nodup_append] at hnodup
    rw [map_map]
    exact hnodup.1
  have hplain := fun tx htx => (hpayment tx htx).1
  have hfree : ∀ g ∈ payments cfg (block.map Entry.tx),
      s.repo.get .predictedAvailable g.id = none := by
    intro g hg
    obtain ⟨tx, htx, hcreated⟩ := (mem_payments hplain).1 hg
    rw [← Option.not_isSome_iff_eq_none]
    intro hsome
    obtain ⟨t, ht, heq⟩ := (h.of_isSome hl hsome).2.2 trivial
    exact (hpayment tx htx).2.1 t ht (heq.trans (txHash_of_mem_created hcreated))
  rw [rollForward_repo h.scripted, foldl_putConfirmed hfree,
    get_foldl_put (nodup_payments hhashes)]

theorem get_rollForward_of_ne (hk : k ≠ .confirmedAvailable) :
    (s.rollForward cfg (block.map Entry.tx)).repo.get k id = s.repo.get k id := by
  refine Option.ext fun f => ?_
  rw [h.get_rollForward hl hv]
  simp [hk]

theorem forward (ho : Orderly (.forward block :: es)) :
    Tracks (.forward block :: es) (s.rollForward cfg (block.map Entry.tx)) := by
  have hplain := fun tx htx => (hv.2.2.1 tx htx).1
  have hown := fun t : OwnTx cfg => hl.mem_own_forward (t := t) hv
  have hnodup := hv.2.2.2
  rw [map_append, nodup_append] at hnodup
  refine ⟨readEvents_scripted h.scripted _, fun id f => ?_, fun id f => ?_, fun id => ?_, fun id => ?_,
    fun id hid => mem_append_right _ (h.seen id hid), h.once, fun f hspent hexists => ?_⟩
  · rw [h.get_rollForward hl hv, h.confirmedAvailable, mem_payments hplain]
    simp only [true_and, forall_const, confirmed_forward, mem_append]
    constructor
    · rintro (⟨⟨tx, htx, hcreated⟩, rfl⟩ | ⟨-, rfl, ⟨tx, htx, hcreated⟩, hspent⟩)
      · exact ⟨rfl, ⟨tx, .inl htx, hcreated⟩, ho.2 tx htx f hcreated⟩
      · exact ⟨rfl, ⟨tx, .inr htx, hcreated⟩, hspent⟩
    · rintro ⟨rfl, ⟨tx, htx | htx, hcreated⟩, hspent⟩
      · exact .inl ⟨⟨tx, htx, hcreated⟩, rfl⟩
      · refine .inr ⟨fun hmem => ?_, rfl, ⟨tx, htx, hcreated⟩, hspent⟩
        obtain ⟨g, hg, heq⟩ := mem_map.1 hmem
        obtain ⟨tx', htx', hcreated'⟩ := (mem_payments hplain).1 hg
        refine hnodup.2.2 _ (mem_map_of_mem htx') _ (mem_map_of_mem htx) ?_
        show tx'.hash = tx.hash
        rw [← txHash_of_mem_created hcreated', heq, txHash_of_mem_created hcreated]
  · rw [h.get_rollForward_of_ne hl hv (by decide), h.predictedAvailable]
    simp only [hown]
    rfl
  · rw [h.get_rollForward_of_ne hl hv (by decide)]
    exact h.confirmedSpent id
  · rw [h.get_rollForward_of_ne hl hv (by decide)]
    exact h.predictedSpent id
  · have hold : Exists es f := by
      rcases hexists with ⟨t, ht, hcreated⟩ | ⟨tx, htx, hcreated⟩
      · exact .inl ⟨t, (hown t).1 ht, hcreated⟩
      · rcases mem_append.1 htx with htx | htx
        · exact absurd hspent (ho.2 tx htx f hcreated)
        · exact .inr ⟨tx, htx, hcreated⟩
    obtain ⟨t, ht, hid⟩ := h.kept f hspent hold
    exact ⟨t, (hown t).2 ht, hid⟩

end

theorem back (hb : (chain es).head? = some block) :
    Tracks (.back block :: es) (s.rollBackward cfg (block.map Entry.tx)) := by
  have hmem : ∀ e ∈ block, e ∈ confirmed es := by
    intro e he
    rw [confirmed_back hb]
    exact mem_append_left _ he
  have hplain : ∀ tx, Entry.payment tx ∈ block → tx.otherEvent = false := fun tx htx =>
    hl.plain tx (hmem _ htx)
  have hget : ∀ {k : BoxState} {id : OutputRef} {f : FundingBox},
      (s.rollBackward cfg (block.map Entry.tx)).repo.get k id = some f ↔
        s.repo.get k id = some f ∧
          (k = .confirmedAvailable → id ∉ (payments cfg (block.map Entry.tx).reverse).map FundingBox.id) := by
    intro k id f
    rw [rollBackward_repo h.scripted, ← get_foldl_delete, foldl_map]
    rfl
  have hget_of_ne : ∀ {k : BoxState} {id : OutputRef}, k ≠ .confirmedAvailable →
      (s.rollBackward cfg (block.map Entry.tx)).repo.get k id = s.repo.get k id := by
    intro k id hk
    refine Option.ext fun f => ?_
    rw [hget]
    simp [hk]
  have hnodup := hl.nodup
  rw [confirmed_back hb, map_append, nodup_append] at hnodup
  refine ⟨readEvents_scripted h.scripted _, fun id f => ?_, fun id f => ?_, fun id => ?_, fun id => ?_,
    h.seen, h.once, fun f hspent hexists => ?_⟩
  · rw [hget, h.confirmedAvailable]
    simp only [forall_const]
    constructor
    · rintro ⟨⟨rfl, ⟨tx, htx, hcreated⟩, hspent⟩, hid⟩
      refine ⟨rfl, ⟨tx, (hl.payment_back hb).2 ⟨htx, fun hblock => hid ?_⟩, hcreated⟩, hspent⟩
      exact mem_map_of_mem (mem_payments_reverse.2 ((mem_payments hplain).2 ⟨tx, hblock, hcreated⟩))
    · rintro ⟨rfl, ⟨tx, htx, hcreated⟩, hspent⟩
      refine ⟨⟨rfl, ⟨tx, ((hl.payment_back hb).1 htx).1, hcreated⟩, hspent⟩, fun hid => ?_⟩
      obtain ⟨g, hg, heq⟩ := mem_map.1 hid
      obtain ⟨tx', htx', hcreated'⟩ := (mem_payments hplain).1 (mem_payments_reverse.1 hg)
      refine hnodup.2.2 _ (mem_map_of_mem htx') _ (mem_map_of_mem htx) ?_
      show tx'.hash = tx.hash
      rw [← txHash_of_mem_created hcreated', heq, txHash_of_mem_created hcreated]
  · rw [hget_of_ne (by decide), h.predictedAvailable]
    simp only [mem_own_back hb]
    rfl
  · rw [hget_of_ne (by decide)]
    exact h.confirmedSpent id
  · rw [hget_of_ne (by decide)]
    exact h.predictedSpent id
  · have hold : Exists es f := by
      rcases hexists with ⟨t, ht, hcreated⟩ | ⟨tx, htx, hcreated⟩
      · exact .inl ⟨t, (mem_own_back hb).1 ht, hcreated⟩
      · exact .inr ⟨tx, ((hl.payment_back hb).1 htx).1, hcreated⟩
    obtain ⟨t, ht, hid⟩ := h.kept f hspent hold
    exact ⟨t, (mem_own_back hb).2 ht, hid⟩

/-! ### Dropped transactions -/

omit hl in
theorem get_dropped {s' : Bot} (hs' : s.dropped cfg t.tx = .ok s') :
    s'.repo.get k id = some f ↔
      s.repo.get k id = some f ∧ (k = .predictedAvailable → id ≠ t.change.id) := by
  rw [dropped_eq h.scripted] at hs'
  cases hs'
  rw [get_foldl_delete, t.created_eq]
  simp

theorem drop (ht : t ∈ pending es) (ho : ∀ f, f.id ∈ t.spent → ¬ Exists (.drop t :: es) f) :
    ∃ s', step s (.drop t) = .ok s' ∧ Tracks (.drop t :: es) s' := by
  refine ⟨_, dropped_eq h.scripted t.tx, ?_⟩
  have hget := fun (k : BoxState) (id : OutputRef) (f : FundingBox) =>
    show _ ↔ s.repo.get k id = some f ∧ (k = .predictedAvailable → id ≠ t.change.id) from
      h.get_dropped (dropped_eq h.scripted t.tx)
  have hown : ∀ t' : OwnTx cfg, t' ∈ own (.drop t :: es) ↔ t' ∈ own es ∧ t' ≠ t := fun _ =>
    hl.mem_own_drop ht
  have hsubmitted := hl.own_submitted t (mem_own.2 (.inl ht))
  refine ⟨h.scripted, fun id f => ?_, fun id f => ?_, fun id => ?_, fun id => ?_, h.seen, h.once,
    fun f hspent hexists => ?_⟩
  · rw [hget, and_iff_left (by simp)]
    exact h.confirmedAvailable id f
  · rw [hget, h.predictedAvailable]
    simp only [forall_const, hown]
    constructor
    · rintro ⟨⟨rfl, ⟨t', ht', hcreated⟩, hspent⟩, hne⟩
      refine ⟨rfl, ⟨t', ⟨ht', ?_⟩, hcreated⟩, hspent⟩
      rintro rfl
      exact hne (congrArg FundingBox.id (mem_created_own.1 hcreated))
    · rintro ⟨rfl, ⟨t', ⟨ht', hne⟩, hcreated⟩, hspent⟩
      refine ⟨⟨rfl, ⟨t', ht', hcreated⟩, hspent⟩, fun heq => hne ?_⟩
      have hhash := txHash_of_mem_created hcreated
      rw [heq, txHash_change] at hhash
      exact (hl.submitted_inj t hsubmitted t' (hl.own_submitted t' ht') hhash).symm
  · refine Iff.trans ?_ (h.confirmedSpent id)
    rw [Option.isSome_iff_exists, Option.isSome_iff_exists]
    simp only [hget, reduceCtorEq, false_implies, and_true]
  · refine Iff.trans ?_ (h.predictedSpent id)
    rw [Option.isSome_iff_exists, Option.isSome_iff_exists]
    simp only [hget, reduceCtorEq, false_implies, and_true]
  · have hold : Exists es f := by
      rcases hexists with ⟨t', ht', hcreated⟩ | hpaid
      · exact .inl ⟨t', ((hown t').1 ht').1, hcreated⟩
      · exact .inr hpaid
    obtain ⟨t', ht', hid⟩ := h.kept f hspent hold
    refine ⟨t', (hown t').2 ⟨ht', ?_⟩, hid⟩
    rintro rfl
    exact ho f hid hexists

/-! ### Steps that are not orderly -/

/-- A payment that comes back after its box was spent leaves two records. -/
theorem not_exact_forward (hv : Valid (.forward block :: es)) (htx : Entry.payment tx ∈ block)
    (hf : f ∈ tx.created cfg) (hspent : SpentEver es f.id) :
    ¬ Exact (.forward block :: es) (s.rollForward cfg (block.map Entry.tx)) := by
  intro hexact
  have hplain := fun tx htx => (hv.2.2.1 tx htx).1
  have hoffered : (s.rollForward cfg (block.map Entry.tx)).repo.get .confirmedAvailable f.id = some f :=
    (h.get_rollForward hl hv).2 (.inl ⟨rfl, (mem_payments hplain).2 ⟨tx, htx, hf⟩, rfl⟩)
  have hrecorded :
      ((s.rollForward cfg (block.map Entry.tx)).repo.get .confirmedSpent f.id).isSome := by
    rw [h.get_rollForward_of_ne hl hv (by decide), h.confirmedSpent]
    refine ⟨hspent, fun t ht heq => (hv.2.2.1 tx htx).2.1 t ht ?_⟩
    exact heq.trans (txHash_of_mem_created hf)
  cases hexact.one f.id _ _ (Option.isSome_iff_exists.2 ⟨f, hoffered⟩) hrecorded

/-- A box that a dropped transaction spent is not offered again. -/
theorem not_exact_drop (ht : t ∈ pending es) (hid : f.id ∈ t.spent)
    (hexists : Exists (.drop t :: es) f) {s' : Bot} (hs' : s.dropped cfg t.tx = .ok s') :
    ¬ Exact (.drop t :: es) s' := by
  intro hexact
  have hsubmitted := hl.own_submitted t (mem_own.2 (.inl ht))
  have havailable : Available (.drop t :: es) f := by
    refine ⟨hexists, fun t' ht' hid' => ?_⟩
    obtain ⟨ht', hne⟩ := (hl.mem_own_drop ht).1 ht'
    exact hne (h.once t' (hl.own_submitted t' ht') t hsubmitted f.id hid' hid)
  have hspent : SpentEver es f.id := ⟨t, hsubmitted, hid⟩
  rcases mem_append.1 ((hexact.offered f).2 havailable) with hf | hf
  · obtain ⟨id, hget⟩ := mem_values_iff.1 hf
    obtain ⟨rfl, -, hunspent⟩ := (h.confirmedAvailable id f).1 ((h.get_dropped hs').1 hget).1
    exact hunspent hspent
  · obtain ⟨id, hget⟩ := mem_values_iff.1 hf
    obtain ⟨rfl, -, hunspent⟩ := (h.predictedAvailable id f).1 ((h.get_dropped hs').1 hget).1
    exact hunspent hspent

end

end Tracks

/-! ## Runs -/

theorem below_cons {e : Step cfg} (hv : Valid (e :: es)) (ho : Orderly (e :: es)) :
    Valid es ∧ Orderly es := by
  cases e with
  | submit t => exact ⟨hv.1, ho⟩
  | forward block => exact ⟨hv.1, ho.1⟩
  | back block => exact ⟨hv.1, ho⟩
  | drop t => exact ⟨hv.1, ho.1⟩

theorem below {es' : List (Step cfg)} (hv : Valid es) (ho : Orderly es) (h : es' <:+ es) :
    Valid es' ∧ Orderly es' := by
  induction es with
  | nil =>
    obtain rfl := suffix_nil.1 h
    exact ⟨hv, ho⟩
  | cons e es ih =>
    rcases suffix_cons_iff.1 h with rfl | h
    · exact ⟨hv, ho⟩
    · exact ih (below_cons hv ho).1 (below_cons hv ho).2 h

/-- An orderly run does not panic, and the tables track it. -/
theorem exists_tracks (hv : Valid es) (ho : Orderly es) : ∃ s, run es = .ok s ∧ Tracks es s := by
  induction es with
  | nil => exact ⟨_, rfl, .init⟩
  | cons e es ih =>
    obtain ⟨s, hs, htracks⟩ := ih (below_cons hv ho).1 (below_cons hv ho).2
    have hl := ledger_of_valid (below_cons hv ho).1
    rw [run, hs]
    cases e with
    | submit t =>
      obtain ⟨-, hfresh, s₀, hs₀, hsel⟩ := hv
      cases hs.symm.trans hs₀
      exact htracks.submit hl hfresh hsel
    | forward block => exact ⟨_, rfl, htracks.forward hl hv ho⟩
    | back block => exact ⟨_, rfl, htracks.back hl hv.2⟩
    | drop t => exact htracks.drop hl hv.2 ho.2

/-- **The repository is exact at every point of a run just when every dropped transaction had spent
only boxes that do not exist any more, and no payment is confirmed again whose box was spent.** -/
theorem exact_iff_orderly (hv : Valid es) :
    (∀ es', es' <:+ es → ∃ s, run es' = .ok s ∧ Exact es' s) ↔ Orderly es := by
  constructor
  · intro h
    induction es with
    | nil => trivial
    | cons e es ih =>
      have hsuffix := fun es' (hes : es' <:+ es) => h es' (hes.trans (suffix_cons _ _))
      obtain ⟨s', hs', hexact⟩ := h _ suffix_rfl
      obtain ⟨s, hs, hstep⟩ := Exec.bind_eq_ok.1 hs'
      cases e with
      | submit t => exact ih hv.1 hsuffix
      | back block => exact ih hv.1 hsuffix
      | forward block =>
        have ho := ih hv.1 hsuffix
        obtain ⟨s₀, hs₀, htracks⟩ := exists_tracks hv.1 ho
        cases hs.symm.trans hs₀
        cases hstep
        refine ⟨ho, fun tx htx f hf hspent => ?_⟩
        exact htracks.not_exact_forward (ledger_of_valid hv.1) hv htx hf hspent hexact
      | drop t =>
        have ho := ih hv.1 hsuffix
        obtain ⟨s₀, hs₀, htracks⟩ := exists_tracks hv.1 ho
        cases hs.symm.trans hs₀
        refine ⟨ho, fun f hid hexists => ?_⟩
        exact htracks.not_exact_drop (ledger_of_valid hv.1) hv.2 hid hexists hstep hexact
  · intro ho es' hes
    have hbelow := below hv ho hes
    obtain ⟨s, hs, htracks⟩ := exists_tracks hbelow.1 hbelow.2
    exact ⟨s, hs, htracks.exact (ledger_of_valid hbelow.1)⟩

def sampleSetup : Setup where
  network := 1
  payment := Cardano.Bytes.replicate 28 1
  stake := Cardano.Bytes.replicate 28 2
  utxoFilter := []
  isHarvestOrder _ := false
  isGauge _ := false
  isBufferWallet _ := false
  isGauge_script := nofun
  isBufferWallet_script := nofun

def sampleValue (coin : ℕ) : Cardano.Value := ⟨coin, fun _ => none⟩

def sampleOutput (coin : ℕ) : Cardano.TransactionOutput :=
  ⟨sampleSetup.fundingAddress, sampleValue coin, none, none⟩

/-- Three ada are paid to the funding address. -/
def samplePayment : Tx := ⟨1, [], [sampleOutput 3000000], false⟩

/-- The box of the payment is spent, with a change of two and a half ada. -/
def sampleOwn : OwnTx sampleSetup where
  tx := ⟨2, [toLex (1, 0)], [sampleOutput 2500000], true⟩
  spentPredicted := []
  spentConfirmed := [toLex (1, 0)]
  change := ⟨sampleValue 2500000, toLex (2, 0)⟩
  otherEvent_eq := rfl
  created_eq := by simp [Tx.created, fundingBox, sampleOutput, Tx.outputRef]
  spends := by simp

def sampleSubmitted : List (Step sampleSetup) := [.submit sampleOwn, .forward [.payment samplePayment]]

theorem valid_samplePayment : Valid ([.forward [.payment samplePayment]] : List (Step sampleSetup)) := by
  refine ⟨trivial, fun t ht => ?_, fun tx htx => ?_, ?_⟩
  · simp at ht
  · obtain rfl : tx = samplePayment := by simpa using htx
    refine ⟨rfl, nofun, fun f _ hmem => ?_⟩
    cases hmem
  · simp [confirmed, chain]

theorem valid_sampleSubmitted : Valid sampleSubmitted := by
  refine ⟨valid_samplePayment, ?_, _, rfl, ?_⟩
  · show (2 : ℕ) ∉ [1]
    decide
  · rfl

/-- **The box that a dropped transaction spent exists and is not offered any more.** -/
theorem sampleDropped_loses_box :
    Valid (.drop sampleOwn :: sampleSubmitted) ∧
    Available (.drop sampleOwn :: sampleSubmitted) ⟨sampleValue 3000000, toLex (1, 0)⟩ ∧
    ∃ s, run (.drop sampleOwn :: sampleSubmitted) = .ok s ∧
      s.repo.collect.confirmed = [] ∧ s.repo.collect.predicted = [] ∧
      ¬ Exact (.drop sampleOwn :: sampleSubmitted) s := by
  have havailable :
      Available (.drop sampleOwn :: sampleSubmitted) ⟨sampleValue 3000000, toLex (1, 0)⟩ := by
    refine ⟨.inr ⟨samplePayment, mem_singleton_self _, ?_⟩, fun t ht => ?_⟩
    · simp [Tx.created, fundingBox, samplePayment, sampleOutput, Tx.outputRef]
    · have hnone : own (.drop sampleOwn :: sampleSubmitted) = [] := rfl
      rw [hnone] at ht
      cases ht
  refine ⟨⟨valid_sampleSubmitted, mem_singleton_self _⟩, havailable, _, rfl, rfl, rfl,
    fun hexact => ?_⟩
  have hoffered := (hexact.offered _).2 havailable
  cases hoffered

def sampleRolledBack : List (Step sampleSetup) :=
  .back [.own sampleOwn] :: .forward [.own sampleOwn] :: sampleSubmitted

theorem valid_sampleRolledBack : Valid sampleRolledBack := by
  refine ⟨⟨valid_sampleSubmitted, fun t ht => ?_, fun tx htx => ?_, ?_⟩, rfl⟩
  · obtain rfl : t = sampleOwn := by simpa using ht
    exact mem_singleton_self _
  · simp at htx
  · show [2, 1].Nodup
    decide

theorem sampleRolledBack_exact : Valid sampleRolledBack ∧
    ∃ s, run sampleRolledBack = .ok s ∧ Exact sampleRolledBack s := by
  refine ⟨valid_sampleRolledBack,
    (exact_iff_orderly valid_sampleRolledBack).2 ⟨⟨trivial, ?_⟩, ?_⟩ _ suffix_rfl⟩
  · rintro tx - f - ⟨t, ht, -⟩
    cases ht
  · intro tx htx
    simp at htx

end Splash.Rewards.Funding
