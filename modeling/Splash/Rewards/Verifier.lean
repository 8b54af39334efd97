import Splash.Data.CircularFilter
import Splash.Rewards.Graph

/-!
# The verifier along the chain

The verifier follows the blocks of the chain: reward transactions are confirmed and rolled back with
their blocks, and the users that have harvested are forgotten at the end of an epoch. In between it
cosigns harvests.

* `run` — the verifier after some blocks, rollbacks and requests.
* `confirmRewardTx_spec` — what the confirmation of a transaction does.
* `follows_iff` — the verifier follows the chain just when no block with a reward transaction is
  rolled back, and no more blocks than it remembers.
-/

set_option linter.unusedSectionVars false

namespace Splash.Rewards.Cosign

open Lib Data List Option

variable {H U : Type} [DecidableEq H] [DecidableEq U]

/-! ## The verifier -/

structure Verifier (H U : Type) where
  graph : ChainedRewardTxGraph H U
  blockSlotBuffer : CircularFilter 100 ℕ

structure Block (H : Type) where
  slot : ℕ
  txs : List H

namespace Verifier

def new (zero : H) : Verifier H U := ⟨.new zero, .new⟩

variable (txs : RewardTxs H U) (epochOf : ℕ → ℕ)

variable (v : Verifier H U)

def getCurrentSlot : Option ℕ := v.blockSlotBuffer.back

def confirmHarvestTx (txHash : H) (users : List U) :
    Exec (Verifier H U) :=
  (v.graph.confirmTx txHash users.toFinset).map fun r => { v with graph := r.2 }

def confirmGaugeBufferingTx (txHash : H) : Exec (Verifier H U) :=
  v.graph.confirmTx txHash ∅ >>= fun r =>
    if r.1 then .error (.explicit "assertion failed: !confirm_tx") else .ok { v with graph := r.2 }

def rollbackHarvestTx (txHash : H) (users : List U) :
    Exec (Verifier H U) :=
  (v.graph.rollback users.toFinset txHash).map fun g => { v with graph := g }

def rollbackGaugeBufferingTx (txHash : H) :
    Exec (Verifier H U) :=
  (v.graph.rollback ∅ txHash).map fun g => { v with graph := g }

def confirmBlockSlot (slot : ℕ) : Verifier H U where
  graph := v.getCurrentSlot.elim v.graph fun current =>
    if epochOf current < epochOf slot then v.graph.notifyEndOfEpoch else v.graph
  blockSlotBuffer := (v.blockSlotBuffer.add slot).1

def rollbackBlockSlot (slot : ℕ) : Exec (Verifier H U) :=
  Exec.expect "Block slot buffer is empty" v.blockSlotBuffer.popBack.1 >>= fun rolledBack =>
    if rolledBack = slot then .ok { v with blockSlotBuffer := v.blockSlotBuffer.popBack.2 }
    else .error (.explicit "Rolled back block slot != confirmed block slot")

def confirmRewardTx (h : H) : Exec (Verifier H U) :=
  (txs.harvest h).elim (v.confirmGaugeBufferingTx h) (v.confirmHarvestTx h)

def rollbackRewardTx (h : H) : Exec (Verifier H U) :=
  (txs.harvest h).elim (v.rollbackGaugeBufferingTx h) (v.rollbackHarvestTx h)

def rollForward (block : Block H) : Exec (Verifier H U) :=
  block.txs.foldlM (confirmRewardTx txs) (v.confirmBlockSlot epochOf block.slot)

def rollBackward (block : Block H) : Exec (Verifier H U) :=
  v.rollbackBlockSlot block.slot >>= fun v' => block.txs.reverse.foldlM (rollbackRewardTx txs) v'

/-- A request for a harvest that passes the other checks; without a block nothing is cosigned. -/
def cosign (ix : ℕ) (h : H) : Verifier H U :=
  v.getCurrentSlot.elim v fun _ =>
    { v with graph := (v.graph.tryAddTx ix (txs.spends h) h (txs.creds h)).2 }

end Verifier

/-! ## Runs -/

inductive Step (H : Type) where
  | forward (block : Block H)
  | backward (block : Block H)
  | cosign (ix : ℕ) (h : H)

section Runs

variable (txs : RewardTxs H U) (epochOf : ℕ → ℕ) (zero : H)

def step (v : Verifier H U) : Step H → Exec (Verifier H U)
  | .forward block => v.rollForward txs epochOf block
  | .backward block => v.rollBackward txs block
  | .cosign ix h => .ok (v.cosign txs ix h)

def run : List (Step H) → Exec (Verifier H U)
  | [] => .ok (.new zero)
  | e :: es => run es >>= fun v => step txs epochOf v e

end Runs

def chain : List (Step H) → List (Block H)
  | [] => []
  | .forward block :: es => block :: chain es
  | .backward _ :: es => (chain es).tail
  | .cosign _ _ :: es => chain es

def tip (zero : H) : List (Block H) → H
  | [] => zero
  | block :: blocks => block.txs.getLast?.getD (tip zero blocks)

/-- Every transaction spends the buffer wallet output of the one before it. -/
def Linked (txs : RewardTxs H U) : H → List H → Prop
  | _, [] => True
  | last, h :: hs => txs.spends h = last ∧ txs.spends h ≠ h ∧ Linked txs h hs

/-- The blocks are those of a chain, only the last one is rolled back, and requests are about
harvests and get a new node. -/
def Valid (txs : RewardTxs H U) (epochOf : ℕ → ℕ) (zero : H) : List (Step H) → Prop
  | [] => True
  | .forward block :: es => Valid txs epochOf zero es ∧ (∀ b ∈ chain es, b.slot < block.slot) ∧
      Linked txs (tip zero (chain es)) block.txs
  | .backward block :: es => Valid txs epochOf zero es ∧ (chain es).head? = some block
  | .cosign ix h :: es => Valid txs epochOf zero es ∧ txs.spends h ≠ h ∧
      (txs.harvest h).isSome = true ∧
      ∀ v, run txs epochOf zero es = .ok v → v.graph.gr.nodes.get? ix = none

/-- How many blocks the verifier remembers. -/
def kept : List (Step H) → ℕ
  | [] => 0
  | .forward _ :: es => min 100 (kept es + 1)
  | .backward _ :: es => kept es - 1
  | .cosign _ _ :: es => kept es

/-! ## Confirmations and rollbacks -/

section

variable {txs : RewardTxs H U} {v : Verifier H U} {h last : H}

theorem Sound.fresh_of_tracks {g : ChainedRewardTxGraph H U} (hg : Sound txs g)
    (htracks : g.Tracks h) {l : List H} (hl : txs.Path g.lastConfirmedBufferWalletTxHash h l) :
    l.Pairwise (fun h h' => Disjoint (txs.creds h) (txs.creds h')) ∧
      ∀ h ∈ l, Disjoint (txs.creds h) g.lastConfirmedUserHarvests := by
  obtain ⟨n, data, hget, rfl⟩ := htracks
  exact hg.fresh n data l hget hl

theorem creds_eq_of_harvest {users : List U} (hh : txs.harvest h = some users) :
    txs.creds h = users.toFinset := by
  unfold RewardTxs.creds RewardTxs.accounts
  rw [hh]
  rfl

theorem creds_eq_of_buffering (hh : txs.harvest h = none) : txs.creds h = ∅ := by
  unfold RewardTxs.creds RewardTxs.accounts
  rw [hh]
  rfl

/-- What a confirmation leaves of the graph: a tracked transaction adds its users and keeps what
descends from it, any other one replaces the users and clears the graph. -/
inductive Confirms (txs : RewardTxs H U) (g : ChainedRewardTxGraph H U) (h : H)
    (g' : ChainedRewardTxGraph H U) : Prop where
  | own (htracks : g.Tracks h)
      (husers : g'.lastConfirmedUserHarvests = g.lastConfirmedUserHarvests ∪ txs.creds h)
  | foreign (hno : ¬ g.Tracks h) (husers : g'.lastConfirmedUserHarvests = txs.creds h)
      (hclear : ∀ x, ¬ g'.Tracks x)

theorem not_tracks_empty (users : Finset U) (x : H) :
    ¬ (⟨.empty, users, last⟩ : ChainedRewardTxGraph H U).Tracks x := by
  rintro ⟨n, data, hget, -⟩
  cases hget

/-- **A confirmation** of a transaction that follows the chain. -/
theorem confirmRewardTx_spec (hg : Sound txs v.graph)
    (hharvests : ∀ x, v.graph.Tracks x → (txs.harvest x).isSome = true)
    (hahead : v.graph.lastConfirmedBufferWalletTxHash = txs.spends h ∨
      txs.height (txs.spends h) < txs.height v.graph.lastConfirmedBufferWalletTxHash) :
    ∃ g', v.confirmRewardTx txs h = .ok { v with graph := g' } ∧ Sound txs g' ∧
      g'.lastConfirmedBufferWalletTxHash = h ∧ (∀ x, g'.Tracks x → v.graph.Tracks x) ∧
      Confirms txs v.graph h g' := by
  by_cases htracks : v.graph.Tracks h
  · have hroots : ∀ n d, v.graph.gr.nodes.get? n = some d → d.txHash = h →
        v.graph.gr.incoming.get? n = none := by
      intro n d hget hhash
      by_contra hsome
      obtain ⟨p, hp⟩ := Option.ne_none_iff_exists'.1 hsome
      obtain ⟨child, parent, hchild, hparent, hspends⟩ := hg.edge n p hp
      cases hget.symm.trans hchild
      have hlt := hg.height_lt hparent
      rw [← hspends, hhash] at hlt
      rcases hahead with heq | hgt
      · exact hlt.ne (congrArg _ heq)
      · exact hlt.asymm hgt
    obtain ⟨ix, root, hix, rfl, hroot, hconfirm⟩ := hg.confirmTx htracks hroots
    obtain ⟨users, husers⟩ := Option.isSome_iff_exists.1 (hharvests _ htracks)
    have hcreds := (hg.node ix root hix).1
    have hsound := hg.prune hix hroot
    rw [hcreds] at hsound
    have hold : ∀ x, (⟨ChainedRewardTxGraph.prune v.graph.gr ix,
        v.graph.lastConfirmedUserHarvests ∪ txs.creds root.txHash, root.txHash⟩ :
        ChainedRewardTxGraph H U).Tracks x → v.graph.Tracks x := by
      rintro x ⟨n, d, hget, hhash⟩
      exact ⟨n, d, (hg.get?_prune hroot hget).2.1, hhash⟩
    refine ⟨_, ?_, hsound, rfl, hold, .own htracks rfl⟩
    unfold Verifier.confirmRewardTx Verifier.confirmHarvestTx
    rw [husers, elim_some, ← creds_eq_of_harvest husers, hconfirm]
    rfl
  · refine ⟨⟨.empty, txs.creds h, h⟩, ?_, sound_of_empty _ _ _, rfl, ?_, .foreign htracks rfl ?_⟩
    · have hconfirm := ChainedRewardTxGraph.confirmTx_of_not_tracks htracks (txs.creds h)
      unfold Verifier.confirmRewardTx
      cases hh : txs.harvest h with
      | none =>
        rw [creds_eq_of_buffering hh] at hconfirm ⊢
        unfold Verifier.confirmGaugeBufferingTx
        rw [elim_none, hconfirm]
        rfl
      | some users =>
        rw [creds_eq_of_harvest hh] at hconfirm ⊢
        unfold Verifier.confirmHarvestTx
        rw [elim_some, hconfirm]
        rfl
    · exact fun x hx => absurd hx (not_tracks_empty _ x)
    · exact not_tracks_empty _

theorem rollbackRewardTx_eq :
    v.rollbackRewardTx txs h =
      (v.graph.rollback (txs.creds h) h).map fun g => { v with graph := g } := by
  unfold Verifier.rollbackRewardTx
  cases hh : txs.harvest h with
  | none =>
    rw [creds_eq_of_buffering hh]
    rfl
  | some users =>
    rw [creds_eq_of_harvest hh]
    rfl

end

/-! ## Invariant -/

/-- What holds in every run. The last transaction the verifier knows is that of the chain or, after
a rollback, comes after it. -/
structure Inv (txs : RewardTxs H U) (v : Verifier H U) (last : H) : Prop where
  sound : Sound txs v.graph
  harvests : ∀ x, v.graph.Tracks x → (txs.harvest x).isSome = true
  ahead : v.graph.lastConfirmedBufferWalletTxHash = last ∨
    txs.height last < txs.height v.graph.lastConfirmedBufferWalletTxHash

namespace Inv

variable {txs : RewardTxs H U} {v : Verifier H U} {h last : H}

theorem new (txs : RewardTxs H U) (zero : H) : Inv txs (.new zero) zero where
  sound := sound_of_empty _ _ _
  harvests := fun x hx => absurd hx (not_tracks_empty _ x)
  ahead := .inl rfl

section

variable (hv : Inv txs v last)
include hv

theorem confirm (hspends : txs.spends h = last) :
    ∃ g', v.confirmRewardTx txs h = .ok { v with graph := g' } ∧ Inv txs { v with graph := g' } h ∧
      g'.lastConfirmedBufferWalletTxHash = h ∧ (∀ x, g'.Tracks x → v.graph.Tracks x) ∧
      Confirms txs v.graph h g' := by
  obtain ⟨g', hrun, hsound, hlast, hold, hconfirms⟩ :=
    confirmRewardTx_spec hv.sound hv.harvests (hspends ▸ hv.ahead)
  exact ⟨g', hrun, ⟨hsound, fun x hx => hv.harvests x (hold x hx), .inl hlast⟩, hlast, hold,
    hconfirms⟩

theorem confirmAll {hs : List H} (hlinked : Linked txs last hs) :
    ∃ v', hs.foldlM (Verifier.confirmRewardTx txs) v = .ok v' ∧
      Inv txs v' (hs.getLast?.getD last) ∧ v'.blockSlotBuffer = v.blockSlotBuffer ∧
      (v.graph.lastConfirmedBufferWalletTxHash = last →
        v'.graph.lastConfirmedBufferWalletTxHash = hs.getLast?.getD last) := by
  induction hs generalizing v last with
  | nil => exact ⟨v, rfl, hv, rfl, fun h => h⟩
  | cons h hs ih =>
    obtain ⟨hspends, -, hlinked⟩ := hlinked
    obtain ⟨g', hrun, hv', hlast, -⟩ := hv.confirm hspends
    obtain ⟨v'', hrest, hv'', hslots, hlast'⟩ := ih hv' hlinked
    rw [List.getLast?_cons, getD_some]
    refine ⟨v'', ?_, hv'', hslots, fun _ => hlast' hlast⟩
    rw [foldlM_cons, hrun]
    exact hrest

theorem confirmBlockSlot (epochOf : ℕ → ℕ) (slot : ℕ) :
    Inv txs (v.confirmBlockSlot epochOf slot) last ∧
      (v.confirmBlockSlot epochOf slot).graph.lastConfirmedBufferWalletTxHash =
        v.graph.lastConfirmedBufferWalletTxHash := by
  have hsame : Inv txs ⟨v.graph, (v.blockSlotBuffer.add slot).1⟩ last :=
    ⟨hv.sound, hv.harvests, hv.ahead⟩
  have hclear : Inv txs ⟨v.graph.notifyEndOfEpoch, (v.blockSlotBuffer.add slot).1⟩ last :=
    ⟨sound_of_empty _ _ _, fun x hx => absurd hx (not_tracks_empty _ x), hv.ahead⟩
  unfold Verifier.confirmBlockSlot
  cases v.getCurrentSlot with
  | none => exact ⟨hsame, rfl⟩
  | some current =>
    rw [elim_some]
    split
    · exact ⟨hclear, rfl⟩
    · exact ⟨hsame, rfl⟩

theorem cosign_cases {ix : ℕ} (hproper : txs.spends h ≠ h)
    (hharvest : (txs.harvest h).isSome = true) (hix : v.graph.gr.nodes.get? ix = none) :
    v.cosign txs ix h = v ∨
      ∃ gr, v.cosign txs ix h = { v with graph := { v.graph with gr } } ∧
        Inv txs (v.cosign txs ix h) last ∧
        (v.graph.tryAddTx ix (txs.spends h) h (txs.creds h)).1 = true ∧
        ∀ x, (v.cosign txs ix h).graph.Tracks x ↔ x = h ∨ v.graph.Tracks x := by
  unfold Verifier.cosign
  cases v.getCurrentSlot with
  | none => exact .inl rfl
  | some current =>
    rw [elim_some]
    rcases hv.sound.tryAddTx hix hproper with hno | ⟨gr, hadd, hsound, hnodes⟩
    · rw [hno]
      exact .inl rfl
    · rw [hadd]
      have htracks : ∀ x, ({ v.graph with gr } : ChainedRewardTxGraph H U).Tracks x ↔
          x = h ∨ v.graph.Tracks x := by
        intro x
        unfold ChainedRewardTxGraph.Tracks
        rw [hnodes]
        constructor
        · rintro ⟨n, d, hget, rfl⟩
          rw [OrdMap.get?_insert] at hget
          split at hget
          · exact .inl (congrArg NodeData.txHash (Option.some.inj hget)).symm
          · exact .inr ⟨n, d, hget, rfl⟩
        · rintro (rfl | ⟨n, d, hget, hhash⟩)
          · exact ⟨ix, _, by rw [OrdMap.get?_insert, if_pos rfl], rfl⟩
          · refine ⟨n, d, ?_, hhash⟩
            rw [OrdMap.get?_insert, if_neg, hget]
            rintro rfl
            exact some_ne_none d (hget.symm.trans hix)
      refine .inr ⟨gr, rfl, ⟨hsound, fun x hx => ?_, hv.ahead⟩, rfl, htracks⟩
      rcases (htracks x).1 hx with rfl | hx
      · exact hharvest
      · exact hv.harvests x hx

theorem cosign {ix : ℕ} (hproper : txs.spends h ≠ h) (hharvest : (txs.harvest h).isSome = true)
    (hix : v.graph.gr.nodes.get? ix = none) :
    Inv txs (v.cosign txs ix h) last ∧
      (v.cosign txs ix h).graph.lastConfirmedBufferWalletTxHash =
        v.graph.lastConfirmedBufferWalletTxHash ∧
      (v.cosign txs ix h).blockSlotBuffer = v.blockSlotBuffer := by
  rcases hv.cosign_cases hproper hharvest hix with heq | ⟨gr, heq, hinv, -⟩
  · rw [heq]
    exact ⟨hv, rfl, rfl⟩
  · refine ⟨hinv, ?_⟩
    rw [heq]
    exact ⟨rfl, rfl⟩

end

end Inv

/-! ## Following the chain -/

section

variable (txs : RewardTxs H U) (epochOf : ℕ → ℕ) (zero : H)

/-- No assertion has failed, the last confirmed transaction is that of the chain, and accepted are
the transactions that spend it or a tracked descendant of it and whose users have not harvested. -/
def Follows (es : List (Step H)) : Prop :=
  ∃ v, run txs epochOf zero es = .ok v ∧
    v.graph.lastConfirmedBufferWalletTxHash = tip zero (chain es) ∧
    ∀ ix input h creds, (v.graph.tryAddTx ix input h creds).1 = true ↔
      Disjoint creds v.graph.lastConfirmedUserHarvests ∧
        (input = tip zero (chain es) ∨ v.graph.Tracks input ∧
          ∃ l, txs.Path (tip zero (chain es)) input l ∧ ∀ x ∈ l, Disjoint (txs.creds x) creds)

end

/-- Only blocks without reward transactions are rolled back, and no more than are remembered. -/
def Calm : List (Step H) → Prop
  | [] => True
  | .forward _ :: es => Calm es
  | .backward block :: es => Calm es ∧ block.txs = [] ∧ 0 < kept es
  | .cosign _ _ :: es => Calm es

section

variable {txs : RewardTxs H U} {epochOf : ℕ → ℕ} {zero : H} {v : Verifier H U}
  {es : List (Step H)}

theorem Valid.tail {e : Step H} (h : Valid txs epochOf zero (e :: es)) :
    Valid txs epochOf zero es := by
  cases e with
  | forward => exact h.1
  | backward => exact h.1
  | cosign => exact h.1

/-- Every block of the chain comes after those below it, and spends their last transaction. -/
theorem Valid.block (hvalid : Valid txs epochOf zero es) {l rest : List (Block H)}
    {block : Block H} (hchain : chain es = l ++ block :: rest) :
    (∀ b ∈ rest, b.slot < block.slot) ∧ Linked txs (tip zero rest) block.txs := by
  induction es generalizing l with
  | nil => exact absurd hchain (by simp [chain])
  | cons e es ih =>
    cases e with
    | forward b =>
      cases l with
      | nil =>
        obtain ⟨rfl, rfl⟩ := List.cons.inj hchain
        exact hvalid.2
      | cons b' l => exact ih hvalid.1 (List.cons.inj hchain).2
    | backward b =>
      obtain ⟨hes, hhead⟩ := hvalid
      obtain ⟨below, hbelow⟩ := List.head?_eq_some_iff.1 hhead
      have htail : below = l ++ block :: rest := by
        rw [← hchain]
        show _ = (chain es).tail
        rw [hbelow, tail_cons]
      exact ih hes (l := b :: l) (hbelow.trans (by rw [htail]; rfl))
    | cosign => exact ih hvalid.1 hchain

theorem rollbackBlockSlot_zero {slots : List ℕ} (hrecent : v.blockSlotBuffer.Recent slots 0)
    (slot : ℕ) (v' : Verifier H U) : v.rollbackBlockSlot slot ≠ .ok v' := by
  unfold Verifier.rollbackBlockSlot
  rw [hrecent.popBack_zero]
  exact fun h => nomatch h

theorem rollbackBlockSlot_succ {slot k : ℕ} {slots : List ℕ}
    (hrecent : v.blockSlotBuffer.Recent (slot :: slots) (k + 1)) :
    ∃ buffer : CircularFilter 100 ℕ, buffer.Recent slots k ∧
      v.rollbackBlockSlot slot = .ok { v with blockSlotBuffer := buffer } := by
  obtain ⟨hpop, hrest⟩ := hrecent.popBack_succ
  refine ⟨_, hrest, ?_⟩
  unfold Verifier.rollbackBlockSlot
  rw [hpop]
  exact if_pos rfl

/-- After a rollback the verifier takes the transaction rolled back for the last one. -/
theorem last_of_rollback {h : H} {hs : List H} {v' : Verifier H U}
    (hrun : (h :: hs).reverse.foldlM (Verifier.rollbackRewardTx txs) v = .ok v') :
    v'.graph.lastConfirmedBufferWalletTxHash = h := by
  rw [reverse_cons, foldlM_append] at hrun
  obtain ⟨v₁, -, hlast⟩ := Exec.bind_eq_ok.1 hrun
  rw [foldlM_cons] at hlast
  obtain ⟨v₂, hroll, hnil⟩ := Exec.bind_eq_ok.1 hlast
  cases hnil
  rw [rollbackRewardTx_eq] at hroll
  unfold ChainedRewardTxGraph.rollback at hroll
  split at hroll
  · cases hroll
    rfl
  · cases hroll

section

variable (hvalid : Valid txs epochOf zero es)
include hvalid

theorem calm_run (hcalm : Calm es) :
    ∃ v, run txs epochOf zero es = .ok v ∧ Inv txs v (tip zero (chain es)) ∧
      v.graph.lastConfirmedBufferWalletTxHash = tip zero (chain es) ∧
      v.blockSlotBuffer.Recent ((chain es).map Block.slot) (kept es) := by
  induction es with
  | nil => exact ⟨_, rfl, .new txs zero, rfl, CircularFilter.tidy_new, rfl, le_rfl⟩
  | cons e es ih =>
    cases e with
    | forward block =>
      obtain ⟨hes, hslots, hlinked⟩ := hvalid
      obtain ⟨v, hrun, hinv, hlast, hrecent⟩ := ih hes hcalm
      obtain ⟨hinv₁, hlast₁⟩ := hinv.confirmBlockSlot epochOf block.slot
      obtain ⟨v', hrun', hinv', hslots', hlast'⟩ := hinv₁.confirmAll hlinked
      refine ⟨v', ?_, hinv', hlast' (hlast₁.trans hlast), ?_⟩
      · unfold run
        rw [hrun]
        exact hrun'
      · rw [hslots']
        refine hrecent.add (by decide) fun hin => ?_
        obtain ⟨b, hb, heq⟩ := mem_map.1 hin
        exact (hslots b hb).ne heq
    | backward block =>
      obtain ⟨hes, hhead⟩ := hvalid
      obtain ⟨hcalm, htxs, hkept⟩ := hcalm
      obtain ⟨v, hrun, hinv, hlast, hrecent⟩ := ih hes hcalm
      obtain ⟨below, hbelow⟩ := List.head?_eq_some_iff.1 hhead
      obtain ⟨k, hk⟩ : ∃ k, kept es = k + 1 := ⟨kept es - 1, by omega⟩
      rw [hbelow, map_cons, hk] at hrecent
      obtain ⟨buffer, hbuffer, hpop⟩ := rollbackBlockSlot_succ hrecent
      have htip : tip zero (chain es) = tip zero below := by
        rw [hbelow]
        show block.txs.getLast?.getD _ = _
        rw [htxs]
        rfl
      have hchain : chain (.backward block :: es) = below := by
        show (chain es).tail = below
        rw [hbelow, tail_cons]
      refine ⟨{ v with blockSlotBuffer := buffer }, ?_, ?_, ?_, ?_⟩
      · unfold run
        rw [hrun]
        show (v.rollbackBlockSlot block.slot >>= _) = _
        rw [hpop, htxs]
        rfl
      · rw [hchain, ← htip]
        exact ⟨hinv.sound, hinv.harvests, hinv.ahead⟩
      · rw [hchain, ← htip]
        exact hlast
      · rw [hchain]
        show buffer.Recent _ (kept es - 1)
        rw [hk]
        exact hbuffer
    | cosign ix h =>
      obtain ⟨hes, hproper, hharvest, hix⟩ := hvalid
      obtain ⟨v, hrun, hinv, hlast, hrecent⟩ := ih hes hcalm
      obtain ⟨hinv', hlast', hslots⟩ := hinv.cosign hproper hharvest (hix v hrun)
      refine ⟨v.cosign txs ix h, ?_, hinv', hlast'.trans hlast, ?_⟩
      · unfold run
        rw [hrun]
        rfl
      · rw [hslots]
        exact hrecent

/-- In a state of a calm run the verifier follows the chain. -/
theorem follows_of_calm (hcalm : Calm es) :
    Follows txs epochOf zero es := by
  obtain ⟨v, hrun, hinv, hlast, -⟩ := calm_run hvalid hcalm
  refine ⟨v, hrun, hlast, fun ix input h creds => ?_⟩
  rw [hinv.sound.tryAddTx_iff ix input h creds, hlast]
  refine and_congr_right fun _ => or_congr_right (and_congr_right ?_)
  rintro ⟨n, data, hget, rfl⟩
  obtain ⟨l, hl, -⟩ := hinv.sound.exists_path hget
  rw [hlast] at hl
  constructor
  · exact fun hall => ⟨l, hl, hall l hl⟩
  · rintro ⟨l', hl', hall⟩ l'' hl''
    exact hl'.unique hl'' ▸ hall

/-- **The verifier follows the chain** at all times just when only blocks without reward
transactions are rolled back, and no more than it remembers. -/
theorem follows_iff :
    (∀ es', es' <:+ es → Follows txs epochOf zero es') ↔ Calm es := by
  induction es with
  | nil =>
    refine iff_of_true (fun es' hes' => ?_) trivial
    obtain rfl := suffix_nil.1 hes'
    exact follows_of_calm trivial trivial
  | cons e es ih =>
    have hes := hvalid.tail
    constructor
    · intro hall
      have hcalm := (ih hes).1 fun es' hes' => hall es' (hes'.trans (suffix_cons e es))
      cases e with
      | forward => exact hcalm
      | cosign => exact hcalm
      | backward block =>
        obtain ⟨v', hrun', hlast', -⟩ := hall _ suffix_rfl
        obtain ⟨v, hrun, -, -, hrecent⟩ := calm_run hes hcalm
        obtain ⟨below, hbelow⟩ := List.head?_eq_some_iff.1 hvalid.2
        have hback : v.rollBackward txs block = .ok v' := by
          unfold run at hrun'
          rw [hrun] at hrun'
          exact hrun'
        obtain ⟨v₁, hpop, hroll⟩ := Exec.bind_eq_ok.1 hback
        refine ⟨hcalm, ?_, Nat.pos_of_ne_zero fun hzero => ?_⟩
        · by_contra hne
          obtain ⟨h, hs, htxs⟩ := exists_cons_of_ne_nil hne
          rw [htxs] at hroll
          have hlinked := (hes.block (l := []) hbelow).2
          rw [htxs] at hlinked
          obtain ⟨hspends, hproper, -⟩ := hlinked
          have hchain : chain (.backward block :: es) = below := by
            show (chain es).tail = below
            rw [hbelow, tail_cons]
          rw [hchain, last_of_rollback hroll, ← hspends] at hlast'
          exact hproper hlast'.symm
        · rw [hzero] at hrecent
          exact rollbackBlockSlot_zero hrecent _ _ hpop
    · intro hcalm es' hes'
      rcases suffix_cons_iff.1 hes' with rfl | hes'
      · exact follows_of_calm hvalid hcalm
      · refine (ih hes).2 ?_ es' hes'
        cases e with
        | forward => exact hcalm
        | backward => exact hcalm.1
        | cosign => exact hcalm

end

end

/-! ## Samples -/

/-- Transaction `n` spends the output of the one before it and harvests for user `n`. -/
def sampleTxs : RewardTxs ℕ ℕ where
  spends n := n - 1
  harvest n := some [n]
  height := id
  height_spends n hn := lt_of_le_of_ne (Nat.sub_le n 1) hn

def sampleEpochOf (slot : ℕ) : ℕ := slot / 10

/-- A harvest is confirmed, the next one is cosigned, and an empty block is rolled back. -/
def sampleCalm : List (Step ℕ) :=
  [.backward ⟨2, []⟩, .forward ⟨2, []⟩, .cosign 0 2, .forward ⟨1, [1]⟩]

def sampleRolledBack : List (Step ℕ) :=
  [.backward ⟨2, [2]⟩, .forward ⟨2, [2]⟩, .forward ⟨1, [1]⟩]

theorem sampleCalm_follows :
    Valid sampleTxs sampleEpochOf 0 sampleCalm ∧ Calm sampleCalm ∧
      ∀ es', es' <:+ sampleCalm → Follows sampleTxs sampleEpochOf 0 es' := by
  have hvalid : Valid sampleTxs sampleEpochOf 0 sampleCalm := by
    refine ⟨⟨⟨⟨trivial, ?_, rfl, by decide, trivial⟩, by decide, rfl, fun v hv => ?_⟩, ?_, trivial⟩,
      rfl⟩
    · exact fun b hb => absurd hb not_mem_nil
    · cases hv
      rfl
    · intro b hb
      obtain rfl := mem_singleton.1 hb
      decide
  have hcalm : Calm sampleCalm := ⟨trivial, rfl, by decide⟩
  exact ⟨hvalid, hcalm, (follows_iff hvalid).2 hcalm⟩

theorem sampleRolledBack_astray :
    Valid sampleTxs sampleEpochOf 0 sampleRolledBack ∧
      ¬ Follows sampleTxs sampleEpochOf 0 sampleRolledBack := by
  constructor
  · refine ⟨⟨⟨trivial, ?_, rfl, by decide, trivial⟩, ?_, rfl, by decide, trivial⟩, rfl⟩
    · exact fun b hb => absurd hb not_mem_nil
    · intro b hb
      obtain rfl := mem_singleton.1 hb
      decide
  · rintro ⟨v, hrun, hlast, -⟩
    have hastray : (run sampleTxs sampleEpochOf 0 sampleRolledBack).toOption.map
        (fun v => v.graph.lastConfirmedBufferWalletTxHash) = some 2 := by
      decide +kernel
    rw [hrun] at hastray
    have hlast₂ : v.graph.lastConfirmedBufferWalletTxHash = 2 := Option.some.inj hastray
    rw [hlast₂] at hlast
    cases hlast

end Splash.Rewards.Cosign
