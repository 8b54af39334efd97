import Splash.Lib.Exec
import Splash.Lib.Forest
import Splash.Lib.OrdMap

/-!
# Chained reward transactions

The verifier keeps the harvest transactions it has cosigned and that are not confirmed yet in a
graph. An edge leads from a transaction to one that spends its buffer wallet output. The first
transactions of the graph spend the output of the transaction that was confirmed last.

* `tryAddTx`, `confirmTx`, `rollback`, `notifyEndOfEpoch` — the operations of the graph.
* `Sound` — the graph is a forest over the last confirmed transaction, and no user harvests twice
  on a path or has harvested before.
* `tryAddTx_iff` — which transactions are accepted.
* `Sound.tryAddTx`, `Sound.confirmTx`, `Sound.rollback` — the operations keep the graph sound.
-/

set_option linter.unusedSectionVars false

namespace Splash.Rewards.Cosign

open Lib OrdMap List
open Option (elim_some some_ne_none)

variable {H U : Type} [DecidableEq H] [DecidableEq U]

/-! ## The graph -/

structure NodeData (H U : Type) where
  txHash : H
  userCreds : Finset U

/-- A graph whose nodes have at most one incoming edge; `incoming` has its source. -/
structure TxGraph (H U : Type) where
  nodes : OrdMap ℕ (NodeData H U)
  incoming : OrdMap ℕ ℕ

namespace TxGraph

def empty : TxGraph H U := ⟨.empty, .empty⟩

variable (gr : TxGraph H U)

def addNode (ix : ℕ) (data : NodeData H U) : TxGraph H U :=
  { gr with nodes := gr.nodes.insert ix data }

def addEdge (source target : ℕ) : TxGraph H U :=
  { gr with incoming := gr.incoming.insert target source }

def removeNode (ix : ℕ) : TxGraph H U where
  nodes := gr.nodes.erase ix
  incoming := (gr.incoming.toList.filter fun e => e.1 = ix || e.2 = ix).foldl
    (fun m e => m.erase e.1) gr.incoming

def lineage (ix : ℕ) : List ℕ :=
  Forest.lineage gr.incoming.get? gr.nodes.size ix

def findTx (txHash : H) : Option ℕ :=
  (gr.nodes.toList.find? fun e => e.2.txHash = txHash).map Prod.fst

end TxGraph

structure ChainedRewardTxGraph (H U : Type) where
  gr : TxGraph H U
  lastConfirmedUserHarvests : Finset U
  lastConfirmedBufferWalletTxHash : H

namespace ChainedRewardTxGraph

/-- The graph before anything is confirmed; `zero` is the hash of zeros. -/
def new (zero : H) : ChainedRewardTxGraph H U := ⟨.empty, ∅, zero⟩

variable (g : ChainedRewardTxGraph H U)

/-- The transaction whose output is spent, if no user harvests twice on the way to it. -/
def findParentChainTx (txHash : H)
    (userCreds : Finset U) : Option ℕ :=
  if Disjoint userCreds g.lastConfirmedUserHarvests then
    (g.gr.findTx txHash).bind fun ix =>
      if (g.gr.lineage ix).all fun a =>
          (g.gr.nodes.get? a).elim true fun data => decide (Disjoint data.userCreds userCreds)
      then some ix else none
  else none

/-- Adds a transaction that spends the buffer wallet output of another one; `ix` is the index of a
new node. -/
def tryAddTx (ix : ℕ) (bufferWalletInputTxHash txHash : H)
    (txUserCreds : Finset U) : Bool × ChainedRewardTxGraph H U :=
  if Disjoint txUserCreds g.lastConfirmedUserHarvests then
    if bufferWalletInputTxHash = g.lastConfirmedBufferWalletTxHash then
      (true, { g with gr := g.gr.addNode ix ⟨txHash, txUserCreds⟩ })
    else
      (g.findParentChainTx bufferWalletInputTxHash txUserCreds).elim (false, g) fun parent =>
        (true, { g with gr := (g.gr.addNode ix ⟨txHash, txUserCreds⟩).addEdge parent ix })
  else (false, g)

def rollback (rolledBackUserCreds : Finset U)
    (confirmedBufferWalletTxHash : H) : Exec (ChainedRewardTxGraph H U) :=
  if rolledBackUserCreds ⊆ g.lastConfirmedUserHarvests then
    .ok ⟨.empty, g.lastConfirmedUserHarvests \ rolledBackUserCreds, confirmedBufferWalletTxHash⟩
  else .error (.explicit "assertion failed: is_superset")

/-- The nodes that do not descend from the children of `ix`, which is removed. -/
def nodesToDelete (gr : TxGraph H U) (ix : ℕ) : List ℕ :=
  let childrenNodes := (gr.incoming.toList.filter fun e => e.2 = ix).map Prod.fst
  let rest := gr.removeNode ix
  let rootNodesToDelete := rest.nodes.keys.filter fun n =>
    !childrenNodes.contains n && (rest.incoming.get? n).isNone
  rest.nodes.keys.filter fun n => (rest.lineage n).any rootNodesToDelete.contains

def prune (gr : TxGraph H U) (ix : ℕ) : TxGraph H U :=
  (nodesToDelete gr ix).foldl TxGraph.removeNode (gr.removeNode ix)

def confirmNode (ix : ℕ) (data : NodeData H U)
    (confirmedUserHarvests : Finset U) : Exec (ChainedRewardTxGraph H U) :=
  if (g.gr.incoming.get? ix).isSome then .error (.explicit "assertion failed: no incoming edges")
  else if data.userCreds ≠ confirmedUserHarvests then
    .error (.explicit "assertion failed: user creds")
  else if Disjoint data.userCreds g.lastConfirmedUserHarvests then
    .ok ⟨prune g.gr ix, g.lastConfirmedUserHarvests ∪ data.userCreds, data.txHash⟩
  else .error (.explicit "assertion failed: not contains")

/-- Confirms a transaction. One that is not in the graph was signed by another verifier. -/
def confirmTx (txHash : H)
    (confirmedUserHarvests : Finset U) : Exec (Bool × ChainedRewardTxGraph H U) :=
  ((g.gr.findTx txHash).bind fun ix => (g.gr.nodes.get? ix).map fun data => (ix, data)).elim
    (.ok (false, ⟨.empty, confirmedUserHarvests, txHash⟩))
    fun node => (g.confirmNode node.1 node.2 confirmedUserHarvests).map fun g' => (true, g')

def notifyEndOfEpoch : ChainedRewardTxGraph H U :=
  { g with gr := .empty, lastConfirmedUserHarvests := ∅ }

end ChainedRewardTxGraph

/-! ## Operations of the graph -/

namespace TxGraph

variable {gr : TxGraph H U}

variable {c ix n p : ℕ} {data : NodeData H U} {txHash : H}

theorem get?_incoming_removeNode : (gr.removeNode ix).incoming.get? c = some p ↔
      gr.incoming.get? c = some p ∧ c ≠ ix ∧ p ≠ ix := by
  unfold removeNode
  rw [get?_foldl_erase]
  by_cases hgone : ∃ e ∈ gr.incoming.toList.filter fun e => e.1 = ix || e.2 = ix, e.1 = c
  · rw [if_pos hgone]
    refine iff_of_false (some_ne_none p).symm ?_
    rintro ⟨hget, hc, hp⟩
    obtain ⟨e, he, rfl⟩ := hgone
    obtain ⟨hin, hix⟩ := mem_filter.1 he
    cases hget.symm.trans (mem_toList_iff.1 hin)
    simp [hc, hp] at hix
  · rw [if_neg hgone]
    refine (and_iff_left_of_imp fun hget => ?_).symm
    by_contra hno
    refine hgone ⟨(c, p), mem_filter.2 ⟨mem_toList_iff.2 hget, ?_⟩, rfl⟩
    by_contra hix
    exact hno (by simpa using hix)

theorem get?_nodes_removeNodes (l : List ℕ) :
    (l.foldl removeNode gr).nodes.get? n = some data ↔ gr.nodes.get? n = some data ∧ n ∉ l := by
  induction l generalizing gr with
  | nil => simp
  | cons ix l ih =>
    rw [foldl_cons, ih]
    show (gr.nodes.erase ix).get? n = _ ∧ _ ↔ _
    rw [get?_erase]
    by_cases hn : n = ix <;> simp [hn]

theorem get?_incoming_removeNodes (l : List ℕ) : (l.foldl removeNode gr).incoming.get? c = some p ↔
      gr.incoming.get? c = some p ∧ c ∉ l ∧ p ∉ l := by
  induction l generalizing gr with
  | nil => simp
  | cons ix l ih =>
    rw [foldl_cons, ih, get?_incoming_removeNode]
    simp only [mem_cons, not_or]
    tauto

theorem of_findTx_eq_some (h : gr.findTx txHash = some ix) :
    ∃ data, gr.nodes.get? ix = some data ∧ data.txHash = txHash := by
  unfold findTx at h
  obtain ⟨⟨ix, data⟩, hfind, rfl⟩ := Option.map_eq_some_iff.1 h
  have hhash := List.find?_some hfind
  exact ⟨data, mem_toList_iff.1 (mem_of_find?_eq_some hfind), by simpa using hhash⟩

theorem exists_findTx (hget : gr.nodes.get? n = some data) (hhash : data.txHash = txHash) :
    ∃ ix, gr.findTx txHash = some ix := by
  unfold findTx
  have hfound : (gr.nodes.toList.find? fun e => e.2.txHash = txHash).isSome = true :=
    List.find?_isSome.2 ⟨(n, data), mem_toList_iff.2 hget, decide_eq_true hhash⟩
  obtain ⟨e, he⟩ := Option.isSome_iff_exists.1 hfound
  exact ⟨e.1, by rw [he]; rfl⟩

end TxGraph

/-! ## Transactions -/

/-- What the hash of a reward transaction stands for: the transaction whose buffer wallet output it
spends and, if it is a harvest, the accounts of its orders. A transaction comes after the one it
spends. -/
structure RewardTxs (H U : Type) where
  spends : H → H
  harvest : H → Option (List U)
  height : H → ℕ
  height_spends : ∀ h, spends h ≠ h → height (spends h) < height h

namespace RewardTxs

variable (txs : RewardTxs H U)

/-- The accounts of the orders of a harvest; a buffering transaction has none. -/
def accounts (h : H) : List U := (txs.harvest h).getD []

def creds (h : H) : Finset U := (txs.accounts h).toFinset

/-- The transaction spent, up to the one confirmed `last`. -/
def up (last h : H) : Option H := if txs.spends h = last then none else some (txs.spends h)

/-- The transactions from `h` down to the one that spends `last`. -/
abbrev Path (last h : H) (l : List H) : Prop := Forest.Chain (txs.up last) h l

end RewardTxs

/-! ## Sound graphs -/

variable {txs : RewardTxs H U}

/-- The graph is a forest over the last confirmed transaction; on its paths no user harvests
twice, nor one who has harvested before. -/
structure Sound (txs : RewardTxs H U) (g : ChainedRewardTxGraph H U) : Prop where
  node : ∀ n data, g.gr.nodes.get? n = some data →
    data.userCreds = txs.creds data.txHash ∧ txs.spends data.txHash ≠ data.txHash
  root : ∀ n data, g.gr.nodes.get? n = some data → g.gr.incoming.get? n = none →
    txs.spends data.txHash = g.lastConfirmedBufferWalletTxHash
  edge : ∀ c p, g.gr.incoming.get? c = some p → ∃ child parent,
    g.gr.nodes.get? c = some child ∧ g.gr.nodes.get? p = some parent ∧
      txs.spends child.txHash = parent.txHash
  fresh : ∀ n data l, g.gr.nodes.get? n = some data →
    txs.Path g.lastConfirmedBufferWalletTxHash data.txHash l →
    l.Pairwise (fun h h' => Disjoint (txs.creds h) (txs.creds h')) ∧
      ∀ h ∈ l, Disjoint (txs.creds h) g.lastConfirmedUserHarvests

def ChainedRewardTxGraph.Tracks (g : ChainedRewardTxGraph H U) (h : H) : Prop :=
  ∃ n data, g.gr.nodes.get? n = some data ∧ data.txHash = h

theorem sound_of_empty (txs : RewardTxs H U) (users : Finset U) (last : H) :
    Sound txs ⟨.empty, users, last⟩ where
  node := fun _ _ hget => nomatch hget
  root := fun _ _ hget => nomatch hget
  edge := fun _ _ hget => nomatch hget
  fresh := fun _ _ _ hget => nomatch hget

namespace Sound

variable {g : ChainedRewardTxGraph H U} {n : ℕ} {data : NodeData H U}

def rank (txs : RewardTxs H U) (g : ChainedRewardTxGraph H U) (n : ℕ) : ℕ :=
  (g.gr.nodes.get? n).elim 0 fun data => txs.height data.txHash

section

variable (hg : Sound txs g)
include hg

theorem rank_lt (c p : ℕ) (hup : g.gr.incoming.get? c = some p) :
    rank txs g p < rank txs g c := by
  obtain ⟨child, parent, hc, hp, hspends⟩ := hg.edge c p hup
  unfold rank
  rw [hc, hp, elim_some, elim_some, ← hspends]
  exact txs.height_spends _ (hg.node c child hc).2

variable {h : H} {ix : ℕ} {l : List ℕ}

/-- The hashes along the lineage of a node are a path to the last confirmed transaction, and all
come after it. -/
theorem path_of_chain (hchain : Forest.Chain g.gr.incoming.get? n l)
    (hget : g.gr.nodes.get? n = some data) :
    txs.height g.lastConfirmedBufferWalletTxHash < txs.height data.txHash ∧
      ∃ hs, txs.Path g.lastConfirmedBufferWalletTxHash data.txHash hs ∧
        List.Forall₂ (fun a h => ∃ d, g.gr.nodes.get? a = some d ∧ d.txHash = h) l hs := by
  induction hchain generalizing data with
  | root hup =>
    have hspends := hg.root _ data hget hup
    refine ⟨hspends ▸ txs.height_spends _ (hg.node _ data hget).2, [data.txHash], .root ?_, ?_⟩
    · exact if_pos hspends
    · exact .cons ⟨data, hget, rfl⟩ .nil
  | step hup _ ih =>
    obtain ⟨child, parent, hc, hp, hspends⟩ := hg.edge _ _ hup
    cases hc.symm.trans hget
    obtain ⟨hlt, hs, hpath, hall⟩ := ih hp
    have hheight := txs.height_spends _ (hg.node _ _ hget).2
    rw [hspends] at hheight
    refine ⟨hlt.trans hheight, _ :: hs, .step ?_ hpath, .cons ⟨_, hget, rfl⟩ hall⟩
    unfold RewardTxs.up
    rw [hspends, if_neg]
    intro heq
    rw [heq] at hlt
    exact hlt.false

section

variable (hget : g.gr.nodes.get? n = some data)
include hget

theorem lineage_eq :
    Forest.Chain g.gr.incoming.get? n (g.gr.lineage n) := by
  obtain ⟨l, hl⟩ := Forest.exists_chain hg.rank_lt n
  have hlength : l.length ≤ g.gr.nodes.keys.length := by
    refine hl.length_le hg.rank_lt (mem_keys.2 (has_iff.2 ⟨data, hget⟩)) ?_
    intro c p hup
    obtain ⟨_, parent, _, hp, _⟩ := hg.edge c p hup
    exact mem_keys.2 (has_iff.2 ⟨parent, hp⟩)
  have hsize : l.length ≤ g.gr.nodes.size := hlength.trans_eq (length_map _)
  unfold TxGraph.lineage
  rw [Forest.lineage_of_chain hl hsize]
  exact hl

theorem exists_path :
    ∃ hs, txs.Path g.lastConfirmedBufferWalletTxHash data.txHash hs ∧
      List.Forall₂ (fun a h => ∃ d, g.gr.nodes.get? a = some d ∧ d.txHash = h)
        (g.gr.lineage n) hs :=
  (hg.path_of_chain (hg.lineage_eq hget) hget).2

theorem height_lt :
    txs.height g.lastConfirmedBufferWalletTxHash < txs.height data.txHash :=
  (hg.path_of_chain (hg.lineage_eq hget) hget).1

end

/-! ## Adding transactions -/

theorem all_disjoint_iff {hs : List H} (creds : Finset U)
    (hall : List.Forall₂ (fun a h => ∃ d, g.gr.nodes.get? a = some d ∧ d.txHash = h) l hs) :
    (l.all fun a => (g.gr.nodes.get? a).elim true fun d => decide (Disjoint d.userCreds creds))
        = true ↔ ∀ h ∈ hs, Disjoint (txs.creds h) creds := by
  induction hall with
  | nil => simp
  | cons hnode _ ih =>
    obtain ⟨d, hget, rfl⟩ := hnode
    rw [all_cons, Bool.and_eq_true, ih, forall_mem_cons, hget, elim_some,
      decide_eq_true_eq, (hg.node _ d hget).1]

theorem findParentChainTx_eq_some {input : H} {creds : Finset U}
    {parent : ℕ} (hdisj : Disjoint creds g.lastConfirmedUserHarvests) :
    g.findParentChainTx input creds = some parent ↔
      g.gr.findTx input = some parent ∧
        ∀ hs, txs.Path g.lastConfirmedBufferWalletTxHash input hs →
          ∀ h ∈ hs, Disjoint (txs.creds h) creds := by
  unfold ChainedRewardTxGraph.findParentChainTx
  rw [if_pos hdisj, Option.bind_eq_some_iff]
  have hfound : ∀ ix, g.gr.findTx input = some ix →
      ((g.gr.lineage ix).all (fun a => (g.gr.nodes.get? a).elim true fun d =>
          decide (Disjoint d.userCreds creds)) = true ↔
        ∀ hs, txs.Path g.lastConfirmedBufferWalletTxHash input hs →
          ∀ h ∈ hs, Disjoint (txs.creds h) creds) := by
    intro ix hix
    obtain ⟨d, hget, rfl⟩ := TxGraph.of_findTx_eq_some hix
    obtain ⟨hs, hpath, hall⟩ := hg.exists_path hget
    rw [hg.all_disjoint_iff creds hall]
    exact ⟨fun h hs' hpath' => hpath.unique hpath' ▸ h, fun h => h hs hpath⟩
  constructor
  · rintro ⟨ix, hix, hif⟩
    split at hif
    · rename_i hdis
      cases hif
      exact ⟨hix, (hfound _ hix).1 hdis⟩
    · cases hif
  · rintro ⟨hix, hdis⟩
    exact ⟨parent, hix, if_pos ((hfound parent hix).2 hdis)⟩

/-- **Accepted transactions** spend the last confirmed output or that of a tracked transaction, and
no user of theirs has harvested, in a confirmed transaction or on the way. -/
theorem tryAddTx_iff (ix : ℕ) (input h : H) (creds : Finset U) :
    (g.tryAddTx ix input h creds).1 = true ↔
      Disjoint creds g.lastConfirmedUserHarvests ∧
        (input = g.lastConfirmedBufferWalletTxHash ∨ g.Tracks input ∧
          ∀ hs, txs.Path g.lastConfirmedBufferWalletTxHash input hs →
            ∀ h ∈ hs, Disjoint (txs.creds h) creds) := by
  unfold ChainedRewardTxGraph.tryAddTx
  by_cases hdisj : Disjoint creds g.lastConfirmedUserHarvests
  case neg =>
    rw [if_neg hdisj]
    exact iff_of_false Bool.false_ne_true fun hand => hdisj hand.1
  case pos =>
    rw [if_pos hdisj, and_iff_right hdisj]
    by_cases hlast : input = g.lastConfirmedBufferWalletTxHash
    · rw [if_pos hlast]
      exact iff_of_true rfl (.inl hlast)
    · rw [if_neg hlast, or_iff_right hlast]
      cases hparent : g.findParentChainTx input creds with
      | none =>
        refine iff_of_false Bool.false_ne_true ?_
        rintro ⟨⟨n, d, hget, hhash⟩, hdis⟩
        obtain ⟨p, hp⟩ := TxGraph.exists_findTx hget hhash
        have hsome := (hg.findParentChainTx_eq_some hdisj).2 ⟨hp, hdis⟩
        exact some_ne_none p (hsome.symm.trans hparent)
      | some p =>
        obtain ⟨hp, hdis⟩ := (hg.findParentChainTx_eq_some hdisj).1 hparent
        obtain ⟨d, hget, hhash⟩ := TxGraph.of_findTx_eq_some hp
        exact iff_of_true rfl ⟨⟨p, d, hget, hhash⟩, hdis⟩

theorem insert (hix : g.gr.nodes.get? ix = none) (hproper : txs.spends h ≠ h)
    {incoming : OrdMap ℕ ℕ} (hold : ∀ c, c ≠ ix → incoming.get? c = g.gr.incoming.get? c)
    (hroot : incoming.get? ix = none → txs.spends h = g.lastConfirmedBufferWalletTxHash)
    (hparent : ∀ p, incoming.get? ix = some p →
      ∃ d, g.gr.nodes.get? p = some d ∧ txs.spends h = d.txHash)
    (hfresh : ∀ hs, txs.Path g.lastConfirmedBufferWalletTxHash h hs →
      hs.Pairwise (fun h h' => Disjoint (txs.creds h) (txs.creds h')) ∧
        ∀ h ∈ hs, Disjoint (txs.creds h) g.lastConfirmedUserHarvests) :
    Sound txs { g with gr := ⟨g.gr.nodes.insert ix ⟨h, txs.creds h⟩, incoming⟩ } := by
  have hnode : ∀ n d, (g.gr.nodes.insert ix ⟨h, txs.creds h⟩).get? n = some d →
      n = ix ∧ d = ⟨h, txs.creds h⟩ ∨ n ≠ ix ∧ g.gr.nodes.get? n = some d := by
    intro n d hget
    rw [get?_insert] at hget
    split at hget
    · exact .inl ⟨‹_›, (Option.some.inj hget).symm⟩
    · exact .inr ⟨‹_›, hget⟩
  have hkept : ∀ n d, g.gr.nodes.get? n = some d →
      (g.gr.nodes.insert ix ⟨h, txs.creds h⟩).get? n = some d := by
    intro n d hget
    rw [get?_insert, if_neg, hget]
    rintro rfl
    exact some_ne_none d (hget.symm.trans hix)
  refine ⟨fun n d hget => ?_, fun n d hget hup => ?_, fun c p hup => ?_, fun n d l hget hpath => ?_⟩
  · rcases hnode n d hget with ⟨rfl, rfl⟩ | ⟨-, hget⟩
    · exact ⟨rfl, hproper⟩
    · exact hg.node n d hget
  · rcases hnode n d hget with ⟨rfl, rfl⟩ | ⟨hne, hget⟩
    · exact hroot hup
    · exact hg.root n d hget ((hold n hne).symm.trans hup)
  · by_cases hc : c = ix
    · subst hc
      obtain ⟨d, hp, hspends⟩ := hparent p hup
      exact ⟨_, d, by rw [get?_insert, if_pos rfl], hkept p d hp, hspends⟩
    · obtain ⟨child, parent, hchild, hpar, hspends⟩ := hg.edge c p ((hold c hc).symm.trans hup)
      exact ⟨child, parent, hkept c child hchild, hkept p parent hpar, hspends⟩
  · rcases hnode n d hget with ⟨rfl, rfl⟩ | ⟨-, hget⟩
    · exact hfresh l hpath
    · exact hg.fresh n d l hget hpath

theorem incoming_eq_none (hix : g.gr.nodes.get? ix = none) : g.gr.incoming.get? ix = none := by
  cases hup : g.gr.incoming.get? ix with
  | none => rfl
  | some p =>
    obtain ⟨child, -, hchild, -⟩ := hg.edge ix p hup
    exact absurd (hix.symm.trans hchild) (some_ne_none child).symm

/-- **Adding a transaction** keeps the graph sound; if it is accepted it is tracked. -/
theorem tryAddTx (hix : g.gr.nodes.get? ix = none) (hproper : txs.spends h ≠ h) :
    g.tryAddTx ix (txs.spends h) h (txs.creds h) = (false, g) ∨
      ∃ gr, g.tryAddTx ix (txs.spends h) h (txs.creds h) = (true, { g with gr }) ∧
        Sound txs { g with gr } ∧
        gr.nodes = g.gr.nodes.insert ix ⟨h, txs.creds h⟩ := by
  unfold ChainedRewardTxGraph.tryAddTx
  by_cases hdisj : Disjoint (txs.creds h) g.lastConfirmedUserHarvests
  case neg => exact .inl (if_neg hdisj)
  case pos =>
    rw [if_pos hdisj]
    by_cases hlast : txs.spends h = g.lastConfirmedBufferWalletTxHash
    · rw [if_pos hlast]
      refine .inr ⟨_, rfl, hg.insert hix hproper (fun _ _ => rfl) (fun _ => hlast) ?_ ?_, rfl⟩
      · intro p hup
        exact absurd ((hg.incoming_eq_none hix).symm.trans hup) (some_ne_none p).symm
      · intro hs hpath
        have hroot : txs.up g.lastConfirmedBufferWalletTxHash h = none := if_pos hlast
        obtain rfl := Forest.Chain.unique hpath (.root hroot)
        exact ⟨pairwise_singleton _ _, forall_mem_singleton.2 hdisj⟩
    · rw [if_neg hlast]
      cases hparent : g.findParentChainTx (txs.spends h) (txs.creds h) with
      | none => exact .inl rfl
      | some p =>
        obtain ⟨hp, hdis⟩ := (hg.findParentChainTx_eq_some hdisj).1 hparent
        obtain ⟨d, hget, hhash⟩ := TxGraph.of_findTx_eq_some hp
        refine .inr ⟨_, rfl, hg.insert hix hproper ?_ ?_ ?_ ?_, rfl⟩
        · intro c hc
          exact (get?_insert _ _ _ _).trans (if_neg hc)
        · intro hup
          rw [get?_insert, if_pos rfl] at hup
          cases hup
        · intro p' hup
          rw [get?_insert, if_pos rfl] at hup
          cases hup
          exact ⟨d, hget, hhash.symm⟩
        · intro hs hpath
          have hstep : txs.up g.lastConfirmedBufferWalletTxHash h = some (txs.spends h) :=
            if_neg hlast
          obtain ⟨hs', hpath', -⟩ := hg.exists_path hget
          rw [hhash] at hpath'
          obtain rfl := Forest.Chain.unique hpath (.step hstep hpath')
          obtain ⟨hpair, hstored⟩ := hg.fresh p d hs' hget (hhash ▸ hpath')
          exact ⟨pairwise_cons.2 ⟨fun h' hh' => (hdis hs' hpath' h' hh').symm, hpair⟩,
            forall_mem_cons.2 ⟨hdisj, hstored⟩⟩

end

/-! ## Confirming transactions -/

theorem exists_of_forall₂ {α β : Type} {R : α → β → Prop} {l : List α} {m : List β} {a : α}
    (h : List.Forall₂ R l m) (ha : a ∈ l) : ∃ b ∈ m, R a b := by
  induction h with
  | nil => cases ha
  | cons hab _ ih =>
    rcases mem_cons.1 ha with rfl | ha
    · exact ⟨_, mem_cons_self, hab⟩
    · obtain ⟨b, hb, hR⟩ := ih ha
      exact ⟨b, mem_cons_of_mem _ hb, hR⟩

/-- A path through a transaction that spends `last` is a path to that transaction and itself. -/
theorem path_cut {last x h : H} {hs : List H} (hpath : txs.Path last x hs) (hin : h ∈ hs)
    (hspends : txs.spends h = last) (hne : x ≠ h) : ∃ l, hs = l ++ [h] ∧ txs.Path h x l := by
  induction hpath with
  | root => exact absurd (mem_singleton.1 hin).symm hne
  | @step x p hs' hup rest ih =>
    have hp : txs.spends x = p := by
      unfold RewardTxs.up at hup
      split at hup
      · cases hup
      · exact Option.some.inj hup
    have hin' : h ∈ hs' := (mem_cons.1 hin).resolve_left fun heq => hne heq.symm
    by_cases hph : p = h
    · subst hph
      have hroot : txs.up last p = none := if_pos hspends
      obtain rfl := Forest.Chain.unique rest (.root hroot)
      exact ⟨[x], rfl, .root (if_pos hp)⟩
    · obtain ⟨l, rfl, hl⟩ := ih hin' hph
      refine ⟨x :: l, rfl, .step ?_ hl⟩
      unfold RewardTxs.up
      rw [if_neg (by rwa [hp]), hp]

variable {ix : ℕ}

theorem mem_keys_removeNode (hne : n ≠ ix) (hget : g.gr.nodes.get? n = some data) :
    n ∈ (g.gr.removeNode ix).nodes.keys := by
  refine mem_keys.2 (has_iff.2 ⟨data, ?_⟩)
  exact (get?_erase _ _ _).trans ((if_neg hne).trans hget)

section

variable (hg : Sound txs g)
include hg

theorem parent_mem_keys {c p : ℕ} (hup : (g.gr.removeNode ix).incoming.get? c = some p) :
    p ∈ (g.gr.removeNode ix).nodes.keys := by
  obtain ⟨hup, -, hp⟩ := TxGraph.get?_incoming_removeNode.1 hup
  obtain ⟨_, parent, _, hpar, _⟩ := hg.edge c p hup
  exact mem_keys_removeNode hp hpar

/-- The graph without one of its roots is a forest. -/
theorem lineage_removeNode (hne : n ≠ ix) (hget : g.gr.nodes.get? n = some data) :
    Forest.Chain (g.gr.removeNode ix).incoming.get? n ((g.gr.removeNode ix).lineage n) := by
  have hrank : ∀ c p, (g.gr.removeNode ix).incoming.get? c = some p →
      rank txs g p < rank txs g c :=
    fun c p hup => hg.rank_lt c p (TxGraph.get?_incoming_removeNode.1 hup).1
  obtain ⟨l, hl⟩ := Forest.exists_chain hrank n
  have hlength : l.length ≤ (g.gr.removeNode ix).nodes.keys.length :=
    hl.length_le hrank (mem_keys_removeNode hne hget) fun c p hup => hg.parent_mem_keys hup
  have hsize : l.length ≤ (g.gr.removeNode ix).nodes.size := hlength.trans_eq (length_map _)
  unfold TxGraph.lineage
  rw [Forest.lineage_of_chain hl hsize]
  exact hl

omit hg in
/-- A lineage without one of the deleted roots leads to the node removed. -/
theorem chain_append (hroot : g.gr.incoming.get? ix = none) {l : List ℕ}
    (hchain : Forest.Chain (g.gr.removeNode ix).incoming.get? n l)
    (hroots : ∀ m ∈ l, (g.gr.removeNode ix).incoming.get? m = none → g.gr.incoming.get? m = some ix) :
    Forest.Chain g.gr.incoming.get? n (l ++ [ix]) := by
  induction hchain with
  | root hup => exact .step (hroots _ mem_cons_self hup) (.root hroot)
  | step hup _ ih =>
    exact .step (TxGraph.get?_incoming_removeNode.1 hup).1
      (ih fun m hm => hroots m (mem_cons_of_mem _ hm))

theorem mem_nodesToDelete (hne : n ≠ ix) (hget : g.gr.nodes.get? n = some data) :
    n ∈ ChainedRewardTxGraph.nodesToDelete g.gr ix ↔
      ∃ m ∈ (g.gr.removeNode ix).lineage n,
        (g.gr.removeNode ix).incoming.get? m = none ∧ g.gr.incoming.get? m ≠ some ix := by
  have hin : n ∈ (g.gr.removeNode ix).nodes.keys := mem_keys_removeNode hne hget
  have hlineage := (hg.lineage_removeNode hne hget).forall_mem hin
    fun c p hup _ => hg.parent_mem_keys hup
  have hchild : ∀ m, (((g.gr.incoming.toList.filter fun e => e.2 = ix).map Prod.fst).contains m
      = true ↔ g.gr.incoming.get? m = some ix) := by
    intro m
    rw [contains_iff_mem, mem_map]
    constructor
    · rintro ⟨⟨c, p⟩, he, rfl⟩
      obtain ⟨hedge, hp⟩ := mem_filter.1 he
      obtain rfl := of_decide_eq_true hp
      exact mem_toList_iff.1 hedge
    · intro hup
      exact ⟨(m, ix), mem_filter.2 ⟨mem_toList_iff.2 hup, by simp⟩, rfl⟩
  unfold ChainedRewardTxGraph.nodesToDelete
  simp only [mem_filter, hin, true_and, any_eq_true,
    contains_iff_mem, Bool.and_eq_true, Bool.not_eq_true', Option.isNone_iff_eq_none]
  refine exists_congr fun m => and_congr_right fun hm => ?_
  rw [and_iff_right (hlineage m hm), and_comm, ← Bool.not_eq_true, hchild]

theorem get?_prune (hroot : g.gr.incoming.get? ix = none)
    (hget : (ChainedRewardTxGraph.prune g.gr ix).nodes.get? n = some data) :
    n ≠ ix ∧ g.gr.nodes.get? n = some data ∧ ix ∈ g.gr.lineage n ∧
      ∀ m ∈ (g.gr.removeNode ix).lineage n, (g.gr.removeNode ix).incoming.get? m = none →
        g.gr.incoming.get? m = some ix := by
  obtain ⟨hrest, hkept⟩ := (TxGraph.get?_nodes_removeNodes _).1 hget
  obtain ⟨hne, hget⟩ : n ≠ ix ∧ g.gr.nodes.get? n = some data := by
    have herase : (g.gr.nodes.erase ix).get? n = some data := hrest
    rw [get?_erase] at herase
    split at herase
    · cases herase
    · exact ⟨‹_›, herase⟩
  rw [hg.mem_nodesToDelete hne hget] at hkept
  have hroots : ∀ m ∈ (g.gr.removeNode ix).lineage n,
      (g.gr.removeNode ix).incoming.get? m = none → g.gr.incoming.get? m = some ix := by
    intro m hm hup
    by_contra hno
    exact hkept ⟨m, hm, hup, hno⟩
  refine ⟨hne, hget, ?_, hroots⟩
  have hchain := chain_append hroot (hg.lineage_removeNode hne hget) hroots
  rw [(hg.lineage_eq hget).unique hchain]
  exact mem_append_right _ (mem_singleton_self ix)

theorem path_prune {root : NodeData H U} (hix : g.gr.nodes.get? ix = some root)
    (hroot : g.gr.incoming.get? ix = none)
    (hget : (ChainedRewardTxGraph.prune g.gr ix).nodes.get? n = some data) {l : List H}
    (hl : txs.Path root.txHash data.txHash l) :
    txs.Path g.lastConfirmedBufferWalletTxHash data.txHash (l ++ [root.txHash]) := by
  obtain ⟨hne, hget, hin, -⟩ := hg.get?_prune hroot hget
  obtain ⟨hs, hpath, hall⟩ := hg.exists_path hget
  have hmem : root.txHash ∈ hs := by
    obtain ⟨h, hh, d, hd, rfl⟩ := exists_of_forall₂ hall hin
    cases hix.symm.trans hd
    exact hh
  have hhash : data.txHash ≠ root.txHash := by
    have hrank := (hg.lineage_eq hget).rank_lt hg.rank_lt hin hne.symm
    unfold rank at hrank
    rw [hix, hget, elim_some, elim_some] at hrank
    intro heq
    rw [heq] at hrank
    exact hrank.false
  obtain ⟨l', rfl, hl'⟩ := path_cut hpath hmem (hg.root ix root hix hroot) hhash
  rw [hl.unique hl']
  exact hpath

theorem prune {root : NodeData H U} (hix : g.gr.nodes.get? ix = some root)
    (hroot : g.gr.incoming.get? ix = none) :
    Sound txs ⟨ChainedRewardTxGraph.prune g.gr ix, g.lastConfirmedUserHarvests ∪ root.userCreds,
      root.txHash⟩ := by
  refine ⟨fun n d hget => ?_, fun n d hget hup => ?_, fun c p hup => ?_, fun n d l hget hl => ?_⟩
  · exact hg.node n d (hg.get?_prune hroot hget).2.1
  · obtain ⟨hne, hget₀, -, hroots⟩ := hg.get?_prune hroot hget
    have hkept := ((TxGraph.get?_nodes_removeNodes _).1 hget).2
    have hchain := hg.lineage_removeNode hne hget₀
    have hrest : (g.gr.removeNode ix).incoming.get? n = none := by
      by_contra hsome
      obtain ⟨p, hp⟩ := Option.ne_none_iff_exists'.1 hsome
      -- the parent would have been deleted, and with it the node
      have hdoomed : p ∈ ChainedRewardTxGraph.nodesToDelete g.gr ix := by
        by_contra hno
        have hin := (TxGraph.get?_incoming_removeNodes _).2 ⟨hp, hkept, hno⟩
        exact absurd (hup.symm.trans hin) (some_ne_none p).symm
      obtain ⟨hp₀, -, hpne⟩ := TxGraph.get?_incoming_removeNode.1 hp
      obtain ⟨_, parent, _, hparent, _⟩ := hg.edge n p hp₀
      obtain ⟨m, hm, hmroot⟩ := (hg.mem_nodesToDelete hpne hparent).1 hdoomed
      have hstep := Forest.Chain.step hp (hg.lineage_removeNode hpne hparent)
      rw [hg.mem_nodesToDelete hne hget₀, hchain.unique hstep] at hkept
      exact hkept ⟨m, mem_cons_of_mem _ hm, hmroot⟩
    obtain ⟨child, parent, hchild, hparent, hspends⟩ :=
      hg.edge n ix (hroots n hchain.mem_self hrest)
    cases hchild.symm.trans hget₀
    cases hparent.symm.trans hix
    exact hspends
  · obtain ⟨hrest, hc, hp⟩ := (TxGraph.get?_incoming_removeNodes _).1 hup
    obtain ⟨hup₀, hcne, hpne⟩ := TxGraph.get?_incoming_removeNode.1 hrest
    obtain ⟨child, parent, hchild, hparent, hspends⟩ := hg.edge c p hup₀
    have hkeep : ∀ m d, m ≠ ix → m ∉ ChainedRewardTxGraph.nodesToDelete g.gr ix →
        g.gr.nodes.get? m = some d →
        (ChainedRewardTxGraph.prune g.gr ix).nodes.get? m = some d := by
      intro m d hm hdel hd
      refine (TxGraph.get?_nodes_removeNodes _).2 ⟨?_, hdel⟩
      exact (get?_erase _ _ _).trans ((if_neg hm).trans hd)
    exact ⟨child, parent, hkeep c child hcne hc hchild, hkeep p parent hpne hp hparent, hspends⟩
  · have hpath := hg.path_prune hix hroot hget hl
    obtain ⟨hpair, hstored⟩ := hg.fresh n d _ (hg.get?_prune hroot hget).2.1 hpath
    obtain ⟨hpair, -, hcross⟩ := pairwise_append.1 hpair
    refine ⟨hpair, fun h hh => Finset.disjoint_union_right.2 ⟨?_, ?_⟩⟩
    · exact hstored h (mem_append_left _ hh)
    · rw [(hg.node ix root hix).1]
      exact hcross h hh _ (mem_singleton_self _)

/-- **Confirming a tracked transaction** that spends the last confirmed one. -/
theorem confirmTx {h : H} (htracks : g.Tracks h)
    (hroots : ∀ n d, g.gr.nodes.get? n = some d → d.txHash = h → g.gr.incoming.get? n = none) :
    ∃ ix root, g.gr.nodes.get? ix = some root ∧ root.txHash = h ∧
      g.gr.incoming.get? ix = none ∧
      g.confirmTx h (txs.creds h) =
        .ok (true, ⟨ChainedRewardTxGraph.prune g.gr ix,
          g.lastConfirmedUserHarvests ∪ txs.creds h, h⟩) := by
  obtain ⟨n, d, hn, hd⟩ := htracks
  obtain ⟨ix, hix⟩ := TxGraph.exists_findTx hn hd
  obtain ⟨root, hget, rfl⟩ := TxGraph.of_findTx_eq_some hix
  have hroot := hroots ix root hget rfl
  refine ⟨ix, root, hget, rfl, hroot, ?_⟩
  have hcreds := (hg.node ix root hget).1
  have hdisj : Disjoint root.userCreds g.lastConfirmedUserHarvests := by
    obtain ⟨hs, hpath, -⟩ := hg.exists_path hget
    rw [hcreds]
    exact (hg.fresh ix root hs hget hpath).2 _ hpath.mem_self
  unfold ChainedRewardTxGraph.confirmTx ChainedRewardTxGraph.confirmNode
  rw [hix, Option.bind_some, hget, Option.map_some, elim_some, hroot]
  rw [if_neg (by simp), if_neg (by simpa using hcreds), if_pos hdisj, hcreds]
  rfl

end

end Sound

/-- A transaction that is not tracked replaces everything. -/
theorem ChainedRewardTxGraph.confirmTx_of_not_tracks {g : ChainedRewardTxGraph H U} {h : H}
    (hno : ¬ g.Tracks h) (creds : Finset U) :
    g.confirmTx h creds = .ok (false, ⟨.empty, creds, h⟩) := by
  have hfind : g.gr.findTx h = none := by
    cases hix : g.gr.findTx h with
    | none => rfl
    | some ix =>
      obtain ⟨d, hget, hhash⟩ := TxGraph.of_findTx_eq_some hix
      exact absurd ⟨ix, d, hget, hhash⟩ hno
  unfold ChainedRewardTxGraph.confirmTx
  rw [hfind]
  rfl

end Splash.Rewards.Cosign
