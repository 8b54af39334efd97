import Splash.Rewards.Verifier

/-!
# Harvests of one epoch

The verifier keeps the users that have harvested in the current epoch, and does not cosign a harvest
for one of them. A transaction it has not cosigned itself replaces the users by its own, a buffering
transaction by none, and a rollback into the epoch before finds them forgotten.

* `Guarded` — no user harvests twice in an epoch, on the chain and on any path of cosigned
  transactions.
* `Careful` — the steps after which no user is forgotten.
* `guarded_run` — in a careful run every state is guarded.
-/

set_option linter.unusedSectionVars false

namespace Splash.Rewards.Cosign

open Lib Data List

variable {H U : Type} [DecidableEq H] [DecidableEq U]

/-! ## Users of an epoch -/

section

variable (txs : RewardTxs H U) (epochOf : ℕ → ℕ)

def usersIn (epoch : ℕ) (blocks : List (Block H)) : List U :=
  (blocks.filter fun b => epochOf b.slot = epoch).flatMap fun b => b.txs.flatMap txs.accounts

def currentUsers : List (Block H) → List U
  | [] => []
  | b :: bs => usersIn txs epochOf (epochOf b.slot) (b :: bs)

variable (zero : H)

/-- **No user harvests twice in an epoch**, on the chain or on a path of cosigned transactions, and
the users that have harvested are stored. -/
def Guarded (es : List (Step H)) : Prop :=
  ∃ v, run txs epochOf zero es = .ok v ∧
    (∀ epoch, (usersIn txs epochOf epoch (chain es)).Nodup) ∧
    (∀ x l, v.graph.Tracks x → txs.Path v.graph.lastConfirmedBufferWalletTxHash x l →
      (currentUsers txs epochOf (chain es) ++ l.flatMap txs.accounts).Nodup) ∧
    ∀ u ∈ currentUsers txs epochOf (chain es), u ∈ v.graph.lastConfirmedUserHarvests

/-- The transactions of a block that are not tracked come before any harvest of the epoch and
have no user twice; `users` have harvested in the epoch before. -/
def TxsCareful : Verifier H U → List U → List H → Prop
  | _, _, [] => True
  | v, users, h :: hs => (v.graph.Tracks h ∨ users = [] ∧ (txs.accounts h).Nodup) ∧
      ∀ v', v.confirmRewardTx txs h = .ok v' → TxsCareful v' (users ++ txs.accounts h) hs

/-- Untracked transactions come first in their epoch, requests have no user twice, and rollbacks
do not go back to an epoch that has harvests, nor further than is remembered. -/
def Careful : List (Step H) → Prop
  | [] => True
  | .forward block :: es => Careful es ∧ ∀ v, run txs epochOf zero es = .ok v →
      TxsCareful txs (v.confirmBlockSlot epochOf block.slot)
        (usersIn txs epochOf (epochOf block.slot) (chain es)) block.txs
  | .backward block :: es => Careful es ∧ 0 < kept es ∧
      ((∀ b ∈ (chain es).tail.head?, epochOf b.slot = epochOf block.slot) ∨
        currentUsers txs epochOf (chain es).tail = [])
  | .cosign _ h :: es => Careful es ∧ (txs.accounts h).Nodup

end

/-! ## One transaction -/

section

variable {txs : RewardTxs H U} {epochOf : ℕ → ℕ} {zero last : H} {v : Verifier H U}
  {users : List U}

variable {g : ChainedRewardTxGraph H U}

variable {hs l : List H} {x : H}

theorem Sound.tracks_of_path (hg : Sound txs g) (hx : g.Tracks x)
    (hl : txs.Path g.lastConfirmedBufferWalletTxHash x l) : ∀ y ∈ l, g.Tracks y := by
  obtain ⟨n, data, hget, rfl⟩ := hx
  obtain ⟨hs, hpath, hall⟩ := hg.exists_path hget
  rw [hl.unique hpath]
  intro y hy
  obtain ⟨a, -, d, hd, hhash⟩ := exists_of_forall₂ hall.flip hy
  exact ⟨a, d, hd, hhash⟩

/-- Users that are stored do not harvest on a path, and nobody harvests there twice. -/
theorem Sound.nodup_path (hg : Sound txs g) (haccounts : ∀ x, g.Tracks x → (txs.accounts x).Nodup)
    (hstored : ∀ u ∈ users, u ∈ g.lastConfirmedUserHarvests) (hnodup : users.Nodup)
    (hx : g.Tracks x) (hl : txs.Path g.lastConfirmedBufferWalletTxHash x l) :
    (users ++ l.flatMap txs.accounts).Nodup := by
  obtain ⟨hpair, hfresh⟩ := hg.fresh_of_tracks hx hl
  refine nodup_append'.2 ⟨hnodup, nodup_flatMap.2 ⟨?_, ?_⟩, ?_⟩
  · exact fun y hy => haccounts y (hg.tracks_of_path hx hl y hy)
  · exact hpair.imp fun hdis => disjoint_toFinset_iff_disjoint.1 hdis
  · intro u hu hin
    obtain ⟨y, hy, huy⟩ := mem_flatMap.1 hin
    exact Finset.disjoint_left.1 (hfresh y hy) (mem_toFinset.2 huy) (hstored u hu)

/-- The users that have harvested are stored, and nobody harvests twice in a transaction. -/
structure Keeps (txs : RewardTxs H U) (v : Verifier H U) (users : List U) :
    Prop where
  stored : ∀ u ∈ users, u ∈ v.graph.lastConfirmedUserHarvests
  nodup : users.Nodup
  accounts : ∀ x, v.graph.Tracks x → (txs.accounts x).Nodup

theorem Keeps.confirm (hkeeps : Keeps txs v users) (hv : Inv txs v last) {h : H}
    (hspends : txs.spends h = last)
    (hcareful : v.graph.Tracks h ∨ users = [] ∧ (txs.accounts h).Nodup) :
    ∃ v', v.confirmRewardTx txs h = .ok v' ∧ Inv txs v' h ∧
      Keeps txs v' (users ++ txs.accounts h) := by
  obtain ⟨g', hrun, hinv, -, hold, hconfirms⟩ := hv.confirm hspends
  refine ⟨_, hrun, hinv, ?_⟩
  cases hconfirms with
  | own htracks husers =>
    obtain ⟨n, data, hget, hhash⟩ := id htracks
    obtain ⟨hs, hpath, -⟩ := hv.sound.exists_path hget
    rw [hhash] at hpath
    have hfresh := (hv.sound.fresh_of_tracks htracks hpath).2 h hpath.mem_self
    refine ⟨fun u hu => ?_, nodup_append'.2 ⟨hkeeps.nodup, hkeeps.accounts h htracks, ?_⟩, ?_⟩
    · show u ∈ g'.lastConfirmedUserHarvests
      rw [husers]
      rcases mem_append.1 hu with hu | hu
      · exact Finset.mem_union_left _ (hkeeps.stored u hu)
      · exact Finset.mem_union_right _ (mem_toFinset.2 hu)
    · intro u hu hin
      exact Finset.disjoint_left.1 hfresh (mem_toFinset.2 hin) (hkeeps.stored u hu)
    · exact fun x hx => hkeeps.accounts x (hold x hx)
  | foreign hno husers hclear =>
    obtain ⟨rfl, hnodup⟩ := hcareful.resolve_left hno
    refine ⟨fun u hu => ?_, hnodup, fun x hx => absurd hx (hclear x)⟩
    show u ∈ g'.lastConfirmedUserHarvests
    rw [husers]
    exact mem_toFinset.2 hu

theorem Keeps.confirmAll (hkeeps : Keeps txs v users) (hv : Inv txs v last)
    (hlinked : Linked txs last hs) (hcareful : TxsCareful txs v users hs) {v' : Verifier H U}
    (hrun : hs.foldlM (Verifier.confirmRewardTx txs) v = .ok v') :
    Keeps txs v' (users ++ hs.flatMap txs.accounts) := by
  induction hs generalizing v last users with
  | nil =>
    cases hrun
    rwa [flatMap_nil, append_nil]
  | cons h hs ih =>
    obtain ⟨hspends, -, hlinked⟩ := hlinked
    obtain ⟨v₁, hrun₁, hinv₁, hkeeps₁⟩ := hkeeps.confirm hv hspends hcareful.1
    rw [foldlM_cons, hrun₁] at hrun
    rw [flatMap_cons, ← append_assoc]
    exact ih hkeeps₁ hinv₁ hlinked (hcareful.2 v₁ hrun₁) hrun

theorem Keeps.rollbackAll
    (hstored : ∀ u ∈ users ++ hs.flatMap txs.accounts, u ∈ v.graph.lastConfirmedUserHarvests)
    (hnodup : (users ++ hs.flatMap txs.accounts).Nodup)
    (haccounts : ∀ x, v.graph.Tracks x → (txs.accounts x).Nodup) :
    ∃ v', hs.foldlM (Verifier.rollbackRewardTx txs) v = .ok v' ∧ Keeps txs v' users ∧
      v'.blockSlotBuffer = v.blockSlotBuffer ∧
      (hs ≠ [] → ∃ stored last, v'.graph = ⟨.empty, stored, last⟩) ∧ (hs = [] → v' = v) := by
  induction hs generalizing v with
  | nil =>
    rw [flatMap_nil, append_nil] at hstored hnodup
    exact ⟨v, rfl, ⟨hstored, hnodup, haccounts⟩, rfl, fun hne => absurd rfl hne, fun _ => rfl⟩
  | cons h hs ih =>
    rw [flatMap_cons] at hstored hnodup
    have hcreds : txs.creds h ⊆ v.graph.lastConfirmedUserHarvests := by
      intro u hu
      refine hstored u (mem_append_right _ (mem_append_left _ ?_))
      exact mem_toFinset.1 hu
    obtain ⟨hnodup₁, hnodup₂, hdisj⟩ := nodup_append'.1 hnodup
    obtain ⟨-, hnodup₃, hdisj₂⟩ := nodup_append'.1 hnodup₂
    obtain ⟨hdisj₃, hdisj₄⟩ := disjoint_append_right.1 hdisj
    set g' : ChainedRewardTxGraph H U :=
      ⟨.empty, v.graph.lastConfirmedUserHarvests \ txs.creds h, h⟩ with hg'
    have hrun : v.rollbackRewardTx txs h = .ok { v with graph := g' } := by
      rw [rollbackRewardTx_eq]
      unfold ChainedRewardTxGraph.rollback
      rw [if_pos hcreds]
      rfl
    have hleft : ∀ u ∈ users ++ hs.flatMap txs.accounts, u ∈ g'.lastConfirmedUserHarvests := by
      intro u hu
      refine Finset.mem_sdiff.2 ⟨?_, fun hin => ?_⟩
      · apply hstored u
        rcases mem_append.1 hu with hu | hu
        · exact mem_append_left _ hu
        · exact mem_append_right _ (mem_append_right _ hu)
      · have hin := mem_toFinset.1 hin
        rcases mem_append.1 hu with hu | hu
        · exact hdisj₃ hu hin
        · exact hdisj₂ hin hu
    obtain ⟨v', hrest, hkeeps, hslots, hcons, hnil⟩ := ih (v := { v with graph := g' }) hleft
      (nodup_append'.2 ⟨hnodup₁, hnodup₃, hdisj₄⟩)
      (fun x hx => absurd hx (not_tracks_empty _ x))
    refine ⟨v', ?_, hkeeps, hslots, fun _ => ?_, fun habs => nomatch habs⟩
    · rw [foldlM_cons, hrun]
      exact hrest
    · by_cases hhs : hs = []
      · exact ⟨_, _, congrArg Verifier.graph (hnil hhs)⟩
      · exact hcons hhs

theorem Keeps.of_perm {users' : List U} (hkeeps : Keeps txs v users) (hperm : users'.Perm users) :
    Keeps txs v users' :=
  ⟨fun u hu => hkeeps.stored u (hperm.mem_iff.1 hu), hperm.nodup_iff.2 hkeeps.nodup,
    hkeeps.accounts⟩

/-! ## Whole runs -/

variable {es : List (Step H)}

theorem usersIn_cons (epoch : ℕ) (block : Block H) (blocks : List (Block H)) :
    usersIn txs epochOf epoch (block :: blocks) =
      if epochOf block.slot = epoch then
        block.txs.flatMap txs.accounts ++ usersIn txs epochOf epoch blocks
      else usersIn txs epochOf epoch blocks := by
  unfold usersIn
  rw [filter_cons]
  by_cases hepoch : epochOf block.slot = epoch <;> simp [hepoch]

theorem currentUsers_cons (block : Block H) (blocks : List (Block H)) :
    currentUsers txs epochOf (block :: blocks) =
      block.txs.flatMap txs.accounts ++ usersIn txs epochOf (epochOf block.slot) blocks :=
  (usersIn_cons _ block blocks).trans (if_pos rfl)

section

variable (hmono : Monotone epochOf) (hvalid : Valid txs epochOf zero es)
  (hcareful : Careful txs epochOf zero es)
include hmono hvalid hcareful

omit hcareful in
theorem usersIn_next {block : Block H} (hslots : ∀ b ∈ chain es, b.slot < block.slot) :
    usersIn txs epochOf (epochOf block.slot) (chain es) = [] ∨
      ∃ b rest, chain es = b :: rest ∧ epochOf b.slot = epochOf block.slot ∧
        usersIn txs epochOf (epochOf block.slot) (chain es) =
          currentUsers txs epochOf (chain es) := by
  cases hchain : chain es with
  | nil => exact .inl rfl
  | cons b rest =>
    rcases (hmono (hslots b (hchain ▸ mem_cons_self)).le).eq_or_lt with heq | hlt
    · exact .inr ⟨b, rest, rfl, heq, by rw [← heq]; rfl⟩
    · left
      unfold usersIn
      rw [filter_eq_nil_iff.2, flatMap_nil]
      intro b' hb'
      have hle : epochOf b'.slot ≤ epochOf b.slot := by
        rcases mem_cons.1 hb' with rfl | hb'
        · exact le_rfl
        · exact hmono ((hvalid.block (l := []) hchain).1 b' hb').le
      simpa using (hle.trans_lt hlt).ne

omit hmono hvalid hcareful in
/-- A new block ends the epoch when it starts another one. -/
theorem Keeps.confirmBlockSlot (hkeeps : Keeps txs v (currentUsers txs epochOf (chain es)))
    (hnodup : ∀ epoch, (usersIn txs epochOf epoch (chain es)).Nodup) (hmono : Monotone epochOf)
    (hvalid : Valid txs epochOf zero es) {block : Block H}
    (hslots : ∀ b ∈ chain es, b.slot < block.slot) {k : ℕ}
    (hrecent : v.blockSlotBuffer.Recent ((chain es).map Block.slot) k) :
    Keeps txs (v.confirmBlockSlot epochOf block.slot)
      (usersIn txs epochOf (epochOf block.slot) (chain es)) := by
  have hgraph : (v.confirmBlockSlot epochOf block.slot).graph = v.graph ∨
      (v.confirmBlockSlot epochOf block.slot).graph = v.graph.notifyEndOfEpoch := by
    unfold Verifier.confirmBlockSlot
    cases v.getCurrentSlot with
    | none => exact .inl rfl
    | some current =>
      rw [Option.elim_some]
      dsimp only
      split
      · exact .inr rfl
      · exact .inl rfl
  refine ⟨fun u hu => ?_, hnodup _, fun x hx => ?_⟩
  · rcases usersIn_next hmono hvalid hslots with hempty | ⟨b, rest, hchain, hepoch, hcur⟩
    · rw [hempty] at hu
      exact absurd hu not_mem_nil
    · have hsame : (v.confirmBlockSlot epochOf block.slot).graph = v.graph := by
        unfold Verifier.confirmBlockSlot Verifier.getCurrentSlot
        rw [hchain, map_cons] at hrecent
        cases k with
        | zero =>
          rw [hrecent.back_zero]
          rfl
        | succ k =>
          rw [hrecent.back_succ]
          exact if_neg hepoch.not_lt
      rw [hsame]
      exact hkeeps.stored u (hcur ▸ hu)
  · rcases hgraph with heq | heq
    · rw [heq] at hx
      exact hkeeps.accounts x hx
    · rw [heq] at hx
      exact absurd hx (not_tracks_empty _ x)

theorem careful_run :
    ∃ v, run txs epochOf zero es = .ok v ∧ Inv txs v (tip zero (chain es)) ∧
      v.blockSlotBuffer.Recent ((chain es).map Block.slot) (kept es) ∧
      Keeps txs v (currentUsers txs epochOf (chain es)) ∧
      ∀ epoch, (usersIn txs epochOf epoch (chain es)).Nodup := by
  induction es with
  | nil =>
    refine ⟨_, rfl, .new txs zero, ⟨CircularFilter.tidy_new, rfl, le_rfl⟩, ⟨?_, ?_, ?_⟩, ?_⟩
    · exact fun u hu => absurd hu not_mem_nil
    · exact nodup_nil
    · exact fun x hx => absurd hx (not_tracks_empty _ x)
    · exact fun _ => nodup_nil
  | cons e es ih =>
    cases e with
    | forward block =>
      obtain ⟨hes, hslots, hlinked⟩ := hvalid
      obtain ⟨v, hrun, hinv, hrecent, hkeeps, hnodup⟩ := ih hes hcareful.1
      obtain ⟨hinv₁, -⟩ := hinv.confirmBlockSlot epochOf block.slot
      have hkeeps₁ := hkeeps.confirmBlockSlot hnodup hmono hes hslots hrecent
      obtain ⟨v', hrun', hinv', hslots', -⟩ := hinv₁.confirmAll hlinked
      have hkeeps' := hkeeps₁.confirmAll hinv₁ hlinked (hcareful.2 v hrun) hrun'
      refine ⟨v', ?_, hinv', ?_, ?_, fun epoch => ?_⟩
      · unfold run
        rw [hrun]
        exact hrun'
      · rw [hslots']
        refine hrecent.add (by decide) fun hin => ?_
        obtain ⟨b, hb, heq⟩ := mem_map.1 hin
        exact (hslots b hb).ne heq
      · show Keeps txs v' (currentUsers txs epochOf (block :: chain es))
        rw [currentUsers_cons]
        exact hkeeps'.of_perm perm_append_comm
      · show (usersIn txs epochOf epoch (block :: chain es)).Nodup
        rw [usersIn_cons]
        split
        case isTrue hepoch => exact hepoch ▸ perm_append_comm.nodup_iff.1 hkeeps'.nodup
        case isFalse => exact hnodup epoch
    | backward block =>
      obtain ⟨hes, hhead⟩ := hvalid
      obtain ⟨hcareful, hkept, hepoch⟩ := hcareful
      obtain ⟨v, hrun, hinv, hrecent, hkeeps, hnodup⟩ := ih hes hcareful
      obtain ⟨below, hbelow⟩ := List.head?_eq_some_iff.1 hhead
      obtain ⟨k, hk⟩ : ∃ k, kept es = k + 1 := ⟨kept es - 1, by omega⟩
      have hchain : chain (.backward block :: es) = below := by
        show (chain es).tail = below
        rw [hbelow, tail_cons]
      have htip : tip zero (chain es) = block.txs.getLast?.getD (tip zero below) := by
        rw [hbelow]
        rfl
      rw [hbelow, map_cons, hk] at hrecent
      rw [hbelow, currentUsers_cons] at hkeeps
      rw [hbelow, tail_cons] at hepoch
      obtain ⟨buffer, hbuffer, hpop⟩ := rollbackBlockSlot_succ hrecent
      have hperm : (usersIn txs epochOf (epochOf block.slot) below ++
          block.txs.reverse.flatMap txs.accounts).Perm
          (block.txs.flatMap txs.accounts ++ usersIn txs epochOf (epochOf block.slot) below) :=
        ((reverse_perm _).flatMap_right txs.accounts).append_left _ |>.trans
          perm_append_comm
      obtain ⟨v', hroll, hkeeps', hslots', hcons, hnil⟩ :=
        Keeps.rollbackAll (v := { v with blockSlotBuffer := buffer })
          (fun u hu => hkeeps.stored u (hperm.mem_iff.1 hu)) (hperm.nodup_iff.2 hkeeps.nodup)
          hkeeps.accounts
      rw [hchain]
      refine ⟨v', ?_, ?_, ?_, ?_, fun epoch => ?_⟩
      · unfold run
        rw [hrun]
        show (v.rollbackBlockSlot block.slot >>= _) = _
        rw [hpop]
        exact hroll
      · cases htxs : block.txs with
        | nil =>
          have hbare : tip zero (chain es) = tip zero below := by
            rw [htip, htxs]
            rfl
          rw [hnil (by rw [htxs]; rfl)]
          exact ⟨hinv.sound, hinv.harvests, hbare ▸ hinv.ahead⟩
        | cons h hs =>
          rw [htxs] at hroll hcons
          obtain ⟨stored, last', hgraph⟩ := hcons (by simp)
          have hlast := last_of_rollback hroll
          have hlinked := (hes.block (l := []) hbelow).2
          rw [htxs] at hlinked
          refine ⟨hgraph ▸ sound_of_empty _ _ _, ?_, .inr ?_⟩
          · rw [hgraph]
            exact fun x hx => absurd hx (not_tracks_empty _ x)
          · rw [hlast, ← hlinked.1]
            exact txs.height_spends h hlinked.2.1
      · rw [hslots']
        show buffer.Recent _ (kept es - 1)
        rw [hk]
        exact hbuffer
      · rcases hepoch with hsame | hempty
        · have hcur : currentUsers txs epochOf below =
              usersIn txs epochOf (epochOf block.slot) below := by
            cases below with
            | nil => rfl
            | cons b rest =>
              rw [← hsame b rfl]
              rfl
          exact hcur ▸ hkeeps'
        · rw [hempty]
          exact ⟨fun u hu => absurd hu not_mem_nil, nodup_nil, hkeeps'.accounts⟩
      · have hold := hnodup epoch
        rw [hbelow, usersIn_cons] at hold
        split at hold
        · exact (nodup_append'.1 hold).2.1
        · exact hold
    | cosign ix h =>
      obtain ⟨hes, hproper, hharvest, hix⟩ := hvalid
      obtain ⟨v, hrun, hinv, hrecent, hkeeps, hnodup⟩ := ih hes hcareful.1
      obtain ⟨hinv', -, hslots⟩ := hinv.cosign hproper hharvest (hix v hrun)
      refine ⟨v.cosign txs ix h, ?_, hinv', hslots ▸ hrecent, ?_, hnodup⟩
      · unfold run
        rw [hrun]
        rfl
      · rcases hinv.cosign_cases hproper hharvest (hix v hrun) with heq | ⟨gr, heq, -, -, htracks⟩
        · rw [heq]
          exact hkeeps
        · refine ⟨?_, hkeeps.nodup, fun x hx => ?_⟩
          · rw [heq]
            exact hkeeps.stored
          · rcases (htracks x).1 hx with rfl | hx
            · exact hcareful.2
            · exact hkeeps.accounts x hx

/-- **No user harvests twice** in an epoch of a careful run. -/
theorem guarded_run : Guarded txs epochOf zero es := by
  obtain ⟨v, hrun, hinv, -, hkeeps, hnodup⟩ := careful_run hmono hvalid hcareful
  exact ⟨v, hrun, hnodup, fun x l hx hl =>
    hinv.sound.nodup_path hkeeps.accounts hkeeps.stored hkeeps.nodup hx hl, hkeeps.stored⟩

end

end

/-! ## Samples -/

/-- Transaction 2 is buffering, all others harvest for user 7. -/
def sampleRepeated : RewardTxs ℕ ℕ :=
  { sampleTxs with harvest := fun n => if n = 2 then none else some [7] }

/-- A harvest is cosigned and confirmed after another one. -/
def sampleOwn : List (Step ℕ) := [.forward ⟨2, [2]⟩, .cosign 0 2, .forward ⟨1, [1]⟩]

/-- A buffering transaction between two harvests for one user. -/
def sampleBuffered : List (Step ℕ) :=
  [.cosign 0 3, .forward ⟨2, [2]⟩, .forward ⟨1, [1]⟩]

theorem sampleEpochOf_mono : Monotone sampleEpochOf := fun _ _ h => Nat.div_le_div_right h

theorem sampleOwn_guarded :
    Valid sampleTxs sampleEpochOf 0 sampleOwn ∧ Careful sampleTxs sampleEpochOf 0 sampleOwn ∧
      Guarded sampleTxs sampleEpochOf 0 sampleOwn := by
  have hvalid : Valid sampleTxs sampleEpochOf 0 sampleOwn := by
    refine ⟨⟨⟨trivial, ?_, rfl, by decide, trivial⟩, by decide, rfl, fun v hv => ?_⟩, ?_, rfl,
      by decide, trivial⟩
    · exact fun b hb => absurd hb not_mem_nil
    · cases hv
      rfl
    · intro b hb
      obtain rfl := mem_singleton.1 hb
      decide
  have hcareful : Careful sampleTxs sampleEpochOf 0 sampleOwn := by
    refine ⟨⟨⟨trivial, fun v hv => ?_⟩, nodup_singleton 2⟩, fun v hv => ?_⟩
    · cases hv
      exact ⟨.inr ⟨rfl, nodup_singleton 1⟩, fun _ _ => trivial⟩
    · cases hv
      exact ⟨.inl ⟨0, _, rfl, rfl⟩, fun _ _ => trivial⟩
  exact ⟨hvalid, hcareful, guarded_run sampleEpochOf_mono hvalid hcareful⟩

/-- The buffering transaction makes the verifier forget the first harvest, and it cosigns another
one for the same user. -/
theorem sampleBuffered_twice :
    Valid sampleRepeated sampleEpochOf 0 sampleBuffered ∧
      (∃ v, run sampleRepeated sampleEpochOf 0 sampleBuffered = .ok v ∧ v.graph.Tracks 3) ∧
      ¬ Guarded sampleRepeated sampleEpochOf 0 sampleBuffered := by
  refine ⟨?_, ⟨_, rfl, 0, _, rfl, rfl⟩, ?_⟩
  · refine ⟨⟨⟨trivial, ?_, rfl, by decide, trivial⟩, ?_, rfl, by decide, trivial⟩, by decide, rfl,
      fun v hv => ?_⟩
    · exact fun b hb => absurd hb not_mem_nil
    · intro b hb
      obtain rfl := mem_singleton.1 hb
      decide
    · cases hv
      rfl
  · rintro ⟨v, hrun, -, -, hstored⟩
    have hforgotten : (run sampleRepeated sampleEpochOf 0 sampleBuffered).toOption.map
        (fun v => decide (7 ∈ v.graph.lastConfirmedUserHarvests)) = some false := by
      decide +kernel
    rw [hrun] at hforgotten
    have hin := hstored 7 (by decide +kernel)
    exact absurd hin (of_decide_eq_false (Option.some.inj hforgotten))

end Splash.Rewards.Cosign
