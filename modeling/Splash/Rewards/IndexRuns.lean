import Splash.Rewards.IndexUndo

/-!
# The reward index along the chain

Blocks are indexed and rolled back in any order the chain allows.

* `run` — the index after some blocks and rollbacks.
* `Reflects.run` — the index reflects the view of the current chain.
* `restored_iff` — rolling back the latest blocks restores every answer just when no order in them
  was ignored, every entity in them was updated from the version that is known, and they have fewer
  harvests than trees are kept.
-/

set_option linter.unusedSectionVars false

namespace Splash.Rewards.Index

open Lib Data Cardano IndexerDB List Exec

variable {G V B T : Type} [DecidableEq G] [DecidableEq V]

/-! ## Runs -/

inductive Step (G V B : Type) where
  | forward (block : Block G V B)
  | backward (block : Block G V B)

def run (cfg : Setup T) :
    List (Step G V B) → Exec (IndexerDB G V B T)
  | [] => .ok (.new cfg)
  | .forward block :: es => run cfg es >>= fun db => rollForward cfg db block
  | .backward block :: es => run cfg es >>= fun db => rollBackward db block

def chain : List (Step G V B) → List (Block G V B)
  | [] => []
  | .forward block :: es => block :: chain es
  | .backward _ :: es => (chain es).tail

def View.block (v : View G V B T) (cfg : Setup T)
    (block : Block G V B) : View G V B T :=
  block.events.foldl (fun v e => v.apply cfg block.slot e) v

/-- The view of a chain, given from its last block. -/
def viewOf (cfg : Setup T) :
    List (Block G V B) → View G V B T
  | [] => .new cfg
  | block :: blocks => (viewOf cfg blocks).block cfg block

section

variable (made : Origins G V) (cfg : Setup T)

/-- Events of one block that happen one after the other. -/
def ValidEvents (slot : ℕ) :
    View G V B T → List (OnChainEvent G V B) → Prop
  | _, [] => True
  | v, e :: es => Valid made v e ∧ ValidEvents slot (v.apply cfg slot e) es

/-- Blocks that follow each other, the first one first. -/
def ValidBlocks :
    View G V B T → List (Block G V B) → Prop
  | _, [] => True
  | v, b :: bs => ValidEvents made cfg b.slot v b.events ∧ ValidBlocks (v.block cfg b) bs

/-- The blocks are those of a chain, and only the last one is rolled back. -/
def ValidRun : List (Step G V B) → Prop
  | [] => True
  | .forward b :: es =>
    ValidRun es ∧ ValidEvents made cfg b.slot (viewOf cfg (chain es)) b.events
  | .backward b :: es => ValidRun es ∧ (chain es).head? = some b

def CleanEvents (slot : ℕ) :
    View G V B T → List (OnChainEvent G V B) → Prop
  | _, [] => True
  | v, e :: es => Clean v e ∧ CleanEvents slot (v.apply cfg slot e) es

/-- No order in the blocks is ignored, and every entity is updated from its latest version. -/
def CleanBlocks :
    View G V B T → List (Block G V B) → Prop
  | _, [] => True
  | v, b :: bs => CleanEvents cfg b.slot v b.events ∧ CleanBlocks (v.block cfg b) bs

def ValidChain : List (Block G V B) → Prop
  | [] => True
  | b :: bs => ValidChain bs ∧ ValidEvents made cfg b.slot (viewOf cfg bs) b.events

end

def harvestsIn (events : List (OnChainEvent G V B)) : ℕ :=
  (events.map harvests).sum

def harvestsOf (blocks : List (Block G V B)) : ℕ :=
  (blocks.map fun b => harvestsIn b.events).sum

variable {made : Origins G V} {cfg : Setup T} {v : View G V B T}
  {db db' : IndexerDB G V B T} {slot : ℕ}

/-! ## Events of a block -/

section

variable {es : List (OnChainEvent G V B)}

theorem Sound.events (hv : Sound v) (hes : ValidEvents made cfg slot v es) :
    Sound (es.foldl (fun v e => v.apply cfg slot e) v) := by
  induction es generalizing v with
  | nil => exact hv
  | cons e es ih => exact ih (hv.apply hes.1) hes.2

theorem Reflects.indexEvents (h : Reflects made v db) (hv : Sound v)
    (hes : ValidEvents made cfg slot v es)
    (hok : es.foldlM (Index.indexEvent cfg slot) db = .ok db') :
    Reflects made (es.foldl (fun v e => v.apply cfg slot e) v) db' := by
  induction es generalizing v db with
  | nil =>
    cases hok
    exact h
  | cons e es ih =>
    rw [foldlM_cons] at hok
    obtain ⟨db₁, hdb₁, hok⟩ := bind_eq_ok.1 hok
    exact ih (h.indexEvent hv hes.1 hdb₁) (hv.apply hes.1) hes.2 hok

theorem Reflects.unindexEvents
    (h : Reflects made (es.foldl (fun v e => v.apply cfg slot e) v) db) (hv : Sound v)
    (hes : ValidEvents made cfg slot v es) :
    Exec.Gives (es.reverse.foldlM (Index.unindexEvent slot) db)
      (CleanEvents cfg slot v es ∧ harvestsIn es ≤ db.merkleSnapshots.size) fun db' =>
      Reflects made v db' ∧
        db'.merkleSnapshots.size + harvestsIn es = db.merkleSnapshots.size := by
  induction es generalizing v with
  | nil => exact (Exec.Gives.ok ⟨h, rfl⟩).congr (by simp [CleanEvents, harvestsIn]) fun _ => id
  | cons e es ih =>
    have hsum : harvestsIn (e :: es) = harvests e + harvestsIn es := sum_cons
    rw [reverse_cons, foldlM_append]
    refine ((ih h (hv.apply hes.1) hes.2).bind (q := Clean v e ∧
      harvestsIn (e :: es) ≤ db.merkleSnapshots.size) fun db₁ h₁ => ?_).congr ?_ fun _ => id
    · simp only [foldlM_cons, foldlM_nil, bind_pure]
      refine (h₁.1.unindexEvent hv hes.1).congr (and_congr_right' (by omega)) fun db₂ h₂ => ⟨h₂.1, ?_⟩
      omega
    · constructor
      · exact fun hclean => ⟨⟨hclean.2.1, hclean.1.1⟩, hclean.2.2⟩
      · exact fun hclean => ⟨⟨hclean.1.2, by omega⟩, hclean.1.1, hclean.2⟩

end

/-! ## Blocks -/

section

variable {blocks : List (Block G V B)}

theorem Reflects.indexBlocks (h : Reflects made v db) (hv : Sound v)
    (hbs : ValidBlocks made cfg v blocks) (hok : blocks.foldlM (rollForward cfg) db = .ok db') :
    Reflects made (blocks.foldl (fun v b => v.block cfg b) v) db' := by
  induction blocks generalizing v db with
  | nil =>
    cases hok
    exact h
  | cons b bs ih =>
    rw [foldlM_cons] at hok
    obtain ⟨db₁, hdb₁, hok⟩ := bind_eq_ok.1 hok
    exact ih (h.indexEvents hv hbs.1 hdb₁) (hv.events hbs.1) hbs.2 hok

theorem Reflects.unindexBlocks
    (h : Reflects made (blocks.foldl (fun v b => v.block cfg b) v) db) (hv : Sound v)
    (hbs : ValidBlocks made cfg v blocks) :
    Exec.Gives (blocks.reverse.foldlM rollBackward db)
      (CleanBlocks cfg v blocks ∧ harvestsOf blocks ≤ db.merkleSnapshots.size) fun db' =>
      Reflects made v db' ∧
        db'.merkleSnapshots.size + harvestsOf blocks = db.merkleSnapshots.size := by
  induction blocks generalizing v with
  | nil => exact (Exec.Gives.ok ⟨h, rfl⟩).congr (by simp [CleanBlocks, harvestsOf]) fun _ => id
  | cons b bs ih =>
    have hsum : harvestsOf (b :: bs) = harvestsIn b.events + harvestsOf bs := sum_cons
    rw [reverse_cons, foldlM_append]
    refine ((ih h (hv.events hbs.1) hbs.2).bind (q := CleanEvents cfg b.slot v b.events ∧
      harvestsOf (b :: bs) ≤ db.merkleSnapshots.size) fun db₁ h₁ => ?_).congr ?_ fun _ => id
    · simp only [foldlM_cons, foldlM_nil, bind_pure]
      refine (h₁.1.unindexEvents hv hbs.1).congr (and_congr_right' (by omega)) fun db₂ h₂ =>
        ⟨h₂.1, ?_⟩
      omega
    · constructor
      · exact fun hclean => ⟨⟨hclean.2.1, hclean.1.1⟩, hclean.2.2⟩
      · exact fun hclean => ⟨⟨hclean.1.2, by omega⟩, hclean.1.1, hclean.2⟩

end

variable {blocks : List (Block G V B)} {es : List (Step G V B)}

theorem ValidRun.chain (h : ValidRun made cfg es) :
    ValidChain made cfg (chain es) := by
  induction es with
  | nil => trivial
  | cons e es ih =>
    cases e with
    | forward b => exact ⟨ih h.1, h.2⟩
    | backward b =>
      have hchain := ih h.1
      show ValidChain made cfg (Index.chain es).tail
      cases hc : Index.chain es with
      | nil => trivial
      | cons c cs =>
        rw [hc] at hchain
        exact hchain.1

theorem sound_viewOf (h : ValidChain made cfg blocks) : Sound (viewOf cfg blocks) := by
  induction blocks with
  | nil => exact .new cfg
  | cons b bs ih => exact (ih h.1).events h.2

/-- **The index reflects the current chain**, whatever was indexed and rolled back before. -/
theorem Reflects.run (hvalid : ValidRun made cfg es)
    (hok : run cfg es = .ok db) : Reflects made (viewOf cfg (chain es)) db := by
  induction es generalizing db with
  | nil =>
    cases hok
    exact reflects_new made cfg
  | cons e es ih =>
    cases e with
    | forward b =>
      obtain ⟨db₁, hdb₁, hok⟩ := bind_eq_ok.1 hok
      exact (ih hvalid.1 hdb₁).indexEvents (sound_viewOf hvalid.1.chain) hvalid.2 hok
    | backward b =>
      obtain ⟨db₁, hdb₁, hok⟩ := bind_eq_ok.1 hok
      have h₁ := ih hvalid.1 hdb₁
      have hchain := hvalid.1.chain
      obtain ⟨cs, hcs⟩ := List.head?_eq_some_iff.1 hvalid.2
      show Reflects made (viewOf cfg (Index.chain es).tail) db
      rw [hcs] at h₁ hchain ⊢
      exact ((h₁.unindexEvents (sound_viewOf hchain.1) hchain.2).spec _ hok).2.1

/-! ## Answers -/

theorem Reflects.lastTree (h : Reflects made v db) :
    db.lastConfirmedMerkleTree =
      if db.merkleSnapshots.size = 0 then none else v.trees.getLast? := by
  obtain ⟨l, hl, front, hfront⟩ := h.snapshots
  unfold lastConfirmedMerkleTree
  rw [hl.readBack, hl.size_eq, ← hfront, List.getLast?_append]
  rcases eq_nil_or_concat' l with rfl | ⟨l, t, rfl⟩
  · rfl
  · rw [List.getLast?_concat, if_neg (by simp)]
    rfl

/-- Two indexes of one view differ at most in the last tree. -/
theorem Reflects.answers_eq_iff (h : Reflects made v db) (h' : Reflects made v db') :
    answers db' = answers db ↔ db'.lastConfirmedMerkleTree = db.lastConfirmedMerkleTree := by
  refine ⟨congrArg Answers.lastConfirmedMerkleTree, fun htree => ?_⟩
  apply Answers.ext
  · show db'.getBufferWallet = db.getBufferWallet
    unfold getBufferWallet
    rw [h.wallets.read, h'.wallets.read]
  · show db'.getGauge = db.getGauge
    funext id
    unfold getGauge
    rw [h.gauges.read, h'.gauges.read]
  · show db'.getAuthManager = db.getAuthManager
    unfold getAuthManager
    rw [h.auths.read, h'.auths.read]
  · show db'.readDesignatedHarvestOrder = db.readDesignatedHarvestOrder
    funext id
    unfold readDesignatedHarvestOrder
    rw [h.orders.read, h'.orders.read, h.designated, h'.designated]
  · show db'.lastEpochHarvested = db.lastEpochHarvested
    funext user
    unfold lastEpochHarvested
    rw [h.epochs.last, h'.epochs.last]
  · exact htree

/-- **The answers are those of the current chain**, whatever was indexed and rolled back before, but
for a last tree that is not kept any more. -/
theorem answers_of_chain {es' : List (Step G V B)} (hvalid : ValidRun made cfg es)
    (hvalid' : ValidRun made cfg es') (hrun : run cfg es = .ok db) (hrun' : run cfg es' = .ok db')
    (hchain : chain es' = chain es) : answers db' = answers db ↔
      (db'.merkleSnapshots.size = 0 ↔ db.merkleSnapshots.size = 0) := by
  have h := Reflects.run hvalid hrun
  have h' := Reflects.run hvalid' hrun'
  rw [hchain] at h'
  have hlast := mt getLast?_eq_none_iff.1 (sound_viewOf hvalid.chain).trees
  rw [h.answers_eq_iff h', h.lastTree, h'.lastTree]
  split <;> split <;> simp_all [eq_comm]

/-! ## Trees -/

theorem snapshots_refund {id : V} (hok : db.writeConfirmedRefundHarvestOrder id = .ok db') :
    db'.merkleSnapshots = db.merkleSnapshots := by
  unfold writeConfirmedRefundHarvestOrder at hok
  cases hread : db.harvestOrders.read id with
  | none =>
    rw [hread] at hok
    cases hok
    rfl
  | some t =>
    obtain ⟨state, prev⟩ := t
    rw [hread, Option.elim_some] at hok
    cases state with
    | predicted o => cases hok
    | confirmed o =>
      dsimp only at hok
      split at hok
      · cases hok
      · cases hm : undesignateOrderInEpoch db.userEpochOrder o.1.key id with
        | error e =>
          rw [hm] at hok
          cases hok
        | ok m =>
          rw [hm] at hok
          cases hok
          rfl

theorem snapshots_refunds {ids : List V}
    (hok : ids.foldlM (fun db id => db.writeConfirmedRefundHarvestOrder id) db = .ok db') :
    db'.merkleSnapshots = db.merkleSnapshots := by
  induction ids generalizing db with
  | nil =>
    cases hok
    rfl
  | cons id ids ih =>
    rw [foldlM_cons] at hok
    obtain ⟨db₁, hdb₁, hok⟩ := bind_eq_ok.1 hok
    exact (ih hok).trans (snapshots_refund hdb₁)

theorem snapshots_writeGauges
    (gs : List (EntityUpdated (Gauge G V) V B × ℕ))
    (db : IndexerDB G V B T) :
    (gs.foldl (fun db g => db.writeConfirmedGauge g.1) db).merkleSnapshots =
      db.merkleSnapshots := by
  induction gs generalizing db with
  | nil => rfl
  | cons g gs ih => exact ih (db.writeConfirmedGauge g.1)

theorem snapshots_indexEvent {e : OnChainEvent G V B}
    (hok : indexEvent cfg slot db e = .ok db') :
    db'.merkleSnapshots = db.merkleSnapshots ∧ harvests e = 0 ∨
      db.merkleSnapshots.readBack ≠ none ∧ harvests e ≠ 0 := by
  cases e with
  | botHarvestingAction payouts u w =>
    refine .inr ⟨fun hnone => ?_, one_ne_zero⟩
    simp only [indexEvent] at hok
    split at hok
    · obtain ⟨orders, -, hok⟩ := bind_eq_ok.1 hok
      unfold writeConfirmedSpendHarvestOrders at hok
      obtain ⟨s', -, hok⟩ := bind_eq_ok.1 hok
      rw [show (db.writeConfirmedBufferWallet u).merkleSnapshots.readBack = none from hnone] at hok
      cases hok
    · cases hok
  | botGaugeBufferingAction drained u w =>
    cases hok
    exact .inl ⟨snapshots_writeGauges drained (db.writeConfirmedBufferWallet u), rfl⟩
  | createBufferWalletAndAuthManager u a =>
    simp only [indexEvent] at hok
    split at hok
    · cases hok
      exact .inl ⟨rfl, rfl⟩
    · cases hok
  | newHarvestRequest order bearer =>
    cases hok
    refine .inl ⟨?_, rfl⟩
    unfold writeConfirmedHarvestOrder
    cases db.userEpochOrder (order.accountKey, order.issuedAt.2) <;> rfl
  | harvestRequestCancelled ids => exact .inl ⟨snapshots_refunds hok, rfl⟩
  | _ =>
    cases hok
    exact .inl ⟨rfl, rfl⟩

theorem snapshots_foldlM {α : Type}
    {f : IndexerDB G V B T → α → Exec (IndexerDB G V B T)}
    {count : α → ℕ} (hf : ∀ {db db' a}, f db a = .ok db' →
      db'.merkleSnapshots = db.merkleSnapshots ∧ count a = 0 ∨
        db.merkleSnapshots.readBack ≠ none ∧ count a ≠ 0)
    {l : List α} (hok : l.foldlM f db = .ok db') :
    db'.merkleSnapshots = db.merkleSnapshots ∧ (l.map count).sum = 0 ∨
      db.merkleSnapshots.readBack ≠ none ∧ (l.map count).sum ≠ 0 := by
  induction l generalizing db with
  | nil =>
    cases hok
    exact .inl ⟨rfl, rfl⟩
  | cons a l ih =>
    rw [foldlM_cons] at hok
    obtain ⟨db₁, hdb₁, hok⟩ := bind_eq_ok.1 hok
    rw [map_cons, sum_cons]
    rcases hf hdb₁ with ⟨hsame, hzero⟩ | ⟨hsome, hne⟩
    · rcases ih hok with ⟨hsame', hzero'⟩ | ⟨hsome, hne⟩
      · exact .inl ⟨hsame'.trans hsame, by omega⟩
      · exact .inr ⟨hsame ▸ hsome, by omega⟩
    · exact .inr ⟨hsome, by omega⟩

theorem snapshots_indexBlocks (hok : blocks.foldlM (rollForward cfg) db = .ok db') :
    db'.merkleSnapshots = db.merkleSnapshots ∧ harvestsOf blocks = 0 ∨
      db.merkleSnapshots.readBack ≠ none ∧ harvestsOf blocks ≠ 0 :=
  snapshots_foldlM (fun hblock => snapshots_foldlM snapshots_indexEvent hblock) hok

/-! ## Rolling back -/

/-- **Rolling back the latest blocks** returns and restores every answer just when the blocks are
clean and have fewer harvests than trees are kept. -/
theorem restored_iff {es : List (Step G V B)}
    {blocks : List (Block G V B)} {db₁ : IndexerDB G V B T}
    (hvalid : ValidRun made cfg es) (hrun : run cfg es = .ok db)
    (hblocks : ValidBlocks made cfg (viewOf cfg (chain es)) blocks)
    (hindex : blocks.foldlM (rollForward cfg) db = .ok db₁) :
    (∃ db₂, blocks.reverse.foldlM rollBackward db₁ = .ok db₂ ∧ answers db₂ = answers db) ↔
      CleanBlocks cfg (viewOf cfg (chain es)) blocks ∧
        (harvestsOf blocks = 0 ∨ harvestsOf blocks < db₁.merkleSnapshots.size) := by
  have h := Reflects.run hvalid hrun
  have hv := sound_viewOf hvalid.chain
  have h₁ := h.indexBlocks hv hblocks hindex
  have htree := h.lastTree
  have hlast : (viewOf cfg (chain es)).trees.getLast? ≠ none :=
    mt List.getLast?_eq_none_iff.1 hv.trees
  -- A harvest among the blocks needed a tree of the index before them.
  have hkept : harvestsOf blocks ≠ 0 → db.merkleSnapshots.size ≠ 0 := by
    intro hne hzero
    rcases snapshots_indexBlocks hindex with ⟨-, hno⟩ | ⟨hsome, -⟩
    · exact hne hno
    · rw [if_pos hzero] at htree
      exact hsome htree
  constructor
  · rintro ⟨db₂, hdb₂, hanswers⟩
    obtain ⟨⟨hclean, -⟩, h₂, hsize⟩ := (h₁.unindexBlocks hv hblocks).spec _ hdb₂
    refine ⟨hclean, ?_⟩
    by_cases hzero : harvestsOf blocks = 0
    · exact .inl hzero
    · right
      have hsame := (h.answers_eq_iff h₂).1 hanswers
      rw [htree, if_neg (hkept hzero), h₂.lastTree] at hsame
      have hne : db₂.merkleSnapshots.size ≠ 0 := by
        intro hempty
        rw [if_pos hempty] at hsame
        exact hlast hsame.symm
      omega
  · rintro ⟨hclean, hfit⟩
    obtain ⟨db₂, hdb₂⟩ := (h₁.unindexBlocks hv hblocks).returns ⟨hclean, by omega⟩
    obtain ⟨-, h₂, hsize⟩ := (h₁.unindexBlocks hv hblocks).spec _ hdb₂
    refine ⟨db₂, hdb₂, (h.answers_eq_iff h₂).2 ?_⟩
    rw [h₂.lastTree, htree]
    by_cases hzero : harvestsOf blocks = 0
    · have hsame : db₂.merkleSnapshots.size = db.merkleSnapshots.size := by
        rcases snapshots_indexBlocks hindex with ⟨hsame, -⟩ | ⟨-, hne⟩
        · rw [hsame] at hsize
          omega
        · exact absurd hzero hne
      rw [hsame]
    · rw [if_neg (hkept hzero), if_neg (by omega)]

/-! ## A harvest and two orders of one user -/

def sampleSetup : Setup (List (Bytes 32)) where
  slotToEpoch slot := slot / 10 + 1
  networkId := 1
  newTree := []
  append tree leaves := tree ++ leaves
  spendHash _ := Bytes.replicate 32 0
  maxNumberMerkleTreeSnapshots := 20

/-- The second state of the wallet was made from the first one. -/
def sampleOrigins : Origins ℕ ℕ where
  wallet stateId := if stateId = 2 then some 1 else none
  gauge _ _ := none
  auth _ := none

def sampleOrder (id : ℕ) : HarvestOrder ℕ :=
  ⟨id, Bytes.replicate 28 1, (5, 1), ⟨.pubKey (Bytes.replicate 28 1), none⟩⟩

def sampleWallet (consumed : Option ℕ) (stateId balance : ℕ) :
    EntityUpdated (BufferWallet ℕ) ℕ Unit :=
  ⟨consumed, ⟨stateId, balance, Bytes.replicate 32 0⟩, ()⟩

def sampleCreation : Block ℕ ℕ Unit :=
  ⟨5, [.createBufferWalletAndAuthManager (sampleWallet none 1 50) ⟨none, ⟨1, []⟩, ()⟩,
    .newHarvestRequest (sampleOrder 3) ()]⟩

def sampleHarvest : Block ℕ ℕ Unit :=
  ⟨15, [.botHarvestingAction [(sampleOrder 3, 7)] (sampleWallet (some 1) 2 43) 7]⟩

def sampleSecondOrder : Block ℕ ℕ Unit := ⟨6, [.newHarvestRequest (sampleOrder 4) ()]⟩

theorem sampleCreation_valid : ValidRun sampleOrigins sampleSetup [.forward sampleCreation] :=
  ⟨trivial, ⟨⟨rfl, not_mem_nil, fun _ => rfl, nofun⟩, rfl, not_mem_nil, fun _ => rfl,
    nofun⟩, rfl, trivial⟩

theorem sampleHarvest_valid : ValidBlocks sampleOrigins sampleSetup
    (viewOf sampleSetup (chain [.forward sampleCreation])) [sampleHarvest] := by
  refine ⟨⟨⟨⟨rfl, by decide, nofun, ?_⟩, by decide, ?_⟩, trivial⟩, trivial⟩
  · rintro p ⟨⟩
    exact ⟨by decide, fun _ => rfl⟩
  · intro id hid o ho
    obtain rfl := mem_singleton.1 hid
    cases ho
    rfl

theorem sampleHarvest_undone : ∃ db db', run sampleSetup [.forward sampleCreation] = .ok db ∧
    run sampleSetup [.backward sampleHarvest, .forward sampleHarvest, .forward sampleCreation] =
      .ok db' ∧ answers db' = answers db := by
  have hvalid : ValidRun sampleOrigins sampleSetup
      [.backward sampleHarvest, .forward sampleHarvest, .forward sampleCreation] :=
    ⟨⟨sampleCreation_valid, sampleHarvest_valid.1⟩, rfl⟩
  exact ⟨_, _, rfl, rfl,
    (answers_of_chain sampleCreation_valid hvalid rfl rfl rfl).2 (by decide +kernel)⟩

theorem sampleHarvest_restored :
    ∃ db db₁ db₂, run sampleSetup [.forward sampleCreation] = .ok db ∧
      [sampleHarvest].foldlM (rollForward sampleSetup) db = .ok db₁ ∧
      [sampleHarvest].reverse.foldlM rollBackward db₁ = .ok db₂ ∧ answers db₂ = answers db := by
  obtain ⟨db, hdb⟩ : ∃ db, run sampleSetup [.forward sampleCreation] = .ok db := ⟨_, rfl⟩
  obtain ⟨db₁, hdb₁, hsize⟩ : ∃ db₁, [sampleHarvest].foldlM (rollForward sampleSetup) db = .ok db₁ ∧
      db₁.merkleSnapshots.size = 2 := by
    cases hdb
    exact ⟨_, rfl, by decide +kernel⟩
  obtain ⟨db₂, hdb₂, hanswers⟩ :=
    (restored_iff sampleCreation_valid hdb sampleHarvest_valid hdb₁).2
      ⟨⟨⟨rfl, trivial⟩, trivial⟩, .inr (by rw [hsize]; decide)⟩
  exact ⟨db, db₁, db₂, hdb, hdb₁, hdb₂, hanswers⟩

/-- A second order of a user in one epoch is ignored, and rolling its block back panics. -/
theorem sampleSecondOrder_panics :
    ValidRun sampleOrigins sampleSetup [.forward sampleCreation] ∧
      ValidBlocks sampleOrigins sampleSetup
        (viewOf sampleSetup (chain [.forward sampleCreation])) [sampleSecondOrder] ∧
      ∃ db db₁, run sampleSetup [.forward sampleCreation] = .ok db ∧
        [sampleSecondOrder].foldlM (rollForward sampleSetup) db = .ok db₁ ∧
        [sampleSecondOrder].reverse.foldlM rollBackward db₁ =
          .error (.explicit "Harvest order should be confirmed") := by
  exact ⟨sampleCreation_valid, ⟨⟨rfl, trivial⟩, trivial⟩, _, _, rfl, rfl, rfl⟩

end Splash.Rewards.Index
