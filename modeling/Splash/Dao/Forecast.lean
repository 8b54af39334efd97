import Splash.Dao.Redemption

/-!
# Predicted escrows and factories

An action stores the states it predicts together with their outputs, before the change is added to
the second output. Here predictions are compared with the outputs of the transaction and with what
the readers find in them.

* `VEFactory.tryFromLedger_eq_some` — what the reader of factories finds.
* `Faithful` — the predicted states and outputs are those of the transaction.
* `forecast_faithful_iff` — which executed orders are predicted faithfully.
-/

namespace Splash.Dao

open Lib Cardano Redemption OrdMap Exec VotingEscrow List

/-! ## Readers -/

variable {d : EscrowDeployment} {v : Value} {f : VEFactory} {datum : VEFactoryDatum}
  {nowInSeconds currentSlot estimatedFee txHash : ℕ}

variable {amount : ℕ} {b : Built} {escrow : EscrowBundle} {t : Token}

theorem policyEntries_eq_singleton {policy : ℕ} : policyEntries v policy = [(t, amount)] ↔
      v.multiasset.get? t = some amount ∧ t.policy = policy ∧
        ∀ t', v.multiasset.has t' = true → t'.policy = policy → t' = t := by
  unfold policyEntries
  rw [filter_toList_eq_singleton]
  refine and_congr_right fun _ => and_congr decide_eq_true_iff ?_
  constructor
  · intro h t' hhas hpolicy
    obtain ⟨amount', hget⟩ := has_iff.1 hhas
    exact h t' amount' hget (decide_eq_true hpolicy)
  · intro h t' amount' hget hpolicy
    exact h t' (has_iff.2 ⟨amount', hget⟩) (of_decide_eq_true hpolicy)

/-- The entry of a token that a factory counts among its assets. -/
def isAssetEntry (d : EscrowDeployment) (entry : Token × ℕ) : Bool :=
  decide (entry.1.policy ≠ d.gtToken.policy) && !isAuthEntry d entry

structure ReadFactory (d : EscrowDeployment) (v : Value) (datum : VEFactoryDatum) (f : VEFactory) :
    Prop where
  gt : policyEntries v d.gtToken.policy = [(d.gtToken, f.gtTokensAvailable)]
  auth : v.multiasset.get? d.factoryAuthToken = some 1
  auth_ne : d.factoryAuthToken.policy ≠ d.gtToken.policy
  assets : ∀ t amount, v.multiasset.get? t = some amount → isAssetEntry d (t, amount) = true →
    isTokenAccepted t datum.acceptedAssets = true ∨
      isTokenAccepted t datum.legacyAcceptedAssets = true
  accepted : f.acceptedAssets = datum.acceptedAssets
  legacy : f.legacyAcceptedAssets = datum.legacyAcceptedAssets
  inventory : ∀ t amount, f.acceptedAssetsInventory.get? t = some amount ↔
    v.multiasset.get? t = some amount ∧ isAssetEntry d (t, amount) = true ∧
      isTokenAccepted t datum.acceptedAssets = true
  legacyInventory : ∀ t amount, f.legacyAssetsInventory.get? t = some amount ↔
    v.multiasset.get? t = some amount ∧ isAssetEntry d (t, amount) = true ∧
      isTokenAccepted t datum.acceptedAssets = false

theorem policyEntries_length (hget : v.multiasset.get? t = some amount) :
    (policyEntries v t.policy).length = 1 ↔ policyEntries v t.policy = [(t, amount)] := by
  constructor
  · intro h
    obtain ⟨entry, hentry⟩ := length_eq_one_iff.1 h
    have hmem : (t, amount) ∈ policyEntries v t.policy :=
      mem_filter.2 ⟨mem_toList_iff.2 hget, decide_eq_true rfl⟩
    rw [hentry] at hmem ⊢
    rw [mem_singleton.1 hmem]
  · intro h
    rw [h]
    rfl

section

variable (h : (policyEntries v d.gtToken.policy).length = 1)
include h

theorem otherEntries_of_single :
    otherEntries d v =
      v.multiasset.toList.filter fun entry => decide (entry.1.policy ≠ d.gtToken.policy) := by
  unfold otherEntries
  simp only [h, and_true]

theorem assetEntries_of_single :
    assetEntries d v = v.multiasset.toList.filter (isAssetEntry d) := by
  unfold assetEntries
  rw [otherEntries_of_single h, filter_filter]
  refine filter_congr fun entry _ => ?_
  unfold isAssetEntry
  rw [Bool.and_comm]

theorem any_isAuthEntry :
    (otherEntries d v).any (isAuthEntry d) = true ↔
      v.multiasset.get? d.factoryAuthToken = some 1 ∧
        d.factoryAuthToken.policy ≠ d.gtToken.policy := by
  rw [otherEntries_of_single h, any_eq_true]
  constructor
  · rintro ⟨entry, hentry, hauth⟩
    obtain ⟨hmem, hpolicy⟩ := mem_filter.1 hentry
    obtain ⟨htoken, hone⟩ := of_decide_eq_true hauth
    rw [← htoken, ← hone]
    exact ⟨mem_toList_iff.1 hmem, of_decide_eq_true hpolicy⟩
  · rintro ⟨hget, hpolicy⟩
    exact ⟨(d.factoryAuthToken, 1), mem_filter.2 ⟨mem_toList_iff.2 hget,
      decide_eq_true hpolicy⟩, decide_eq_true ⟨rfl, rfl⟩⟩

theorem all_accepted :
    ((assetEntries d v).all fun entry => isTokenAccepted entry.1 datum.acceptedAssets ||
        isTokenAccepted entry.1 datum.legacyAcceptedAssets) = true ↔
      ∀ t amount, v.multiasset.get? t = some amount → isAssetEntry d (t, amount) = true →
        isTokenAccepted t datum.acceptedAssets = true ∨
          isTokenAccepted t datum.legacyAcceptedAssets = true := by
  rw [assetEntries_of_single h, all_eq_true]
  simp only [Bool.or_eq_true]
  constructor
  · intro hall t amount hget hasset
    exact hall (t, amount) (mem_filter.2 ⟨mem_toList_iff.2 hget, hasset⟩)
  · intro hall entry hentry
    obtain ⟨hmem, hasset⟩ := mem_filter.1 hentry
    exact hall entry.1 entry.2 (mem_toList_iff.1 hmem) hasset

theorem get?_readInventory
    (p : Token → Bool) (t : Token) (amount : ℕ) :
    (Amounts.addAll empty ((assetEntries d v).filter fun entry => p entry.1)).get? t =
        some amount ↔
      v.multiasset.get? t = some amount ∧ isAssetEntry d (t, amount) = true ∧ p t = true := by
  rw [assetEntries_of_single h, filter_filter, Amounts.get?_addAll_filter, Bool.and_eq_true]
  tauto

end

/-- **What the reader of factories finds.** -/
theorem VEFactory.tryFromLedger_eq_some {out : Output (Option VEFactoryDatum)} :
    VEFactory.tryFromLedger d out = some f ↔
      ∃ datum, out.datum = some datum ∧ ReadFactory d out.value datum f := by
  unfold tryFromLedger
  rw [Option.bind_eq_some_iff]
  refine exists_congr fun datum => and_congr_right fun _ => ?_
  by_cases hlength : (policyEntries out.value d.gtToken.policy).length = 1
  · rw [if_pos hlength]
    have haccepted := get?_readInventory hlength fun t => isTokenAccepted t datum.acceptedAssets
    have hlegacy := get?_readInventory hlength fun t => !isTokenAccepted t datum.acceptedAssets
    constructor
    · intro h
      split at h
      case isFalse => exact nomatch h
      case isTrue hcond =>
        obtain ⟨gt, hgt, rfl⟩ := Option.map_eq_some_iff.1 h
        obtain ⟨hauth, hassets⟩ := hcond
        rw [any_isAuthEntry hlength] at hauth
        exact
          { gt := (policyEntries_length hgt).1 hlength
            auth := hauth.1
            auth_ne := hauth.2
            assets := (all_accepted hlength).1 hassets
            accepted := rfl
            legacy := rfl
            inventory := haccepted
            legacyInventory := fun t amount => by
              rw [hlegacy, Bool.not_eq_true'] }
    · intro h
      rw [if_pos ⟨(any_isAuthEntry hlength).2 ⟨h.auth, h.auth_ne⟩, (all_accepted hlength).2 h.assets⟩,
        (policyEntries_eq_singleton.1 h.gt).1, Option.map_some]
      congr 1
      obtain ⟨accepted, legacy, inventory, legacyInventory, gt⟩ := f
      obtain ⟨-, -, -, -, rfl, rfl, hinventory, hlegacyInventory⟩ := h
      congr 1
      · refine ext_get? fun t => Option.ext fun amount => ?_
        rw [haccepted, hinventory]
      · refine ext_get? fun t => Option.ext fun amount => ?_
        rw [hlegacy, hlegacyInventory, Bool.not_eq_true']
  · constructor
    · intro h
      rw [if_neg hlength] at h
      split at h
      · cases h
      · cases h
    · intro h
      exact absurd (congrArg List.length h.gt) hlength

/-! ## The factory after a redemption -/

theorem ReadFactory.get?_inventory
    (h : ReadFactory d v datum f) (legacy : Bool) (t : Token) (amount : ℕ) :
    (f.inventory legacy).get? t = some amount ↔
      v.multiasset.get? t = some amount ∧ isAssetEntry d (t, amount) = true ∧
        isTokenAccepted t datum.acceptedAssets = !legacy := by
  cases legacy with
  | true => exact h.legacyInventory t amount
  | false => exact h.inventory t amount

section Redeem

variable {d : EscrowDeployment} {escrow : EscrowBundle} {factory : FactoryBundle} {gt : ℕ}
  {identifier : Token} {datum : VEFactoryDatum}

theorem PlainAssets.isAssetEntry (h : PlainAssets d f) {t : Token}
    (ht : t ∈ tokensIn (redeemableAssets f)) (amount : ℕ) : isAssetEntry d (t, amount) = true := by
  unfold Dao.isAssetEntry isAuthEntry
  simp [h.ne_gt t ht, h.ne_auth t ht]

section

variable (hplain : PlainAssets d factory.state)
  (hread : ReadFactory d factory.output.value datum factory.state)
  (hnonempty : redeemableAssets factory.state ≠ [])
include hplain hread hnonempty

omit hnonempty in
theorem ReadFactory.get?_asset {entry : AcceptedAsset × Bool}
    (hentry : entry ∈ redeemableAssets factory.state) :
    (factory.state.inventory entry.2).get? entry.1.token =
      factory.output.value.multiasset.get? entry.1.token := by
  refine Option.ext fun amount => ?_
  rw [hread.get?_inventory, ← hread.accepted, hplain.isTokenAccepted_eq hentry]
  have hasset := hplain.isAssetEntry (mem_map.2 ⟨entry, hentry, rfl⟩) amount
  exact ⟨fun h => h.1, fun h => ⟨h, hasset, rfl⟩⟩

/-- Something of every returned asset is left in the factory. -/
def LeavesRemainder (d : EscrowDeployment) (escrow : EscrowBundle) (factory : FactoryBundle) : Prop :=
  ∀ entry ∈ redeemableAssets factory.state, ∀ qty,
    escrow.output.value.multiasset.get? (d.compositionToken entry.1.token) = some qty →
      qty < factory.output.value.qty entry.1.token

omit hnonempty in
/-- The entry of an asset in the output and in the inventory agree after a redemption when something
of it is left. -/
theorem finish_entry_iff {entry : AcceptedAsset × Bool}
    (hentry : entry ∈ redeemableAssets factory.state)
    (hstock : InStock d escrow.output.value factory.state entry) :
    ((finish d escrow factory gt identifier).factory.inventory entry.2).get?
        entry.1.token =
      (finish d escrow factory gt identifier).factoryOut.multiasset.get?
        entry.1.token ↔
      ∀ qty, escrow.output.value.multiasset.get? (d.compositionToken entry.1.token) = some qty →
        qty < factory.output.value.qty entry.1.token := by
  have hmem : entry.1.token ∈ tokensIn (redeemableAssets factory.state) :=
    mem_map.2 ⟨entry, hentry, rfl⟩
  have hgt : entry.1.token ≠ d.gtToken := fun heq => hplain.gt_not_mem (heq ▸ hmem)
  obtain ⟨hout, hown, -⟩ := foldl_step_at (d := d) hplain.nodup hentry hgt (.start factory)
  have hasset := hread.get?_asset hplain hentry
  unfold finish
  rw [hout, hown]
  change Option.elim _ ((factory.state.inventory entry.2).get? entry.1.token) (fun qty =>
    some (Amounts.qty (factory.state.inventory entry.2) entry.1.token - qty)) = Option.elim _
      (factory.output.value.multiasset.get? entry.1.token)
      (fun qty => (factory.output.value.multiasset.get? entry.1.token).bind (Amounts.rest qty)) ↔ _
  cases hqty : escrow.output.value.multiasset.get? (d.compositionToken entry.1.token) with
  | none => simp [hasset]
  | some qty =>
    obtain ⟨held, hheld, hle⟩ := hstock qty hqty
    have hvalue : factory.output.value.multiasset.get? entry.1.token = some held :=
      hasset.symm.trans hheld
    have hqtyValue : factory.output.value.qty entry.1.token = held := Amounts.qty_of_some hvalue
    simp only [Option.elim_some, Option.some.injEq, forall_eq', hvalue, Option.bind_some,
      Amounts.qty_of_some hheld, hqtyValue]
    unfold Amounts.rest
    by_cases hlt : held > qty
    · simp [hlt]
    · simp [hlt]

omit hplain hread in
theorem has_gt_finish :
    (finish d escrow factory gt identifier).factoryOut.multiasset.has d.gtToken = true := by
  obtain ⟨l, entry, hl⟩ := (eq_nil_or_concat _).resolve_left hnonempty
  unfold finish
  rw [hl, concat_eq_append, foldl_append]
  exact (Amounts.has_add _ _ _ _).2 (.inl rfl)

omit hnonempty in
theorem kept_finish :
    Kept d factory.state (finish d escrow factory gt identifier) :=
  kept_foldl hplain.gt_not_mem
    ⟨Amounts.qty_of_some (policyEntries_eq_singleton.1 hread.gt).1, rfl, rfl⟩

theorem finish_gt :
    (finish d escrow factory gt identifier).factoryOut.multiasset.get? d.gtToken =
      some (finish d escrow factory gt identifier).factory.gtTokensAvailable := by
  rw [Amounts.get?_of_has (has_gt_finish hnonempty)]
  exact congrArg some (kept_finish hplain hread).available

/-- **The predicted factory of a redemption is the one that is read** when something of every returned
asset is left: an asset that is used up stays listed in the inventory, without an amount. -/
theorem readFactory_finish_iff
    (hstock : ∀ entry ∈ redeemableAssets factory.state,
      InStock d escrow.output.value factory.state entry) :
    ReadFactory d (finish d escrow factory gt identifier).factoryOut datum
        (finish d escrow factory gt identifier).factory ↔
      LeavesRemainder d escrow factory := by
  have hkept : Kept d factory.state (finish d escrow factory gt identifier) :=
    kept_finish hplain hread
  have haccepted : (finish d escrow factory gt identifier).factory.acceptedAssets =
      datum.acceptedAssets := hkept.accepted.trans hread.accepted
  have huntouched : ∀ t, t ∉ tokensIn (redeemableAssets factory.state) →
      (t ≠ d.gtToken →
        (finish d escrow factory gt identifier).factoryOut.multiasset.get? t =
          factory.output.value.multiasset.get? t) ∧
      ∀ legacy, ((finish d escrow factory gt identifier).factory.inventory legacy).get? t =
        (factory.state.inventory legacy).get? t := fun t ht => foldl_step_untouched ht
  constructor
  · intro h entry hentry
    apply (finish_entry_iff hplain hread hentry (hstock entry hentry)).1
    refine Option.ext fun amount => ?_
    rw [h.get?_inventory, ← hread.accepted, hplain.isTokenAccepted_eq hentry]
    have hasset := hplain.isAssetEntry (mem_map.2 ⟨entry, hentry, rfl⟩) amount
    exact ⟨fun h => h.1, fun h => ⟨h, hasset, rfl⟩⟩
  · intro hleaves
    have hinventory : ∀ legacy t amount,
        ((finish d escrow factory gt identifier).factory.inventory legacy).get? t =
            some amount ↔
          (finish d escrow factory gt identifier).factoryOut.multiasset.get? t =
            some amount ∧ isAssetEntry d (t, amount) = true ∧
            isTokenAccepted t datum.acceptedAssets = !legacy := by
      intro legacy t amount
      by_cases hmem : t ∈ tokensIn (redeemableAssets factory.state)
      · obtain ⟨entry, hentry, rfl⟩ := mem_map.1 hmem
        have hasset := hplain.isAssetEntry hmem amount
        have hgt : entry.1.token ≠ d.gtToken := fun heq => hplain.gt_not_mem (heq ▸ hmem)
        rw [← hread.accepted, hplain.isTokenAccepted_eq hentry]
        by_cases hlegacy : legacy = entry.2
        · subst hlegacy
          rw [(finish_entry_iff hplain hread hentry (hstock entry hentry)).2 (hleaves entry hentry)]
          exact ⟨fun h => ⟨h, hasset, rfl⟩, fun h => h.1⟩
        · -- the other inventory does not list the asset, before and after
          have hnot : legacy = !entry.2 := by
            cases legacy <;> cases hflag : entry.2 <;> simp_all
          obtain ⟨-, -, hother⟩ := foldl_step_at (d := d) hplain.nodup hentry hgt (.start factory)
          subst hnot
          have hnone : ∀ amount, (factory.state.inventory (!entry.2)).get? entry.1.token ≠
              some amount := by
            intro amount hget
            have haccept := ((hread.get?_inventory _ _ _).1 hget).2.2
            rw [← hread.accepted, hplain.isTokenAccepted_eq hentry] at haccept
            cases hflag : entry.2 <;> simp_all
          constructor
          · intro h
            exact absurd (hother.symm.trans h) (hnone amount)
          · intro h
            have hflag := h.2.2
            cases hentry2 : entry.2 <;> simp_all
      · rw [(huntouched t hmem).2 legacy, hread.get?_inventory]
        by_cases hgt : t = d.gtToken
        · subst hgt
          have hnot : isAssetEntry d (d.gtToken, amount) = false := by
            unfold isAssetEntry
            simp
          simp [hnot]
        · rw [(huntouched t hmem).1 hgt]
    refine
      { gt := policyEntries_eq_singleton.2 ⟨finish_gt hplain hread hnonempty, rfl, ?_⟩
        auth := ?_
        auth_ne := hread.auth_ne
        assets := ?_
        accepted := haccepted
        legacy := hkept.legacy.trans hread.legacy
        inventory := hinventory false
        legacyInventory := hinventory true }
    · intro t hhas hpolicy
      by_contra hne
      have hnot : t ∉ tokensIn (redeemableAssets factory.state) := fun hmem =>
        hplain.ne_gt t hmem hpolicy
      unfold has at hhas
      rw [(huntouched t hnot).1 hne] at hhas
      exact hne ((policyEntries_eq_singleton.1 hread.gt).2.2 t hhas hpolicy)
    · have hnot : d.factoryAuthToken ∉ tokensIn (redeemableAssets factory.state) := fun hmem =>
        hplain.ne_auth _ hmem rfl
      have hne : d.factoryAuthToken ≠ d.gtToken := fun heq => hread.auth_ne (congrArg Token.policy heq)
      rw [(huntouched _ hnot).1 hne]
      exact hread.auth
    · intro t amount hget hasset
      by_cases hmem : t ∈ tokensIn (redeemableAssets factory.state)
      · obtain ⟨entry, hentry, rfl⟩ := mem_map.1 hmem
        obtain hfirst | hsecond := mem_append.1 hentry
        · obtain ⟨asset, hassetMem, rfl⟩ := mem_map.1 hfirst
          rw [hread.accepted] at hassetMem
          exact .inl (any_eq_true.2 ⟨asset, hassetMem, decide_eq_true rfl⟩)
        · obtain ⟨asset, hassetMem, rfl⟩ := mem_map.1 hsecond
          rw [hread.legacy] at hassetMem
          exact .inr (any_eq_true.2 ⟨asset, hassetMem, decide_eq_true rfl⟩)
      · have hne : t ≠ d.gtToken := by
          intro heq
          subst heq
          unfold isAssetEntry at hasset
          simp at hasset
        rw [(huntouched t hmem).1 hne] at hget
        exact hread.assets t amount hget hasset

end

end Redeem

/-! ## Forecasts -/

/-- The predicted factory is output 0 of the transaction, and what is read there. -/
structure FactoryForecast (d : EscrowDeployment) (spent : FactoryBundle) (tx : Tx)
    (next : Traced FactoryBundle TimedOutputRef) : Prop where
  output : tx.outputs[0]? = some next.state.output.value
  read : VEFactory.tryFromLedger d next.state.output = some next.state.state
  predecessor : next.prevStateId = some spent.version

/-- The predicted escrow is output 1 of the transaction, and what is read there. -/
structure EscrowForecast (d : EscrowDeployment) (spent : Option OutputRef) (tx : Tx)
    (next : Traced EscrowBundle OutputRef) : Prop where
  output : tx.outputs[1]? = some next.state.output.value
  read : tryFromLedger d next.state.output = some next.state.state
  predecessor : next.prevStateId = spent

/-- An order with the states that it is executed on. -/
inductive EscrowAction where
  | make (order : MakeVotingEscrowOrder) (factory : FactoryBundle)
  | extend (order : ExtendVotingEscrowOrder) (escrow : EscrowBundle) (factory : FactoryBundle)
  | redeem (order : RedeemVotingEscrowOrder) (escrow : EscrowBundle) (factory : FactoryBundle)

/-- The factory is the one in its output, and its assets are plain. -/
structure FactoryInSync (d : EscrowDeployment) (factory : FactoryBundle) : Prop where
  read : VEFactory.tryFromLedger d factory.output = some factory.state
  plain : PlainAssets d factory.state

namespace EscrowAction

section

variable (d : EscrowDeployment) (c : ActionContext)

/-- The states are those in their outputs. -/
def InSync : EscrowAction → Prop
  | .make _ factory => FactoryInSync d factory
  | .extend _ escrow factory =>
    FactoryInSync d factory ∧ tryFromLedger d escrow.output = some escrow.state
  | .redeem _ escrow factory =>
    FactoryInSync d factory ∧ tryFromLedger d escrow.output = some escrow.state

def Executes : EscrowAction → Prop
  | .make order factory => ∃ b, makeVotingEscrow d order factory c.nowInSeconds c.currentSlot
      c.estimatedFee c.txHash = .ok b
  | .extend order escrow factory => ∃ b, extendVotingEscrow d order escrow factory c.nowInSeconds
      c.currentSlot c.estimatedFee c.txHash = .ok b
  | .redeem order escrow factory => ∃ r, redeemVotingEscrow d order escrow factory c.nowInSeconds
      c.currentSlot c.estimatedFee c.txHash = .ok r

/-- What is predicted is what the transaction has. -/
def Faithful : EscrowAction → Prop
  | .make order factory => ∀ b, makeVotingEscrow d order factory c.nowInSeconds c.currentSlot
      c.estimatedFee c.txHash = .ok b →
        FactoryForecast d factory b.tx b.factory ∧ EscrowForecast d none b.tx b.escrow
  | .extend order escrow factory => ∀ b, extendVotingEscrow d order escrow factory c.nowInSeconds
      c.currentSlot c.estimatedFee c.txHash = .ok b →
        FactoryForecast d factory b.tx b.factory ∧
          EscrowForecast d (some escrow.version) b.tx b.escrow
  | .redeem order escrow factory => ∀ r, redeemVotingEscrow d order escrow factory c.nowInSeconds
      c.currentSlot c.estimatedFee c.txHash = .ok r → FactoryForecast d factory r.tx r.factory

/-- A redemption that uses up no asset of the factory. -/
def LeavesStock : EscrowAction → Prop
  | .make _ _ => False
  | .extend _ _ _ => False
  | .redeem _ escrow factory => LeavesRemainder d escrow factory

end

end EscrowAction

/-- The transaction is one in which the second output has a change that is not in a value. -/
def OmitsChange (tx : Tx) (stored : Value) : Prop :=
  ∃ blueprint : Blueprint, blueprint.assemble = .ok tx ∧ stored = blueprint.second

theorem OmitsChange.ne {tx : Tx} {stored : Value} (h : OmitsChange tx stored) :
    tx.outputs[1]? ≠ some stored := by
  obtain ⟨blueprint, hassemble, rfl⟩ := h
  obtain ⟨change, hpos, houtputs⟩ := Blueprint.outputs_of_assemble hassemble
  intro heq
  rw [houtputs] at heq
  have hcoin : blueprint.second.coin + change = blueprint.second.coin :=
    congrArg Value.coin (Option.some.inj heq)
  omega

variable {factory : FactoryBundle}

theorem makeVotingEscrow_omitsChange {order : MakeVotingEscrowOrder}
    (h : makeVotingEscrow d order factory nowInSeconds currentSlot estimatedFee txHash = .ok b) :
    OmitsChange b.tx b.escrow.state.output.value := by
  unfold makeVotingEscrow at h
  dsimp only at h
  split at h
  · cases h
  obtain ⟨deposited, -, h⟩ := bind_eq_ok.1 h
  obtain ⟨exchange, -, h⟩ := bind_eq_ok.1 h
  obtain ⟨gtTokensAvailable, -, h⟩ := bind_eq_ok.1 h
  split at h
  · cases h
  obtain ⟨escrowCoin, -, h⟩ := bind_eq_ok.1 h
  obtain ⟨tx, htx, h⟩ := bind_eq_ok.1 h
  cases h
  exact ⟨_, attempt_eq_ok.1 htx, rfl⟩

theorem extendVotingEscrow_omitsChange {order : ExtendVotingEscrowOrder}
    (h : extendVotingEscrow d order escrow factory nowInSeconds currentSlot estimatedFee txHash =
      .ok b) : OmitsChange b.tx b.escrow.state.output.value := by
  unfold extendVotingEscrow at h
  obtain ⟨-, -, h⟩ := bind_eq_ok.1 h
  obtain ⟨-, -, h⟩ := bind_eq_ok.1 h
  dsimp only at h
  split at h
  · cases h
  obtain ⟨deposited, -, h⟩ := bind_eq_ok.1 h
  obtain ⟨exchange, -, h⟩ := bind_eq_ok.1 h
  obtain ⟨gtTokensAvailable, -, h⟩ := bind_eq_ok.1 h
  split at h
  · cases h
  obtain ⟨escrowCoin, -, h⟩ := bind_eq_ok.1 h
  obtain ⟨tx, htx, h⟩ := bind_eq_ok.1 h
  cases h
  exact ⟨_, attempt_eq_ok.1 htx, rfl⟩

theorem entries_of_tryFromLedger {out : Output VotingEscrowConfig}
    {ve : VotingEscrow} (h : tryFromLedger d out = some ve) :
    out.value.multiasset.get? d.gtToken = some ve.govTokenAmount ∧
      ∃ entry, policyEntries out.value d.identifierPolicy = [entry] := by
  unfold tryFromLedger at h
  split at h
  case h_1 entry hentry =>
    split at h
    · cases h
    · obtain ⟨amount, hamount, rfl⟩ := Option.map_eq_some_iff.1 h
      exact ⟨hamount, entry, hentry⟩
  · cases h

theorem redeemable_of_redeemAsset {escrowValue : Value}
    {acc r : Redemption} {asset : AcceptedAsset × Bool} {gt : ℕ} {entry : Token × ℕ}
    (h : redeemAsset d escrowValue acc asset = .ok r)
    (hgt : escrowValue.multiasset.get? d.gtToken = some gt)
    (hid : policyEntries escrowValue d.identifierPolicy = [entry]) :
    Redeemable d escrowValue gt entry.1 := by
  unfold redeemAsset at h
  obtain ⟨returned, -, h⟩ := bind_eq_ok.1 h
  obtain ⟨settled, hsettled, h⟩ := bind_eq_ok.1 h
  have hmem : (d.gtToken, gt) ∈ policyEntries escrowValue d.gtToken.policy :=
    mem_filter.2 ⟨mem_toList_iff.2 hgt, decide_eq_true rfl⟩
  have hgtEntries : policyEntries escrowValue d.gtToken.policy = [(d.gtToken, gt)] := by
    unfold returnGt at hsettled
    split at hsettled
    case h_1 hnil =>
      rw [hnil] at hmem
      exact absurd hmem not_mem_nil
    case h_2 single hsingle =>
      rw [hsingle] at hmem ⊢
      rw [mem_singleton.1 hmem]
    case h_3 => exact nomatch hsettled
  have hone : entry.2 = 1 := by
    unfold findIdentifier at h
    rw [hid] at h
    dsimp only at h
    split at h
    case isTrue hone => exact hone
    case isFalse => exact nomatch h
  refine ⟨hgtEntries, ?_⟩
  rw [hid, ← hone]

theorem ReadFactory.congr {v v' : Value}
    (heq : v.multiasset = v'.multiasset) (h : ReadFactory d v datum f) :
    ReadFactory d v' datum f := by
  have hentries : policyEntries v' d.gtToken.policy = policyEntries v d.gtToken.policy := by
    unfold policyEntries
    rw [heq]
  exact
    { gt := hentries.trans h.gt
      auth := heq ▸ h.auth
      auth_ne := h.auth_ne
      assets := heq ▸ h.assets
      accepted := h.accepted
      legacy := h.legacy
      inventory := heq ▸ h.inventory
      legacyInventory := heq ▸ h.legacyInventory }

theorem redeemable_of_executed {order : RedeemVotingEscrowOrder} {r : Redeemed}
    (hread : tryFromLedger d escrow.output = some escrow.state)
    (h : redeemVotingEscrow d order escrow factory nowInSeconds currentSlot estimatedFee txHash =
      .ok r) :
    ∃ identifier, Redeemable d escrow.output.value escrow.state.govTokenAmount identifier := by
  obtain ⟨hgt, entry, hentry⟩ := entries_of_tryFromLedger hread
  unfold redeemVotingEscrow at h
  obtain ⟨address, -, h⟩ := bind_eq_ok.1 h
  obtain ⟨-, -, h⟩ := bind_eq_ok.1 h
  dsimp only at h
  split at h
  · cases h
  obtain ⟨redemption, hredemption, h⟩ := bind_eq_ok.1 h
  have hloop := attempt_eq_ok.1 hredemption
  cases hassets : redeemableAssets factory.state with
  | nil =>
    -- the identifier is looked for once for each asset
    rw [hassets] at hloop
    cases hloop
    split at h
    · cases h
    · cases h
  | cons asset assets =>
    rw [hassets, foldlM_cons] at hloop
    obtain ⟨next, hnext, -⟩ := bind_eq_ok.1 hloop
    exact ⟨entry.1, redeemable_of_redeemAsset hnext hgt hentry⟩

/-- **Which executed orders are predicted faithfully**: redemptions that leave something of every
returned asset. An escrow that is made or extended is stored without the change that its output
gets. -/
theorem forecast_faithful_iff {d : EscrowDeployment} {c : ActionContext} {a : EscrowAction}
    (hsync : a.InSync d) (hexecutes : a.Executes d c) : a.Faithful d c ↔ a.LeavesStock d := by
  cases a with
  | make order factory =>
    obtain ⟨b, hb⟩ := hexecutes
    refine iff_false_intro fun hfaithful => ?_
    exact (makeVotingEscrow_omitsChange hb).ne (hfaithful b hb).2.output
  | extend order escrow factory =>
    obtain ⟨b, hb⟩ := hexecutes
    refine iff_false_intro fun hfaithful => ?_
    exact (extendVotingEscrow_omitsChange hb).ne (hfaithful b hb).2.output
  | redeem order escrow factory =>
    obtain ⟨⟨hfactory, hplain⟩, hescrow⟩ := hsync
    obtain ⟨r, hr⟩ := hexecutes
    obtain ⟨datum, hdatum, hread⟩ := VEFactory.tryFromLedger_eq_some.1 hfactory
    obtain ⟨identifier, hvalue⟩ := redeemable_of_executed hescrow hr
    have hspec := redeemVotingEscrow_spec hvalue hplain.nodup hr
    have hiff : ReadFactory d
        (finish d escrow factory escrow.state.govTokenAmount identifier).factoryOut datum
        (finish d escrow factory escrow.state.govTokenAmount identifier).factory ↔
          LeavesRemainder d escrow factory :=
      readFactory_finish_iff hplain hread hspec.nonempty hspec.stock
    have htokens : (redeemBlueprint d order escrow factory escrow.state.govTokenAmount identifier
        c.estimatedFee).first.multiasset =
          (finish d escrow factory escrow.state.govTokenAmount
            identifier).factoryOut.multiasset := rfl
    constructor
    · intro hfaithful
      have hnext := (hfaithful r hr).read
      rw [hspec.factory] at hnext
      obtain ⟨datum', hdatum', hread'⟩ := VEFactory.tryFromLedger_eq_some.1 hnext
      cases hdatum.symm.trans hdatum'
      exact hiff.1 (hread'.congr htokens)
    · intro hleaves r' hr'
      cases hr.symm.trans hr'
      rw [hspec.factory]
      obtain ⟨change, -, houtputs⟩ := Blueprint.outputs_of_assemble hspec.tx
      exact
        { output := by rw [houtputs]; rfl
          read := VEFactory.tryFromLedger_eq_some.2 ⟨datum, hdatum, (hiff.2 hleaves).congr htokens.symm⟩
          predecessor := rfl }

/-! ## A redemption and an escrow that is made -/

/-- A factory with 20 of its asset and 100 governance tokens. -/
def sampleStockedFactory : FactoryBundle where
  state :=
    { acceptedAssets := [⟨⟨8, 1⟩, 1, 1⟩]
      legacyAcceptedAssets := []
      acceptedAssetsInventory := Amounts.add empty ⟨8, 1⟩ 20
      legacyAssetsInventory := empty
      gtTokensAvailable := 100 }
  version := ⟨⟨1, 0⟩, 10⟩
  output :=
    { value := ⟨2000000, Amounts.addAll empty [(⟨1, 1⟩, 100), (⟨2, 1⟩, 1), (⟨8, 1⟩, 20)]⟩
      datum := some ⟨[⟨⟨8, 1⟩, 1, 1⟩], []⟩ }

def sampleFilledEscrow : EscrowBundle where
  state :=
    { govTokenAmount := 7, gtToken := ⟨1, 1⟩, lockedUntil := .definite 1000, veIdentifierName := 9
      owner := .pubKey [1], version := 0, lastWpEpoch := -1, lastGpDeadline := -1, redeemed := false }
  version := ⟨1, 1⟩
  output :=
    { value := ⟨3000000, Amounts.addAll empty [(⟨1, 1⟩, 7), (⟨3, 73⟩, 7), (⟨4, 9⟩, 1)]⟩
      datum := ⟨.definite 1000, .pubKey [1], 0, -1, -1⟩ }

def sampleRedeem : RedeemVotingEscrowOrder where
  datum := ⟨⟨.definite 1000, .pubKey [1], 0, -1, -1⟩, 9, some 5⟩
  metadata := ⟨[1], 1, [], [], 0⟩
  outputRef := ⟨⟨3, 0⟩, 10⟩
  bearer := ⟨2000000, empty⟩

def sampleMake : MakeVotingEscrowOrder where
  veDatum := ⟨.definite 5000, .pubKey [1], 0, -1, -1⟩
  outputRef := ⟨⟨3, 0⟩, 10⟩
  bearer := ⟨5000000, Amounts.add empty ⟨8, 1⟩ 7⟩

def sampleMoment : ActionContext := ⟨2, 2000, 20, 200000, 77⟩

theorem sampleStockedFactory_inSync : FactoryInSync sampleDeployment sampleStockedFactory where
  read := by decide +kernel
  plain := ⟨by decide +kernel, by decide +kernel, by decide +kernel, by decide +kernel,
    by decide +kernel⟩

theorem exists_ok_of_isOk {ε α : Type} {x : Except ε α} (h : x.toBool = true) : ∃ a, x = .ok a := by
  cases x with
  | ok a => exact ⟨a, rfl⟩
  | error e => exact nomatch h

theorem sampleRedeem_faithful : EscrowAction.Faithful sampleDeployment sampleMoment
    (.redeem sampleRedeem sampleFilledEscrow sampleStockedFactory) := by
  have hsync : EscrowAction.InSync sampleDeployment
      (.redeem sampleRedeem sampleFilledEscrow sampleStockedFactory) :=
    ⟨sampleStockedFactory_inSync, by decide +kernel⟩
  have hexecutes : EscrowAction.Executes sampleDeployment sampleMoment
      (.redeem sampleRedeem sampleFilledEscrow sampleStockedFactory) :=
    exists_ok_of_isOk (by decide +kernel)
  refine (forecast_faithful_iff hsync hexecutes).2 ?_
  intro entry hentry qty hqty
  have hentry' : entry = (⟨⟨8, 1⟩, 1, 1⟩, false) := mem_singleton.1 hentry
  subst hentry'
  have hqty' : some 7 = some qty := hqty
  cases hqty'
  decide +kernel

/-- An escrow that is made is executed and not predicted faithfully. -/
theorem sampleMake_unfaithful :
    EscrowAction.InSync sampleDeployment (.make sampleMake sampleStockedFactory) ∧
      EscrowAction.Executes sampleDeployment sampleMoment (.make sampleMake sampleStockedFactory) ∧
      ¬ EscrowAction.Faithful sampleDeployment sampleMoment
        (.make sampleMake sampleStockedFactory) := by
  have hexecutes : EscrowAction.Executes sampleDeployment sampleMoment
      (.make sampleMake sampleStockedFactory) := exists_ok_of_isOk (by decide +kernel)
  refine ⟨sampleStockedFactory_inSync, hexecutes, fun hfaithful => ?_⟩
  obtain ⟨b, hb⟩ := hexecutes
  exact (makeVotingEscrow_omitsChange hb).ne (hfaithful b hb).2.output

end Splash.Dao
