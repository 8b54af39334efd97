import Splash.Dao.Escrow

/-!
# Redemptions

The loop of a redemption goes over the assets of the factory, and for each of them over the value of
the escrow. So the deposit of an asset is returned once, while the governance tokens of the escrow
are added to the factory once for each asset.

* `of_redeemAsset` — one asset.
* `of_foldlM_redeemAsset`, `kept_foldl` — all assets.
* `redeemVotingEscrow_spec` — the action.
-/

namespace Splash.Dao

open Lib Cardano VEFactory List Exec Option

/-! ## One asset -/

def VEFactory.inventory (f : VEFactory) (isLegacyAsset : Bool) : OrdMap Token ℕ :=
  if isLegacyAsset then f.legacyAssetsInventory else f.acceptedAssetsInventory

def VEFactory.withdraw (f : VEFactory) (t : Token) (qty : ℕ) (isLegacyAsset : Bool) : VEFactory :=
  if isLegacyAsset then
    { f with legacyAssetsInventory :=
        f.legacyAssetsInventory.insert t (Amounts.qty f.legacyAssetsInventory t - qty) }
  else
    { f with acceptedAssetsInventory :=
        f.acceptedAssetsInventory.insert t (Amounts.qty f.acceptedAssetsInventory t - qty) }

/-- An inventory has an entry with at least an amount. -/
def Stocks (inventory : OrdMap Token ℕ) (t : Token) (qty : ℕ) : Prop :=
  ∃ held, inventory.get? t = some held ∧ qty ≤ held

variable {entry : AcceptedAsset × Bool} {t : Token}

theorem of_takeFromInventory {inventory r : OrdMap Token ℕ} {qty : ℕ}
    (h : takeFromInventory inventory t qty = .ok r) :
    Stocks inventory t qty ∧ r = inventory.insert t (Amounts.qty inventory t - qty) := by
  unfold takeFromInventory at h
  obtain ⟨held, hheld, h⟩ := bind_eq_ok.1 h
  have hheld := expect_eq_ok.1 hheld
  split at h
  case isTrue hle =>
    cases h
    rw [Amounts.qty_of_some hheld]
    exact ⟨⟨held, hheld, hle⟩, rfl⟩
  case isFalse => cases h

theorem of_removeAssetFromInventory {f r : VEFactory} {qty : ℕ} {legacy : Bool}
    (h : f.removeAssetFromInventory t qty legacy = .ok r) :
    Stocks (f.inventory legacy) t qty ∧ r = f.withdraw t qty legacy := by
  unfold removeAssetFromInventory at h
  cases legacy with
  | true =>
    obtain ⟨inventory, hinventory, h⟩ := bind_eq_ok.1 h
    obtain ⟨hstocks, rfl⟩ := of_takeFromInventory hinventory
    cases h
    exact ⟨hstocks, rfl⟩
  | false =>
    obtain ⟨inventory, hinventory, h⟩ := bind_eq_ok.1 h
    obtain ⟨hstocks, rfl⟩ := of_takeFromInventory hinventory
    cases h
    exact ⟨hstocks, rfl⟩

section

variable (d : EscrowDeployment) (escrowValue : Value) (gt : ℕ) (identifier : Token)
  (acc : Redemption) (entry : AcceptedAsset × Bool)

/-- An escrow in which the governance tokens and the identifier are the only tokens of their
policies. -/
structure Redeemable : Prop where
  gtEntries : policyEntries escrowValue d.gtToken.policy = [(d.gtToken, gt)]
  identifierEntries : policyEntries escrowValue d.identifierPolicy = [(identifier, 1)]

def Redemption.pay (qty : ℕ) : Redemption :=
  { acc with
    ownerTokens := Amounts.add acc.ownerTokens entry.1.token qty
    factoryOut := acc.factoryOut.subUnsafe entry.1.token qty
    factory := acc.factory.withdraw entry.1.token qty entry.2
    burns := acc.burns ++ [⟨d.compositionToken entry.1.token, qty, false⟩] }

def Redemption.settle (gt : ℕ) (identifier : Token) : Redemption :=
  { acc with
    factoryOut := acc.factoryOut.addUnsafe d.gtToken gt
    factory := { acc.factory with gtTokensAvailable := acc.factory.gtTokensAvailable + gt }
    identifier := some identifier }

/-- What is done for one asset, by what the escrow has for it. -/
def Redemption.step : Redemption :=
  ((escrowValue.multiasset.get? (d.compositionToken entry.1.token)).elim acc
    (acc.pay d entry)).settle d gt identifier

/-- What the escrow has for an asset is in the inventory. -/
def InStock (f : VEFactory) (entry : AcceptedAsset × Bool) : Prop :=
  ∀ qty, escrowValue.multiasset.get? (d.compositionToken entry.1.token) = some qty →
    Stocks (f.inventory entry.2) entry.1.token qty

end

variable {acc r : Redemption}

section Asset

variable {d : EscrowDeployment} {escrowValue : Value} {gt : ℕ} {identifier : Token}

theorem of_returnDeposit (h : returnDeposit d escrowValue acc entry.1.token entry.2 = .ok r) :
    InStock d escrowValue acc.factory entry ∧
      r = (escrowValue.multiasset.get? (d.compositionToken entry.1.token)).elim acc
        (acc.pay d entry) := by
  unfold returnDeposit at h
  unfold InStock
  cases hget : escrowValue.multiasset.get? (d.compositionToken entry.1.token) with
  | none =>
    rw [hget] at h
    cases h
    exact ⟨fun qty hqty => (nomatch hqty), rfl⟩
  | some qty =>
    rw [hget] at h
    obtain ⟨f, hf, h⟩ := bind_eq_ok.1 h
    obtain ⟨hstocks, rfl⟩ := of_removeAssetFromInventory hf
    cases h
    exact ⟨fun qty' hqty => Option.some.inj hqty ▸ hstocks, rfl⟩

theorem of_redeemAsset (hvalue : Redeemable d escrowValue gt identifier)
    (h : redeemAsset d escrowValue acc entry = .ok r) :
    InStock d escrowValue acc.factory entry ∧ r = acc.step d escrowValue gt identifier entry := by
  obtain ⟨returned, hreturned, h⟩ := bind_eq_ok.1 h
  obtain ⟨hstock, rfl⟩ := of_returnDeposit hreturned
  unfold returnGt findIdentifier at h
  rw [hvalue.gtEntries, hvalue.identifierEntries] at h
  dsimp only at h
  rw [if_pos rfl] at h
  cases h
  exact ⟨hstock, rfl⟩

end Asset

/-! ## All assets -/

section Assets

variable {d : EscrowDeployment} {escrowValue : Value} {gt : ℕ} {identifier : Token}

def tokensIn (l : List (AcceptedAsset × Bool)) : List Token := l.map (·.1.token)

variable {acc : Redemption} {f : VEFactory} {l : List (AcceptedAsset × Bool)}

theorem inventory_withdraw_of_ne {t t' : Token} (h : t' ≠ t) (qty : ℕ) (legacy legacy' : Bool) :
    ((f.withdraw t qty legacy).inventory legacy').get? t' = (f.inventory legacy').get? t' := by
  unfold withdraw inventory
  cases legacy <;> cases legacy' <;> simp [OrdMap.get?_insert, h]

theorem inStock_of_step {entry other : AcceptedAsset × Bool} (hne : other.1.token ≠ entry.1.token)
    (h : InStock d escrowValue (acc.step d escrowValue gt identifier entry).factory other) :
    InStock d escrowValue acc.factory other := by
  have hget : ((acc.step d escrowValue gt identifier entry).factory.inventory other.2).get?
      other.1.token = (acc.factory.inventory other.2).get? other.1.token := by
    unfold Redemption.step
    cases escrowValue.multiasset.get? (d.compositionToken entry.1.token) with
    | none => rfl
    | some qty => exact inventory_withdraw_of_ne hne qty entry.2 other.2
  unfold InStock Stocks at h ⊢
  rwa [hget] at h

theorem of_foldlM_redeemAsset (hvalue : Redeemable d escrowValue gt identifier)
    (hnodup : (tokensIn l).Nodup)
    (h : l.foldlM (redeemAsset d escrowValue) acc = .ok r) :
    (∀ entry ∈ l, InStock d escrowValue acc.factory entry) ∧
      r = l.foldl (Redemption.step d escrowValue gt identifier) acc := by
  induction l generalizing acc with
  | nil =>
    cases h
    exact ⟨fun _ hmem => absurd hmem not_mem_nil, rfl⟩
  | cons entry l ih =>
    obtain ⟨hnot, hnodup⟩ := nodup_cons.1 hnodup
    rw [foldlM_cons] at h
    obtain ⟨next, hnext, h⟩ := bind_eq_ok.1 h
    obtain ⟨hstock, rfl⟩ := of_redeemAsset hvalue hnext
    obtain ⟨hrest, rfl⟩ := ih hnodup h
    refine ⟨forall_mem_cons.2 ⟨hstock, fun other hmem => ?_⟩, rfl⟩
    have hne : other.1.token ≠ entry.1.token := fun heq => hnot (mem_map.2 ⟨other, hmem, heq⟩)
    exact inStock_of_step hne (hrest other hmem)

/-- The assets of a factory are distinct, and are not tokens of the escrows. -/
structure PlainAssets (d : EscrowDeployment) (f : VEFactory) : Prop where
  nodup : (tokensIn (redeemableAssets f)).Nodup
  ne_gt : ∀ t ∈ tokensIn (redeemableAssets f), t.policy ≠ d.gtToken.policy
  ne_auth : ∀ t ∈ tokensIn (redeemableAssets f), t ≠ d.factoryAuthToken
  ne_composition : ∀ t ∈ tokensIn (redeemableAssets f), t.policy ≠ d.compositionPolicy
  ne_identifier : ∀ t ∈ tokensIn (redeemableAssets f), t.policy ≠ d.identifierPolicy

theorem PlainAssets.gt_not_mem (h : PlainAssets d f) :
    d.gtToken ∉ tokensIn (redeemableAssets f) := fun hmem => h.ne_gt _ hmem rfl

/-- The accepted assets are those that are not legacy ones. -/
theorem PlainAssets.isTokenAccepted_eq (h : PlainAssets d f) (hentry : entry ∈ redeemableAssets f) :
    isTokenAccepted entry.1.token f.acceptedAssets = !entry.2 := by
  unfold redeemableAssets at hentry
  have hnodup := h.nodup
  unfold tokensIn redeemableAssets at hnodup
  rw [map_append] at hnodup
  obtain hmem | hmem := mem_append.1 hentry
  · obtain ⟨asset, hasset, rfl⟩ := mem_map.1 hmem
    exact any_eq_true.2 ⟨asset, hasset, decide_eq_true rfl⟩
  · obtain ⟨asset, hasset, rfl⟩ := mem_map.1 hmem
    refine Bool.eq_false_iff.2 fun haccepted => ?_
    obtain ⟨other, hother, htoken⟩ := any_eq_true.1 haccepted
    have hfirst : asset.token ∈ (f.acceptedAssets.map (·, false)).map (·.1.token) :=
      mem_map.2 ⟨(other, false), mem_map.2 ⟨other, hother, rfl⟩, of_decide_eq_true htoken⟩
    have hsecond : asset.token ∈ (f.legacyAcceptedAssets.map (·, true)).map (·.1.token) :=
      mem_map.2 ⟨(asset, true), mem_map.2 ⟨asset, hasset, rfl⟩, rfl⟩
    exact disjoint_of_nodup_append hnodup hfirst hsecond

/-! ### Entries after the loop -/

theorem step_untouched (hne : t ≠ entry.1.token) :
    (t ≠ d.gtToken → (acc.step d escrowValue gt identifier entry).factoryOut.multiasset.get? t =
      acc.factoryOut.multiasset.get? t) ∧
    ∀ legacy, ((acc.step d escrowValue gt identifier entry).factory.inventory legacy).get? t =
      (acc.factory.inventory legacy).get? t := by
  unfold Redemption.step
  cases escrowValue.multiasset.get? (d.compositionToken entry.1.token) with
  | none =>
    refine ⟨fun hgt => ?_, fun legacy => rfl⟩
    simp only [elim_none, Redemption.settle, Value.addUnsafe]
    rw [Amounts.get?_add, if_neg hgt]
  | some qty =>
    refine ⟨fun hgt => ?_, fun legacy => inventory_withdraw_of_ne hne qty entry.2 legacy⟩
    simp only [elim_some, Redemption.settle, Redemption.pay, Value.addUnsafe, Value.subUnsafe]
    rw [Amounts.get?_add, if_neg hgt, Amounts.get?_sub, if_neg hne]

theorem foldl_step_untouched (hnot : t ∉ tokensIn l) :
    (t ≠ d.gtToken → (l.foldl (Redemption.step d escrowValue gt identifier)
      acc).factoryOut.multiasset.get? t = acc.factoryOut.multiasset.get? t) ∧
    ∀ legacy, ((l.foldl (Redemption.step d escrowValue gt identifier) acc).factory.inventory
      legacy).get? t = (acc.factory.inventory legacy).get? t := by
  induction l generalizing acc with
  | nil => exact ⟨fun _ => rfl, fun _ => rfl⟩
  | cons entry l ih =>
    obtain ⟨hne, hnot⟩ := not_or.1 (fun hor => hnot (mem_cons.2 hor))
    have hstep : (t ≠ d.gtToken → (acc.step d escrowValue gt identifier entry).factoryOut.multiasset.get?
          t = acc.factoryOut.multiasset.get? t) ∧
        ∀ legacy, ((acc.step d escrowValue gt identifier entry).factory.inventory legacy).get? t =
          (acc.factory.inventory legacy).get? t := step_untouched hne
    rw [foldl_cons]
    exact ⟨fun hgt => ((ih hnot).1 hgt).trans (hstep.1 hgt),
      fun legacy => ((ih hnot).2 legacy).trans (hstep.2 legacy)⟩

/-- What is left of an asset in the output of the factory and in its inventory. -/
theorem step_at (hgt : entry.1.token ≠ d.gtToken) :
    (acc.step d escrowValue gt identifier entry).factoryOut.multiasset.get? entry.1.token =
      (escrowValue.multiasset.get? (d.compositionToken entry.1.token)).elim
        (acc.factoryOut.multiasset.get? entry.1.token)
        (fun qty => (acc.factoryOut.multiasset.get? entry.1.token).bind (Amounts.rest qty)) ∧
    ((acc.step d escrowValue gt identifier entry).factory.inventory entry.2).get? entry.1.token =
      (escrowValue.multiasset.get? (d.compositionToken entry.1.token)).elim
        ((acc.factory.inventory entry.2).get? entry.1.token)
        (fun qty => some (Amounts.qty (acc.factory.inventory entry.2) entry.1.token - qty)) ∧
    ((acc.step d escrowValue gt identifier entry).factory.inventory (!entry.2)).get?
      entry.1.token = (acc.factory.inventory (!entry.2)).get? entry.1.token := by
  unfold Redemption.step
  cases escrowValue.multiasset.get? (d.compositionToken entry.1.token) with
  | none =>
    refine ⟨?_, rfl, rfl⟩
    simp only [elim_none, Redemption.settle, Value.addUnsafe]
    rw [Amounts.get?_add, if_neg hgt]
  | some qty =>
    refine ⟨?_, ?_, ?_⟩
    · simp only [elim_some, Redemption.settle, Redemption.pay, Value.addUnsafe,
        Value.subUnsafe]
      rw [Amounts.get?_add, if_neg hgt, Amounts.get?_sub, if_pos rfl]
    · simp only [elim_some, Redemption.settle, Redemption.pay, inventory,
        withdraw]
      cases entry.2 <;> simp
    · simp only [elim_some, Redemption.settle, Redemption.pay, inventory,
        withdraw]
      cases entry.2 <;> simp

theorem foldl_step_at (hnodup : (tokensIn l).Nodup)
    (hentry : entry ∈ l) (hgt : entry.1.token ≠ d.gtToken)
    (acc : Redemption) :
    (l.foldl (Redemption.step d escrowValue gt identifier) acc).factoryOut.multiasset.get?
        entry.1.token =
      (escrowValue.multiasset.get? (d.compositionToken entry.1.token)).elim
        (acc.factoryOut.multiasset.get? entry.1.token)
        (fun qty => (acc.factoryOut.multiasset.get? entry.1.token).bind (Amounts.rest qty)) ∧
    ((l.foldl (Redemption.step d escrowValue gt identifier) acc).factory.inventory entry.2).get?
        entry.1.token =
      (escrowValue.multiasset.get? (d.compositionToken entry.1.token)).elim
        ((acc.factory.inventory entry.2).get? entry.1.token)
        (fun qty => some (Amounts.qty (acc.factory.inventory entry.2) entry.1.token - qty)) ∧
    ((l.foldl (Redemption.step d escrowValue gt identifier) acc).factory.inventory (!entry.2)).get?
      entry.1.token = (acc.factory.inventory (!entry.2)).get? entry.1.token := by
  obtain ⟨before, after, rfl⟩ := append_of_mem hentry
  unfold tokensIn at hnodup
  rw [map_append, map_cons] at hnodup
  have hbefore : entry.1.token ∉ tokensIn before := by
    intro hmem
    exact disjoint_of_nodup_append hnodup hmem mem_cons_self
  have hafter : entry.1.token ∉ tokensIn after :=
    (nodup_cons.1 (nodup_append.1 hnodup).2.1).1
  rw [foldl_append, foldl_cons]
  -- the assets before and after this one leave its entries alone
  obtain ⟨hout, hinventory⟩ := foldl_step_untouched (d := d) hbefore
  obtain ⟨hout', hinventory'⟩ := foldl_step_untouched (d := d) hafter
  obtain ⟨hstep, hown, hother⟩ := step_at (d := d) hgt
  refine ⟨?_, ?_, ?_⟩
  · rw [hout' hgt, hstep, hout hgt]
  · rw [hinventory', hown, hinventory]
    unfold Amounts.qty
    rw [hinventory]
  · rw [hinventory', hother, hinventory]

/-! ### The governance tokens and the lists of assets -/

/-- What the loop keeps: the factory has the governance tokens of its output, and its assets are
those that it had. -/
structure Kept (d : EscrowDeployment) (f : VEFactory) (acc : Redemption) : Prop where
  available : acc.factoryOut.qty d.gtToken = acc.factory.gtTokensAvailable
  accepted : acc.factory.acceptedAssets = f.acceptedAssets
  legacy : acc.factory.legacyAcceptedAssets = f.legacyAcceptedAssets

section

variable (h : Kept d f acc) (hgt : d.gtToken ≠ entry.1.token)
include h hgt

theorem Kept.pay (qty : ℕ) : Kept d f (acc.pay d entry qty) := by
  have hout : (acc.pay d entry qty).factoryOut.qty d.gtToken = acc.factoryOut.qty d.gtToken := by
    simp only [Redemption.pay, Value.qty, Value.subUnsafe, Amounts.qty, Amounts.get?_sub, if_neg hgt]
  unfold Redemption.pay withdraw at *
  cases entry.2 with
  | false => exact ⟨hout.trans h.available, h.accepted, h.legacy⟩
  | true => exact ⟨hout.trans h.available, h.accepted, h.legacy⟩

omit hgt in
theorem Kept.settle : Kept d f (acc.settle d gt identifier) := by
  refine ⟨?_, h.accepted, h.legacy⟩
  simp only [Redemption.settle, Value.qty, Value.addUnsafe]
  rw [Amounts.qty_add, if_pos rfl]
  exact congrArg (· + gt) h.available

theorem Kept.step : Kept d f (acc.step d escrowValue gt identifier entry) := by
  unfold Redemption.step
  cases escrowValue.multiasset.get? (d.compositionToken entry.1.token) with
  | none => exact h.settle
  | some qty => exact (h.pay hgt qty).settle

end

theorem foldl_step_identifier (hl : l ≠ []) (acc : Redemption) :
    (l.foldl (Redemption.step d escrowValue gt identifier) acc).identifier = some identifier := by
  obtain ⟨l, entry, rfl⟩ := (eq_nil_or_concat l).resolve_left hl
  rw [concat_eq_append, foldl_append]
  rfl

theorem kept_foldl (hgt : d.gtToken ∉ tokensIn l) (h : Kept d f acc) :
    Kept d f (l.foldl (Redemption.step d escrowValue gt identifier) acc) := by
  induction l generalizing acc with
  | nil => exact h
  | cons entry l ih =>
    obtain ⟨hne, hgt⟩ := not_or.1 (fun hor => hgt (mem_cons.2 hor))
    exact ih hgt (h.step hne)

end Assets

/-! ## The action -/

def Redemption.start (factory : FactoryBundle) : Redemption where
  ownerTokens := OrdMap.empty
  factoryOut := factory.output.value
  factory := factory.state
  burns := []
  identifier := none

section

variable (d : EscrowDeployment) (order : RedeemVotingEscrowOrder) (escrow : EscrowBundle)
  (factory : FactoryBundle) (gt : ℕ) (identifier : Token)

def Redemption.finish : Redemption :=
  (redeemableAssets factory.state).foldl
    (Redemption.step d escrow.output.value gt identifier) (.start factory)

def redeemBlueprint (estimatedFee : ℕ) : Blueprint where
  inputs := [factory.output.value, escrow.output.value, order.bearer]
  mints := (Redemption.finish d escrow factory gt identifier).burns ++ [⟨identifier, 1, false⟩]
  first := ⟨d.minRequiredCoin (Redemption.finish d escrow factory gt identifier).factoryOut.multiasset,
    (Redemption.finish d escrow factory gt identifier).factoryOut.multiasset⟩
  second := ⟨d.minRequiredCoin (Redemption.finish d escrow factory gt identifier).ownerTokens,
    (Redemption.finish d escrow factory gt identifier).ownerTokens⟩
  estimatedFee := estimatedFee

structure RedeemedSpec (currentSlot estimatedFee txHash : ℕ) (r : Redeemed) : Prop where
  nonempty : redeemableAssets factory.state ≠ []
  stock : ∀ entry ∈ redeemableAssets factory.state,
    InStock d escrow.output.value factory.state entry
  tx : (redeemBlueprint d order escrow factory gt identifier estimatedFee).assemble = .ok r.tx
  factory : r.factory =
    { state :=
        { state := (Redemption.finish d escrow factory gt identifier).factory
          version := ⟨versionAt txHash 0, currentSlot⟩
          output := ⟨(redeemBlueprint d order escrow factory gt identifier estimatedFee).first,
            factory.output.datum⟩ }
      prevStateId := some factory.version }

end

section Action

variable {d : EscrowDeployment} {order : RedeemVotingEscrowOrder} {escrow : EscrowBundle}
  {factory : FactoryBundle} {gt nowInSeconds estimatedFee : ℕ} {identifier : Token}

theorem redeemVotingEscrow_spec {currentSlot txHash : ℕ} {r : Redeemed}
    (hvalue : Redeemable d escrow.output.value gt identifier)
    (hnodup : (tokensIn (redeemableAssets factory.state)).Nodup)
    (h : redeemVotingEscrow d order escrow factory nowInSeconds currentSlot estimatedFee txHash =
      .ok r) :
    RedeemedSpec d order escrow factory gt identifier currentSlot estimatedFee txHash r := by
  unfold redeemVotingEscrow at h
  obtain ⟨address, -, h⟩ := bind_eq_ok.1 h
  obtain ⟨-, -, h⟩ := bind_eq_ok.1 h
  dsimp only at h
  split at h
  · cases h
  obtain ⟨redemption, hredemption, h⟩ := bind_eq_ok.1 h
  obtain ⟨hstock, hfinish⟩ := of_foldlM_redeemAsset hvalue hnodup (attempt_eq_ok.1 hredemption)
  change redemption = Redemption.finish d escrow factory gt identifier at hfinish
  subst hfinish
  split at h
  · cases h
  case isFalse =>
    obtain ⟨token, htoken, h⟩ := bind_eq_ok.1 h
    obtain ⟨tx, htx, h⟩ := bind_eq_ok.1 h
    have htoken := expect_eq_ok.1 (attempt_eq_ok.1 htoken)
    cases h
    by_cases hempty : redeemableAssets factory.state = []
    · -- without assets there is no identifier
      unfold Redemption.finish at htoken
      rw [hempty] at htoken
      cases htoken
    · have hid : token = identifier := by
        have hfinal : (Redemption.finish d escrow factory gt identifier).identifier =
            some identifier := foldl_step_identifier hempty (.start factory)
        exact Option.some.inj (htoken.symm.trans hfinal)
      subst hid
      exact ⟨hempty, hstock, attempt_eq_ok.1 htx, rfl⟩

end Action

end Splash.Dao
