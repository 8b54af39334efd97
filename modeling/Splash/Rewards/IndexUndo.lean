import Splash.Rewards.IndexView

/-!
# Indexing and undoing events

The tables of the index reflect a view of the chain; of the trees they have only the last ones.

* `Reflects` — the tables of an index reflect a view.
* `Reflects.indexEvent` — an indexed event leaves tables that reflect the view after it.
* `Reflects.unindexEvent` — an event that is undone leaves tables that reflect the view before it.
-/

set_option linter.unusedSectionVars false

namespace Splash.Rewards.Index

open Lib Data Cardano Function IndexerDB Versions List Exec

variable {G V B T : Type} [DecidableEq G] [DecidableEq V]

structure Reflects (made : Origins G V) (v : View G V B T)
    (db : IndexerDB G V B T) : Prop where
  wallets : Versions.Holds (fun _ => made.wallet) db.bufferWallets v.wallets
  gauges : Versions.Holds made.gauge db.gauges v.gauges
  auths : Versions.Holds (fun _ => made.auth) db.authManagers v.auths
  orders : HoldsOrders db.harvestOrders v.orders
  designated : db.userEpochOrder = v.designated
  epochs : HoldsEpochs db.endingEpochs v.epochs
  snapshots : ∃ l, db.merkleSnapshots.Holds l ∧ l <:+ v.trees

variable {made : Origins G V} {v : View G V B T}
  {db db' : IndexerDB G V B T} {cfg : Setup T} {slot : ℕ}

theorem reflects_new (made : Origins G V) (cfg : Setup T) :
    Reflects made (View.new cfg : View G V B T) (.new cfg) where
  wallets := holds_empty
  gauges := holds_empty
  auths := holds_empty
  orders := holds_empty
  designated := rfl
  epochs _ := rfl
  snapshots := ⟨_, CircularBuffer.holds_init.pushBack cfg.maxNumberMerkleTreeSnapshots _,
    CircularBuffer.Holds.pushed_suffix suffix_rfl⟩

/-! ## Versions -/

section

variable {Id S : Type} [DecidableEq Id] {origin : Id → V → Option V}
  {s s' : Versions Id V S} {th : Id → List (V × Traced V S)} {id : Id}
  {e : V × Traced V S}

section

variable (th : Id → List (V × Traced V S))

theorem push_self (id : Id) (e : V × Traced V S) : push th id e id = e :: th id :=
  update_self _ _ _

theorem push_of_ne (e : V × Traced V S) {j : Id} (h : j ≠ id) : push th id e j = th j :=
  update_of_ne h _ _

theorem update_push (id : Id) (e : V × Traced V S) : update (push th id e) id (th id) = th := by
  unfold push
  rw [update_idem, update_eq_self]

end

/-- A version can be removed when it was made from the one below it. -/
theorem removeVersion_gives (h : Versions.Holds origin s (push th id e))
    (hc : Versions.Continues (origin id) (th id) e.1 e.2.prevStateId) :
    Exec.Gives (removeVersion s id e.1 e.2.prevStateId)
      (e.2.prevStateId = tip (th id)) fun s' => Versions.Holds origin s' th := by
  unfold removeVersion
  refine .of_cases (fun hprev => ?_) fun hne s' hok => ?_
  · obtain ⟨s', hs', hholds⟩ := h.remove (push_self th id e) hprev
    rw [update_push] at hholds
    refine ⟨s', ?_, hholds⟩
    rw [hs']
    exact if_pos rfl
  · obtain ⟨r, hr, -⟩ := bind_eq_ok.1 hok
    obtain ⟨p, hp, hunknown⟩ := hc.unknown hne
    exact h.not_remove (push_self th id e) hp hunknown r hr

end

/-! ## Indexing -/

variable {a : EntityUpdated (AuthManager G V) V B}
  {g : EntityUpdated (Gauge G V) V B}
  {u : EntityUpdated (BufferWallet V) V B}

namespace Reflects

theorem writeWallet (h : Reflects made v db) (hu : WalletContinues made v u) :
    Reflects made { v with wallets := push v.wallets () (walletEntry u) }
      (db.writeConfirmedBufferWallet u) :=
  ⟨h.wallets.write hu, h.gauges, h.auths, h.orders, h.designated, h.epochs, h.snapshots⟩

theorem writeGauge (h : Reflects made v db) (hg : GaugeContinues made v g) :
    Reflects made { v with gauges := push v.gauges g.created.1.id (gaugeEntry g) }
      (db.writeConfirmedGauge g) :=
  ⟨h.wallets, h.gauges.write hg, h.auths, h.orders, h.designated, h.epochs, h.snapshots⟩

theorem writeAuth (h : Reflects made v db) (ha : AuthContinues made v a) :
    Reflects made { v with auths := push v.auths () (authEntry a) }
      (db.writeConfirmedAuthManager a) :=
  ⟨h.wallets, h.gauges, h.auths.write ha, h.orders, h.designated, h.epochs, h.snapshots⟩

end Reflects

section

variable {th : G → List (V × Traced V (Mod (Gauge G V × B)))}
  {g : EntityUpdated (Gauge G V) V B}
  {gs : List (EntityUpdated (Gauge G V) V B)}

theorem pushGauges_of_not_mem {id : G} (h : id ∉ gs.map fun g => g.created.1.id) :
    pushGauges th gs id = th id := by
  have hnone : gs.find? (fun g => g.created.1.id = id) = none := by
    rw [List.find?_eq_none]
    intro g hg
    rw [decide_eq_true_iff]
    exact fun hid => h (mem_map.2 ⟨g, hg, hid⟩)
  unfold pushGauges
  rw [hnone]
  rfl

theorem pushGauges_cons (h : g.created.1.id ∉ gs.map fun g => g.created.1.id) :
    pushGauges th (g :: gs) = push (pushGauges th gs) g.created.1.id (gaugeEntry g) := by
  funext id
  by_cases hid : id = g.created.1.id
  · subst hid
    rw [push_self, pushGauges_of_not_mem h]
    unfold pushGauges
    rw [List.find?_cons_of_pos (by simp)]
    rfl
  · rw [push_of_ne _ _ hid]
    unfold pushGauges
    rw [List.find?_cons_of_neg (by simpa using Ne.symm hid)]

theorem pushGauges_push (h : g.created.1.id ∉ gs.map fun g => g.created.1.id) :
    pushGauges (push th g.created.1.id (gaugeEntry g)) gs = pushGauges th (g :: gs) := by
  rw [pushGauges_cons h]
  funext id
  by_cases hid : id = g.created.1.id
  · subst hid
    rw [pushGauges_of_not_mem h, push_self, push_self, pushGauges_of_not_mem h]
  · rw [push_of_ne _ _ hid]
    unfold pushGauges
    rw [push_of_ne _ _ hid]

end

variable {gs : List (EntityUpdated (Gauge G V) V B × ℕ)}

namespace Reflects

theorem writeGauges (h : Reflects made v db) (hgs : ∀ g ∈ gs, GaugeContinues made v g.1)
    (hnodup : (gs.map fun g => g.1.created.1.id).Nodup) :
    Reflects made { v with gauges := pushGauges v.gauges (gs.map Prod.fst) }
      (gs.foldl (fun db g => db.writeConfirmedGauge g.1) db) := by
  induction gs generalizing v db with
  | nil => exact h
  | cons g gs ih =>
    obtain ⟨hnot, hnodup⟩ := nodup_cons.1 hnodup
    have hrest := ih (h.writeGauge (hgs g mem_cons_self)) (fun g' hg' => by
      have hne : g'.1.created.1.id ≠ g.1.created.1.id := fun hid =>
        hnot (mem_map.2 ⟨g', hg', hid⟩)
      have hold := hgs g' (mem_cons_of_mem _ hg')
      unfold GaugeContinues at hold
      rw [← push_of_ne v.gauges (gaugeEntry g.1) hne] at hold
      exact hold) hnodup
    rw [pushGauges_push (by simpa using hnot)] at hrest
    exact hrest

variable {orders : List (V × HarvestOrderSpend)} {payouts : List (HarvestOrder V × ℕ)}

theorem mapM_spendOf {epochEnd : ℕ} (h : HoldsEpochs db.endingEpochs v.epochs)
    (hok : payouts.mapM (db.spendOf cfg epochEnd) = .ok orders) :
    orders = payouts.map fun p => (p.1.id, ⟨p.2, (v.epochs p.1.accountKey).head?.elim 0 (· + 1),
      epochEnd, p.1.accountKey, p.1.rewardReceiver.toAddress cfg.networkId⟩) := by
  induction payouts generalizing orders with
  | nil =>
    cases hok
    rfl
  | cons p payouts ih =>
    rw [mapM_cons] at hok
    obtain ⟨o, ho, hok⟩ := bind_eq_ok.1 hok
    obtain ⟨os, hos, hok⟩ := bind_eq_ok.1 hok
    cases hok
    rw [ih hos, map_cons]
    unfold spendOf lastEpochHarvested at ho
    simp only [h.last] at ho
    split at ho
    · cases ho
      rfl
    · cases ho

theorem indexHarvest (h : Reflects made v db) (hv : Sound v)
    (hunspent : OrdersUnspent v (payouts.map fun p => p.1.id))
    (hslot : 0 < cfg.slotToEpoch slot)
    (horders : payouts.mapM (db.spendOf cfg (cfg.slotToEpoch slot - 1)) = .ok orders)
    (hok : db.writeConfirmedSpendHarvestOrders cfg orders slot = .ok db') :
    Reflects made { v with
      orders := mark v.orders (payouts.map fun p => p.1.id) (.spent (cfg.slotToEpoch slot))
      epochs := pushEpochs v.epochs (payouts.map fun p => p.1.accountKey)
        (cfg.slotToEpoch slot - 1)
      trees := v.trees ++ [v.nextTree cfg slot payouts] } db' := by
  obtain ⟨l, hl, hsuffix⟩ := h.snapshots
  have heq := mapM_spendOf h.epochs horders
  have hids : orders.map Prod.fst = payouts.map fun p => p.1.id := by
    rw [heq, map_map]
    rfl
  have husers : (orders.map fun o => o.2.user) = payouts.map fun p => p.1.accountKey := by
    rw [heq, map_map]
    rfl
  have hends : ∀ o ∈ orders, o.2.epochEnd = cfg.slotToEpoch slot - 1 := by
    intro o ho
    rw [heq] at ho
    obtain ⟨p, -, rfl⟩ := mem_map.1 ho
    rfl
  obtain ⟨s', hs', hs⟩ := h.orders.confirmSpends (cfg.slotToEpoch slot) (l := orders) hv.id_eq
    (fun o ho => by rw [hends o ho]; omega) (hids ▸ hunspent.1) (hids ▸ hunspent.2)
  unfold writeConfirmedSpendHarvestOrders at hok
  rw [hs'] at hok
  obtain ⟨last, hlast, rfl⟩ : ∃ last, db.merkleSnapshots.readBack = some last ∧ _ = db' := by
    cases hread : db.merkleSnapshots.readBack with
    | none =>
      rw [hread] at hok
      cases hok
    | some last =>
      rw [hread] at hok
      exact ⟨last, rfl, Except.ok.inj hok⟩
  have htree : (v.trees.getLast?.map fun t => t.tree).getD cfg.newTree = last.tree := by
    rw [hl.readBack] at hlast
    obtain ⟨front, hfront⟩ := hsuffix
    rw [← hfront, List.getLast?_append, hlast]
    rfl
  refine ⟨h.wallets, h.gauges, h.auths, hids ▸ hs, h.designated, ?_, ?_⟩
  · rw [← husers]
    exact h.epochs.adds hends
  · refine ⟨_, hl.pushBack cfg.maxNumberMerkleTreeSnapshots _, ?_⟩
    have hnext : (⟨cfg.append last.tree (orders.map fun o => cfg.spendHash o.2), slot⟩ :
        IndexedMerkleTree T) = v.nextTree cfg slot payouts := by
      unfold View.nextTree
      rw [htree, heq, map_map]
      rfl
    rw [← hnext]
    exact CircularBuffer.Holds.pushed_suffix hsuffix

theorem request (h : Reflects made v db) (order : HarvestOrder V) (bearer : B) :
    Reflects made (v.request order bearer) (db.writeConfirmedHarvestOrder order bearer) := by
  unfold View.request writeConfirmedHarvestOrder
  rw [h.designated]
  cases hkey : v.designated (order.accountKey, order.issuedAt.2) with
  | some id => exact h
  | none =>
    exact ⟨h.wallets, h.gauges, h.auths, h.orders.put (w := ⟨order, .unspent⟩) bearer, rfl,
      h.epochs, h.snapshots⟩

end Reflects

/-! ## Refunds -/

def View.refund (v : View G V B T) (ids : List V) :
    View G V B T :=
  { v with
    orders := mark v.orders ids .refunded
    designated := undesignate v.designated ids }

section

variable {id : V} {ids : List V} {o : HarvestOrderWrap V × B}

@[simp] theorem undesignate_nil (m : Ed25519KeyHash × ℕ → Option V) :
    undesignate m [] = m := by
  funext key
  apply Option.ext
  intro j
  rw [undesignate_eq_some]
  simp

theorem undesignateOrderInEpoch_eq {m : Ed25519KeyHash × ℕ → Option V}
    {key : Ed25519KeyHash × ℕ} (h : m key = some id) :
    undesignateOrderInEpoch m key id = .ok (update m key none) := by
  unfold undesignateOrderInEpoch
  rw [h]
  exact if_pos rfl

theorem undesignate_undesignate (m : Ed25519KeyHash × ℕ → Option V) (id : V)
    (ids : List V) :
    undesignate (undesignate m [id]) ids = undesignate m (id :: ids) := by
  funext key
  apply Option.ext
  intro j
  rw [undesignate_eq_some, undesignate_eq_some, undesignate_eq_some]
  simp only [mem_cons, not_mem_nil, or_false, not_or]
  tauto

theorem refund_refund (v : View G V B T) (id : V) (ids : List V) :
    (v.refund [id]).refund ids = v.refund (id :: ids) := by
  unfold View.refund
  rw [mark_mark, undesignate_undesignate]

/-- An order that is not kept has no designation. -/
theorem Sound.undesignate_unknown (hv : Sound v) (ho : v.orders id = none) (ids : List V) :
    undesignate v.designated (id :: ids) = undesignate v.designated ids := by
  funext key
  apply Option.ext
  intro j
  rw [undesignate_eq_some, undesignate_eq_some, mem_cons, not_or]
  refine ⟨fun h => ⟨h.1, h.2.2⟩, fun h => ⟨h.1, fun hj => ?_, h.2⟩⟩
  obtain ⟨o, ho', -⟩ := hv.of_designated key j h.1
  rw [hj, ho] at ho'
  cases ho'

/-- An order can only have the designation of its key. -/
theorem Sound.update_undesignate (hv : Sound v) (ho : v.orders id = some o) (ids : List V)
    (new : Option V) :
    update (undesignate v.designated (id :: ids)) o.1.key new =
      update (undesignate v.designated ids) o.1.key new := by
  funext key
  by_cases hkey : key = o.1.key
  · subst hkey
    rw [update_self, update_self]
  · rw [update_of_ne hkey, update_of_ne hkey]
    apply Option.ext
    intro j
    rw [undesignate_eq_some, undesignate_eq_some, mem_cons, not_or]
    refine ⟨fun h => ⟨h.1, h.2.2⟩, fun h => ⟨h.1, fun hj => hkey ?_, h.2⟩⟩
    obtain ⟨o', ho', hkey', -⟩ := hv.of_designated key j h.1
    rw [hj, ho] at ho'
    cases ho'
    exact hkey'.symm

theorem Sound.designated_unspent (hv : Sound v) (ho : v.orders id = some o)
    (hunspent : o.1.status = .unspent) : v.designated o.1.key = some id :=
  hv.designated_of id o ho fun h => nomatch hunspent.symm.trans h

theorem Sound.view_refund (hv : Sound v) (ids : List V) : Sound (v.refund ids) := hv.refund ids

end

namespace Reflects

variable {id : V} {ids : List V}

theorem refundOne (h : Reflects made v db) (hv : Sound v)
    (hunspent : ∀ o, v.orders id = some o → o.1.status = .unspent) :
    ∃ db', db.writeConfirmedRefundHarvestOrder id = .ok db' ∧ Reflects made (v.refund [id]) db' := by
  unfold writeConfirmedRefundHarvestOrder View.refund
  rw [h.orders.read, mark_cons, mark_nil]
  cases ho : v.orders id with
  | none =>
    refine ⟨db, rfl, h.wallets, h.gauges, h.auths, ?_, ?_, h.epochs, h.snapshots⟩
    · rw [Option.map_none, ← ho, update_eq_self]
      exact h.orders
    · rw [hv.undesignate_unknown ho, undesignate_nil]
      exact h.designated
  | some o =>
    have hkey := hv.designated_unspent ho (hunspent o ho)
    have hput := h.orders.put (w := { o.1 with status := .refunded }) o.2
    rw [show ({ o.1 with status := .refunded } : HarvestOrderWrap V).order.id = id from
      hv.id_eq id o ho] at hput
    refine ⟨{ db with
        harvestOrders := db.harvestOrders.put { o.1 with status := .refunded } o.2 none
        userEpochOrder := update v.designated o.1.key none }, ?_,
      h.wallets, h.gauges, h.auths, hput, ?_, h.epochs, h.snapshots⟩
    · simp only [Option.map_some, Option.elim_some, Option.isSome_none, Bool.false_eq_true,
        if_false]
      rw [h.designated, undesignateOrderInEpoch_eq hkey]
      rfl
    · have hgone : undesignate v.designated [id] o.1.key = none := by
        unfold undesignate
        rw [hkey]
        simp
      have hupdate := hv.update_undesignate ho [] none
      rw [undesignate_nil] at hupdate
      rw [← hupdate, ← hgone, update_eq_self]

theorem refunds (h : Reflects made v db) (hv : Sound v) (hunspent : OrdersUnspent v ids) :
    ∃ db', ids.foldlM (fun db id => db.writeConfirmedRefundHarvestOrder id) db = .ok db' ∧
      Reflects made (v.refund ids) db' := by
  induction ids generalizing v db with
  | nil =>
    refine ⟨db, rfl, ?_⟩
    have hsame : v.refund [] = v := by
      unfold View.refund
      rw [mark_nil, undesignate_nil]
    rwa [hsame]
  | cons id ids ih =>
    obtain ⟨hnot, hnodup⟩ := nodup_cons.1 hunspent.1
    obtain ⟨db₁, hdb₁, h₁⟩ := h.refundOne hv (hunspent.2 id mem_cons_self)
    obtain ⟨db₂, hdb₂, h₂⟩ := ih h₁ (hv.view_refund [id]) ⟨hnodup, fun j hj o ho => by
      have hne : j ∉ [id] := fun hone => hnot (mem_singleton.1 hone ▸ hj)
      exact hunspent.2 j (mem_cons_of_mem _ hj) o ((mark_of_not_mem hne).symm.trans ho)⟩
    refine ⟨db₂, ?_, refund_refund v id ids ▸ h₂⟩
    rw [foldlM_cons, hdb₁]
    exact hdb₂

theorem unrefundOne (h : Reflects made (v.refund (id :: ids)) db) (hv : Sound v) (hnot : id ∉ ids)
    (hunspent : ∀ o, v.orders id = some o → o.1.status = .unspent) :
    ∃ db', db.undoConfirmedRefundHarvestOrder id = .ok db' ∧ Reflects made (v.refund ids) db' ∧
      db'.merkleSnapshots = db.merkleSnapshots := by
  have horders : HoldsOrders db.harvestOrders (mark v.orders (id :: ids) .refunded) := h.orders
  have hdesignated : db.userEpochOrder = undesignate v.designated (id :: ids) := h.designated
  unfold undoConfirmedRefundHarvestOrder
  cases ho : v.orders id with
  | none =>
    obtain ⟨hread, hrest⟩ := horders.of_unknown ho
    rw [hread]
    exact ⟨db, rfl, ⟨h.wallets, h.gauges, h.auths, hrest,
      hdesignated.trans (hv.undesignate_unknown ho ids), h.epochs, h.snapshots⟩, rfl⟩
  | some o =>
    have hrest := horders.restore hnot ho (hv.id_eq id o ho) (hunspent o ho)
    have hkey := hv.designated_unspent ho (hunspent o ho)
    have hgone : undesignate v.designated (id :: ids) o.1.key = none := by
      unfold undesignate
      rw [hkey]
      simp
    have hback : undesignate v.designated ids o.1.key = some id :=
      undesignate_eq_some.2 ⟨hkey, hnot⟩
    rw [horders.read_marked ho]
    refine ⟨{ db with
        harvestOrders := db.harvestOrders.put { o.1 with status := .unspent } o.2 none
        userEpochOrder := update db.userEpochOrder o.1.key (some id) }, ?_,
      ⟨h.wallets, h.gauges, h.auths, hrest, ?_, h.epochs, h.snapshots⟩, rfl⟩
    · have hfree : (db.userEpochOrder o.1.key).isSome = false := by
        rw [hdesignated, hgone]
        rfl
      simp only [Option.elim_some, ne_eq, not_true_eq_false, if_false, Option.isSome_none,
        Bool.false_eq_true]
      exact if_neg (Bool.eq_false_iff.1 hfree)
    · show update db.userEpochOrder o.1.key (some id) = undesignate v.designated ids
      rw [hdesignated, hv.update_undesignate ho, ← hback, update_eq_self]

theorem unrefunds (h : Reflects made (v.refund ids) db) (hv : Sound v)
    (hunspent : OrdersUnspent v ids) :
    ∃ db', ids.foldlM (fun db id => db.undoConfirmedRefundHarvestOrder id) db = .ok db' ∧
      Reflects made v db' ∧ db'.merkleSnapshots = db.merkleSnapshots := by
  induction ids generalizing db with
  | nil =>
    unfold View.refund at h
    rw [mark_nil, undesignate_nil] at h
    exact ⟨db, rfl, h, rfl⟩
  | cons id ids ih =>
    obtain ⟨hnot, hnodup⟩ := nodup_cons.1 hunspent.1
    obtain ⟨db₁, hdb₁, h₁, hsame₁⟩ :=
      h.unrefundOne hv hnot (hunspent.2 id mem_cons_self)
    obtain ⟨db₂, hdb₂, h₂, hsame₂⟩ :=
      ih h₁ ⟨hnodup, fun j hj => hunspent.2 j (mem_cons_of_mem _ hj)⟩
    refine ⟨db₂, ?_, h₂, hsame₂.trans hsame₁⟩
    rw [foldlM_cons, hdb₁]
    exact hdb₂

variable {e : OnChainEvent G V B}

/-- **Indexing an event.** -/
theorem indexEvent (h : Reflects made v db) (hv : Sound v) (he : Valid made v e)
    (hok : indexEvent cfg slot db e = .ok db') : Reflects made (v.apply cfg slot e) db' := by
  cases e with
  | botHarvestingAction payouts u w =>
    simp only [Index.indexEvent] at hok
    split at hok
    case isTrue hslot =>
      obtain ⟨orders, horders, hok⟩ := bind_eq_ok.1 hok
      exact (h.writeWallet he.1).indexHarvest (hv.of_eq rfl rfl hv.trees) he.2 hslot horders hok
    case isFalse => cases hok
  | botGaugeBufferingAction drained u w =>
    cases hok
    exact (h.writeWallet he.1).writeGauges he.2.1 he.2.2
  | createBufferWalletAndAuthManager u a =>
    simp only [Index.indexEvent] at hok
    split at hok
    · cases hok
      exact (h.writeAuth he.2).writeWallet he.1
    · cases hok
  | createGauge g =>
    cases hok
    exact h.writeGauge he
  | chargeGauges g w =>
    cases hok
    exact h.writeGauge he
  | authManagerUpdated a =>
    cases hok
    exact h.writeAuth he
  | newHarvestRequest order bearer =>
    cases hok
    exact h.request order bearer
  | harvestRequestCancelled ids =>
    obtain ⟨db₁, hdb₁, h₁⟩ := h.refunds hv he
    cases hdb₁.symm.trans hok
    exact h₁
  | funding =>
    cases hok
    exact h

/-! ## Undoing -/

section

variable {v' : View G V B T}

theorem removeWallet (h : Reflects made v' db)
    {th : Unit → List (V × Traced V (Mod (BufferWalletWrap V T × B)))}
    (hth : v'.wallets = push th () (walletEntry u))
    (hc : Versions.Continues made.wallet (th ()) u.created.1.stateId u.consumed) :
    Exec.Gives (db.removeBufferWallet u) (u.consumed = tip (th ())) fun db' =>
      Reflects made { v' with wallets := th } db' ∧ db'.merkleSnapshots = db.merkleSnapshots := by
  have hremove := removeVersion_gives (e := walletEntry u) (hth ▸ h.wallets) hc
  exact hremove.map fun _ hs =>
    ⟨⟨hs, h.gauges, h.auths, h.orders, h.designated, h.epochs, h.snapshots⟩, rfl⟩

theorem removeAuth (h : Reflects made v' db)
    {th : Unit → List (V × Traced V (Mod (AuthManager G V × B)))}
    (hth : v'.auths = push th () (authEntry a))
    (hc : Versions.Continues made.auth (th ()) a.created.1.stateId a.consumed) :
    Exec.Gives (db.removeAuthManager a) (a.consumed = tip (th ())) fun db' =>
      Reflects made { v' with auths := th } db' ∧ db'.merkleSnapshots = db.merkleSnapshots := by
  have hremove := removeVersion_gives (e := authEntry a) (hth ▸ h.auths) hc
  exact hremove.map fun _ hs =>
    ⟨⟨h.wallets, h.gauges, hs, h.orders, h.designated, h.epochs, h.snapshots⟩, rfl⟩

theorem removeGauge (h : Reflects made v' db)
    {th : G → List (V × Traced V (Mod (Gauge G V × B)))}
    (hth : v'.gauges = push th g.created.1.id (gaugeEntry g))
    (hc : Versions.Continues (made.gauge g.created.1.id) (th g.created.1.id) g.created.1.stateId
      g.consumed) :
    Exec.Gives (db.removeGauge g) (g.consumed = tip (th g.created.1.id)) fun db' =>
      Reflects made { v' with gauges := th } db' ∧ db'.merkleSnapshots = db.merkleSnapshots := by
  have hremove := removeVersion_gives (e := gaugeEntry g) (hth ▸ h.gauges) hc
  exact hremove.map fun _ hs =>
    ⟨⟨h.wallets, hs, h.auths, h.orders, h.designated, h.epochs, h.snapshots⟩, rfl⟩

end

theorem removeGauges
    (h : Reflects made { v with gauges := pushGauges v.gauges (gs.map Prod.fst) } db)
    (hgs : ∀ g ∈ gs, GaugeContinues made v g.1)
    (hnodup : (gs.map fun g => g.1.created.1.id).Nodup) :
    Exec.Gives (gs.foldlM (fun db g => db.removeGauge g.1) db)
      (∀ g ∈ gs, g.1.consumed = tip (v.gauges g.1.created.1.id)) fun db' =>
      Reflects made v db' ∧ db'.merkleSnapshots = db.merkleSnapshots := by
  induction gs generalizing db with
  | nil => exact (Exec.Gives.ok ⟨h, rfl⟩).congr (by simp) fun _ => id
  | cons g gs ih =>
    obtain ⟨hnot, hnodup⟩ := nodup_cons.1 hnodup
    have hnot' : g.1.created.1.id ∉ (gs.map Prod.fst).map fun g => g.created.1.id := by
      simpa using hnot
    have hbelow : pushGauges v.gauges (gs.map Prod.fst) g.1.created.1.id = v.gauges _ :=
      pushGauges_of_not_mem hnot'
    have hone := h.removeGauge (pushGauges_cons hnot')
      (by rw [hbelow]; exact hgs g mem_cons_self)
    rw [foldlM_cons, forall_mem_cons, ← hbelow]
    refine hone.bind fun db₁ h₁ => ?_
    exact (ih h₁.1 (fun g' hg' => hgs g' (mem_cons_of_mem _ hg')) hnodup).congr Iff.rfl
      fun _ h₂ => ⟨h₂.1, h₂.2.trans h₁.2⟩

section

variable {payouts : List (HarvestOrder V × ℕ)} {epoch epochEnd : ℕ}
  {snapshot : IndexedMerkleTree T}

theorem undoHarvest
    (h : Reflects made { v with
      orders := mark v.orders (payouts.map fun p => p.1.id) (.spent epoch)
      epochs := pushEpochs v.epochs (payouts.map fun p => p.1.accountKey) epochEnd
      trees := v.trees ++ [snapshot] } db)
    (hv : Sound v) (hunspent : OrdersUnspent v (payouts.map fun p => p.1.id))
    (hslot : snapshot.slot = slot) (hsize : db.merkleSnapshots.size ≠ 0) :
    ∃ db', db.undoConfirmedSpentHarvestOrders
        (payouts.map fun p => (p.1.accountKey, p.1.id)) slot = .ok db' ∧
      Reflects made v db' ∧ db'.merkleSnapshots.size + 1 = db.merkleSnapshots.size := by
  obtain ⟨l, hl, hsuffix⟩ := h.snapshots
  obtain rfl | ⟨l, rfl, hbelow⟩ := suffix_concat_iff.1 hsuffix
  · exact absurd hl.size_eq hsize
  obtain ⟨hpop, hl'⟩ := hl.popBack
  obtain ⟨s', hs', hs⟩ := h.orders.unconsumes hv.id_eq hunspent.1 hunspent.2
  have hepochs : HoldsEpochs db.endingEpochs (pushEpochs v.epochs
      ((payouts.map fun p => (p.1.accountKey, p.1.id)).map Prod.fst) epochEnd) := by
    rw [map_map]
    exact h.epochs
  obtain ⟨t', ht', ht⟩ := hepochs.removeLasts
  refine ⟨{ db with
      harvestOrders := s'
      endingEpochs := t'
      merkleSnapshots := db.merkleSnapshots.popBack.2 }, ?_,
    ⟨h.wallets, h.gauges, h.auths, hs, h.designated, ht, ⟨l, hl', hbelow⟩⟩, ?_⟩
  · have hfold : (payouts.map fun p => (p.1.accountKey, p.1.id)).foldlM
        (fun s o => s.unconsume o.2) db.harvestOrders = .ok s' := by
      rw [← hs', foldlM_map, foldlM_map]
    unfold undoConfirmedSpentHarvestOrders
    rw [hfold]
    show (Exec.expect _ db.merkleSnapshots.popBack.1 >>= _) = _
    rw [hpop]
    show (if snapshot.slot = slot then _ else _) = _
    rw [if_pos hslot, ht']
    rfl
  · rw [hl.size_eq, hl'.size_eq, length_append, length_singleton]

theorem not_undoHarvest (h : Reflects made v db) (hsize : db.merkleSnapshots.size = 0)
    (spent : List (Ed25519KeyHash × V)) :
    db.undoConfirmedSpentHarvestOrders spent slot ≠ .ok db' := by
  intro hok
  obtain ⟨l, hl, -⟩ := h.snapshots
  have hnil : l = [] := length_eq_zero_iff.1 (hl.size_eq.symm.trans hsize)
  subst hnil
  unfold undoConfirmedSpentHarvestOrders at hok
  obtain ⟨s', -, hok⟩ := bind_eq_ok.1 hok
  obtain ⟨snapshot, hpop, -⟩ := bind_eq_ok.1 hok
  rw [hl.popBack_nil] at hpop
  cases hpop

end

variable {bearer : B} {order : HarvestOrder V}

/-- An order that was kept is forgotten again. -/
theorem undoRequest (h : Reflects made (v.request order bearer) db)
    (hnew : v.orders order.id = none)
    (hnone : v.designated (order.accountKey, order.issuedAt.2) = none) :
    ∃ db', db.removeCreatedHarvestOrder order.id order.accountKey = .ok db' ∧
      Reflects made v db' ∧ db'.merkleSnapshots = db.merkleSnapshots := by
  unfold View.request at h
  rw [hnone, Option.isSome_none, if_neg Bool.false_ne_true] at h
  have horders : HoldsOrders db.harvestOrders
    (update v.orders order.id (some (⟨order, .unspent⟩, bearer))) := h.orders
  have hdesignated : db.userEpochOrder = update v.designated
    (order.accountKey, order.issuedAt.2) (some order.id) := h.designated
  have hread : db.harvestOrders.read order.id =
      some ⟨.confirmed (⟨order, .unspent⟩, bearer), none⟩ := by
    rw [horders.read, update_self]
    rfl
  have hkey : db.userEpochOrder (order.accountKey, order.issuedAt.2) = some order.id := by
    rw [hdesignated, update_self]
  have hback : update db.userEpochOrder (order.accountKey, order.issuedAt.2) none =
      v.designated := by
    rw [hdesignated, update_idem, ← hnone, update_eq_self]
  obtain ⟨s', hs', hs⟩ := horders.remove (update_self _ _ _)
  rw [update_idem, ← hnew, update_eq_self] at hs
  refine ⟨{ db with harvestOrders := s', userEpochOrder := v.designated }, ?_,
    ⟨h.wallets, h.gauges, h.auths, hs, rfl, h.epochs, h.snapshots⟩, rfl⟩
  unfold removeCreatedHarvestOrder
  rw [hread]
  show (db.userEpochOrder (order.accountKey, order.issuedAt.2)).elim _ _ = _
  rw [hkey]
  show (if order.id = order.id then _ else _) = _
  rw [if_pos rfl, undesignateOrderInEpoch_eq hkey]
  show (db.harvestOrders.remove order.id order.id >>= _) = _
  rw [hs', hback]
  rfl

/-- An order that was ignored cannot be undone. -/
theorem not_undoRequest (h : Reflects made (v.request order bearer) db)
    (hnew : v.orders order.id = none)
    (hsome : v.designated (order.accountKey, order.issuedAt.2) ≠ none) :
    db.removeCreatedHarvestOrder order.id order.accountKey ≠ .ok db' := by
  unfold View.request at h
  rw [if_pos (Option.isSome_iff_ne_none.2 hsome)] at h
  unfold removeCreatedHarvestOrder
  rw [h.orders.read, hnew]
  exact nofun

/-- **Undoing an event** leads back to the view before it. A clean event can be undone while there is
a tree to remove, and no other one. -/
theorem unindexEvent
    (h : Reflects made (v.apply cfg slot e) db) (hv : Sound v) (he : Valid made v e) :
    Exec.Gives (unindexEvent slot db e) (Clean v e ∧ harvests e ≤ db.merkleSnapshots.size)
      fun db' => Reflects made v db' ∧
        db'.merkleSnapshots.size + harvests e = db.merkleSnapshots.size := by
  have hsame : ∀ {x : Exec (IndexerDB G V B T)} {p : Prop},
      Exec.Gives x p (fun db' => Reflects made v db' ∧ db'.merkleSnapshots = db.merkleSnapshots) →
      Exec.Gives x (p ∧ 0 ≤ db.merkleSnapshots.size) fun db' => Reflects made v db' ∧
        db'.merkleSnapshots.size + 0 = db.merkleSnapshots.size := fun hx =>
    hx.congr (by simp) fun _ h' => ⟨h'.1, congrArg CircularBuffer.size h'.2⟩
  cases e with
  | botHarvestingAction payouts u w =>
    refine (h.removeWallet rfl he.1).bind fun db₁ h₁ => ?_
    rw [← h₁.2]
    refine .of_cases (fun hsize => ?_) fun hsize db' => ?_
    · exact h₁.1.undoHarvest hv he.2 rfl (Nat.one_le_iff_ne_zero.1 hsize)
    · exact h₁.1.not_undoHarvest (Nat.lt_one_iff.1 (not_le.1 hsize)) _
  | botGaugeBufferingAction drained u w =>
    refine hsame ((h.removeWallet rfl he.1).bind fun db₁ h₁ => ?_)
    rw [← h₁.2]
    exact h₁.1.removeGauges he.2.1 he.2.2
  | createBufferWalletAndAuthManager u a =>
    refine hsame (((h.removeAuth rfl he.2).bind fun db₁ h₁ => ?_).congr and_comm fun _ => id)
    rw [← h₁.2]
    exact h₁.1.removeWallet rfl he.1
  | createGauge g => exact hsame (h.removeGauge rfl he)
  | chargeGauges g w => exact hsame (h.removeGauge rfl he)
  | authManagerUpdated a => exact hsame (h.removeAuth rfl he)
  | newHarvestRequest order bearer =>
    exact hsame (.of_cases (h.undoRequest he) fun hsome _ => h.not_undoRequest he hsome)
  | harvestRequestCancelled ids =>
    exact hsame (.of_cases (fun _ => Reflects.unrefunds h hv he) fun hnot => absurd trivial hnot)
  | funding => exact hsame (.ok ⟨h, rfl⟩)

end Reflects

end Splash.Rewards.Index
