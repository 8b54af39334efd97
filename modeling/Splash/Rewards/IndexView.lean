import Splash.Rewards.Index

/-!
# What the reward index is about

A view is the history of the entities along the chain: for every entity the thread of its versions,
the orders that are kept, the designations, the epochs of the harvests and all Merkle trees.

* `View.apply` — what an event does to a view.
* `Valid` — an event may happen on chain after a view.
* `Clean` — an event whose undoing finds what it looks for.
* `Sound.apply` — events keep the designations in line with the orders.
* `HoldsOrders`, `HoldsEpochs` — the tables of orders and of epochs, and what their updates do.
-/

namespace Splash.Rewards.Index

open Lib Data Cardano Function Versions List Option

variable {G V B T : Type} [DecidableEq G] [DecidableEq V]

/-! ## Views -/

structure View (G V B T : Type) where
  wallets : Unit → List (V × Traced V (Mod (BufferWalletWrap V T × B)))
  gauges : G → List (V × Traced V (Mod (Gauge G V × B)))
  auths : Unit → List (V × Traced V (Mod (AuthManager G V × B)))
  orders : V → Option (HarvestOrderWrap V × B)
  designated : Ed25519KeyHash × ℕ → Option V
  /-- The epochs of the harvests of a user, the last one first. -/
  epochs : Ed25519KeyHash → List ℕ
  /-- All trees, the last one last. -/
  trees : List (IndexedMerkleTree T)

def walletEntry (u : EntityUpdated (BufferWallet V) V B) :
    V × Traced V (Mod (BufferWalletWrap V T × B)) :=
  (u.created.1.stateId, ⟨.confirmed (⟨u.created.1, none⟩, u.created.2), u.consumed⟩)

def gaugeEntry (u : EntityUpdated (Gauge G V) V B) :
    V × Traced V (Mod (Gauge G V × B)) :=
  (u.created.1.stateId, ⟨.confirmed u.created, u.consumed⟩)

def authEntry (u : EntityUpdated (AuthManager G V) V B) :
    V × Traced V (Mod (AuthManager G V × B)) :=
  (u.created.1.stateId, ⟨.confirmed u.created, u.consumed⟩)

def push {Id E : Type} [DecidableEq Id] (th : Id → List E) (id : Id) (e : E) : Id → List E :=
  update th id (e :: th id)

def pushGauges (th : G → List (V × Traced V (Mod (Gauge G V × B))))
    (gs : List (EntityUpdated (Gauge G V) V B)) (id : G) :
    List (V × Traced V (Mod (Gauge G V × B))) :=
  ((gs.find? fun g => g.created.1.id = id).map gaugeEntry).toList ++ th id

def mark (m : V → Option (HarvestOrderWrap V × B)) (ids : List V)
    (status : HarvestOrderStatus) (id : V) : Option (HarvestOrderWrap V × B) :=
  if ids.contains id then (m id).map fun o => ({ o.1 with status }, o.2) else m id

/-- Takes the designations of a list of orders away. -/
def undesignate (m : Ed25519KeyHash × ℕ → Option V) (ids : List V)
    (key : Ed25519KeyHash × ℕ) : Option V :=
  (m key).filter fun id => !ids.contains id

def pushEpochs (m : Ed25519KeyHash → List ℕ) (users : List Ed25519KeyHash) (epoch : ℕ)
    (user : Ed25519KeyHash) : List ℕ :=
  List.replicate (users.count user) epoch ++ m user

namespace View

def new (cfg : Setup T) : View G V B T where
  wallets _ := []
  gauges _ := []
  auths _ := []
  orders _ := none
  designated _ := none
  epochs _ := []
  trees := [⟨cfg.newTree, 0⟩]

variable (v : View G V B T)

def nextTree (cfg : Setup T) (slot : ℕ) (payouts : List (HarvestOrder V × ℕ)) :
    IndexedMerkleTree T where
  tree := cfg.append ((v.trees.getLast?.map fun t => t.tree).getD cfg.newTree)
    (payouts.map fun p => cfg.spendHash ⟨p.2, (v.epochs p.1.accountKey).head?.elim 0 (· + 1),
      cfg.slotToEpoch slot - 1, p.1.accountKey, p.1.rewardReceiver.toAddress cfg.networkId⟩)
  slot := slot

/-- Keeps an order, unless one is designated for its user and epoch. -/
def request (order : HarvestOrder V) (bearer : B) :
    View G V B T :=
  if (v.designated (order.accountKey, order.issuedAt.2)).isSome then v
  else
    { v with
      orders := update v.orders order.id (some (⟨order, .unspent⟩, bearer))
      designated :=
        update v.designated (order.accountKey, order.issuedAt.2) (some order.id) }

def apply (cfg : Setup T) (slot : ℕ) :
    OnChainEvent G V B → View G V B T
  | .botHarvestingAction payouts u _ =>
    { v with
      wallets := push v.wallets () (walletEntry u)
      orders := mark v.orders (payouts.map fun p => p.1.id) (.spent (cfg.slotToEpoch slot))
      epochs := pushEpochs v.epochs (payouts.map fun p => p.1.accountKey)
        (cfg.slotToEpoch slot - 1)
      trees := v.trees ++ [v.nextTree cfg slot payouts] }
  | .botGaugeBufferingAction drained u _ =>
    { v with
      wallets := push v.wallets () (walletEntry u)
      gauges := pushGauges v.gauges (drained.map Prod.fst) }
  | .createBufferWalletAndAuthManager u a =>
    { v with
      wallets := push v.wallets () (walletEntry u)
      auths := push v.auths () (authEntry a) }
  | .createGauge g => { v with gauges := push v.gauges g.created.1.id (gaugeEntry g) }
  | .chargeGauges g _ => { v with gauges := push v.gauges g.created.1.id (gaugeEntry g) }
  | .authManagerUpdated a => { v with auths := push v.auths () (authEntry a) }
  | .newHarvestRequest order bearer => v.request order bearer
  | .harvestRequestCancelled ids =>
    { v with
      orders := mark v.orders ids .refunded
      designated := undesignate v.designated ids }
  | .funding => v

end View

/-! ## Events on chain -/

/-- The state that was consumed for a state of an entity; the ledger fixes it. -/
structure Origins (G V : Type) where
  wallet : V → Option V
  gauge : G → V → Option V
  auth : V → Option V

section

variable (made : Origins G V) (v : View G V B T)

def WalletContinues (u : EntityUpdated (BufferWallet V) V B) : Prop :=
  Versions.Continues made.wallet (v.wallets ()) u.created.1.stateId u.consumed

def GaugeContinues (g : EntityUpdated (Gauge G V) V B) : Prop :=
  Versions.Continues (made.gauge g.created.1.id) (v.gauges g.created.1.id) g.created.1.stateId
    g.consumed

def AuthContinues (a : EntityUpdated (AuthManager G V) V B) : Prop :=
  Versions.Continues made.auth (v.auths ()) a.created.1.stateId a.consumed

/-- The consumed orders are different ones, and those that are kept have not been consumed. -/
def OrdersUnspent (ids : List V) : Prop :=
  ids.Nodup ∧ ∀ id ∈ ids, ∀ o, v.orders id = some o → o.1.status = .unspent

/-- An event may happen on chain: what it creates is new, what it consumes is consumed only
once. -/
def Valid : OnChainEvent G V B → Prop
  | .botHarvestingAction payouts u _ =>
    WalletContinues made v u ∧ OrdersUnspent v (payouts.map fun p => p.1.id)
  | .botGaugeBufferingAction drained u _ =>
    WalletContinues made v u ∧ (∀ g ∈ drained, GaugeContinues made v g.1) ∧
      (drained.map fun g => g.1.created.1.id).Nodup
  | .createBufferWalletAndAuthManager u a => WalletContinues made v u ∧ AuthContinues made v a
  | .createGauge g => GaugeContinues made v g
  | .chargeGauges g _ => GaugeContinues made v g
  | .authManagerUpdated a => AuthContinues made v a
  | .newHarvestRequest order _ => v.orders order.id = none
  | .harvestRequestCancelled ids => OrdersUnspent v ids
  | .funding => True

/-- An event whose undoing finds what it looks for: no order is ignored, and every entity is
updated from the version that is the latest one here. -/
def Clean : OnChainEvent G V B → Prop
  | .botHarvestingAction _ u _ => u.consumed = tip (v.wallets ())
  | .botGaugeBufferingAction drained u _ =>
    u.consumed = tip (v.wallets ()) ∧
      ∀ g ∈ drained, g.1.consumed = tip (v.gauges g.1.created.1.id)
  | .createBufferWalletAndAuthManager u a =>
    u.consumed = tip (v.wallets ()) ∧ a.consumed = tip (v.auths ())
  | .createGauge g => g.consumed = tip (v.gauges g.created.1.id)
  | .chargeGauges g _ => g.consumed = tip (v.gauges g.created.1.id)
  | .authManagerUpdated a => a.consumed = tip (v.auths ())
  | .newHarvestRequest order _ => v.designated (order.accountKey, order.issuedAt.2) = none
  | .harvestRequestCancelled _ => True
  | .funding => True

end

/-- How many trees an event adds. -/
def harvests : OnChainEvent G V B → ℕ
  | .botHarvestingAction _ _ _ => 1
  | _ => 0

/-! ## Sound views -/

section

variable {m : V → Option (HarvestOrderWrap V × B)} {ids : List V}
  {status : HarvestOrderStatus} {id : V} {o : HarvestOrderWrap V × B}

theorem mark_of_mem (h : id ∈ ids) :
    mark m ids status id = (m id).map fun o => ({ o.1 with status }, o.2) :=
  if_pos (contains_iff_mem.2 h)

theorem mark_of_not_mem (h : id ∉ ids) : mark m ids status id = m id :=
  if_neg (mt contains_iff_mem.1 h)

@[simp] theorem mark_nil : mark m [] status = m := by
  funext id
  exact mark_of_not_mem not_mem_nil

theorem of_mark_eq_some (h : mark m ids status id = some o) :
    ∃ o', m id = some o' ∧ o.1.order = o'.1.order ∧
      (id ∈ ids ∧ o.1.status = status ∨ id ∉ ids ∧ o.1.status = o'.1.status) := by
  by_cases hid : id ∈ ids
  · rw [mark_of_mem hid] at h
    obtain ⟨o', ho', rfl⟩ := Option.map_eq_some_iff.1 h
    exact ⟨o', ho', rfl, .inl ⟨hid, rfl⟩⟩
  · rw [mark_of_not_mem hid] at h
    exact ⟨o, h, rfl, .inr ⟨hid, rfl⟩⟩

section

variable (m : V → Option (HarvestOrderWrap V × B)) (id : V) (ids : List V)
  (status : HarvestOrderStatus)

theorem mark_cons : mark m (id :: ids) status =
      update (mark m ids status) id ((m id).map fun o => ({ o.1 with status }, o.2)) := by
  funext j
  by_cases hj : j = id
  · subst hj
    rw [mark_of_mem mem_cons_self, update_self]
  · rw [update_of_ne hj]
    by_cases hmem : j ∈ ids
    · rw [mark_of_mem hmem, mark_of_mem (mem_cons_of_mem _ hmem)]
    · rw [mark_of_not_mem hmem, mark_of_not_mem fun h => (mem_cons.1 h).elim hj hmem]

theorem mark_mark : mark (mark m [id] status) ids status = mark m (id :: ids) status := by
  funext j
  by_cases hj : j = id
  · subst hj
    rw [mark_of_mem mem_cons_self]
    by_cases hmem : j ∈ ids
    · rw [mark_of_mem hmem, mark_of_mem mem_cons_self, Option.map_map]
      rfl
    · rw [mark_of_not_mem hmem, mark_of_mem mem_cons_self]
  · have hone : mark m [id] status j = m j :=
      mark_of_not_mem fun h => hj (mem_singleton.1 h)
    by_cases hmem : j ∈ ids
    · rw [mark_of_mem hmem, hone, mark_of_mem (mem_cons_of_mem _ hmem)]
    · rw [mark_of_not_mem hmem, hone, mark_of_not_mem fun h => (mem_cons.1 h).elim hj hmem]

end

theorem undesignate_eq_some {m : Ed25519KeyHash × ℕ → Option V}
    {key : Ed25519KeyHash × ℕ} :
    undesignate m ids key = some id ↔ m key = some id ∧ id ∉ ids := by
  unfold undesignate
  rw [filter_eq_some_iff]
  simp

end

/-- The orders that are kept are under their own id, and those that are not refunded are the
designated ones. -/
structure Sound (v : View G V B T) : Prop where
  id_eq : ∀ id o, v.orders id = some o → o.1.order.id = id
  designated_of : ∀ id o, v.orders id = some o → o.1.status ≠ .refunded →
    v.designated o.1.key = some id
  of_designated : ∀ key id, v.designated key = some id →
    ∃ o, v.orders id = some o ∧ o.1.key = key ∧ o.1.status ≠ .refunded
  trees : v.trees ≠ []

namespace Sound

variable {v : View G V B T}

omit [DecidableEq G] [DecidableEq V] in
theorem new (cfg : Setup T) : Sound (View.new cfg : View G V B T) where
  id_eq _ _ h := by cases h
  designated_of _ _ h := by cases h
  of_designated _ _ h := by cases h
  trees := cons_ne_nil _ _

variable {v' : View G V B T}

omit [DecidableEq G] [DecidableEq V] in
/-- Only the orders, the designations and the trees matter. -/
theorem of_eq (h : Sound v) (horders : v'.orders = v.orders)
    (hdesignated : v'.designated = v.designated) (htrees : v'.trees ≠ []) : Sound v' where
  id_eq := horders ▸ h.id_eq
  designated_of := horders ▸ hdesignated ▸ h.designated_of
  of_designated := horders ▸ hdesignated ▸ h.of_designated
  trees := htrees

section

omit [DecidableEq G]

theorem keep (h : Sound v) {order : HarvestOrder V} {bearer : B}
    (hnew : v.orders order.id = none)
    (hnone : v.designated (order.accountKey, order.issuedAt.2) = none)
    (horders : v'.orders = update v.orders order.id (some (⟨order, .unspent⟩, bearer)))
    (hdesignated : v'.designated =
      update v.designated (order.accountKey, order.issuedAt.2) (some order.id))
    (htrees : v'.trees ≠ []) : Sound v' := by
  refine ⟨fun id o ho => ?_, fun id o ho hstatus => ?_, fun key id hkey => ?_, htrees⟩
  · rw [horders] at ho
    by_cases hid : id = order.id
    · rw [hid, update_self] at ho
      cases ho
      exact hid.symm
    · rw [update_of_ne hid] at ho
      exact h.id_eq id o ho
  · rw [horders] at ho
    rw [hdesignated]
    by_cases hid : id = order.id
    · rw [hid, update_self] at ho
      cases ho
      rw [hid]
      exact update_self _ _ _
    · rw [update_of_ne hid] at ho
      have hold := h.designated_of id o ho hstatus
      refine (update_of_ne (fun hkey => ?_) _ _).trans hold
      rw [hkey, hnone] at hold
      cases hold
  · rw [hdesignated] at hkey
    rw [horders]
    by_cases hk : key = (order.accountKey, order.issuedAt.2)
    · rw [hk, update_self] at hkey
      cases hkey
      exact ⟨_, update_self _ _ _, hk.symm, by simp⟩
    · rw [update_of_ne hk] at hkey
      obtain ⟨o, ho, rest⟩ := h.of_designated key id hkey
      refine ⟨o, (update_of_ne (fun hid => ?_) _ _).trans ho, rest⟩
      rw [hid, hnew] at ho
      cases ho

theorem request (h : Sound v) {order : HarvestOrder V} (bearer : B)
    (hnew : v.orders order.id = none) : Sound (v.request order bearer) := by
  unfold View.request
  by_cases hsome : (v.designated (order.accountKey, order.issuedAt.2)).isSome
  · rwa [if_pos hsome]
  · rw [if_neg hsome]
    exact h.keep hnew (Option.not_isSome_iff_eq_none.1 hsome) rfl rfl h.trees

theorem spend (h : Sound v) (ids : List V) (epoch : ℕ)
    (horders : v'.orders = mark v.orders ids (.spent epoch))
    (hdesignated : v'.designated = v.designated) (htrees : v'.trees ≠ [])
    (hunspent : OrdersUnspent v ids) : Sound v' := by
  refine ⟨fun id o ho => ?_, fun id o ho hstatus => ?_, fun key id hkey => ?_, htrees⟩
  · rw [horders] at ho
    obtain ⟨o', ho', horder, -⟩ := of_mark_eq_some ho
    exact (congrArg HarvestOrder.id horder).trans (h.id_eq id o' ho')
  · rw [horders] at ho
    obtain ⟨o', ho', horder, hcase⟩ := of_mark_eq_some ho
    have hkey : o.1.key = o'.1.key := by
      unfold HarvestOrderWrap.key
      rw [horder]
    rw [hdesignated, hkey]
    refine h.designated_of id o' ho' ?_
    rcases hcase with ⟨hmem, -⟩ | ⟨-, heq⟩
    · rw [hunspent.2 id hmem o' ho']
      exact nofun
    · exact heq ▸ hstatus
  · rw [hdesignated] at hkey
    obtain ⟨o, ho, hk, hstatus⟩ := h.of_designated key id hkey
    rw [horders]
    by_cases hmem : id ∈ ids
    · exact ⟨({ o.1 with status := .spent epoch }, o.2), by rw [mark_of_mem hmem, ho]; rfl, hk,
        nofun⟩
    · exact ⟨o, (mark_of_not_mem hmem).trans ho, hk, hstatus⟩

theorem refund (h : Sound v) (ids : List V) :
    Sound { v with
      orders := mark v.orders ids .refunded
      designated := undesignate v.designated ids } := by
  refine ⟨fun id o ho => ?_, fun id o ho hstatus => ?_, fun key id hkey => ?_, h.trees⟩
  · obtain ⟨o', ho', horder, -⟩ := of_mark_eq_some ho
    exact (congrArg HarvestOrder.id horder).trans (h.id_eq id o' ho')
  · obtain ⟨o', ho', horder, ⟨-, hrefunded⟩ | ⟨hmem, heq⟩⟩ := of_mark_eq_some ho
    · exact absurd hrefunded hstatus
    · have hkey : o.1.key = o'.1.key := by
        unfold HarvestOrderWrap.key
        rw [horder]
      refine undesignate_eq_some.2 ⟨hkey ▸ h.designated_of id o' ho' (heq ▸ hstatus), hmem⟩
  · obtain ⟨hkey, hmem⟩ := undesignate_eq_some.1 hkey
    obtain ⟨o, ho, rest⟩ := h.of_designated key id hkey
    exact ⟨o, (mark_of_not_mem hmem).trans ho, rest⟩

end

/-- **Events keep a view sound.** -/
theorem apply (h : Sound v) {made : Origins G V} {cfg : Setup T} {slot : ℕ}
    {e : OnChainEvent G V B} (he : Valid made v e) : Sound (v.apply cfg slot e) := by
  cases e with
  | botHarvestingAction payouts u w =>
    exact h.spend _ _ rfl rfl (append_ne_nil_of_right_ne_nil _ (cons_ne_nil _ _)) he.2
  | newHarvestRequest order bearer => exact h.request bearer he
  | harvestRequestCancelled ids => exact h.refund ids
  | _ => exact h.of_eq rfl rfl h.trees

end Sound

/-! ## The tables of orders and epochs -/

def orderThread (m : V → Option (HarvestOrderWrap V × B)) (id : V) :
    List (V × Traced V (Mod (HarvestOrderWrap V × B))) :=
  ((m id).map fun o => (id, ⟨.confirmed o, none⟩)).toList

/-- The table keeps these orders, all of them confirmed. -/
def HoldsOrders (s : Orders V B)
    (m : V → Option (HarvestOrderWrap V × B)) : Prop :=
  Versions.Holds (fun _ _ => none) s (orderThread m)

variable {l : List (V × HarvestOrderSpend)}

namespace HoldsOrders

variable {s : Orders V B} {m : V → Option (HarvestOrderWrap V × B)}
  {id : V} {ids : List V} {o : HarvestOrderWrap V × B}
  {status : HarvestOrderStatus} {epoch : ℕ}

section

variable (h : HoldsOrders s m)
include h

omit [DecidableEq V] in
theorem read (id : V) :
    s.read id = (m id).map fun o => ⟨.confirmed o, none⟩ := by
  rw [Versions.Holds.read h id]
  unfold orderThread
  cases m id <;> rfl

omit h in
theorem update_orderThread (m : V → Option (HarvestOrderWrap V × B))
    (id : V) (o : Option (HarvestOrderWrap V × B)) :
    update (orderThread m) id (o.map fun o => (id, ⟨.confirmed o, none⟩)).toList =
      orderThread (update m id o) := by
  funext j
  unfold orderThread
  by_cases hj : j = id
  · subst hj
    rw [update_self, update_self]
  · rw [update_of_ne hj, update_of_ne hj]

theorem put {w : HarvestOrderWrap V} (bearer : B) :
    HoldsOrders (s.put w bearer none) (update m w.order.id (some (w, bearer))) := by
  unfold HoldsOrders
  rw [← update_orderThread]
  refine Versions.Holds.put h (by simp) (fun e he => .inr ?_) nodup_nil not_mem_nil rfl
  unfold orderThread at he
  obtain ⟨o, -, rfl⟩ := Option.map_eq_some_iff.1 (Option.mem_toList.1 he)
  rfl

theorem remove (ho : m id = some o) :
    ∃ s', s.remove id id = .ok (none, s') ∧ HoldsOrders s' (update m id none) := by
  have hth : orderThread m id = [(id, ⟨.confirmed o, none⟩)] := by
    unfold orderThread
    rw [ho]
    rfl
  obtain ⟨s', hs', hholds⟩ := Versions.Holds.remove h hth rfl
  refine ⟨s', hs', ?_⟩
  unfold HoldsOrders
  rw [← update_orderThread]
  exact hholds

theorem confirmSpend (hid : ∀ o, m id = some o → o.1.order.id = id)
    (hunspent : ∀ o, m id = some o → o.1.status = .unspent) (epoch : ℕ) :
    ∃ s', s.confirmSpend id epoch = .ok s' ∧ HoldsOrders s' (mark m [id] (.spent epoch)) := by
  unfold Orders.confirmSpend
  rw [h.read, mark_cons, mark_nil]
  cases ho : m id with
  | none =>
    refine ⟨s, rfl, ?_⟩
    rw [map_none, ← ho, update_eq_self]
    exact h
  | some o =>
    refine ⟨_, if_pos (hunspent o ho), ?_⟩
    have hput := h.put (w := { o.1 with status := .spent epoch }) o.2
    rwa [hid o ho] at hput

theorem confirmSpends (epoch : ℕ) (hid : ∀ id o, m id = some o → o.1.order.id = id)
    (hepoch : ∀ o ∈ l, o.2.epochEnd + 1 = epoch) (hnodup : (l.map Prod.fst).Nodup)
    (hunspent : ∀ id ∈ l.map Prod.fst, ∀ o, m id = some o → o.1.status = .unspent) :
    ∃ s', l.foldlM (fun s o => s.confirmSpend o.1 (o.2.epochEnd + 1)) s = .ok s' ∧
      HoldsOrders s' (mark m (l.map Prod.fst) (.spent epoch)) := by
  induction l generalizing s m with
  | nil => exact ⟨s, rfl, by rwa [map_nil, mark_nil]⟩
  | cons e l ih =>
    obtain ⟨hnot, hnodup⟩ := nodup_cons.1 hnodup
    obtain ⟨s₁, hs₁, h₁⟩ := h.confirmSpend (hid e.1) (hunspent e.1 mem_cons_self) epoch
    have hrest : ∀ id ∈ l.map Prod.fst, mark m [e.1] (.spent epoch) id = m id := by
      intro id hmem
      exact mark_of_not_mem fun hone => hnot (mem_singleton.1 hone ▸ hmem)
    obtain ⟨s₂, hs₂, h₂⟩ := ih h₁
      (fun id o ho => by
        obtain ⟨o', ho', horder, -⟩ := of_mark_eq_some ho
        exact (congrArg HarvestOrder.id horder).trans (hid id o' ho'))
      (fun o ho => hepoch o (mem_cons_of_mem _ ho)) hnodup
      (fun id hmem o ho =>
        hunspent id (mem_cons_of_mem _ hmem) o ((hrest id hmem).symm.trans ho))
    refine ⟨s₂, ?_, ?_⟩
    · rw [foldlM_cons, hepoch e mem_cons_self, hs₁]
      exact hs₂
    · rwa [mark_mark] at h₂

end

section

variable (h : HoldsOrders s (mark m (id :: ids) status))
include h

/-- The first order of a list gets its old status back. -/
theorem restore (hnot : id ∉ ids) (ho : m id = some o) (hid : o.1.order.id = id)
    (hunspent : o.1.status = .unspent) :
    HoldsOrders (s.put { o.1 with status := .unspent } o.2 none) (mark m ids status) := by
  have hput := h.put (w := { o.1 with status := .unspent }) o.2
  have hold : mark m ids status id = some ({ o.1 with status := .unspent }, o.2) := by
    rw [mark_of_not_mem hnot, ho, ← hunspent]
  rwa [hid, mark_cons, update_idem, ← hold, update_eq_self] at hput

theorem read_marked (ho : m id = some o) :
    s.read id = some ⟨.confirmed ({ o.1 with status }, o.2), none⟩ := by
  rw [h.read, mark_of_mem mem_cons_self, ho]
  rfl

theorem of_unknown (ho : m id = none) :
    s.read id = none ∧ HoldsOrders s (mark m ids status) := by
  have hnone : mark m ids status id = none := by
    by_cases hmem : id ∈ ids
    · rw [mark_of_mem hmem, ho]
      rfl
    · rw [mark_of_not_mem hmem, ho]
  refine ⟨by rw [h.read, mark_of_mem mem_cons_self, ho]; rfl, ?_⟩
  rwa [mark_cons, ho, map_none, ← hnone, update_eq_self] at h

end

theorem unconsumes (h : HoldsOrders s (mark m ids (.spent epoch)))
    (hid : ∀ id o, m id = some o → o.1.order.id = id) (hnodup : ids.Nodup)
    (hunspent : ∀ id ∈ ids, ∀ o, m id = some o → o.1.status = .unspent) :
    ∃ s', ids.foldlM (fun s id => s.unconsume id) s = .ok s' ∧ HoldsOrders s' m := by
  induction ids generalizing s with
  | nil => exact ⟨s, rfl, by rwa [mark_nil] at h⟩
  | cons id ids ih =>
    obtain ⟨hnot, hnodup⟩ := nodup_cons.1 hnodup
    have hrest := fun j hj => hunspent j (mem_cons_of_mem id hj)
    cases ho : m id with
    | none =>
      obtain ⟨hread, h'⟩ := h.of_unknown ho
      obtain ⟨s', hs', hholds⟩ := ih h' hnodup hrest
      refine ⟨s', ?_, hholds⟩
      rw [foldlM_cons]
      unfold Orders.unconsume at hs' ⊢
      rw [hread]
      exact hs'
    | some o =>
      have h' := h.restore hnot ho (hid id o ho) (hunspent id mem_cons_self o ho)
      obtain ⟨s', hs', hholds⟩ := ih h' hnodup hrest
      refine ⟨s', ?_, hholds⟩
      rw [foldlM_cons]
      unfold Orders.unconsume at hs' ⊢
      rw [h.read_marked ho]
      exact hs'

end HoldsOrders

/-- The table keeps these epochs; a list that became empty is not removed. -/
def HoldsEpochs (t : Ed25519KeyHash → Option (List ℕ)) (m : Ed25519KeyHash → List ℕ) : Prop :=
  ∀ user, (t user).getD [] = (m user).reverse

namespace HoldsEpochs

variable {t : Ed25519KeyHash → Option (List ℕ)} {m : Ed25519KeyHash → List ℕ}
  {user : Ed25519KeyHash} {users : List Ed25519KeyHash} {epoch : ℕ}

theorem pushEpochs_cons_self :
    pushEpochs m (user :: users) epoch user = epoch :: pushEpochs m users epoch user := by
  unfold pushEpochs
  rw [count_cons_self, replicate_succ, cons_append]

theorem pushEpochs_cons_of_ne {u : Ed25519KeyHash} (hu : u ≠ user) :
    pushEpochs m (user :: users) epoch u = pushEpochs m users epoch u := by
  unfold pushEpochs
  rw [count_cons_of_ne hu.symm]

theorem pushEpochs_nil : pushEpochs m [] epoch = m := by
  funext u
  unfold pushEpochs
  rw [count_nil, replicate_zero, nil_append]

theorem pushEpochs_pushEpochs (m : Ed25519KeyHash → List ℕ) (user : Ed25519KeyHash)
    (users : List Ed25519KeyHash) (epoch : ℕ) :
    pushEpochs (pushEpochs m [user] epoch) users epoch = pushEpochs m (user :: users) epoch := by
  funext u
  unfold pushEpochs
  rw [← append_assoc, replicate_append_replicate, ← count_append,
    (show (users ++ [user]).Perm ([user] ++ users) from perm_append_comm).count_eq]
  rfl

theorem last (h : HoldsEpochs t m) (user : Ed25519KeyHash) :
    (t user).bind List.getLast? = (m user).head? := by
  have huser := h user
  rw [← List.getLast?_reverse, ← huser]
  cases t user <;> rfl

theorem add (h : HoldsEpochs t m) (user : Ed25519KeyHash) (epoch : ℕ) :
    HoldsEpochs (addConfirmedHarvestEpochEnd t user epoch) (pushEpochs m [user] epoch) := by
  intro u
  unfold addConfirmedHarvestEpochEnd
  have huser := h u
  by_cases hu : u = user
  · subst hu
    rw [update_self, pushEpochs_cons_self, pushEpochs_nil, reverse_cons, ← huser]
    cases t u <;> rfl
  · rw [update_of_ne hu, pushEpochs_cons_of_ne hu, pushEpochs_nil]
    exact huser

omit [DecidableEq V] in
theorem adds (h : HoldsEpochs t m) (hepoch : ∀ o ∈ l, o.2.epochEnd = epoch) :
    HoldsEpochs (l.foldl (fun t o => addConfirmedHarvestEpochEnd t o.2.user o.2.epochEnd) t)
      (pushEpochs m (l.map fun o => o.2.user) epoch) := by
  induction l generalizing t m with
  | nil => rwa [map_nil, pushEpochs_nil]
  | cons e l ih =>
    have hrest := ih (h.add e.2.user epoch) fun o ho => hepoch o (mem_cons_of_mem _ ho)
    rw [pushEpochs_pushEpochs] at hrest
    rw [foldl_cons, hepoch e mem_cons_self]
    exact hrest

theorem removeLast (h : HoldsEpochs t (pushEpochs m (user :: users) epoch)) :
    ∃ t', removeLastConfirmedHarvestEpochEnd t user = .ok t' ∧
      HoldsEpochs t' (pushEpochs m users epoch) := by
  have huser := h user
  rw [pushEpochs_cons_self, reverse_cons] at huser
  unfold removeLastConfirmedHarvestEpochEnd
  cases ht : t user with
  | none =>
    rw [ht] at huser
    simp at huser
  | some epochs =>
    rw [ht, getD_some] at huser
    subst huser
    refine ⟨_, if_neg (by simp), fun u => ?_⟩
    by_cases hu : u = user
    · subst hu
      rw [update_self, getD_some, dropLast_concat]
    · rw [update_of_ne hu, h u, pushEpochs_cons_of_ne hu]

omit [DecidableEq V] in
theorem removeLasts {l : List (Ed25519KeyHash × V)}
    (h : HoldsEpochs t (pushEpochs m (l.map Prod.fst) epoch)) :
    ∃ t', l.foldlM (fun t o => removeLastConfirmedHarvestEpochEnd t o.1) t = .ok t' ∧
      HoldsEpochs t' m := by
  induction l generalizing t with
  | nil => exact ⟨t, rfl, by rwa [map_nil, pushEpochs_nil] at h⟩
  | cons e l ih =>
    obtain ⟨t₁, ht₁, h₁⟩ := removeLast h
    obtain ⟨t₂, ht₂, h₂⟩ := ih h₁
    refine ⟨t₂, ?_, h₂⟩
    rw [foldlM_cons, ht₁]
    exact ht₂

end HoldsEpochs

end Splash.Rewards.Index
