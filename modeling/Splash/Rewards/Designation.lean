import Splash.Rewards.IndexRuns

/-!
# Designated harvest orders

One order of a user is designated in an epoch, and only this one should be shown. An order that was
refunded is kept; it is shown again as soon as another order of its user and epoch is designated.

* `Served` — what is expected of the designations.
* `served_iff` — it holds just when no refunded order is of a user and epoch that have a designated
  order.
-/

namespace Splash.Rewards.Index

open Lib Cardano Function Option

variable {G V B T : Type}

variable {key : Ed25519KeyHash × ℕ}

namespace IndexerDB

/-- The order is kept and is the designated one of its user and epoch. -/
def Designates (db : IndexerDB G V B T) (id : V) : Prop :=
  ∃ t, db.harvestOrders.read id = some t ∧ db.userEpochOrder t.state.erased.1.key = some id

/-- A refunded order is kept whose user and epoch have a designated order. -/
def Superseded (db : IndexerDB G V B T) : Prop :=
  ∃ id t, db.harvestOrders.read id = some t ∧ t.state.erased.1.status = .refunded ∧
    (db.userEpochOrder t.state.erased.1.key).isSome

variable [DecidableEq V]

/-- The next order of a user in an epoch is designated. -/
def Open (db : IndexerDB G V B T) (key : Ed25519KeyHash × ℕ) : Prop :=
  ∀ order bearer, (order.accountKey, order.issuedAt.2) = key →
    (db.writeConfirmedHarvestOrder order bearer).userEpochOrder key = some order.id

/-- Exactly the designated orders are shown, at most one for a user and epoch, and when the
designated one is refunded or its creation is rolled back, another one can take its place. -/
structure Served (db : IndexerDB G V B T) : Prop where
  shown_iff : ∀ id, (db.readDesignatedHarvestOrder id).isSome ↔ db.Designates id
  unique : ∀ id id' m m', db.readDesignatedHarvestOrder id = some m →
    db.readDesignatedHarvestOrder id' = some m' → m.erased.1.key = m'.erased.1.key → id = id'
  refunded : ∀ key id, db.userEpochOrder key = some id →
    ∃ db', db.writeConfirmedRefundHarvestOrder id = .ok db' ∧ db'.Open key
  removed : ∀ key id db', db.userEpochOrder key = some id →
    db.removeCreatedHarvestOrder id key.1 = .ok db' → db'.Open key

theorem open_of_none {db : IndexerDB G V B T}
    (h : db.userEpochOrder key = none) : db.Open key := by
  rintro order bearer rfl
  unfold writeConfirmedHarvestOrder
  rw [h]
  exact update_self ..

end IndexerDB

variable {made : Origins G V} {cfg : Setup T} {v : View G V B T}
  {db : IndexerDB G V B T}

section

variable (h : Reflects made v db) (hv : Sound v)

include h

variable {id : V}

theorem Reflects.shown_iff {m : Mod (HarvestOrderWrap V × B)} :
    db.readDesignatedHarvestOrder id = some m ↔
      ∃ o, v.orders id = some o ∧ (v.designated o.1.key).isSome ∧ m = .confirmed o := by
  unfold IndexerDB.readDesignatedHarvestOrder
  rw [h.orders.read, h.designated]
  cases v.orders id with
  | none => simp
  | some o =>
    simp only [map_some, bind_some, Option.some.injEq, exists_eq_left', Mod.erased]
    by_cases hsome : (v.designated o.1.key).isSome = true
    · simp [hsome, eq_comm]
    · simp [hsome]

theorem Reflects.designates_iff :
    db.Designates id ↔ ∃ o, v.orders id = some o ∧ v.designated o.1.key = some id := by
  unfold IndexerDB.Designates
  rw [h.orders.read, h.designated]
  cases v.orders id with
  | none => simp
  | some o => simp [Mod.erased]

include hv

/-- A kept order that is not refunded is the designated one. -/
theorem Reflects.superseded_iff : db.Superseded ↔ ∃ id o, v.orders id = some o ∧
    (v.designated o.1.key).isSome ∧ v.designated o.1.key ≠ some id := by
  unfold IndexerDB.Superseded
  simp only [h.orders.read, h.designated]
  constructor
  · rintro ⟨id, t, ht, hstatus, hsome⟩
    obtain ⟨o, ho, rfl⟩ := Option.map_eq_some_iff.1 ht
    refine ⟨id, o, ho, hsome, fun hdesignated => ?_⟩
    obtain ⟨o', ho', -, hne⟩ := hv.of_designated _ _ hdesignated
    cases ho.symm.trans ho'
    exact hne hstatus
  · rintro ⟨id, o, ho, hsome, hne⟩
    refine ⟨id, ⟨.confirmed o, none⟩, by rw [ho]; rfl, ?_, hsome⟩
    by_contra hstatus
    exact hne (hv.designated_of id o ho hstatus)

variable [DecidableEq V]

theorem Reflects.refund_open (hdesignated : db.userEpochOrder key = some id) :
    ∃ db', db.writeConfirmedRefundHarvestOrder id = .ok db' ∧ db'.Open key := by
  obtain ⟨o, ho, rfl, -⟩ := hv.of_designated key id (h.designated ▸ hdesignated)
  unfold IndexerDB.writeConfirmedRefundHarvestOrder
  rw [h.orders.read, ho]
  simp only [map_some, elim_some, undesignateOrderInEpoch_eq hdesignated]
  exact ⟨_, rfl, IndexerDB.open_of_none (update_self ..)⟩

theorem Reflects.removal_open
    {db' : IndexerDB G V B T} (hdesignated : db.userEpochOrder key = some id)
    (hremoved : db.removeCreatedHarvestOrder id key.1 = .ok db') : db'.Open key := by
  obtain ⟨o, ho, rfl, -⟩ := hv.of_designated key id (h.designated ▸ hdesignated)
  unfold IndexerDB.removeCreatedHarvestOrder at hremoved
  obtain ⟨order, horder, hremoved⟩ := Exec.bind_eq_ok.1 hremoved
  have hkey : (o.1.key.1, order.issuedAt.2) = o.1.key := by
    have horder := Exec.expect_eq_ok.1 horder
    rw [h.orders.read, ho] at horder
    simp only [map_some, bind_some, IndexerDB.unspentOrder] at horder
    split at horder
    · cases horder
      rfl
    · cases horder
  rw [hkey, hdesignated, elim_some, if_pos rfl] at hremoved
  obtain ⟨m, hm, hremoved⟩ := Exec.bind_eq_ok.1 hremoved
  obtain ⟨r, -, hremoved⟩ := Exec.bind_eq_ok.1 hremoved
  rw [undesignateOrderInEpoch_eq hdesignated] at hm
  cases hm
  split at hremoved
  · cases hremoved
    exact IndexerDB.open_of_none (update_self ..)
  · cases hremoved

end

variable [DecidableEq G] [DecidableEq V]

/-- **Exactly the designated orders are shown** just when no refunded order was superseded. -/
theorem served_iff {es : List (Step G V B)} (hvalid : ValidRun made cfg es)
    (hrun : run cfg es = .ok db) : db.Served ↔ ¬ db.Superseded := by
  have h := Reflects.run hvalid hrun
  have hv := sound_viewOf hvalid.chain
  rw [h.superseded_iff hv]
  constructor
  · rintro hserved ⟨id, o, ho, hsome, hne⟩
    have hshown := h.shown_iff.2 ⟨o, ho, hsome, rfl⟩
    obtain ⟨o', ho', hdesignated⟩ :=
      h.designates_iff.1 ((hserved.shown_iff id).1 (isSome_of_eq_some hshown))
    cases ho.symm.trans ho'
    exact hne hdesignated
  · intro hnone
    have hown : ∀ id o, (viewOf cfg (chain es)).orders id = some o →
        ((viewOf cfg (chain es)).designated o.1.key).isSome →
          (viewOf cfg (chain es)).designated o.1.key = some id := by
      intro id o ho hsome
      by_contra hne
      exact hnone ⟨id, o, ho, hsome, hne⟩
    refine ⟨fun id => ?_, fun id id' m m' hm hm' hkey => ?_, fun key id => h.refund_open hv,
      fun key id db' => h.removal_open hv⟩
    · rw [h.designates_iff, isSome_iff_exists]
      simp only [h.shown_iff]
      constructor
      · rintro ⟨m, o, ho, hsome, -⟩
        exact ⟨o, ho, hown id o ho hsome⟩
      · rintro ⟨o, ho, hdesignated⟩
        exact ⟨_, o, ho, isSome_of_eq_some hdesignated, rfl⟩
    · obtain ⟨o, ho, hsome, rfl⟩ := h.shown_iff.1 hm
      obtain ⟨o', ho', hsome', rfl⟩ := h.shown_iff.1 hm'
      have hfirst := hown id o ho hsome
      rw [show o.1.key = o'.1.key from hkey, hown id' o' ho' hsome'] at hfirst
      exact (Option.some.inj hfirst).symm

/-! ## An order that is refunded -/

def sampleRefund : Block ℕ ℕ Unit := ⟨6, [.harvestRequestCancelled [3]]⟩

theorem sampleRefund_valid :
    ValidRun sampleOrigins sampleSetup [.forward sampleRefund, .forward sampleCreation] := by
  refine ⟨sampleCreation_valid, ⟨by decide, ?_⟩, trivial⟩
  intro id hid o ho
  obtain rfl := List.mem_singleton.1 hid
  cases ho
  rfl

theorem sampleRefund_served : ∃ db,
    run sampleSetup [.forward sampleRefund, .forward sampleCreation] = .ok db ∧ db.Served := by
  obtain ⟨db, hdb, hnone⟩ : ∃ db,
      run sampleSetup [.forward sampleRefund, .forward sampleCreation] = .ok db ∧
        db.userEpochOrder = fun _ => none :=
    ⟨_, rfl, (update_idem ..).trans (update_eq_self ..)⟩
  refine ⟨db, hdb, (served_iff sampleRefund_valid hdb).2 ?_⟩
  rintro ⟨id, t, -, -, hsome⟩
  rw [hnone] at hsome
  cases hsome

theorem sampleSecondOrder_shows_refunded :
    ValidRun sampleOrigins sampleSetup
        [.forward sampleSecondOrder, .forward sampleRefund, .forward sampleCreation] ∧
      ∃ db, run sampleSetup
          [.forward sampleSecondOrder, .forward sampleRefund, .forward sampleCreation] = .ok db ∧
        (db.readDesignatedHarvestOrder 3).isSome ∧ ¬ db.Designates 3 := by
  refine ⟨⟨sampleRefund_valid, rfl, trivial⟩, _, rfl, by decide +kernel, ?_⟩
  rintro ⟨t, ht, hdesignated⟩
  cases ht
  revert hdesignated
  decide +kernel

end Splash.Rewards.Index
