import Splash.Dao.Vote

/-!
# Selection of orders

An order that is popped from the backlog is handed over with the states that its action needs. For
a vote, an extension and a redemption the version in the order is compared with that of the escrow
first; the action then compares versions on its own.

* `selectOrder` — the order with its states, or nothing.
* `Agrees` — what the action accepts is handed over, and what is handed over is not rejected for its
  version.
* `agrees_iff` — votes and redemptions agree; for an extension the order carries the version of the
  escrow that it produces to the action, and is compared with the consumed one by the selection.
-/

namespace Splash.Dao

open Lib Cardano

/-! ## Orders and states -/

inductive DaoOrder where
  | wpollVote (order : WPollVoteOrder)
  | makeVE (order : MakeVotingEscrowOrder)
  | extendVE (order : ExtendVotingEscrowOrder)
  | redeemVE (order : RedeemVotingEscrowOrder)
  deriving DecidableEq

inductive NextPendingOrder where
  | voting (poll : PollBundle) (order : WPollVoteOrder) (escrow : EscrowBundle)
  | makeVotingEscrow (order : MakeVotingEscrowOrder) (factory : FactoryBundle)
  | extendVotingEscrow (order : ExtendVotingEscrowOrder) (escrow : EscrowBundle)
      (factory : FactoryBundle)
  | redeemVotingEscrow (order : RedeemVotingEscrowOrder) (escrow : EscrowBundle)
      (prevStateId : Option OutputRef) (factory : FactoryBundle)
  deriving DecidableEq

/-- The escrows by the names of their identifiers, and the factory. -/
structure EscrowStates where
  escrow : ℕ → Option (Traced EscrowBundle OutputRef)
  factory : Option FactoryBundle

/-- The order with the states that its action needs. An order whose version is not that of the escrow
is dropped. -/
def selectOrder (states : EscrowStates) (poll : PollBundle) : DaoOrder → Option NextPendingOrder
  | .wpollVote order => do
    let escrow ← states.escrow order.datum.veIdentifierTokenName
    if order.datum.veState.version ≠ escrow.state.state.version then none
    else some (.voting poll order escrow.state)
  | .makeVE order => do
    let factory ← states.factory
    some (.makeVotingEscrow order factory)
  | .extendVE order => do
    let factory ← states.factory
    let escrow ← states.escrow order.datum.veIdentifierTokenName
    if order.datum.veState.version ≠ escrow.state.state.version then none
    else some (.extendVotingEscrow order escrow.state factory)
  | .redeemVE order => do
    let escrow ← states.escrow order.datum.veIdentifierTokenName
    if order.datum.veState.version ≠ escrow.state.state.version then none
    else do
      let factory ← states.factory
      some (.redeemVotingEscrow order escrow.state escrow.prevStateId factory)

/-! ## Versions -/

inductive EscrowOrder where
  | vote (order : WPollVoteOrder)
  | extend (order : ExtendVotingEscrowOrder)
  | redeem (order : RedeemVotingEscrowOrder)
  deriving DecidableEq

namespace EscrowOrder

def toDaoOrder : EscrowOrder → DaoOrder
  | .vote order => .wpollVote order
  | .extend order => .extendVE order
  | .redeem order => .redeemVE order

def identifier : EscrowOrder → ℕ
  | .vote order => order.datum.veIdentifierTokenName
  | .extend order => order.datum.veIdentifierTokenName
  | .redeem order => order.datum.veIdentifierTokenName

def version : EscrowOrder → ℕ
  | .vote order => order.datum.veState.version
  | .extend order => order.datum.veState.version
  | .redeem order => order.datum.veState.version

/-- The action's own comparisons of versions succeed. -/
def VersionAccepted (escrow : EscrowBundle) : EscrowOrder → Prop
  | .vote order =>
    voteVersionCheck escrow.output.datum.version order.datum.veState.version = .ok ()
  | .extend order =>
    extendVersionChecks escrow.output.datum.version order.metadata.version
      order.datum.veState.version = .ok ()
  | .redeem order =>
    redeemVersionCheck escrow.output.datum.version order.datum.veState.version = .ok ()

end EscrowOrder

def WitnessError.aboutVersion : WitnessError → Bool
  | .veVersionMismatchWithTXMetadata _ _ => true
  | .veVersionMismatchWithOnchainProxy _ _ => true
  | _ => false

/-- The action of a selected order ends with an error about versions. -/
def VersionRejected (d : PollDeployment) (c : ActionContext) : NextPendingOrder → Prop
  | .voting poll order escrow =>
    ∃ error : WitnessError, error.aboutVersion ∧
      executeOrder d poll escrow order c.currentPosixTime c.currentSlot c.estimatedFee c.txHash =
        .error (.rejected (.witness error))
  | .makeVotingEscrow _ _ => False
  | .extendVotingEscrow order escrow factory =>
    ∃ error : WitnessError, error.aboutVersion ∧
      extendVotingEscrow d.toEscrowDeployment order escrow factory c.nowInSeconds c.currentSlot
        c.estimatedFee c.txHash = .error (.rejected (.witness error))
  | .redeemVotingEscrow order escrow _ factory =>
    ∃ error : WitnessError, error.aboutVersion ∧
      redeemVotingEscrow d.toEscrowDeployment order escrow factory c.nowInSeconds c.currentSlot
        c.estimatedFee c.txHash = .error (.rejected (.witness error))

/-- What the action accepts for its version is handed over, and what is handed over is not rejected
for its version. -/
def Agrees (d : PollDeployment) (c : ActionContext) (states : EscrowStates) (poll : PollBundle)
    (escrow : EscrowBundle) (order : EscrowOrder) : Prop :=
  (order.VersionAccepted escrow → (selectOrder states poll order.toDaoOrder).isSome) ∧
    ∀ selected, selectOrder states poll order.toDaoOrder = some selected →
      ¬ VersionRejected d c selected

/-! ## Errors about versions -/

def NoVersionError {E α : Type} (witness : WitnessError → E) (x : Except (Abort E) α) : Prop :=
  Exec.Meets x (fun _ => True) fun e =>
    ∀ error, e = .rejected (witness error) → error.aboutVersion = false

namespace NoVersionError

variable {E α β : Type} {witness : WitnessError → E}

variable {x : Except (Abort E) α}

theorem bind {f : α → Except (Abort E) β} (hx : NoVersionError witness x)
    (hf : ∀ a, NoVersionError witness (f a)) : NoVersionError witness (x >>= f) :=
  Exec.Meets.bind hx fun a _ => hf a

theorem attempt (x : Exec α) : NoVersionError witness (attempt x) := by
  cases x with
  | ok a => exact trivial
  | error e => exact fun error h => nomatch h

/-- An action may stop for another reason. -/
theorem orElse {p : Prop} [Decidable p] {reason : E}
    (hreason : ∀ error, reason = witness error → error.aboutVersion = false)
    (hx : NoVersionError witness x) :
    NoVersionError witness (if p then .error (.rejected reason) else x) := by
  split
  · exact fun error h => hreason error (Abort.rejected.inj h)
  · exact hx

theorem not_rejected (h : NoVersionError witness x) :
    ¬ ∃ error : WitnessError, error.aboutVersion ∧ x = .error (.rejected (witness error)) := by
  rintro ⟨error, habout, hx⟩
  subst hx
  have hnot : error.aboutVersion = false := h error rfl
  rw [hnot] at habout
  exact Bool.false_ne_true habout

theorem checkSignature {d : EscrowDeployment} {other : String → E}
    (hinj : Function.Injective witness) (hother : ∀ message error, other message ≠ witness error)
    (bytes : List ℕ) (metadata : ProxyOrderMetadata) (datum : SignedDatum) :
    NoVersionError witness (checkSignature d other witness bytes metadata datum) := by
  unfold Dao.checkSignature
  refine orElse (fun error h => absurd h (hother _ _))
    (orElse (fun error h => absurd h (hother _ _)) (orElse (fun error h => ?_) trivial))
  cases hinj h
  rfl

end NoVersionError

/-! ## Actions -/

variable {escrow : EscrowBundle} {factory : FactoryBundle} {order : ExtendVotingEscrowOrder}

section Actions

variable {d : PollDeployment} {c : ActionContext}

theorem noVersionError_executeOrder {poll : PollBundle} {order : WPollVoteOrder}
    (hversion : escrow.output.datum.version = order.datum.veState.version) :
    NoVersionError .witness (executeOrder d poll escrow order c.currentPosixTime c.currentSlot
      c.estimatedFee c.txHash) := by
  have howner : NoVersionError .witness
      (checkVoteOwner d.toEscrowDeployment escrow.output.datum.owner order) := by
    unfold checkVoteOwner
    split
    · refine NoVersionError.checkSignature ?_ ?_ _ _ _
      · exact fun a b h => ExecuteOrderError.witness.inj h
      · exact fun _ _ h => nomatch h
    · exact trivial
  have hcheck : NoVersionError .witness
      (voteVersionCheck escrow.output.datum.version order.datum.veState.version) := by
    unfold voteVersionCheck
    rw [if_neg (not_not.2 hversion)]
    exact trivial
  refine NoVersionError.bind ?_ fun _ => NoVersionError.bind (.attempt _) fun _ =>
    NoVersionError.bind (.attempt _) fun _ => NoVersionError.bind (.attempt _) fun _ =>
      NoVersionError.orElse ?_ ?_
  · refine howner.bind fun _ => NoVersionError.orElse ?_
      (hcheck.bind fun _ => NoVersionError.orElse ?_ trivial)
    · intro error h
      cases h
      rfl
    · exact fun error h => nomatch h
  · exact fun error h => nomatch h
  · exact NoVersionError.bind (.attempt _) fun _ => NoVersionError.bind (.attempt _) fun _ => trivial

theorem noVersionError_redeemVotingEscrow {order : RedeemVotingEscrowOrder}
    (hversion : escrow.output.datum.version = order.datum.veState.version) :
    NoVersionError .witness (redeemVotingEscrow d.toEscrowDeployment order escrow factory
      c.nowInSeconds c.currentSlot c.estimatedFee c.txHash) := by
  have howner : NoVersionError .witness
      (redeemOwnerAddress d.toEscrowDeployment escrow.output.datum.owner order) := by
    unfold redeemOwnerAddress
    split
    · refine NoVersionError.bind (NoVersionError.checkSignature ?_ ?_ _ _ _) fun _ => ?_
      · exact fun a b h => RedeemVotingEscrowError.witness.inj h
      · exact fun _ _ h => nomatch h
      · cases order.datum.ownerStakeCredential with
        | none => exact fun error h => nomatch h
        | some stake => exact trivial
    · exact fun error h => nomatch h
  have hcheck : NoVersionError .witness
      (redeemVersionCheck escrow.output.datum.version order.datum.veState.version) := by
    unfold redeemVersionCheck
    rw [if_neg (not_not.2 hversion)]
    exact trivial
  refine howner.bind fun _ => hcheck.bind fun _ => NoVersionError.orElse ?_
    (NoVersionError.bind (.attempt _) fun _ => NoVersionError.orElse ?_
      (NoVersionError.bind (.attempt _) fun _ => NoVersionError.bind (.attempt _) fun _ => trivial))
  · exact fun error h => nomatch h
  · exact fun error h => nomatch h

theorem noVersionError_checkExtendOwner {owner : Owner} :
    NoVersionError .witness (checkExtendOwner d.toEscrowDeployment owner order) := by
  unfold checkExtendOwner
  split
  · refine NoVersionError.checkSignature ?_ ?_ _ _ _
    · exact fun a b h => ExtendVotingEscrowError.witness.inj h
    · exact fun _ _ h => nomatch h
  · exact trivial

theorem noVersionError_extendVotingEscrow
    (hcheck : NoVersionError .witness (extendVersionChecks escrow.output.datum.version
      order.metadata.version order.datum.veState.version)) :
    NoVersionError .witness (extendVotingEscrow d.toEscrowDeployment order escrow factory
      c.nowInSeconds c.currentSlot c.estimatedFee c.txHash) := by
  have hdeposit : ∀ (entries : List (Token × ℕ)) (acc : Value), NoVersionError .witness
      (entries.foldlM (depositExtension factory.state) acc) := by
    intro entries
    induction entries with
    | nil => exact fun acc => trivial
    | cons entry entries ih =>
      intro acc
      rw [List.foldlM_cons]
      refine NoVersionError.bind ?_ ih
      unfold depositExtension
      split
      · exact trivial
      · exact fun error h => nomatch h
  refine noVersionError_checkExtendOwner.bind fun _ => hcheck.bind fun _ =>
    NoVersionError.orElse ?_ (NoVersionError.bind (hdeposit _ _) fun _ =>
      NoVersionError.bind (.attempt _) fun _ => NoVersionError.bind (.attempt _) fun _ =>
        NoVersionError.orElse ?_ (NoVersionError.bind (.attempt _) fun _ =>
          NoVersionError.bind (.attempt _) fun _ => trivial))
  · exact fun error h => nomatch h
  · exact fun error h => nomatch h

end Actions

/-! ## Versions of an extension -/

section Extension

variable {version metadataVersion orderVersion : ℕ}

theorem extendVersionChecks_of_metadata (h : metadataVersion ≠ version) :
    extendVersionChecks version metadataVersion orderVersion =
      .error (.rejected (.witness (.veVersionMismatchWithTXMetadata metadataVersion version))) := by
  unfold extendVersionChecks
  rw [if_pos h]
  rfl

theorem extendVersionChecks_of_overflow (h : metadataVersion = version) (hlt : u32Max < version + 1) :
    extendVersionChecks version metadataVersion orderVersion = .error (.panicked .overflow) := by
  unfold extendVersionChecks fit
  rw [if_neg (not_not.2 h), if_neg (not_le.2 hlt)]
  rfl

theorem extendVersionChecks_of_fit (h : metadataVersion = version) (hle : version + 1 ≤ u32Max) :
    extendVersionChecks version metadataVersion orderVersion =
      if version + 1 ≠ orderVersion then
        .error (.rejected (.witness (.veVersionMismatchWithOnchainProxy (version + 1) orderVersion)))
      else .ok () := by
  unfold extendVersionChecks fit
  rw [if_neg (not_not.2 h), if_pos hle]
  rfl

theorem extendVersionChecks_eq_ok :
    extendVersionChecks version metadataVersion orderVersion = .ok () ↔
      metadataVersion = version ∧ version + 1 ≤ u32Max ∧ version + 1 = orderVersion := by
  by_cases hmeta : metadataVersion = version
  · by_cases hle : version + 1 ≤ u32Max
    · rw [extendVersionChecks_of_fit hmeta hle]
      simp [hmeta, hle]
    · rw [extendVersionChecks_of_overflow hmeta (not_le.1 hle)]
      simp [hle]
  · rw [extendVersionChecks_of_metadata hmeta]
    simp [hmeta]

theorem extendVersionChecks_rejects
    (h : metadataVersion ≠ version ∨ version + 1 ≤ u32Max ∧ version + 1 ≠ orderVersion) :
    ∃ error : WitnessError, error.aboutVersion ∧
      extendVersionChecks version metadataVersion orderVersion =
        .error (.rejected (.witness error)) := by
  by_cases hmeta : metadataVersion = version
  · obtain ⟨hle, hne⟩ := h.resolve_left (not_not.2 hmeta)
    refine ⟨.veVersionMismatchWithOnchainProxy (version + 1) orderVersion, rfl, ?_⟩
    rw [extendVersionChecks_of_fit hmeta hle, if_pos hne]
  · exact ⟨.veVersionMismatchWithTXMetadata metadataVersion version, rfl,
      extendVersionChecks_of_metadata hmeta⟩

theorem noVersionError_extendVersionChecks
    (h : ¬ (metadataVersion ≠ version ∨ version + 1 ≤ u32Max ∧ version + 1 ≠ orderVersion)) :
    NoVersionError .witness (extendVersionChecks version metadataVersion orderVersion) := by
  rw [not_or, not_not, not_and, not_not] at h
  obtain ⟨hmeta, horder⟩ := h
  by_cases hle : version + 1 ≤ u32Max
  · rw [extendVersionChecks_of_fit hmeta hle, if_neg (not_not.2 (horder hle))]
    exact trivial
  · rw [extendVersionChecks_of_overflow hmeta (not_le.1 hle)]
    exact fun error h => nomatch h

end Extension

/-- **When an extension is rejected for its version**: the signature is right, and the versions that
are signed and that result are not those of the escrow and its successor. -/
theorem versionRejected_extend_iff {d : PollDeployment} {c : ActionContext} :
    VersionRejected d c (.extendVotingEscrow order escrow factory) ↔
      checkExtendOwner d.toEscrowDeployment escrow.output.datum.owner order = .ok () ∧
        (order.metadata.version ≠ escrow.output.datum.version ∨
          escrow.output.datum.version + 1 ≤ u32Max ∧
            escrow.output.datum.version + 1 ≠ order.datum.veState.version) := by
  constructor
  · intro hrejected
    have hversions : order.metadata.version ≠ escrow.output.datum.version ∨
        escrow.output.datum.version + 1 ≤ u32Max ∧
          escrow.output.datum.version + 1 ≠ order.datum.veState.version := by
      by_contra hnot
      exact (noVersionError_extendVotingEscrow
        (noVersionError_extendVersionChecks hnot)).not_rejected hrejected
    refine ⟨?_, hversions⟩
    cases howner : checkExtendOwner d.toEscrowDeployment escrow.output.datum.owner order with
    | ok _ => rfl
    | error e =>
      -- the action stops here, and not for a version
      have hstop : extendVotingEscrow d.toEscrowDeployment order escrow factory c.nowInSeconds
          c.currentSlot c.estimatedFee c.txHash = .error e := by
        unfold extendVotingEscrow
        rw [howner]
        rfl
      have hother : NoVersionError .witness
          (checkExtendOwner d.toEscrowDeployment escrow.output.datum.owner order) :=
        noVersionError_checkExtendOwner
      obtain ⟨error, habout, herror⟩ := hrejected
      rw [hstop] at herror
      exact absurd ⟨error, habout, howner.trans (congrArg Except.error (Except.error.inj herror))⟩
        hother.not_rejected
  · rintro ⟨howner, hversions⟩
    obtain ⟨error, habout, herror⟩ := extendVersionChecks_rejects hversions
    refine ⟨error, habout, ?_⟩
    unfold extendVotingEscrow
    rw [howner, herror]
    rfl

/-! ## Agreement -/

/-- The versions in an order for which selection and action agree. -/
def EscrowOrder.Compatible (d : PollDeployment) (escrow : EscrowBundle) : EscrowOrder → Prop
  | .vote _ => True
  | .redeem _ => True
  | .extend order =>
    ¬ (order.metadata.version = escrow.output.datum.version ∧
        escrow.output.datum.version + 1 ≤ u32Max ∧
        escrow.output.datum.version + 1 = order.datum.veState.version) ∧
    ¬ (order.datum.veState.version = escrow.output.datum.version ∧
        checkExtendOwner d.toEscrowDeployment escrow.output.datum.owner order = .ok () ∧
        (order.metadata.version ≠ escrow.output.datum.version ∨
          escrow.output.datum.version + 1 ≤ u32Max))

def EscrowOrder.isExtend : EscrowOrder → Bool
  | .extend _ => true
  | _ => false

section Agreement

variable {d : PollDeployment} {c : ActionContext} {states : EscrowStates} {poll : PollBundle}
  {escrow : Traced EscrowBundle OutputRef} {factory : FactoryBundle} {order : EscrowOrder}

def EscrowOrder.withStates (poll : PollBundle) (escrow : Traced EscrowBundle OutputRef)
    (factory : FactoryBundle) : EscrowOrder → NextPendingOrder
  | .vote order => .voting poll order escrow.state
  | .extend order => .extendVotingEscrow order escrow.state factory
  | .redeem order => .redeemVotingEscrow order escrow.state escrow.prevStateId factory

theorem selectOrder_eq (hescrow : states.escrow order.identifier = some escrow)
    (hfactory : states.factory = some factory) :
    selectOrder states poll order.toDaoOrder =
      if order.version = escrow.state.state.version then some (order.withStates poll escrow factory)
      else none := by
  cases order with
  | vote order =>
    have hread : states.escrow order.datum.veIdentifierTokenName = some escrow := hescrow
    by_cases hversion : order.datum.veState.version = escrow.state.state.version
    · simp [EscrowOrder.toDaoOrder, selectOrder, hread, hversion, EscrowOrder.version,
        EscrowOrder.withStates]
    · simp [EscrowOrder.toDaoOrder, selectOrder, hread, hversion, EscrowOrder.version]
  | extend order =>
    have hread : states.escrow order.datum.veIdentifierTokenName = some escrow := hescrow
    by_cases hversion : order.datum.veState.version = escrow.state.state.version
    · simp [EscrowOrder.toDaoOrder, selectOrder, hread, hfactory, hversion, EscrowOrder.version,
        EscrowOrder.withStates]
    · simp [EscrowOrder.toDaoOrder, selectOrder, hread, hfactory, hversion, EscrowOrder.version]
  | redeem order =>
    have hread : states.escrow order.datum.veIdentifierTokenName = some escrow := hescrow
    by_cases hversion : order.datum.veState.version = escrow.state.state.version
    · simp [EscrowOrder.toDaoOrder, selectOrder, hread, hfactory, hversion, EscrowOrder.version,
        EscrowOrder.withStates]
    · simp [EscrowOrder.toDaoOrder, selectOrder, hread, hversion, EscrowOrder.version]

theorem versionAccepted_iff_of_not_extend (h : order.isExtend = false) {e : EscrowBundle} :
    order.VersionAccepted e ↔ order.version = e.output.datum.version := by
  cases order with
  | vote order =>
    show voteVersionCheck _ _ = .ok () ↔ order.datum.veState.version = _
    unfold voteVersionCheck
    by_cases hversion : e.output.datum.version = order.datum.veState.version
    · simp [hversion]
    · simp [hversion, Ne.symm hversion]
  | extend order => exact nomatch h
  | redeem order =>
    show redeemVersionCheck _ _ = .ok () ↔ order.datum.veState.version = _
    unfold redeemVersionCheck
    by_cases hversion : e.output.datum.version = order.datum.veState.version
    · simp [hversion]
    · simp [hversion, Ne.symm hversion]

theorem not_versionRejected_of_not_extend (h : order.isExtend = false)
    (hversion : order.version = escrow.state.output.datum.version) :
    ¬ VersionRejected d c (order.withStates poll escrow factory) := by
  cases order with
  | vote order => exact (noVersionError_executeOrder hversion.symm).not_rejected
  | extend order => exact nomatch h
  | redeem order => exact (noVersionError_redeemVotingEscrow hversion.symm).not_rejected

/-- **Where selection and execution agree on versions**: always for votes and redemptions; for an
extension only when the action would not accept it and the selection does not hand over what the
action rejects. So a vote and a redemption can be executed at their version, and an extension at
none. -/
theorem agrees_iff (hescrow : states.escrow order.identifier = some escrow)
    (hfactory : states.factory = some factory)
    (hsync : escrow.state.state.version = escrow.state.output.datum.version) :
    (Agrees d c states poll escrow.state order ↔ order.Compatible d escrow.state) ∧
      (order.VersionAccepted escrow.state ∧ (selectOrder states poll order.toDaoOrder).isSome ↔
        order.isExtend = false ∧ order.version = escrow.state.output.datum.version) := by
  have hselect : selectOrder states poll order.toDaoOrder =
      if order.version = escrow.state.output.datum.version then
        some (order.withStates poll escrow factory)
      else none := by
    rw [selectOrder_eq hescrow hfactory, hsync]
  have hisSome : (selectOrder states poll order.toDaoOrder).isSome ↔
      order.version = escrow.state.output.datum.version := by
    rw [hselect]
    split <;> simp_all
  have hselected : (∀ selected, selectOrder states poll order.toDaoOrder = some selected →
      ¬ VersionRejected d c selected) ↔ (order.version = escrow.state.output.datum.version →
        ¬ VersionRejected d c (order.withStates poll escrow factory)) := by
    rw [hselect]
    split
    case isTrue hversion => simp [hversion]
    case isFalse hversion => simp [hversion]
  unfold Agrees
  rw [hisSome, hselected]
  cases hkind : order.isExtend with
  | false =>
    rw [versionAccepted_iff_of_not_extend hkind]
    refine ⟨⟨fun _ => ?_, fun _ => ⟨id, not_versionRejected_of_not_extend hkind⟩⟩, by simp⟩
    cases order with
    | vote order => exact trivial
    | extend order => exact nomatch hkind
    | redeem order => exact trivial
  | true =>
    cases order with
    | vote order => exact nomatch hkind
    | redeem order => exact nomatch hkind
    | extend order =>
      show ((extendVersionChecks _ _ _ = .ok () → order.datum.veState.version = _) ∧
        (order.datum.veState.version = _ → ¬ VersionRejected d c (.extendVotingEscrow _ _ _)) ↔ _) ∧
          (extendVersionChecks _ _ _ = .ok () ∧ order.datum.veState.version = _ ↔ _)
      have horder : (EscrowOrder.extend order).version = order.datum.veState.version := rfl
      rw [extendVersionChecks_eq_ok, versionRejected_extend_iff]
      constructor
      · refine and_congr ?_ ?_
        · refine imp_congr_right fun haccepted => iff_false_intro ?_
          omega
        · rw [← not_and]
          refine not_congr (and_congr_right fun hversion => and_congr_right fun _ =>
            or_congr_right (and_iff_left ?_))
          omega
      · simp only [Bool.true_eq_false, false_and, iff_false]
        omega

end Agreement

/-! ## An extension of a fresh escrow -/

def sampleEscrow : EscrowBundle where
  state :=
    { govTokenAmount := 5, gtToken := ⟨1, 1⟩, lockedUntil := .definite 1000, veIdentifierName := 9
      owner := .pubKey [1], version := 0, lastWpEpoch := -1, lastGpDeadline := -1, redeemed := false }
  version := ⟨1, 1⟩
  output :=
    { value := ⟨2000000, (Amounts.add (Amounts.add OrdMap.empty ⟨1, 1⟩ 5) ⟨4, 9⟩ 1)⟩
      datum := ⟨.definite 1000, .pubKey [1], 0, -1, -1⟩ }

def sampleFactory : FactoryBundle where
  state := ⟨[⟨⟨8, 1⟩, 1, 1⟩], [], OrdMap.empty, OrdMap.empty, 100⟩
  version := ⟨⟨1, 0⟩, 10⟩
  output := ⟨⟨2000000, Amounts.add OrdMap.empty ⟨1, 1⟩ 100⟩, some ⟨[⟨⟨8, 1⟩, 1, 1⟩], []⟩⟩

def samplePollBundle : PollBundle where
  state := ⟨0, [(1, 0)], 100, 100, none, false⟩
  version := ⟨⟨2, 0⟩, 10⟩
  output := ⟨⟨2000000, Amounts.add (Amounts.add OrdMap.empty ⟨5, 0⟩ 1) ⟨7, 1⟩ 100⟩,
    ⟨[(1, 0)], 100, 6⟩⟩

/-- An extension with the version of the escrow signed and with a version of its successor. -/
def sampleExtend (successor : ℕ) : ExtendVotingEscrowOrder where
  datum := ⟨⟨.definite 2000, .pubKey [1], successor, -1, -1⟩, 9⟩
  metadata := ⟨[1], 1, [], [], 0⟩
  outputRef := ⟨⟨3, 0⟩, 10⟩
  bearer := ⟨5000000, Amounts.add OrdMap.empty ⟨8, 1⟩ 7⟩

def sampleStates : EscrowStates where
  escrow name := if name = 9 then some ⟨sampleEscrow, none⟩ else none
  factory := some sampleFactory

def sampleContext : ActionContext := ⟨1, 1000, 20, 200000, 77⟩

/-- The action accepts versions of the extension that the selection drops. -/
theorem sampleExtend_disagrees :
    ¬ Agrees samplePollDeployment sampleContext sampleStates samplePollBundle sampleEscrow
      (.extend (sampleExtend 1)) := by
  intro h
  have hselected := h.1 rfl
  exact Bool.false_ne_true hselected

/-- With a version two ahead, the extension is neither accepted nor selected. -/
theorem sampleExtend_agrees :
    Agrees samplePollDeployment sampleContext sampleStates samplePollBundle sampleEscrow
      (.extend (sampleExtend 2)) := by
  have hescrow : sampleStates.escrow (EscrowOrder.extend (sampleExtend 2)).identifier =
      some ⟨sampleEscrow, none⟩ := rfl
  refine (agrees_iff hescrow rfl rfl).1.2 ⟨fun h => ?_, fun h => ?_⟩
  · exact absurd h.2.2 (by decide)
  · exact absurd h.1 (by decide)

end Splash.Dao
