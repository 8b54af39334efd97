import Splash.LpIndexer.Mature

/-!
# The positions of a pool after a slot

What `syncAccountPositions` stores, account by account: positions of past epochs are closed and
repeated up to the current epoch, and the position of the current epoch is closed at the slot and goes
on with the new share.

* `latest_eq_some` — the latest positions when all accounts hold LP in one epoch.
* `carryAll_spec` — the positions that are carried over.
* `applyPositionEvents_spec` — the positions after the events of the slot.
* `syncAccountPositions_past`, `syncAccountPositions_current` — what is stored.
-/

namespace Splash.LpIndexer

open Lib AccountPosition OrdMap EpochSlotConversion List Exec
open Option (bind_some elim_some getD_some map_some none_or or_none some_or)

abbrev Table := OrdMap (Credential ×ₗ ℕ) AccountPosition

/-! ## Latest positions -/

/-- The entry that a later one leaves as the latest. -/
def newer (o : Option (ℕ × AccountPosition)) (e : (Credential ×ₗ ℕ) × AccountPosition) :
    Option (ℕ × AccountPosition) :=
  some (o.elim ((ofLex e.1).2, e.2) fun old =>
    if old.1 < (ofLex e.1).2 ∧ !e.2.isCurrentlyZeroShare then ((ofLex e.1).2, e.2) else old)

theorem get?_latestAccountPositions (m : Table) (cred : Credential) :
    (latestAccountPositions m).get? cred
      = (m.toList.filter fun e => (ofLex e.1).1 = cred).foldl newer none := by
  unfold latestAccountPositions
  rw [get?_foldl_local (fun e => (ofLex e.1).1) (g := newer) ?_ ?_]
  · rfl
  · intro n e
    cases hn : n.get? (ofLex e.1).1 with
    | none => simp [latestStep, newer, hn]
    | some old =>
      simp only [latestStep, newer, hn, elim_some]
      split
      · rw [get?_insert, if_pos rfl]
      · exact hn
  · intro n e k hk
    cases hn : n.get? (ofLex e.1).1 with
    | none => simp [latestStep, hn, hk]
    | some old =>
      simp only [latestStep, hn, elim_some]
      split
      · rw [get?_insert, if_neg hk]
      · rfl

variable {cred : Credential} {c : EpochSlotConversion} {current : ℕ} {last : ShareInterval}
  {p : AccountPosition} {x : ℕ × AccountPosition}

theorem mem_of_foldl_newer {l : List ((Credential ×ₗ ℕ) × AccountPosition)}
    (h : l.foldl newer none = some x) :
    ∃ e ∈ l, x = ((ofLex e.1).2, e.2) := by
  induction l using List.reverseRecOn generalizing x with
  | nil => cases h
  | append_singleton l e ih =>
    rw [foldl_append, foldl_cons, foldl_nil] at h
    cases h
    cases ho : l.foldl newer none with
    | none => exact ⟨e, by simp, rfl⟩
    | some old =>
      simp only [elim_some]
      split
      · exact ⟨e, by simp, rfl⟩
      · obtain ⟨a, ha, hold⟩ := ih ho
        exact ⟨a, mem_append_left _ ha, hold⟩

variable {current k slot supply : ℕ} {events : List PositionEvent} {m : Table}

theorem latest_eq_none (h : ∀ k, m.get? (toLex (cred, k)) = none) :
    (latestAccountPositions m).get? cred = none := by
  rw [get?_latestAccountPositions]
  cases hx : (m.toList.filter fun e => (ofLex e.1).1 = cred).foldl newer none with
  | none => rfl
  | some x =>
    obtain ⟨⟨k, p⟩, he, -⟩ := mem_of_foldl_newer hx
    obtain ⟨hmem, hcred⟩ := mem_filter.1 he
    have hk : k = toLex (cred, (ofLex k).2) := by
      rw [← (of_decide_eq_true hcred : (ofLex k).1 = cred)]
      rfl
    rw [mem_toList_iff, hk, h] at hmem
    cases hmem

theorem latest_eq_some {E : ℕ} (hp : m.get? (toLex (cred, E)) = some p)
    (hpos : p.isCurrentlyZeroShare = false)
    (htop : ∀ k q, m.get? (toLex (cred, k)) = some q → k ≤ E) :
    (latestAccountPositions m).get? cred = some (E, p) := by
  rw [get?_latestAccountPositions]
  have hmem : (toLex (cred, E), p) ∈ m.toList.filter fun e => (ofLex e.1).1 = cred :=
    mem_filter.2 ⟨mem_toList_iff.2 hp, by simp⟩
  have hle : ∀ e ∈ m.toList.filter (fun e => (ofLex e.1).1 = cred), (ofLex e.1).1 = cred ∧
      (ofLex e.1).2 ≤ E := by
    intro e he
    obtain ⟨hin, hcred⟩ := mem_filter.1 he
    have hcred : (ofLex e.1).1 = cred := of_decide_eq_true hcred
    refine ⟨hcred, htop _ e.2 ?_⟩
    rw [← hcred]
    exact mem_toList_iff.1 hin
  have hsorted := m.pairwise_toList.filter fun e => decide ((ofLex e.1).1 = cred)
  generalize m.toList.filter (fun e => decide ((ofLex e.1).1 = cred)) = l at hmem hle hsorted
  induction l using List.reverseRecOn with
  | nil => cases hmem
  | append_singleton l e _ =>
    obtain ⟨-, -, hlt⟩ := pairwise_append.1 hsorted
    -- The last entry of the account is the one of the greatest epoch.
    have hbelow : ∀ a ∈ l, (ofLex a.1).2 < (ofLex e.1).2 := by
      intro a ha
      have hkey := Prod.Lex.lt_iff.1 (hlt a ha e (by simp))
      rw [(hle a (mem_append_left _ ha)).1, (hle e (by simp)).1] at hkey
      simpa using hkey
    have he : e = (toLex (cred, E), p) := by
      rcases mem_append.1 hmem with hin | hin
      · have h1 := hbelow _ hin
        have h2 := (hle e (by simp)).2
        simp only [ofLex_toLex] at h1
        omega
      · exact (mem_singleton.1 hin).symm
    subst he
    rw [foldl_append, foldl_cons, foldl_nil, newer]
    cases ho : l.foldl newer none with
    | none => rfl
    | some old =>
      obtain ⟨a, ha, rfl⟩ := mem_of_foldl_newer ho
      have hlate := hbelow a ha
      simp only [ofLex_toLex] at hlate
      simp [hlate, hpos]

/-! ## Carrying positions over -/

/-- The position with its last interval extended to a slot. -/
def closedAt (p : AccountPosition) (slot : ℕ) : AccountPosition :=
  p.getCurrentShare.elim p fun last => ⟨p.shareIntervals.dropLast ++ [last.extendTo slot]⟩

def shareOf (p : AccountPosition) : ℕ × ℕ := p.getCurrentShare.elim (0, 0) (·.share)

theorem extendCurrentShareTo_eq (hp : p.getCurrentShare = some last) (slot : ℕ) :
    p.extendCurrentShareTo slot = .ok (closedAt p slot) := by
  simp [extendCurrentShareTo, closedAt, hp]

theorem getCurrentShare_closedAt (hp : p.getCurrentShare = some last) (slot : ℕ) :
    (closedAt p slot).getCurrentShare = some (last.extendTo slot) := by
  rw [closedAt, hp, elim_some, getCurrentShare, List.getLast?_concat]

/-- A latest position in the current epoch. -/
def carriedOver (c : EpochSlotConversion) (current slot : ℕ) (x : ℕ × AccountPosition) :
    AccountPosition :=
  if x.1 = current then closedAt x.2 slot else ⟨[⟨c.firstSlot current, slot, shareOf x.2⟩]⟩

/-- A latest position in a past epoch. -/
def storedAt (c : EpochSlotConversion) (current : ℕ) (x : ℕ × AccountPosition) (k : ℕ) :
    Option AccountPosition :=
  if k = x.1 ∧ k < current then some (closedAt x.2 (c.lastSlot x.1))
  else if x.1 < k ∧ k < current then some ⟨[⟨c.firstSlot k, c.lastSlot k, shareOf x.2⟩]⟩
  else none

theorem storedAt_of_le (h : current ≤ k) (x : ℕ × AccountPosition) :
    storedAt c current x k = none := by
  rw [storedAt, if_neg (by omega), if_neg (by omega)]

theorem mem_adjacentEpochs {epoch : ℕ} (h : epoch ≤ current) :
    k ∈ adjacentEpochs epoch current ↔ epoch < k ∧ k ≤ current := by
  unfold adjacentEpochs
  split
  · simp
    omega
  · rw [mem_range'_1]
    omega

section

variable (ord : HashOrder) (c : EpochSlotConversion) (slot : ℕ)

/-- A position is carried over to the current epoch, and what is stored is looked up by epoch. -/
theorem carryOver_spec (hx : x.2.getCurrentShare = some last) (hle : x.1 ≤ current) :
    ∃ l, carryOver c current slot x = .ok (l, some (carriedOver c current slot x)) ∧
      ∀ k p, (k, p) ∈ l ↔ storedAt c current x k = some p := by
  unfold carryOver carriedOver
  by_cases heq : x.1 = current
  · refine ⟨[], ?_, ?_⟩
    · rw [if_pos heq, if_pos heq, extendCurrentShareTo_eq hx]
      rfl
    · intro k p
      rw [storedAt, if_neg (by omega), if_neg (by omega)]
      simp
  · have hlast := getCurrentShare_closedAt hx (c.lastSlot x.1)
    have hcontains : (adjacentEpochs x.1 current).contains current = true := by
      rw [contains_iff_mem, mem_adjacentEpochs hle]
      omega
    have hshare : shareOf x.2 = last.share := by simp [shareOf, hx]
    refine ⟨(x.1, closedAt x.2 (c.lastSlot x.1)) ::
      ((adjacentEpochs x.1 current).filter (· ≠ current)).map fun e =>
        (e, ⟨[⟨c.firstSlot e, c.lastSlot e, last.share⟩]⟩), ?_, ?_⟩
    · rw [if_neg heq, if_neg heq, extendCurrentShareTo_eq hx]
      refine bind_eq_ok.2 ⟨_, rfl, bind_eq_ok.2 ⟨_, expect_eq_ok.2 hlast, ?_⟩⟩
      simp only [hcontains, if_true, hshare]
      rfl
    · intro k p
      have hbetween : (k, p) ∈ ((adjacentEpochs x.1 current).filter
          (· ≠ current)).map (fun e => (e, (⟨[⟨c.firstSlot e, c.lastSlot e, last.share⟩]⟩ : AccountPosition)))
          ↔ (x.1 < k ∧ k < current) ∧ p = ⟨[⟨c.firstSlot k, c.lastSlot k, last.share⟩]⟩ := by
        simp only [mem_map, mem_filter, mem_adjacentEpochs hle, decide_eq_true_eq,
          Prod.mk.injEq]
        constructor
        · rintro ⟨e, ⟨⟨hlt, hle'⟩, hne⟩, rfl, rfl⟩
          exact ⟨by omega, rfl⟩
        · rintro ⟨⟨hlt, hlt'⟩, rfl⟩
          exact ⟨k, ⟨⟨hlt, hlt'.le⟩, hlt'.ne⟩, rfl, rfl⟩
      rw [mem_cons, hbetween, Prod.mk.injEq, storedAt]
      by_cases hk : k = x.1
      · rw [if_pos ⟨hk, by omega⟩]
        simp [hk, eq_comm]
      · rw [if_neg fun h => hk h.1, hshare]
        by_cases hin : x.1 < k ∧ k < current
        · rw [if_pos hin]
          simp [hk, hin, eq_comm]
        · rw [if_neg hin]
          simp [hk, hin]

/-- Latest positions that can be carried over. -/
def Carriable (current : ℕ) (x : ℕ × AccountPosition) : Prop :=
  x.1 ≤ current ∧ ∃ last, x.2.getCurrentShare = some last

theorem carryAccount_spec (s : Carried) {e : Credential × (ℕ × AccountPosition)}
    (he : Carriable current e.2) : ∃ s', carryAccount c current slot s e = .ok s' ∧
      (∀ cred, s'.currentEpoch.get? cred
        = if cred = e.1 then some (carriedOver c current slot e.2) else s.currentEpoch.get? cred) ∧
      ∀ cred k, s'.positionsForUpdate.get? (toLex (cred, k))
        = if cred = e.1 then (storedAt c current e.2 k).or (s.positionsForUpdate.get? (toLex (cred, k)))
          else s.positionsForUpdate.get? (toLex (cred, k)) := by
  obtain ⟨hle, last, hlast⟩ := he
  obtain ⟨l, hcarry, hl⟩ := carryOver_spec c slot hlast hle
  refine ⟨_, bind_eq_ok.2 ⟨_, hcarry, rfl⟩, fun cred => by simp, fun cred k => ?_⟩
  have hkey : ∀ a : ℕ × AccountPosition, toLex (e.1, a.1) = toLex (cred, k) ↔ e.1 = cred ∧ a.1 = k :=
    fun a => by rw [toLex_inj, Prod.mk.injEq]
  by_cases hcred : cred = e.1
  · rw [if_pos hcred]
    cases hs : storedAt c current e.2 k with
    | none =>
      rw [none_or]
      refine get?_foldl_insert_of_not_mem (fun a ha hak => ?_) _
      have hmem := (hl a.1 a.2).1 ha
      rw [((hkey a).1 hak).2, hs] at hmem
      cases hmem
    | some p =>
      refine get?_foldl_insert_of_mem ⟨(k, p), (hl k p).2 hs, by rw [hcred]⟩ ?_ _
      intro a ha hak
      have hmem := (hl a.1 a.2).1 ha
      rw [((hkey a).1 hak).2, hs] at hmem
      exact (Option.some.inj hmem).symm
  · rw [if_neg hcred]
    exact get?_foldl_insert_of_not_mem
      (fun a _ hak => hcred ((hkey a).1 hak).1.symm) _

theorem carryAccounts_spec {l : List (Credential × (ℕ × AccountPosition))}
    (hsorted : l.Pairwise fun a b => a.1 < b.1) (hall : ∀ e ∈ l, Carriable current e.2)
    (s : Carried) : ∃ s', l.foldlM (carryAccount c current slot) s = .ok s' ∧ ∀ cred,
      (∀ x, (cred, x) ∈ l → s'.currentEpoch.get? cred = some (carriedOver c current slot x) ∧
        ∀ k, s'.positionsForUpdate.get? (toLex (cred, k))
          = (storedAt c current x k).or (s.positionsForUpdate.get? (toLex (cred, k)))) ∧
      ((∀ e ∈ l, e.1 ≠ cred) → s'.currentEpoch.get? cred = s.currentEpoch.get? cred ∧
        ∀ k, s'.positionsForUpdate.get? (toLex (cred, k))
          = s.positionsForUpdate.get? (toLex (cred, k))) := by
  induction l generalizing s with
  | nil => exact ⟨s, rfl, fun _ => ⟨fun _ h => (nomatch h), fun _ => ⟨rfl, fun _ => rfl⟩⟩⟩
  | cons e l ih =>
    obtain ⟨he, hl⟩ := pairwise_cons.1 hsorted
    obtain ⟨halle, halll⟩ := forall_mem_cons.1 hall
    obtain ⟨s₁, hs₁, hcur, hpos⟩ := carryAccount_spec c slot s halle
    obtain ⟨s', hs', hrest⟩ := ih hl halll s₁
    refine ⟨s', ?_, fun cred => ⟨fun x hx => ?_, fun hnot => ?_⟩⟩
    · rw [foldlM_cons, hs₁]
      exact hs'
    · rcases mem_cons.1 hx with rfl | hx
      · have hother := (hrest cred).2 fun a ha => (he a ha).ne'
        refine ⟨by rw [hother.1, hcur, if_pos rfl], fun k => ?_⟩
        rw [hother.2, hpos, if_pos rfl]
      · have hne : cred ≠ e.1 := (he _ hx).ne'
        have hthis := (hrest cred).1 x hx
        refine ⟨hthis.1, fun k => ?_⟩
        rw [hthis.2, hpos, if_neg hne]
    · obtain ⟨hne, hnot⟩ := forall_mem_cons.1 hnot
      have hother := (hrest cred).2 hnot
      refine ⟨by rw [hother.1, hcur, if_neg hne.symm], fun k => ?_⟩
      rw [hother.2, hpos, if_neg hne.symm]

theorem carryAll_spec {latest : OrdMap Credential (ℕ × AccountPosition)} {mark : ℕ × ℕ × ℕ}
    (hmark : ∀ cred x, latest.get? cred = some x → markOf x = some mark) (hle : mark.1 ≤ current) :
    ∃ s, carryAll ord c current slot latest = .ok s ∧ ∀ cred,
      s.currentEpoch.get? cred = (latest.get? cred).map (carriedOver c current slot) ∧
      ∀ k, s.positionsForUpdate.get? (toLex (cred, k))
        = (latest.get? cred).bind fun x => storedAt c current x k := by
  have hmem : ∀ e ∈ latest.toList, markOf e.2 = some mark := fun e he =>
    hmark e.1 e.2 (mem_toList_iff.1 he)
  have hcarriable : ∀ e ∈ latest.toList, Carriable current e.2 := by
    intro e he
    obtain ⟨last, hlast, heq⟩ := Option.map_eq_some_iff.1 (hmem e he)
    refine ⟨?_, last, hlast⟩
    rw [← heq] at hle
    exact hle
  obtain ⟨s, hs, hspec⟩ := carryAccounts_spec c slot latest.pairwise_toList
    hcarriable ⟨.empty, .empty⟩
  refine ⟨s, ?_, fun cred => ?_⟩
  · unfold carryAll
    cases hlast : (ord.arrange latest.toList).getLast? with
    | none =>
      have hnil : latest.toList = [] := by
        have hperm := ord.perm latest.toList
        rw [List.getLast?_eq_none_iff.1 hlast] at hperm
        exact hperm.symm.eq_nil
      rw [hnil] at hs
      exact hs
    | some e =>
      have he : e ∈ latest.toList := ord.mem_arrange.1 (mem_of_getLast? hlast)
      rw [bind_some, hmem e he, elim_some, if_pos]
      · exact hs
      · exact all_eq_true.2 fun a ha => decide_eq_true (hmem a ha)
  · cases hcred : latest.get? cred with
    | none =>
      have hnot : ∀ e ∈ latest.toList, e.1 ≠ cred := by
        intro e he hne
        rw [← hne, mem_toList_iff.1 he] at hcred
        cases hcred
      exact (hspec cred).2 hnot
    | some x =>
      have hx := (hspec cred).1 x (mem_toList_iff.2 hcred)
      refine ⟨hx.1, fun k => ?_⟩
      rw [hx.2, get?_empty, or_none, bind_some]

end

/-! ## Events of a slot -/

def eventsOf (events : List PositionEvent) (cred : Credential) : List PositionEvent :=
  events.filter fun e => e.account = cred

def gain (events : List PositionEvent) (cred : Credential) : ℤ :=
  ((eventsOf events cred).map PositionEvent.net).sum

theorem gain_of_eq_nil (h : eventsOf events cred = []) : gain events cred = 0 := by
  rw [gain, h]
  rfl

section

variable (s : OrdMap Credential AccountPosition × OrdMap Credential AccountPosition)

/-- The position of an account, carried over or new. -/
def held (cred : Credential) : Option AccountPosition :=
  (s.1.get? cred).or (s.2.get? cred)

/-- New positions are of accounts without a position that is carried over. -/
def Apart : Prop :=
  ∀ cred p, s.2.get? cred = some p → s.1.get? cred = none

end

variable {s s' : OrdMap Credential AccountPosition × OrdMap Credential AccountPosition}

theorem applyPositionEvent_spec {e : PositionEvent} (hs : Apart s)
    (h : applyPositionEvent c slot supply s e = .ok s') :
    Apart s' ∧ ∃ p, ((held s e.account).getD (.new slot (0, supply))).updateFromUserEvent c slot e
        = .ok p ∧ ∀ cred, held s' cred = if cred = e.account then some p else held s cred := by
  unfold applyPositionEvent at h
  unfold held
  cases hcarried : s.1.get? e.account with
  | none =>
    rw [hcarried, Option.elim_none] at h
    obtain ⟨p, hp, h⟩ := bind_eq_ok.1 h
    cases h
    refine ⟨fun cred q hq => ?_, p, by rwa [none_or], fun cred => ?_⟩
    · by_cases hcred : cred = e.account
      · rw [hcred]
        exact hcarried
      · rw [get?_insert, if_neg hcred] at hq
        exact hs cred q hq
    · by_cases hcred : cred = e.account
      · simp [hcred, hcarried]
      · simp [hcred]
  | some q =>
    rw [hcarried, elim_some] at h
    obtain ⟨p, hp, h⟩ := bind_eq_ok.1 h
    cases h
    refine ⟨fun cred r hr => ?_, p, by rwa [some_or, getD_some], fun cred => ?_⟩
    · have hne : cred ≠ e.account := by
        rintro rfl
        rw [hs _ r hr] at hcarried
        cases hcarried
      rw [get?_insert, if_neg hne]
      exact hs cred r hr
    · by_cases hcred : cred = e.account
      · simp [hcred]
      · simp [hcred]

theorem applyPositionEvents_spec (hs : Apart s)
    (h : events.foldlM (applyPositionEvent c slot supply) s = .ok s') :
    Apart s' ∧ ∀ cred, (eventsOf events cred = [] → held s' cred = held s cred) ∧
      (eventsOf events cred ≠ [] → ∃ p, updateAll c slot
        ((held s cred).getD (.new slot (0, supply))) (eventsOf events cred) = .ok p ∧
        held s' cred = some p) := by
  induction events generalizing s with
  | nil =>
    cases h
    exact ⟨hs, fun cred => ⟨fun _ => rfl, fun hne => absurd rfl hne⟩⟩
  | cons e events ih =>
    rw [foldlM_cons] at h
    obtain ⟨s₁, hs₁, h⟩ := bind_eq_ok.1 h
    obtain ⟨hapart₁, p₁, hp₁, hheld₁⟩ := applyPositionEvent_spec hs hs₁
    obtain ⟨hapart, hrest⟩ := ih hapart₁ h
    refine ⟨hapart, fun cred => ?_⟩
    obtain ⟨hnone, hsome⟩ := hrest cred
    by_cases hcred : e.account = cred
    · have hcons : eventsOf (e :: events) cred = e :: eventsOf events cred := by
        rw [eventsOf, filter_cons_of_pos (by simpa using hcred)]
        rfl
      have hnow : held s₁ cred = some p₁ := by rw [hheld₁, if_pos hcred.symm]
      rw [hcons]
      refine ⟨fun hnil => absurd hnil (cons_ne_nil _ _), fun _ => ?_⟩
      rw [hcred] at hp₁
      by_cases hlater : eventsOf events cred = []
      · refine ⟨p₁, ?_, by rw [hnone hlater, hnow]⟩
        rw [hlater, updateAll, foldlM_cons, hp₁]
        rfl
      · obtain ⟨p, hp, hheld⟩ := hsome hlater
        rw [hnow, getD_some] at hp
        refine ⟨p, ?_, hheld⟩
        rw [updateAll, foldlM_cons, hp₁]
        exact hp
    · have hskip : eventsOf (e :: events) cred = eventsOf events cred := by
        rw [eventsOf, filter_cons_of_neg (by simpa using hcred)]
        rfl
      have hsame : held s₁ cred = held s cred := by rw [hheld₁, if_neg (Ne.symm hcred)]
      rw [hskip, ← hsame]
      exact ⟨hnone, hsome⟩

/-! ## What is stored -/

theorem get?_storeHeld {s : OrdMap Credential AccountPosition × OrdMap Credential AccountPosition}
    (hs : Apart s) (m : Table) (current : ℕ) (cred : Credential) (k : ℕ) :
    ((s.1.toList ++ s.2.toList).foldl (fun m e => m.insert (toLex (e.1, current)) e.2) m).get?
        (toLex (cred, k))
      = if k = current then (held s cred).or (m.get? (toLex (cred, k)))
        else m.get? (toLex (cred, k)) := by
  have hkey : ∀ e : Credential × AccountPosition,
      toLex (e.1, current) = toLex (cred, k) ↔ e.1 = cred ∧ k = current := fun e => by
    rw [toLex_inj, Prod.mk.injEq, @eq_comm _ current]
  by_cases hk : k = current
  · rw [if_pos hk]
    cases hheld : held s cred with
    | none =>
      rw [none_or]
      refine get?_foldl_insert_of_not_mem (fun e he hek => ?_) m
      obtain ⟨h1, h2⟩ := Option.or_eq_none_iff.1 hheld
      obtain ⟨rfl, -⟩ := (hkey e).1 hek
      rcases mem_append.1 he with he | he
      · rw [mem_toList_iff.1 he] at h1
        cases h1
      · rw [mem_toList_iff.1 he] at h2
        cases h2
    | some p =>
      have hval : ∀ e ∈ s.1.toList ++ s.2.toList, e.1 = cred → e.2 = p := by
        intro e he hcred
        subst hcred
        unfold held at hheld
        rcases mem_append.1 he with he | he
        · rw [mem_toList_iff.1 he, some_or] at hheld
          exact Option.some.inj hheld
        · have hget := mem_toList_iff.1 he
          rw [hs _ _ hget, none_or, hget] at hheld
          exact Option.some.inj hheld
      have hmem : (cred, p) ∈ s.1.toList ++ s.2.toList := by
        rcases Option.or_eq_some_iff.1 hheld with h1 | ⟨-, h2⟩
        · exact mem_append_left _ (mem_toList_iff.2 h1)
        · exact mem_append_right _ (mem_toList_iff.2 h2)
      exact get?_foldl_insert_of_mem ⟨_, hmem, by rw [hk]⟩
        (fun e he hek => hval e he ((hkey e).1 hek).1) m
  · rw [if_neg hk]
    exact get?_foldl_insert_of_not_mem (fun e _ hek => hk ((hkey e).1 hek).2) m

theorem get?_updateSupply {m' : Table}
    (h : m.toList.foldlM (updateSupply c current slot supply) m = .ok m') (cred : Credential)
    (k : ℕ) : (k ≠ current → m'.get? (toLex (cred, k)) = m.get? (toLex (cred, k))) ∧
      (m.get? (toLex (cred, current)) = none → m'.get? (toLex (cred, current)) = none) ∧
      ∀ p, m.get? (toLex (cred, current)) = some p → ∃ p',
        p.updateFromExternalPoolChanges c slot supply = .ok p' ∧
        m'.get? (toLex (cred, current)) = some p' := by
  have hspec := get?_foldlM_toList
    (R := fun k v w => ((ofLex k).2 = current → v.updateFromExternalPoolChanges c slot supply = .ok w) ∧
      ((ofLex k).2 ≠ current → w = v)) ?_ h
  · refine ⟨fun hk => ?_, fun hnone => (hspec _).1 hnone, fun p hp => ?_⟩
    · cases hget : m.get? (toLex (cred, k)) with
      | none => exact (hspec _).1 hget
      | some p =>
        obtain ⟨w, ⟨-, hw⟩, hm'⟩ := (hspec _).2 p hget
        rw [hm', hw hk]
    · obtain ⟨w, ⟨hw, -⟩, hm'⟩ := (hspec _).2 p hp
      exact ⟨w, hw rfl, hm'⟩
  · intro n e n' hstep hn
    unfold updateSupply at hstep
    split at hstep
    · next hcur =>
      obtain ⟨p, hp, hstep⟩ := bind_eq_ok.1 hstep
      cases hstep
      exact ⟨p, ⟨fun _ => hp, fun hne => absurd hcur hne⟩, fun j => get?_insert _ _ _ _⟩
    · next hcur =>
      cases hstep
      refine ⟨e.2, ⟨fun heq => absurd heq hcur, fun _ => rfl⟩, fun j => ?_⟩
      split
      · next hj => rw [hj, hn]
      · rfl

section

variable (c : EpochSlotConversion) (current slot : ℕ) (o : Option (ℕ × AccountPosition))

def lpOf : ℕ := o.elim 0 fun x => (shareOf x.2).1

/-- The intervals of the current epoch that a latest position leaves behind. -/
def leftBehind : List ShareInterval :=
  o.elim [] fun x => settled (carriedOver c current slot x).shareIntervals

theorem getCurrentShare_carriedOver (hx : x.2.getCurrentShare = some last) :
    ∃ i, (carriedOver c current slot x).getCurrentShare = some i ∧ i.stop = slot ∧
      i.share = shareOf x.2 := by
  have hshare : shareOf x.2 = last.share := by simp [shareOf, hx]
  unfold carriedOver
  split
  · exact ⟨_, getCurrentShare_closedAt hx slot, rfl, hshare.symm⟩
  · exact ⟨_, rfl, rfl, rfl⟩

end

section Sync

variable {ord : HashOrder} {c : EpochSlotConversion} {current slot supply : ℕ}
  {events : List PositionEvent} {latest : OrdMap Credential (ℕ × AccountPosition)}
  {mark : ℕ × ℕ × ℕ} {R : Table} (hcur : c.toEpoch slot = .ok current)
  (hmark : ∀ cred x, latest.get? cred = some x → markOf x = some mark) (hle : mark.1 ≤ current)
  (h : syncAccountPositions ord c events latest slot supply = .ok R)

include hcur hmark hle h

theorem syncAccountPositions_carried : ∃ s : Carried,
    (∀ cred, s.currentEpoch.get? cred = (latest.get? cred).map (carriedOver c current slot) ∧
      ∀ k, s.positionsForUpdate.get? (toLex (cred, k))
        = (latest.get? cred).bind fun x => storedAt c current x k) ∧
    applyEvents c current slot supply events s = .ok R := by
  obtain ⟨s, hs, hspec⟩ := carryAll_spec ord c slot hmark hle
  obtain ⟨current', hcur', h⟩ := bind_eq_ok.1 h
  cases hcur.symm.trans hcur'
  obtain ⟨s', hs', h⟩ := bind_eq_ok.1 h
  cases hs.symm.trans hs'
  exact ⟨s, hspec, h⟩

theorem syncAccountPositions_idle (hevents : events = []) (cred : Credential) (k : ℕ) :
    R.get? (toLex (cred, k)) = (latest.get? cred).bind fun x => storedAt c current x k := by
  obtain ⟨s, hspec, h⟩ := syncAccountPositions_carried hcur hmark hle h
  subst hevents
  cases h
  exact (hspec cred).2 k

/-- The tables that the last step of a slot with events starts from. -/
theorem syncAccountPositions_eq_ok {final : PositionEvent} (hfinal : events.getLast? = some final) :
    ∃ m : Table, m.toList.foldlM (updateSupply c current slot final.resultingPoolLpSupply) m = .ok R ∧
      (∀ cred k, k ≠ current → m.get? (toLex (cred, k))
        = (latest.get? cred).bind fun x => storedAt c current x k) ∧
      ∀ cred, (eventsOf events cred = [] → m.get? (toLex (cred, current))
          = (latest.get? cred).map (carriedOver c current slot)) ∧
        (eventsOf events cred ≠ [] → ∃ p, updateAll c slot
          (((latest.get? cred).map (carriedOver c current slot)).getD (.new slot (0, supply)))
          (eventsOf events cred) = .ok p ∧ m.get? (toLex (cred, current)) = some p) := by
  obtain ⟨s, hspec, h⟩ := syncAccountPositions_carried hcur hmark hle h
  rw [applyEvents, hfinal, elim_some] at h
  obtain ⟨applied, happlied, h⟩ := bind_eq_ok.1 h
  obtain ⟨hapart, hheld⟩ := applyPositionEvents_spec (s := (s.currentEpoch, .empty)) (fun _ _ hp => nomatch hp) happlied
  have hstart : ∀ cred, held (s.currentEpoch, .empty) cred
      = (latest.get? cred).map (carriedOver c current slot) := fun cred => by
    rw [held, get?_empty, or_none, (hspec cred).1]
  have hget := get?_storeHeld hapart s.positionsForUpdate current
  have hcurrent : ∀ cred, s.positionsForUpdate.get? (toLex (cred, current)) = none := fun cred => by
    rw [(hspec cred).2]
    cases latest.get? cred with
    | none => rfl
    | some x => exact storedAt_of_le le_rfl x
  refine ⟨_, h, fun cred k hk => ?_, fun cred => ⟨fun hnil => ?_, fun hne => ?_⟩⟩
  · rw [hget, if_neg hk, (hspec cred).2]
  · rw [hget, if_pos rfl, hcurrent, or_none, (hheld cred).1 hnil, hstart]
  · obtain ⟨p, hp, hin⟩ := (hheld cred).2 hne
    refine ⟨p, ?_, ?_⟩
    · rw [← hstart]
      exact hp
    · rw [hget, if_pos rfl, hin, some_or]

theorem syncAccountPositions_past {k : ℕ} (hk : k ≠ current) (cred : Credential) :
    R.get? (toLex (cred, k)) = (latest.get? cred).bind fun x => storedAt c current x k := by
  cases hfinal : events.getLast? with
  | none =>
    exact syncAccountPositions_idle hcur hmark hle h (List.getLast?_eq_none_iff.1 hfinal) cred k
  | some final =>
    obtain ⟨m, hm, hpast, -⟩ := syncAccountPositions_eq_ok hcur hmark hle h hfinal
    rw [(get?_updateSupply hm cred k).1 hk, hpast cred k hk]

theorem syncAccountPositions_absent (hcred : latest.get? cred = none)
    (hnil : eventsOf events cred = []) : R.get? (toLex (cred, current)) = none := by
  cases hfinal : events.getLast? with
  | none =>
    rw [syncAccountPositions_idle hcur hmark hle h (List.getLast?_eq_none_iff.1 hfinal) cred,
      hcred]
    rfl
  | some final =>
    obtain ⟨m, hm, -, hnow⟩ := syncAccountPositions_eq_ok hcur hmark hle h hfinal
    apply (get?_updateSupply hm cred current).2.1
    rw [(hnow cred).1 hnil, hcred]
    rfl

/-- An account that holds LP after the slot goes on with it, at the final LP supply of the pool. -/
theorem syncAccountPositions_current {final : PositionEvent} (hfinal : events.getLast? = some final)
    (hcred : latest.get? cred ≠ none ∨ eventsOf events cred ≠ [])
    (hpos : (lpOf (latest.get? cred) : ℤ) + gain events cred ≠ 0) :
    ∃ (n : ℕ) (p : AccountPosition), R.get? (toLex (cred, current)) = some p ∧
      p.shareIntervals = leftBehind c current slot (latest.get? cred) ++
        [⟨slot, slot, (n, final.resultingPoolLpSupply)⟩] ∧
      (n : ℤ) = lpOf (latest.get? cred) + gain events cred := by
  obtain ⟨m, hm, -, hnow⟩ := syncAccountPositions_eq_ok hcur hmark hle h hfinal
  -- The position before the slot, at its end.
  obtain ⟨q, i, hq, hi, hstop, hleft, hlp⟩ : ∃ (q : AccountPosition) (i : ShareInterval),
      q = ((latest.get? cred).map (carriedOver c current slot)).getD (.new slot (0, supply)) ∧
      q.getCurrentShare = some i ∧ i.stop = slot ∧
      settled q.shareIntervals = leftBehind c current slot (latest.get? cred) ∧
      i.share.1 = lpOf (latest.get? cred) := by
    cases hx : latest.get? cred with
    | none =>
      exact ⟨_, _, rfl, rfl, rfl, by simp [AccountPosition.new, settled, leftBehind], rfl⟩
    | some x =>
      obtain ⟨last, hlast, -⟩ := Option.map_eq_some_iff.1 (hmark cred x hx)
      obtain ⟨i, hi, hstop, hshare⟩ := getCurrentShare_carriedOver c current slot hlast
      exact ⟨_, i, rfl, hi, hstop, rfl, by rw [hshare]; rfl⟩
  by_cases hnil : eventsOf events cred = []
  · have hget := (hnow cred).1 hnil
    obtain ⟨x, hx⟩ : ∃ x, latest.get? cred = some x :=
      Option.ne_none_iff_exists'.1 (hcred.resolve_right fun hne => hne hnil)
    rw [hx, map_some, getD_some] at hq
    rw [hx, map_some, ← hq] at hget
    obtain ⟨p, hp, hR⟩ := (get?_updateSupply hm cred current).2.2 q hget
    rw [gain, hnil, map_nil, sum_nil, add_zero] at hpos ⊢
    refine ⟨i.share.1, p, hR, ?_, by rw [hlp]⟩
    rw [← hleft]
    exact updateFromExternalPoolChanges_spec hi hstop (by omega) hp
  · obtain ⟨q', hq', hget⟩ := (hnow cred).2 hnil
    rw [← hq] at hq'
    obtain ⟨n, sup, hint, hn⟩ := updateAll_spec hi hstop hnil hq'
    obtain ⟨p, hp, hR⟩ := (get?_updateSupply hm cred current).2.2 q' hget
    have hlast : q'.getCurrentShare = some ⟨slot, slot, (n, sup)⟩ := by
      simp [getCurrentShare, hint]
    rw [hlp] at hn
    have hn_pos : 0 < n := by
      rw [gain] at hpos
      omega
    refine ⟨n, p, hR, ?_, hn⟩
    rw [updateFromExternalPoolChanges_spec hlast rfl hn_pos hp, hint, settled_settled_append, hleft]

end Sync

end Splash.LpIndexer
