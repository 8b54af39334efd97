import Splash.LpIndexer.Sync

/-!
# Positions of a pool advance together

The positions of a pool in an epoch are cut at the same slots: each of them covers the last part of
one sequence of spans. Every slot keeps this up as long as no account is left without LP.

* `Tidy` — spans that follow one another inside an epoch.
* `Synced` — the positions of a pool after some slots.
* `Synced.mark_eq` — the latest positions have one mark, so that they can be carried over.
* `Synced.idle`, `Synced.advance` — what a slot without or with events keeps up.
-/

namespace Splash.LpIndexer

open Lib AccountPosition EpochSlotConversion List

/-! ## Spans -/

def spans (l : List ShareInterval) : List (ℕ × ℕ) := l.map fun i => (i.start, i.stop)

section

variable (slot : ℕ) (l : List (ℕ × ℕ))

/-- The spans with the last one extended to a slot. -/
def cutAt : List (ℕ × ℕ) :=
  l.dropLast ++ (l.getLast?.map fun x => (x.1, slot)).toList

def wide : List (ℕ × ℕ) := l.filter fun x => x.1 < x.2

/-- The spans follow one another between `a` and `b`. -/
def Tidy (a b : ℕ) (l : List (ℕ × ℕ)) : Prop :=
  l.IsChain (fun x y => x.2 = y.1) ∧ ∀ x ∈ l, a ≤ x.1 ∧ x.1 ≤ x.2 ∧ x.2 ≤ b

@[simp] theorem cutAt_concat (x : ℕ × ℕ) : cutAt slot (l ++ [x]) = l ++ [(x.1, slot)] := by
  simp [cutAt]

end

theorem spans_settled (l : List ShareInterval) : spans (settled l) = wide (spans l) := by
  simp only [spans, settled, wide, filter_map]
  rfl

theorem spans_closedAt {p : AccountPosition} {last : ShareInterval}
    (hp : p.getCurrentShare = some last) (slot : ℕ) :
    spans (closedAt p slot).shareIntervals = cutAt slot (spans p.shareIntervals) := by
  obtain ⟨l, hl⟩ := List.getLast?_eq_some_iff.1 hp
  simp [closedAt, hp, hl, spans, ShareInterval.extendTo]

theorem cutAt_suffix {l l' : List (ℕ × ℕ)} (h : l <:+ l') (hne : l ≠ []) (slot : ℕ) :
    cutAt slot l <:+ cutAt slot l' := by
  obtain ⟨k, rfl⟩ := h
  obtain ⟨m, x, rfl⟩ := (eq_nil_or_concat' l).resolve_left hne
  rw [← append_assoc, cutAt_concat, cutAt_concat, append_assoc]
  exact suffix_append _ _

theorem getLast?_of_suffix {l l' : List (ℕ × ℕ)} (h : l <:+ l') (hne : l ≠ []) :
    l.getLast? = l'.getLast? := by
  obtain ⟨k, rfl⟩ := h
  obtain ⟨m, x, rfl⟩ := (eq_nil_or_concat' l).resolve_left hne
  rw [← append_assoc, List.getLast?_concat, List.getLast?_concat]

namespace Tidy

variable {a b slot : ℕ} {l : List (ℕ × ℕ)}

theorem nil : Tidy a b [] := ⟨.nil, fun _ h => nomatch h⟩

theorem single {x : ℕ × ℕ} (ha : a ≤ x.1) (hx : x.1 ≤ x.2) (hb : x.2 ≤ b) : Tidy a b [x] :=
  ⟨.singleton x, fun y hy => by rw [mem_singleton.1 hy]; exact ⟨ha, hx, hb⟩⟩

theorem concat_iff {x : ℕ × ℕ} : Tidy a b (l ++ [x]) ↔
    Tidy a b l ∧ (∀ y ∈ l.getLast?, y.2 = x.1) ∧ a ≤ x.1 ∧ x.1 ≤ x.2 ∧ x.2 ≤ b := by
  unfold Tidy
  rw [isChain_append, forall_mem_append]
  simp only [List.head?_cons, Option.mem_some_iff, forall_eq', forall_mem_singleton]
  constructor
  · rintro ⟨⟨hl, -, hlast⟩, hall, hx⟩
    exact ⟨⟨hl, hall⟩, hlast, hx⟩
  · rintro ⟨⟨hl, hall⟩, hlast, hx⟩
    exact ⟨⟨hl, .singleton x, hlast⟩, hall, hx⟩

theorem cutAt (h : Tidy a b l) (hpast : ∀ x ∈ l.getLast?, x.2 ≤ slot) (hb : slot ≤ b) :
    Tidy a b (cutAt slot l) := by
  rcases eq_nil_or_concat' l with rfl | ⟨m, x, rfl⟩
  · exact nil
  · obtain ⟨hm, hlast, ha, hx, -⟩ := concat_iff.1 h
    have hslot := hpast x (by simp)
    rw [cutAt_concat]
    exact concat_iff.2 ⟨hm, hlast, ha, by omega, hb⟩

/-- Spans of width zero can be left out, and the end stays where it is. -/
theorem wide (h : Tidy a b l) (hend : ∀ x ∈ l.getLast?, x.2 = slot) :
    Tidy a b (wide l) ∧ ∀ x ∈ (LpIndexer.wide l).getLast?, x.2 = slot := by
  induction l using List.reverseRecOn generalizing slot with
  | nil => exact ⟨nil, fun _ h => nomatch h⟩
  | append_singleton l x ih =>
    obtain ⟨hl, hlast, ha, hx, hb⟩ := concat_iff.1 h
    have hxend : x.2 = slot := hend x (by simp)
    obtain ⟨hwide, hwend⟩ := ih hl hlast
    unfold LpIndexer.wide at hwide hwend ⊢
    rw [filter_append]
    by_cases hw : x.1 < x.2
    · rw [filter_cons_of_pos (by simpa using hw), filter_nil]
      refine ⟨concat_iff.2 ⟨hwide, hwend, ha, hx, hb⟩, fun y hy => ?_⟩
      rw [List.getLast?_concat] at hy
      rw [← Option.mem_some_iff.1 hy]
      exact hxend
    · rw [filter_cons_of_neg (by simpa using hw), filter_nil, append_nil]
      refine ⟨hwide, fun y hy => ?_⟩
      rw [hwend y hy]
      omega

theorem suffix {l' : List (ℕ × ℕ)} (h : Tidy a b l) (hs : l' <:+ l) : Tidy a b l' :=
  ⟨h.1.suffix hs, fun x hx => h.2 x (hs.mem hx)⟩

end Tidy

theorem getLast?_cutAt {slot : ℕ} {l : List (ℕ × ℕ)} {x : ℕ × ℕ}
    (h : x ∈ (cutAt slot l).getLast?) : x.2 = slot := by
  rcases eq_nil_or_concat' l with rfl | ⟨m, y, rfl⟩
  · cases h
  · rw [cutAt_concat, List.getLast?_concat] at h
    rw [← Option.mem_some_iff.1 h]

/-! ## Slots and epochs -/

namespace EpochSlotConversion

variable {c : EpochSlotConversion} {slot current : ℕ}

theorem slot_mem_epoch (h : c.toEpoch slot = .ok current) :
    c.firstSlot current ≤ slot ∧ slot ≤ c.lastSlot current := by
  obtain ⟨hstart, hlen, rfl⟩ := toEpoch_eq_ok.1 h
  have hmod := Nat.div_add_mod (slot - c.epochStart) c.slotsInEpoch
  have hlt := Nat.mod_lt (slot - c.epochStart) (Nat.pos_of_ne_zero hlen)
  rw [mul_comm] at hmod
  unfold lastSlot firstSlot
  omega

theorem lastSlot_lt_firstSlot {j k : ℕ} (h : j < k) (hlen : c.slotsInEpoch ≠ 0) :
    c.lastSlot j < c.firstSlot k := by
  have hmul := Nat.mul_le_mul_right c.slotsInEpoch (Nat.succ_le_of_lt h)
  rw [Nat.succ_mul] at hmul
  unfold lastSlot firstSlot
  omega

theorem firstSlot_le_lastSlot (k : ℕ) (hlen : c.slotsInEpoch ≠ 0) :
    c.firstSlot k ≤ c.lastSlot k := by
  unfold lastSlot
  omega

theorem le_epoch (h : c.toEpoch slot = .ok current) {k : ℕ} (hk : c.firstSlot k ≤ slot) :
    k ≤ current := by
  obtain ⟨hstart, hlen, rfl⟩ := toEpoch_eq_ok.1 h
  rw [Nat.le_div_iff_mul_le (Nat.pos_of_ne_zero hlen)]
  unfold firstSlot at hk
  omega

end EpochSlotConversion

/-! ## Positions that are in step -/

theorem exists_storedAt_pred {c : EpochSlotConversion} {current : ℕ} {x : ℕ × AccountPosition}
    (h : x.1 < current) : ∃ q, storedAt c current x (current - 1) = some q := by
  unfold storedAt
  by_cases hk : current - 1 = x.1
  · rw [if_pos ⟨hk, by omega⟩]
    exact ⟨_, rfl⟩
  · rw [if_neg fun hand => hk hand.1, if_pos ⟨by omega, by omega⟩]
    exact ⟨_, rfl⟩

def storeAll (R m : Table) : Table := R.toList.foldl (fun m e => m.insert e.1 e.2) m

theorem get?_storeAll (R m : Table) (k : Credential ×ₗ ℕ) :
    (storeAll R m).get? k = (R.get? k).or (m.get? k) :=
  OrdMap.get?_foldl_insert_toList R m k

/-- The positions of a pool after slots below `u`. All accounts have a position in the epoch `E`, with
the LP `lp`, and the positions of an epoch `k` cover the last part of the spans `P k`. -/
structure Synced (c : EpochSlotConversion) (m : Table) (lp : Credential → ℤ) (u E : ℕ)
    (P : ℕ → List (ℕ × ℕ)) : Prop where
  top : ∀ cred k p, m.get? (toLex (cred, k)) = some p →
    k ≤ E ∧ ∃ q, m.get? (toLex (cred, E)) = some q
  share : ∀ cred p, m.get? (toLex (cred, E)) = some p →
    ∃ i, p.getCurrentShare = some i ∧ (i.share.1 : ℤ) = lp cred ∧ 0 < i.share.1
  absent : ∀ cred, m.get? (toLex (cred, E)) = none → lp cred = 0
  suffix : ∀ cred k p, m.get? (toLex (cred, k)) = some p →
    spans p.shareIntervals <:+ P k ∧ spans p.shareIntervals ≠ []
  tidy : ∀ k, Tidy (c.firstSlot k) (c.lastSlot k) (P k)
  past : ∀ x ∈ (P E).getLast?, x.2 < u
  begun : E = 0 ∨ c.firstSlot E < u

namespace Synced

variable {c : EpochSlotConversion} {m : Table} {lp : Credential → ℤ} {u E : ℕ}
  {P : ℕ → List (ℕ × ℕ)}

theorem empty (c : EpochSlotConversion) :
    Synced c OrdMap.empty (fun _ => 0) 0 0 (fun _ => []) where
  top := fun _ _ _ h => nomatch h
  share := fun _ _ h => nomatch h
  absent := fun _ _ => rfl
  suffix := fun _ _ _ h => nomatch h
  tidy := fun _ => .nil
  past := fun _ h => nomatch h
  begun := .inl rfl

section

variable (h : Synced c m lp u E P)
include h

theorem mono {v : ℕ} (hv : u ≤ v) : Synced c m lp v E P :=
  { h with
    past := fun x hx => (h.past x hx).trans_le hv
    begun := h.begun.imp_right fun hlt => hlt.trans_le hv }

theorem get?_latest (cred : Credential) :
    (latestAccountPositions m).get? cred = (m.get? (toLex (cred, E))).map (Prod.mk E) := by
  cases hp : m.get? (toLex (cred, E)) with
  | none =>
    refine latest_eq_none fun k => ?_
    by_contra hne
    obtain ⟨q, hq⟩ := Option.ne_none_iff_exists'.1 hne
    obtain ⟨-, r, hr⟩ := h.top cred k q hq
    rw [hp] at hr
    cases hr
  | some p =>
    obtain ⟨i, hi, -, hpos⟩ := h.share cred p hp
    refine latest_eq_some hp ?_ fun k q hq => (h.top cred k q hq).1
    rw [isCurrentlyZeroShare, hi]
    simpa using hpos.ne'

theorem lpOf_latest (cred : Credential) :
    (lpOf ((latestAccountPositions m).get? cred) : ℤ) = lp cred := by
  rw [h.get?_latest]
  cases hp : m.get? (toLex (cred, E)) with
  | none => exact (h.absent cred hp).symm
  | some p =>
    obtain ⟨i, hi, hlp, -⟩ := h.share cred p hp
    simpa [lpOf, shareOf, hi] using hlp

def mark (E : ℕ) (P : ℕ → List (ℕ × ℕ)) : ℕ × ℕ × ℕ := (E, (P E).getLast?.getD (0, 0))

theorem mark_eq {cred : Credential} {x : ℕ × AccountPosition}
    (hx : (latestAccountPositions m).get? cred = some x) : markOf x = some (mark E P) := by
  rw [h.get?_latest] at hx
  obtain ⟨p, hp, rfl⟩ := Option.map_eq_some_iff.1 hx
  obtain ⟨i, hi, -, -⟩ := h.share cred p hp
  obtain ⟨hsuffix, hne⟩ := h.suffix cred E p hp
  have hlast : (P E).getLast? = some (i.start, i.stop) := by
    rw [← getLast?_of_suffix hsuffix hne, spans, List.getLast?_map]
    exact congrArg (Option.map _) hi
  simp [markOf, hi, mark, hlast]

theorem le_current {slot current : ℕ} (hu : u ≤ slot) (hcur : c.toEpoch slot = .ok current) :
    E ≤ current := by
  rcases h.begun with rfl | hlt
  · exact Nat.zero_le _
  · exact le_epoch hcur (by omega)

end

/-- The spans after positions are carried over to the current epoch. -/
def pastSpans (c : EpochSlotConversion) (current E : ℕ) (P : ℕ → List (ℕ × ℕ)) (k : ℕ) :
    List (ℕ × ℕ) :=
  if k = E ∧ k < current then cutAt (c.lastSlot E) (P E)
  else if E < k ∧ k < current then [(c.firstSlot k, c.lastSlot k)]
  else P k

section Slot

variable {slot current : ℕ} (h : Synced c m lp u E P) (hu : u ≤ slot)
  (hcur : c.toEpoch slot = .ok current)

include h in
theorem suffix_stored {cred : Credential} {k : ℕ} {p : AccountPosition}
    (hp : ((latestAccountPositions m).get? cred).bind (fun x => storedAt c current x k) = some p) :
    spans p.shareIntervals <:+ pastSpans c current E P k ∧ spans p.shareIntervals ≠ [] ∧
      shareOf p = ((m.get? (toLex (cred, E))).elim (0, 0) shareOf) ∧
      (∃ i, p.getCurrentShare = some i) ∧ E ≤ k ∧ k < current := by
  obtain ⟨x, hx, hstored⟩ := Option.bind_eq_some_iff.1 hp
  rw [h.get?_latest] at hx
  obtain ⟨q, hq, rfl⟩ := Option.map_eq_some_iff.1 hx
  obtain ⟨i, hi, -, -⟩ := h.share cred q hq
  obtain ⟨hsuffix, hne⟩ := h.suffix cred E q hq
  rw [hq, Option.elim_some]
  unfold storedAt at hstored
  unfold pastSpans
  split at hstored
  · next hk =>
    cases hstored
    rw [if_pos hk, spans_closedAt hi]
    refine ⟨cutAt_suffix hsuffix hne _, ?_, ?_, ⟨_, getCurrentShare_closedAt hi _⟩, hk.1.ge, hk.2⟩
    · obtain ⟨l, y, hl⟩ := (eq_nil_or_concat' _).resolve_left hne
      rw [hl, cutAt_concat]
      simp
    · simp [shareOf, getCurrentShare_closedAt hi, hi, ShareInterval.extendTo]
  · next hk =>
    split at hstored
    · next hk' =>
      cases hstored
      rw [if_neg hk, if_pos hk']
      exact ⟨suffix_rfl, cons_ne_nil _ _, rfl, ⟨_, rfl⟩, hk'.1.le, hk'.2⟩
    · cases hstored

include h hcur in
theorem tidy_pastSpans (k : ℕ) :
    Tidy (c.firstSlot k) (c.lastSlot k) (pastSpans c current E P k) := by
  obtain ⟨-, hlen, -⟩ := toEpoch_eq_ok.1 hcur
  unfold pastSpans
  split
  · next hk =>
    rw [hk.1]
    exact (h.tidy E).cutAt (fun x hx => ((h.tidy E).2 x (mem_of_getLast? hx)).2.2) le_rfl
  · split
    · exact .single le_rfl (firstSlot_le_lastSlot k hlen) le_rfl
    · exact h.tidy k

variable {ord : HashOrder} {events : List PositionEvent} {supply : ℕ} {R : Table}
  (hR : syncAccountPositions ord c events (latestAccountPositions m) slot supply = .ok R)

include h hu hcur hR

theorem suffix_past {cred : Credential} {k : ℕ} {p : AccountPosition} (hk : k ≠ current)
    (hp : (storeAll R m).get? (toLex (cred, k)) = some p) :
    spans p.shareIntervals <:+ pastSpans c current E P k ∧ spans p.shareIntervals ≠ [] := by
  have hle := h.le_current hu hcur
  rw [get?_storeAll,
    syncAccountPositions_past hcur (fun _ _ => h.mark_eq) hle hR hk cred] at hp
  rcases Option.or_eq_some_iff.1 hp with hnew | ⟨hnone, hold⟩
  · obtain ⟨hsuffix, hne, -⟩ := h.suffix_stored hnew
    exact ⟨hsuffix, hne⟩
  · obtain ⟨hkE, q, hq⟩ := h.top cred k p hold
    -- An old position that is kept is of an epoch before `E`.
    have hbefore : ¬ (k = E ∧ k < current) := by
      intro hkE
      rw [h.get?_latest, hq, Option.map_some, Option.bind_some, storedAt, if_pos hkE] at hnone
      cases hnone
    rw [pastSpans, if_neg hbefore, if_neg (by omega)]
    exact h.suffix cred k p hold

theorem idle (hevents : events = []) :
    ∃ P', Synced c (storeAll R m) lp (slot + 1) (max E (current - 1)) P' := by
  have hle := h.le_current hu hcur
  have hget : ∀ cred k, (storeAll R m).get? (toLex (cred, k))
      = (((latestAccountPositions m).get? cred).bind fun x => storedAt c current x k).or
          (m.get? (toLex (cred, k))) := fun cred k => by
    rw [get?_storeAll, syncAccountPositions_idle hcur (fun _ _ => h.mark_eq) hle hR hevents cred k]
  rcases Nat.eq_or_lt_of_le hle with rfl | hlt
  · -- Nothing is stored in the epoch of the latest positions.
    have hsame : storeAll R m = m := OrdMap.ext_get? fun key => by
      have hnone : ((latestAccountPositions m).get? (ofLex key).1).bind
          (fun x => storedAt c E x (ofLex key).2) = none := by
        rw [h.get?_latest, Option.bind_map]
        cases m.get? (toLex ((ofLex key).1, E)) with
        | none => rfl
        | some p => rw [Option.bind_some, Function.comp_apply, storedAt, if_neg (by simp; omega),
            if_neg (by simp; omega)]
      have hkey := hget (ofLex key).1 (ofLex key).2
      rw [hnone, Option.none_or] at hkey
      exact hkey
    rw [hsame, max_eq_left (by omega)]
    exact ⟨P, h.mono (by omega)⟩
  · -- The positions are closed up to the epoch before the current one.
    have hlatest : ∀ cred k p, (storeAll R m).get? (toLex (cred, k)) = some p →
        k < current ∧ ∃ x, (latestAccountPositions m).get? cred = some x := by
      intro cred k p hp
      rw [hget] at hp
      rcases Option.or_eq_some_iff.1 hp with hnew | ⟨-, hold⟩
      · obtain ⟨-, -, -, -, -, hk⟩ := h.suffix_stored hnew
        obtain ⟨x, hx, -⟩ := Option.bind_eq_some_iff.1 hnew
        exact ⟨hk, x, hx⟩
      · obtain ⟨hk, q, hq⟩ := h.top cred k p hold
        exact ⟨by omega, (E, q), by rw [h.get?_latest, hq]; rfl⟩
    have htop : ∀ cred x, (latestAccountPositions m).get? cred = some x →
        ∃ q, (storeAll R m).get? (toLex (cred, current - 1)) = some q ∧
          ((latestAccountPositions m).get? cred).bind
            (fun x => storedAt c current x (current - 1)) = some q := by
      intro cred x hx
      have hxE : x.1 = E := by
        rw [h.get?_latest] at hx
        obtain ⟨p, -, rfl⟩ := Option.map_eq_some_iff.1 hx
        rfl
      obtain ⟨q, hq⟩ := exists_storedAt_pred (c := c) (show x.1 < current by omega)
      refine ⟨q, ?_, by rw [hx]; exact hq⟩
      rw [hget, hx, Option.bind_some, hq, Option.some_or]
    have hbelow : c.lastSlot (current - 1) < slot := by
      obtain ⟨-, hlen, -⟩ := toEpoch_eq_ok.1 hcur
      exact (lastSlot_lt_firstSlot (by omega) hlen).trans_le
        (slot_mem_epoch hcur).1
    rw [max_eq_right (by omega)]
    refine ⟨pastSpans c current E P, ⟨?_, ?_, ?_, ?_, ?_, ?_, ?_⟩⟩
    · intro cred k p hp
      obtain ⟨hk, x, hx⟩ := hlatest cred k p hp
      obtain ⟨q, hq, -⟩ := htop cred x hx
      exact ⟨by omega, q, hq⟩
    · intro cred p hp
      obtain ⟨-, x, hx⟩ := hlatest cred _ p hp
      obtain ⟨q, hq, hstored⟩ := htop cred x hx
      cases hq.symm.trans hp
      obtain ⟨-, -, hshare, ⟨i, hi⟩, -⟩ := h.suffix_stored hstored
      rw [h.get?_latest] at hx
      obtain ⟨r, hr, -⟩ := Option.map_eq_some_iff.1 hx
      obtain ⟨j, hj, hlp, hpos⟩ := h.share cred r hr
      have hij : i.share = j.share := by simpa [shareOf, hi, hr, hj] using hshare
      exact ⟨i, hi, by rw [hij]; exact hlp, by rw [hij]; exact hpos⟩
    · intro cred hnone
      apply h.absent cred
      by_contra hne
      obtain ⟨q, hq⟩ := Option.ne_none_iff_exists'.1 hne
      obtain ⟨r, hr, -⟩ := htop cred (E, q) (by rw [h.get?_latest, hq]; rfl)
      rw [hnone] at hr
      cases hr
    · intro cred k p hp
      exact h.suffix_past hu hcur hR (hlatest cred k p hp).1.ne hp
    · exact h.tidy_pastSpans hcur
    · intro x hx
      have hstop := ((h.tidy_pastSpans hcur (current - 1)).2 x (mem_of_getLast? hx)).2.2
      omega
    · obtain ⟨-, hlen, -⟩ := toEpoch_eq_ok.1 hcur
      have hfirst := firstSlot_le_lastSlot (c := c) (current - 1) hlen
      exact .inr (by omega)

theorem known_of_stored {cred : Credential} {k : ℕ} {p : AccountPosition}
    (hp : (storeAll R m).get? (toLex (cred, k)) = some p) : k ≤ current ∧
      ((latestAccountPositions m).get? cred ≠ none ∨ eventsOf events cred ≠ []) := by
  have hle := h.le_current hu hcur
  rw [get?_storeAll] at hp
  rcases Option.or_eq_some_iff.1 hp with hnew | ⟨-, hold⟩
  · by_cases hk : k = current
    · refine ⟨hk.le, ?_⟩
      by_contra hnot
      obtain ⟨hnone, hnil⟩ := not_or.1 hnot
      rw [hk, syncAccountPositions_absent hcur (fun _ _ => h.mark_eq) hle hR (not_not.1 hnone)
        (not_not.1 hnil)] at hnew
      cases hnew
    · rw [syncAccountPositions_past hcur (fun _ _ => h.mark_eq) hle hR hk] at hnew
      obtain ⟨-, -, -, -, -, hlt⟩ := h.suffix_stored hnew
      obtain ⟨x, hx, -⟩ := Option.bind_eq_some_iff.1 hnew
      exact ⟨hlt.le, .inl (by rw [hx]; exact Option.some_ne_none x)⟩
  · obtain ⟨hk, q, hq⟩ := h.top cred k p hold
    exact ⟨hk.trans hle, .inl (by rw [h.get?_latest, hq]; exact Option.some_ne_none _)⟩

theorem current_position {final : PositionEvent} (hfinal : events.getLast? = some final)
    (hpos : ∀ cred, eventsOf events cred ≠ [] → lp cred + gain events cred ≠ 0) {cred : Credential}
    (hcred : (latestAccountPositions m).get? cred ≠ none ∨ eventsOf events cred ≠ []) :
    ∃ (n : ℕ) (p : AccountPosition), (storeAll R m).get? (toLex (cred, current)) = some p ∧
      p.shareIntervals = leftBehind c current slot ((latestAccountPositions m).get? cred) ++
        [⟨slot, slot, (n, final.resultingPoolLpSupply)⟩] ∧
      (n : ℤ) = lp cred + gain events cred ∧ 0 < n := by
  have hlp := h.lpOf_latest cred
  have hne : lp cred + gain events cred ≠ 0 := by
    by_cases hnil : eventsOf events cred = []
    · obtain ⟨x, hx⟩ := Option.ne_none_iff_exists'.1 (hcred.resolve_right fun hne => hne hnil)
      rw [h.get?_latest] at hx
      obtain ⟨q, hq, -⟩ := Option.map_eq_some_iff.1 hx
      obtain ⟨i, -, hi, hipos⟩ := h.share cred q hq
      rw [gain_of_eq_nil hnil]
      omega
    · exact hpos cred hnil
  obtain ⟨n, p, hp, hint, hn⟩ := syncAccountPositions_current hcur (fun _ _ => h.mark_eq)
    (h.le_current hu hcur) hR hfinal hcred (by rw [hlp]; exact hne)
  rw [hlp] at hn
  refine ⟨n, p, ?_, hint, hn, by omega⟩
  rw [get?_storeAll, hp, Option.some_or]

omit hR in
/-- The spans of the current epoch before the new one. -/
theorem exists_carriedSpans : ∃ l, Tidy (c.firstSlot current) (c.lastSlot current) (l ++ [(slot, slot)]) ∧
    ∀ cred, spans (leftBehind c current slot ((latestAccountPositions m).get? cred)) <:+ l := by
  obtain ⟨hfirst, hlast⟩ := slot_mem_epoch hcur
  -- The spans that are carried over, up to the slot.
  obtain ⟨k, hk, hend, hsuffix⟩ : ∃ k, Tidy (c.firstSlot current) (c.lastSlot current) k ∧
      (∀ x ∈ k.getLast?, x.2 = slot) ∧ ∀ cred x, (latestAccountPositions m).get? cred = some x →
        spans (carriedOver c current slot x).shareIntervals <:+ k := by
    by_cases hE : E = current
    · refine ⟨cutAt slot (P E), ?_, fun x hx => getLast?_cutAt hx, fun cred x hx => ?_⟩
      · have htidy : Tidy (c.firstSlot E) (c.lastSlot E) (cutAt slot (P E)) :=
          (h.tidy E).cutAt (fun x hx => ((h.past x hx).trans_le hu).le) (by rw [hE]; exact hlast)
        rwa [hE] at htidy ⊢
      · rw [h.get?_latest] at hx
        obtain ⟨q, hq, rfl⟩ := Option.map_eq_some_iff.1 hx
        obtain ⟨i, hi, -⟩ := h.share cred q hq
        obtain ⟨hs, hne⟩ := h.suffix cred E q hq
        rw [carriedOver, if_pos hE, spans_closedAt hi]
        exact cutAt_suffix hs hne slot
    · refine ⟨[(c.firstSlot current, slot)], .single le_rfl hfirst hlast, ?_, fun cred x hx => ?_⟩
      · intro x hx
        obtain rfl : (c.firstSlot current, slot) = x := Option.some.inj hx
        rfl
      · rw [h.get?_latest] at hx
        obtain ⟨q, hq, rfl⟩ := Option.map_eq_some_iff.1 hx
        rw [carriedOver, if_neg hE]
        exact suffix_rfl
  obtain ⟨hwide, hwend⟩ := hk.wide hend
  refine ⟨wide k, Tidy.concat_iff.2 ⟨hwide, hwend, hfirst, le_rfl, hlast⟩, fun cred => ?_⟩
  cases hx : (latestAccountPositions m).get? cred with
  | none => exact nil_suffix
  | some x =>
    rw [leftBehind, Option.elim_some, spans_settled]
    exact (hsuffix cred x hx).filter _

/-- **A slot with position events.** When no account is left without LP, all positions of the pool go
on from the slot. -/
theorem advance {final : PositionEvent} (hfinal : events.getLast? = some final)
    (hpos : ∀ cred, eventsOf events cred ≠ [] → lp cred + gain events cred ≠ 0) :
    ∃ P', Synced c (storeAll R m) (fun cred => lp cred + gain events cred) (slot + 1) current P' := by
  have hle := h.le_current hu hcur
  obtain ⟨l, htidy, hleft⟩ := h.exists_carriedSpans hu hcur
  have hknown : ∀ cred k p, (storeAll R m).get? (toLex (cred, k)) = some p → k ≤ current ∧
      ((latestAccountPositions m).get? cred ≠ none ∨ eventsOf events cred ≠ []) :=
    fun _ _ _ hp => h.known_of_stored hu hcur hR hp
  have hnow := fun cred => @current_position _ _ _ _ _ _ _ _ h hu hcur _ _ _ _ hR _ hfinal hpos cred
  refine ⟨fun k => if k = current then l ++ [(slot, slot)] else pastSpans c current E P k,
    ⟨?_, ?_, ?_, ?_, ?_, ?_, ?_⟩⟩
  · intro cred k p hp
    obtain ⟨hk, hcred⟩ := hknown cred k p hp
    obtain ⟨n, q, hq, -⟩ := hnow cred hcred
    exact ⟨hk, q, hq⟩
  · intro cred p hp
    obtain ⟨n, q, hq, hint, hn, hn_pos⟩ := hnow cred (hknown cred _ p hp).2
    cases hq.symm.trans hp
    exact ⟨⟨slot, slot, (n, final.resultingPoolLpSupply)⟩, by simp [getCurrentShare, hint], hn, hn_pos⟩
  · intro cred hnone
    have hnot : ¬ ((latestAccountPositions m).get? cred ≠ none ∨ eventsOf events cred ≠ []) := by
      intro hcred
      obtain ⟨n, q, hq, -⟩ := hnow cred hcred
      rw [hnone] at hq
      cases hq
    obtain ⟨hlatest, hnil⟩ := not_or.1 hnot
    rw [gain_of_eq_nil (not_not.1 hnil), add_zero, ← h.lpOf_latest cred, not_not.1 hlatest]
    rfl
  · intro cred k p hp
    by_cases hk : k = current
    · subst hk
      obtain ⟨n, q, hq, hint, -, -⟩ := hnow cred (hknown cred k p hp).2
      cases hq.symm.trans hp
      simp only [if_true, hint, spans, map_append, map_cons, map_nil]
      refine ⟨?_, by simp⟩
      obtain ⟨pre, hpre⟩ := hleft cred
      exact ⟨pre, by rw [← hpre, append_assoc]; rfl⟩
    · simp only [hk, if_false]
      exact h.suffix_past hu hcur hR hk hp
  · intro k
    by_cases hk : k = current
    · subst hk
      simpa using htidy
    · simpa [hk] using h.tidy_pastSpans hcur k
  · intro x hx
    simp only [if_true, List.getLast?_concat] at hx
    rw [← Option.some.inj hx]
    exact Nat.lt_succ_self slot
  · exact .inr (by have := (slot_mem_epoch hcur).1; omega)

end Slot

end Synced

end Splash.LpIndexer
