import Splash.LpIndexer.Bookkeeping
import Splash.LpIndexer.Query

/-!
# Rewards against emissions

The shares of all accounts of a pool in an epoch are averages over the slots from the first record of
each account. They add up to at most the whole when all accounts are recorded from the same slot on.

* `metered` — the sum of the shares over the slots of a position.
* `Metered` — the positions of each epoch start together, and their shares add up to at most the whole.
* `Synced.metered_idle`, `Synced.metered_advance` — what a slot keeps up.
* **`Run.rewards_le_emission`** — averages of a pool in an epoch add up to at most 10000 basis points,
  and rewards to at most the emission of the gauge, in every run in which accounts join a pool together.
-/

namespace Splash.LpIndexer

open Lib AccountPosition Function List Option

/-! ## Shares over slots -/

/-- The shares in basis points, weighted by slots. -/
def metered (l : List ShareInterval) : ℕ := (l.map ShareInterval.exactBps).sum

def bpsOf (share : ℕ × ℕ) : ℕ := share.1 * 10000 / share.2

theorem metered_append (l l' : List ShareInterval) : metered (l ++ l') = metered l + metered l' := by
  simp [metered]

theorem metered_single (i : ShareInterval) : metered [i] = (i.stop - i.start) * bpsOf i.share := by
  simp [metered, ShareInterval.exactBps, bpsOf]

theorem metered_settled (l : List ShareInterval) : metered (settled l) = metered l := by
  induction l with
  | nil => rfl
  | cons i l ih =>
    have hcons : ∀ k, metered (i :: k) = metered [i] + metered k := fun k => metered_append [i] k
    unfold settled at ih ⊢
    by_cases hw : i.start < i.stop
    · rw [filter_cons_of_pos (by simpa using hw), hcons (List.filter _ l), hcons l, ih]
    · have hzero : i.stop - i.start = 0 := by omega
      rw [filter_cons_of_neg (by simpa using hw), ih, hcons, metered_single, hzero, zero_mul,
        zero_add]

variable {total : ℕ} {S U : ℕ → ℕ} {T : List Block} {m : Table} {cfg : Settings} {pid : PoolId}
  {F : Finset Credential} {cred : Credential} {l : List (ℕ × ℕ)} {p : AccountPosition}

variable {E a b current n slot : ℕ} {pid' : PoolId} {w : Credential → ℕ} {α : Type}

theorem metered_closedAt {i : ShareInterval} (hp : p.getCurrentShare = some i)
    (hstart : i.start ≤ i.stop) (hslot : i.stop ≤ slot) : metered (closedAt p slot).shareIntervals
      = metered p.shareIntervals + (slot - i.stop) * bpsOf i.share := by
  obtain ⟨l, hl⟩ := List.getLast?_eq_some_iff.1 hp
  have hclosed : (closedAt p slot).shareIntervals = l ++ [i.extendTo slot] := by
    simp [closedAt, hp, hl]
  have hwidth : slot - i.start = (i.stop - i.start) + (slot - i.stop) := by omega
  rw [hclosed, hl, metered_append, metered_append, metered_single, metered_single,
    show (i.extendTo slot).stop - (i.extendTo slot).start = slot - i.start from rfl, hwidth, add_mul,
    add_assoc]
  rfl

theorem sum_bps_le {F : Finset α} {a : α → ℕ} (h : ∑ x ∈ F, a x ≤ total) :
    ∑ x ∈ F, bpsOf (a x, total) ≤ 10000 := by
  rcases Nat.eq_zero_or_pos total with rfl | hpos
  · simp [bpsOf]
  · have hle : total * ∑ x ∈ F, bpsOf (a x, total) ≤ total * 10000 := by
      rw [Finset.mul_sum]
      calc ∑ x ∈ F, total * bpsOf (a x, total)
          ≤ ∑ x ∈ F, a x * 10000 := Finset.sum_le_sum fun x _ => Nat.mul_div_le _ _
        _ = (∑ x ∈ F, a x) * 10000 := (Finset.sum_mul _ _ _).symm
        _ ≤ total * 10000 := Nat.mul_le_mul_right _ h
    exact Nat.le_of_mul_le_mul_left hle hpos

theorem sum_div_le {F : Finset α} {a : α → ℕ} {w bound : ℕ} (h : ∑ x ∈ F, a x ≤ bound * w) :
    ∑ x ∈ F, a x / w ≤ bound := by
  rcases Nat.eq_zero_or_pos w with rfl | hpos
  · simp
  · have hle : w * ∑ x ∈ F, a x / w ≤ w * bound := by
      rw [Finset.mul_sum, mul_comm w bound]
      exact (Finset.sum_le_sum fun x _ => Nat.mul_div_le _ _).trans h
    exact Nat.le_of_mul_le_mul_left hle hpos

/-! ## The first slot of a position -/

/-- The first slot that spans cover. -/
def startOf (l : List (ℕ × ℕ)) : Option ℕ := l.head?.map Prod.fst

theorem startOf_cutAt (slot : ℕ) : startOf (cutAt slot l) = startOf l := by
  rcases eq_nil_or_concat' l with rfl | ⟨m, x, rfl⟩
  · rfl
  · rw [cutAt_concat]
    cases m <;> rfl

/-- Leaving out spans of width zero does not move the start, when the end stays. -/
theorem startOf_wide (h : Tidy a b l) (hne : l ≠ []) (hend : ∀ x ∈ l.getLast?, x.2 = slot) :
    startOf (wide l ++ [(slot, slot)]) = startOf l := by
  induction l with
  | nil => exact absurd rfl hne
  | cons x l ih =>
    by_cases hw : x.1 < x.2
    · rw [wide, filter_cons_of_pos (by simpa using hw)]
      rfl
    · have hx := (h.2 x mem_cons_self).2.1
      rw [wide, filter_cons_of_neg (by simpa using hw), ← wide]
      by_cases hl : l = []
      · subst hl
        have hxend : x.2 = slot := hend x rfl
        simp only [wide, filter_nil, nil_append, startOf, List.head?_cons, map_some]
        congr 1
        omega
      · obtain ⟨y, k, rfl⟩ := exists_cons_of_ne_nil hl
        have hxy : x.2 = y.1 := (isChain_cons_cons.1 h.1).1
        rw [ih (h.suffix (suffix_cons x _)) hl fun z hz => hend z (by simpa using hz)]
        simp only [startOf, List.head?_cons, map_some]
        congr 1
        omega

theorem Tidy.start_le_end {s t : ℕ} (h : Tidy a b l) (hs : startOf l = some s)
    (ht : l.getLast?.map Prod.snd = some t) : s ≤ t ∧ t ≤ b := by
  induction l generalizing s with
  | nil => cases hs
  | cons x l ih =>
    obtain ⟨-, hx, hb⟩ := h.2 x mem_cons_self
    obtain rfl : x.1 = s := Option.some.inj hs
    cases l with
    | nil =>
      obtain rfl : x.2 = t := Option.some.inj ht
      exact ⟨hx, hb⟩
    | cons y l =>
      have hxy : x.2 = y.1 := (isChain_cons_cons.1 h.1).1
      obtain ⟨hle, htb⟩ := ih (h.suffix (suffix_cons x _)) (s := y.1) rfl (by simpa using ht)
      exact ⟨by omega, htb⟩

/-! ## Positions that start together -/

def meterAt (m : Table) (cred : Credential) (k : ℕ) : ℕ :=
  (m.get? (toLex (cred, k))).elim 0 fun p => metered p.shareIntervals

def lpAt (m : Table) (cred : Credential) (k : ℕ) : ℕ :=
  (m.get? (toLex (cred, k))).elim 0 fun p => (shareOf p).1

/-- The positions of an epoch `k` are recorded from the slot `S k` up to `U k`, and their shares add
up to at most the whole. In the epoch `E` they are shares of `total`. -/
structure Metered (m : Table) (E : ℕ) (S U : ℕ → ℕ) (total : ℕ) : Prop where
  since : ∀ cred k p, m.get? (toLex (cred, k)) = some p → startOf (spans p.shareIntervals) = some (S k)
  till : ∀ cred k p, m.get? (toLex (cred, k)) = some p →
    (spans p.shareIntervals).getLast?.map Prod.snd = some (U k)
  shares : ∀ k (F : Finset Credential), ∑ cred ∈ F, meterAt m cred k ≤ 10000 * (U k - S k)
  supply : ∀ cred p, m.get? (toLex (cred, E)) = some p → (shareOf p).2 = total
  backed : ∀ F : Finset Credential, ∑ cred ∈ F, lpAt m cred E ≤ total

theorem Metered.empty : Metered OrdMap.empty 0 (fun _ => 0) (fun _ => 0) 0 where
  since := fun _ _ _ h => nomatch h
  till := fun _ _ _ h => nomatch h
  shares := fun _ F => by simp [meterAt]
  supply := fun _ _ h => nomatch h
  backed := fun F => by simp [lpAt]

def bpsAt (m : Table) (cred : Credential) (k : ℕ) : ℕ :=
  (m.get? (toLex (cred, k))).elim 0 fun p => bpsOf (shareOf p)

theorem Metered.sum_bpsAt_le (h : Metered m E S U total) (F : Finset Credential) :
    ∑ cred ∈ F, bpsAt m cred E ≤ 10000 := by
  refine le_trans (Finset.sum_le_sum fun cred _ => ?_) (sum_bps_le (h.backed F))
  unfold bpsAt lpAt
  cases hp : m.get? (toLex (cred, E)) with
  | none => exact Nat.zero_le _
  | some p =>
    rw [elim_some, elim_some, ← h.supply cred p hp]

/-- Shares that last for some slots add up to at most the whole over them. -/
theorem Metered.sum_lasting_le (h : Metered m E S U total)
    (hw : ∀ cred ∈ F, w cred ≤ meterAt m cred E + n * bpsAt m cred E) (ha : U E - S E + n ≤ b - a) :
    ∑ cred ∈ F, w cred ≤ 10000 * (b - a) := by
  calc ∑ cred ∈ F, w cred
      ≤ ∑ cred ∈ F, (meterAt m cred E + n * bpsAt m cred E) := Finset.sum_le_sum hw
    _ = ∑ cred ∈ F, meterAt m cred E + n * ∑ cred ∈ F, bpsAt m cred E := by
        rw [Finset.sum_add_distrib, Finset.mul_sum]
    _ ≤ 10000 * (U E - S E) + n * 10000 :=
        Nat.add_le_add (h.shares E F) (Nat.mul_le_mul_left n (h.sum_bpsAt_le F))
    _ ≤ 10000 * (b - a) := by omega

theorem Metered.sum_fresh_le (h : Metered m E S U total)
    (hw : ∀ cred ∈ F, w cred ≤ n * bpsAt m cred E) : ∑ cred ∈ F, w cred ≤ 10000 * n := by
  calc ∑ cred ∈ F, w cred
      ≤ ∑ cred ∈ F, n * bpsAt m cred E := Finset.sum_le_sum hw
    _ = n * ∑ cred ∈ F, bpsAt m cred E := (Finset.mul_sum _ _ _).symm
    _ ≤ n * 10000 := Nat.mul_le_mul_left n (h.sum_bpsAt_le F)
    _ = 10000 * n := mul_comm _ _

/-! ## A slot -/

variable (c : EpochSlotConversion)

/-- A latest position of the epoch `E` in a past epoch. -/
def pastPosition (E k : ℕ) (p : AccountPosition) : AccountPosition :=
  if k = E then closedAt p (c.lastSlot E) else ⟨[⟨c.firstSlot k, c.lastSlot k, shareOf p⟩]⟩

/-- The first slots after positions are carried over. -/
def pastSince (current E : ℕ) (S : ℕ → ℕ) (k : ℕ) : ℕ :=
  if E < k ∧ k < current then c.firstSlot k else S k

/-- The last slots after positions are carried over. -/
def pastTill (current E : ℕ) (U : ℕ → ℕ) (k : ℕ) : ℕ :=
  if E ≤ k ∧ k < current then c.lastSlot k else U k

/-- What an epoch holds after positions are carried over. -/
def CarriedAt (current E : ℕ) (m m' : Table) (k : ℕ) : Prop :=
  ∀ cred, m'.get? (toLex (cred, k)) = if E ≤ k ∧ k < current
    then (m.get? (toLex (cred, E))).map (pastPosition c E k) else m.get? (toLex (cred, k))

theorem storedAt_eq {c : EpochSlotConversion} {k : ℕ} (p : AccountPosition) :
    storedAt c current (E, p) k
      = if E ≤ k ∧ k < current then some (pastPosition c E k p) else none := by
  unfold storedAt pastPosition
  by_cases hk : k = E
  · by_cases hlt : k < current
    · rw [if_pos ⟨hk, hlt⟩, if_pos ⟨hk.ge, hlt⟩, if_pos hk]
    · rw [if_neg fun h => hlt h.2, if_neg fun h => hlt h.2, if_neg fun h => hlt h.2]
  · rw [if_neg fun h => hk h.1, if_neg hk]
    by_cases hin : E < k ∧ k < current
    · rw [if_pos hin, if_pos ⟨hin.1.le, hin.2⟩]
    · rw [if_neg hin, if_neg (by omega)]

/-- Accounts that join find nobody else, or do so in the first slot of the epoch. -/
def JoinsTogether (m : Table) (E slot current : ℕ)
    (events : List PositionEvent) : Prop :=
  ∀ cred, eventsOf events cred ≠ [] → m.get? (toLex (cred, E)) = none →
    slot = c.firstSlot current ∨ ∀ other, m.get? (toLex (other, E)) = none

namespace Synced

variable {c : EpochSlotConversion} {m : Table} {lp : Credential → ℤ} {u E : ℕ}
  {P : ℕ → List (ℕ × ℕ)} (h : Synced c m lp u E P)

include h

theorem lpAt_eq (cred : Credential) : (lpAt m cred E : ℤ) = lp cred := by
  unfold lpAt
  cases hp : m.get? (toLex (cred, E)) with
  | none => exact (h.absent cred hp).symm
  | some p =>
    obtain ⟨i, hi, hlp, -⟩ := h.share cred p hp
    simpa [shareOf, hi] using hlp

theorem carriedAt_of_stored {current : ℕ} {m' : Table} {k : ℕ}
    (hget : ∀ cred, m'.get? (toLex (cred, k))
      = (((latestAccountPositions m).get? cred).bind fun x => storedAt c current x k).or
          (m.get? (toLex (cred, k)))) : CarriedAt c current E m m' k := by
  intro cred
  rw [hget, h.get?_latest]
  cases hp : m.get? (toLex (cred, E)) with
  | none =>
    have hnone : m.get? (toLex (cred, k)) = none := by
      by_contra hne
      obtain ⟨q, hq⟩ := Option.ne_none_iff_exists'.1 hne
      obtain ⟨-, r, hr⟩ := h.top cred k q hq
      rw [hp] at hr
      cases hr
    simp [hnone]
  | some p =>
    rw [map_some, bind_some, storedAt_eq, map_some]
    split
    · rfl
    · rfl

theorem exists_last (hm : Metered m E S U total) (hp : m.get? (toLex (cred, E)) = some p) :
    ∃ i, p.getCurrentShare = some i ∧ i.stop = U E ∧ i.start ≤ i.stop ∧ shareOf p = i.share ∧
      S E ≤ U E ∧ U E ≤ c.lastSlot E ∧ U E < u ∧ c.firstSlot E ≤ S E := by
  obtain ⟨i, hi, -, -⟩ := h.share cred p hp
  obtain ⟨hsuffix, hne⟩ := h.suffix cred E p hp
  have htidy := (h.tidy E).suffix hsuffix
  have hlast : (spans p.shareIntervals).getLast? = some (i.start, i.stop) := by
    rw [spans, List.getLast?_map]
    exact congrArg (Option.map _) hi
  have htill := hm.till cred E p hp
  have hstop : i.stop = U E := by
    rw [hlast] at htill
    exact Option.some.inj htill
  obtain ⟨hSU, hUb⟩ := htidy.start_le_end (hm.since cred E p hp) htill
  have hspan := htidy.2 _ (mem_of_getLast? hlast)
  have hpast := h.past (i.start, i.stop) (by rw [← getLast?_of_suffix hsuffix hne, hlast]; rfl)
  obtain ⟨x, l, hx⟩ := exists_cons_of_ne_nil hne
  have hfirst := (htidy.2 x (by rw [hx]; exact mem_cons_self)).1
  have hsince := hm.since cred E p hp
  rw [hx] at hsince
  have hxS : x.1 = S E := Option.some.inj hsince
  simp only at hspan hpast
  exact ⟨i, hi, hstop, hspan.2.1, by simp [shareOf, hi], hSU, hUb, by omega, by omega⟩

/-- What positions carried over keep up in an epoch. -/
theorem metered_past (hm : Metered m E S U total) {current k : ℕ}
    {m' : Table} (hget : CarriedAt c current E m m' k) :
    (∀ cred p, m'.get? (toLex (cred, k)) = some p →
        startOf (spans p.shareIntervals) = some (pastSince c current E S k) ∧
        (spans p.shareIntervals).getLast?.map Prod.snd = some (pastTill c current E U k)) ∧
      ∀ F : Finset Credential, ∑ cred ∈ F, meterAt m' cred k
        ≤ 10000 * (pastTill c current E U k - pastSince c current E S k) := by
  by_cases hk : E ≤ k ∧ k < current
  · have hget' : ∀ cred, m'.get? (toLex (cred, k))
        = (m.get? (toLex (cred, E))).map (pastPosition c E k) := fun cred => by
      rw [hget cred, if_pos hk]
    rw [pastTill, if_pos hk]
    by_cases hkE : k = E
    · -- The epoch of the latest positions is closed.
      subst hkE
      rw [pastSince, if_neg (by omega)]
      refine ⟨fun cred p hp => ?_, fun F => ?_⟩
      · rw [hget'] at hp
        obtain ⟨q, hq, rfl⟩ := Option.map_eq_some_iff.1 hp
        obtain ⟨i, hi, -⟩ := h.exists_last hm hq
        rw [pastPosition, if_pos rfl, spans_closedAt hi, startOf_cutAt]
        refine ⟨hm.since cred k q hq, ?_⟩
        obtain ⟨-, hne⟩ := h.suffix cred k q hq
        obtain ⟨l, x, hl⟩ := (eq_nil_or_concat' _).resolve_left hne
        rw [hl, cutAt_concat, List.getLast?_concat]
        rfl
      · by_cases hsome : ∃ cred p, m.get? (toLex (cred, k)) = some p
        · obtain ⟨cred, p, hp⟩ := hsome
          obtain ⟨-, -, -, -, -, hSU, hUb, -, -⟩ := h.exists_last hm hp
          refine hm.sum_lasting_le (n := c.lastSlot k - U k) (fun cred _ => ?_) (by omega)
          unfold meterAt bpsAt
          rw [hget']
          cases hq : m.get? (toLex (cred, k)) with
          | none => exact Nat.zero_le _
          | some q =>
            obtain ⟨i, hi, hstop, hstart, hshare, -, -, -, -⟩ := h.exists_last hm hq
            simp only [map_some, elim_some, pastPosition, if_true]
            rw [metered_closedAt hi hstart (by omega), hstop, hshare]
        · rw [Finset.sum_eq_zero fun cred _ => ?_]
          · exact Nat.zero_le _
          · have hnone : m.get? (toLex (cred, k)) = none := by
              by_contra hne
              obtain ⟨q, hq⟩ := Option.ne_none_iff_exists'.1 hne
              exact hsome ⟨cred, q, hq⟩
            simp [meterAt, hget', hnone]
    · -- An epoch in between is one interval.
      rw [pastSince, if_pos (by omega)]
      refine ⟨fun cred p hp => ?_, fun F => ?_⟩
      · rw [hget'] at hp
        obtain ⟨q, -, rfl⟩ := Option.map_eq_some_iff.1 hp
        rw [pastPosition, if_neg hkE]
        exact ⟨rfl, rfl⟩
      · refine hm.sum_fresh_le fun cred _ => ?_
        unfold meterAt bpsAt
        rw [hget']
        cases m.get? (toLex (cred, E)) with
        | none => exact Nat.zero_le _
        | some q =>
          simp only [map_some, elim_some, pastPosition, if_neg hkE]
          exact (metered_single _).le
  · have hget' : ∀ cred, m'.get? (toLex (cred, k)) = m.get? (toLex (cred, k)) := fun cred => by
      rw [hget cred, if_neg hk]
    rw [pastTill, if_neg hk, pastSince, if_neg (by omega)]
    refine ⟨fun cred p hp => ?_, fun F => ?_⟩
    · rw [hget'] at hp
      exact ⟨hm.since cred k p hp, hm.till cred k p hp⟩
    · simp only [meterAt, hget']
      exact hm.shares k F

section Slot

variable {slot current : ℕ} (hu : u ≤ slot) (hcur : c.toEpoch slot = .ok current) {ord : HashOrder}
  {events : List PositionEvent} {supply : ℕ} {R : Table}
  (hR : syncAccountPositions ord c events (latestAccountPositions m) slot supply = .ok R)
  {S U : ℕ → ℕ} {total : ℕ} (hm : Metered m E S U total)

include hu hcur hR

theorem carriedAt_past {k : ℕ} (hk : k ≠ current) : CarriedAt c current E m (storeAll R m) k :=
  h.carriedAt_of_stored fun cred => by
    rw [get?_storeAll, syncAccountPositions_past hcur (fun _ _ => h.mark_eq) (h.le_current hu hcur)
      hR hk cred]

include hm

theorem metered_idle (hevents : events = []) :
    Metered (storeAll R m) (max E (current - 1)) (pastSince c current E S)
      (pastTill c current E U) total := by
  have hle := h.le_current hu hcur
  have hcarried : ∀ k, CarriedAt c current E m (storeAll R m) k := fun k =>
    h.carriedAt_of_stored fun cred => by
      rw [get?_storeAll, syncAccountPositions_idle hcur (fun _ _ => h.mark_eq) hle hR hevents cred k]
  -- The share of the latest position is the one before.
  have hshare : ∀ cred, ((storeAll R m).get? (toLex (cred, max E (current - 1)))).map shareOf
      = (m.get? (toLex (cred, E))).map shareOf := by
    intro cred
    rw [hcarried (max E (current - 1)) cred]
    split
    · rw [Option.map_map]
      cases hp : m.get? (toLex (cred, E)) with
      | none => rfl
      | some p =>
        obtain ⟨i, hi, -⟩ := h.exists_last hm hp
        rw [map_some, map_some, comp_apply, pastPosition]
        split
        · simp [shareOf, getCurrentShare_closedAt hi, hi, ShareInterval.extendTo]
        · rfl
    · rw [show max E (current - 1) = E by omega]
  refine ⟨fun cred k p hp => ((h.metered_past hm (hcarried k)).1 cred p hp).1,
    fun cred k p hp => ((h.metered_past hm (hcarried k)).1 cred p hp).2,
    fun k => (h.metered_past hm (hcarried k)).2, fun cred p hp => ?_, fun F => ?_⟩
  · have hmap := hshare cred
    rw [hp] at hmap
    obtain ⟨q, hq, hqp⟩ := Option.map_eq_some_iff.1 hmap.symm
    rw [← hqp]
    exact hm.supply cred q hq
  · have hlp : ∀ cred, lpAt (storeAll R m) cred (max E (current - 1)) = lpAt m cred E := by
      intro cred
      have hmap := congrArg (fun o : Option (ℕ × ℕ) => o.elim 0 Prod.fst) (hshare cred)
      simpa [lpAt, elim_map, comp_def] using hmap
    simp only [hlp]
    exact hm.backed F

omit hR in
theorem startOf_leftBehind (hp : m.get? (toLex (cred, E)) = some p) :
    startOf (spans (leftBehind c current slot ((latestAccountPositions m).get? cred)) ++
        [(slot, slot)]) = some (if E = current then S E else c.firstSlot current) ∧
      metered (leftBehind c current slot ((latestAccountPositions m).get? cred))
        = if E = current then metered p.shareIntervals + (slot - U E) * bpsOf (shareOf p)
          else (slot - c.firstSlot current) * bpsOf (shareOf p) := by
  obtain ⟨hfirst, hlast⟩ := EpochSlotConversion.slot_mem_epoch hcur
  obtain ⟨i, hi, hstop, hstart, hshare, -, -, hpast, -⟩ := h.exists_last hm hp
  rw [h.get?_latest, hp, map_some, leftBehind, elim_some, spans_settled,
    metered_settled]
  unfold carriedOver
  by_cases hE : E = current
  · obtain ⟨hsuffix, hne⟩ := h.suffix cred E p hp
    have htidy : Tidy (c.firstSlot E) (c.lastSlot E) (cutAt slot (spans p.shareIntervals)) := by
      refine ((h.tidy E).suffix hsuffix).cutAt (fun x hx => ?_) (by rw [hE]; exact hlast)
      rw [getLast?_of_suffix hsuffix hne] at hx
      exact ((h.past x hx).trans_le hu).le
    have hcut : cutAt slot (spans p.shareIntervals) ≠ [] := by
      obtain ⟨l, x, hl⟩ := (eq_nil_or_concat' _).resolve_left hne
      rw [hl, cutAt_concat]
      simp
    rw [if_pos hE, if_pos hE, if_pos hE, spans_closedAt hi, metered_closedAt hi hstart (by omega),
      hstop, hshare, startOf_wide htidy hcut fun x hx => getLast?_cutAt hx, startOf_cutAt]
    exact ⟨hm.since cred E p hp, rfl⟩
  · rw [if_neg hE, if_neg hE, if_neg hE]
    refine ⟨?_, metered_single _⟩
    have hone : Tidy (c.firstSlot current) (c.lastSlot current) [(c.firstSlot current, slot)] :=
      .single le_rfl hfirst hlast
    refine startOf_wide hone (cons_ne_nil _ _) fun x hx => ?_
    · obtain rfl : (c.firstSlot current, slot) = x := Option.some.inj hx
      rfl

/-- The positions of the current epoch after a slot with events start together, and their shares add up
to at most the whole. -/
theorem metered_current {final : PositionEvent} (hfinal : events.getLast? = some final)
    (hpos : ∀ cred, eventsOf events cred ≠ [] → lp cred + gain events cred ≠ 0)
    (hjoin : JoinsTogether c m E slot current events) :
    ∃ s, (∀ cred p, (storeAll R m).get? (toLex (cred, current)) = some p →
        startOf (spans p.shareIntervals) = some s) ∧
      ∀ F : Finset Credential,
        ∑ cred ∈ F, meterAt (storeAll R m) cred current ≤ 10000 * (slot - s) := by
  -- Each position is what was carried over and an interval that begins with the slot.
  have hnow : ∀ cred p, (storeAll R m).get? (toLex (cred, current)) = some p →
      (m.get? (toLex (cred, E)) = none → eventsOf events cred ≠ []) ∧
      spans p.shareIntervals = spans (leftBehind c current slot
        ((latestAccountPositions m).get? cred)) ++ [(slot, slot)] ∧
      metered p.shareIntervals
        = metered (leftBehind c current slot ((latestAccountPositions m).get? cred)) := by
    intro cred p hp
    have hknown := (h.known_of_stored hu hcur hR hp).2
    obtain ⟨n, q, hq, hint, -, -⟩ := h.current_position hu hcur hR hfinal hpos hknown
    cases hq.symm.trans hp
    refine ⟨fun hnone => hknown.resolve_left fun hlatest => hlatest ?_, ?_, ?_⟩
    · rw [h.get?_latest, hnone, map_none]
    · simp [hint, spans]
    · rw [hint, metered_append, metered_single, Nat.sub_self, zero_mul, add_zero]
  have hnew : ∀ cred, m.get? (toLex (cred, E)) = none →
      leftBehind c current slot ((latestAccountPositions m).get? cred) = [] := by
    intro cred hnone
    rw [h.get?_latest, hnone]
    rfl
  by_cases hall : ∀ other, m.get? (toLex (other, E)) = none
  · -- Nobody was there before.
    refine ⟨slot, fun cred p hp => ?_, fun F => ?_⟩
    · rw [(hnow cred p hp).2.1, hnew cred (hall cred)]
      rfl
    · rw [Finset.sum_eq_zero fun cred _ => ?_]
      · exact Nat.zero_le _
      · unfold meterAt
        cases hp : (storeAll R m).get? (toLex (cred, current)) with
        | none => rfl
        | some p =>
          rw [elim_some, (hnow cred p hp).2.2, hnew cred (hall cred)]
          rfl
  · obtain ⟨other, hother⟩ := not_forall.1 hall
    obtain ⟨r, hr⟩ := Option.ne_none_iff_exists'.1 hother
    obtain ⟨-, -, -, -, -, hSU, -, hUu, hfirst⟩ := h.exists_last hm hr
    have hmeter : ∀ cred, meterAt (storeAll R m) cred current ≤ if E = current
        then meterAt m cred E + (slot - U E) * bpsAt m cred E
        else (slot - c.firstSlot current) * bpsAt m cred E := by
      intro cred
      unfold meterAt bpsAt
      cases hp : (storeAll R m).get? (toLex (cred, current)) with
      | none => exact Nat.zero_le _
      | some p =>
        rw [elim_some, (hnow cred p hp).2.2]
        cases hq : m.get? (toLex (cred, E)) with
        | none =>
          rw [hnew cred hq]
          exact Nat.zero_le _
        | some q => exact (h.startOf_leftBehind hu hcur hm hq).2.le
    refine ⟨if E = current then S E else c.firstSlot current, fun cred p hp => ?_, fun F => ?_⟩
    · obtain ⟨hjoins, hspans, -⟩ := hnow cred p hp
      rw [hspans]
      cases hq : m.get? (toLex (cred, E)) with
      | none =>
        -- Who joins does so in the first slot of the epoch.
        have hslot : slot = c.firstSlot current := (hjoin cred (hjoins hq) hq).resolve_right hall
        rw [hnew cred hq]
        by_cases hE : E = current
        · rw [← hE] at hslot
          omega
        · rw [if_neg hE, ← hslot]
          rfl
      | some q => exact (h.startOf_leftBehind hu hcur hm hq).1
    · by_cases hE : E = current
      · rw [if_pos hE]
        refine hm.sum_lasting_le (n := slot - U E) (fun cred _ => ?_) (by omega)
        simpa only [if_pos hE] using hmeter cred
      · rw [if_neg hE]
        refine hm.sum_fresh_le fun cred _ => ?_
        simpa only [if_neg hE] using hmeter cred

/-- **A slot with position events** keeps the shares of a pool below the whole, when accounts join
together and the LP supply covers all LP. -/
theorem metered_advance {final : PositionEvent} (hfinal : events.getLast? = some final)
    (hpos : ∀ cred, eventsOf events cred ≠ [] → lp cred + gain events cred ≠ 0)
    (hjoin : JoinsTogether c m E slot current events)
    (hback : ∀ F : Finset Credential,
      ∑ cred ∈ F, (lp cred + gain events cred) ≤ final.resultingPoolLpSupply) :
    ∃ S' U' total', Metered (storeAll R m) current S' U' total' := by
  obtain ⟨P', hsync⟩ := h.advance hu hcur hR hfinal hpos
  obtain ⟨s, hs, hshares⟩ := h.metered_current hu hcur hR hm hfinal hpos hjoin
  have hpast := fun k (hk : k ≠ current) => h.metered_past hm (h.carriedAt_past hu hcur hR hk)
  have hnow : ∀ cred p, (storeAll R m).get? (toLex (cred, current)) = some p →
      ∃ n, p.getCurrentShare = some ⟨slot, slot, (n, final.resultingPoolLpSupply)⟩ := by
    intro cred p hp
    obtain ⟨n, q, hq, hint, -, -⟩ := h.current_position hu hcur hR hfinal hpos
      (h.known_of_stored hu hcur hR hp).2
    cases hq.symm.trans hp
    exact ⟨n, by simp [getCurrentShare, hint]⟩
  refine ⟨update (pastSince c current E S) current s,
    update (pastTill c current E U) current slot, final.resultingPoolLpSupply,
    ⟨fun cred k p hp => ?_, fun cred k p hp => ?_, fun k F => ?_, fun cred p hp => ?_, fun F => ?_⟩⟩
  · by_cases hk : k = current
    · rw [hk, update_self]
      exact hs cred p (hk ▸ hp)
    · rw [update_of_ne hk]
      exact ((hpast k hk).1 cred p hp).1
  · by_cases hk : k = current
    · rw [hk, update_self]
      obtain ⟨n, hn⟩ := hnow cred p (hk ▸ hp)
      rw [spans, List.getLast?_map, show p.shareIntervals.getLast? = _ from hn]
      rfl
    · rw [update_of_ne hk]
      exact ((hpast k hk).1 cred p hp).2
  · by_cases hk : k = current
    · rw [hk, update_self, update_self]
      exact hshares F
    · rw [update_of_ne hk, update_of_ne hk]
      exact (hpast k hk).2 F
  · obtain ⟨n, hn⟩ := hnow cred p hp
    simp [shareOf, hn]
  · have hsum : ((∑ cred ∈ F, lpAt (storeAll R m) cred current : ℕ) : ℤ)
        = ∑ cred ∈ F, (lp cred + gain events cred) := by
      rw [Nat.cast_sum]
      exact Finset.sum_congr rfl fun cred _ => hsync.lpAt_eq cred
    have hle := hback F
    rw [← hsum] at hle
    exact_mod_cast hle

end Slot

end Synced

/-! ## Runs -/

/-- What a slot must meet for the shares of a pool to add up to at most the whole. -/
structure Orderly (cfg : Settings) (T : List Block) (b : Block) : Prop where
  /-- No account is left without LP. -/
  retains : Retains cfg T b
  /-- The LP supply of a pool after the slot covers the LP of all accounts. -/
  covers : ∀ pid final, (creditedIn cfg b pid).getLast? = some final → ∀ F : Finset Credential,
    ∑ cred ∈ F, credited cfg (T ++ [b]) pid cred ≤ final.resultingPoolLpSupply
  /-- An account that joins a pool finds nobody else in it, or joins in the first slot of an epoch. -/
  joins : ∀ pid, ∀ e ∈ creditedIn cfg b pid, credited cfg T pid e.account ≠ 0 ∨
    (∃ k, cfg.converter.toEpoch b.slot = .ok k ∧ b.slot = cfg.converter.firstSlot k) ∨
    ∀ cred, credited cfg T pid cred = 0

theorem Synced.joinsTogether {b : Block} {u : ℕ} {P : ℕ → List (ℕ × ℕ)}
    (h : Synced cfg.converter m (credited cfg T pid) u E P) (hb : Orderly cfg T b)
    (hcur : cfg.converter.toEpoch b.slot = .ok current) :
    JoinsTogether cfg.converter m E b.slot current (creditedIn cfg b pid) := by
  intro cred hne hnone
  obtain ⟨e, he⟩ := exists_mem_of_ne_nil _ hne
  obtain ⟨hin, hcred⟩ := mem_filter.1 he
  have hcred : e.account = cred := of_decide_eq_true hcred
  rcases hb.joins pid e hin with hlp | ⟨k, hk, hslot⟩ | hall
  · rw [hcred] at hlp
    exact absurd (h.absent cred hnone) hlp
  · cases hk.symm.trans hcur
    exact .inl hslot
  · refine .inr fun other => ?_
    by_contra hsome
    obtain ⟨q, hq⟩ := Option.ne_none_iff_exists'.1 hsome
    obtain ⟨i, -, hlp, hpos⟩ := h.share other q hq
    have hzero := hall other
    omega

/-- The positions of every pool are in step and their shares add up to at most the whole, as long as
accounts join a pool together. -/
theorem Run.metered {db : PositionDB} (run : Run cfg db T)
    (hkeep : Throughout (Orderly cfg) T) (pid : PoolId) :
    ∃ E S U total, Metered (db.accountPositions pid) E S U total := by
  obtain ⟨u, -, hinv⟩ : ∃ u, Waiting db u ∧ ∀ pid, ∃ E P S U total,
      Synced cfg.converter (db.accountPositions pid) (credited cfg T pid) u E P ∧
      Metered (db.accountPositions pid) E S U total := by
    apply Run.pools (fun pid T m u => ∃ E P S U total,
      Synced cfg.converter m (credited cfg T pid) u E P ∧ Metered m E S U total) _ _ run hkeep
    · intro pid
      exact ⟨0, _, _, _, _, .empty cfg.converter, .empty⟩
    · intro pid T b m m' u hb hinv hu hstep
      obtain ⟨E, P, S, U, total, hsync, hm⟩ := hinv
      have hpos : ∀ cred, eventsOf (creditedIn cfg b pid) cred ≠ [] →
          credited cfg T pid cred + gain (creditedIn cfg b pid) cred ≠ 0 := by
        intro cred hne
        rw [← credited_concat]
        exact hb.retains pid cred hne
      rw [funext (credited_concat cfg T b pid)]
      rcases hstep.credited with ⟨hnil, rfl⟩ | ⟨ord, current, supply, R, hcur, hR, rfl⟩
      · simp only [gain_of_credited_nil hnil, add_zero]
        exact ⟨E, P, S, U, total, hsync.mono (by omega), hm⟩
      · cases hfinal : (creditedIn cfg b pid).getLast? with
        | none =>
          have hnil := List.getLast?_eq_none_iff.1 hfinal
          simp only [gain_of_credited_nil hnil, add_zero]
          obtain ⟨P', hsync'⟩ := hsync.idle hu hcur hR hnil
          exact ⟨_, P', _, _, _, hsync', hsync.metered_idle hu hcur hR hm hnil⟩
        | some final =>
          obtain ⟨P', hsync'⟩ := hsync.advance hu hcur hR hfinal hpos
          obtain ⟨S', U', total', hm'⟩ := hsync.metered_advance hu hcur hR hm hfinal hpos
            (hsync.joinsTogether hb hcur) fun F => by
              simp only [← credited_concat]
              exact hb.covers pid final hfinal F
          exact ⟨current, P', S', U', total', hsync', hm'⟩
  obtain ⟨E, -, S, U, total, -, hm⟩ := hinv pid
  exact ⟨E, S, U, total, hm⟩

/-- Averages of positions that start together add up to at most the whole. -/
theorem Metered.sum_average_le (h : Metered m E S U total) (k : ℕ) {bps : Credential → ℕ}
    (hbps : ∀ cred ∈ F, ∃ p, m.get? (toLex (cred, k)) = some p ∧ bps cred = p.exactAverage) :
    ∑ cred ∈ F, bps cred ≤ 10000 := by
  rw [Finset.sum_congr rfl fun cred hcred => ?_]
  · exact sum_div_le (h.shares k F)
  · obtain ⟨p, hp, hbps⟩ := hbps cred hcred
    have hsince : p.since = S k := by
      obtain ⟨x, hx, hxS⟩ := Option.map_eq_some_iff.1 (h.since cred k p hp)
      rw [spans, List.head?_map] at hx
      obtain ⟨i, hi, rfl⟩ := Option.map_eq_some_iff.1 hx
      rw [AccountPosition.since, hi]
      exact hxS
    have htill : p.till = U k := by
      obtain ⟨x, hx, hxU⟩ := Option.map_eq_some_iff.1 (h.till cred k p hp)
      rw [spans, List.getLast?_map] at hx
      obtain ⟨i, hi, rfl⟩ := Option.map_eq_some_iff.1 hx
      rw [AccountPosition.till, getCurrentShare, hi]
      exact hxU
    rw [hbps, exactAverage, hsince, htill, meterAt, hp]
    rfl

/-- **Rewards do not exceed emissions** in every run in which no account is left without LP, the LP
supply covers the LP of all accounts and accounts join a pool together. The averages of all accounts
of a pool in an epoch add up to at most 10000 basis points, and their rewards to at most the emission of
the gauge. -/
theorem Run.rewards_le_emission {cfg : Settings} {db : PositionDB} {T : List Block}
    (run : Run cfg db T) (hkeep : Throughout (Orderly cfg) T) (pid : PoolId) (k : ℕ)
    (F : Finset Credential) :
    (∀ bps : Credential → ℕ,
      (∀ cred ∈ F, ∃ p, (db.accountPositions pid).get? (toLex (cred, k)) = some p ∧
        p.weightedAverageShareBps = .ok (bps cred)) → ∑ cred ∈ F, bps cred ≤ 10000) ∧
    ∀ (w : GaugeWeight) (reward : Credential → ℕ),
      (∀ cred ∈ F, ∃ p, (db.accountPositions pid).get? (toLex (cred, k)) = some p ∧
        (Entry.mk pid k p w).reward = .ok (reward cred)) →
      ∑ cred ∈ F, reward cred ≤ gaugeEmission k w := by
  obtain ⟨E, S, U, total, hm⟩ := run.metered hkeep pid
  refine ⟨fun bps hbps => ?_, fun w reward hreward => ?_⟩
  · refine hm.sum_average_le k fun cred hcred => ?_
    obtain ⟨p, hp, havg⟩ := hbps cred hcred
    exact ⟨p, hp, ((weightedAverageShareBps_eq_ok p _).1 havg).2⟩
  · -- Each reward is the part of the emission that the average gives.
    obtain ⟨bps, hbps⟩ : ∃ bps : Credential → ℕ, ∀ cred ∈ F, ∃ p,
        (db.accountPositions pid).get? (toLex (cred, k)) = some p ∧ bps cred = p.exactAverage ∧
        reward cred = gaugeEmission k w * bps cred / 10000 := by
      refine ⟨fun cred => ((db.accountPositions pid).get? (toLex (cred, k))).elim 0 exactAverage,
        fun cred hcred => ?_⟩
      obtain ⟨p, hp, hr⟩ := hreward cred hcred
      have hexact := ((Entry.reward_eq_ok _ _).1 hr).2
      exact ⟨p, hp, by simp only [hp]; rfl, by simp only [hexact, hp]; rfl⟩
    have hsum : ∑ cred ∈ F, bps cred ≤ 10000 := by
      refine hm.sum_average_le k fun cred hcred => ?_
      obtain ⟨p, hp, havg, -⟩ := hbps cred hcred
      exact ⟨p, hp, havg⟩
    calc ∑ cred ∈ F, reward cred
        = ∑ cred ∈ F, gaugeEmission k w * bps cred / 10000 :=
          Finset.sum_congr rfl fun cred hcred => (hbps cred hcred).choose_spec.2.2
      _ ≤ gaugeEmission k w := by
          refine sum_div_le ?_
          rw [← Finset.mul_sum]
          exact Nat.mul_le_mul_left _ hsum

/-- All deposits and redeems are of one pool and of some accounts. -/
def Within (pid : PoolId) (accounts : Finset Credential) (T : List Block) : Prop :=
  ∀ b ∈ T, ∀ e ∈ b.events, ∀ p ∈ e.position?, p.poolId = pid ∧ p.account ∈ accounts

instance (pid : PoolId) (accounts : Finset Credential) (T : List Block) :
    Decidable (Within pid accounts T) :=
  inferInstanceAs (Decidable (∀ b ∈ T, ∀ e ∈ b.events, ∀ p ∈ e.position?,
    p.poolId = pid ∧ p.account ∈ accounts))

variable {accounts : Finset Credential}

theorem Within.mem (h : Within pid accounts T) {b : Block} (hb : b ∈ T) {e : PositionEvent}
    (he : e ∈ creditedIn cfg b pid') : pid' = pid ∧ e.account ∈ accounts := by
  unfold creditedIn at he
  split at he
  · obtain ⟨hin, hpid⟩ := mem_filter.1 he
    obtain ⟨x, hx, hpos⟩ := mem_filterMap.1 hin
    obtain ⟨hpid', hacc⟩ := h b hb x (mem_distinct.1 hx) e hpos
    exact ⟨(of_decide_eq_true hpid).symm.trans hpid', hacc⟩
  · cases he

theorem Within.credited_eq_zero (h : Within pid accounts T) (cfg : Settings)
    (hout : ¬ (pid' = pid ∧ cred ∈ accounts)) : credited cfg T pid' cred = 0 := by
  refine sum_eq_zero fun n hn => ?_
  obtain ⟨b, hb, rfl⟩ := mem_map.1 hn
  refine gain_of_eq_nil (eq_nil_iff_forall_not_mem.2 fun e he => ?_)
  obtain ⟨hin, hcred⟩ := mem_filter.1 he
  obtain ⟨hpid, hacc⟩ := h.mem hb hin
  have hcred : e.account = cred := of_decide_eq_true hcred
  exact hout ⟨hpid, hcred ▸ hacc⟩

/-- Checks that a slot is orderly, when all events are of one pool and of some accounts. -/
def orderlyB (pid : PoolId) (accounts : Finset Credential) (cfg : Settings) (T : List Block)
    (b : Block) : Bool :=
  decide (Within pid accounts (T ++ [b])) && retainsB cfg T b &&
    (creditedIn cfg b pid).getLast?.all (fun final => decide
      (∑ cred ∈ accounts, max (credited cfg (T ++ [b]) pid cred) 0
        ≤ (final.resultingPoolLpSupply : ℤ))) &&
    (creditedIn cfg b pid).all fun e => decide (credited cfg T pid e.account ≠ 0) ||
      decide (∀ cred ∈ accounts, credited cfg T pid cred = 0)

theorem orderly_of_check
    {b : Block} (h : orderlyB pid accounts cfg T b = true) : Orderly cfg T b := by
  simp only [orderlyB, Bool.and_eq_true, decide_eq_true_eq] at h
  obtain ⟨⟨⟨hwithin, hretain⟩, hcover⟩, hjoin⟩ := h
  have hmem : ∀ pid' e, e ∈ creditedIn cfg b pid' → pid' = pid := fun pid' e he =>
    (hwithin.mem (mem_append_right T mem_cons_self) he).1
  refine ⟨retains_of_check hretain, fun pid' final hfinal F => ?_, fun pid' e he => ?_⟩
  · obtain rfl := hmem pid' final (mem_of_getLast? hfinal)
    rw [hfinal] at hcover
    refine le_trans ?_ (of_decide_eq_true hcover)
    calc ∑ cred ∈ F, credited cfg (T ++ [b]) pid' cred
        ≤ ∑ cred ∈ F, max (credited cfg (T ++ [b]) pid' cred) 0 :=
          Finset.sum_le_sum fun cred _ => le_max_left _ _
      _ ≤ ∑ cred ∈ F ∪ accounts, max (credited cfg (T ++ [b]) pid' cred) 0 :=
          Finset.sum_le_sum_of_subset_of_nonneg Finset.subset_union_left fun cred _ _ =>
            le_max_right _ _
      _ = ∑ cred ∈ accounts, max (credited cfg (T ++ [b]) pid' cred) 0 := by
          refine (Finset.sum_subset Finset.subset_union_right fun cred _ hout => ?_).symm
          rw [hwithin.credited_eq_zero cfg fun hin => hout hin.2, max_self]
  · obtain rfl := hmem pid' e he
    rcases Bool.or_eq_true_iff.1 (all_eq_true.1 hjoin e he) with hlp | hall
    · exact .inl (of_decide_eq_true hlp)
    · refine .inr (.inr fun cred => ?_)
      by_cases hcred : cred ∈ accounts
      · exact of_decide_eq_true hall cred hcred
      · refine Within.credited_eq_zero (T := T) (fun a ha => hwithin a ?_) cfg fun hin => hcred hin.2
        exact mem_append_left _ ha

/-- Two accounts join in one slot, one of them redeems a part, and the next epoch begins. -/
def sampleTogether : List Op :=
  [.append 1 [sampleDeposit 7 10 10, sampleDeposit 8 10 20], .append 5 [sampleRedeem 7 4 16],
    .append 13 [sampleDeposit 8 1 17], .append 14 [], .process, .process, .process]

def averages (db : PositionDB) (pid : PoolId) (k : ℕ) (cred : Credential) : Option (Exec ℕ) :=
  ((db.accountPositions pid).get? (toLex (cred, k))).map weightedAverageShareBps

theorem sampleTogether_averages : ∃ db T, Run sampleSlots db T ∧ averages db 1 0 7 = some (.ok 4375) ∧
    averages db 1 0 8 = some (.ok 5625) ∧
    ∑ cred ∈ {7, 8}, (if cred = 7 then 4375 else 5625 : ℕ) ≤ 10000 := by
  have h : (replay sampleSlots sampleTogether).map (fun s => (averages s.1 1 0 7, averages s.1 1 0 8,
      throughoutB (orderlyB 1 {7, 8} sampleSlots) [] s.2))
      = .ok (some (.ok 4375), some (.ok 5625), true) := by
    decide +kernel
  obtain ⟨s, hs, hcheck⟩ := Exec.map_eq_ok.1 h
  simp only [Prod.mk.injEq] at hcheck
  obtain ⟨hseven, height, hcheck⟩ := hcheck
  have run := replay_sound hs
  refine ⟨s.1, s.2, run, hseven, height, (run.rewards_le_emission
    (throughout_of_check (fun _ _ => orderly_of_check) hcheck) 1 0 {7, 8}).1 _ fun cred hcred => ?_⟩
  rcases Finset.mem_insert.1 hcred with rfl | hcred
  · exact Option.map_eq_some_iff.1 hseven
  · obtain rfl := Finset.mem_singleton.1 hcred
    exact Option.map_eq_some_iff.1 height

/-- Account 8 joins account 7 in the middle of an epoch. -/
def sampleApart : List Op :=
  [.append 0 [sampleDeposit 7 1 1], .append 5 [sampleDeposit 8 1 2], .append 13 [sampleDeposit 7 1 3],
    .append 14 [], .process, .process, .process]

/-- The averages of accounts 7 and 8 in the first epoch add up to 12777 basis points, and a gauge with
all votes pays more than its emission. -/
theorem sampleApart_overpays : ∃ db T, Run sampleSlots db T ∧ averages db 1 0 7 = some (.ok 7777) ∧
    averages db 1 0 8 = some (.ok 5000) ∧ ∃ reward reward' : ℕ,
      gaugeRewardInEpoch 0 ⟨1, 1⟩ 7777 = .ok reward ∧ gaugeRewardInEpoch 0 ⟨1, 1⟩ 5000 = .ok reward' ∧
      gaugeEmission 0 ⟨1, 1⟩ < reward + reward' := by
  have h : (replay sampleSlots sampleApart).map (fun s => (averages s.1 1 0 7, averages s.1 1 0 8))
      = .ok (some (.ok 7777), some (.ok 5000)) := by
    decide +kernel
  obtain ⟨s, hs, hcheck⟩ := Exec.map_eq_ok.1 h
  obtain ⟨hseven, height⟩ := Prod.mk.inj hcheck
  exact ⟨s.1, s.2, replay_sound hs, hseven, height, 174204800000, 112000000000, by decide +kernel,
    by decide +kernel, by decide +kernel⟩

end Splash.LpIndexer
