import Mathlib

/-!
# Buffered streams

`BufferedWithin` collects the items of a stream until a timer is due, and then gives them out one in
a poll. The timer is reset when it is due and nothing is left.

* `items_run` — items are neither lost nor doubled, and keep their order.
* `delays_iff` — buffering only delays, but for the end of the stream.
-/

namespace Splash.Concurrent.BufferedWithin

open List

inductive Poll (β : Type) where
  | ready (value : β)
  | pending
  deriving DecidableEq

variable {α : Type}

def Poll.items : Poll (Option α) → List α
  | .ready (some item) => [item]
  | _ => []

/-- What a poll finds: the answer of the upstream, and whether the timer is due. -/
structure Found (α : Type) where
  upstream : Poll (Option α)
  due : Bool

/-- Who is asked and not ready will wake the task. The timer is not asked without buffering, and not
again after it was reset. -/
def Found.wakes (zero : Bool) (f : Found α) : Prop :=
  f.upstream = .pending ∨ zero = false ∧ f.due = false

def pollNext (zero : Bool) (buffer : List α) (f : Found α) : Poll (Option α) × List α :=
  if zero then (f.upstream, buffer)
  else if f.due then
    match buffer ++ f.upstream.items with
    | [] => (.pending, [])
    | item :: rest => (.ready (some item), rest)
  else (.pending, buffer ++ f.upstream.items)

/-- The items given out and the buffer after these polls, the last one first. -/
def run (zero : Bool) : List (Found α) → List α × List α
  | [] => ([], [])
  | f :: fs =>
    let polled := pollNext zero (run zero fs).2 f
    ((run zero fs).1 ++ polled.1.items, polled.2)

variable {zero : Bool} {buffer : List α} {f : Found α} {fs : List (Found α)}

theorem items_pollNext (h : zero = true → buffer = []) :
    (pollNext zero buffer f).1.items ++ (pollNext zero buffer f).2 = buffer ++ f.upstream.items ∧
      (zero = true → (pollNext zero buffer f).2 = []) := by
  unfold pollNext
  cases zero with
  | true => simp [h rfl]
  | false =>
    cases f.due with
    | false => simp [Poll.items]
    | true => cases hb : buffer ++ f.upstream.items <;> simp [Poll.items]

/-- What was received was given out or is in the buffer. -/
theorem items_run : (run zero fs).1 ++ (run zero fs).2 = fs.reverse.flatMap (·.upstream.items) ∧
    (zero = true → (run zero fs).2 = []) := by
  induction fs with
  | nil => exact ⟨rfl, fun _ => rfl⟩
  | cons f fs ih =>
    obtain ⟨hitems, hempty⟩ := items_pollNext (f := f) ih.2
    refine ⟨?_, hempty⟩
    rw [reverse_cons, flatMap_append, ← ih.1, run, append_assoc, hitems]
    simp

/-- A poll that has to wait for more is woken. -/
theorem wakes_of_pending (h : (pollNext zero buffer f).1 = .pending)
    (hmore : (pollNext zero buffer f).2 ≠ [] ∨ f.upstream ≠ .ready none) : f.wakes zero := by
  unfold pollNext at h hmore
  cases zero with
  | true => exact .inl h
  | false =>
    cases hdue : f.due with
    | false => exact .inr ⟨rfl, hdue⟩
    | true =>
      cases hb : buffer ++ f.upstream.items with
      | nil =>
        obtain ⟨-, hitems⟩ := append_eq_nil_iff.1 hb
        cases hup : f.upstream with
        | pending => exact .inl hup
        | ready item => cases item <;> simp_all [Poll.items]
      | cons => simp [hdue, hb] at h

/-- In every poll of the run: items come out in their order, waiting is ended by a wake-up, and once
the upstream has ended what is left comes out and then the end. -/
structure Delays (zero : Bool) (fs : List (Found α)) : Prop where
  order : (run zero fs).1 ++ (run zero fs).2 = fs.reverse.flatMap (·.upstream.items)
  wakes : ∀ f rest, f :: rest <:+ fs → (pollNext zero (run zero rest).2 f).1 = .pending →
    (pollNext zero (run zero rest).2 f).2 ≠ [] ∨ f.upstream ≠ .ready none → f.wakes zero
  ends : ∀ f rest, f :: rest <:+ fs → f.upstream = .ready none → zero = true ∨ f.due = true →
    (pollNext zero (run zero rest).2 f).1 = .ready (run zero rest).2.head?

/-- **Buffering only delays**, just when the end of the upstream is never met with an empty buffer
and a timer that is due: the stream then does not end. -/
theorem delays_iff : Delays zero fs ↔
    zero = true ∨ ∀ rest, ⟨.ready none, true⟩ :: rest <:+ fs → (run zero rest).2 ≠ [] := by
  constructor
  · intro h
    refine or_iff_not_imp_left.2 fun hzero rest hrest hempty => ?_
    have hend := h.ends _ rest hrest rfl (.inr rfl)
    rw [hempty] at hend
    simp [pollNext, hzero, Poll.items] at hend
  · refine fun h => ⟨items_run.1, fun f rest _ => wakes_of_pending, fun f rest hrest hup hdue => ?_⟩
    cases zero with
    | true => simp [pollNext, items_run.2, hup]
    | false =>
      obtain ⟨upstream, due⟩ := f
      cases hup
      obtain rfl : due = true := hdue.resolve_left Bool.false_ne_true
      obtain ⟨item, left, hbuffer⟩ :=
        exists_cons_of_ne_nil (h.resolve_left Bool.false_ne_true rest hrest)
      simp [pollNext, hbuffer, Poll.items]

/-- **The stream does not end** with an upstream that ends before the timer is due. -/
theorem not_delays_ended : ¬ Delays false [(⟨.ready none, true⟩ : Found ℕ)] := by
  intro h
  cases h.ends _ [] suffix_rfl rfl (.inr rfl)

end Splash.Concurrent.BufferedWithin
