import Mathlib

/-!
# Values as text

A text form prints values as letters and digits and reads them back. Texts are put together with
separators, which do not occur in what is printed.

* `parseJoined_joined` — two texts joined by a separator are read back.
* `words_joinWords` — so are the words of a line,
* `lines_unlines` — and the lines of a text.
-/

namespace Splash.Lib

open List

abbrev Text := List Char

/-- Printing and reading a type. -/
structure TextForm (α : Type) where
  print : α → Text
  parse : Text → Option α
  parse_print : ∀ a, parse (print a) = some a
  plain : ∀ a, ∀ ch ∈ print a, ch.isAlphanum = true

/-- The text before the first separator and the text after it. -/
def splitOnce (sep : Char) : Text → Option (Text × Text)
  | [] => none
  | ch :: t => if ch = sep then some ([], t) else (splitOnce sep t).map fun p => (ch :: p.1, p.2)

/-- A carriage return at the end of a line belongs to the line break. -/
def stripReturn (line : Text) : Text :=
  if line.getLast? = some '\r' then line.dropLast else line

def lines (t : Text) : List Text :=
  let parts := t.splitOn '\n'
  (if parts.getLast? = some [] then parts.dropLast else parts).map stripReturn

def unlines (ls : List Text) : Text := ls.flatMap fun l => l ++ ['\n']

theorem splitOnce_append {sep : Char} {a : Text} (ha : sep ∉ a) (b : Text) :
    splitOnce sep (a ++ sep :: b) = some (a, b) := by
  induction a with
  | nil => simp [splitOnce]
  | cons ch a ih =>
    obtain ⟨hne, ha⟩ : sep ≠ ch ∧ sep ∉ a := by simpa using ha
    rw [cons_append, splitOnce, if_neg (Ne.symm hne), ih ha]
    rfl

theorem words_joinWords {ws : List Text} (hws : ∀ w ∈ ws, ' ' ∉ w) (hne : ws ≠ []) :
    ([' '].intercalate ws).splitOn ' ' = ws :=
  splitOn_intercalate ' ' hws hne

theorem unlines_eq_intercalate (ls : List Text) :
    unlines ls = ['\n'].intercalate (ls ++ [[]]) := by
  induction ls with
  | nil => rfl
  | cons l ls ih =>
    have hne : ls ++ [([] : Text)] ≠ [] := by simp
    obtain ⟨l', rest, hcons⟩ := exists_cons_of_ne_nil hne
    rw [cons_append, hcons, intercalate_cons_cons, ← hcons, ← ih]
    simp [unlines]

theorem lines_unlines {ls : List Text} (hls : ∀ l ∈ ls, '\n' ∉ l) (hreturn : ∀ l ∈ ls, '\r' ∉ l) :
    lines (unlines ls) = ls := by
  have hsplit : (unlines ls).splitOn '\n' = ls ++ [[]] := by
    rw [unlines_eq_intercalate]
    apply splitOn_intercalate
    · intro l hl
      rcases mem_append.1 hl with hl | hl
      · exact hls l hl
      · rw [mem_singleton.1 hl]
        exact not_mem_nil
    · simp
  unfold lines
  rw [hsplit]
  simp only [List.getLast?_concat, dropLast_concat, if_true]
  have hid : ∀ l ∈ ls, stripReturn l = l := by
    intro l hl
    unfold stripReturn
    rw [if_neg fun hlast => hreturn l hl (mem_of_getLast? hlast)]
  rw [map_congr_left hid, map_id']

namespace TextForm

variable {α β : Type} {f : TextForm α} {g : TextForm β} {sep : Char}

theorem print_injective (f : TextForm α) : Function.Injective f.print := by
  intro a b h
  have hparse := f.parse_print a
  rw [h, f.parse_print b] at hparse
  exact (Option.some.inj hparse).symm

theorem not_mem_print (f : TextForm α) (hsep : sep.isAlphanum = false) (a : α) :
    sep ∉ f.print a := by
  intro h
  have hplain := f.plain a sep h
  rw [hsep] at hplain
  cases hplain

def joined (sep : Char) (f : TextForm α) (g : TextForm β) (x : α × β) : Text :=
  f.print x.1 ++ sep :: g.print x.2

def parseJoined (sep : Char) (f : TextForm α) (g : TextForm β) (t : Text) : Option (α × β) :=
  (splitOnce sep t).bind fun p => (f.parse p.1).bind fun a => (g.parse p.2).map fun b => (a, b)

theorem parseJoined_joined (hsep : sep.isAlphanum = false) (x : α × β) :
    parseJoined sep f g (joined sep f g x) = some x := by
  unfold parseJoined joined
  rw [splitOnce_append (f.not_mem_print hsep x.1)]
  simp [f.parse_print, g.parse_print]

theorem not_mem_joined {ch : Char} (hch : ch.isAlphanum = false) (hne : ch ≠ sep) (x : α × β) :
    ch ∉ joined sep f g x := by
  unfold joined
  simp [f.not_mem_print hch, g.not_mem_print hch, hne]

end TextForm

end Splash.Lib
