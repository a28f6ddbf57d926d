/-
**White space and lines.**

A character is blank when it has the Unicode property `White_Space`.  A text falls into lines, each
followed by a run of newlines, and a line falls into maximal runs of blank and of other characters.

Main definitions:

* `Transcript.Text.isBlank` — white space;
* `Transcript.Text.lines` — the lines of a text;
* `Transcript.Text.runs` — the maximal blank and non-blank runs of a text.

Main results:

* `Transcript.Text.flatMap_lines`, `Transcript.Text.flatMap_runs` — nothing of the text is lost.
-/

import Transcript.Text.Basic

set_option relaxedAutoImplicit false
set_option autoImplicit false

namespace Transcript

namespace Text

/-! ### White space -/

def isBlank (c : Char) : Bool :=
  let n := c.toNat
  (0x09 ≤ n && n ≤ 0x0D) || n = 0x20 || n = 0x85 || n = 0xA0 || n = 0x1680
    || (0x2000 ≤ n && n ≤ 0x200A) || n = 0x2028 || n = 0x2029 || n = 0x202F || n = 0x205F
    || n = 0x3000

/-! ### Lines -/

/-- A line of a text: its characters, none of which is a newline, and the number of newlines that
follow them. -/
structure Line where
  body : Text
  newlines : Nat
  deriving Repr, DecidableEq

def Line.text (line : Line) : Text := line.body ++ List.replicate line.newlines '\n'

/-- Put one character in front of the lines of a text.  A newline joins the newlines at the front of
the text, if there are any. -/
def Line.cons (c : Char) : List Line → List Line
  | [] => if c = '\n' then [⟨[], 1⟩, ⟨[], 0⟩] else [⟨[c], 0⟩]
  | line :: rest =>
      if c = '\n' then
        if line.body = [] ∧ line.newlines ≠ 0 then ⟨[], line.newlines + 1⟩ :: rest
        else ⟨[], 1⟩ :: line :: rest
      else ⟨c :: line.body, line.newlines⟩ :: rest

/-- The lines of a text.  Only the last one is followed by no newline; it is empty when the text is
empty or ends in a newline. -/
def lines : Text → List Line
  | [] => [⟨[], 0⟩]
  | c :: text => Line.cons c (lines text)

theorem Line.flatMap_cons (c : Char) (ls : List Line) :
    (Line.cons c ls).flatMap Line.text = c :: ls.flatMap Line.text := by
  cases ls with
  | nil => by_cases h : c = '\n' <;> simp [Line.cons, Line.text, h]
  | cons line rest =>
      by_cases h : c = '\n'
      · by_cases hl : line.body = [] ∧ line.newlines ≠ 0
        · simp [Line.cons, Line.text, h, hl, List.replicate_succ]
        · simp [Line.cons, Line.text, h, hl]
      · simp [Line.cons, Line.text, h]

/-- The lines of a text, with their newlines, make up the text. -/
theorem flatMap_lines (text : Text) : (lines text).flatMap Line.text = text := by
  induction text with
  | nil => rfl
  | cons c text ih => rw [lines, Line.flatMap_cons, ih]

/-! ### Runs -/

/-- A run of characters that are all blank or all not blank. -/
structure Run where
  blank : Bool
  text : Text
  deriving Repr, DecidableEq

/-- Put one character in front of a list of runs. -/
def Run.cons (c : Char) : List Run → List Run
  | [] => [⟨isBlank c, [c]⟩]
  | run :: rest =>
      if run.blank = isBlank c then ⟨run.blank, c :: run.text⟩ :: rest
      else ⟨isBlank c, [c]⟩ :: run :: rest

/-- The maximal runs of a text. -/
def runs : Text → List Run
  | [] => []
  | c :: text => Run.cons c (runs text)

theorem Run.flatMap_cons (c : Char) (rs : List Run) :
    (Run.cons c rs).flatMap Run.text = c :: rs.flatMap Run.text := by
  cases rs with
  | nil => rfl
  | cons run rest => by_cases h : run.blank = isBlank c <;> simp [Run.cons, h]

/-- The runs of a text make up the text. -/
theorem flatMap_runs (text : Text) : (runs text).flatMap Run.text = text := by
  induction text with
  | nil => rfl
  | cons c text ih => rw [runs, Run.flatMap_cons, ih]

end Text

end Transcript
