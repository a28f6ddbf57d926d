/-
**Matching an output.**

The source of a program is read as an expression and matched against an output.  The first fragments
of a program are a program of their own, so that a refused output can be followed as far as it
agrees.

A match is always decided.  An engine that searches with a bounded amount of work can give up on an
output instead, which is an error of its own; no such bound is part of the model.

Main definitions:

* `Transcript.Matcher` — a program ready to be matched;
* `Transcript.Matcher.isMatch`, `Transcript.Matcher.captures?` — the verdict on an output, and what
  its tags captured;
* `Transcript.Matcher.partialMatch` — how far an output agrees.
-/

import Transcript.Program
import Transcript.Regex.Match
import Transcript.Regex.Reader

set_option relaxedAutoImplicit false
set_option autoImplicit false

namespace Transcript

/-- The expression of the first fragments of a program. -/
def Program.leading? (p : Program) (count : Nat) : Option Regex :=
  Regex.read? .program (Fragment.join (p.fragments.take count))

/-- A program with the expression that its source stands for. -/
structure Matcher where
  program : Program
  regex : Regex
  deriving Repr, DecidableEq

/-- The program made ready, if its source can be read. -/
def Program.matcher? (p : Program) : Option Matcher :=
  (Regex.read? .program p.source).map fun regex => ⟨p, regex⟩

/-- How far an output agrees: the number of leading fragments that match, and the offset in the
transcript of the first one that does not. -/
structure PartialMatch where
  matched : Nat
  failedAt : Option Nat
  deriving Repr, DecidableEq

def PartialMatch.isComplete (m : PartialMatch) : Bool := m.failedAt.isNone

namespace Matcher

def isMatch (m : Matcher) (output : Text) : Bool := m.regex.isMatch output

/-! ### Captures -/

/-- Put an entry in front of the first one whose name is not smaller. -/
def insertByName (entry : Text × Option Text) : List (Text × Option Text) → List (Text × Option Text)
  | [] => [entry]
  | other :: rest =>
      if other.1 < entry.1 then other :: insertByName entry rest else entry :: other :: rest

/-- What each named tag captured, in the order of the names, if the output matches.  A tag in a part
that was left out captured nothing. -/
def captures? (m : Matcher) (output : Text) : Option (List (Text × Option Text)) :=
  (m.regex.search output).map fun found =>
    (m.program.names.map fun name =>
      (name, (found.group? (groupName name)).map Span.text)).foldr insertByName []

/-! ### Partial matches -/

/-- The first fragments match the output. -/
def leads (m : Matcher) (output : Text) (count : Nat) : Bool :=
  (m.program.leading? count).any (·.isMatch output)

/-- The last number below `high` that satisfies `holds`, found by halving, when `low` satisfies it
and the numbers that do come before those that do not.  The distance of the bounds is at most
`fuel`. -/
def bisect (holds : Nat → Bool) : (fuel low high : Nat) → Nat
  | 0, low, _ => low
  | fuel + 1, low, high =>
      if low + 1 < high then
        let middle := (low + high) / 2
        if holds middle then bisect holds fuel middle high else bisect holds fuel low middle
      else low

def partialMatch (m : Matcher) (output : Text) : PartialMatch :=
  let count := m.program.fragments.length
  if m.isMatch output then ⟨count, none⟩
  else
    let matched := bisect (m.leads output) count 0 count
    ⟨matched, (m.program.fragments[matched]?).map (·.offset)⟩

end Matcher

end Transcript
