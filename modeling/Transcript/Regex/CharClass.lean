/-
**Classes of characters.**

A class is built from ranges and from the two named sets, white space and word characters, by union,
intersection and complement; folding adds the characters that differ from a member in case only.

Main definitions:

* `Transcript.CharClass` — a class of characters;
* `Transcript.CharClass.contains` — membership;
* `Transcript.CharClass.except`, `Transcript.CharClass.unshared`, `Transcript.CharClass.oneOf` —
  difference, symmetric difference and the union of a list.

Main results:

* `Transcript.CharClass.single_contains`, `Transcript.CharClass.inLine_contains`,
  `Transcript.CharClass.oneOf_contains` — the members of the classes used most.
-/

import Transcript.Text.Blank
import Transcript.Text.Case
import Transcript.Text.Word

set_option relaxedAutoImplicit false
set_option autoImplicit false

namespace Transcript

inductive CharClass
  | empty
  /-- the characters between two given ones, which belong to the class -/
  | range (low high : Char)
  /-- white space -/
  | blank
  /-- word characters -/
  | word
  | union (first second : CharClass)
  | inter (first second : CharClass)
  /-- all other characters -/
  | compl (cls : CharClass)
  /-- the members and the characters that differ from one of them in case only -/
  | fold (cls : CharClass)
  deriving Repr, DecidableEq

namespace CharClass

def contains : CharClass → Char → Bool
  | empty, _ => false
  | range low high, c => low ≤ c && c ≤ high
  | blank, c => Text.isBlank c
  | word, c => Text.isWord c
  | union a b, c => a.contains c || b.contains c
  | inter a b, c => a.contains c && b.contains c
  | compl a, c => !a.contains c
  | fold a, c => (Text.caseVariants c).any a.contains

/-! ### Derived classes -/

/-- The members of the first class that are not in the second. -/
def except (a b : CharClass) : CharClass := inter a (compl b)

/-- The members of one of two classes that are not in the other. -/
def unshared (a b : CharClass) : CharClass := union (except a b) (except b a)

def oneOf (classes : List CharClass) : CharClass := classes.foldr union empty

def single (c : Char) : CharClass := range c c

def any : CharClass := compl empty

def inLine : CharClass := compl (single '\n')

/-! ### Members -/

theorem single_contains (c d : Char) : (single c).contains d = decide (d = c) := by
  have h : (c ≤ d ∧ d ≤ c) ↔ d = c :=
    ⟨fun h => Char.le_antisymm h.2 h.1, fun h => h ▸ ⟨Char.le_refl _, Char.le_refl _⟩⟩
  simp [single, contains, ← Bool.decide_and, h]

theorem inLine_contains (c : Char) : inLine.contains c = decide (c ≠ '\n') := by
  simp [inLine, contains, single_contains]

theorem oneOf_contains (classes : List CharClass) (c : Char) :
    (oneOf classes).contains c = classes.any (·.contains c) := by
  induction classes with
  | nil => rfl
  | cons a rest ih =>
      rw [List.any_cons, ← ih]
      rfl

end CharClass

end Transcript
