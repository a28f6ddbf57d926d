/-
**Regular expressions.**

Expressions with named groups, greedy and lazy repetition, and assertions about a position.  The
order in which an expression prefers its matches is part of its meaning: an alternative is preferred
to the ones after it, a greedy repetition prefers one more round and a lazy one prefers to stop.

Main definitions:

* `Transcript.Regex` — regular expressions;
* `Transcript.Assertion` — assertions about a position;
* `Transcript.Mark` — the two ends of a group;
* `Transcript.Regex.nullable` — expressions that may match without a character;
* `Transcript.Regex.group`, `Transcript.Regex.many`, `Transcript.Regex.concat`,
  `Transcript.Regex.choice` — derived expressions;
* `Transcript.Regex.groups` — the names of the groups of an expression.
-/

import Transcript.Regex.CharClass

set_option relaxedAutoImplicit false
set_option autoImplicit false

namespace Transcript

/-- An assertion about a position in a text. -/
inductive Assertion
  /-- the text begins here -/
  | textStart
  /-- the text ends here -/
  | textEnd
  /-- exactly one of the two neighbours is a word character -/
  | wordBoundary
  /-- the next character is a word character, and the one before is not -/
  | wordStart
  /-- the character before is a word character, and the next one is not -/
  | wordEnd
  /-- the next character, if there is one, is outside the class -/
  | notNext (cls : CharClass)
  /-- the character before, if there is one, is outside the class -/
  | notPrevious (cls : CharClass)
  deriving Repr, DecidableEq

/-- An end of a group. -/
inductive Mark
  | opening (name : Text)
  | closing (name : Text)
  deriving Repr, DecidableEq

inductive Regex
  | empty
  | char (cls : CharClass)
  | seq (first second : Regex)
  | alt (first second : Regex)
  /-- any number of rounds -/
  | star (body : Regex) (greedy : Bool)
  /-- one or more rounds -/
  | plus (body : Regex) (greedy : Bool)
  /-- an end of a group, which consumes nothing -/
  | mark (mark : Mark)
  | assert (assertion : Assertion)
  deriving Repr, DecidableEq

namespace Regex

/-- The expression may match without consuming a character. -/
def nullable : Regex → Bool
  | empty => true
  | char _ => false
  | seq a b => a.nullable && b.nullable
  | alt a b => a.nullable || b.nullable
  | star _ _ => true
  | plus body _ => body.nullable
  | mark _ => true
  | assert _ => true

/-! ### Derived expressions -/

def opt (body : Regex) (greedy : Bool) : Regex := if greedy then alt body empty else alt empty body

/-- Any number of rounds.  When a round may be empty, the first one is tried on its own, so that a
round without a character is preferred to no round where the repetition is greedy. -/
def many (body : Regex) (greedy : Bool) : Regex :=
  if body.nullable then opt (plus body greedy) greedy else star body greedy

def group (name : Text) (body : Regex) : Regex :=
  seq (mark (.opening name)) (seq body (mark (.closing name)))

/-- The expressions of a list, one after the other. -/
def concat : List Regex → Regex
  | [] => empty
  | r :: rs => seq r (concat rs)

/-- The first expression or one of the others, in the order of preference. -/
def choice (r : Regex) : List Regex → Regex
  | [] => r
  | s :: rest => alt r (choice s rest)

def single (c : Char) : Regex := char (CharClass.single c)

def literal (text : Text) : Regex := concat (text.map single)

/-! ### Groups -/

/-- The names of the groups, in the order in which they open. -/
def groups : Regex → List Text
  | empty => []
  | char _ => []
  | seq a b => groups a ++ groups b
  | alt a b => groups a ++ groups b
  | star body _ => groups body
  | plus body _ => groups body
  | mark (.opening name) => [name]
  | mark (.closing _) => []
  | assert _ => []

end Regex

end Transcript
