/-
**Reading classes in brackets.**

Brackets list characters, ranges, named sets and further brackets.  Two parts of a list are combined
by `&&`, `--` or `~~`, which stand for intersection, difference and symmetric difference; a chain of
them is read from the left, and a part may be empty.  A caret at the front negates the whole.

A dash is read by what stands around it: at the front and at the back it stands for itself, doubled
it is the difference, and elsewhere it makes a range of the two characters beside it.

Main definitions:

* `Transcript.ClassOp` — the operations between the parts of a list;
* `Transcript.Bracket` — a pair of brackets being read;
* `Transcript.ClassReader` — the state between two characters;
* `Transcript.ClassReader.step?` — the next state, or the class when the brackets are closed.
-/

import Transcript.Regex.CharClass

set_option relaxedAutoImplicit false
set_option autoImplicit false

namespace Transcript

/-! ### Operations -/

/-- An operation between two parts of a list. -/
inductive ClassOp
  | inter
  | except
  | unshared
  deriving Repr, DecidableEq

namespace ClassOp

/-- The operation whose sign is the character, written twice. -/
def ofSign? (c : Char) : Option ClassOp :=
  if c = '&' then some .inter
  else if c = '-' then some .except
  else if c = '~' then some .unshared
  else none

def apply : ClassOp → CharClass → CharClass → CharClass
  | inter => CharClass.inter
  | except => CharClass.except
  | unshared => CharClass.unshared

end ClassOp

/-! ### Escapes -/

/-- The characters that a backslash turns into themselves: all of ASCII but the letters, the digits
and the angle brackets. -/
def isEscapable (c : Char) : Bool := c.toNat < 128 && !c.isAlphanum && c != '<' && c != '>'

/-- The character that a backslash and a character stand for. -/
def escapedChar? (c : Char) : Option Char :=
  if c = 'n' then some '\n' else if isEscapable c then some c else none

/-- The class that a backslash and a letter stand for. -/
def escapedClass? (c : Char) : Option CharClass :=
  if c = 'w' then some .word else if c = 's' then some .blank else none

/-! ### Brackets -/

/-- The class, or the class with the characters that differ from its members in case only. -/
def CharClass.foldIf (ignoreCase : Bool) (cls : CharClass) : CharClass :=
  if ignoreCase then .fold cls else cls

/-- A pair of brackets being read: whether it is negated, the operation that waits for its second
operand, with the first one, and the entries read since. -/
structure Bracket where
  negated : Bool
  pending : Option (ClassOp × CharClass)
  entries : CharClass
  deriving Repr, DecidableEq

namespace Bracket

def start : Bracket := ⟨false, none, .empty⟩

def add (b : Bracket) (cls : CharClass) : Bracket := { b with entries := .union b.entries cls }

def value (ignoreCase : Bool) (b : Bracket) : CharClass :=
  match b.pending with
  | none => b.entries
  | some (op, first) => op.apply (first.foldIf ignoreCase) (b.entries.foldIf ignoreCase)

/-- Begin the second operand of an operation. -/
def operate (ignoreCase : Bool) (b : Bracket) (op : ClassOp) : Bracket :=
  { b with pending := some (op, b.value ignoreCase), entries := .empty }

def close (ignoreCase : Bool) (b : Bracket) : CharClass :=
  let cls := (b.value ignoreCase).foldIf ignoreCase
  if b.negated then .compl cls else cls

end Bracket

/-! ### The state between two characters -/

/-- An entry that may go on. -/
inductive ClassEntry
  /-- a character, which may begin a range -/
  | char (c : Char)
  /-- a named set, which may not -/
  | set (cls : CharClass)
  deriving Repr, DecidableEq

def ClassEntry.cls : ClassEntry → CharClass
  | char c => .single c
  | set cls => cls

/-- What was read last inside brackets. -/
inductive ClassPhase
  /-- the opening bracket -/
  | opened
  /-- the opening bracket and the sign of negation -/
  | negated
  /-- dashes at the front, which stand for themselves -/
  | dashes
  /-- a complete entry or an operation -/
  | ready
  /-- a character that is an operation if it is doubled -/
  | sign (c : Char)
  /-- an entry that may go on -/
  | low (entry : ClassEntry)
  /-- an entry and a dash -/
  | dash (entry : ClassEntry)
  /-- a backslash -/
  | escaped
  /-- the lower end of a range, a dash and a backslash -/
  | escapedHigh (low : Char)
  deriving Repr, DecidableEq

/-- The state of the reader inside brackets, with the brackets around the innermost ones. -/
structure ClassReader where
  phase : ClassPhase
  bracket : Bracket
  outer : List Bracket
  deriving Repr, DecidableEq

namespace ClassReader

def start : ClassReader := ⟨.opened, .start, []⟩

def add (r : ClassReader) (cls : CharClass) : ClassReader :=
  { r with phase := .ready, bracket := r.bracket.add cls }

/-- Add the range between two characters, which must be in order. -/
def addRange? (r : ClassReader) (low high : Char) : Option ClassReader :=
  if low ≤ high then some (r.add (.range low high)) else none

/-- Read the sign of an operation. -/
def operate (r : ClassReader) (ignoreCase : Bool) (op : ClassOp) : ClassReader :=
  { r with phase := .ready, bracket := r.bracket.operate ignoreCase op }

def close (r : ClassReader) (ignoreCase : Bool) : CharClass ⊕ ClassReader :=
  match r.outer with
  | [] => .inl (r.bracket.close ignoreCase)
  | bracket :: outer => .inr ⟨.ready, bracket.add (r.bracket.close ignoreCase), outer⟩

/-- Read a character that begins an entry or closes the brackets. -/
def ready (r : ClassReader) (ignoreCase : Bool) (c : Char) : CharClass ⊕ ClassReader :=
  if c = ']' then r.close ignoreCase
  else if c = '[' then .inr ⟨.opened, .start, r.bracket :: r.outer⟩
  else if c = '\\' then .inr { r with phase := .escaped }
  else if (ClassOp.ofSign? c).isSome then .inr { r with phase := .sign c }
  else .inr { r with phase := .low (.char c) }

/-- Read a character at the front: a dash or a closing bracket there stands for itself. -/
def front (r : ClassReader) (ignoreCase : Bool) (c : Char) : CharClass ⊕ ClassReader :=
  if c = '-' then .inr { r.add (.single '-') with phase := .dashes }
  else if c = ']' then .inr (r.add (.single ']'))
  else r.ready ignoreCase c

/-- Read the character behind an entry that may go on. -/
def afterEntry (r : ClassReader) (ignoreCase : Bool) (entry : ClassEntry) (c : Char) :
    CharClass ⊕ ClassReader :=
  if c = '-' then .inr { r with phase := .dash entry } else (r.add entry.cls).ready ignoreCase c

/-- Read the character behind an entry and a dash. -/
def afterDash? (r : ClassReader) (ignoreCase : Bool) (entry : ClassEntry) (c : Char) :
    Option (CharClass ⊕ ClassReader) :=
  if c = ']' then some (((r.add entry.cls).add (.single '-')).close ignoreCase)
  else if c = '-' then some (.inr ((r.add entry.cls).operate ignoreCase .except))
  else
    match entry with
    | .set _ => none
    | .char low =>
        if c = '\\' then some (.inr { r with phase := .escapedHigh low })
        else (r.addRange? low c).map .inr

/-- Read the character behind a backslash. -/
def afterBackslash? (r : ClassReader) (c : Char) : Option ClassReader :=
  match escapedClass? c with
  | some cls => some { r with phase := .low (.set cls) }
  | none => (escapedChar? c).map fun d => { r with phase := .low (.char d) }

def step? (r : ClassReader) (ignoreCase : Bool) (c : Char) : Option (CharClass ⊕ ClassReader) :=
  match r.phase with
  | .opened =>
      if c = '^' then
        some (.inr { r with phase := .negated, bracket := { r.bracket with negated := true } })
      else some (r.front ignoreCase c)
  | .negated => some (r.front ignoreCase c)
  | .dashes =>
      if c = '-' then some (.inr { r.add (.single '-') with phase := .dashes })
      else some (r.ready ignoreCase c)
  | .ready => some (r.ready ignoreCase c)
  | .sign s =>
      if c = s then (ClassOp.ofSign? s).map fun op => .inr (r.operate ignoreCase op)
      else some (r.afterEntry ignoreCase (.char s) c)
  | .low entry => some (r.afterEntry ignoreCase entry c)
  | .dash entry => r.afterDash? ignoreCase entry c
  | .escaped => (r.afterBackslash? c).map .inr
  | .escapedHigh low => ((escapedChar? c).bind (r.addRange? low)).map .inr

end ClassReader

end Transcript
