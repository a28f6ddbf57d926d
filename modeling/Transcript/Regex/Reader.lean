/-
**Reading expressions.**

The source of an expression is read one character at a time.  The reader keeps the groups that are
open, innermost first, and in each of them the expressions read so far; reading one source after
another is therefore reading their concatenation.

Two dialects are read.  Lexical rules have the anchors `^` and `$`; compiled programs have
look-around over one character class, a dot that matches every character, and group names that may
begin with a digit.

Main definitions:

* `Transcript.Dialect` — what a source may contain;
* `Transcript.Reader` — the state of the reader between two characters;
* `Transcript.Reader.step?` — the next state;
* `Transcript.Regex.read?` — the expression that a source stands for.

Main results:

* `Transcript.Reader.feed_append` — reading one source after another is reading their
  concatenation.
-/

import Transcript.Regex.Basic
import Transcript.Regex.Bracket

set_option relaxedAutoImplicit false
set_option autoImplicit false

namespace Transcript

/-! ### Dialects -/

/-- What the source of an expression may contain. -/
structure Dialect where
  /-- the dot matches the newline too -/
  dotAll : Bool
  /-- `^` and `$` stand for the two ends of the text -/
  anchors : Bool
  /-- `(?!x)` and `(?<!x)` are read, for one character class `x` -/
  lookaround : Bool
  /-- the name of a group may begin with a digit -/
  digitNames : Bool
  deriving Repr, DecidableEq

namespace Dialect

def rule : Dialect := ⟨false, true, false, false⟩

def program : Dialect := ⟨true, false, true, true⟩

/-- The class that the dot stands for. -/
def dot (d : Dialect) : CharClass := if d.dotAll then CharClass.any else CharClass.inLine

/-- The character may be part of a group name; `first` says whether it would be the first one. -/
def nameChar (d : Dialect) (first : Bool) (c : Char) : Bool :=
  if first then c = '_' || Text.isAlphabetic c || (d.digitNames && Text.isDecimal c)
  else Text.isAlphanumeric c || c = '_' || c = '.' || c = '[' || c = ']'

end Dialect

/-! ### Quantifiers -/

/-- A number of rounds. -/
inductive Quantifier
  | star
  | plus
  | opt
  deriving Repr, DecidableEq

def isQuantifier (c : Char) : Bool := c = '*' || c = '+' || c = '?'

/-- The expression repeated. -/
def Quantifier.apply : Quantifier → Regex → Bool → Regex
  | .star, r, greedy => .many r greedy
  | .plus, r, greedy => .plus r greedy
  | .opt, r, greedy => .opt r greedy

/-! ### Open groups -/

/-- What a pair of parentheses means. -/
inductive GroupKind
  /-- it only groups -/
  | plain
  /-- it captures under a name -/
  | named (name : Text)
  /-- no character of the class follows -/
  | notNext
  /-- no character of the class stands before -/
  | notPrevious
  deriving Repr, DecidableEq

/-- An open group: its kind, whether case was disregarded before it, the alternatives that are
complete and the expressions of the current one, both with the last one first. -/
structure Frame where
  kind : GroupKind
  ignoreCase : Bool
  alternatives : List Regex
  items : List Regex
  deriving Repr, DecidableEq

namespace Frame

def fresh (kind : GroupKind) (ignoreCase : Bool) : Frame := ⟨kind, ignoreCase, [], []⟩

def push (f : Frame) (r : Regex) : Frame := { f with items := r :: f.items }

def current (f : Frame) : Regex := Regex.concat f.items.reverse

/-- Begin another alternative. -/
def turn (f : Frame) : Frame := { f with alternatives := f.current :: f.alternatives, items := [] }

def body (f : Frame) : Regex :=
  match (f.current :: f.alternatives).reverse with
  | [] => .empty
  | r :: rest => .choice r rest

def close? (f : Frame) : Option Regex :=
  match f.kind with
  | .plain => some f.body
  | .named name => some (.group name f.body)
  | .notNext =>
      match f.alternatives, f.items with
      | [], [.char cls] => some (.assert (.notNext cls))
      | _, _ => none
  | .notPrevious =>
      match f.alternatives, f.items with
      | [], [.char cls] => some (.assert (.notPrevious cls))
      | _, _ => none

end Frame

/-! ### The reader -/

/-- What was read last. -/
inductive Mode
  /-- a complete expression, or nothing -/
  | plain
  /-- an expression and its quantifier, which a question mark makes lazy -/
  | quantified (quantifier : Quantifier) (body : Regex)
  /-- a backslash -/
  | escaped
  /-- an opening parenthesis -/
  | opened
  /-- `(?` -/
  | marked
  /-- `(?P` -/
  | lettered
  /-- `(?<` -/
  | angled
  /-- a part of a group name, the last character first -/
  | naming (name : Text)
  /-- `(?i` -/
  | casing
  /-- `(?i)`, which cannot be repeated -/
  | cased
  /-- a part of a class in brackets -/
  | bracketed (cls : ClassReader)
  deriving Repr, DecidableEq

/-- The state of the reader between two characters.  The whole expression is the outermost group. -/
structure Reader where
  mode : Mode
  ignoreCase : Bool
  names : List Text
  frame : Frame
  outer : List Frame
  deriving Repr, DecidableEq

namespace Reader

def start : Reader := ⟨.plain, false, [], Frame.fresh .plain false, []⟩

def push (r : Reader) (item : Regex) : Reader :=
  { r with mode := .plain, frame := r.frame.push item }

def pushChar (r : Reader) (c : Char) : Reader :=
  r.push (.char ((CharClass.single c).foldIf r.ignoreCase))

def openGroup (r : Reader) (kind : GroupKind) : Reader :=
  { r with mode := .plain, frame := Frame.fresh kind r.ignoreCase, outer := r.frame :: r.outer }

/-- Open a group under a name, which must be new and not empty. -/
def openNamed? (r : Reader) (name : Text) : Option Reader :=
  if name.isEmpty || r.names.contains name then none
  else some { r.openGroup (.named name) with names := name :: r.names }

def close? (r : Reader) : Option Reader :=
  match r.outer with
  | [] => none
  | frame :: outer =>
      r.frame.close?.map fun item =>
        { r with
          mode := .plain, ignoreCase := r.frame.ignoreCase, frame := frame.push item, outer }

/-- Put a quantifier behind the last expression. -/
def quantify? (r : Reader) (quantifier : Quantifier) : Option Reader :=
  match r.frame.items with
  | [] => none
  | item :: items =>
      some { r with mode := .quantified quantifier item, frame := { r.frame with items } }

/-- Complete the last expression: a quantifier that is still open is greedy. -/
def settle (r : Reader) : Reader :=
  match r.mode with
  | .quantified quantifier body => r.push (quantifier.apply body true)
  | .cased => { r with mode := .plain }
  | _ => r

/-- Read a character that stands after a complete expression. -/
def plain? (d : Dialect) (r : Reader) (c : Char) : Option Reader :=
  match c with
  | '\\' => some { r with mode := .escaped }
  | '(' => some { r with mode := .opened }
  | ')' => r.close?
  | '|' => some { r with frame := r.frame.turn }
  | '[' => some { r with mode := .bracketed .start }
  | '*' => r.quantify? .star
  | '+' => r.quantify? .plus
  | '?' => r.quantify? .opt
  | '.' => some (r.push (.char d.dot))
  | '^' => if d.anchors then some (r.push (.assert .textStart)) else none
  | '$' => if d.anchors then some (r.push (.assert .textEnd)) else none
  | '{' => none
  | c => some (r.pushChar c)

/-- Read the character after a backslash. -/
def escaped? (r : Reader) (c : Char) : Option Reader :=
  match c with
  | 'b' => some (r.push (.assert .wordBoundary))
  | '<' => some (r.push (.assert .wordStart))
  | '>' => some (r.push (.assert .wordEnd))
  | 'A' => some (r.push (.assert .textStart))
  | 'z' => some (r.push (.assert .textEnd))
  | c =>
      match escapedClass? c with
      | some cls => some (r.push (.char cls))
      | none => (escapedChar? c).map r.pushChar

/-- Read the character after `(?`. -/
def marked? (d : Dialect) (r : Reader) (c : Char) : Option Reader :=
  match c with
  | ':' => some (r.openGroup .plain)
  | 'P' => some { r with mode := .lettered }
  | '<' => some { r with mode := .angled }
  | 'i' => some { r with mode := .casing }
  | '!' => if d.lookaround then some (r.openGroup .notNext) else none
  | _ => none

/-- Read a character of a group name, or the bracket that ends it. -/
def naming? (d : Dialect) (r : Reader) (name : Text) (c : Char) : Option Reader :=
  if c = '>' then r.openNamed? name.reverse
  else if d.nameChar name.isEmpty c then some { r with mode := .naming (c :: name) }
  else none

/-- Read one character. -/
def step? (d : Dialect) (r : Reader) (c : Char) : Option Reader :=
  match r.mode with
  | .plain => r.plain? d c
  | .quantified quantifier body =>
      if c = '?' then some (r.push (quantifier.apply body false)) else r.settle.plain? d c
  | .escaped => r.escaped? c
  | .opened =>
      if c = '?' then some { r with mode := .marked } else (r.openGroup .plain).plain? d c
  | .marked => r.marked? d c
  | .lettered => if c = '<' then some { r with mode := .naming [] } else none
  | .angled =>
      if c = '!' then if d.lookaround then some (r.openGroup .notPrevious) else none
      else r.naming? d [] c
  | .naming name => r.naming? d name c
  | .casing => if c = ')' then some { r with mode := .cased, ignoreCase := true } else none
  | .cased => if isQuantifier c then none else r.settle.plain? d c
  | .bracketed cls =>
      match cls.step? r.ignoreCase c with
      | none => none
      | some (.inl cls) => some (r.push (.char cls))
      | some (.inr cls) => some { r with mode := .bracketed cls }

def feed (d : Dialect) : Text → Reader → Option Reader
  | [], r => some r
  | c :: source, r => (r.step? d c).bind (feed d source)

/-- Reading one source after another is reading their concatenation. -/
theorem feed_append (d : Dialect) (s t : Text) (r : Reader) :
    feed d (s ++ t) r = (feed d s r).bind (feed d t) := by
  induction s generalizing r with
  | nil => rfl
  | cons c s ih =>
      cases h : r.step? d c with
      | none => simp [feed, h]
      | some next => simp [feed, h, ih]

/-- The expression read, if nothing is left open. -/
def finish? (r : Reader) : Option Regex :=
  match r.outer, r.settle with
  | [], ⟨.plain, _, _, frame, _⟩ => some frame.body
  | _, _ => none

end Reader

/-- The expression that a source stands for. -/
def Regex.read? (d : Dialect) (source : Text) : Option Regex :=
  (Reader.start.feed d source).bind Reader.finish?

end Transcript
