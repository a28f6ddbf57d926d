/-
**Fragments of a program.**

A compiled transcript is a list of fragments, each of which is an expression of its own.  A fragment
is kept as its shape; the source that is read when the program is run, its weight and its effect on
the cue of an input follow from the shape.

Main definitions:

* `Transcript.Shape`, `Transcript.Fragment` — the pieces of a program;
* `Transcript.Shape.source` — the source of a fragment;
* `Transcript.Shape.weight`, `Transcript.Shape.resetsCue` — its part in the cue of an input;
* `Transcript.groupName` — the name of the group that a tag captures under.
-/

import Transcript.Cue
import Transcript.Regex.Escape

set_option relaxedAutoImplicit false
set_option autoImplicit false

namespace Transcript

/-! ### Shapes -/

/-- The name of the group that a tag captures under: what is not a letter or a digit of ASCII
becomes an underscore. -/
def groupName (name : Text) : Text := name.map fun c => if c.isAlphanum then c else '_'

inductive TagContext
  /-- text, or nothing, on both sides -/
  | bare
  /-- white space on the left only -/
  | leftSpace
  /-- white space or the end on the right only -/
  | rightSpace
  /-- white space on the left, white space or the end on the right -/
  | bothSpace
  /-- the end on the right, where spacing is matched as written -/
  | lineEnd
  deriving Repr, DecidableEq

/-- What may follow the end of a transcript. -/
inductive EndAnchor
  | blank
  | newlines
  deriving Repr, DecidableEq

/-- What a fragment matches. -/
inductive Shape
  /-- the beginning of the output -/
  | start
  /-- a given text -/
  | literal (text : Text)
  /-- one white space character; the tag that follows takes the others -/
  | space
  /-- a whole run of white space -/
  | spaces
  /-- a tag, which captures unless it is anonymous -/
  | tag (binding : Option Text) (context : TagContext) (greedy : Bool)
  /-- the end of the output -/
  | finish (anchor : EndAnchor)
  deriving Repr, DecidableEq

namespace Shape

/-- The opening of the group of a tag. -/
def opening : Option Text → Text
  | some name => "(?P<".toList ++ groupName name ++ ">".toList
  | none => "(?:".toList

/-- The group of a tag around any text, or around any text that is not empty. -/
def capture (binding : Option Text) (rounds : Char) (greedy : Bool) : Text :=
  opening binding ++ ['.', rounds] ++ (if greedy then [] else ['?']) ++ [')']

def source : Shape → Text
  | start => "\\A".toList
  | literal text => Regex.escape text
  | space => "\\s".toList
  | spaces => "\\s+(?!\\s)".toList
  | tag binding .bare greedy => capture binding '*' greedy
  | tag binding .leftSpace greedy => capture binding '*' greedy
  | tag binding .rightSpace greedy => capture binding '*' greedy ++ "(?<!\\s)".toList
  | tag binding .bothSpace greedy =>
      "(?:\\s*(?!\\s)".toList ++ capture binding '+' greedy ++ "(?<!\\s))?".toList
  | tag binding .lineEnd greedy =>
      "(?:".toList ++ capture binding '+' greedy ++ "(?<!\\n))?".toList
  | finish .blank => "\\s*\\z".toList
  | finish .newlines => "\\n*\\z".toList

/-- The number of characters that a fragment is sure to match; a run of white space counts as
one. -/
def weight : Shape → Nat
  | literal text => text.length
  | space => 1
  | spaces => 1
  | _ => 0

/-- A cue does not reach back over the fragment. -/
def resetsCue : Shape → Bool
  | start => true
  | tag _ _ _ => true
  | finish _ => true
  | _ => false

/-- The name that a tag binds, or `none` for an anonymous one. -/
def tag? : Shape → Option (Option Text)
  | tag binding _ _ => some binding
  | _ => none

end Shape

/-! ### Fragments -/

/-- A fragment, with the offset in the transcript of what it comes from. -/
structure Fragment where
  offset : Nat
  shape : Shape
  deriving Repr, DecidableEq

namespace Fragment

def pattern (f : Fragment) : Text := f.shape.source

def weight (f : Fragment) : Nat := f.shape.weight

/-- A cue does not reach back over the fragment. -/
def resetsCue (f : Fragment) : Bool := f.shape.resetsCue

def entry (f : Fragment) : CueEntry := ⟨f.offset, f.pattern, f.weight⟩

/-- The name that the fragment binds, if it is a tag with a name. -/
def name? (f : Fragment) : Option Text := f.shape.tag?.join

end Fragment

end Transcript
