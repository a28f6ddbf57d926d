/-
**Compiled transcripts.**

Main definitions:

* `Transcript.Program` — the fragments of a transcript, its inputs and the warnings about it;
* `Transcript.Program.source` — the whole program as one source;
* `Transcript.Program.tags`, `Transcript.Program.names` — the tags among the fragments.
-/

import Transcript.Fragment
import Transcript.Markup.Token

set_option relaxedAutoImplicit false
set_option autoImplicit false

namespace Transcript

/-- A text to be typed: the offset of its marker, the source that recognises the output in front of
it, and the text. -/
structure InputRecord where
  offset : Nat
  cue : Text
  text : Text
  deriving Repr, DecidableEq

/-- A compiled transcript. -/
structure Program where
  fragments : List Fragment
  inputs : List InputRecord
  warnings : List Warning
  deriving Repr, DecidableEq

/-- The source of fragments that follow one another. -/
def Fragment.join (fragments : List Fragment) : Text := fragments.flatMap Fragment.pattern

namespace Program

def source (p : Program) : Text := Fragment.join p.fragments

/-- The index of each tag among the fragments, with the name that it binds. -/
def tags (p : Program) : List (Nat × Option Text) :=
  p.fragments.zipIdx.filterMap fun (fragment, index) =>
    fragment.shape.tag?.map fun binding => (index, binding)

/-- The names that tags bind, in the order of the tags. -/
def names (p : Program) : List Text := p.fragments.filterMap Fragment.name?

end Program

end Transcript
