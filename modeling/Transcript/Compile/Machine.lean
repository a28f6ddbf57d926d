/-
**The state of a compilation.**

Tokens become fragments one at a time.  What a tag becomes depends on its neighbours, so the tokens
that cannot be turned into fragments yet are held back: at most one run of white space and one tag.

Main definitions:

* `Transcript.Pending` — the tokens held back;
* `Transcript.Build` — the fragments and inputs so far, and the window of the next cue;
* `Transcript.Build.emit` and its kin — turning tokens into fragments;
* `Transcript.Machine` — both together.
-/

import Transcript.Compile.Error
import Transcript.Markup.Config
import Transcript.Program

set_option relaxedAutoImplicit false
set_option autoImplicit false

namespace Transcript

/-! ### Tokens held back -/

/-- The tokens that are not fragments yet. -/
inductive Pending
  /-- none, at the beginning -/
  | idle
  /-- the first token of a run of white space -/
  | gap (space : Token)
  /-- a literal, or the echo of an input -/
  | text (text : Token)
  /-- a tag without white space on its left -/
  | tag (tag : Token)
  /-- white space and the tag behind it -/
  | gapTag (space tag : Token)
  /-- none, after the end -/
  | done
  deriving Repr, DecidableEq

/-- The tokens held back, the oldest first. -/
def Pending.held : Pending → List Token
  | idle => []
  | gap s => [s]
  | text x => [x]
  | tag g => [g]
  | gapTag s g => [s, g]
  | done => []

/-! ### Fragments so far -/

/-- The fragments and inputs so far, and the window of the next cue. -/
structure Build where
  fragments : Array Fragment
  window : CueWindow
  inputs : Array InputRecord
  deriving Repr, DecidableEq

namespace Build

/-- The program that matches the beginning of an output. -/
def start : Build := ⟨#[⟨0, .start⟩], .empty, #[]⟩

/-- Add a fragment.  The window forgets what is in front of a tag or an anchor. -/
def emit (range : CueRange) (b : Build) (f : Fragment) : Build where
  fragments := b.fragments.push f
  window := if f.resetsCue then .empty else b.window.push range f.entry
  inputs := b.inputs

def emitText (config : Config) (b : Build) (t : Token) : Build :=
  b.emit config.cueRange ⟨t.offset, .literal t.text⟩

/-- Turn white space into a matcher of one white space character. -/
def emitSpace (config : Config) (b : Build) (t : Token) : Build :=
  b.emit config.cueRange ⟨t.offset, .space⟩

/-- Turn white space into a matcher of a whole run of white space. -/
def emitSpaces (config : Config) (b : Build) (t : Token) : Build :=
  b.emit config.cueRange ⟨t.offset, .spaces⟩

/-- The groups that the tags so far capture under. -/
def groups (b : Build) : List Text :=
  b.fragments.toList.filterMap fun f => f.name?.map groupName

/-- Turn a tag into a fragment.  A tag takes as little as it can, but an anonymous one at the end of
a line, which stands for unwanted output, takes as much as it can. -/
def emitTag (config : Config) (b : Build) (t : Token) (context : TagContext) (endOfLine : Bool) :
    Except CompileError Build :=
  match config.tags.nameOf? t.text with
  | none => .error (.internal .namelessTag)
  | some name =>
      if name = config.ellipsis then
        .ok (b.emit config.cueRange ⟨t.offset, .tag none context endOfLine⟩)
      else if b.groups.contains (groupName name) then .error (.duplicateName name t.offset)
      else .ok (b.emit config.cueRange ⟨t.offset, .tag (some name) context false⟩)

def emitFinish (config : Config) (b : Build) (offset : Nat) (anchor : EndAnchor) : Build :=
  b.emit config.cueRange ⟨offset, .finish anchor⟩

/-- Record an input, unless too little text precedes it. -/
def schedule (config : Config) (b : Build) (t : Token) : Except CompileError Build :=
  match b.window.cue? config.cueRange with
  | none => .error (.insufficientCue t.offset b.window.weight config.cueRange.min)
  | some cue => .ok { b with inputs := b.inputs.push ⟨t.offset, cue.pattern, t.text⟩ }

end Build

/-! ### The machine -/

/-- The state of a compilation between two tokens. -/
structure Machine where
  pending : Pending
  build : Build
  deriving Repr, DecidableEq

/-- Before the first token. -/
def Machine.start : Machine := ⟨.idle, .start⟩

end Transcript
