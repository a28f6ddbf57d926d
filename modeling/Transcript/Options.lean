/-
**Options of a compilation.**

Main definitions:

* `Transcript.Options` — what is recognised in a transcript, and what is taken out of it first;
* `Transcript.Options.strip` — a transcript without the texts to be taken out;
* `Transcript.Options.compile` — compiling a transcript under options.
-/

import Transcript.Compile.Compiler

set_option relaxedAutoImplicit false
set_option autoImplicit false

namespace Transcript

/-- What is recognised in a transcript, how white space is matched, and the texts that are taken out
before anything else. -/
structure Options where
  tags : Bool
  input : Bool
  normalize : Bool
  remove : List Text
  deriving Repr, DecidableEq

namespace Options

/-- Tags only, spacing as written, and nothing taken out. -/
def standard : Options := ⟨true, false, false, []⟩

def policy (o : Options) : Policy := if o.normalize then .normalize else .literal

def switches (o : Options) : Switches := ⟨o.tags, o.input⟩

/-- A transcript without the texts to be taken out, one after the other. -/
def strip (o : Options) (expected : Text) : Text :=
  o.remove.foldl (fun text needle => Text.remove needle text) expected

def compile (o : Options) (config : Config) (expected : Text) : Except CompileError Program :=
  Compiler.compile o.policy config o.switches (o.strip expected)

end Options

end Transcript
