/-
**The command line.**

The command compiles an expected transcript and prints the program, or matches the program against
an output and prints what the tags captured.

Main definitions:

* `Transcript.Command` — what the command is asked to do;
* `Transcript.Command.run` — what it prints, and its exit code.
-/

import Transcript.Json.Report
import Transcript.Matcher
import Transcript.Options

set_option relaxedAutoImplicit false
set_option autoImplicit false

namespace Transcript

/-- What the command is asked to do: the options of the compilation and the bounds of a cue. -/
structure Command where
  options : Options
  cueMin : Nat
  cueMax : Nat
  deriving Repr, DecidableEq

/-- What the command prints, and its exit code. -/
structure Outcome where
  exit : Nat
  out : Text
  err : Text
  deriving Repr, DecidableEq

namespace Outcome

/-- Success, with a value on standard output. -/
def value (value : Json) : Outcome := ⟨0, value.pretty ++ ['\n'], []⟩

/-- Failure, with a line on standard error. -/
def failure (line : Text) : Outcome := ⟨1, [], line ++ ['\n']⟩

def error (message : Text) : Outcome := failure ("Error: ".toList ++ message)

end Outcome

/-- The number of the line, from one, in which an offset of a text lies. -/
def lineNumber (text : Text) (offset : Nat) : Nat := (text.take offset).count '\n' + 1

namespace Command

/-- The command without arguments. -/
def standard : Command := ⟨.standard, CueRange.standard.min, CueRange.standard.max⟩

def config (c : Command) : Except ConfigError Config :=
  (CueRange.ofBounds c.cueMin c.cueMax).map fun cueRange => { Config.standard with cueRange }

def mismatch (c : Command) (expected : Text) (m : PartialMatch) : Outcome :=
  match m.failedAt with
  | none => .failure "Output differs from the expected.".toList
  | some offset =>
      .failure ("Output differs from the expected at character ".toList ++ Text.ofNat offset
        ++ " (line ".toList ++ Text.ofNat (lineNumber (c.options.strip expected) offset)
        ++ ").".toList)

def compare (c : Command) (expected : Text) (program : Program) (output : Text) : Outcome :=
  match program.matcher? with
  | none => .error "Failed to run the expected pattern".toList
  | some matcher =>
      match matcher.captures? output with
      | some captures => .value (capturesToJson captures)
      | none => c.mismatch expected (matcher.partialMatch output)

/-- Compile a transcript, and match the program against an output if there is one. -/
def run (c : Command) (expected : Text) (output : Option Text) : Outcome :=
  match c.config with
  | .error e => .error e.message
  | .ok config =>
      match c.options.compile config expected with
      | .error e => .error e.message
      | .ok program =>
          match output with
          | none => .value program.toJson
          | some output => c.compare expected program output

end Command

end Transcript
