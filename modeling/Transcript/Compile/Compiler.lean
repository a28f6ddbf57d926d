/-
**Compiling transcripts.**

Main definitions:

* `Transcript.Policy` — how white space is matched;
* `Transcript.Machine.feed`, `Transcript.Machine.feedAll` — the state after one token, and after
  many;
* `Transcript.Compiler` — a compiler, which keeps the state that the last text left;
* `Transcript.Compiler.parse` — compiling a text;
* `Transcript.Compiler.session` — compiling many texts with one compiler.
-/

import Transcript.Compile.Normalizing
import Transcript.Compile.Verbatim
import Transcript.Markup.Lexing

set_option relaxedAutoImplicit false
set_option autoImplicit false

namespace Transcript

/-! ### Policies -/

inductive Policy
  /-- any run of white space matches any other -/
  | normalize
  /-- spacing is matched as written -/
  | literal
  deriving Repr, DecidableEq

namespace Policy

/-- The policy used when none is given. -/
def standard : Policy := .literal

/-- The part of a text that is compiled.  Newlines at the end of the text count as spacing that is
not written. -/
def scope : Policy → Text → Text
  | normalize, text => text
  | literal, text => Text.trimNewlines text

end Policy

/-! ### Feeding tokens -/

namespace Machine

/-- The state after the transition for a token. -/
def advance (policy : Policy) (config : Config) (m : Machine) (t : Token) :
    Except CompileError Machine :=
  match policy with
  | .normalize => m.normalize config t
  | .literal => m.verbatim config t

/-- The state after a token.  An input is scheduled once the text in front of it is compiled; its
echo is then held back like a literal. -/
def feed (policy : Policy) (config : Config) (m : Machine) (t : Token) :
    Except CompileError Machine := do
  let next ← m.advance policy config t
  if t.kind = .input then
    let build ← next.build.schedule config t
    .ok { next with build }
  else .ok next

/-- The state after many tokens, or the state in which a token was refused and why. -/
def feedAll (policy : Policy) (config : Config) :
    Machine → List Token → Machine × Option CompileError
  | m, [] => (m, none)
  | m, t :: tokens =>
      match m.feed policy config t with
      | .ok next => feedAll policy config next tokens
      | .error e => (m, some e)

/-- The program that was built, if the end of the text was reached. -/
def program? (m : Machine) (warnings : List Warning) : Except CompileError Program :=
  if m.pending = .done then .ok ⟨m.build.fragments.toList, m.build.inputs.toList, warnings⟩
  else .error (.internal .noEnd)

end Machine

/-! ### Compilers -/

/-- A compiler: its configuration and policy, and the state that the last text left. -/
structure Compiler where
  config : Config
  policy : Policy
  machine : Machine
  deriving Repr, DecidableEq

namespace Compiler

/-- A compiler that has seen no text. -/
def fresh (policy : Policy) (config : Config) : Compiler := ⟨config, policy, .start⟩

def reset (c : Compiler) : Compiler := { c with machine := .start }

def lexemes (c : Compiler) (switches : Switches) (text : Text) : List Lexeme :=
  Lexeme.ofText c.config switches (c.policy.scope text)

/-- Compile a text.  The state that an earlier text left is forgotten first. -/
def parse (c : Compiler) (switches : Switches) (text : Text) :
    Except CompileError Program × Compiler :=
  let lexemes := c.lexemes switches text
  let (machine, refusal) :=
    c.reset.machine.feedAll c.policy c.config (Lexeme.tokens lexemes)
  let result :=
    match refusal with
    | some e => .error e
    | none => machine.program? (Lexeme.warnings lexemes)
  (result, { c with machine })

def compile (policy : Policy) (config : Config) (switches : Switches) (text : Text) :
    Except CompileError Program :=
  ((fresh policy config).parse switches text).1

/-! ### Sessions -/

/-- One use of a compiler. -/
inductive Step
  | reset
  | parse (switches : Switches) (text : Text)
  deriving Repr, DecidableEq

/-- Use a compiler once; only a text has a result. -/
def step (c : Compiler) : Step → Option (Except CompileError Program) × Compiler
  | .reset => (none, c.reset)
  | .parse switches text =>
      let (result, c) := c.parse switches text
      (some result, c)

def session : Compiler → List Step → List (Option (Except CompileError Program))
  | _, [] => []
  | c, step :: steps =>
      let (result, c) := c.step step
      result :: session c steps

end Compiler

end Transcript
