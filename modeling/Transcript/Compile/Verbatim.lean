/-
**Compiling with spacing as written.**

White space is text like any other, so only tags wait for the token that follows them.

Main definitions:

* `Transcript.Machine.verbatim` — the next state under this policy.
-/

import Transcript.Compile.Machine

set_option relaxedAutoImplicit false
set_option autoImplicit false

namespace Transcript

namespace Machine

/-- Text or white space comes next.  It ends a line if it is a run of newlines. -/
def verbatimText (config : Config) (m : Machine) (t : Token) : Except CompileError Machine :=
  match m.pending with
  | .idle => .ok ⟨.text t, m.build⟩
  | .text text => .ok ⟨.text t, m.build.emitText config text⟩
  | .tag tag => do
      let build ← m.build.emitTag config tag .bare (t.kind == .newlines)
      .ok ⟨.text t, build⟩
  | .gap _ => .error (.internal .spaceHeld)
  | .gapTag _ _ => .error (.internal .spaceHeld)
  | .done => .error (.internal .afterEnd)

def verbatimTag (config : Config) (m : Machine) (t : Token) : Except CompileError Machine :=
  match m.pending with
  | .idle => .ok ⟨.tag t, m.build⟩
  | .text text => .ok ⟨.tag t, m.build.emitText config text⟩
  | .tag tag => .error (.ambiguousTags tag.offset)
  | .gap _ => .error (.internal .spaceHeld)
  | .gapTag _ _ => .error (.internal .spaceHeld)
  | .done => .error (.internal .afterEnd)

def verbatimFinish (config : Config) (m : Machine) (t : Token) : Except CompileError Machine :=
  match m.pending with
  | .idle => .ok ⟨.done, m.build.emitFinish config t.offset .newlines⟩
  | .text text =>
      .ok ⟨.done, (m.build.emitText config text).emitFinish config t.offset .newlines⟩
  | .tag tag => do
      let build ← m.build.emitTag config tag .lineEnd true
      .ok ⟨.done, build.emitFinish config t.offset .newlines⟩
  | .gap _ => .error (.internal .spaceHeld)
  | .gapTag _ _ => .error (.internal .spaceHeld)
  | .done => .error (.internal .afterEnd)

/-- The next state when spacing is matched as written. -/
def verbatim (config : Config) (m : Machine) (t : Token) : Except CompileError Machine :=
  match t.kind with
  | .newlines => m.verbatimText config t
  | .spaces => m.verbatimText config t
  | .literal => m.verbatimText config t
  | .input => m.verbatimText config t
  | .tag => m.verbatimTag config t
  | .finish => m.verbatimFinish config t

end Machine

end Transcript
