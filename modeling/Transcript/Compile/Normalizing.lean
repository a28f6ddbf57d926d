/-
**Compiling with normalized spacing.**

A run of white space, newlines included, matches any run of white space.  Next to a tag the run is
folded into what guards the tag, so a tag behind white space waits for the token that follows it.

Main definitions:

* `Transcript.Machine.normalize` — the next state under this policy.
-/

import Transcript.Compile.Machine

set_option relaxedAutoImplicit false
set_option autoImplicit false

namespace Transcript

namespace Machine

/-- White space comes next.  It ends a line if it is a run of newlines. -/
def normalizeSpace (config : Config) (m : Machine) (t : Token) : Except CompileError Machine :=
  let endOfLine := t.kind == .newlines
  match m.pending with
  | .idle => .ok ⟨.gap t, m.build⟩
  | .gap space => .ok ⟨.gap space, m.build⟩
  | .text text => .ok ⟨.gap t, m.build.emitText config text⟩
  | .tag tag => do
      let build ← m.build.emitTag config tag .rightSpace endOfLine
      .ok ⟨.gap t, build⟩
  | .gapTag space tag => do
      let build ← (m.build.emitSpace config space).emitTag config tag .bothSpace endOfLine
      .ok ⟨.gap t, build⟩
  | .done => .error (.internal .afterEnd)

def normalizeText (config : Config) (m : Machine) (t : Token) : Except CompileError Machine :=
  match m.pending with
  | .idle => .ok ⟨.text t, m.build⟩
  | .gap space => .ok ⟨.text t, m.build.emitSpaces config space⟩
  | .text text => .ok ⟨.text t, m.build.emitText config text⟩
  | .tag tag => do
      let build ← m.build.emitTag config tag .bare false
      .ok ⟨.text t, build⟩
  | .gapTag space tag => do
      let build ← (m.build.emitSpaces config space).emitTag config tag .leftSpace false
      .ok ⟨.text t, build⟩
  | .done => .error (.internal .afterEnd)

def normalizeTag (config : Config) (m : Machine) (t : Token) : Except CompileError Machine :=
  match m.pending with
  | .idle => .ok ⟨.tag t, m.build⟩
  | .gap space => .ok ⟨.gapTag space t, m.build⟩
  | .text text => .ok ⟨.tag t, m.build.emitText config text⟩
  | .tag tag => .error (.ambiguousTags tag.offset)
  | .gapTag _ tag => .error (.ambiguousTags tag.offset)
  | .done => .error (.internal .afterEnd)

/-- The text ends.  White space in front of the end is left to the anchor, which takes its place. -/
def normalizeFinish (config : Config) (m : Machine) (t : Token) : Except CompileError Machine :=
  match m.pending with
  | .idle => .ok ⟨.done, m.build.emitFinish config t.offset .blank⟩
  | .gap space => .ok ⟨.done, m.build.emitFinish config space.offset .blank⟩
  | .text text =>
      .ok ⟨.done, (m.build.emitText config text).emitFinish config t.offset .blank⟩
  | .tag tag => do
      let build ← m.build.emitTag config tag .rightSpace true
      .ok ⟨.done, build.emitFinish config t.offset .blank⟩
  | .gapTag space tag => do
      let build ← (m.build.emitSpace config space).emitTag config tag .bothSpace true
      .ok ⟨.done, build.emitFinish config t.offset .blank⟩
  | .done => .error (.internal .afterEnd)

/-- The next state when spacing is normalized. -/
def normalize (config : Config) (m : Machine) (t : Token) : Except CompileError Machine :=
  match t.kind with
  | .newlines => m.normalizeSpace config t
  | .spaces => m.normalizeSpace config t
  | .literal => m.normalizeText config t
  | .input => m.normalizeText config t
  | .tag => m.normalizeTag config t
  | .finish => m.normalizeFinish config t

end Machine

end Transcript
