/-
**Configurations.**

Main definitions:

* `Transcript.Config` — the lexical rules and bounds under which a transcript is compiled.
-/

import Transcript.Cue
import Transcript.Markup.Input
import Transcript.Markup.Tag

set_option relaxedAutoImplicit false
set_option autoImplicit false

namespace Transcript

/-- The lexical rules and bounds under which a transcript is compiled. -/
structure Config where
  tags : TagRule
  inputs : InputRule
  /-- the name of the tags that capture nothing -/
  ellipsis : Text
  cueRange : CueRange
  deriving Repr, DecidableEq

namespace Config

/-- The name of the tags that capture nothing, unless another is given. -/
def standardEllipsis : Text := "...".toList

/-- Tags in angle brackets, inputs in square brackets, and the usual bounds. -/
def standard : Config := ⟨.standard, .standard, standardEllipsis, .standard⟩

end Config

end Transcript
