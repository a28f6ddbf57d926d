/-
**Errors in a transcript.**

Main definitions:

* `Transcript.CompileError` — why a transcript is refused;
* `Transcript.CompileError.message` — the wording of an error.
-/

import Transcript.Text.Basic

set_option relaxedAutoImplicit false
set_option autoImplicit false

namespace Transcript

/-- What goes wrong when the tokens are not those of a text, or a rule finds a tag that it cannot
name. -/
inductive Fault
  /-- the rule gives no name to the text of a tag token -/
  | namelessTag
  /-- a token follows the end -/
  | afterEnd
  /-- the tokens stop before the end -/
  | noEnd
  /-- white space is held back where spacing is matched as written -/
  | spaceHeld
  deriving Repr, DecidableEq

def Fault.describe : Fault → Text
  | .namelessTag => "capture tag without a name".toList
  | .afterEnd => "token after the end marker".toList
  | .noEnd => "tokens ran out before the end marker".toList
  | .spaceHeld => "whitespace state under the literal policy".toList

inductive CompileError
  /-- two tags with nothing between them, the first one at `offset` -/
  | ambiguousTags (offset : Nat)
  /-- a tag whose name, or one with the same group, was used before -/
  | duplicateName (name : Text) (offset : Nat)
  /-- an input after too little text -/
  | insufficientCue (offset weight min : Nat)
  /-- a fault of the rules or of the caller -/
  | internal (fault : Fault)
  deriving Repr, DecidableEq

def CompileError.message : CompileError → Text
  | .ambiguousTags offset =>
      "Two consecutive capture tags were found at character ".toList ++ Text.ofNat offset
        ++ ". This is ambiguous.".toList
  | .duplicateName name offset =>
      "The same capture tag cannot be used twice and '".toList ++ name
        ++ "' is repeated at character ".toList ++ Text.ofNat offset ++ ".".toList
  | .insufficientCue offset weight min =>
      "There are too few characters before the input tag at character ".toList
        ++ Text.ofNat offset ++ " to proceed (".toList ++ Text.ofNat weight
        ++ " found, at least ".toList ++ Text.ofNat min ++ " needed).".toList
  | .internal fault => "Internal compiler error: ".toList ++ fault.describe

end Transcript
