/-
**Errors in a configuration.**

Main definitions:

* `Transcript.ConfigError` — why a configuration is refused;
* `Transcript.ConfigError.message` — the wording of an error.
-/

import Transcript.Text.Basic

set_option relaxedAutoImplicit false
set_option autoImplicit false

namespace Transcript

inductive RuleKind
  | tag
  | input
  deriving Repr, DecidableEq

/-- What a rule recognises. -/
def RuleKind.describe : RuleKind → Text
  | .tag => "capture tag".toList
  | .input => "input marker".toList

inductive ConfigError
  /-- the source of a lexical rule is not an expression -/
  | invalidRegex
  /-- a rule lacks a group that it must define -/
  | missingGroup (rule : RuleKind) (group : Text)
  /-- the bounds of a range are in the wrong order -/
  | invalidRange (min max : Nat)
  deriving Repr, DecidableEq

def ConfigError.message : ConfigError → Text
  | .invalidRegex => "Invalid lexical rule".toList
  | .missingGroup rule group =>
      "The ".toList ++ rule.describe ++ " rule must define a group named '".toList ++ group
        ++ "'".toList
  | .invalidRange min max =>
      "Invalid input prefix range: the minimum (".toList ++ Text.ofNat min
        ++ ") is greater than the maximum (".toList ++ Text.ofNat max ++ ")".toList

end Transcript
