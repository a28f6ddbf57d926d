/-
**Input markers.**

A marker at the end of a line stands for text that is typed there.  Two rules belong together: one
finds a marker anywhere in a line, the other matches a marker only where it closes the line, and
gives its text and the spacing behind it.

Main definitions:

* `Transcript.InputRule` — what a marker looks like;
* `Transcript.InputRule.delimited`, `Transcript.InputRule.anywhereSource`,
  `Transcript.InputRule.closingSource` — markers between two given characters, and how their rules are
  written;
* `Transcript.InputRule.find?` — the first marker in a line;
* `Transcript.InputRule.trailing?` — the marker that closes a line.
-/

import Transcript.Markup.Error
import Transcript.Regex.Escape
import Transcript.Regex.Match
import Transcript.Regex.Reader

set_option relaxedAutoImplicit false
set_option autoImplicit false

namespace Transcript

/-- What an input marker looks like, anywhere and at the end of a line. -/
structure InputRule where
  anywhere : Regex
  closing : Regex
  deriving Repr, DecidableEq

/-- A marker that closes a line: where it begins, the text to type, and the spacing behind it. -/
structure TrailingInput where
  start : Nat
  input : Text
  spacing : Text
  deriving Repr, DecidableEq

namespace InputRule

/-! ### Rules -/

/-- The group that holds the text to type. -/
def inputGroup : Text := "input".toList

/-- The group that holds the spacing behind the marker. -/
def spacingGroup : Text := "trailing".toList

/-- Characters other than the closing one and the backslash. -/
def plainRun (closing : Char) : Regex :=
  .star (.char (.compl (.oneOf [.single closing, .single '\\']))) true

/-- A backslash with the character that it escapes. -/
def escapedPair : Regex := .concat [.single '\\', .char .inLine]

/-- The text of a marker: a backslash takes the character behind it along. -/
def body (closing : Char) : Regex :=
  .concat [plainRun closing, .star (.concat [escapedPair, plainRun closing]) true]

def marker (opening closing : Char) : Regex :=
  .concat [.single opening, .group inputGroup (body closing), .single closing]

/-- Markers that are a text between two given characters. -/
def delimited (opening closing : Char) : InputRule where
  anywhere := marker opening closing
  closing :=
    .concat [marker opening closing, .group spacingGroup (.star (.single ' ') true),
      .assert .textEnd]

/-- The source of `plainRun`. -/
def plainSource (closing : Char) : Text :=
  "[^".toList ++ Regex.escapeRuleChar closing ++ "\\\\]*".toList

/-- The source of the rule that finds a marker anywhere. -/
def anywhereSource (opening closing : Char) : Text :=
  Regex.escapeRuleChar opening ++ "(?P<input>".toList ++ plainSource closing ++ "(?:\\\\.".toList
    ++ plainSource closing ++ ")*)".toList ++ Regex.escapeRuleChar closing

/-- The source of the rule that matches a marker at the end of a line. -/
def closingSource (opening closing : Char) : Text :=
  anywhereSource opening closing ++ "(?P<trailing>[ ]*)$".toList

def standard : InputRule := delimited '[' ']'

/-- The rule of two expressions, the second of which must define both groups. -/
def ofRegexes (anywhere closing : Regex) : Except ConfigError InputRule :=
  if !closing.groups.contains inputGroup then .error (.missingGroup .input inputGroup)
  else if !closing.groups.contains spacingGroup then .error (.missingGroup .input spacingGroup)
  else .ok ⟨anywhere, closing⟩

/-- The rule written as two expressions. -/
def read (anywhere closing : Text) : Except ConfigError InputRule :=
  match Regex.read? .rule anywhere, Regex.read? .rule closing with
  | some anywhere, some closing => ofRegexes anywhere closing
  | _, _ => .error .invalidRegex

/-! ### Recognition -/

/-- The offset of the first marker in a line. -/
def find? (rule : InputRule) (line : Text) : Option Nat :=
  (rule.anywhere.search line).map (·.span.start.offset)

/-- The text of a group, empty if the group took no part. -/
def groupText (m : Match) (group : Text) : Text := ((m.group? group).map Span.text).getD []

def trailing? (rule : InputRule) (line : Text) : Option TrailingInput :=
  (rule.closing.search line).map fun m =>
    ⟨m.span.start.offset, groupText m inputGroup, groupText m spacingGroup⟩

end InputRule

end Transcript
