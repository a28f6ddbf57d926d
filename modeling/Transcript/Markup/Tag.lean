/-
**Capture tags.**

A tag stands in an expected transcript for text that is not known in advance.  A rule says what a
tag looks like: the whole match is the tag, and the group `name` is its name.

Main definitions:

* `Transcript.TagRule` — what a tag looks like;
* `Transcript.TagRule.delimited`, `Transcript.TagRule.source` — tags between two given characters, and
  how their rule is written;
* `Transcript.TagRule.findAll`, `Transcript.TagRule.find?` — the tags in a text;
* `Transcript.TagRule.nameOf?` — the name of a tag.
-/

import Transcript.Markup.Error
import Transcript.Regex.Escape
import Transcript.Regex.Match
import Transcript.Regex.Reader

set_option relaxedAutoImplicit false
set_option autoImplicit false

namespace Transcript

structure TagRule where
  regex : Regex
  deriving Repr, DecidableEq

namespace TagRule

/-! ### Rules -/

def nameGroup : Text := "name".toList

/-- The characters that a name may begin with. -/
def nameHead : CharClass := .oneOf [.range 'A' 'Z', .range 'a' 'z', .single '.']

/-- The characters that a name may go on with. -/
def nameTail : CharClass :=
  .oneOf [.range 'A' 'Z', .range 'a' 'z', .range '0' '9', .single ':', .single '.', .single '-']

def name : Regex := .concat [.char nameHead, .star (.char nameTail) true]

/-- Tags that are a name between two given characters. -/
def delimited (opening closing : Char) : TagRule :=
  ⟨.concat [.single opening, .group nameGroup name, .single closing]⟩

/-- The source of the rule of tags between two given characters. -/
def source (opening closing : Char) : Text :=
  Regex.escapeRuleChar opening ++ "(?P<name>[A-Za-z.][A-Za-z0-9:.-]*)".toList
    ++ Regex.escapeRuleChar closing

def standard : TagRule := delimited '<' '>'

/-- The rule of an expression, which must define the group of the name. -/
def ofRegex (regex : Regex) : Except ConfigError TagRule :=
  if regex.groups.contains nameGroup then .ok ⟨regex⟩ else .error (.missingGroup .tag nameGroup)

/-- The rule written as an expression. -/
def read (source : Text) : Except ConfigError TagRule :=
  match Regex.read? .rule source with
  | none => .error .invalidRegex
  | some regex => ofRegex regex

/-! ### Recognition -/

/-- The tags in a text, from left to right. -/
def findAll (rule : TagRule) (text : Text) : List Span := (rule.regex.findAll text).map (·.span)

/-- The offset of the first tag in a text. -/
def find? (rule : TagRule) (text : Text) : Option Nat :=
  (rule.regex.search text).map (·.span.start.offset)

/-- The name of a tag, if the text is a tag from end to end and the name took part. -/
def nameOf? (rule : TagRule) (tag : Text) : Option Text :=
  match rule.regex.search tag with
  | none => none
  | some m =>
      if m.span.start.offset = 0 ∧ m.span.stop.offset = tag.length then
        (m.group? nameGroup).map Span.text
      else none

end TagRule

end Transcript
