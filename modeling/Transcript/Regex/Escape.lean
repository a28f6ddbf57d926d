/-
**Escaping.**

A text is written as an expression that matches it, and nothing else, by putting a backslash before
each character with a meaning of its own.

Main definitions:

* `Transcript.Regex.isMeta` — the characters with a meaning of their own;
* `Transcript.Regex.escape` — a text as the source of an expression;
* `Transcript.Regex.escapeRuleChar` — a character in the source of a lexical rule.
-/

import Transcript.Text.Basic

set_option relaxedAutoImplicit false
set_option autoImplicit false

namespace Transcript

namespace Regex

/-- The characters with a meaning of their own in the source of an expression, and the number sign,
which opens a comment in its verbose form. -/
def metaChars : List Char :=
  ['\\', '.', '+', '*', '?', '(', ')', '|', '[', ']', '{', '}', '^', '$', '#']

def isMeta (c : Char) : Bool := metaChars.contains c

def escapeChar (c : Char) : Text := if isMeta c then ['\\', c] else [c]

def escape (text : Text) : Text := text.flatMap escapeChar

/-- The characters that are written with a backslash in a lexical rule.  They include the signs of the
operations on classes, so that the character may stand in brackets too. -/
def isRuleMeta (c : Char) : Bool := isMeta c || c = '&' || c = '-' || c = '~'

/-- The source that stands for one character in a lexical rule. -/
def escapeRuleChar (c : Char) : Text := if isRuleMeta c then ['\\', c] else [c]

theorem escape_cons (c : Char) (text : Text) : escape (c :: text) = escapeChar c ++ escape text :=
  List.flatMap_cons

end Regex

end Transcript
