/-
**Positions in a text.**

Main definitions:

* `Transcript.Cursor` — a position in a text, with what stands on its two sides;
* `Transcript.Span` — a part of a text;
* `Transcript.Assertion.holds` — an assertion about a position holds there.
-/

import Transcript.Regex.Basic

set_option relaxedAutoImplicit false
set_option autoImplicit false

namespace Transcript

/-- A position in a text: the number of characters before it, the last one of them, and the text
that follows. -/
structure Cursor where
  offset : Nat
  previous : Option Char
  after : Text
  deriving Repr, DecidableEq

namespace Cursor

def start (text : Text) : Cursor := ⟨0, none, text⟩

def next? (cursor : Cursor) : Option (Char × Cursor) :=
  match cursor.after with
  | [] => none
  | c :: rest => some (c, ⟨cursor.offset + 1, some c, rest⟩)

end Cursor

/-- A part of a text, given by its two ends. -/
structure Span where
  start : Cursor
  stop : Cursor
  deriving Repr, DecidableEq

def Span.text (span : Span) : Text :=
  span.start.after.take (span.stop.offset - span.start.offset)

def Assertion.holds (cursor : Cursor) : Assertion → Bool
  | .textStart => cursor.offset = 0
  | .textEnd => cursor.after.isEmpty
  | .wordBoundary => cursor.previous.any Text.isWord != cursor.after.head?.any Text.isWord
  | .wordStart => !cursor.previous.any Text.isWord && cursor.after.head?.any Text.isWord
  | .wordEnd => cursor.previous.any Text.isWord && !cursor.after.head?.any Text.isWord
  | .notNext cls => !cursor.after.head?.any cls.contains
  | .notPrevious cls => !cursor.previous.any cls.contains

end Transcript
