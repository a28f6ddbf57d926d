/-
**From texts to tokens.**

A text is read line by line.  The marker that closes a line is set aside first; what stands in front
of it falls into runs of white space and words, and a word into tags and the literals between them.

Main definitions:

* `Transcript.Switches` — which markup is recognised;
* `Transcript.Piece` — a token without its offset;
* `Transcript.Piece.ofWord`, `Transcript.Piece.ofBody` — the pieces of a word and of a line;
* `Transcript.Lexeme.ofLine`, `Transcript.Lexeme.ofText` — the lexemes of a line and of a text.
-/

import Transcript.Markup.Config
import Transcript.Markup.Token

set_option relaxedAutoImplicit false
set_option autoImplicit false

namespace Transcript

/-- Which markup is recognised; what is not is read as literal text. -/
structure Switches where
  tags : Bool
  inputs : Bool
  deriving Repr, DecidableEq

/-! ### Pieces -/

/-- A token without its offset. -/
structure Piece where
  kind : TokenKind
  text : Text
  deriving Repr, DecidableEq

namespace Piece

/-- The pieces as tokens that follow one another, the first one at `offset`. -/
def place : (offset : Nat) → List Piece → List Token
  | _, [] => []
  | offset, piece :: rest =>
      ⟨offset, piece.kind, piece.text⟩ :: place (offset + piece.text.length) rest

/-- A literal, unless it is empty. -/
def literals (text : Text) : List Piece := if text = [] then [] else [⟨.literal, text⟩]

/-- The pieces of the text from `cursor` on, which holds the given tags. -/
def split : (cursor : Cursor) → (tags : List Span) → List Piece
  | cursor, [] => literals cursor.after
  | cursor, tag :: tags =>
      literals (Span.text ⟨cursor, tag.start⟩) ++ ⟨.tag, tag.text⟩ :: split tag.stop tags

def ofWord (config : Config) (switches : Switches) (word : Text) : List Piece :=
  if switches.tags then split (Cursor.start word) (config.tags.findAll word)
  else [⟨.literal, word⟩]

def ofRun (config : Config) (switches : Switches) (run : Text.Run) : List Piece :=
  if run.blank then [⟨.spaces, run.text⟩] else ofWord config switches run.text

/-- The pieces of a line in which no marker is recognised. -/
def ofBody (config : Config) (switches : Switches) (body : Text) : List Piece :=
  (Text.runs body).flatMap (ofRun config switches)

end Piece

/-! ### Lexemes -/

namespace Lexeme

/-- A warning at an offset, if there is one. -/
def warn (kind : WarningKind) (offset : Option Nat) : List Lexeme :=
  (offset.map fun offset => .warning ⟨offset, kind⟩).toList

/-- Warn about a marker in the text, which begins at `start` and is not read for markers. -/
def warnInput (config : Config) (start : Nat) (text : Text) : List Lexeme :=
  warn .inputNotAtTheEnd ((config.inputs.find? text).map (start + ·))

/-- Warn about a tag in the text, which begins at `start` and is not read for tags. -/
def warnTag (config : Config) (start : Nat) (text : Text) : List Lexeme :=
  warn .tagInsideInput ((config.tags.find? text).map (start + ·))

/-- The lexemes of a line without a marker that closes it. -/
def ofBody (config : Config) (switches : Switches) (start : Nat) (body : Text) : List Lexeme :=
  (Piece.place start (Piece.ofBody config switches body)).map .token

/-- The lexemes of a marker that begins at `start` and closes a line ending at `stop`. -/
def ofMarker (config : Config) (start stop : Nat) (marker : TrailingInput) : List Lexeme :=
  warnTag config start marker.input ++ .token ⟨start, .input, marker.input⟩
    :: if marker.spacing = [] then []
       else [.token ⟨stop - marker.spacing.length, .spaces, marker.spacing⟩]

/-- The lexemes of a line that begins at `start`. -/
def ofLine (config : Config) (switches : Switches) (start : Nat) (line : Text) : List Lexeme :=
  if switches.inputs then
    match config.inputs.trailing? line with
    | none => warnInput config start line ++ ofBody config switches start line
    | some marker =>
        let body := line.take marker.start
        warnInput config start body ++ ofBody config switches start body
          ++ ofMarker config (start + body.length) (start + line.length) marker
  else ofBody config switches start line

def ofNewlines (start count : Nat) : List Lexeme :=
  if count = 0 then [] else [.token ⟨start, .newlines, List.replicate count '\n'⟩]

/-- The lexemes of lines, the first of which begins at `start`, and the end of the text. -/
def ofLines (config : Config) (switches : Switches) : (start : Nat) → List Text.Line → List Lexeme
  | start, [] => [.token ⟨start, .finish, []⟩]
  | start, line :: rest =>
      let stop := start + line.body.length
      ofLine config switches start line.body ++ ofNewlines stop line.newlines
        ++ ofLines config switches (stop + line.newlines) rest

def ofText (config : Config) (switches : Switches) (text : Text) : List Lexeme :=
  ofLines config switches 0 (Text.lines text)

end Lexeme

end Transcript
