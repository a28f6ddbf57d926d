/-
**Tokens.**

An expected transcript is read as a list of tokens, each with the offset at which it begins.
Warnings stand among the tokens where they were noticed, and do not keep the text from being
compiled.

Main definitions:

* `Transcript.Token`, `Transcript.TokenKind` — the pieces of a text;
* `Transcript.Warning` — something suspicious in a text;
* `Transcript.Lexeme` — a token or a warning.
-/

import Transcript.Text.Basic

set_option relaxedAutoImplicit false
set_option autoImplicit false

namespace Transcript

/-! ### Tokens -/

inductive TokenKind
  /-- a run of newlines -/
  | newlines
  /-- a run of other white space -/
  | spaces
  /-- text to be matched as it is -/
  | literal
  /-- a capture tag -/
  | tag
  /-- an input marker, whose text is what is typed -/
  | input
  /-- the end of the text -/
  | finish
  deriving Repr, DecidableEq

structure Token where
  offset : Nat
  kind : TokenKind
  text : Text
  deriving Repr, DecidableEq

namespace TokenKind

def isSpace : TokenKind → Bool
  | newlines => true
  | spaces => true
  | _ => false

/-- Text that appears in the output as it is: a literal, or the echo of an input. -/
def isText : TokenKind → Bool
  | literal => true
  | input => true
  | _ => false

end TokenKind

/-! ### Warnings -/

inductive WarningKind
  /-- a marker that does not close its line and is read as literal text -/
  | inputNotAtTheEnd
  /-- a tag inside a marker, which is typed as it is -/
  | tagInsideInput
  deriving Repr, DecidableEq

def WarningKind.name : WarningKind → Text
  | .inputNotAtTheEnd => "input-not-at-the-end".toList
  | .tagInsideInput => "tag-inside-input".toList

/-- Something suspicious at an offset of the text. -/
structure Warning where
  offset : Nat
  kind : WarningKind
  deriving Repr, DecidableEq

def Warning.message (w : Warning) : Text :=
  match w.kind with
  | .inputNotAtTheEnd =>
      "input marker at character ".toList ++ Text.ofNat w.offset
        ++ " is not at the end of its line and will be matched literally".toList
  | .tagInsideInput =>
      "capture tag found inside an input marker near character ".toList ++ Text.ofNat w.offset

/-! ### Lexemes -/

inductive Lexeme
  | token (token : Token)
  | warning (warning : Warning)
  deriving Repr, DecidableEq

namespace Lexeme

def token? : Lexeme → Option Token
  | token t => some t
  | warning _ => none

def warning? : Lexeme → Option Warning
  | token _ => none
  | warning w => some w

end Lexeme

def Lexeme.tokens (lexemes : List Lexeme) : List Token := lexemes.filterMap Lexeme.token?

def Lexeme.warnings (lexemes : List Lexeme) : List Warning := lexemes.filterMap Lexeme.warning?

end Transcript
