/-
**Reading JSON.**

The grammar is the standard one: no comments, no trailing commas, no leading zeros, and no control
characters inside strings.

Main definitions:

* `Transcript.Json.stringBody?` — the rest of a string after its opening quote;
* `Transcript.Json.number?` — a number at the front of a text;
* `Transcript.Json.parse?` — the value that a text spells.
-/

import Transcript.Json.Basic

set_option relaxedAutoImplicit false
set_option autoImplicit false

namespace Transcript

namespace Json

/-! ### White space -/

/-- The characters that may stand between tokens. -/
def isSpace (c : Char) : Bool := c = ' ' || c = '\n' || c = '\r' || c = '\t'

/-- A text from its first token on. -/
def skip (text : Text) : Text := text.dropWhile isSpace

/-! ### Strings -/

def hexDigit? (c : Char) : Option Nat :=
  if '0' ≤ c ∧ c ≤ '9' then some (c.toNat - '0'.toNat)
  else if 'a' ≤ c ∧ c ≤ 'f' then some (c.toNat - 'a'.toNat + 10)
  else if 'A' ≤ c ∧ c ≤ 'F' then some (c.toNat - 'A'.toNat + 10)
  else none

def hexUnit? (a b c d : Char) : Option Nat := do
  let a ← hexDigit? a
  let b ← hexDigit? b
  let c ← hexDigit? c
  let d ← hexDigit? d
  some (a * 4096 + b * 256 + c * 16 + d)

/-- The character that a backslash and a letter stand for. -/
def shortEscape? (c : Char) : Option Char :=
  if c = '"' then some '"'
  else if c = '\\' then some '\\'
  else if c = '/' then some '/'
  else if c = 'b' then some '\x08'
  else if c = 'f' then some '\x0c'
  else if c = 'n' then some '\n'
  else if c = 'r' then some '\r'
  else if c = 't' then some '\t'
  else none

/-- The code points and code units that a string spells after its opening quote, and the text behind
its closing quote. -/
def stringBody? : Text → Option (List Nat × Text)
  | [] => none
  | '"' :: rest => some ([], rest)
  | '\\' :: 'u' :: a :: b :: c :: d :: rest =>
      match hexUnit? a b c d with
      | none => none
      | some n => (stringBody? rest).map fun (codes, rest) => (n :: codes, rest)
  | '\\' :: e :: rest =>
      match shortEscape? e with
      | none => none
      | some c => (stringBody? rest).map fun (codes, rest) => (c.toNat :: codes, rest)
  | c :: rest =>
      if c.toNat < 0x20 ∨ c = '\\' then none
      else (stringBody? rest).map fun (codes, rest) => (c.toNat :: codes, rest)

/-- The code unit opens a surrogate pair. -/
def isHigh (n : Nat) : Bool := 0xD800 ≤ n && n ≤ 0xDBFF

/-- The code unit closes a surrogate pair. -/
def isLow (n : Nat) : Bool := 0xDC00 ≤ n && n ≤ 0xDFFF

/-- Put a code point in front of others; two halves of a surrogate pair become one code point. -/
def joinPair (n : Nat) : List Nat → List Nat
  | [] => [n]
  | m :: rest =>
      if isHigh n && isLow m then (0x10000 + (n - 0xD800) * 0x400 + (m - 0xDC00)) :: rest
      else n :: m :: rest

/-- The string of given code points and code units. -/
def stringOf (units : List Nat) : JsonString :=
  let codes := units.foldr joinPair []
  if codes.all fun n => !(isHigh n || isLow n) then .text (codes.map Char.ofNat) else .broken codes

def string? (text : Text) : Option (JsonString × Text) :=
  (stringBody? text).map fun (units, rest) => (stringOf units, rest)

/-! ### Numbers -/

/-- The digits at the front of a text, at least one, and the rest. -/
def digits? (text : Text) : Option (Text × Text) :=
  let digits := text.takeWhile Char.isDigit
  if digits.isEmpty then none else some (digits, text.dropWhile Char.isDigit)

/-- An integral part at the front of a text: zero, or digits that do not begin with zero. -/
def integral? (text : Text) : Option (Text × Text) :=
  match digits? text with
  | none => none
  | some (digits, rest) =>
      if digits.head? = some '0' && digits.length != 1 then none else some (digits, rest)

def fraction? : Text → Option (Text × Text)
  | '.' :: text => (digits? text).map fun (digits, rest) => ('.' :: digits, rest)
  | text => some ([], text)

/-- The sign of an exponent, if there is one. -/
def exponentSign : Text → Text × Text
  | '+' :: text => (['+'], text)
  | '-' :: text => (['-'], text)
  | text => ([], text)

def exponent? : Text → Option (Text × Text)
  | [] => some ([], [])
  | e :: text =>
      if e = 'e' || e = 'E' then
        let (sign, text) := exponentSign text
        (digits? text).map fun (digits, rest) => (e :: sign ++ digits, rest)
      else some ([], e :: text)

/-- A number without its sign at the front of a text. -/
def unsigned? (text : Text) : Option (Json × Text) := do
  let (digits, text) ← integral? text
  let (fraction, text) ← fraction? text
  let (exponent, text) ← exponent? text
  if fraction.isEmpty && exponent.isEmpty then some (nat (Text.toNat digits), text)
  else some (number (digits ++ fraction ++ exponent), text)

/-- A number with a minus sign in front of it. -/
def negate : Json → Json
  | nat n => number ('-' :: Text.ofNat n)
  | number source => number ('-' :: source)
  | value => value

def number? : Text → Option (Json × Text)
  | '-' :: text => (unsigned? text).map fun (value, rest) => (negate value, rest)
  | text => unsigned? text

/-! ### Values -/

mutual

/-- A value at the front of a text.  Each step below consumes something, so the length of the text
bounds their number. -/
def readValue? : (fuel : Nat) → Text → Option (Json × Text)
  | 0, _ => none
  | fuel + 1, text =>
      match skip text with
      | 'n' :: 'u' :: 'l' :: 'l' :: rest => some (null, rest)
      | 't' :: 'r' :: 'u' :: 'e' :: rest => some (bool true, rest)
      | 'f' :: 'a' :: 'l' :: 's' :: 'e' :: rest => some (bool false, rest)
      | '"' :: rest => (string? rest).map fun (s, rest) => (str s, rest)
      | '[' :: rest =>
          match skip rest with
          | ']' :: rest => some (arr [], rest)
          | rest => (readItems? fuel rest).map fun (items, rest) => (arr items, rest)
      | '{' :: rest =>
          match skip rest with
          | '}' :: rest => some (obj [], rest)
          | rest => (readMembers? fuel rest).map fun (members, rest) => (obj members, rest)
      | rest => number? rest

/-- The items of an array that is not empty, up to its closing bracket. -/
def readItems? : (fuel : Nat) → Text → Option (List Json × Text)
  | 0, _ => none
  | fuel + 1, text =>
      match readValue? fuel text with
      | none => none
      | some (item, rest) =>
          match skip rest with
          | ',' :: rest => (readItems? fuel rest).map fun (items, rest) => (item :: items, rest)
          | ']' :: rest => some ([item], rest)
          | _ => none

/-- The members of an object that is not empty, up to its closing brace. -/
def readMembers? : (fuel : Nat) → Text → Option (List (JsonString × Json) × Text)
  | 0, _ => none
  | fuel + 1, text =>
      match skip text with
      | '"' :: rest =>
          match string? rest with
          | none => none
          | some (key, rest) =>
              match skip rest with
              | ':' :: rest =>
                  match readValue? fuel rest with
                  | none => none
                  | some (value, rest) =>
                      match skip rest with
                      | ',' :: rest =>
                          (readMembers? fuel rest).map fun (members, rest) =>
                            ((key, value) :: members, rest)
                      | '}' :: rest => some ([(key, value)], rest)
                      | _ => none
              | _ => none
      | _ => none

end

def parse? (text : Text) : Option Json :=
  match readValue? (text.length + 1) text with
  | none => none
  | some (value, rest) => if (skip rest).isEmpty then some value else none

end Json

end Transcript
