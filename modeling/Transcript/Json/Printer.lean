/-
**Writing JSON.**

Main definitions:

* `Transcript.Json.escapeChar` — a character inside a string;
* `Transcript.Json.compact` — a value on one line without spaces;
* `Transcript.Json.pretty` — a value over several lines, indented by two spaces.
-/

import Transcript.Json.Basic

set_option relaxedAutoImplicit false
set_option autoImplicit false

namespace Transcript

namespace Json

/-! ### Strings -/

/-- A code unit as an escape of four hexadecimal digits. -/
def escapeUnit (n : Nat) : Text :=
  let digits := Nat.toDigits 16 n
  ['\\', 'u'] ++ List.replicate (4 - digits.length) '0' ++ digits

/-- A character inside a string.  Quotes, backslashes and control characters are escaped. -/
def escapeChar (c : Char) : Text :=
  if c = '"' then ['\\', '"']
  else if c = '\\' then ['\\', '\\']
  else if c = '\x08' then ['\\', 'b']
  else if c = '\x0c' then ['\\', 'f']
  else if c = '\n' then ['\\', 'n']
  else if c = '\r' then ['\\', 'r']
  else if c = '\t' then ['\\', 't']
  else if c.toNat < 0x20 then escapeUnit c.toNat
  else [c]

/-- A code point inside a string. -/
def escapeCode (n : Nat) : Text :=
  if 0xD800 ≤ n ∧ n ≤ 0xDFFF then escapeUnit n else escapeChar (Char.ofNat n)

def escape : JsonString → Text
  | .text text => text.flatMap escapeChar
  | .broken codes => codes.flatMap escapeCode

def quote (s : JsonString) : Text := '"' :: escape s ++ ['"']

/-! ### Values -/

def commas : List Text → Text
  | [] => []
  | [part] => part
  | part :: rest => part ++ ',' :: commas rest

mutual

/-- A value on one line without spaces. -/
def compact : Json → Text
  | null => "null".toList
  | bool true => "true".toList
  | bool false => "false".toList
  | nat n => Text.ofNat n
  | number source => source
  | str s => quote s
  | arr items => '[' :: commas (compactItems items) ++ [']']
  | obj members => '{' :: commas (compactMembers members) ++ ['}']

def compactItems : List Json → List Text
  | [] => []
  | item :: rest => compact item :: compactItems rest

def compactMembers : List (JsonString × Json) → List Text
  | [] => []
  | (key, value) :: rest => (quote key ++ ':' :: compact value) :: compactMembers rest

end

/-- A new line at a depth of indentation. -/
def newLine (depth : Nat) : Text := '\n' :: List.replicate (2 * depth) ' '

/-- The parts, each on a line of its own, in brackets; empty brackets stay together. -/
def block (opening closing : Char) (depth : Nat) (parts : List Text) : Text :=
  if parts.isEmpty then [opening, closing]
  else
    opening :: commas (parts.map (newLine (depth + 1) ++ ·)) ++ newLine depth ++ [closing]

mutual

/-- A value over several lines, which begins at a depth of indentation. -/
def prettyAt (depth : Nat) : Json → Text
  | arr items => block '[' ']' depth (prettyItems (depth + 1) items)
  | obj members => block '{' '}' depth (prettyMembers (depth + 1) members)
  | null => compact null
  | bool value => compact (bool value)
  | nat n => compact (nat n)
  | number source => compact (number source)
  | str s => compact (str s)

def prettyItems (depth : Nat) : List Json → List Text
  | [] => []
  | item :: rest => prettyAt depth item :: prettyItems depth rest

def prettyMembers (depth : Nat) : List (JsonString × Json) → List Text
  | [] => []
  | (key, value) :: rest =>
      (quote key ++ ':' :: ' ' :: prettyAt depth value) :: prettyMembers depth rest

end

/-- A value over several lines. -/
def pretty (value : Json) : Text := prettyAt 0 value

end Json

end Transcript
