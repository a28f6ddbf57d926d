/-
**JSON values.**

Objects keep the order of their members and repeated keys.  A string may spell a surrogate code
point without its partner, which no text represents; such a string is kept as its code points.

Main definitions:

* `Transcript.Json` — values;
* `Transcript.JsonString` — strings, with those that no text represents.
-/

import Transcript.Text.Basic

set_option relaxedAutoImplicit false
set_option autoImplicit false

namespace Transcript

inductive JsonString
  /-- a text -/
  | text (text : Text)
  /-- code points among which a surrogate stands without its partner -/
  | broken (codes : List Nat)
  deriving Repr, DecidableEq

inductive Json
  | null
  | bool (value : Bool)
  /-- a number written with digits only -/
  | nat (value : Nat)
  /-- any other number, as it is written -/
  | number (source : Text)
  | str (value : JsonString)
  | arr (items : List Json)
  | obj (members : List (JsonString × Json))
  deriving Repr

namespace Json

def ofText (text : Text) : Json := .str (.text text)

/-- An object whose keys are given as literals. -/
def record (members : List (String × Json)) : Json :=
  .obj (members.map fun (key, value) => (.text key.toList, value))

/-- A value that may be missing. -/
def ofOption {α : Type} (encode : α → Json) : Option α → Json
  | none => null
  | some a => encode a

def ofList {α : Type} (encode : α → Json) (items : List α) : Json := .arr (items.map encode)

def bool? : Json → Option Bool
  | bool value => some value
  | _ => none

/-- The number, if it is written with digits only. -/
def nat? : Json → Option Nat
  | nat value => some value
  | _ => none

/-- The text, if it is a string that a text represents. -/
def text? : Json → Option Text
  | str (.text text) => some text
  | _ => none

def items? : Json → Option (List Json)
  | arr items => some items
  | _ => none

/-- The texts of an array of strings. -/
def texts? : Json → Option (List Text)
  | arr items => items.mapM text?
  | _ => none

/-- The values under a key, in their order. -/
def valuesAt (key : Text) (members : List (JsonString × Json)) : List Json :=
  members.filterMap fun (k, value) => if k = .text key then some value else none

/-- The value under a key of an object; of several, the last one. -/
def get? (key : String) : Json → Option Json
  | obj members => (valuesAt key.toList members).getLast?
  | _ => none

end Json

end Transcript
