/-
**Text as a list of characters.**

Expected transcripts, outputs and the programs compiled from them are lists of characters.  Offsets
count characters; `byteLength` and `byteOffset` convert them to positions in UTF-8.

Main definitions:

* `Transcript.Text` — a list of characters;
* `Transcript.Text.byteLength`, `Transcript.Text.byteOffset` — sizes and positions in UTF-8;
* `Transcript.Text.trimNewlines` — a text without the newlines at its end;
* `Transcript.Text.remove` — a text without the occurrences of a needle;
* `Transcript.Text.ofNat`, `Transcript.Text.toNat` — the decimal digits of a number, and back.

Main results:

* `Transcript.Text.byteLength_append` — the size of two texts together.
-/

set_option relaxedAutoImplicit false
set_option autoImplicit false

namespace Transcript

/-- A text is the list of its characters. -/
abbrev Text := List Char

namespace Text

/-! ### Positions in UTF-8 -/

/-- The number of bytes of a text in UTF-8. -/
def byteLength : Text → Nat
  | [] => 0
  | c :: text => c.utf8Size + byteLength text

/-- The byte at which the character numbered `offset` of a text begins. -/
def byteOffset (text : Text) (offset : Nat) : Nat := byteLength (text.take offset)

theorem byteLength_append (s t : Text) : byteLength (s ++ t) = byteLength s + byteLength t := by
  induction s with
  | nil => simp [byteLength]
  | cons c s ih => simp [byteLength, ih]; omega

/-! ### Cutting -/

def trimNewlines : Text → Text
  | [] => []
  | c :: text =>
      match trimNewlines text with
      | [] => if c = '\n' then [] else [c]
      | d :: rest => c :: d :: rest

/-- The text left when the occurrences of `needle` are taken out, the first characters `skip` of the
text being part of an occurrence already found. -/
def removeFrom (needle : Text) : Nat → Text → Text
  | _, [] => []
  | skip + 1, _ :: text => removeFrom needle skip text
  | 0, c :: text =>
      if needle.isPrefixOf (c :: text) then removeFrom needle (needle.length - 1) text
      else c :: removeFrom needle 0 text

/-- A text without the occurrences of `needle`, found from left to right without overlaps.  The
empty needle occurs nowhere. -/
def remove (needle text : Text) : Text :=
  if needle = [] then text else removeFrom needle 0 text

/-! ### Numbers -/

/-- The number of values of 64 bits. -/
def wordLimit : Nat := 0x10000000000000000

def ofNat (n : Nat) : Text := Nat.toDigits 10 n

def toNat (digits : Text) : Nat :=
  digits.foldl (fun n c => 10 * n + (c.toNat - '0'.toNat)) 0

/-- A text without a plus sign in front. -/
def dropPlus : Text → Text
  | '+' :: text => text
  | text => text

/-- The number that a text spells in decimal digits, a plus sign in front of them being allowed, if
it fits into 64 bits. -/
def toWord? (text : Text) : Option Nat :=
  let digits := dropPlus text
  if digits ≠ [] ∧ digits.all Char.isDigit ∧ toNat digits < wordLimit then some (toNat digits)
  else none

end Text

end Transcript
