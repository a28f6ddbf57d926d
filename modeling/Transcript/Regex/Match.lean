/-
**Searching.**

The leftmost match of an expression in a text, and among the matches that begin there the preferred
one.  The threads of all positions are followed together; those that began further left are
preferred.

Main definitions:

* `Transcript.Match` — a match with its groups;
* `Transcript.Regex.search`, `Transcript.Regex.isMatch` — the leftmost match;
* `Transcript.Regex.findAll` — the successive matches, which do not overlap.
-/

import Transcript.Regex.Front

set_option relaxedAutoImplicit false
set_option autoImplicit false

namespace Transcript

/-- A match: the span of the whole, and the ends of groups that were passed, the last one first. -/
structure Match where
  span : Span
  marks : List (Mark × Cursor)
  deriving Repr, DecidableEq

/-- The span of a group, if it took part; the last time counts. -/
def Match.group? (m : Match) (name : Text) : Option Span :=
  match m.marks.lookup (.opening name), m.marks.lookup (.closing name) with
  | some start, some stop => some ⟨start, stop⟩
  | _, _ => none

/-- The match of the way that has matched at a position, if there is one. -/
def Front.match? (front : Front) (cursor : Cursor) : Option Match :=
  front.accepted.map fun trail => ⟨⟨trail.start, cursor⟩, trail.marks⟩

namespace Regex

/-! ### The leftmost match -/

/-- Follow the threads through the text that begins at `offset`.  Every thread is preferred to the
match `found`; while there is none, a match may begin at any position, at the point `first`. -/
def scan (first : Point) :
    (threads : List Thread) → (found : Option Match) → (offset : Nat) → (after : Text) → Option Match
  | _, found, _, [] => found
  | threads, some m, offset, c :: after =>
      if threads.isEmpty then some m
      else
        let cursor : Cursor := ⟨offset + 1, some c, after⟩
        let front := Front.advance threads c cursor
        scan first front.threads.reverse ((front.match? cursor).or (some m)) (offset + 1) after
  | threads, none, offset, c :: after =>
      let cursor : Cursor := ⟨offset + 1, some c, after⟩
      let front := first.explore cursor ⟨cursor, []⟩ (Front.advance threads c cursor)
      scan first front.threads.reverse (front.match? cursor) (offset + 1) after

def searchFrom (r : Regex) (cursor : Cursor) : Option Match :=
  let first := Point.done.before r
  let front := first.explore cursor ⟨cursor, []⟩ Front.empty
  scan first front.threads.reverse (front.match? cursor) cursor.offset cursor.after

def search (r : Regex) (text : Text) : Option Match := r.searchFrom (Cursor.start text)

def isMatch (r : Regex) (text : Text) : Bool := (r.search text).isSome

/-! ### Successive matches -/

/-- The next match after one that ended at `cursor`.  An empty match at `cursor` itself is passed
over. -/
def searchAfter (r : Regex) (cursor : Cursor) : Option Match :=
  match r.searchFrom cursor with
  | none => none
  | some m =>
      if m.span.stop.offset = cursor.offset then
        match cursor.next? with
        | none => none
        | some (_, next) => r.searchFrom next
      else some m

/-- The match `found` and the ones after it, at most `fuel` of them. -/
def collect (r : Regex) : (fuel : Nat) → (found : Option Match) → List Match
  | 0, _ => []
  | _ + 1, none => []
  | fuel + 1, some m => m :: collect r fuel (r.searchAfter m.span.stop)

/-- The successive matches in a text, which do not overlap.  Each ends further right than the one
before it, so there are at most as many as the text has positions. -/
def findAll (r : Regex) (text : Text) : List Match := r.collect (text.length + 1) (r.search text)

end Regex

end Transcript
