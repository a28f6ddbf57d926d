/-
**Following an expression.**

All the ways in which an expression may match are followed side by side, one character at a time.  A
thread is a way that waits for the next character.  The threads at a position are found by going
through the expression up to the characters that may come next, and they are kept in the order of
preference.

What is left to match at a point of the expression depends on the point alone.  So a choice or a
repetition that was reached once at a position is not followed again there: whatever could be found
behind it is found, and is preferred, on the way that reached it first.  This bounds the number of
threads, and it ends a repetition whose rounds are empty.

Main definitions:

* `Transcript.Point` — a point of an expression;
* `Transcript.Trail` — what a way has passed;
* `Transcript.Thread` — a way that waits for the next character;
* `Transcript.Front` — what is reached at a position;
* `Transcript.Regex.explore`, `Transcript.Point.explore` — going through an expression at a
  position;
* `Transcript.Front.advance` — from the threads at a position to the front one character further.
-/

import Transcript.Regex.Cursor

set_option relaxedAutoImplicit false
set_option autoImplicit false

namespace Transcript

/-! ### Points -/

/-- A point of an expression: what is left to match there, the next part first.  Each part stands
beside the number of the parts from it on, by which most points are told apart at once. -/
inductive Point
  | done
  | next (depth : Nat) (part : Regex) (rest : Point)
  deriving Repr, DecidableEq

namespace Point

def depth : Point → Nat
  | done => 0
  | next depth _ _ => depth

/-- The point before one more part. -/
def push (rest : Point) (part : Regex) : Point := next (rest.depth + 1) part rest

/-- The parts that are left. -/
def parts : Point → List Regex
  | done => []
  | next _ part rest => part :: rest.parts

/-- The point before an expression, whose sequences are taken apart. -/
def before : Regex → Point → Point
  | .seq a b, rest => before a (before b rest)
  | r, rest => rest.push r

theorem parts_push (rest : Point) (part : Regex) : (rest.push part).parts = part :: rest.parts :=
  rfl

end Point

/-! ### Threads -/

/-- What a way through an expression has passed: the position where it began, and the ends of groups
with their positions, the last one first. -/
structure Trail where
  start : Cursor
  marks : List (Mark × Cursor)
  deriving Repr, DecidableEq

def Trail.pass (trail : Trail) (mark : Mark) (cursor : Cursor) : Trail :=
  { trail with marks := (mark, cursor) :: trail.marks }

/-- A way that waits for a character of a class, and what is left to match behind it. -/
structure Thread where
  cls : CharClass
  rest : Point
  trail : Trail
  deriving Repr, DecidableEq

/-- What is reached at a position: the points that were followed, the threads, both with the last
one first, and the way that has matched, which is the least preferred one of all. -/
structure Front where
  seen : List Point
  threads : List Thread
  accepted : Option Trail
  deriving Repr, DecidableEq

namespace Front

def empty : Front := ⟨[], [], none⟩

/-- Follow a point that was not followed before.  Once a way has matched, less preferred ones do not
count. -/
def visit (front : Front) (point : Point) (follow : Front → Front) : Front :=
  if front.accepted.isSome || front.seen.contains point then front
  else follow { front with seen := point :: front.seen }

/-- Add a thread, unless a way that is preferred to it has matched. -/
def push (front : Front) (thread : Thread) : Front :=
  if front.accepted.isSome then front else { front with threads := thread :: front.threads }

/-- Nothing is left to match: the way has matched, unless one that is preferred to it has. -/
def accept (trail : Trail) (front : Front) : Front :=
  if front.accepted.isSome then front else { front with accepted := some trail }

end Front

/-! ### Going through an expression -/

namespace Regex

/-- Go through an expression at a position; `rest` is what is left behind it, and `follow` goes
through that.  A repetition inside its own round is a point already reached, so a round that
consumes nothing leads to no further round. -/
def explore (cursor : Cursor) :
    Regex → (rest : Point) → (follow : Trail → Front → Front) → Trail → Front → Front
  | empty, _, follow, trail, front => follow trail front
  | char cls, rest, _, trail, front => front.push ⟨cls, rest, trail⟩
  | seq a b, rest, follow, trail, front =>
      explore cursor a (rest.push b) (explore cursor b rest follow) trail front
  | alt a b, rest, follow, trail, front =>
      front.visit (rest.push (alt a b)) fun front =>
        explore cursor b rest follow trail (explore cursor a rest follow trail front)
  | star a greedy, rest, follow, trail, front =>
      front.visit (rest.push (star a greedy)) fun front =>
        if greedy then
          follow trail
            (explore cursor a (rest.push (star a greedy)) (fun _ front => front) trail front)
        else
          explore cursor a (rest.push (star a greedy)) (fun _ front => front) trail
            (follow trail front)
  | plus a greedy, rest, follow, trail, front =>
      explore cursor a (rest.push (star a greedy))
        (fun trail front => front.visit (rest.push (star a greedy)) (follow trail)) trail front
  | mark m, _, follow, trail, front => follow (trail.pass m cursor) front
  | assert assertion, _, follow, trail, front =>
      if assertion.holds cursor then follow trail front else front

end Regex

/-- Go through what is left to match at a point. -/
def Point.explore (cursor : Cursor) : Point → Trail → Front → Front
  | done => Front.accept
  | next _ part rest => part.explore cursor rest (explore cursor rest)

/-! ### One character further -/

/-- The front behind a character, from the threads that wait for it in the order of preference. -/
def Front.advance (threads : List Thread) (c : Char) (cursor : Cursor) : Front :=
  threads.foldl
    (fun front thread =>
      if thread.cls.contains c then thread.rest.explore cursor thread.trail front else front)
    Front.empty

end Transcript
