/-
**The cue of an input.**

Before text is typed, enough of the output in front of it must have been recognised.  A window keeps
the fragments since the last tag with their weights; the cue of an input is the shortest run of
newest fragments that reaches the upper bound of a range, or the whole window if it is lighter.

Main definitions:

* `Transcript.CueRange` — the bounds of the weight of a cue;
* `Transcript.CueWindow` — the fragments since the last tag, the oldest of them dropped when they
  are no longer needed to reach the upper bound;
* `Transcript.CueWindow.cue?` — the cue of an input that comes next.
-/

import Transcript.Markup.Error

set_option relaxedAutoImplicit false
set_option autoImplicit false

namespace Transcript

/-! ### Bounds -/

/-- The least weight that must precede an input, and the weight beyond which a cue does not grow. -/
structure CueRange where
  min : Nat
  max : Nat
  deriving Repr, DecidableEq

namespace CueRange

def standard : CueRange := ⟨6, 12⟩

/-- The range between two bounds, which must be in order. -/
def ofBounds (min max : Nat) : Except ConfigError CueRange :=
  if min > max then .error (.invalidRange min max) else .ok ⟨min, max⟩

end CueRange

/-! ### The window -/

/-- A fragment in the window: where it comes from, its source and its weight. -/
structure CueEntry where
  offset : Nat
  pattern : Text
  weight : Nat
  deriving Repr, DecidableEq

/-- The fragments kept, the oldest first, with their total weight. -/
structure CueWindow where
  entries : List CueEntry
  weight : Nat
  deriving Repr, DecidableEq

/-- The cue of an input: where its oldest fragment comes from, its source and its weight. -/
structure Cue where
  offset : Option Nat
  pattern : Text
  weight : Nat
  deriving Repr, DecidableEq

namespace CueWindow

def empty : CueWindow := ⟨[], 0⟩

def total : List CueEntry → Nat
  | [] => 0
  | entry :: rest => entry.weight + total rest

/-- Drop the oldest entries as long as the others weigh at least `keep`. -/
def trim (keep : Nat) : List CueEntry → (weight : Nat) → CueWindow
  | [], weight => ⟨[], weight⟩
  | entry :: rest, weight =>
      if weight - entry.weight < keep then ⟨entry :: rest, weight⟩
      else trim keep rest (weight - entry.weight)

/-- Add a fragment, and drop the oldest ones that are no longer needed to reach the upper bound. -/
def push (range : CueRange) (window : CueWindow) (entry : CueEntry) : CueWindow :=
  trim range.max (window.entries ++ [entry]) (window.weight + entry.weight)

/-- The entries of a list up to the first one at which the total weight, begun at `weight`, reaches
`max`. -/
def takeWeight (max : Nat) : (weight : Nat) → List CueEntry → List CueEntry
  | _, [] => []
  | weight, entry :: rest =>
      if max ≤ weight + entry.weight then [entry]
      else entry :: takeWeight max (weight + entry.weight) rest

/-- The entries that make up a cue, the oldest first. -/
def newest (max : Nat) (entries : List CueEntry) : List CueEntry :=
  (takeWeight max 0 entries.reverse).reverse

/-- The cue of given entries, the oldest first. -/
def join (entries : List CueEntry) : Cue :=
  ⟨entries.head?.map (·.offset), entries.flatMap (·.pattern), total entries⟩

/-- The cue of an input that comes next, unless the window is lighter than the lower bound. -/
def cue? (range : CueRange) (window : CueWindow) : Option Cue :=
  if window.weight < range.min then none else some (join (newest range.max window.entries))

end CueWindow

end Transcript
