/-
**What the window stands for.**

The window drops fragments that are no longer needed to reach the upper bound of a cue, so its weight
may be less than that of the text since the last tag.  Below the upper bound nothing is dropped, and
where the bounds are in order this is enough: an input is refused exactly if the whole text since the
last tag weighs less than the lower bound, and then the weight that is reported is that of the text.

Main definitions:

* `Transcript.CueWindow.Covers` — the window stands for fragments of a given weight;
* `Transcript.Fragment.cueWeight` — the weight of the fragments since the last tag.

Main results:

* `Transcript.CueWindow.Covers.push` — adding a fragment;
* `Transcript.Build.Weighed.of_grows` — the window of a build stands for its fragments;
* `Transcript.Build.of?_schedule` — **when an input is refused**.
-/

import Transcript.Proofs.Compile.Step

set_option relaxedAutoImplicit false
set_option autoImplicit false

namespace Transcript

namespace CueWindow

/-- Dropping entries leaves at least what is to be kept. -/
theorem weight_trim (keep : Nat) (entries : List CueEntry) :
    ∀ weight, (trim keep entries weight).weight = weight ∨
      (keep ≤ (trim keep entries weight).weight ∧ (trim keep entries weight).weight ≤ weight) := by
  induction entries with
  | nil => exact fun weight => Or.inl rfl
  | cons entry rest ih =>
      intro weight
      unfold trim
      by_cases hkeep : weight - entry.weight < keep
      · rw [if_pos hkeep]
        exact Or.inl rfl
      · rw [if_neg hkeep]
        rcases ih (weight - entry.weight) with h | h <;> omega

/-- The window stands for fragments that weigh `total` together: it is as heavy as they are, or it
reaches the upper bound. -/
structure Covers (range : CueRange) (window : CueWindow) (total : Nat) : Prop where
  le : window.weight ≤ total
  eq_or_le : window.weight = total ∨ range.max ≤ window.weight

variable {range : CueRange} {window : CueWindow} {total : Nat}

theorem covers_empty (range : CueRange) : Covers range empty 0 where
  le := Nat.le_refl _
  eq_or_le := Or.inl rfl

theorem Covers.push (h : Covers range window total) (entry : CueEntry) :
    Covers range (window.push range entry) (total + entry.weight) := by
  obtain ⟨hle, heq⟩ := h
  have htrim := weight_trim range.max (window.entries ++ [entry]) (window.weight + entry.weight)
  constructor <;> unfold CueWindow.push <;> omega

/-- There is no cue exactly if the fragments weigh less than the lower bound. -/
theorem Covers.cue?_eq_none_iff (h : Covers range window total) (hrange : range.min ≤ range.max) :
    window.cue? range = none ↔ total < range.min := by
  obtain ⟨hle, heq⟩ := h
  unfold cue?
  by_cases hlight : window.weight < range.min
  · simp only [if_pos hlight, true_iff]
    omega
  · simp only [if_neg hlight, reduceCtorEq, false_iff]
    omega

/-- Fragments that weigh less than the lower bound are all in the window. -/
theorem Covers.weight_eq (h : Covers range window total) (hrange : range.min ≤ range.max)
    (hlight : total < range.min) : window.weight = total := by
  obtain ⟨hle, heq⟩ := h
  omega

end CueWindow

namespace Fragment

/-- The weight of the fragments since the last one that a cue does not reach back over. -/
def cueWeight (fragments : List Fragment) : Nat :=
  fragments.foldl (fun weight f => if f.resetsCue then 0 else weight + f.weight) 0

@[simp] theorem cueWeight_concat (fragments : List Fragment) (f : Fragment) :
    cueWeight (fragments ++ [f]) = if f.resetsCue then 0 else cueWeight fragments + f.weight := by
  simp [cueWeight]

end Fragment

namespace Build

open Fragment
open CompileError (of?)

variable {config : Config} {b b' : Build}

/-- The window stands for the fragments since the last tag. -/
def Weighed (config : Config) (b : Build) : Prop :=
  b.window.Covers config.cueRange (cueWeight b.fragments.toList)

theorem weighed_start (config : Config) : Weighed config start := CueWindow.covers_empty _

theorem Weighed.emit (h : Weighed config b) (f : Fragment) :
    Weighed config (b.emit config.cueRange f) := by
  rw [Weighed, fragments_emit, Array.toList_push, cueWeight_concat, Build.emit]
  cases hreset : f.resetsCue with
  | true => exact CueWindow.covers_empty _
  | false => exact CueWindow.Covers.push h f.entry

/-- Whatever is added, the window stands for the fragments since the last tag. -/
theorem Weighed.of_grows (h : Weighed config b) (hgrows : Grows config b b') : Weighed config b' := by
  induction hgrows with
  | refl => exact h
  | emit _ hf ih => exact ih.emit _
  | emitTag _ htag ih =>
      obtain ⟨-, rfl, -⟩ := emitTag_eq_ok htag
      exact ih.emit _

theorem Weighed.of_schedule (h : Weighed config b) {t : Token} (hb : b.schedule config t = .ok b') :
    Weighed config b' := by
  unfold schedule at hb
  cases hcue : b.window.cue? config.cueRange with
  | none => simp [hcue] at hb
  | some cue =>
      simp only [hcue, Except.ok.injEq] at hb
      rw [← hb]
      exact h

/-- **When an input is refused**: if the text since the last tag weighs less than the lower bound. -/
theorem of?_schedule (h : Weighed config b) (hrange : config.cueRange.min ≤ config.cueRange.max)
    (t : Token) :
    of? (b.schedule config t) =
      if cueWeight b.fragments.toList < config.cueRange.min then
        some (.insufficientCue t.offset (cueWeight b.fragments.toList) config.cueRange.min)
      else none := by
  unfold schedule
  by_cases hlight : cueWeight b.fragments.toList < config.cueRange.min
  · rw [(CueWindow.Covers.cue?_eq_none_iff h hrange).2 hlight, if_pos hlight,
      ← CueWindow.Covers.weight_eq h hrange hlight]
    rfl
  · rw [if_neg hlight]
    cases hcue : b.window.cue? config.cueRange with
    | none => exact absurd ((CueWindow.Covers.cue?_eq_none_iff h hrange).1 hcue) hlight
    | some cue => rfl

end Build

end Transcript
