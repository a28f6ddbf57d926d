/-
**What a window may forget.**

The window drops its oldest entries as soon as the others are heavy enough without them, and never looks
at them again.  This loses nothing: whatever was added to it and however often it was emptied, the cue that
it gives is the one that all entries since it was last emptied would give, had they been kept.

Main definitions:

* `Transcript.CueWindow.Use` — what is done with a window;
* `Transcript.CueWindow.behind` — the window behind given uses;
* `Transcript.CueWindow.history` — all entries since the window was last emptied;
* `Transcript.CueWindow.shortest` — the shortest run of newest entries that reaches a bound.

Main results:

* `Transcript.CueWindow.Keeps.use`, `Transcript.CueWindow.keeps_behind` — one use, and many of them;
* `Transcript.CueWindow.Keeps.entries_eq` — the window holds the shortest run that is needed;
* `Transcript.CueWindow.cue?_behind` — **the window may forget what it forgets**.
-/

import Mathlib.Data.List.Infix
import Transcript.Proofs.Compile.Cues
import Transcript.Proofs.Compile.Workspace

set_option relaxedAutoImplicit false
set_option autoImplicit false

namespace Transcript

namespace CueWindow

/-! ### Uses of a window -/

/-- What is done with a window. -/
inductive Use
  | push (entry : CueEntry)
  | clear
  deriving Repr, DecidableEq

/-- A window is used once. -/
def use (range : CueRange) (window : CueWindow) : Use → CueWindow
  | .push entry => window.push range entry
  | .clear => empty

/-- A window is used once; there is no result if an entry is heavier than what the window is said to
weigh. -/
def use? (range : CueRange) (window : CueWindow) : Use → Option CueWindow
  | .push entry => window.push? range entry
  | .clear => some empty

/-- The window behind uses of one that keeps nothing at first. -/
def behind (range : CueRange) (uses : List Use) : CueWindow := uses.foldl (use range) empty

/-- The entries after one more use, if none is forgotten. -/
def remember (all : List CueEntry) : Use → List CueEntry
  | .push entry => all ++ [entry]
  | .clear => []

/-- All entries since the window was last emptied. -/
def history (uses : List Use) : List CueEntry := uses.foldl remember []

/-- The shortest run of newest entries that weighs at least `max`, or all entries if they are lighter. -/
def shortest (max : Nat) (all : List CueEntry) : List CueEntry :=
  (all.tails.reverse.find? fun run => max ≤ total run).getD all

/-! ### The shortest run -/

section Shortest

variable {max : Nat} {all run : List CueEntry}

theorem total_le_of_suffix (h : run <:+ all) : total run ≤ total all := by
  obtain ⟨older, rfl⟩ := h
  rw [total_append]
  exact Nat.le_add_left ..

theorem shortest_nil (max : Nat) : shortest max [] = [] := by
  rw [shortest, List.tails, List.reverse_singleton, List.find?_singleton]
  split <;> rfl

/-- An entry is in the run if the newer ones do not reach the bound. -/
theorem shortest_cons (max : Nat) (entry : CueEntry) (all : List CueEntry) :
    shortest max (entry :: all) = if max ≤ total all then shortest max all else entry :: all := by
  have hfind : (entry :: all).tails.reverse = all.tails.reverse ++ [entry :: all] := by simp
  rw [shortest, hfind, List.find?_append]
  by_cases hheavy : max ≤ total all
  · -- all newer entries together are a run that is heavy enough
    obtain ⟨run, hrun⟩ : ∃ run, all.tails.reverse.find? (fun run => max ≤ total run) = some run := by
      rw [← Option.isSome_iff_exists, List.find?_isSome]
      exact ⟨all, by simp, by simpa using hheavy⟩
    rw [if_pos hheavy, shortest, hrun]
    rfl
  · have hnone : all.tails.reverse.find? (fun run => max ≤ total run) = none := by
      rw [List.find?_eq_none]
      intro run hrun
      have hle := total_le_of_suffix ((List.mem_tails run all).1 (List.mem_reverse.1 hrun))
      simp only [decide_eq_true_eq]
      omega
    rw [if_neg hheavy, hnone, Option.none_or, List.find?_singleton]
    split <;> rfl

/-- Older entries do not matter if the newer ones reach the bound. -/
theorem shortest_append (older : List CueEntry) (h : max ≤ total all) :
    shortest max (older ++ all) = shortest max all := by
  induction older with
  | nil => rfl
  | cons entry older ih =>
      have hheavy : max ≤ total (older ++ all) := h.trans (total_le_of_suffix ⟨older, rfl⟩)
      rw [List.cons_append, shortest_cons, if_pos hheavy, ih]

end Shortest

/-! ### What the window holds -/

variable {range : CueRange} {window : CueWindow} {all : List CueEntry}

/-- The window holds the shortest run that is needed. -/
theorem Keeps.entries_eq (h : Keeps range window all) :
    window.entries = shortest range.max all := by
  have hall : shortest range.max window.entries = window.entries := by
    cases hentries : window.entries with
    | nil => exact shortest_nil range.max
    | cons entry rest =>
        rw [shortest_cons, if_neg (Nat.not_le_of_lt (h.rest_lt entry rest hentries))]
  obtain ⟨dropped, rfl, rfl | hheavy⟩ := h.suffix
  · exact hall.symm
  · rw [shortest_append dropped hheavy, hall]

/-- Entries that are too light for the bound are all held. -/
theorem Keeps.weight_eq_total (h : Keeps range window all) (hlight : total all < range.max) :
    window.weight = total all := by
  obtain ⟨dropped, rfl, rfl | hheavy⟩ := h.suffix
  · rw [h.weight_eq, List.nil_append]
  · have hle : total window.entries ≤ total (dropped ++ window.entries) :=
      total_le_of_suffix ⟨dropped, rfl⟩
    omega

/-- The window is too light for a cue exactly if all entries are. -/
theorem Keeps.weight_lt_iff (h : Keeps range window all) (hrange : range.min ≤ range.max) :
    window.weight < range.min ↔ total all < range.min := by
  obtain ⟨dropped, rfl, rfl | hheavy⟩ := h.suffix
  · rw [h.weight_eq, List.nil_append]
  · have hle : total window.entries ≤ total (dropped ++ window.entries) :=
      total_le_of_suffix ⟨dropped, rfl⟩
    rw [h.weight_eq]
    omega

/-- **One use** of a window that holds what is needed. -/
theorem Keeps.use (h : Keeps range window all) (u : Use) :
    Keeps range (window.use range u) (remember all u) := by
  cases u with
  | push entry => exact h.push entry
  | clear => exact keeps_empty range

theorem Keeps.use? (h : Keeps range window all) (u : Use) :
    window.use? range u = some (window.use range u) := by
  cases u with
  | push entry => exact push?_eq h.weight_eq range entry
  | clear => rfl

theorem Keeps.foldl (h : Keeps range window all) (uses : List Use) :
    Keeps range (uses.foldl (CueWindow.use range) window) (uses.foldl remember all) ∧
      uses.foldlM (CueWindow.use? range) window = some (uses.foldl (CueWindow.use range) window) := by
  induction uses generalizing window all with
  | nil => exact ⟨h, rfl⟩
  | cons u uses ih =>
      obtain ⟨hkeeps, hchecked⟩ := ih (h.use u)
      refine ⟨hkeeps, ?_⟩
      rw [List.foldlM_cons, h.use? u]
      exact hchecked

/-- Behind any uses, the window holds what is needed of all entries. -/
theorem keeps_behind (range : CueRange) (uses : List Use) :
    Keeps range (behind range uses) (history uses) :=
  ((keeps_empty range).foldl uses).1

/-- **The window may forget what it forgets.**  No weight is ever subtracted from a smaller one, and the
weight of the window is that of the entries it holds.  The cue is the one of all entries since the window
was last emptied: there is none if they weigh less than the lower bound, and else it is the shortest run of
the newest ones that reaches the upper bound, or all of them if they do not reach it.  Below the upper
bound, the window weighs what they all weigh. -/
theorem cue?_behind (hrange : range.min ≤ range.max) (uses : List Use) :
    uses.foldlM (CueWindow.use? range) empty = some (behind range uses) ∧
      (behind range uses).weight = total (behind range uses).entries ∧
      (behind range uses).cue? range =
        (if total (history uses) < range.min then none
          else some (join (shortest range.max (history uses)))) ∧
      (total (history uses) < range.max → (behind range uses).weight = total (history uses)) := by
  have hkeeps := keeps_behind range uses
  refine ⟨((keeps_empty range).foldl uses).2, hkeeps.weight_eq, ?_, hkeeps.weight_eq_total⟩
  rw [cue?, hkeeps.newest_eq, ← hkeeps.entries_eq]
  simp only [hkeeps.weight_lt_iff hrange]

/-- Entries without weight at both ends, and a heavy one that was there before the window was emptied. -/
theorem cue?_behind_clear :
    let uses : List Use := [.push ⟨0, "w".toList, 9⟩, .clear, .push ⟨1, "a".toList, 0⟩,
      .push ⟨1, "b".toList, 2⟩, .push ⟨3, "c".toList, 1⟩, .push ⟨4, [], 0⟩, .push ⟨4, "d".toList, 1⟩,
      .push ⟨5, [], 0⟩]
    CueRange.ofBounds 2 3 = .ok ⟨2, 3⟩ ∧ (behind ⟨2, 3⟩ uses).weight = 4 ∧
      (behind ⟨2, 3⟩ uses).cue? ⟨2, 3⟩ = some ⟨some 1, "bcd".toList, 4⟩ := by
  intro uses
  obtain ⟨-, hweight, hcue, -⟩ :=
    cue?_behind (show CueRange.min ⟨2, 3⟩ ≤ CueRange.max ⟨2, 3⟩ by decide) uses
  exact ⟨by decide, hweight.trans (by decide), hcue.trans (by decide)⟩

end CueWindow

end Transcript
