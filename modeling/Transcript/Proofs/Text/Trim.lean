/-
**Newlines at the end of a text.**

Main results:

* `Transcript.Text.exists_trimNewlines` — what is trimmed are newlines;
* `Transcript.Text.getLast?_trimNewlines` — what is left does not end in a newline;
* `Transcript.Text.trimNewlines_append` — nothing else is left.
-/

import Transcript.Text.Basic

set_option relaxedAutoImplicit false
set_option autoImplicit false

namespace Transcript

namespace Text

/-- A newline is trimmed if everything behind it is. -/
theorem trimNewlines_newline {text : Text} (h : trimNewlines text = []) :
    trimNewlines ('\n' :: text) = [] := by
  simp [trimNewlines, h]

/-- A character is kept if something behind it is, or if it is no newline. -/
theorem trimNewlines_cons {c : Char} {text : Text} (h : trimNewlines text ≠ [] ∨ c ≠ '\n') :
    trimNewlines (c :: text) = c :: trimNewlines text := by
  cases htrim : trimNewlines text with
  | nil =>
      have hc : c ≠ '\n' := h.resolve_left (by simp [htrim])
      simp [trimNewlines, htrim, hc]
  | cons d rest => simp [trimNewlines, htrim]

/-- A text is what is left of it and newlines. -/
theorem exists_trimNewlines (text : Text) :
    ∃ k, text = trimNewlines text ++ List.replicate k '\n' := by
  induction text with
  | nil => exact ⟨0, rfl⟩
  | cons c text ih =>
      obtain ⟨k, hk⟩ := ih
      by_cases hkept : trimNewlines text ≠ [] ∨ c ≠ '\n'
      · refine ⟨k, ?_⟩
        rw [trimNewlines_cons hkept, List.cons_append, ← hk]
      · obtain ⟨htrim, hc⟩ : trimNewlines text = [] ∧ c = '\n' := by simpa using hkept
        refine ⟨k + 1, ?_⟩
        rw [htrim, List.nil_append] at hk
        rw [hc, trimNewlines_newline htrim, List.nil_append, List.replicate_succ, ← hk]

/-- What is left of a text does not end in a newline. -/
theorem getLast?_trimNewlines (text : Text) : (trimNewlines text).getLast? ≠ some '\n' := by
  induction text with
  | nil => simp [trimNewlines]
  | cons c text ih =>
      by_cases hkept : trimNewlines text ≠ [] ∨ c ≠ '\n'
      · rw [trimNewlines_cons hkept, List.getLast?_cons]
        cases hlast : (trimNewlines text).getLast? with
        | none => simpa [List.getLast?_eq_none_iff.1 hlast] using hkept
        | some d => simpa [hlast] using ih
      · obtain ⟨htrim, rfl⟩ : trimNewlines text = [] ∧ c = '\n' := by simpa using hkept
        simp [trimNewlines_newline htrim]

/-- Newlines behind a text that does not end in one are what is trimmed. -/
theorem trimNewlines_append {text : Text} (h : text.getLast? ≠ some '\n') (k : Nat) :
    trimNewlines (text ++ List.replicate k '\n') = text := by
  induction text with
  | nil =>
      induction k with
      | zero => rfl
      | succ k ih => exact trimNewlines_newline ih
  | cons c text ih =>
      have hrest : trimNewlines (text ++ List.replicate k '\n') = text := by
        cases text with
        | nil => exact ih (by simp)
        | cons d text => exact ih (by simpa using h)
      rw [List.cons_append, trimNewlines_cons, hrest]
      rw [hrest]
      cases text with
      | nil => exact Or.inr (by simpa using h)
      | cons d text => exact Or.inl (by simp)

end Text

end Transcript
