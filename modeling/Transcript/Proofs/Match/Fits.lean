/-
**Where fragments fit.**

The end of a program fits in front of white space, or of newlines.  A tag in front of it leaves all
newlines at the end of the output to it, so the two together fit everywhere.

Main results:

* `Transcript.Fragment.fits_past` — fragments fit when the text ahead is cut into what they admit;
* `Transcript.Fragment.fits_congr_of_admits`, `Transcript.Fragment.fits_congr` — fragments that admit
  the same fit the same, and their offsets do not matter;
* `Transcript.Fragment.fits_finish` — where the end fits;
* `Transcript.Fragment.fits_lineEnd` — a tag and the end fit everywhere.
-/

import Mathlib.Data.List.Forall2
import Transcript.Proofs.Regex.Language
import Transcript.Proofs.Text.Trim

set_option relaxedAutoImplicit false
set_option autoImplicit false

namespace Transcript

namespace Fragment

/-- The fragments fit when the text ahead is cut into what the first one admits and what the others
fit in front of. -/
theorem fits_past {f : Fragment} {fragments : List Fragment} {c : Cursor} (s rest : Text)
    (hafter : c.after = s ++ rest) (hadmits : f.shape.Admits c s (c.past s rest))
    (hrest : Fits fragments (c.past s rest)) : Fits (f :: fragments) c :=
  fits_cons.2 ⟨s, _, Cursor.reads_past hafter, hadmits, hrest⟩

/-- Where fragments fit depends on what each of them admits alone. -/
theorem fits_congr_of_admits {fragments fragments' : List Fragment}
    (h : List.Forall₂ (fun f f' => ∀ c s d, f.shape.Admits c s d ↔ f'.shape.Admits c s d)
      fragments fragments') : ∀ {c : Cursor}, Fits fragments c ↔ Fits fragments' c := by
  induction h with
  | nil => exact Iff.rfl
  | cons hadmits _ ih =>
      intro c
      simp only [fits_cons, hadmits, ih]

/-- Where fragments fit depends on what they match alone. -/
theorem fits_congr {fragments fragments' : List Fragment}
    (h : fragments.map Fragment.shape = fragments'.map Fragment.shape) {c : Cursor} :
    Fits fragments c ↔ Fits fragments' c := by
  refine fits_congr_of_admits ?_
  rw [← List.forall₂_eq_eq_eq, List.forall₂_map_left_iff, List.forall₂_map_right_iff] at h
  exact h.imp fun f f' hshape c s d => by rw [hshape]

/-! ### The end -/

/-- The character may stand in front of the end. -/
def Spares : EndAnchor → Char → Prop
  | .blank, b => Text.isBlank b = true
  | .newlines, b => b = '\n'

theorem spares_newline (anchor : EndAnchor) : Spares anchor '\n' := by
  cases anchor
  · exact (by decide : Text.isBlank '\n' = true)
  · rfl

theorem fits_finish {offset : Nat} {anchor : EndAnchor} {c : Cursor} :
    Fits [⟨offset, .finish anchor⟩] c ↔ ∀ b ∈ c.after, Spares anchor b := by
  rw [fits_cons]
  constructor
  · rintro ⟨s, d, hreads, hadmits, -⟩
    have hall : (∀ b ∈ s, Spares anchor b) ∧ d.after = [] := by
      cases anchor <;> exact hadmits
    rw [hreads.after, hall.2, List.append_nil]
    exact hall.1
  · intro hall
    have hreads := Cursor.reads_past (List.append_nil c.after).symm
    refine ⟨c.after, _, hreads, ?_, _, .nil _⟩
    cases anchor <;> exact ⟨hall, rfl⟩

/-- A tag in front of the end takes all but the newlines there, so the two fit everywhere. -/
theorem fits_lineEnd (offset offset' : Nat) (binding : Option Text) (greedy : Bool) (c : Cursor) :
    Fits [⟨offset, .tag binding .lineEnd greedy⟩, ⟨offset', .finish .newlines⟩] c := by
  obtain ⟨k, hk⟩ := Text.exists_trimNewlines c.after
  have hfinish : Fits [⟨offset', .finish .newlines⟩]
      (c.past (Text.trimNewlines c.after) (List.replicate k '\n')) :=
    fits_finish.2 fun b hb => (List.mem_replicate.1 hb).2
  refine fits_cons.2 ⟨_, _, Cursor.reads_past hk, ?_, hfinish⟩
  have hlast := Text.getLast?_trimNewlines c.after
  cases htrim : Text.trimNewlines c.after with
  | nil => exact Or.inl rfl
  | cons x rest =>
      refine Or.inr ⟨by simp, ?_⟩
      rw [htrim, List.getLast?_cons] at hlast
      simpa [Cursor.past, List.getLast?_cons] using hlast

end Fragment

end Transcript
