/-
**Texts up to white space.**

Two texts say the same up to white space when they are the same once each run of white space is
replaced by one space and the white space at the end is left out.  Parts of a text can be replaced one
by one as long as what is replaced says the same whatever stands in front of it.

Main definitions:

* `Transcript.Text.squeeze` — one space for each run of white space;
* `Transcript.Text.normalized` — **the normal form of a text up to white space**;
* `Transcript.Text.Respaced` — texts that have one normal form behind any other text.

Main results:

* `Transcript.Text.Respaced.gap` — a run of white space may be replaced by another one;
* `Transcript.Text.respaced_blank` — so may white space at the end, by none as well.
-/

import Mathlib.Data.List.DropRight
import Transcript.Text.Blank

set_option relaxedAutoImplicit false
set_option autoImplicit false

namespace Transcript

namespace Text

/-! ### One space for each run -/

/-- The text with one space for each run of white space. -/
def squeeze (text : Text) : Text :=
  (runs text).flatMap fun run => if run.blank then [' '] else run.text

/-- **The normal form of a text up to white space**: one space for each run of white space, and none
at the end. -/
def normalized (text : Text) : Text := (squeeze text).rdropWhile isBlank

theorem isBlank_space : isBlank ' ' = true := by decide

/-- The first run of a text is blank if its first character is. -/
theorem blank_head?_runs (text : Text) : (runs text).head?.any (·.blank) = text.head?.any isBlank := by
  cases text with
  | nil => rfl
  | cons c text =>
      rw [runs]
      cases runs text with
      | nil => rfl
      | cons run rest =>
          by_cases hrun : run.blank = isBlank c <;> simp [Run.cons, hrun]

theorem squeeze_cons_of_not_isBlank {c : Char} (hc : isBlank c = false) (text : Text) :
    squeeze (c :: text) = c :: squeeze text := by
  rw [squeeze, squeeze, runs]
  cases runs text with
  | nil => simp [Run.cons, hc]
  | cons run rest =>
      by_cases hrun : run.blank = isBlank c
      · rw [hc] at hrun
        simp [Run.cons, hrun, hc]
      · rw [Run.cons, if_neg hrun, List.flatMap_cons]
        simp [hc]

theorem squeeze_cons_of_isBlank {c : Char} (hc : isBlank c = true) (text : Text) :
    squeeze (c :: text) =
      if text.head?.any isBlank then squeeze text else ' ' :: squeeze text := by
  rw [squeeze, squeeze, runs, ← blank_head?_runs]
  cases runs text with
  | nil => simp [Run.cons, hc]
  | cons run rest => cases hrun : run.blank <;> simp [Run.cons, hc, hrun]

/-- What is squeezed behind a text depends on what is squeezed and on whether it begins with white
space. -/
theorem squeeze_append_congr {s t : Text} (hblank : s.head?.any isBlank = t.head?.any isBlank)
    (h : squeeze s = squeeze t) (front : Text) : squeeze (front ++ s) = squeeze (front ++ t) := by
  induction front with
  | nil => exact h
  | cons c front ih =>
      rw [List.cons_append, List.cons_append]
      cases hc : isBlank c with
      | false => rw [squeeze_cons_of_not_isBlank hc, squeeze_cons_of_not_isBlank hc, ih]
      | true =>
          have hahead : (front ++ s).head?.any isBlank = (front ++ t).head?.any isBlank := by
            cases front with
            | nil => exact hblank
            | cons d front => rfl
          rw [squeeze_cons_of_isBlank hc, squeeze_cons_of_isBlank hc, hahead, ih]

/-- A run of white space in front of a text is one space. -/
theorem squeeze_gap {gap : Text} (hne : gap ≠ []) (hgap : ∀ b ∈ gap, isBlank b = true) (text : Text) :
    squeeze (gap ++ text) = squeeze (' ' :: text) := by
  induction gap with
  | nil => exact absurd rfl hne
  | cons b gap ih =>
      have hb := hgap b (List.mem_cons_self ..)
      rw [List.cons_append, squeeze_cons_of_isBlank hb]
      cases gap with
      | nil => exact (squeeze_cons_of_isBlank isBlank_space text).symm
      | cons b' gap =>
          have hb' : (b' :: gap ++ text).head?.any isBlank = true := hgap b' (by simp)
          rw [if_pos hb']
          exact ih (by simp) fun x hx => hgap x (List.mem_cons_of_mem _ hx)

/-- A space at the end is part of the white space there, or is left as it is. -/
theorem squeeze_concat_space (text : Text) :
    squeeze (text ++ [' ']) = squeeze text ∨ squeeze (text ++ [' ']) = squeeze text ++ [' '] := by
  induction text with
  | nil => exact Or.inr (by decide)
  | cons c text ih =>
      rw [List.cons_append]
      cases hc : isBlank c with
      | false =>
          rw [squeeze_cons_of_not_isBlank hc, squeeze_cons_of_not_isBlank hc]
          exact ih.imp (by rintro h; rw [h]) (by rintro h; rw [h]; rfl)
      | true =>
          rw [squeeze_cons_of_isBlank hc, squeeze_cons_of_isBlank hc]
          cases text with
          | nil => exact Or.inl (by decide)
          | cons d text =>
              have hhead : (d :: text ++ [' ']).head? = (d :: text).head? := rfl
              rw [hhead]
              by_cases hd : (d :: text).head?.any isBlank
              · rw [if_pos hd, if_pos hd]
                exact ih
              · rw [if_neg hd, if_neg hd]
                exact ih.imp (by rintro h; rw [h]) (by rintro h; rw [h]; rfl)

/-! ### Replacing parts of a text -/

/-- The texts have one normal form, whatever stands in front of them. -/
def Respaced (s t : Text) : Prop := ∀ front, normalized (front ++ s) = normalized (front ++ t)

namespace Respaced

theorem normalized_eq {s t : Text} (h : Respaced s t) : normalized s = normalized t := h []

theorem refl (s : Text) : Respaced s s := fun _ => rfl

theorem symm {s t : Text} (h : Respaced s t) : Respaced t s := fun front => (h front).symm

theorem trans {s t u : Text} (h : Respaced s t) (h' : Respaced t u) : Respaced s u :=
  fun front => (h front).trans (h' front)

/-- What stands in front may be read as part of the texts. -/
theorem append {s t : Text} (h : Respaced s t) (front : Text) :
    Respaced (front ++ s) (front ++ t) := by
  intro front'
  rw [← List.append_assoc, ← List.append_assoc]
  exact h (front' ++ front)

/-- **A run of white space may be replaced by another one.** -/
theorem gap {s t gap gap' : Text} (h : Respaced s t) (hne : gap ≠ []) (hne' : gap' ≠ [])
    (hgap : ∀ b ∈ gap, isBlank b = true) (hgap' : ∀ b ∈ gap', isBlank b = true) :
    Respaced (gap ++ s) (gap' ++ t) := by
  have hbegins {gap : Text} (hne : gap ≠ []) (hgap : ∀ b ∈ gap, isBlank b = true) :
      (gap ++ t).head?.any isBlank = true := by
    obtain ⟨b, gap, rfl⟩ := List.exists_cons_of_ne_nil hne
    exact hgap b (List.mem_cons_self ..)
  refine (h.append gap).trans fun front => ?_
  refine congrArg (List.rdropWhile isBlank) ?_
  refine squeeze_append_congr ((hbegins hne hgap).trans (hbegins hne' hgap').symm) ?_ front
  rw [squeeze_gap hne hgap, squeeze_gap hne' hgap']

end Respaced

/-- White space at the end may be left out. -/
theorem respaced_nil {gap : Text} (hgap : ∀ b ∈ gap, isBlank b = true) : Respaced [] gap := by
  by_cases hne : gap = []
  · rw [hne]
    exact .refl []
  · have hspace : Respaced [' '] gap := by
      have h := (Respaced.refl []).gap (List.cons_ne_nil ' ' []) hne
        (List.forall_mem_singleton.2 isBlank_space) hgap
      rwa [List.append_nil, List.append_nil] at h
    refine Respaced.trans (fun front => ?_) hspace
    rw [List.append_nil, normalized, normalized]
    rcases squeeze_concat_space front with h | h
    · rw [h]
    · rw [h, List.rdropWhile_concat_pos isBlank _ ' ' isBlank_space]

/-- **White space at the end may be replaced** by any other, and by none. -/
theorem respaced_blank {gap gap' : Text} (hgap : ∀ b ∈ gap, isBlank b = true)
    (hgap' : ∀ b ∈ gap', isBlank b = true) : Respaced gap gap' :=
  (respaced_nil hgap).symm.trans (respaced_nil hgap')

end Text

end Transcript
