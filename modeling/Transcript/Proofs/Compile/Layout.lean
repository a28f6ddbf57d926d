/-
**The layout of normalized spacing.**

The table of normalized spacing gives the fragments token by token.  Runs of white space make this
awkward to reason about: only the first token of a run has a fragment, and what it is depends on what
stands behind the run.  This module groups the tokens instead: a run together with the text, the tag
or the end behind it.  A layout is a list of such groups with their fragments.

Main definitions:

* `Transcript.Token.Gap` — a run of white space;
* `Transcript.Spacing.Layout` — tokens grouped, with their fragments.

Main results:

* `Transcript.Spacing.layout_ofTokens` — the tokens of a text and the table are a layout.
-/

import Transcript.Proofs.Compile.Spacing
import Transcript.Proofs.Markup.Tiling

set_option relaxedAutoImplicit false
set_option autoImplicit false

namespace Transcript

namespace Token

structure Gap (run : List Token) : Prop where
  ne_nil : run ≠ []
  isSpace : ∀ t ∈ run, t.kind.isSpace = true
  formed : ∀ t ∈ run, t.Formed

namespace Gap

theorem singleton {t : Token} (hspace : t.kind.isSpace) (hformed : t.Formed) : Gap [t] where
  ne_nil := by simp
  isSpace := by simpa using hspace
  formed := by simpa using hformed

theorem append {run : List Token} (h : Gap run) {t : Token} (hspace : t.kind.isSpace)
    (hformed : t.Formed) : Gap (run ++ [t]) where
  ne_nil := by simp
  isSpace := by
    intro s hs
    rcases List.mem_append.1 hs with hs | hs
    · exact h.isSpace s hs
    · rw [List.mem_singleton.1 hs]
      exact hspace
  formed := by
    intro s hs
    rcases List.mem_append.1 hs with hs | hs
    · exact h.formed s hs
    · rw [List.mem_singleton.1 hs]
      exact hformed

/-- The text of a run is not empty, and all of it is blank. -/
theorem text {run : List Token} (h : Gap run) :
    run.flatMap Token.text ≠ [] ∧ ∀ c ∈ run.flatMap Token.text, Text.isBlank c = true := by
  have hspells : ∀ t ∈ run, t.text ≠ [] ∧ ∀ c ∈ t.text, Text.isBlank c = true := by
    intro t ht
    have hformed := h.formed t ht
    have hspace := h.isSpace t ht
    cases hkind : t.kind <;> simp only [hkind, TokenKind.isSpace, Formed, TokenKind.Spells] at *
    case newlines => exact ⟨hformed.1, fun c hc => by rw [hformed.2 c hc]; decide⟩
    case spaces => exact ⟨hformed.1, fun c hc => (hformed.2 c hc).1⟩
    all_goals simp at hspace
  constructor
  · obtain ⟨t, run, rfl⟩ := List.exists_cons_of_ne_nil h.ne_nil
    have := (hspells t (List.mem_cons_self ..)).1
    simp [this]
  · intro c hc
    obtain ⟨t, ht, hc⟩ := List.mem_flatMap.1 hc
    exact (hspells t ht).2 c hc

end Gap

end Token

namespace Spacing

open Token

/-- The fragments of a tag between white space, or not, on its left and the tokens ahead. -/
def tagShape (config : Config) (left : Bool) (t : Token) (ahead : List Token) : Shape :=
  .tag (t.binding config) (context left (spaceAhead ahead))
    (lineEndAhead ahead && (t.binding config).isNone)

/-- Tokens in groups, with their fragments: a run of white space and what stands behind it, or what
stands behind no white space. -/
inductive Layout (config : Config) : List Token → List Fragment → Prop
  | finish {t : Token} (offset : Nat) (hkind : t.kind = .finish) (htext : t.text = []) :
      Layout config [t] [⟨offset, .finish .blank⟩]
  | gapFinish {run : List Token} {t : Token} (offset : Nat) (hgap : Gap run)
      (hkind : t.kind = .finish) (htext : t.text = []) :
      Layout config (run ++ [t]) [⟨offset, .finish .blank⟩]
  | text {t : Token} {ahead : List Token} {fragments : List Fragment} (hkind : t.kind.isText)
      (hformed : t.Formed) (hinput : t.kind = .input → EndsLine ahead)
      (hahead : Layout config ahead fragments) :
      Layout config (t :: ahead) (⟨t.offset, .literal t.text⟩ :: fragments)
  | gapText {run : List Token} {t : Token} {ahead : List Token} {fragments : List Fragment}
      (offset : Nat) (hgap : Gap run) (hkind : t.kind.isText) (hformed : t.Formed)
      (hinput : t.kind = .input → EndsLine ahead) (hahead : Layout config ahead fragments) :
      Layout config (run ++ t :: ahead)
        (⟨offset, .spaces⟩ :: ⟨t.offset, .literal t.text⟩ :: fragments)
  | tag {t : Token} {ahead : List Token} {fragments : List Fragment} (hkind : t.kind = .tag)
      (hformed : t.Formed) (hahead : Layout config ahead fragments) :
      Layout config (t :: ahead) (⟨t.offset, tagShape config false t ahead⟩ :: fragments)
  | gapTag {run : List Token} {t : Token} {ahead : List Token} {fragments : List Fragment}
      (offset : Nat) (hgap : Gap run) (hkind : t.kind = .tag) (hformed : t.Formed)
      (hahead : Layout config ahead fragments) :
      Layout config (run ++ t :: ahead)
        (⟨offset, if spaceAhead ahead then .space else .spaces⟩ ::
          ⟨t.offset, tagShape config true t ahead⟩ :: fragments)

variable {config : Config}

/-- The tokens ahead and their entries are a layout.  In the middle of a run, so are the run and its
fragments together with them. -/
theorem layout_of_lexed {ahead : List Token} (h : Lexed ahead) :
    ∀ behind : List Token,
      (spaceBehind behind = false → Layout config ahead (ofTokens config behind ahead)) ∧
      (spaceBehind behind = true → ∀ run first, Gap run →
        Layout config (run ++ ahead) (ofGap first (afterRun ahead) ++ ofTokens config behind ahead)) := by
  induction h with
  | @finish t hkind hformed =>
      intro behind
      have htext := hformed.of_finish hkind
      have hspace : t.kind.isSpace = false := by rw [hkind]; rfl
      rw [ofTokens_cons, ofToken_of_finish config behind [] hkind, ofTokens, List.append_nil]
      refine ⟨fun _ => .finish _ hkind htext, fun _ run first hgap => ?_⟩
      rw [afterRun_cons_of_not_isSpace [] hspace, ofGap_of_finish first [] hkind, List.nil_append]
      exact .gapFinish _ hgap hkind htext
  | @cons t ahead hkind hformed hinput hahead ih =>
      intro behind
      rw [ofTokens_cons]
      by_cases hspace : t.kind.isSpace
      · have hbehind : spaceBehind (t :: behind) = true := hspace
        rw [ofToken_of_isSpace config behind ahead hspace, afterRun_cons_of_isSpace ahead hspace]
        constructor
        · intro hfirst
          rw [hfirst, if_neg (by simp)]
          exact (ih (t :: behind)).2 hbehind [t] t (.singleton hspace hformed)
        · intro hrun run first hgap
          rw [hrun, if_pos rfl, List.nil_append, List.append_cons]
          exact (ih (t :: behind)).2 hbehind (run ++ [t]) first (hgap.append hspace hformed)
      · have hspace' : t.kind.isSpace = false := by simpa using hspace
        have hrest := (ih (t :: behind)).1 hspace'
        rw [afterRun_cons_of_not_isSpace ahead hspace']
        by_cases htag : t.kind = .tag
        · rw [ofToken_of_tag config behind ahead htag]
          constructor
          · intro hbehind
            rw [ofTag, hbehind]
            exact .tag htag hformed hrest
          · intro hbehind run first hgap
            rw [ofTag, hbehind, ofGap_of_tag first ahead htag]
            exact .gapTag first.offset hgap htag hformed hrest
        · have htext : t.kind.isText := by
            cases hk : t.kind <;> simp_all [TokenKind.isText, TokenKind.isSpace]
          rw [ofToken_of_isText config behind ahead htext]
          constructor
          · exact fun _ => .text htext hformed hinput hrest
          · intro _ run first hgap
            rw [ofGap_of_isText first ahead htext]
            exact .gapText first.offset hgap htext hformed hinput hrest

/-- The tokens of a text and the table are a layout. -/
theorem layout_ofTokens {tokens : List Token} (h : Lexed tokens) :
    Layout config tokens (ofTokens config [] tokens) :=
  (layout_of_lexed h []).1 rfl

end Spacing

end Transcript
