/-
**The fragments of a program are orderly.**

A program without inputs is made of literals, runs of white space and tags, and ends in the anchor.
What a tag becomes says what stands on its right, and a tag directly behind another one is refused.  So
the fragments that follow one another are those that the crossing argument asks for.

Main definitions:

* `Transcript.Pending.endsInTag` — a tag was read last.

Main results:

* `Transcript.Machine.apart_of_feedAll` — **tags that are compiled stand apart**;
* `Transcript.Compiler.orderly_of_compile` — the fragments of a program are orderly.
-/

import Transcript.Proofs.Compile.Layout
import Transcript.Proofs.Compile.Literal
import Transcript.Proofs.Markup.Cutting
import Transcript.Proofs.Match.Crossing

set_option relaxedAutoImplicit false
set_option autoImplicit false

namespace Transcript

/-! ### Tags stand apart -/

def Pending.endsInTag : Pending → Bool
  | .tag _ => true
  | .gapTag _ _ => true
  | _ => false

namespace Machine

open Token

/-- A tag that is accepted stands behind no other tag, and is held back. -/
theorem endsInTag_of_feed {policy : Policy} {config : Config} {m next : Machine} {t : Token}
    (h : m.feed policy config t = .ok next) (ht : t.kind = .tag) :
    m.pending.endsInTag = false ∧ next.pending.endsInTag = true := by
  obtain ⟨mid, hmid, hpending, -⟩ := feed_eq_ok h
  rw [hpending]
  obtain ⟨pending, build⟩ := m
  cases policy with
  | normalize =>
      simp only [advance, normalize, ht, normalizeTag] at hmid
      cases pending <;> simp only [Except.ok.injEq, reduceCtorEq] at hmid <;> subst hmid <;>
        exact ⟨rfl, rfl⟩
  | literal =>
      simp only [advance, verbatim, ht, verbatimTag] at hmid
      cases pending <;> simp only [Except.ok.injEq, reduceCtorEq] at hmid <;> subst hmid <;>
        exact ⟨rfl, rfl⟩

/-- **Tags that are compiled stand apart.** -/
theorem apart_of_feedAll {policy : Policy} {config : Config} {tokens : List Token} :
    ∀ {m last : Machine}, m.feedAll policy config tokens = (last, none) →
      Apart tokens ∧ (m.pending.endsInTag = true → tagAhead tokens = false) := by
  induction tokens with
  | nil => exact fun _ => ⟨trivial, fun _ => rfl⟩
  | cons t tokens ih =>
      intro m last hrun
      obtain ⟨next, hfeed, hrest⟩ := feedAll_cons_eq_ok hrun
      obtain ⟨hapart, hnext⟩ := ih hrest
      refine ⟨⟨fun ht => hnext (endsInTag_of_feed hfeed ht).2, hapart⟩, fun hpending => ?_⟩
      refine beq_eq_false_iff_ne.2 fun ht => ?_
      rw [(endsInTag_of_feed hfeed ht).1] at hpending
      exact Bool.noConfusion hpending

end Machine

/-! ### Spacing as written -/

theorem TokenKind.eq_literal {kind : TokenKind} (htext : kind.isText = true)
    (hinput : kind ≠ .input) : kind = .literal := by
  cases kind <;> simp_all [isText]

namespace Literal

open Fragment Token

variable {config : Config}

theorem ofTokens_eq_singleton {tokens : List Token} (h : Lexed tokens) {f : Fragment}
    (hone : ofTokens config tokens = [f]) : tokens.flatMap Token.text = [] := by
  cases h with
  | finish hkind hformed => simpa using hformed.of_finish hkind
  | cons hkind hformed hinput hahead => cases hahead <;> simp [ofTokens] at hone

/-- A tag that is followed by text, or by nothing but the end. -/
theorem orderly_tag {t : Token} {ahead : List Token} (hahead : Lexed ahead)
    (hinput : ∀ u ∈ ahead, u.kind ≠ .input) (htag : tagAhead ahead = false)
    (h : Orderly (ofTokens config ahead)) :
    Orderly (ofTag config t ahead :: ofTokens config ahead) := by
  cases hahead with
  | finish hkind hformed =>
      rw [ofTokens, ofTokens, ofToken_of_finish config [] hkind]
      have hend : finishAhead [_] = true := beq_iff_eq.2 hkind
      rw [ofTag, if_pos hend]
      exact .lineEnd _ _ _ _
  | @cons u rest hkind hformed hinput' hahead =>
      have hend : finishAhead (u :: rest) = false := beq_eq_false_iff_ne.2 hkind
      have hutag : u.kind ≠ .tag := beq_eq_false_iff_ne.1 htag
      have hne : u.text ≠ [] := hformed.ne_nil (hinput u (List.mem_cons_self ..)) hkind
      refine .bare _ _ _ (Or.inl (by simp [hend])) ?_ h
      rw [ofTokens, ofToken_of_text config rest hutag hkind]
      exact demands_literal hne _

/-- Where spacing is kept, the fragments of tokens are orderly if the tokens do not end in newlines. -/
theorem orderly_ofTokens {tokens : List Token} (h : Lexed tokens)
    (hinput : ∀ t ∈ tokens, t.kind ≠ .input) (hapart : Apart tokens)
    (hlast : (tokens.flatMap Token.text).getLast? ≠ some '\n') :
    Orderly (ofTokens config tokens) := by
  induction h with
  | @finish t hkind hformed =>
      rw [ofTokens, ofTokens, ofToken_of_finish config [] hkind]
      exact .finish _ _
  | @cons t ahead hkind hformed hinput' hahead ih =>
      have hinputs : ∀ u ∈ ahead, u.kind ≠ .input := fun u hu => hinput u (List.mem_cons_of_mem _ hu)
      rw [List.flatMap_cons, List.getLast?_append] at hlast
      have hlast' : (ahead.flatMap Token.text).getLast? ≠ some '\n' := by
        intro hnewline
        rw [hnewline] at hlast
        exact hlast rfl
      have hrest := ih hinputs hapart.2 hlast'
      rw [ofTokens]
      by_cases htag : t.kind = .tag
      · rw [ofToken_of_tag config ahead htag]
        exact orderly_tag hahead hinputs (hapart.1 htag) hrest
      · rw [ofToken_of_text config ahead htag hkind]
        have hne : t.text ≠ [] := hformed.ne_nil (hinput t (List.mem_cons_self ..)) hkind
        refine .literal _ hne (fun f hf => ?_) hrest
        rw [ofTokens_eq_singleton hahead hf] at hlast
        exact hlast

end Literal

/-! ### Normalized spacing -/

namespace Spacing

open Fragment Token

variable {config : Config}

theorem spaceAhead_of_gap {run : List Token} (hgap : Gap run) (ahead : List Token) :
    spaceAhead (run ++ ahead) = true := by
  obtain ⟨t, run, rfl⟩ := List.exists_cons_of_ne_nil hgap.ne_nil
  simp [spaceAhead, hgap.isSpace t (List.mem_cons_self ..)]

theorem Layout.beginsBlank {tokens : List Token} {fragments : List Fragment}
    (h : Layout config tokens fragments) (hspace : spaceAhead tokens = true) :
    BeginsBlank fragments := by
  cases h with
  | finish offset hkind htext => exact rfl
  | gapFinish offset hgap hkind htext => exact rfl
  | @text t ahead fragments hkind hformed hinput hahead =>
      unfold spaceAhead at hspace
      cases hk : t.kind <;> simp [hk, TokenKind.isText, TokenKind.isSpace] at hkind hspace
  | gapText offset hgap hkind hformed hinput hahead => exact rfl
  | tag hkind hformed hahead => simp [spaceAhead, hkind, TokenKind.isSpace] at hspace
  | @gapTag run t ahead fragments offset hgap hkind hformed hahead =>
      cases hright : spaceAhead ahead <;> exact rfl

/-- What follows without white space, and is neither a tag nor the end, needs a character. -/
theorem Layout.demands {tokens : List Token} {fragments : List Fragment}
    (h : Layout config tokens fragments) (hinput : ∀ t ∈ tokens, t.kind ≠ .input)
    (hspace : spaceAhead tokens = false) (htag : tagAhead tokens = false) : Demands fragments := by
  cases h with
  | finish offset hkind htext => simp [spaceAhead, hkind] at hspace
  | gapFinish offset hgap hkind htext => simp [spaceAhead_of_gap hgap] at hspace
  | @text t ahead fragments hkind hformed hinput' hahead =>
      have hliteral := TokenKind.eq_literal hkind (hinput t (List.mem_cons_self ..))
      rw [Formed, hliteral] at hformed
      exact demands_literal hformed.1 _
  | gapText offset hgap hkind hformed hinput hahead => simp [spaceAhead_of_gap hgap] at hspace
  | tag hkind hformed hahead => simp [tagAhead, hkind] at htag
  | gapTag offset hgap hkind hformed hahead => simp [spaceAhead_of_gap hgap] at hspace

/-- Where spacing is normalized, the fragments of tokens are orderly. -/
theorem Layout.orderly {tokens : List Token} {fragments : List Fragment}
    (h : Layout config tokens fragments) (hinput : ∀ t ∈ tokens, t.kind ≠ .input)
    (hapart : Apart tokens) : Orderly fragments := by
  have hliteral {t : Token} {fragments : List Fragment} (hkind : t.kind.isText) (hformed : t.Formed)
      (hne : t.kind ≠ .input) (hrest : Orderly fragments) :
      t.text ≠ [] ∧ Orderly (⟨t.offset, .literal t.text⟩ :: fragments) := by
    rw [Formed, TokenKind.eq_literal hkind hne] at hformed
    refine ⟨hformed.1, .literal _ hformed.1 (fun _ _ hlast => ?_) hrest⟩
    have hblank := hformed.2 _ (List.mem_of_getLast? hlast)
    exact absurd hblank (by decide)
  induction h with
  | finish offset hkind htext => exact .finish _ _
  | gapFinish offset hgap hkind htext => exact .finish _ _
  | @text t ahead fragments hkind hformed hinput' hahead ih =>
      have hrest := ih (fun u hu => hinput u (List.mem_cons_of_mem _ hu)) hapart.2
      exact (hliteral hkind hformed (hinput t (List.mem_cons_self ..)) hrest).2
  | @gapText run t ahead fragments offset hgap hkind hformed hinput' hahead ih =>
      have hrest := ih (fun u hu => hinput u (by simp [hu])) hapart.of_append.2
      obtain ⟨hne, hliteral⟩ := hliteral hkind hformed (hinput t (by simp)) hrest
      exact .spaces _ (demands_literal hne _) hliteral
  | @tag t ahead fragments hkind hformed hahead ih =>
      have hinputs : ∀ u ∈ ahead, u.kind ≠ .input := fun u hu => hinput u (List.mem_cons_of_mem _ hu)
      have hrest := ih hinputs hapart.2
      unfold tagShape
      cases hright : spaceAhead ahead with
      | true => exact .rightSpace _ _ _ (hahead.beginsBlank hright) hrest
      | false =>
          exact .bare _ _ _ (Or.inl rfl) (hahead.demands hinputs hright (hapart.1 hkind)) hrest
  | @gapTag run t ahead fragments offset hgap hkind hformed hahead ih =>
      have hinputs : ∀ u ∈ ahead, u.kind ≠ .input := fun u hu => hinput u (by simp [hu])
      have hapart' := hapart.of_append
      have hrest := ih hinputs hapart'.2
      unfold tagShape
      cases hright : spaceAhead ahead with
      | true => exact .bothSpace _ _ _ _ (hahead.beginsBlank hright) hrest
      | false =>
          have hdemands := hahead.demands hinputs hright (hapart'.1 hkind)
          exact .spaces _ (hdemands.cons _) (.bare _ _ _ (Or.inr rfl) hdemands hrest)

end Spacing

/-! ### Programs -/

namespace Compiler

open Fragment Token

/-- Where inputs are switched off, their rule is not consulted. -/
theorem tokens_inputs (policy : Policy) {config : Config} {switches : Switches}
    (hoff : switches.inputs = false) (text : Text) :
    tokens policy config switches text =
      tokens policy { config with inputs := .standard } switches text :=
  congrArg Lexeme.tokens (Lexeme.ofText_inputs hoff .standard _)

/-- Where inputs are switched off, the tokens of a text follow one another as tokens may, and none of
them is an input. -/
theorem lexed_tokens (policy : Policy) {config : Config} {switches : Switches}
    (htags : ∃ opening closing, config.tags = .delimited opening closing)
    (hoff : switches.inputs = false) (text : Text) :
    Lexed (tokens policy config switches text) ∧
      ∀ t ∈ tokens policy config switches text, t.kind ≠ .input := by
  have hconfig : Config.Delimited { config with inputs := .standard } '[' ']' := ⟨htags, rfl⟩
  rw [tokens_inputs policy hoff]
  exact ⟨Lexeme.lexed_ofText hconfig switches _, Lexeme.kind_ne_input hoff _⟩

/-- **The fragments of a program without inputs are orderly.** -/
theorem orderly_of_compile {policy : Policy} {config : Config} {switches : Switches}
    (htags : ∃ opening closing, config.tags = .delimited opening closing)
    (hoff : switches.inputs = false) {text : Text} {p : Program}
    (h : compile policy config switches text = .ok p) :
    ∃ fragments, p.fragments = ⟨0, .start⟩ :: fragments ∧ Orderly fragments := by
  obtain ⟨last, hrun, -, -⟩ := compile_eq_ok h
  have hapart := (Machine.apart_of_feedAll hrun).1
  obtain ⟨hlexed, hinput⟩ := lexed_tokens policy htags hoff text
  cases policy with
  | normalize =>
      exact ⟨_, fragments_of_compile h, (Spacing.layout_ofTokens hlexed).orderly hinput hapart⟩
  | literal =>
      refine ⟨_, fragments_of_compile h, Literal.orderly_ofTokens hlexed hinput hapart ?_⟩
      have hcuts : Token.Cuts (Text.trimNewlines text) (tokens .literal config switches text) :=
        Lexeme.cuts_ofText hoff _
      rw [hcuts.text]
      exact Text.getLast?_trimNewlines text

end Compiler

end Transcript
