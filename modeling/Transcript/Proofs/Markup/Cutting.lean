/-
**Texts without inputs.**

Where inputs are switched off, their rule is not consulted and no token is an input.  The tokens are then
parts of the text: the texts of the tokens, one after the other, are the text, and each token begins where
the texts in front of it end.  This holds whatever the tags look like.

Main definitions:

* `Transcript.Token.Cuts` — tokens whose texts make up a text.

Main results:

* `Transcript.Token.Cuts.extract_next` — between the offsets of a token and the next one stands its text;
* `Transcript.Lexeme.ofText_inputs`, `Transcript.Lexeme.kind_ne_input` — inputs that are switched off;
* `Transcript.Lexeme.cuts_ofText` — **a text without inputs is cut into its tokens**.
-/

import Transcript.Proofs.Markup.Placement

set_option relaxedAutoImplicit false
set_option autoImplicit false

namespace Transcript

/-! ### Tokens that make up a text -/

namespace Token

/-- The texts of the tokens make up the text, one after the other, and the last token is the end. -/
structure Cuts (s : Text) (ts : List Token) : Prop where
  finish : ∃ lead, ts = lead ++ [⟨s.length, .finish, []⟩] ∧ ∀ t ∈ lead, t.kind ≠ .finish
  text : ts.flatMap Token.text = s
  offset : Each (fun front t => t.offset = (front.flatMap Token.text).length) ts

namespace Cuts

variable {s : Text} {ts front middle back : List Token} {t u : Token}

/-- The token begins where what stands in front of it ends, and its text comes next. -/
theorem split (h : Cuts s ts) (hts : ts = front ++ t :: back) :
    s = front.flatMap Token.text ++ (t.text ++ back.flatMap Token.text) ∧
      t.offset = (front.flatMap Token.text).length := by
  refine ⟨?_, h.offset front t back hts⟩
  rw [← h.text, hts, List.flatMap_append, List.flatMap_cons]

/-- Tokens do not overlap. -/
theorem offset_of_before (h : Cuts s ts) (hts : ts = front ++ t :: (middle ++ u :: back)) :
    t.offset + t.text.length ≤ u.offset := by
  obtain ⟨-, ht⟩ := h.split hts
  obtain ⟨-, hu⟩ := h.split (show ts = (front ++ t :: middle) ++ u :: back by simp [hts])
  rw [hu, ht, List.flatMap_append, List.flatMap_cons, List.length_append, List.length_append]
  omega

/-- The token ends where the next one begins. -/
theorem offset_next (h : Cuts s ts) (hts : ts = front ++ t :: u :: back) :
    u.offset = t.offset + t.text.length := by
  obtain ⟨-, ht⟩ := h.split hts
  obtain ⟨-, hu⟩ := h.split (show ts = (front ++ [t]) ++ u :: back by simp [hts])
  rw [hu, ht, List.flatMap_append, List.flatMap_singleton, List.length_append]

/-- A token in front of another one is not the end. -/
theorem kind_ne_finish (h : Cuts s ts) (hts : ts = front ++ t :: u :: back) : t.kind ≠ .finish := by
  obtain ⟨lead, hlead, hkinds⟩ := h.finish
  have hdrop := congrArg List.dropLast (hts.symm.trans hlead)
  rw [List.dropLast_concat, List.dropLast_append_of_ne_nil (by simp)] at hdrop
  exact hkinds t (by simp [← hdrop])

/-- **Between the offsets of a token and the next one stands its text.** -/
theorem extract_next (h : Cuts s ts) (hts : ts = front ++ t :: u :: back) :
    s.extract t.offset u.offset = t.text := by
  obtain ⟨hs, ht⟩ := h.split hts
  rw [h.offset_next hts, List.extract_eq_take_drop, Nat.add_sub_cancel_left, hs, ht,
    List.drop_left, List.take_left]

theorem offset_le (h : Cuts s ts) (ht : t ∈ ts) : t.offset + t.text.length ≤ s.length := by
  obtain ⟨front, back, hts⟩ := List.append_of_mem ht
  obtain ⟨hs, hoffset⟩ := h.split hts
  rw [hs, hoffset, List.length_append, List.length_append]
  omega

end Cuts

end Token

/-! ### The tokens of a text -/

namespace Lexeme

variable {config : Config} {switches : Switches}

/-- Where inputs are switched off, what they look like does not matter. -/
theorem ofText_inputs (hoff : switches.inputs = false) (rule : InputRule) (text : Text) :
    ofText config switches text = ofText { config with inputs := rule } switches text := by
  have hline (start : Nat) (line : Text) : ofLine config switches start line =
      ofLine { config with inputs := rule } switches start line := by
    simp only [ofLine, hoff, Bool.false_eq_true, if_false]
    rfl
  have hlines (ls : List Text.Line) : ∀ start, ofLines config switches start ls =
      ofLines { config with inputs := rule } switches start ls := by
    induction ls with
    | nil => exact fun start => rfl
    | cons line rest ih =>
        intro start
        simp only [ofLines, hline, ih]
  exact hlines _ _

theorem kind_ne_input (hoff : switches.inputs = false) (text : Text) :
    ∀ t ∈ tokens (ofText config switches text), t.kind ≠ .input := by
  have hlines (ls : List Text.Line) :
      ∀ start, ∀ t ∈ tokens (ofLines config switches start ls), t.kind ≠ .input := by
    induction ls with
    | nil =>
        intro start t ht
        obtain rfl := List.mem_singleton.1 ht
        simp
    | cons line rest ih =>
        intro start t ht
        simp only [ofLines, ofLine, hoff, Bool.false_eq_true, if_false, tokens_append,
          List.mem_append] at ht
        rcases ht with (ht | ht) | ht
        · rcases kind_of_mem_ofBody ht with hkind | hkind | hkind <;> simp [hkind]
        · unfold ofNewlines at ht
          by_cases hcount : line.newlines = 0
          · simp [hcount, tokens] at ht
          · rw [if_neg hcount] at ht
            obtain rfl := List.mem_singleton.1 ht
            simp
        · exact ih _ t ht
  exact hlines _ 0

/-- **A text in which no input is recognised is cut into its tokens**, whatever the tags look like. -/
theorem cuts_ofText (hoff : switches.inputs = false) (text : Text) :
    Token.Cuts text (tokens (ofText config switches text)) := by
  have hkind : ∀ t ∈ tokens (ofText config switches text), t.kind ≠ .input := kind_ne_input hoff text
  rw [ofText_inputs hoff .standard] at hkind ⊢
  have htile : Token.Tiles '[' ']' 0 text (Token.OfText { config with inputs := .standard } switches text)
      (tokens (ofText { config with inputs := .standard } switches text)) :=
    tiles_ofText rfl switches text
  obtain ⟨lead, stop, hlead, hkinds⟩ :=
    exists_ofText_eq { config with inputs := .standard } switches text
  have htokens : tokens (ofText { config with inputs := .standard } switches text) =
      tokens lead ++ [⟨stop, .finish, []⟩] := by
    rw [hlead, tokens_append]
    rfl
  generalize tokens (ofText { config with inputs := .standard } switches text) = ts at *
  have hwritten {ts' : List Token} (hsub : ∀ t ∈ ts', t ∈ ts) :
      ts'.flatMap (Token.written '[' ']') = ts'.flatMap Token.text :=
    Token.flatMap_written fun t ht => hkind t (hsub t ht)
  have htext : ts.flatMap Token.text = text := (hwritten fun _ => id).symm.trans htile.written
  have hoffset : Each (fun front t => t.offset = (front.flatMap Token.text).length) ts := by
    intro front t back hts
    rw [htile.offset front t back hts, Nat.zero_add, hwritten fun u hu => by simp [hts, hu]]
  obtain rfl : stop = text.length := by
    rw [← htext, htokens, List.flatMap_append, List.flatMap_singleton, List.append_nil]
    exact hoffset _ _ [] htokens
  exact ⟨⟨tokens lead, htokens, hkinds⟩, htext, hoffset⟩

end Lexeme

end Transcript
