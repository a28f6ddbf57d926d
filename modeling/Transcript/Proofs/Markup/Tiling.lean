/-
**Tokens follow one another.**

With markup between two characters, only some tokens may follow others: the end of the text is the last
token and the only one of its kind, an input is followed by white space or the end, and each token has a
text of its kind.  That the tokens make up the text holds in general; it is restated here for such markup.

Main definitions:

* `Transcript.TokenKind.Spells` — the texts that a token of a kind may have;
* `Transcript.Token.Lexed` — how tokens may follow one another;
* `Transcript.Config.Delimited` — tags and inputs are marked by two characters each.

Main results:

* `Transcript.Lexeme.lexed_ofText` — **the tokens of a text are of this form**;
* `Transcript.Lexeme.written_ofText` — the tokens of a text make up the text.
-/

import Mathlib.Data.List.Basic
import Transcript.Proofs.Markup.Placement

set_option relaxedAutoImplicit false
set_option autoImplicit false

namespace Transcript

/-! ### What a token may be -/

/-- The texts that a token of a kind may have. -/
def TokenKind.Spells : TokenKind → Text → Prop
  | newlines, s => s ≠ [] ∧ ∀ c ∈ s, c = '\n'
  | spaces, s => s ≠ [] ∧ ∀ c ∈ s, Text.isBlank c = true ∧ c ≠ '\n'
  | literal, s => s ≠ [] ∧ ∀ c ∈ s, Text.isBlank c = false
  | tag, s => s ≠ [] ∧ ∀ c ∈ s, Text.isBlank c = false
  | input, _ => True
  | finish, s => s = []

/-- Tags and inputs are marked by two characters each. -/
structure Config.Delimited (config : Config) (opening closing : Char) : Prop where
  tags : ∃ tagOpening tagClosing, config.tags = .delimited tagOpening tagClosing
  inputs : config.inputs = .delimited opening closing

theorem Config.delimited_standard : Config.standard.Delimited '[' ']' := ⟨⟨'<', '>', rfl⟩, rfl⟩

/-! ### Pieces -/

namespace Piece

variable {config : Config} {opening closing : Char}

/-- The piece has a text of its kind, and is neither an input nor the end of the text. -/
def Plain (kind : TokenKind) (s : Text) : Prop :=
  kind.Spells s ∧ (kind = .spaces ∨ kind = .literal ∨ kind = .tag)

/-- A line falls into white space, tags and the text between them. -/
theorem plain_of_mem_ofBody (hconfig : config.Delimited opening closing) (switches : Switches)
    {body : Text} (hbody : '\n' ∉ body) {p : Piece} (hp : p ∈ ofBody config switches body) :
    Plain p.kind p.text := by
  rcases of_mem_ofBody hp with hkind | ⟨hkind, hliteral⟩ | ⟨hkind, word, ⟨span, hspan, htext⟩, hnot⟩
  · -- white space is a part of the line, which holds no newline
    obtain ⟨front, back, hpieces⟩ := List.append_of_mem hp
    have hmaximal := each_ofBody body front p back hpieces hkind
    have hmem : ∀ c ∈ p.text, c ∈ body := by
      intro c hc
      rw [← text_ofBody config switches body]
      exact List.mem_flatMap.2 ⟨p, hp, hc⟩
    refine ⟨?_, Or.inl hkind⟩
    rw [hkind]
    refine ⟨hmaximal.ne_nil, fun c hc => ⟨hmaximal.all c hc, ?_⟩⟩
    rintro rfl
    exact hbody (hmem _ hc)
  · exact ⟨by rw [hkind]; exact hliteral, Or.inr (Or.inl hkind)⟩
  · obtain ⟨tagOpening, tagClosing, htags⟩ := hconfig.tags
    rw [htags] at hspan
    have hne := TagRule.text_ne_nil_of_mem_findAll hspan
    exact ⟨by rw [hkind]; exact ⟨htext ▸ hne, hnot⟩, Or.inr (Or.inr hkind)⟩

end Piece

/-! ### Tokens -/

namespace Token

def Formed (t : Token) : Prop := t.kind.Spells t.text

theorem Formed.of_finish {t : Token} (h : t.Formed) (hkind : t.kind = .finish) : t.text = [] := by
  simpa [Formed, hkind, TokenKind.Spells] using h

theorem Formed.of_tag {t : Token} (h : t.Formed) (hkind : t.kind = .tag) :
    t.text ≠ [] ∧ ∀ c ∈ t.text, Text.isBlank c = false := by
  simpa [Formed, hkind, TokenKind.Spells] using h

/-- Only inputs and the end may be empty. -/
theorem Formed.ne_nil {t : Token} (h : t.Formed) (hinput : t.kind ≠ .input)
    (hfinish : t.kind ≠ .finish) : t.text ≠ [] := by
  unfold Formed at h
  cases hkind : t.kind <;> simp only [hkind, TokenKind.Spells] at h <;> simp_all

/-- White space or the end of the text comes next. -/
def EndsLine (ahead : List Token) : Prop :=
  ∃ t ∈ ahead.head?, t.kind = .newlines ∨ t.kind = .spaces ∨ t.kind = .finish

theorem endsLine_cons {t : Token} {ahead : List Token} :
    EndsLine (t :: ahead) ↔ t.kind = .newlines ∨ t.kind = .spaces ∨ t.kind = .finish := by
  simp [EndsLine]

/-- How tokens may follow one another. -/
inductive Lexed : List Token → Prop
  | finish {t : Token} (hkind : t.kind = .finish) (hformed : t.Formed) : Lexed [t]
  | cons {t : Token} {ahead : List Token} (hkind : t.kind ≠ .finish) (hformed : t.Formed)
      (hinput : t.kind = .input → EndsLine ahead) (hahead : Lexed ahead) : Lexed (t :: ahead)

/-- A token of a line that is neither an input nor the end. -/
def Plain (t : Token) : Prop := Piece.Plain t.kind t.text

theorem Plain.lexed_cons {t : Token} {ahead : List Token} (ht : t.Plain) (h : Lexed ahead) :
    Lexed (t :: ahead) := by
  obtain ⟨hformed, hkind⟩ := ht
  refine .cons ?_ hformed ?_ h
  · rcases hkind with hkind | hkind | hkind <;> simp [hkind]
  · rcases hkind with hkind | hkind | hkind <;> simp [hkind]

theorem lexed_append_of_plain {ts ahead : List Token} (hts : ∀ t ∈ ts, t.Plain) (h : Lexed ahead) :
    Lexed (ts ++ ahead) := by
  induction ts with
  | nil => exact h
  | cons t ts ih =>
      exact (hts t (List.mem_cons_self ..)).lexed_cons
        (ih fun t' ht' => hts t' (List.mem_cons_of_mem _ ht'))

/-- The tokens of one line: only spaces may stand behind its input. -/
inductive InLine : List Token → Prop
  | plain {ts : List Token} (hplain : ∀ t ∈ ts, t.Plain) : InLine ts
  | input {front spacing : List Token} {input : Token} (hfront : ∀ t ∈ front, t.Plain)
      (hinput : input.kind = .input) (hspacing : ∀ t ∈ spacing, t.Plain ∧ t.kind = .spaces) :
      InLine (front ++ input :: spacing)

/-- The tokens of a line may stand in front of what ends a line. -/
theorem InLine.lexed_append {ts ahead : List Token} (h : InLine ts) (hahead : Lexed ahead)
    (hends : EndsLine ahead) : Lexed (ts ++ ahead) := by
  cases h with
  | plain hplain => exact lexed_append_of_plain hplain hahead
  | @input front spacing input hfront hinput hspacing =>
      rw [List.append_assoc]
      refine lexed_append_of_plain hfront (.cons (by simp [hinput])
        (by simp [Formed, hinput, TokenKind.Spells]) (fun _ => ?_)
        (lexed_append_of_plain (fun t ht => (hspacing t ht).1) hahead))
      -- an input without spaces behind it stands in front of what ends the line
      cases spacing with
      | nil => exact hends
      | cons s spacing =>
          exact ⟨s, rfl, Or.inr (Or.inl (hspacing s (List.mem_cons_self ..)).2)⟩

end Token

/-! ### The tokens of a text -/

namespace Lexeme

variable {config : Config} {opening closing : Char}

theorem plain_of_mem_ofBody (hconfig : config.Delimited opening closing) (switches : Switches)
    (start : Nat) {body : Text} (hbody : '\n' ∉ body) {t : Token}
    (ht : t ∈ tokens (ofBody config switches start body)) : t.Plain := by
  rw [ofBody, tokens_map_token] at ht
  obtain ⟨p, hp, hkind, htext⟩ := (place_spec _ _).2 t ht
  rw [Token.Plain, hkind, htext]
  exact Piece.plain_of_mem_ofBody hconfig switches hbody hp

theorem inLine_ofLine (hconfig : config.Delimited opening closing) (switches : Switches)
    (start : Nat) {line : Text} (hline : '\n' ∉ line) :
    Token.InLine (tokens (ofLine config switches start line)) := by
  -- a line without an input is read as its body
  have hwhole (h : tokens (ofLine config switches start line) =
      tokens (ofBody config switches start line)) :
      Token.InLine (tokens (ofLine config switches start line)) := by
    rw [h]
    exact .plain fun t ht => plain_of_mem_ofBody hconfig switches start hline ht
  by_cases hswitch : switches.inputs
  · cases hmarker : config.inputs.trailing? line with
    | none => exact hwhole (by simp [ofLine, hswitch, hmarker, warnInput, tokens_append])
    | some marker =>
        have hbody : '\n' ∉ line.take marker.start := fun h => hline (List.mem_of_mem_take h)
        have hmarker' := hmarker
        rw [hconfig.inputs] at hmarker'
        obtain ⟨-, -, -, hspaces⟩ := InputRule.trailing?_delimited hmarker'
        have htokens : tokens (ofLine config switches start line) =
            tokens (ofBody config switches start (line.take marker.start)) ++
              tokens (ofMarker config (start + (line.take marker.start).length)
                (start + line.length) marker) := by
          simp [ofLine, hswitch, hmarker, warnInput, tokens_append]
        rw [htokens, tokens_ofMarker]
        refine .input (fun t ht => plain_of_mem_ofBody hconfig switches start hbody ht) rfl fun t ht => ?_
        by_cases hspacing : marker.spacing = []
        · rw [if_pos hspacing] at ht
          cases ht
        · rw [if_neg hspacing] at ht
          rw [List.mem_singleton.1 ht]
          refine ⟨⟨⟨hspacing, fun c hc => ?_⟩, Or.inl rfl⟩, rfl⟩
          rw [hspaces c hc]
          decide
  · exact hwhole (by simp [ofLine, hswitch])

/-- The tokens of lines: each line with its newlines, and the end of the text. -/
theorem lexed_ofLines (hconfig : config.Delimited opening closing) (switches : Switches)
    {ls : List Text.Line} :
    ∀ (start : Nat), Text.Chained ls → Token.Lexed (tokens (ofLines config switches start ls)) := by
  induction ls with
  | nil => exact fun start h => h.elim
  | cons line rest ih =>
      intro start h
      have hinline := inLine_ofLine hconfig switches start h.not_mem_body
      rw [tokens_ofLines_cons]
      cases rest with
      | nil =>
          have hnewlines : line.newlines = 0 := h.2
          simp only [ofNewlines, hnewlines, ofLines, if_true]
          exact hinline.lexed_append (.finish rfl rfl) ⟨_, rfl, Or.inr (Or.inr rfl)⟩
      | cons next rest =>
          obtain ⟨-, hnewlines, hchained⟩ := h
          rw [tokens_ofNewlines hnewlines]
          refine hinline.lexed_append (.cons (by simp) ⟨?_, ?_⟩ (by simp) (ih _ hchained))
            ⟨_, rfl, Or.inl rfl⟩
          · simpa using hnewlines
          · exact fun c hc => (List.mem_replicate.1 hc).2

/-- **The tokens of a text follow one another as tokens may.** -/
theorem lexed_ofText (hconfig : config.Delimited opening closing) (switches : Switches)
    (text : Text) :
    Token.Lexed (tokens (ofText config switches text)) :=
  lexed_ofLines hconfig switches 0 (Text.chained_lines text)

/-- The tokens of a text make up the text. -/
theorem written_ofText (hconfig : config.Delimited opening closing) (switches : Switches)
    (text : Text) :
    (tokens (ofText config switches text)).flatMap (Token.written opening closing) = text :=
  (tiles_ofText hconfig.inputs switches text).written

end Lexeme

end Transcript
