/-
**What a program matches where spacing is kept.**

The tags of a transcript cut it into segments.  Where spacing is matched as written, the program of
the transcript matches exactly the outputs in which any texts stand between the segments, with any
number of newlines at the end.  A tag at the end of the transcript takes no newline at the end of the
output, but this keeps no output from being matched: the newlines are left to the end.

Main definitions:

* `Transcript.Token.segments` — the texts between the tags;
* `Transcript.Token.weave` — values between segments.

Main results:

* `Transcript.Literal.fits_iff_weave` — where the fragments of the tokens fit;
* `Transcript.Literal.isMatch_iff_weave` — **the outputs that a program matches**.
-/

import Transcript.Proofs.Compile.Groups
import Transcript.Proofs.Compile.Literal
import Transcript.Proofs.Markup.Tiling
import Transcript.Proofs.Match.Fits

set_option relaxedAutoImplicit false
set_option autoImplicit false

namespace Transcript

/-! ### Segments -/

namespace Token

def prependText (s : Text) : List Text → List Text
  | [] => [s]
  | first :: rest => (s ++ first) :: rest

/-- The texts between the tags; an input stands for the text that is typed. -/
def segments : List Token → List Text
  | [] => [[]]
  | t :: ahead =>
      if t.kind = .tag then [] :: segments ahead else prependText t.text (segments ahead)

/-- Segments with a value between each of them and the next. -/
def weave : (segments values : List Text) → Text
  | [], _ => []
  | first :: _, [] => first
  | first :: rest, value :: values => first ++ value ++ weave rest values

theorem segments_ne_nil (ts : List Token) : segments ts ≠ [] := by
  cases ts with
  | nil => simp [segments]
  | cons t ts =>
      unfold segments
      by_cases htag : t.kind = .tag
      · simp [htag]
      · cases h : segments ts <;> simp [htag, prependText]

/-- There is one segment more than there are tags. -/
theorem length_segments (ts : List Token) :
    (segments ts).length = (ts.filter (·.kind = .tag)).length + 1 := by
  induction ts with
  | nil => rfl
  | cons t ts ih =>
      unfold segments
      by_cases htag : t.kind = .tag
      · simp [htag, ih]
      · obtain ⟨first, rest, hsegments⟩ := List.exists_cons_of_ne_nil (segments_ne_nil ts)
        rw [if_neg htag, hsegments, prependText]
        simpa [htag, hsegments] using ih

theorem weave_prependText (s : Text) {segments : List Text} (hne : segments ≠ [])
    (values : List Text) : weave (prependText s segments) values = s ++ weave segments values := by
  obtain ⟨first, rest, rfl⟩ := List.exists_cons_of_ne_nil hne
  cases values <;> simp [prependText, weave]

/-- Tokens that are no tags stand in front of the values. -/
theorem weave_append {run : List Token} (hrun : ∀ t ∈ run, t.kind ≠ .tag) (ahead : List Token)
    (values : List Text) : weave (segments (run ++ ahead)) values =
      run.flatMap Token.text ++ weave (segments ahead) values := by
  induction run with
  | nil => rfl
  | cons t run ih =>
      have hsegments : segments (t :: (run ++ ahead)) = prependText t.text (segments (run ++ ahead)) :=
        if_neg (hrun t (List.mem_cons_self ..))
      rw [List.cons_append, hsegments, weave_prependText _ (segments_ne_nil _),
        ih fun u hu => hrun u (List.mem_cons_of_mem _ hu), List.flatMap_cons, List.append_assoc]

/-- The tags themselves are values that give back the text of the tokens. -/
theorem weave_tags (ts : List Token) :
    weave (segments ts) ((ts.filter (·.kind = .tag)).map Token.text) = ts.flatMap Token.text := by
  induction ts with
  | nil => rfl
  | cons t ts ih =>
      by_cases htag : t.kind = .tag
      · simp [segments, htag, weave, ih]
      · rw [← List.singleton_append, weave_append (by simpa using htag)]
        simpa [htag] using ih

end Token

namespace Literal

open Fragment Token

variable {config : Config}

theorem fits_finish_iff (offset : Nat) {c : Cursor} :
    Fits [⟨offset, .finish .newlines⟩] c ↔ ∃ k, c.after = List.replicate k '\n' := by
  rw [fits_finish]
  constructor
  · exact fun hall => ⟨c.after.length, List.eq_replicate_iff.2 ⟨rfl, hall⟩⟩
  · rintro ⟨k, hk⟩ b hb
    rw [hk] at hb
    exact (List.mem_replicate.1 hb).2

/-- The fragments of the tokens fit in front of the segments with any values between them and newlines
at the end. -/
theorem fits_iff_weave {tokens : List Token} (h : Lexed tokens) {c : Cursor} :
    Fits (ofTokens config tokens) c ↔
      ∃ values k, values.length + 1 = (segments tokens).length ∧
        c.after = weave (segments tokens) values ++ List.replicate k '\n' := by
  induction h generalizing c with
  | @finish t hkind hformed =>
      have hsegments : segments [t] = [[]] := by
        simp [segments, hkind, prependText, hformed.of_finish hkind]
      rw [ofTokens, ofTokens, ofToken_of_finish config [] hkind, fits_finish_iff, hsegments]
      constructor
      · rintro ⟨k, hk⟩
        exact ⟨[], k, rfl, hk⟩
      · rintro ⟨values, k, hlength, hk⟩
        obtain rfl : values = [] := by simpa using hlength
        exact ⟨k, hk⟩
  | @cons t ahead hkind hformed hinput hahead ih =>
      by_cases htag : t.kind = .tag
      · have hsegments : segments (t :: ahead) = [] :: segments ahead := if_pos htag
        rw [ofTokens, ofToken_of_tag config ahead htag, hsegments]
        constructor
        · intro h
          obtain ⟨value, d, hreads, -, hrest⟩ := fits_cons.1 h
          obtain ⟨values, k, hlength, hafter⟩ := ih.1 hrest
          refine ⟨value :: values, k, by simpa using hlength, ?_⟩
          rw [hreads.after, hafter, weave, List.nil_append, List.append_assoc]
        · rintro ⟨values, k, hlength, hafter⟩
          cases values with
          | nil =>
              have hpos := List.length_pos_iff.2 (segments_ne_nil ahead)
              rw [List.length_nil, List.length_cons] at hlength
              omega
          | cons value values =>
              by_cases hend : finishAhead ahead
              · -- the tag ends the text
                cases hahead with
                | @finish f hfkind hfformed =>
                    rw [ofTag, if_pos hend, ofTokens, ofTokens, ofToken_of_finish config [] hfkind]
                    exact fits_lineEnd _ _ _ _ c
                | @cons f rest hfkind => simp [finishAhead, hfkind] at hend
              · rw [weave, List.nil_append, List.append_assoc] at hafter
                refine fits_past _ _ hafter ?_ (ih.2 ⟨values, k, by simpa using hlength, rfl⟩)
                rw [ofTag, if_neg hend]
                trivial
      · have hsegments : segments (t :: ahead) = prependText t.text (segments ahead) := if_neg htag
        have hlength' : (prependText t.text (segments ahead)).length = (segments ahead).length := by
          obtain ⟨first, rest, hfirst⟩ := List.exists_cons_of_ne_nil (segments_ne_nil ahead)
          simp [hfirst, prependText]
        rw [ofTokens, ofToken_of_text config ahead htag hkind, hsegments, hlength']
        constructor
        · intro h
          obtain ⟨value, d, hreads, hadmits, hrest⟩ := fits_cons.1 h
          obtain rfl : value = t.text := hadmits
          obtain ⟨values, k, hlength, hafter⟩ := ih.1 hrest
          refine ⟨values, k, hlength, ?_⟩
          rw [hreads.after, hafter, weave_prependText _ (segments_ne_nil ahead), List.append_assoc]
        · rintro ⟨values, k, hlength, hafter⟩
          rw [weave_prependText _ (segments_ne_nil ahead), List.append_assoc] at hafter
          exact fits_past _ _ hafter rfl (ih.2 ⟨values, k, hlength, rfl⟩)

/-- **The outputs that a program matches where spacing is kept.**  The tokens make up the text without
the newlines at its end; the program can be matched, and it matches exactly the outputs that have any
texts in place of the tags, and any number of newlines at the end. -/
theorem isMatch_iff_weave {opening closing : Char} (hconfig : config.Delimited opening closing)
    {switches : Switches} {text : Text} {p : Program}
    (h : Compiler.compile .literal config switches text = .ok p) :
    (Compiler.tokens .literal config switches text).flatMap (written opening closing) =
        Text.trimNewlines text ∧
      ∃ m, p.matcher? = some m ∧ ∀ output, m.isMatch output = true ↔
        ∃ values k,
          values.length =
            ((Compiler.tokens .literal config switches text).filter (·.kind = .tag)).length ∧
          output = weave (segments (Compiler.tokens .literal config switches text)) values ++
            List.replicate k '\n' := by
  obtain ⟨tagOpening, tagClosing, htags⟩ := hconfig.tags
  refine ⟨Lexeme.written_ofText hconfig switches _, _, Compiler.matcher?_of_compile ?_ h, fun output => ?_⟩
  · rw [htags]
    exact TagRule.named_delimited
  · have hlexed : Lexed (Compiler.tokens .literal config switches text) :=
      Lexeme.lexed_ofText hconfig switches _
    rw [Matcher.isMatch, Compiler.fragments_of_compile h, Policy.table, table, isMatch_start_iff,
      fits_iff_weave hlexed, length_segments]
    simp only [Nat.add_right_cancel_iff, Cursor.start]

/-- A tag may stand for several lines. -/
theorem isMatch_lines :
    ∃ p m, Compiler.compile .literal .standard ⟨true, true⟩ "show: [f]\n<x>\n".toList = .ok p ∧
      p.matcher? = some m ∧ m.isMatch "show: f\na\nb\n\n".toList = true := by
  have htokens : Compiler.tokens .literal .standard ⟨true, true⟩ "show: [f]\n<x>\n".toList =
      [⟨0, .literal, "show:".toList⟩, ⟨5, .spaces, " ".toList⟩, ⟨6, .input, "f".toList⟩,
        ⟨9, .newlines, "\n".toList⟩, ⟨10, .tag, "<x>".toList⟩, ⟨13, .finish, []⟩] := by decide +kernel
  obtain ⟨p, hp⟩ :=
    Compiler.exists_compile_eq_ok htokens (by decide +kernel) (by decide +kernel)
  obtain ⟨-, m, hm, hmatch⟩ := isMatch_iff_weave Config.delimited_standard hp
  rw [htokens] at hmatch
  exact ⟨p, m, hp, hm, (hmatch _).2 ⟨["a\nb".toList], 2, rfl, rfl⟩⟩

end Literal

end Transcript
