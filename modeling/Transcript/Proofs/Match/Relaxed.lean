/-
**Normalizing spacing matches more.**

A transcript can be compiled with spacing as written or with spacing normalized.  Whatever the first
program matches, the second one matches too: the values of the tags are handed on, less the white space
next to white space of the transcript, which goes to that.  Inputs have to be switched off, as the echo
of one may run into the white space in front of it.

Main definitions:

* `Transcript.Spacing.Alike` — tokens ahead that look the same to what stands in front of them.

Main results:

* `Transcript.Spacing.shapes_ofTokens` — newlines in front of the end do not matter to the table;
* `Transcript.Spacing.Layout.fits_of_weave` — fragments fit in front of the text of their tokens with
  any values;
* `Transcript.Compiler.isMatch_normalize_of_literal` — **normalizing spacing matches more**.
-/

import Transcript.Proofs.Markup.Ending
import Transcript.Proofs.Match.Echo
import Transcript.Proofs.Match.Orderly

set_option relaxedAutoImplicit false
set_option autoImplicit false

namespace Transcript

namespace Spacing

open Fragment Token

variable {config : Config}

/-! ### Newlines in front of the end -/

/-- What stands ahead looks the same to a tag or a run of white space in front of it. -/
structure Alike (ahead ahead' : List Token) : Prop where
  spaceAhead : spaceAhead ahead = spaceAhead ahead'
  lineEndAhead : lineEndAhead ahead = lineEndAhead ahead'
  ofGap : ∀ first, ofGap first (afterRun ahead) = ofGap first (afterRun ahead')

theorem alike_finish {gap : List Token} {t t' : Token} (ht : t.kind = .finish)
    (ht' : t'.kind = .finish) (hgap : gap = [] ∨ ∃ u, gap = [u] ∧ u.kind = .newlines) :
    Alike [t] (gap ++ [t']) := by
  have hspace : t.kind.isSpace = false := by rw [ht]; rfl
  have hspace' : t'.kind.isSpace = false := by rw [ht']; rfl
  rcases hgap with rfl | ⟨u, rfl, hu⟩
  · refine ⟨by simp [spaceAhead, ht, ht'], by simp [lineEndAhead, ht, ht'], fun first => ?_⟩
    rw [List.nil_append, afterRun_cons_of_not_isSpace [] hspace,
      afterRun_cons_of_not_isSpace [] hspace', ofGap_of_finish first [] ht,
      ofGap_of_finish first [] ht']
  · have husp : u.kind.isSpace = true := by rw [hu]; rfl
    refine ⟨by simp [spaceAhead, ht, husp], by simp [lineEndAhead, ht, hu], fun first => ?_⟩
    rw [List.singleton_append, afterRun_cons_of_isSpace [t'] husp,
      afterRun_cons_of_not_isSpace [] hspace, afterRun_cons_of_not_isSpace [] hspace',
      ofGap_of_finish first [] ht, ofGap_of_finish first [] ht']

theorem Alike.cons {ahead ahead' : List Token} (h : Alike ahead ahead') (t : Token) :
    Alike (t :: ahead) (t :: ahead') := by
  refine ⟨rfl, rfl, fun first => ?_⟩
  cases hspace : t.kind.isSpace with
  | true =>
      rw [afterRun_cons_of_isSpace ahead hspace, afterRun_cons_of_isSpace ahead' hspace]
      exact h.ofGap first
  | false =>
      rw [afterRun_cons_of_not_isSpace ahead hspace, afterRun_cons_of_not_isSpace ahead' hspace]
      simp only [Spacing.ofGap, h.spaceAhead]

theorem Alike.ofToken {ahead ahead' : List Token} (h : Alike ahead ahead') (config : Config)
    (behind : List Token) (t : Token) :
    ofToken config behind t ahead = ofToken config behind t ahead' := by
  unfold Spacing.ofToken
  cases t.kind <;> simp only [ofTag, h.spaceAhead, h.lineEndAhead, h.ofGap]

/-- **Newlines in front of the end do not matter** to what the tokens become. -/
theorem shapes_ofTokens {gap : List Token} {t t' : Token} (ht : t.kind = .finish)
    (ht' : t'.kind = .finish) (hgap : gap = [] ∨ ∃ u, gap = [u] ∧ u.kind = .newlines)
    (lead : List Token) :
    ∀ behind, (ofTokens config behind (lead ++ [t])).map Fragment.shape =
      (ofTokens config behind (lead ++ (gap ++ [t']))).map Fragment.shape := by
  induction lead with
  | nil =>
      intro behind
      rw [List.nil_append, List.nil_append, ofTokens_cons, ofToken_of_finish config behind [] ht]
      rcases hgap with rfl | ⟨u, rfl, hu⟩
      · rw [List.nil_append, ofTokens_cons, ofToken_of_finish config behind [] ht']
        rfl
      · have hspace : u.kind.isSpace = true := by rw [hu]; rfl
        have hspace' : t'.kind.isSpace = false := by rw [ht']; rfl
        rw [show [u] ++ [t'] = u :: [t'] from rfl, ofTokens_cons,
          ofToken_of_isSpace config behind [t'] hspace, afterRun_cons_of_not_isSpace [] hspace',
          ofGap_of_finish u [] ht', ite_self, ofTokens_cons, ofToken_of_finish config _ [] ht']
        rfl
  | cons u lead ih =>
      intro behind
      have halike : Alike (lead ++ [t]) (lead ++ (gap ++ [t'])) := by
        clear ih
        induction lead with
        | nil => exact alike_finish ht ht' hgap
        | cons v lead ih => exact ih.cons v
      rw [List.cons_append, List.cons_append, ofTokens_cons, ofTokens_cons, halike.ofToken,
        List.map_append, List.map_append, ih]

/-! ### Values between the texts -/

/-- What follows without white space, and is neither a tag nor the end, fits in front of no white
space. -/
theorem Layout.blankAhead_eq_false {tokens : List Token} {fragments : List Fragment}
    (h : Layout config tokens fragments) (hinput : ∀ t ∈ tokens, t.kind ≠ .input)
    (hspace : spaceAhead tokens = false) (htag : tagAhead tokens = false) {c : Cursor}
    (hfits : Fits fragments c) : c.blankAhead = false := by
  cases h with
  | finish offset hkind htext => simp [spaceAhead, hkind] at hspace
  | gapFinish offset hgap hkind htext => simp [spaceAhead_of_gap hgap] at hspace
  | @text t ahead fragments hkind hformed hinput' hahead =>
      rw [Formed, TokenKind.eq_literal hkind (hinput t (List.mem_cons_self ..))] at hformed
      obtain ⟨s, d, hreads, hadmits, -⟩ := fits_cons.1 hfits
      obtain rfl : s = t.text := hadmits
      rw [Cursor.blankAhead, hreads.after, List.head?_append_of_ne_nil _ hformed.1]
      exact head?_any_of_forall hformed.2
  | gapText offset hgap hkind hformed hinput hahead => simp [spaceAhead_of_gap hgap] at hspace
  | tag hkind hformed hahead => simp [tagAhead, hkind] at htag
  | gapTag offset hgap hkind hformed hahead => simp [spaceAhead_of_gap hgap] at hspace

/-- A tag with white space on its right leaves the white space at the end of a value to it. -/
theorem fits_rightSpace {fragments : List Fragment} (h : Spreads fragments) (offset : Nat)
    (binding : Option Text) (greedy : Bool) {c e : Cursor} {value : Text}
    (hbehind : c.blankBehind = false) (hreads : c.Reads value e) (hrest : Fits fragments e) :
    Fits (⟨offset, .tag binding .rightSpace greedy⟩ :: fragments) c := by
  obtain ⟨front, back, rfl, hback, hfront⟩ := Text.exists_trimBlank value
  obtain ⟨m, hm, hm'⟩ := hreads.split
  refine fits_cons.2 ⟨front, m, hm, ?_, h hm' hback hrest⟩
  change m.previous.any Text.isBlank = false
  rw [hm.previous]
  cases hlast : front.getLast? with
  | none => exact hbehind
  | some ch => rwa [hlast] at hfront

/-- White space in front of a tag takes the white space at the beginning of a value, and all there is
if the value is nothing else. -/
theorem fits_leftSpace {fragments : List Fragment} (offset offset' : Nat) (binding : Option Text)
    (greedy : Bool) {c e : Cursor} {gap value : Text} (hne : gap ≠ [])
    (hgap : ∀ b ∈ gap, Text.isBlank b = true) (hreads : c.Reads (gap ++ value) e)
    (hnext : e.blankAhead = false) (hrest : Fits fragments e) :
    Fits (⟨offset, .spaces⟩ :: ⟨offset', .tag binding .leftSpace greedy⟩ :: fragments) c := by
  have hvalue := List.takeWhile_append_dropWhile (p := Text.isBlank) (l := value)
  have hhead := Text.head?_dropWhile_isBlank value
  have hblank := List.all_eq_true.1 (List.all_takeWhile (p := Text.isBlank) (l := value))
  generalize value.takeWhile Text.isBlank = front at hvalue hblank
  generalize value.dropWhile Text.isBlank = back at hvalue hhead
  rw [← hvalue, ← List.append_assoc] at hreads
  obtain ⟨m, hm, hm'⟩ := hreads.split
  have hahead : m.blankAhead = false := by
    cases back with
    | nil => rwa [hm'.eq_of_nil] at hnext
    | cons ch back =>
        rw [Cursor.blankAhead, hm'.after]
        exact hhead
  refine fits_cons.2 ⟨gap ++ front, m, hm, ⟨by simp [hne], fun b hb => ?_, hahead⟩,
    fits_cons.2 ⟨back, e, hm', trivial, hrest⟩⟩
  rcases List.mem_append.1 hb with hb | hb
  · exact hgap b hb
  · exact hblank b hb

/-- The values of the tags, the first of which comes next. -/
theorem exists_value {t : Token} {ahead : List Token} (htag : t.kind = .tag) {values : List Text}
    (hlength : values.length = ((t :: ahead).filter (·.kind = .tag)).length) :
    ∃ value values', values = value :: values' ∧
      values'.length = (ahead.filter (·.kind = .tag)).length ∧
      weave (segments (t :: ahead)) values = value ++ weave (segments ahead) values' := by
  cases values with
  | nil => simp [htag] at hlength
  | cons value values' =>
      exact ⟨value, values', rfl, by simpa [htag] using hlength, by simp [segments, htag, weave]⟩

/-- A run of white space holds no tag. -/
theorem kind_ne_tag_of_gap {run : List Token} (hgap : Gap run) : ∀ t ∈ run, t.kind ≠ .tag := by
  intro t ht hkind
  have hspace := hgap.isSpace t ht
  rw [hkind] at hspace
  exact Bool.noConfusion hspace

/-- The tags are those behind a run of white space. -/
theorem tags_gap {run : List Token} (hgap : Gap run) (ahead : List Token) :
    (run ++ ahead).filter (·.kind = .tag) = ahead.filter (·.kind = .tag) := by
  have hnil : run.filter (·.kind = .tag) = [] :=
    List.filter_eq_nil_iff.2 fun t ht => by simpa using kind_ne_tag_of_gap hgap t ht
  rw [List.filter_append, hnil, List.nil_append]

/-- Text that is not an input is not empty and has no white space. -/
theorem text_of_isText {t : Token} (hkind : t.kind.isText) (hformed : t.Formed)
    (hinput : t.kind ≠ .input) :
    t.kind ≠ .tag ∧ t.text ≠ [] ∧ ∀ x ∈ t.text, Text.isBlank x = false := by
  have hliteral := TokenKind.eq_literal hkind hinput
  rw [Formed, hliteral] at hformed
  exact ⟨by simp [hliteral], hformed⟩

theorem weave_finish {t : Token} (hkind : t.kind = .finish) (htext : t.text = []) {values : List Text}
    (hlength : values.length = ([t].filter (·.kind = .tag)).length) :
    weave (segments [t]) values = [] := by
  obtain rfl : values = [] := by simpa [hkind] using hlength
  simp [segments, hkind, prependText, htext, weave]

/-- **Fragments fit in front of the text of their tokens** with any values in place of the tags, and
white space at the end. -/
theorem Layout.fits_of_weave {tokens : List Token} {fragments : List Fragment}
    (h : Layout config tokens fragments) (hinput : ∀ t ∈ tokens, t.kind ≠ .input)
    (hapart : Apart tokens) {tail : Text} (htail : ∀ b ∈ tail, Text.isBlank b = true) :
    ∀ {values : List Text} {c : Cursor},
      values.length = (tokens.filter (·.kind = .tag)).length →
      c.after = weave (segments tokens) values ++ tail →
      (tagAhead tokens = true → c.blankBehind = false) → Fits fragments c := by
  induction h with
  | @finish t offset hkind htext =>
      intro values c hlength hafter _
      rw [fits_finish, hafter, weave_finish hkind htext hlength]
      exact htail
  | @gapFinish run t offset hgap hkind htext =>
      intro values c hlength hafter _
      rw [tags_gap hgap] at hlength
      rw [fits_finish, hafter, weave_append (kind_ne_tag_of_gap hgap), weave_finish hkind htext hlength]
      intro b hb
      rcases List.mem_append.1 hb with hb | hb
      · exact hgap.text.2 b (by simpa using hb)
      · exact htail b hb
  | @text t ahead fragments hkind hformed hinput' hahead ih =>
      intro values c hlength hafter _
      obtain ⟨htag, hne, hblank⟩ := text_of_isText hkind hformed (hinput t (List.mem_cons_self ..))
      rw [← List.singleton_append, weave_append (by simpa using htag)] at hafter
      refine fits_past t.text (weave (segments ahead) values ++ tail) (by simpa using hafter) rfl ?_
      exact ih (fun u hu => hinput u (List.mem_cons_of_mem _ hu)) hapart.2
        (by simpa [htag] using hlength) rfl fun _ => blankBehind_past [] hne hblank
  | @gapText run t ahead fragments offset hgap hkind hformed hinput' hahead ih =>
      intro values c hlength hafter _
      obtain ⟨htag, hne, hblank⟩ := text_of_isText hkind hformed (hinput t (by simp))
      rw [tags_gap hgap] at hlength
      rw [weave_append (kind_ne_tag_of_gap hgap), ← List.singleton_append,
        weave_append (by simpa using htag), List.append_assoc, List.append_assoc] at hafter
      refine fits_past _ (t.text ++ (weave (segments ahead) values ++ tail)) (by simpa using hafter)
        ⟨hgap.text.1, hgap.text.2, ?_⟩ (fits_past t.text _ rfl rfl ?_)
      · rw [blankAhead_past, List.head?_append_of_ne_nil _ hne]
        exact head?_any_of_forall hblank
      · exact ih (fun u hu => hinput u (by simp [hu])) hapart.of_append.2
          (by simpa [htag] using hlength) rfl fun _ => blankBehind_past [] hne hblank
  | @tag t ahead fragments hkind hformed hahead ih =>
      intro values c hlength hafter hbehind
      have hinputs : ∀ u ∈ ahead, u.kind ≠ .input := fun u hu => hinput u (List.mem_cons_of_mem _ hu)
      obtain ⟨value, values', rfl, hlength', hweave⟩ := exists_value hkind hlength
      rw [hweave, List.append_assoc] at hafter
      have hrest := ih (c := c.past value (weave (segments ahead) values' ++ tail)) hinputs hapart.2
        hlength' rfl fun htag => Bool.noConfusion ((hapart.1 hkind).symm.trans htag)
      unfold tagShape
      cases hright : spaceAhead ahead with
      | true =>
          exact fits_rightSpace ((hahead.orderly hinputs hapart.2).spreads (hahead.beginsBlank hright))
            _ _ _ (hbehind (by simp [tagAhead, hkind])) (Cursor.reads_past hafter) hrest
      | false => exact fits_past value _ hafter trivial hrest
  | @gapTag run t ahead fragments offset hgap hkind hformed hahead ih =>
      intro values c hlength hafter _
      have hinputs : ∀ u ∈ ahead, u.kind ≠ .input := fun u hu => hinput u (by simp [hu])
      have hapart' := hapart.of_append
      rw [tags_gap hgap] at hlength
      obtain ⟨value, values', rfl, hlength', hweave⟩ := exists_value hkind hlength
      rw [weave_append (kind_ne_tag_of_gap hgap), hweave, ← List.append_assoc,
        List.append_assoc] at hafter
      have hreads := Cursor.reads_past hafter
      have hrest := ih (c := c.past (run.flatMap Token.text ++ value)
        (weave (segments ahead) values' ++ tail)) hinputs hapart'.2 hlength' rfl
        fun htag => Bool.noConfusion ((hapart'.1 hkind).symm.trans htag)
      unfold tagShape
      cases hright : spaceAhead ahead with
      | true =>
          -- the first character of the run is left to the white space, and the others to the tag
          obtain ⟨b, gap, hrun⟩ := List.exists_cons_of_ne_nil hgap.text.1
          have hb := hgap.text.2 b (by simp [hrun])
          rw [hrun] at hreads hrest
          obtain ⟨m, hm, hm'⟩ := Cursor.Reads.split (s := [b]) hreads
          exact fits_bothSpace ((hahead.orderly hinputs hapart'.2).spreads (hahead.beginsBlank hright))
            _ _ _ _ hb hm hm' hrest
      | false =>
          exact fits_leftSpace _ _ _ _ hgap.text.1 hgap.text.2 hreads
            (hahead.blankAhead_eq_false hinputs hright (hapart'.1 hkind) hrest) hrest

end Spacing

/-! ### Programs -/

namespace Compiler

open Fragment Token

/-- Where spacing is kept, a program matches what has values in place of the tags, and newlines at the
end. -/
theorem isMatch_literal_iff {config : Config} {switches : Switches} {text : Text} {p : Program}
    (hlexed : Lexed (tokens .literal config switches text))
    (h : compile .literal config switches text = .ok p) {output : Text} :
    (⟨p, Fragment.regex p.fragments⟩ : Matcher).isMatch output = true ↔
      ∃ values k,
        values.length = ((tokens .literal config switches text).filter (·.kind = .tag)).length ∧
        output = weave (segments (tokens .literal config switches text)) values ++
          List.replicate k '\n' := by
  rw [Matcher.isMatch, fragments_of_compile h, Policy.table, Literal.table, isMatch_start_iff,
    Literal.fits_iff_weave hlexed, length_segments]
  simp only [Nat.add_right_cancel_iff, Cursor.start]

/-- **Normalizing spacing matches more.**  Where a text without inputs compiles either way, the two
programs can be matched, and what the one that keeps spacing matches, the one that normalizes it matches
as well. -/
theorem isMatch_normalize_of_literal {config : Config}
    (htags : ∃ opening closing, config.tags = .delimited opening closing) {switches : Switches}
    (hoff : switches.inputs = false) {text : Text} {kept normalized : Program}
    (hkept : compile .literal config switches text = .ok kept)
    (hnormalized : compile .normalize config switches text = .ok normalized) :
    ∃ m n, kept.matcher? = some m ∧ normalized.matcher? = some n ∧
      ∀ output, m.isMatch output = true → n.isMatch output = true := by
  have hnamed := TagRule.named_of_exists htags
  obtain ⟨last, hrun, -, -⟩ := compile_eq_ok hkept
  have htable : normalized.fragments =
      Spacing.table config (tokens .normalize config switches text) :=
    fragments_of_compile hnormalized
  obtain ⟨hlexed, hinput⟩ := lexed_tokens .literal htags hoff text
  obtain ⟨lead, gap, stop, stop', hlead, hlead', hgap⟩ :=
    exists_tokens_literal_normalize config hoff text
  refine ⟨_, _, matcher?_of_compile hnamed hkept, matcher?_of_compile hnamed hnormalized,
    fun output hmatch => ?_⟩
  obtain ⟨values, k, hlength, hafter⟩ := (isMatch_literal_iff hlexed hkept).1 hmatch
  rw [Matcher.isMatch, htable, Spacing.table, isMatch_start_iff, hlead',
    ← fits_congr (Spacing.shapes_ofTokens (t := ⟨stop, .finish, []⟩) rfl rfl hgap lead []), ← hlead]
  refine (Spacing.layout_ofTokens hlexed).fits_of_weave hinput (Machine.apart_of_feedAll hrun).1
    (fun b hb => ?_) hlength hafter fun _ => rfl
  rw [(List.mem_replicate.1 hb).2]
  decide

/-- A value that ends in white space, and another one that ends in white space in front of the
newlines at the end. -/
theorem isMatch_normalize_values :
    ∃ p q m n, compile .literal .standard ⟨true, false⟩ "a <x> <y> \n".toList = .ok p ∧
      compile .normalize .standard ⟨true, false⟩ "a <x> <y> \n".toList = .ok q ∧
      p.matcher? = some m ∧ q.matcher? = some n ∧
      m.isMatch "a b \n  c  \n\n".toList = true ∧ n.isMatch "a b \n  c  \n\n".toList = true := by
  have htokens : tokens .literal .standard ⟨true, false⟩ "a <x> <y> \n".toList =
      [⟨0, .literal, "a".toList⟩, ⟨1, .spaces, " ".toList⟩, ⟨2, .tag, "<x>".toList⟩,
        ⟨5, .spaces, " ".toList⟩, ⟨6, .tag, "<y>".toList⟩, ⟨9, .spaces, " ".toList⟩,
        ⟨10, .finish, []⟩] := by decide +kernel
  have htokens' : tokens .normalize .standard ⟨true, false⟩ "a <x> <y> \n".toList =
      [⟨0, .literal, "a".toList⟩, ⟨1, .spaces, " ".toList⟩, ⟨2, .tag, "<x>".toList⟩,
        ⟨5, .spaces, " ".toList⟩, ⟨6, .tag, "<y>".toList⟩, ⟨9, .spaces, " ".toList⟩,
        ⟨10, .newlines, "\n".toList⟩, ⟨11, .finish, []⟩] := by decide +kernel
  obtain ⟨p, hp⟩ := exists_compile_eq_ok htokens (by decide +kernel) (by decide +kernel)
  obtain ⟨q, hq⟩ := exists_compile_eq_ok htokens' (by decide +kernel) (by decide +kernel)
  obtain ⟨m, n, hm, hn, hmatch⟩ :=
    isMatch_normalize_of_literal Config.delimited_standard.tags rfl hp hq
  obtain rfl := eq_of_matcher? TagRule.named_delimited hp hm
  have hlexed : Lexed (tokens .literal .standard ⟨true, false⟩ "a <x> <y> \n".toList) :=
    Lexeme.lexed_ofText Config.delimited_standard _ _
  have hliteral := (isMatch_literal_iff hlexed hp).2 ⟨["b \n ".toList, "c ".toList], 2,
    by rw [htokens]; rfl, rfl⟩
  rw [htokens] at hliteral
  exact ⟨p, q, _, n, hp, hq, hm, hn, hliteral, hmatch _ hliteral⟩

end Compiler

end Transcript
