/-
**A program and the transcript it was made from.**

A session echoes what is typed, so the output of a session that goes as expected is the expected text
with every marker replaced by its text.  Where spacing is kept, a program matches this echo.  Where it
is normalized it may fail to: a run of white space in front of an input takes all the white space
there is, and nothing of it is left for an echo that begins with white space, or for white space
behind an empty echo.  Such a program matches no output at all; every other program matches its echo.

Main definitions:

* `Transcript.Compiler.echo` — the expected text with every marker replaced by its text;
* `Transcript.Token.clash` — an input whose echo runs into the white space in front of it.

Main results:

* `Transcript.Spacing.fits_echo`, `Transcript.Spacing.clash_eq_false_of_fits` — without a clash the
  fragments fit in front of the echo, and with one they fit nowhere;
* `Transcript.Compiler.isMatch_echo_iff` — **which programs match their echo**.
-/

import Transcript.Proofs.Compile.Layout
import Transcript.Proofs.Match.Exact

set_option relaxedAutoImplicit false
set_option autoImplicit false

namespace Transcript

/-! ### Clashes -/

namespace Token

open Spacing (afterRun)

/-- White space comes next, and the end of the text does not follow it. -/
def gapAhead (ahead : List Token) : Bool :=
  ahead.head?.any (·.kind.isSpace) && !(afterRun ahead).head?.any (·.kind = .finish)

/-- What is typed begins with white space, or nothing is typed and white space follows that does not
end the text. -/
def runsOn (t : Token) (ahead : List Token) : Bool :=
  t.kind = .input && (t.text.head?.any Text.isBlank || (t.text.isEmpty && gapAhead ahead))

/-- White space stands directly in front of an input whose echo runs on into it. -/
def clash : List Token → Bool
  | s :: t :: ahead => (s.kind.isSpace && runsOn t ahead) || clash (t :: ahead)
  | _ => false

theorem clash_cons_of_not_isSpace {t : Token} (ahead : List Token) (h : t.kind.isSpace = false) :
    clash (t :: ahead) = clash ahead := by
  cases ahead with
  | nil => rfl
  | cons s ahead => simp [clash, h]

/-- A run clashes with what stands behind it. -/
theorem clash_gap {run : List Token} (hgap : Gap run) {t : Token} (ahead : List Token)
    (ht : t.kind.isSpace = false) :
    clash (run ++ t :: ahead) = (runsOn t ahead || clash ahead) := by
  obtain ⟨hne, hspace, -⟩ := hgap
  induction run with
  | nil => exact absurd rfl hne
  | cons s run ih =>
      have hs := hspace s (List.mem_cons_self ..)
      cases run with
      | nil => rw [List.singleton_append, clash, hs, clash_cons_of_not_isSpace ahead ht, Bool.true_and]
      | cons s' run =>
          have hs' := hspace s' (by simp)
          have hnot : runsOn s' (run ++ t :: ahead) = false := by
            cases hk : s'.kind <;> simp_all [runsOn, TokenKind.isSpace]
          rw [List.cons_append, List.cons_append, clash, hnot, Bool.and_false, Bool.false_or,
            ← List.cons_append]
          exact ih (by simp) fun x hx => hspace x (List.mem_cons_of_mem _ hx)

end Token

namespace Spacing

open Fragment Token

variable {config : Config}

/-! ### Texts between positions -/

theorem blankAhead_past {c : Cursor} {s rest : Text} :
    (c.past s rest).blankAhead = rest.head?.any Text.isBlank := rfl

/-- Behind a text that is not empty stands its last character. -/
theorem blankBehind_past {c : Cursor} (gap : Text) {s rest : Text} (hne : s ≠ [])
    (hblank : ∀ x ∈ s, Text.isBlank x = false) : (c.past (gap ++ s) rest).blankBehind = false := by
  have hlast := List.getLast?_eq_some_getLast hne
  simp [Cursor.blankBehind, Cursor.past, List.getLast?_append, hlast, hblank _ (List.getLast_mem hne)]

theorem head?_any_of_forall {s : Text} (hblank : ∀ x ∈ s, Text.isBlank x = false) :
    s.head?.any Text.isBlank = false := by
  cases s with
  | nil => rfl
  | cons x s => simpa using hblank x (List.mem_cons_self ..)

theorem admits_tag {t : Token} {ahead : List Token} (hne : t.text ≠ [])
    (hblank : ∀ x ∈ t.text, Text.isBlank x = false) (c : Cursor) (rest : Text) :
    (tagShape config false t ahead).Admits c t.text (c.past t.text rest) := by
  unfold tagShape
  cases spaceAhead ahead with
  | false => trivial
  | true => exact blankBehind_past [] hne hblank

/-! ### Without a clash -/

/-- Where a line ends that is the last one, there is nothing but white space and the end. -/
theorem Layout.eq_finish {tokens : List Token} {fragments : List Fragment}
    (h : Layout config tokens fragments) (hline : EndsLine tokens) (hends : gapAhead tokens = false) :
    (∀ x ∈ tokens.flatMap Token.text, Text.isBlank x = true) ∧
      ∃ offset, fragments = [⟨offset, .finish .blank⟩] := by
  have hlast {run : List Token} (hgap : Gap run) {t : Token} {ahead : List Token}
      (ht : t.kind.isSpace = false) (hends : gapAhead (run ++ t :: ahead) = false) :
      t.kind = .finish := by
    have hafter : afterRun (run ++ t :: ahead) = t :: ahead := by
      rw [afterRun, List.dropWhile_append_of_pos hgap.isSpace]
      simp [ht]
    have hhead : (run ++ t :: ahead).head?.any (·.kind.isSpace) = true := by
      obtain ⟨s, run', rfl⟩ := List.exists_cons_of_ne_nil hgap.ne_nil
      simpa using hgap.isSpace s (List.mem_cons_self ..)
    rw [gapAhead, hafter, hhead] at hends
    simpa using hends
  cases h with
  | @finish t offset hkind htext => exact ⟨by simp [htext], offset, rfl⟩
  | @gapFinish run t offset hgap hkind htext =>
      refine ⟨?_, offset, rfl⟩
      rw [List.flatMap_append]
      simpa [htext] using hgap.text.2
  | @text t ahead _ hkind =>
      rcases endsLine_cons.1 hline with hk | hk | hk <;> simp [hk, TokenKind.isText] at hkind
  | @gapText run t ahead _ offset hgap hkind =>
      have hk := hlast hgap (isSpace_eq_false_of_isText hkind) hends
      simp [hk, TokenKind.isText] at hkind
  | @tag t ahead _ hkind =>
      rcases endsLine_cons.1 hline with hk | hk | hk <;> simp [hk] at hkind
  | @gapTag run t ahead _ offset hgap hkind =>
      have hk := hlast hgap (by rw [hkind]; rfl) hends
      simp [hk] at hkind

/-- A run of white space and a tag fit in front of themselves. -/
theorem fits_gapTag {run : List Token} {t : Token} {ahead : List Token} {fragments : List Fragment}
    (offset : Nat) (hgap : Gap run) (hne : t.text ≠ [])
    (hblank : ∀ x ∈ t.text, Text.isBlank x = false) {c : Cursor}
    (hafter : c.after = run.flatMap Token.text ++ (t.text ++ ahead.flatMap Token.text))
    (hrest : ∀ {d : Cursor}, d.after = ahead.flatMap Token.text → Fits fragments d) :
    Fits (⟨offset, if spaceAhead ahead then .space else .spaces⟩ ::
      ⟨t.offset, tagShape config true t ahead⟩ :: fragments) c := by
  obtain ⟨hgapne, hgapblank⟩ := hgap.text
  cases hright : spaceAhead ahead with
  | false =>
      refine fits_past _ _ hafter ⟨hgapne, hgapblank, ?_⟩ ?_
      · rw [blankAhead_past, List.head?_append_of_ne_nil _ hne]
        exact head?_any_of_forall hblank
      · refine fits_past t.text (ahead.flatMap Token.text) rfl ?_ (hrest rfl)
        rw [tagShape, hright]
        trivial
  | true =>
      -- the first character of the run, and then the others together with the tag
      obtain ⟨b, gap, hrun⟩ := List.exists_cons_of_ne_nil hgapne
      rw [hrun] at hafter hgapblank
      refine fits_past [b] (gap ++ (t.text ++ ahead.flatMap Token.text))
        (by simpa using hafter) ⟨b, hgapblank b (List.mem_cons_self ..), rfl⟩ ?_
      refine fits_past (gap ++ t.text) (ahead.flatMap Token.text) (by simp [Cursor.past]) ?_ (hrest rfl)
      rw [tagShape, hright]
      exact Or.inr ⟨gap, t.text, rfl, fun b hb => hgapblank b (List.mem_cons_of_mem _ hb), hne,
        head?_any_of_forall hblank, blankBehind_past gap hne hblank⟩

/-- A run of white space and an empty echo fit in front of nothing but white space. -/
theorem fits_gap_empty {run : List Token} {t : Token} {back : Text} {offset' : Nat}
    (offset : Nat) (hgap : Gap run) (hempty : t.text = [])
    (hback : ∀ x ∈ back, Text.isBlank x = true) {c : Cursor}
    (hafter : c.after = run.flatMap Token.text ++ back) :
    Fits [⟨offset, .spaces⟩, ⟨t.offset, .literal t.text⟩, ⟨offset', .finish .blank⟩] c := by
  obtain ⟨hgapne, hgapblank⟩ := hgap.text
  have hall : c.after = (run.flatMap Token.text ++ back) ++ [] := by rw [hafter, List.append_nil]
  refine fits_past _ _ hall ⟨by simp [hgapne], ?_, rfl⟩ ?_
  · intro x hx
    rcases List.mem_append.1 hx with hx | hx
    · exact hgapblank x hx
    · exact hback x hx
  · exact fits_past t.text [] (by rw [hempty]; rfl) rfl (fits_finish.2 (by simp [Cursor.past]))

/-- **Without a clash the fragments fit in front of the echo.** -/
theorem fits_echo {tokens : List Token} {fragments : List Fragment}
    (h : Layout config tokens fragments) (hclash : clash tokens = false) {c : Cursor}
    (hafter : c.after = tokens.flatMap Token.text) : Fits fragments c := by
  induction h generalizing c with
  | @finish t offset hkind htext =>
      exact fits_finish.2 (by simp [hafter, htext])
  | @gapFinish run t offset hgap hkind htext =>
      have htexts : (run ++ [t]).flatMap Token.text = run.flatMap Token.text := by simp [htext]
      rw [fits_finish, hafter, htexts]
      exact hgap.text.2
  | @text t ahead fragments hkind hformed hinput hahead ih =>
      have hspace := isSpace_eq_false_of_isText hkind
      rw [clash_cons_of_not_isSpace ahead hspace] at hclash
      exact fits_past _ _ hafter rfl (ih hclash rfl)
  | @tag t ahead fragments hkind hformed hahead ih =>
      rw [clash_cons_of_not_isSpace ahead (by rw [hkind]; rfl)] at hclash
      obtain ⟨hne, hblank⟩ := hformed.of_tag hkind
      exact fits_past _ _ hafter (admits_tag hne hblank c _) (ih hclash rfl)
  | @gapTag run t ahead fragments offset hgap hkind hformed hahead ih =>
      rw [clash_gap hgap ahead (by rw [hkind]; rfl), Bool.or_eq_false_iff] at hclash
      obtain ⟨hne, hblank⟩ := hformed.of_tag hkind
      rw [List.flatMap_append, List.flatMap_cons] at hafter
      exact fits_gapTag offset hgap hne hblank hafter (ih hclash.2)
  | @gapText run t ahead fragments offset hgap hkind hformed hinput hahead ih =>
      rw [clash_gap hgap ahead (isSpace_eq_false_of_isText hkind), Bool.or_eq_false_iff] at hclash
      obtain ⟨hruns, hclash⟩ := hclash
      rw [List.flatMap_append, List.flatMap_cons] at hafter
      by_cases hempty : t.text = []
      · -- an empty echo leaves no white space behind it but at the end
        have hkind' : t.kind = .input := by
          cases hk : t.kind <;> simp_all [TokenKind.isText, Formed, TokenKind.Spells]
        have hends : gapAhead ahead = false := by simpa [runsOn, hkind', hempty] using hruns
        obtain ⟨hblank, offset', rfl⟩ := hahead.eq_finish (hinput hkind') hends
        rw [hempty, List.nil_append] at hafter
        exact fits_gap_empty offset hgap hempty hblank hafter
      · obtain ⟨hgapne, hgapblank⟩ := hgap.text
        have hhead : t.text.head?.any Text.isBlank = false := by
          cases hk : t.kind <;> simp_all [TokenKind.isText, Formed, TokenKind.Spells, runsOn]
          exact head?_any_of_forall hformed
        refine fits_past _ _ hafter ⟨hgapne, hgapblank, ?_⟩ ?_
        · rw [blankAhead_past, List.head?_append_of_ne_nil _ hempty]
          exact hhead
        · exact fits_past t.text (ahead.flatMap Token.text) rfl rfl (ih hclash rfl)

/-! ### With a clash -/

/-- White space that does not end the text needs white space in the output. -/
theorem Layout.blankAhead_of_fits {tokens : List Token} {fragments : List Fragment}
    (h : Layout config tokens fragments) (hgapAhead : gapAhead tokens = true) {c : Cursor}
    (hfits : Fits fragments c) : c.blankAhead = true := by
  obtain ⟨hspace, hends⟩ : tokens.head?.any (·.kind.isSpace) = true ∧
      (afterRun tokens).head?.any (·.kind = .finish) = false := by
    simpa [gapAhead] using hgapAhead
  have hblank {s : Text} {d : Cursor} (hne : s ≠ []) (hall : ∀ b ∈ s, Text.isBlank b = true)
      (hreads : c.Reads s d) : c.blankAhead = true := by
    obtain ⟨b, s, rfl⟩ := List.exists_cons_of_ne_nil hne
    simpa [Cursor.blankAhead, hreads.after] using hall b (List.mem_cons_self ..)
  cases h with
  | @finish t offset hkind => simp [hkind, TokenKind.isSpace] at hspace
  | @gapFinish run t offset hgap hkind =>
      rw [afterRun, List.dropWhile_append_of_pos hgap.isSpace] at hends
      simp [hkind, TokenKind.isSpace] at hends
  | @text t ahead _ hkind => simp [isSpace_eq_false_of_isText hkind] at hspace
  | @tag t ahead _ hkind => simp [hkind, TokenKind.isSpace] at hspace
  | gapText =>
      obtain ⟨s, d, hreads, hadmits, -⟩ := fits_cons.1 hfits
      exact hblank hadmits.1 hadmits.2.1 hreads
  | @gapTag run t ahead =>
      obtain ⟨s, d, hreads, hadmits, -⟩ := fits_cons.1 hfits
      cases hright : spaceAhead ahead with
      | false =>
          simp only [hright, Bool.false_eq_true, if_false] at hadmits
          exact hblank hadmits.1 hadmits.2.1 hreads
      | true =>
          simp only [hright, if_true] at hadmits
          obtain ⟨b, hb, rfl⟩ := hadmits
          exact hblank (by simp) (by simpa using hb) hreads

/-- **With a clash the fragments fit nowhere.** -/
theorem clash_eq_false_of_fits {tokens : List Token} {fragments : List Fragment}
    (h : Layout config tokens fragments) {c : Cursor} (hfits : Fits fragments c) :
    clash tokens = false := by
  induction h generalizing c with
  | finish => rfl
  | @gapFinish run t offset hgap hkind =>
      have hruns : runsOn t [] = false := by simp [runsOn, hkind]
      rw [clash_gap hgap [] (by rw [hkind]; rfl), hruns]
      rfl
  | @text t ahead fragments hkind hformed hinput hahead ih =>
      rw [clash_cons_of_not_isSpace ahead (isSpace_eq_false_of_isText hkind)]
      obtain ⟨s, d, -, -, hrest⟩ := fits_cons.1 hfits
      exact ih hrest
  | @tag t ahead fragments hkind hformed hahead ih =>
      rw [clash_cons_of_not_isSpace ahead (by rw [hkind]; rfl)]
      obtain ⟨s, d, -, -, hrest⟩ := fits_cons.1 hfits
      exact ih hrest
  | @gapTag run t ahead fragments offset hgap hkind hformed hahead ih =>
      have hruns : runsOn t ahead = false := by simp [runsOn, hkind]
      rw [clash_gap hgap ahead (by rw [hkind]; rfl), hruns, Bool.false_or]
      obtain ⟨s, d, -, -, hrest⟩ := fits_cons.1 hfits
      obtain ⟨s', d', -, -, hrest'⟩ := fits_cons.1 hrest
      exact ih hrest'
  | @gapText run t ahead fragments offset hgap hkind hformed hinput hahead ih =>
      rw [clash_gap hgap ahead (isSpace_eq_false_of_isText hkind)]
      obtain ⟨s, d, -, hadmits, hrest⟩ := fits_cons.1 hfits
      obtain ⟨s', d', hreads', hadmits', hrest'⟩ := fits_cons.1 hrest
      -- no white space is left behind the run
      have hnext : d.blankAhead = false := hadmits.2.2
      obtain rfl : s' = t.text := hadmits'
      rw [ih hrest', Bool.or_false, Bool.eq_false_iff]
      intro hruns
      obtain ⟨-, hruns⟩ : t.kind = .input ∧ (t.text.head?.any Text.isBlank = true ∨
          t.text = [] ∧ gapAhead ahead = true) := by
        simpa [runsOn] using hruns
      rcases hruns with hblank | ⟨hempty, hgapAhead⟩
      · cases htext : t.text with
        | nil => simp [htext] at hblank
        | cons x rest =>
            rw [Cursor.blankAhead, hreads'.after, htext] at hnext
            simp [htext] at hblank
            simp [hblank] at hnext
      · have hd := hahead.blankAhead_of_fits hgapAhead hrest'
        rw [hempty] at hreads'
        rw [hreads'.eq_of_nil, hnext] at hd
        exact absurd hd (by simp)

/-- The fragments of a text fit in front of some output, and of its echo, unless there is a clash. -/
theorem fits_iff {tokens : List Token} {fragments : List Fragment}
    (h : Layout config tokens fragments) :
    (Fits fragments (Cursor.start (tokens.flatMap Token.text)) ↔ clash tokens = false) ∧
      ((∃ output, Fits fragments (Cursor.start output)) ↔ clash tokens = false) := by
  constructor
  · constructor
    · exact clash_eq_false_of_fits h
    · exact fun hclash => fits_echo h hclash rfl
  · constructor
    · rintro ⟨output, hfits⟩
      exact clash_eq_false_of_fits h hfits
    · exact fun hclash => ⟨_, fits_echo h hclash rfl⟩

end Spacing

/-! ### The echo of a text -/

namespace Compiler

open Token Fragment

/-- The expected text with every marker that is recognised replaced by its text.  What is not
compiled is left as written. -/
def echo (policy : Policy) (config : Config) (switches : Switches) (text : Text) : Text :=
  (tokens policy config switches text).flatMap Token.text ++
    text.drop (policy.scope text).length

/-- The tokens and what is not compiled make up the text. -/
theorem written_tokens {policy : Policy} {config : Config} {opening closing : Char}
    (hconfig : config.Delimited opening closing) (switches : Switches) (text : Text) :
    (tokens policy config switches text).flatMap (written opening closing) ++
      text.drop (policy.scope text).length = text := by
  have hscope : ∃ rest, text = policy.scope text ++ rest := by
    cases policy with
    | normalize => exact ⟨[], (List.append_nil text).symm⟩
    | literal =>
        obtain ⟨k, hk⟩ := Text.exists_trimNewlines text
        exact ⟨_, hk⟩
  obtain ⟨rest, hrest⟩ := hscope
  have hdrop : text.drop (policy.scope text).length = rest :=
    (congrArg (List.drop _) hrest).trans List.drop_left
  rw [tokens, Lexeme.written_ofText hconfig switches, hdrop]
  exact hrest.symm

/-- Where spacing is kept, the fragments of the tokens fit in front of the echo of a text. -/
theorem fits_echo_literal {config : Config} {opening closing : Char}
    (hconfig : config.Delimited opening closing) (switches : Switches) (text : Text) :
    Fits (Literal.ofTokens config (tokens .literal config switches text))
      (Cursor.start (echo .literal config switches text)) := by
  have hlexed : Lexed (tokens .literal config switches text) := Lexeme.lexed_ofText hconfig switches _
  obtain ⟨k, hk⟩ := Text.exists_trimNewlines text
  have hdrop : text.drop (Policy.literal.scope text).length = List.replicate k '\n' :=
    (congrArg (List.drop _) hk).trans List.drop_left
  rw [Literal.fits_iff_weave hlexed]
  refine ⟨((tokens .literal config switches text).filter (·.kind = .tag)).map Token.text, k, ?_, ?_⟩
  · rw [length_segments, List.length_map]
  · rw [weave_tags, ← hdrop]
    rfl

theorem named_of_delimited {config : Config} {opening closing : Char}
    (hconfig : config.Delimited opening closing) : config.tags.Named :=
  TagRule.named_of_exists hconfig.tags

theorem isMatch_echo_literal {config : Config} {opening closing : Char}
    (hconfig : config.Delimited opening closing) {switches : Switches} {text : Text} {p : Program}
    (h : compile .literal config switches text = .ok p) :
    ∃ m, p.matcher? = some m ∧ m.isMatch (echo .literal config switches text) = true := by
  refine ⟨_, matcher?_of_compile (named_of_delimited hconfig) h, ?_⟩
  rw [Matcher.isMatch, fragments_of_compile h, Policy.table, Literal.table,
    isMatch_start_iff]
  exact fits_echo_literal hconfig switches text

/-- Where spacing is normalized, a program matches its echo, or any output at all, exactly if there
is no clash. -/
theorem isMatch_echo_normalize {config : Config} {opening closing : Char}
    (hconfig : config.Delimited opening closing) {switches : Switches} {text : Text} {p : Program}
    (h : compile .normalize config switches text = .ok p) :
    ∃ m, p.matcher? = some m ∧
      (m.isMatch (echo .normalize config switches text) = true ↔
        clash (tokens .normalize config switches text) = false) ∧
      ((∃ output, m.isMatch output = true) ↔
        clash (tokens .normalize config switches text) = false) := by
  have htable : p.fragments = Spacing.table config (tokens .normalize config switches text) :=
    fragments_of_compile h
  have hlexed : Lexed (tokens .normalize config switches text) :=
    Lexeme.lexed_ofText hconfig switches _
  have hlayout : Spacing.Layout config _ _ := Spacing.layout_ofTokens hlexed
  have hnone : text.drop (Policy.normalize.scope text).length = [] := List.drop_length
  refine ⟨_, matcher?_of_compile (named_of_delimited hconfig) h, ?_⟩
  simp only [Matcher.isMatch, htable, Spacing.table, isMatch_start_iff, echo, hnone,
    List.append_nil]
  exact Spacing.fits_iff hlayout

/-- **Which programs match their echo.**  A program can be matched; it matches its echo unless
spacing is normalized and an input clashes with the white space in front of it, and then it matches
no output at all. -/
theorem isMatch_echo_iff {policy : Policy} {config : Config} {opening closing : Char}
    (hconfig : config.Delimited opening closing) {switches : Switches} {text : Text} {p : Program}
    (h : compile policy config switches text = .ok p) :
    (tokens policy config switches text).flatMap (written opening closing) ++
        text.drop (policy.scope text).length = text ∧
      ∃ m, p.matcher? = some m ∧
        (m.isMatch (echo policy config switches text) = true ↔
          ¬(policy = .normalize ∧ clash (tokens policy config switches text) = true)) ∧
        ((∃ output, m.isMatch output = true) ↔
          ¬(policy = .normalize ∧ clash (tokens policy config switches text) = true)) := by
  refine ⟨written_tokens hconfig switches text, ?_⟩
  cases policy with
  | literal =>
      obtain ⟨m, hm, hmatch⟩ := isMatch_echo_literal hconfig h
      have hkept : ¬(Policy.literal = .normalize ∧
          clash (tokens .literal config switches text) = true) := by simp
      exact ⟨m, hm, iff_of_true hmatch hkept, iff_of_true ⟨_, hmatch⟩ hkept⟩
  | normalize =>
      obtain ⟨m, hm, hecho, hany⟩ := isMatch_echo_normalize hconfig h
      exact ⟨m, hm, by simp [hecho], by simp [hany]⟩

/-- An echo that does not begin with white space. -/
theorem isMatch_login :
    ∃ p m, compile .normalize .standard ⟨true, true⟩ "login: [me]\nok".toList = .ok p ∧
      p.matcher? = some m ∧ m.isMatch "login: me\nok".toList = true := by
  have htokens : tokens .normalize .standard ⟨true, true⟩ "login: [me]\nok".toList =
      [⟨0, .literal, "login:".toList⟩, ⟨6, .spaces, " ".toList⟩, ⟨7, .input, "me".toList⟩,
        ⟨11, .newlines, "\n".toList⟩, ⟨12, .literal, "ok".toList⟩, ⟨14, .finish, []⟩] := by decide +kernel
  have hecho : echo .normalize .standard ⟨true, true⟩ "login: [me]\nok".toList =
      "login: me\nok".toList := by
    rw [echo, htokens]
    decide
  obtain ⟨p, hp⟩ := exists_compile_eq_ok htokens (by decide +kernel) (by decide +kernel)
  obtain ⟨-, m, hm, hmatch, -⟩ := isMatch_echo_iff Config.delimited_standard hp
  rw [hecho, htokens] at hmatch
  exact ⟨p, m, hp, hm, hmatch.2 (by decide)⟩

/-- An echo that begins with white space: the program compiles, and does not match the output of the
session that it describes. -/
theorem not_isMatch_echo :
    ∃ p m, compile .normalize .standard ⟨true, true⟩ "abcdef [ x]".toList = .ok p ∧
      p.matcher? = some m ∧
      echo .normalize .standard ⟨true, true⟩ "abcdef [ x]".toList = "abcdef  x".toList ∧
      m.isMatch "abcdef  x".toList = false := by
  have htokens : tokens .normalize .standard ⟨true, true⟩ "abcdef [ x]".toList =
      [⟨0, .literal, "abcdef".toList⟩, ⟨6, .spaces, " ".toList⟩, ⟨7, .input, " x".toList⟩,
        ⟨11, .finish, []⟩] := by decide +kernel
  have hecho : echo .normalize .standard ⟨true, true⟩ "abcdef [ x]".toList =
      "abcdef  x".toList := by
    rw [echo, htokens]
    decide
  obtain ⟨p, hp⟩ := exists_compile_eq_ok htokens (by decide +kernel) (by decide +kernel)
  obtain ⟨m, hm, hmatch, -⟩ := isMatch_echo_normalize Config.delimited_standard hp
  rw [hecho, htokens] at hmatch
  refine ⟨p, m, hp, hm, hecho, Bool.eq_false_iff.2 fun htrue => ?_⟩
  exact absurd (hmatch.1 htrue) (by decide)

end Compiler

end Transcript
