/-
**What a program matches depends on words.**

Where spacing is normalized and no input is recognised, texts with the same words become programs that
differ in how much their tags take, which does not matter for what they match.  A text in which no tag
is recognised either becomes its words with a matcher of white space between them.  That matcher takes
whole runs of white space, so the program matches exactly the outputs that have the same words, and that
begin with white space where the text does.

Main definitions:

* `Transcript.Spacing.wordShapes` — what words become.

Main results:

* `Transcript.Compiler.isMatch_respaced` — **texts with the same words match the same**;
* `Transcript.Spacing.shapes_ofTokens_words` — the tokens of a text without tags become its words;
* `Transcript.Fragment.fits_wordShapes` — what words match;
* `Transcript.Compiler.isMatch_words` — **a text without tags matches its words**.
-/

import Transcript.Proofs.Compile.Groups
import Transcript.Proofs.Compile.Ledger
import Transcript.Proofs.Compile.Literal
import Transcript.Proofs.Compile.Respacing
import Transcript.Proofs.Match.Fits

set_option relaxedAutoImplicit false
set_option autoImplicit false

namespace Transcript

/-! ### Texts with the same words -/

/-- How much a tag takes where it can decides nothing about what it admits. -/
theorem Shape.admits_calm (shape : Shape) (c : Cursor) (s : Text) (d : Cursor) :
    shape.calm.Admits c s d ↔ shape.Admits c s d := by
  cases shape with
  | tag binding context greedy => cases context <;> exact Iff.rfl
  | _ => exact Iff.rfl

/-- Fragments that are the same up to how much their tags take fit the same. -/
theorem Fragment.fits_congr_calm {fragments fragments' : List Fragment}
    (h : fragments.map (·.shape.calm) = fragments'.map (·.shape.calm)) {c : Cursor} :
    Fits fragments c ↔ Fits fragments' c := by
  refine fits_congr_of_admits ?_
  rw [← List.forall₂_eq_eq_eq, List.forall₂_map_left_iff, List.forall₂_map_right_iff] at h
  refine h.imp fun f f' hshape c s d => ?_
  rw [← Shape.admits_calm, hshape, Shape.admits_calm]

namespace Compiler

open CompileError (cause of?)
open Text (words)

/-- **Texts with the same words match the same.**  If both or neither begin with white space, both are
refused for the same cause, or both compile; then their programs match the same outputs. -/
theorem isMatch_respaced {config : Config} {switches : Switches}
    (htags : ∃ opening closing, config.tags = .delimited opening closing)
    (hoff : switches.inputs = false) {text text' : Text} (hwords : words text = words text')
    (hbegin : text.head?.any Text.isBlank = text'.head?.any Text.isBlank) :
    (of? (compile .normalize config switches text)).map cause =
      (of? (compile .normalize config switches text')).map cause ∧
    ∀ p p', compile .normalize config switches text = .ok p →
      compile .normalize config switches text' = .ok p' →
      ∃ m m', p.matcher? = some m ∧ p'.matcher? = some m' ∧
        ∀ output, m.isMatch output = m'.isMatch output := by
  have hagree := compile_respaced config hoff hwords fun _ => hbegin
  have hnamed := TagRule.named_of_exists htags
  refine ⟨hagree.cause_eq, fun p p' hp hp' => ?_⟩
  have hfragments := fragments_of_compile hp
  have hfragments' := fragments_of_compile hp'
  rw [hp, hp'] at hagree
  have hcalm := hagree.of_ok
  rw [hfragments, hfragments', Policy.table, Spacing.table, Spacing.table, List.map_cons,
    List.map_cons] at hcalm
  refine ⟨_, _, matcher?_of_compile hnamed hp, matcher?_of_compile hnamed hp', fun output => ?_⟩
  rw [Matcher.isMatch, Matcher.isMatch, hfragments, hfragments', Policy.table, Spacing.table,
    Spacing.table, Bool.eq_iff_iff, Fragment.isMatch_start_iff, Fragment.isMatch_start_iff]
  exact Fragment.fits_congr_calm (List.cons.inj hcalm).2

/-- An anonymous tag takes as much as it can at the end of a line only, but matches the same. -/
theorem isMatch_listing :
    ∃ p p' m m', compile .normalize .standard ⟨true, false⟩ "ls <...>\n<x> b".toList = .ok p ∧
      compile .normalize .standard ⟨true, false⟩ "ls  <...> <x>\n\nb\n".toList = .ok p' ∧
      p.fragments.map Fragment.pattern ≠ p'.fragments.map Fragment.pattern ∧
      p.matcher? = some m ∧ p'.matcher? = some m' ∧
        ∀ output, m.isMatch output = m'.isMatch output := by
  have htokens : tokens .normalize .standard ⟨true, false⟩ "ls <...>\n<x> b".toList =
      [⟨0, .literal, "ls".toList⟩, ⟨2, .spaces, " ".toList⟩, ⟨3, .tag, "<...>".toList⟩,
        ⟨8, .newlines, "\n".toList⟩, ⟨9, .tag, "<x>".toList⟩, ⟨12, .spaces, " ".toList⟩,
        ⟨13, .literal, "b".toList⟩, ⟨14, .finish, []⟩] := by decide +kernel
  have htokens' : tokens .normalize .standard ⟨true, false⟩ "ls  <...> <x>\n\nb\n".toList =
      [⟨0, .literal, "ls".toList⟩, ⟨2, .spaces, "  ".toList⟩, ⟨4, .tag, "<...>".toList⟩,
        ⟨9, .spaces, " ".toList⟩, ⟨10, .tag, "<x>".toList⟩, ⟨13, .newlines, "\n\n".toList⟩,
        ⟨15, .literal, "b".toList⟩, ⟨16, .newlines, "\n".toList⟩, ⟨17, .finish, []⟩] := by
    decide +kernel
  obtain ⟨p, hp⟩ := exists_compile_eq_ok htokens (by decide +kernel) (by decide +kernel)
  obtain ⟨p', hp'⟩ := exists_compile_eq_ok htokens' (by decide +kernel) (by decide +kernel)
  obtain ⟨m, m', hm, hm', hmatch⟩ := (isMatch_respaced ⟨'<', '>', rfl⟩ rfl (by decide +kernel)
    (by decide)).2 p p' hp hp'
  refine ⟨p, p', m, m', hp, hp', ?_, hm, hm', hmatch⟩
  rw [fragments_of_compile hp, fragments_of_compile hp', htokens, htokens']
  decide +kernel

end Compiler

/-! ### Words without tags -/

namespace Piece

theorem ofWord_of_ne_tag {config : Config} {switches : Switches} {word : Text} (hne : word ≠ [])
    (h : ∀ piece ∈ ofWord config switches word, piece.kind ≠ .tag) :
    ofWord config switches word = [⟨.literal, word⟩] := by
  unfold ofWord at h ⊢
  by_cases htags : switches.tags = true
  · rw [if_pos htags] at h ⊢
    cases hfound : config.tags.findAll word with
    | nil => exact if_neg hne
    | cons tag tags =>
        rw [hfound] at h
        exact absurd rfl (h ⟨.tag, tag.text⟩ (by simp [split]))
  · rw [if_neg htags]

end Piece

/-! ### What words become -/

namespace Spacing

open Text (Parted words)

/-- What words become, with white space in front of the first one or not. -/
def wordShapes : (gap : Bool) → List Text → List Shape
  | _, [] => [.finish .blank]
  | true, word :: rest => .spaces :: .literal word :: wordShapes true rest
  | false, word :: rest => .literal word :: wordShapes true rest

theorem groups_wordShapes (ws : List Text) :
    ∀ gap, (wordShapes gap ws).flatMap Shape.groups = [] := by
  induction ws with
  | nil => exact fun _ => rfl
  | cons word ws ih =>
      intro gap
      cases gap with
      | true => exact ih true
      | false => exact ih true

/-- In the middle of a run of white space, what is left of it has no fragments. -/
theorem ofTokens_run (config : Config) {run : List Token} (hrun : ∀ t ∈ run, t.kind.isSpace = true)
    (ahead : List Token) :
    ∀ behind, spaceBehind behind = true →
      ∃ behind', spaceBehind behind' = true ∧
        ofTokens config behind (run ++ ahead) = ofTokens config behind' ahead := by
  induction run with
  | nil => exact fun behind hbehind => ⟨behind, hbehind, rfl⟩
  | cons t run ih =>
      intro behind hbehind
      have ht := hrun t (List.mem_cons_self ..)
      obtain ⟨behind', hbehind', hrest⟩ :=
        ih (fun s hs => hrun s (List.mem_cons_of_mem _ hs)) (t :: behind) ht
      refine ⟨behind', hbehind', ?_⟩
      rw [List.cons_append, ofTokens_cons, ofToken_of_isSpace config behind _ ht, hbehind, if_pos rfl,
        List.nil_append, hrest]

theorem afterRun_append {run : List Token} (hrun : ∀ t ∈ run, t.kind.isSpace = true)
    (ahead : List Token) : afterRun (run ++ ahead) = afterRun ahead := by
  induction run with
  | nil => rfl
  | cons t run ih =>
      rw [List.cons_append, afterRun_cons_of_isSpace _ (hrun t (List.mem_cons_self ..)),
        ih fun s hs => hrun s (List.mem_cons_of_mem _ hs)]

/-- A run of white space becomes what its first token does. -/
theorem ofTokens_gap (config : Config) {run : List Token} (hne : run ≠ [])
    (hrun : ∀ t ∈ run, t.kind.isSpace = true) (ahead : List Token) {behind : List Token}
    (hbehind : spaceBehind behind = false) :
    ∃ first behind', spaceBehind behind' = true ∧
      ofTokens config behind (run ++ ahead) =
        ofGap first (afterRun ahead) ++ ofTokens config behind' ahead := by
  obtain ⟨t, run, rfl⟩ := List.exists_cons_of_ne_nil hne
  have ht := hrun t (List.mem_cons_self ..)
  have hrest : ∀ s ∈ run, s.kind.isSpace = true := fun s hs => hrun s (List.mem_cons_of_mem _ hs)
  obtain ⟨behind', hbehind', heq⟩ := ofTokens_run config hrest ahead (t :: behind) ht
  refine ⟨t, behind', hbehind', ?_⟩
  rw [List.cons_append, ofTokens_cons, ofToken_of_isSpace config behind _ ht, hbehind,
    afterRun_append hrest, heq]
  rfl

/-- **The tokens of a text without tags become its words**, with white space between them. -/
theorem shapes_ofTokens_words {config : Config} {switches : Switches} {ws : List Text} :
    ∀ {text : Text} {ts : List Token} {gap : Bool}, words text = ws →
      Token.Reading config switches text ts → (∀ t ∈ ts, t.kind ≠ .tag) →
      ∀ behind, spaceBehind behind = false → (ws ≠ [] → text.head?.any Text.isBlank = gap) →
      (ofTokens config behind ts).map Fragment.shape = wordShapes gap ws := by
  induction ws with
  | nil =>
      intro text ts gap hwords hts _ behind hbehind _
      obtain ⟨run, t, rfl, hrun, ht⟩ := hts.blank (Text.words_eq_nil_iff.1 hwords)
      by_cases hne : run = []
      · rw [hne, List.nil_append, ofTokens_cons, ofToken_of_finish config behind [] ht]
        rfl
      · obtain ⟨first, behind', -, heq⟩ := ofTokens_gap config hne hrun [t] hbehind
        have hspace : t.kind.isSpace = false := by rw [ht]; rfl
        rw [heq, afterRun_cons_of_not_isSpace [] hspace, ofGap_of_finish first [] ht,
          List.nil_append, ofTokens_cons, ofToken_of_finish config behind' [] ht]
        rfl
  | cons word ws ih =>
      intro text ts gap hwords hts htags behind hbehind hgap
      obtain ⟨front, tail, hparts, htail⟩ := Text.exists_parted hwords
      obtain ⟨run, middle, rest, rfl, hrun, hnil, hmiddle, hrest⟩ := hts.parted hparts
      -- the word is one token
      have hpieces : ∀ piece ∈ Piece.ofWord config switches word, piece.kind ≠ .tag := by
        rw [← hmiddle]
        intro piece hpiece
        obtain ⟨t, ht, rfl⟩ := List.mem_map.1 hpiece
        exact htags t (by simp [ht])
      rw [Piece.ofWord_of_ne_tag hparts.ne_nil hpieces] at hmiddle
      obtain ⟨t, rfl, ht⟩ := List.map_eq_singleton_iff.1 hmiddle
      have htext : t.text = word := congrArg Piece.text ht
      have hliteral : t.kind = .literal := congrArg Piece.kind ht
      have hkind : t.kind.isText := by rw [hliteral]; rfl
      have hspace := isSpace_eq_false_of_isText hkind
      have hword (behind : List Token) :
          (ofTokens config behind (t :: rest)).map Fragment.shape = .literal word :: wordShapes true ws := by
        rw [ofTokens_cons, ofToken_of_isText config behind rest hkind, List.map_append, htext,
          ih htail hrest (fun u hu => htags u (by simp [hu])) (t :: behind) hspace fun hws =>
            hparts.blank_tail (htail ▸ hws)]
        rfl
      replace hgap := hgap (List.cons_ne_nil _ _)
      rw [List.singleton_append]
      by_cases hne : run = []
      · have hhead := hparts.head?_eq_false.2 (hnil.1 hne)
        rw [hne, List.nil_append, hword, ← hgap, hhead]
        rfl
      · have hhead := hparts.head?_eq_true.2 (mt hnil.2 hne)
        obtain ⟨first, behind', -, heq⟩ := ofTokens_gap config hne hrun (t :: rest) hbehind
        rw [heq, afterRun_cons_of_not_isSpace rest hspace, ofGap_of_isText first rest hkind,
          List.map_append, hword, ← hgap, hhead]
        rfl

end Spacing

/-! ### What words match -/

namespace Fragment

open Spacing (wordShapes)
open Text (Parted words)

/-- White space behind a word ends it. -/
theorem fits_literal_iff {word : Text} {ws : List Text} {fragments : List Fragment} (offset : Nat)
    (hne : word ≠ []) (hword : ∀ ch ∈ word, Text.isBlank ch = false)
    (hrest : ∀ c, Fits fragments c ↔ words c.after = ws ∧ (ws ≠ [] → c.blankAhead = true))
    (c : Cursor) :
    Fits (⟨offset, .literal word⟩ :: fragments) c ↔
      words c.after = word :: ws ∧ c.blankAhead = false := by
  constructor
  · intro h
    obtain ⟨s, d, hreads, hadmits, hfits⟩ := fits_cons.1 h
    obtain rfl : s = word := hadmits
    obtain ⟨hwords, hblank⟩ := (hrest d).1 hfits
    have hparts : Parted c.after [] s d.after := by
      refine ⟨hreads.after, by simp, hne, hword, fun b hb => ?_⟩
      by_cases hws : ws = []
      · exact Text.words_eq_nil_iff.1 (hwords.trans hws) b (List.mem_of_mem_head? hb)
      · have hahead := hblank hws
        rw [Cursor.blankAhead, Option.mem_def.1 hb] at hahead
        exact hahead
    exact ⟨by rw [hparts.words_eq, hwords], hparts.head?_eq_false.2 rfl⟩
  · rintro ⟨hwords, hblank⟩
    obtain ⟨gap, tail, hparts, htail⟩ := Text.exists_parted hwords
    obtain rfl : gap = [] := hparts.head?_eq_false.1 hblank
    exact fits_past word tail hparts.eq rfl
      ((hrest _).2 ⟨htail, fun hws => hparts.blank_tail (htail ▸ hws)⟩)

/-- A matcher of a whole run of white space in front of a word. -/
theorem fits_spaces_iff {word : Text} {ws : List Text} {fragments : List Fragment} (offset : Nat)
    (hrest : ∀ c, Fits fragments c ↔ words c.after = word :: ws ∧ c.blankAhead = false)
    (c : Cursor) :
    Fits (⟨offset, .spaces⟩ :: fragments) c ↔
      words c.after = word :: ws ∧ c.blankAhead = true := by
  constructor
  · intro h
    obtain ⟨s, d, hreads, ⟨hne, hblank, -⟩, hfits⟩ := fits_cons.1 h
    obtain ⟨hwords, -⟩ := (hrest d).1 hfits
    refine ⟨by rw [hreads.after, Text.words_gap hblank, hwords], ?_⟩
    obtain ⟨b, s, rfl⟩ := List.exists_cons_of_ne_nil hne
    rw [Cursor.blankAhead, hreads.after]
    exact hblank b (List.mem_cons_self ..)
  · rintro ⟨hwords, hblank⟩
    obtain ⟨gap, tail, hparts, htail⟩ := Text.exists_parted hwords
    have hword : Parted (word ++ tail) [] word tail :=
      ⟨rfl, by simp, hparts.ne_nil, hparts.word, hparts.tail⟩
    have hahead : (c.past gap (word ++ tail)).blankAhead = false := hword.head?_eq_false.2 rfl
    refine fits_past gap (word ++ tail) hparts.eq
      ⟨hparts.head?_eq_true.1 hblank, hparts.gap, hahead⟩ ?_
    exact (hrest _).2 ⟨by rw [← htail]; exact hword.words_eq, hahead⟩

/-- **What words match**: the same words, with white space in front of them or not. -/
theorem fits_wordShapes {ws : List Text} (hws : ∀ w ∈ ws, w ≠ [] ∧ ∀ ch ∈ w, Text.isBlank ch = false) :
    ∀ {gap : Bool} {fragments : List Fragment}, fragments.map shape = wordShapes gap ws →
      ∀ c, Fits fragments c ↔ words c.after = ws ∧ (ws ≠ [] → c.blankAhead = gap) := by
  induction ws with
  | nil =>
      intro gap fragments hshapes c
      obtain ⟨f, rfl, hf⟩ := List.map_eq_singleton_iff.1 hshapes
      obtain ⟨offset, shape⟩ := f
      obtain rfl : shape = .finish .blank := hf
      rw [fits_finish, Text.words_eq_nil_iff]
      simp [Spares]
  | cons word ws ih =>
      obtain ⟨hne, hword⟩ := hws word (List.mem_cons_self ..)
      replace ih := @ih fun w hw => hws w (List.mem_cons_of_mem _ hw)
      have hliteral {fragments : List Fragment}
          (hshapes : fragments.map shape = .literal word :: wordShapes true ws) (c : Cursor) :
          Fits fragments c ↔ words c.after = word :: ws ∧ c.blankAhead = false := by
        obtain ⟨⟨offset, _⟩, rest, rfl, rfl, hrest⟩ := List.map_eq_cons_iff.1 hshapes
        exact fits_literal_iff offset hne hword (ih hrest) c
      intro gap fragments hshapes c
      cases gap with
      | false => simpa using hliteral hshapes c
      | true =>
          obtain ⟨⟨offset, _⟩, rest, rfl, rfl, hrest⟩ := List.map_eq_cons_iff.1 hshapes
          simpa using fits_spaces_iff offset (hliteral hrest) c

end Fragment

/-! ### Programs -/

namespace Machine

/-- Where no tag is held back and none follows, nothing is refused. -/
theorem feedAll_untagged (config : Config) {front : List Token} {t : Token} (ht : t.kind = .finish)
    (hfront : ∀ u ∈ front, u.kind.isSpace = true ∨ u.kind = .literal) (m : Machine)
    (hdone : m.pending ≠ .done) (htag : m.pending.tag? = none) :
    ∃ last, m.feedAll .normalize config (front ++ [t]) = (last, none) ∧ last.pending = .done := by
  have hkinds : ∀ u ∈ front, u.kind ≠ .finish ∧ u.kind ≠ .input ∧ u.kind ≠ .tag := by
    intro u hu
    rcases hfront u hu with hspace | hliteral
    · cases hk : u.kind <;> simp_all [TokenKind.isSpace]
    · simp [hliteral]
  have huntagged : ∀ u ∈ front ++ [t], u.kind ≠ .tag := by
    intro u hu
    rcases List.mem_append.1 hu with hu | hu
    · exact (hkinds u hu).2.2
    · simp [List.mem_singleton.1 hu, ht]
  have hrun := map_ledger_run config ht (fun u hu => ⟨(hkinds u hu).1, (hkinds u hu).2.1⟩) hdone
    (Pending.suits_normalize _)
  rw [Ledger.run_of_ne_tag huntagged (by simp), Ledger.settle, ledger, htag] at hrun
  cases hresult : m.run .normalize config (front ++ [t]) with
  | error e =>
      rw [hresult] at hrun
      cases hrun
  | ok last => exact ⟨last, run_eq_ok_iff.1 hresult, pending_of_run ht hresult⟩

end Machine

namespace Compiler

open Text (words)

variable {config : Config} {switches : Switches} {text : Text}

/-- **A text without tags matches its words.**  A text in which no tag is recognised and inputs are
switched off compiles, and its program matches exactly the outputs that have the same words and, if
there are any, begin with white space where the text does. -/
theorem isMatch_words (hoff : switches.inputs = false)
    (htags : ∀ t ∈ tokens .normalize config switches text, t.kind ≠ .tag) :
    ∃ p m, compile .normalize config switches text = .ok p ∧ p.matcher? = some m ∧
      ∀ output, m.isMatch output = true ↔ words output = words text ∧
        (words text ≠ [] → output.head?.any Text.isBlank = text.head?.any Text.isBlank) := by
  have hreading := reading_tokens .normalize config hoff text
  -- nothing is refused
  have hcompile : ∃ p, compile .normalize config switches text = .ok p := by
    obtain ⟨front, back, htokens, hfront, hback⟩ := List.map_eq_append_iff.1 hreading
    obtain ⟨t, rfl, ht⟩ := List.map_eq_singleton_iff.1 hback
    have hkinds : ∀ u ∈ front, u.kind.isSpace = true ∨ u.kind = .literal := by
      intro u hu
      have hpiece : u.piece ∈ Piece.ofText config switches text := by
        rw [← show front.map Token.piece = Piece.ofText config switches text from hfront]
        exact List.mem_map_of_mem hu
      have hnotag := htags u (by rw [htokens]; simp [hu])
      exact (Piece.kind_of_mem_ofText hpiece).imp_right fun h => h.resolve_right hnotag
    obtain ⟨last, hlast, hdone⟩ := Machine.feedAll_untagged config
      (congrArg Piece.kind ht) hkinds .start (by simp [Machine.start]) rfl
    exact exists_compile_eq_ok htokens (by rw [hlast]) (by rw [hlast]; exact hdone)
  obtain ⟨p, hp⟩ := hcompile
  have hshapes : (Spacing.ofTokens config [] (tokens .normalize config switches text)).map
      Fragment.shape = Spacing.wordShapes (text.head?.any Text.isBlank) (words text) :=
    Spacing.shapes_ofTokens_words rfl hreading htags [] rfl fun _ => rfl
  have hfragments : p.fragments = Spacing.table config (tokens .normalize config switches text) :=
    fragments_of_compile hp
  -- no group is opened, so the source can be read
  have hgroups : (p.fragments.flatMap fun f => f.shape.groups) = [] := by
    rw [hfragments, Spacing.table, List.flatMap_cons, ← List.flatMap_map, hshapes,
      Spacing.groups_wordShapes]
    rfl
  have hmatcher : p.matcher? = some ⟨p, Fragment.regex p.fragments⟩ := by
    rw [Program.matcher?, Program.source, Fragment.read?_join (by rw [hgroups]; exact .nil)
      (by rw [hgroups]; simp)]
    rfl
  refine ⟨p, _, hp, hmatcher, fun output => ?_⟩
  rw [Matcher.isMatch, hfragments, Spacing.table, Fragment.isMatch_start_iff,
    Fragment.fits_wordShapes (Text.word_of_mem_words rfl) hshapes]
  rfl

/-- Lines of words match the same words on one line. -/
theorem isMatch_total :
    ∃ p m, compile .normalize .standard ⟨true, false⟩ " total 0\n\tx < y>\n".toList = .ok p ∧
      p.matcher? = some m ∧ m.isMatch "\ntotal 0 x <\ny>".toList = true ∧
        m.isMatch "total 0 x < y>".toList = false := by
  have htokens : tokens .normalize .standard ⟨true, false⟩ " total 0\n\tx < y>\n".toList =
      [⟨0, .spaces, " ".toList⟩, ⟨1, .literal, "total".toList⟩, ⟨6, .spaces, " ".toList⟩,
        ⟨7, .literal, "0".toList⟩, ⟨8, .newlines, "\n".toList⟩, ⟨9, .spaces, "\t".toList⟩,
        ⟨10, .literal, "x".toList⟩, ⟨11, .spaces, " ".toList⟩, ⟨12, .literal, "<".toList⟩,
        ⟨13, .spaces, " ".toList⟩, ⟨14, .literal, "y>".toList⟩, ⟨16, .newlines, "\n".toList⟩,
        ⟨17, .finish, []⟩] := by decide +kernel
  obtain ⟨p, m, hp, hm, hmatch⟩ := @isMatch_words .standard ⟨true, false⟩
    " total 0\n\tx < y>\n".toList rfl (by rw [htokens]; decide)
  refine ⟨p, m, hp, hm, (hmatch _).2 (by decide +kernel), ?_⟩
  rw [← Bool.not_eq_true, hmatch]
  decide +kernel

end Compiler

end Transcript
