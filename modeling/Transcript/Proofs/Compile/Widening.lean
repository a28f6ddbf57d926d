/-
**Widening the white space of a text.**

White space that is inserted into a run of white space between words leaves a text with the same words,
so its program has the same tags and weights.  It has the same patterns exactly if the same anonymous
tags end a line: a tag ends a line if newlines or the end of the text follow it directly, so white space
that is inserted between such a tag and the newlines behind it makes the tag take as little as it can.

Main definitions:

* `Transcript.Text.Widened` — white space is inserted between words;
* `Transcript.Token.eager` — which of the tags take as much as they can;
* `Transcript.Text.lineEnds` — which of the words end a line.

Main results:

* `Transcript.Shape.map_source_eq_iff` — shapes have the same sources exactly if the same tags take as
  much as they can;
* `Transcript.Compiler.compile_widened` — **the program of a widened text**;
* `Transcript.Compiler.not_patterns_widened` — a widened text with other patterns;
* `Transcript.Compiler.patterns_of_lineEnds` — **patterns depend on words and line ends alone**.
-/

import Transcript.Proofs.Compile.Literal
import Transcript.Proofs.Compile.Respacing

set_option relaxedAutoImplicit false
set_option autoImplicit false

namespace Transcript

/-! ### Inserting white space -/

namespace Text

/-- White space other than newlines is inserted, one character after the other, into runs of white
space with words on both sides. -/
inductive Widened : Text → Text → Prop
  | refl (text : Text) : Widened text text
  | insert {text front back : Text} {c : Char} (h : Widened text (front ++ back))
      (hc : isBlank c = true) (hnewline : c ≠ '\n')
      (hrun : front.getLast?.any isBlank = true ∨ back.head?.any isBlank = true)
      (hfront : ∃ d ∈ front, isBlank d = false) (hback : ∃ d ∈ back, isBlank d = false) :
      Widened text (front ++ c :: back)

/-- White space next to white space is no part of the words. -/
theorem words_insert {front back : Text} {c : Char} (hc : isBlank c = true)
    (hrun : front.getLast?.any isBlank = true ∨ back.head?.any isBlank = true) :
    words (front ++ c :: back) = words (front ++ back) := by
  rw [words_append_blank hc]
  rcases hrun with hlast | hhead
  · obtain ⟨b, hb, hblank⟩ := (Option.any_eq_true _ _).1 hlast
    obtain ⟨front, rfl⟩ := List.getLast?_eq_some_iff.1 hb
    rw [List.append_assoc, List.singleton_append, words_append_blank hblank, words_append_blank hblank,
      words_nil, List.append_nil]
  · cases back with
    | nil => simp at hhead
    | cons b back =>
        have hb : isBlank b = true := hhead
        have hback : words (b :: back) = words back := words_append_blank hb [] back
        rw [words_append_blank hb, hback]

/-- A widened text has the same words and begins with white space where the text does. -/
theorem Widened.words_eq {text text' : Text} (h : Widened text text') :
    words text' = words text ∧ text'.head?.any isBlank = text.head?.any isBlank := by
  induction h with
  | refl => exact ⟨rfl, rfl⟩
  | @insert front back c _ hc _ hrun hfront _ ih =>
      obtain ⟨d, hd, -⟩ := hfront
      have hne : front ≠ [] := List.ne_nil_of_mem hd
      refine ⟨(words_insert hc hrun).trans ih.1, ?_⟩
      rw [← ih.2, List.head?_append_of_ne_nil _ hne, List.head?_append_of_ne_nil _ hne]

end Text

/-! ### Line ends -/

namespace Text

/-- Which of the words of a text end a line: those that newlines or the end of the text follow
directly. -/
def lineEnds : Text → List Bool
  | [] => []
  | c :: text =>
      if isBlank c || !text.head?.all isBlank then lineEnds text
      else text.head?.all (· = '\n') :: lineEnds text

theorem lineEnds_gap {gap : Text} (hgap : ∀ b ∈ gap, isBlank b = true) (text : Text) :
    lineEnds (gap ++ text) = lineEnds text := by
  induction gap with
  | nil => rfl
  | cons b gap ih =>
      have hb := hgap b (List.mem_cons_self ..)
      rw [List.cons_append, lineEnds, hb, Bool.true_or, if_pos rfl]
      exact ih fun c hc => hgap c (List.mem_cons_of_mem _ hc)

theorem lineEnds_word {word tail : Text} (hne : word ≠ [])
    (hword : ∀ c ∈ word, isBlank c = false) (htail : ∀ b ∈ tail.head?, isBlank b = true) :
    lineEnds (word ++ tail) = tail.head?.all (· = '\n') :: lineEnds tail := by
  induction word with
  | nil => exact absurd rfl hne
  | cons c word ih =>
      have hc := hword c (List.mem_cons_self ..)
      have hrest : ∀ d ∈ word, isBlank d = false := fun d hd => hword d (List.mem_cons_of_mem _ hd)
      rw [List.cons_append, lineEnds, hc, Bool.false_or]
      cases word with
      | nil =>
          have hblank : tail.head?.all isBlank = true := by
            cases tail with
            | nil => rfl
            | cons b tail => exact htail b rfl
          simp [hblank]
      | cons d word =>
          have hd : (d :: word ++ tail).head?.all isBlank = false := hrest d (List.mem_cons_self ..)
          rw [hd, Bool.not_false, if_pos rfl]
          exact ih (List.cons_ne_nil _ _) hrest

theorem Parted.lineEnds_eq {text gap word tail : Text} (h : Parted text gap word tail) :
    lineEnds text = tail.head?.all (· = '\n') :: lineEnds tail := by
  rw [h.eq, lineEnds_gap h.gap, lineEnds_word h.ne_nil h.word h.tail]

end Text

/-! ### How much tags take -/

namespace Shape

/-- Whether a tag takes as much as it can. -/
def greedy? : Shape → Option Bool
  | tag _ _ greedy => some greedy
  | _ => none

theorem capture_eq_iff (binding : Option Text) (rounds : Char) {greedy greedy' : Bool} :
    capture binding rounds greedy = capture binding rounds greedy' ↔ greedy = greedy' := by
  refine ⟨fun h => ?_, fun h => by rw [h]⟩
  have hlength := congrArg List.length h
  cases greedy <;> cases greedy' <;> simp [capture] at hlength ⊢

/-- Whether a tag takes as much as it can shows in its source. -/
theorem source_tag_eq_iff (binding : Option Text) (context : TagContext) (greedy greedy' : Bool) :
    (tag binding context greedy).source = (tag binding context greedy').source ↔
      greedy = greedy' := by
  cases context with
  | bare => exact capture_eq_iff ..
  | leftSpace => exact capture_eq_iff ..
  | rightSpace => exact (List.append_left_inj _).trans (capture_eq_iff ..)
  | bothSpace =>
      exact (List.append_left_inj _).trans ((List.append_right_inj _).trans (capture_eq_iff ..))
  | lineEnd =>
      exact (List.append_left_inj _).trans ((List.append_right_inj _).trans (capture_eq_iff ..))

/-- Shapes that are the same up to how much their tags take have the same source exactly if this is
the same too. -/
theorem source_eq_iff {shape shape' : Shape} (h : shape.calm = shape'.calm) :
    shape.source = shape'.source ↔ shape.greedy? = shape'.greedy? := by
  cases shape with
  | tag binding context greedy =>
      cases shape' with
      | tag binding' context' greedy' =>
          obtain ⟨rfl, rfl, -⟩ := Shape.tag.inj h
          rw [source_tag_eq_iff, greedy?, greedy?, Option.some_inj]
      | _ => exact absurd h (by simp [calm])
  | _ =>
      cases shape' with
      | tag binding' context' greedy' => exact absurd h (by simp [calm])
      | _ =>
          have hshape := h
          simp only [calm] at hshape
          simp [hshape, greedy?]

/-- Shapes have the same sources exactly if the same tags take as much as they can. -/
theorem map_source_eq_iff {shapes : List Shape} :
    ∀ {shapes' : List Shape}, shapes.map calm = shapes'.map calm →
      (shapes.map source = shapes'.map source ↔
        shapes.filterMap greedy? = shapes'.filterMap greedy?) := by
  induction shapes with
  | nil =>
      intro shapes' h
      obtain rfl := List.map_eq_nil_iff.1 h.symm
      exact iff_of_true rfl rfl
  | cons shape shapes ih =>
      intro shapes' h
      obtain ⟨shape', shapes', rfl, hshape, hshapes⟩ := List.map_eq_cons_iff.1 h.symm
      have hgreedy : (shape.greedy?.isSome = true) = (shape'.greedy?.isSome = true) := by
        have hcalm (shape : Shape) : shape.calm.greedy?.isSome = shape.greedy?.isSome := by
          cases shape <;> rfl
        rw [← hcalm, ← hshape, hcalm]
      rw [List.map_cons, List.map_cons, List.cons.injEq, source_eq_iff hshape.symm, ih hshapes.symm,
        List.filterMap_cons, List.filterMap_cons]
      cases hfirst : shape.greedy? with
      | none =>
          cases hfirst' : shape'.greedy? with
          | none => simp
          | some greedy' => simp [hfirst, hfirst'] at hgreedy
      | some greedy =>
          cases hfirst' : shape'.greedy? with
          | none => simp [hfirst, hfirst'] at hgreedy
          | some greedy' => simp

@[simp] theorem calm_weight (shape : Shape) : shape.calm.weight = shape.weight := by
  cases shape <;> rfl

@[simp] theorem calm_tag? (shape : Shape) : shape.calm.tag? = shape.tag? := by
  cases shape <;> rfl

end Shape

namespace Token

open Spacing (lineEndAhead)

/-- Which of the tags take as much as they can: the anonymous ones that newlines or the end of the text
follow directly. -/
def eager (config : Config) : List Token → List Bool
  | [] => []
  | t :: ahead =>
      if t.kind = .tag then (lineEndAhead ahead && (t.binding config).isNone) :: eager config ahead
      else eager config ahead

variable {config : Config} {switches : Switches}

theorem eager_run {run : List Token} (hrun : ∀ t ∈ run, t.kind.isSpace = true) (ahead : List Token) :
    eager config (run ++ ahead) = eager config ahead := by
  induction run with
  | nil => rfl
  | cons t run ih =>
      have htag : t.kind ≠ .tag := by
        intro htag
        have ht := hrun t (List.mem_cons_self ..)
        rw [htag] at ht
        exact absurd ht (by decide)
      rw [List.cons_append, eager, if_neg htag]
      exact ih fun s hs => hrun s (List.mem_cons_of_mem _ hs)

/-- Only whether a line ends behind them matters for the pieces of a word. -/
theorem eager_append_congr {ts rest rest' : List Token} (hend : lineEndAhead rest = lineEndAhead rest')
    (hrest : eager config rest = eager config rest') :
    ∀ {ts' : List Token}, ts.map piece = ts'.map piece →
      eager config (ts ++ rest) = eager config (ts' ++ rest') := by
  induction ts with
  | nil =>
      intro ts' hts
      obtain rfl := List.map_eq_nil_iff.1 hts.symm
      exact hrest
  | cons t ts ih =>
      intro ts' hts
      obtain ⟨t', ts', rfl, ht, hts⟩ := List.map_eq_cons_iff.1 hts.symm
      obtain ⟨hkind, htext⟩ := Piece.mk.inj ht
      have hahead : lineEndAhead (ts ++ rest) = lineEndAhead (ts' ++ rest') := by
        cases ts with
        | nil =>
            obtain rfl := List.map_eq_nil_iff.1 hts
            exact hend
        | cons u ts =>
            obtain ⟨u', ts', rfl, hu, -⟩ := List.map_eq_cons_iff.1 hts
            have hukind := (Piece.mk.inj hu).1
            simp [lineEndAhead, hukind]
      have hbinding : t.binding config = t'.binding config := by rw [binding, binding, htext]
      rw [List.cons_append, List.cons_append, eager, eager, hkind, hahead, hbinding, ih hts.symm]

/-- A line ends in front of the tokens of a text exactly if the text begins with a newline or is
empty. -/
theorem Reading.lineEndAhead {tail : Text} {ts : List Token} (h : Reading config switches tail ts)
    (htail : ∀ b ∈ tail.head?, Text.isBlank b = true) :
    lineEndAhead ts = tail.head?.all (· = '\n') := by
  cases tail with
  | nil =>
      obtain ⟨t, rfl, ht⟩ := List.map_eq_singleton_iff.1 h
      have hkind : t.kind = .finish := congrArg Piece.kind ht
      simp [Spacing.lineEndAhead, hkind]
  | cons b tail =>
      have hb : Text.isBlank b = true := htail b rfl
      obtain ⟨first, more, hsections⟩ := List.exists_cons_of_ne_nil
        (mt Piece.sections_eq_nil_iff.1 (List.cons_ne_nil b tail))
      have hkind : first.kind = .ofChar b := by
        have hhead := Piece.head?_sections (b :: tail)
        rw [hsections] at hhead
        exact Option.some_inj.1 hhead
      have hliteral : first.kind ≠ .literal := by
        rw [hkind]
        exact TokenKind.ofChar_ne_literal hb
      rw [Reading, Piece.ofText, hsections, List.flatMap_cons, Piece.ofSection, if_neg hliteral] at h
      obtain ⟨t, ts, rfl, ht, -⟩ := List.map_eq_cons_iff.1 h
      have hkind' : t.kind = .ofChar b := (congrArg Piece.kind ht).trans hkind
      by_cases hnewline : b = '\n'
      · simp [Spacing.lineEndAhead, hkind', TokenKind.ofChar, hnewline]
      · simp [Spacing.lineEndAhead, hkind', TokenKind.ofChar, hnewline, hb]

/-- Which tags take as much as they can depends on the words and on where lines end. -/
theorem eager_of_lineEnds {ws : List Text} :
    ∀ {text text' : Text} {ts ts' : List Token}, Text.words text = ws → Text.words text' = ws →
      Text.lineEnds text = Text.lineEnds text' → Reading config switches text ts →
      Reading config switches text' ts' → eager config ts = eager config ts' := by
  induction ws with
  | nil =>
      intro text text' ts ts' hwords hwords' _ hts hts'
      have hnone {text : Text} {ts : List Token} (hwords : Text.words text = [])
          (hts : Reading config switches text ts) : eager config ts = [] := by
        obtain ⟨run, t, rfl, hrun, ht⟩ := hts.blank (Text.words_eq_nil_iff.1 hwords)
        rw [eager_run hrun, eager, if_neg (by simp [ht])]
        rfl
      rw [hnone hwords hts, hnone hwords' hts']
  | cons word ws ih =>
      intro text text' ts ts' hwords hwords' hends hts hts'
      obtain ⟨gap, tail, hparts, htail⟩ := Text.exists_parted hwords
      obtain ⟨gap', tail', hparts', htail'⟩ := Text.exists_parted hwords'
      obtain ⟨run, middle, rest, rfl, hrun, -, hmiddle, hrest⟩ := hts.parted hparts
      obtain ⟨run', middle', rest', rfl, hrun', -, hmiddle', hrest'⟩ := hts'.parted hparts'
      rw [hparts.lineEnds_eq, hparts'.lineEnds_eq] at hends
      obtain ⟨hend, hends⟩ := List.cons.inj hends
      rw [eager_run hrun, eager_run hrun']
      refine eager_append_congr ?_ (ih htail htail' hends hrest hrest') (hmiddle.trans hmiddle'.symm)
      rw [hrest.lineEndAhead hparts.tail, hrest'.lineEndAhead hparts'.tail, hend]

end Token

namespace Spacing

theorem greedy?_ofGap (first : Token) (ahead : List Token) :
    (ofGap first ahead).filterMap (·.shape.greedy?) = [] := by
  cases ahead with
  | nil => rfl
  | cons t ahead =>
      rw [ofGap]
      by_cases hfinish : t.kind = .finish
      · rw [if_pos hfinish]
        rfl
      · rw [if_neg hfinish]
        by_cases htag : t.kind = .tag ∧ spaceAhead ahead
        · rw [if_pos htag]
          rfl
        · rw [if_neg htag]
          rfl

theorem greedy?_ofTokens {config : Config} {ts : List Token} :
    ∀ behind, (ofTokens config behind ts).filterMap (·.shape.greedy?) = Token.eager config ts := by
  induction ts with
  | nil => exact fun behind => rfl
  | cons t ts ih =>
      intro behind
      have hfirst : (ofToken config behind t ts).filterMap (·.shape.greedy?) =
          if t.kind = .tag then [lineEndAhead ts && (t.binding config).isNone] else [] := by
        unfold ofToken
        cases t.kind with
        | newlines =>
            cases spaceBehind behind
            · exact greedy?_ofGap ..
            · rfl
        | spaces =>
            cases spaceBehind behind
            · exact greedy?_ofGap ..
            · rfl
        | literal => rfl
        | input => rfl
        | tag => rfl
        | finish => rfl
      rw [ofTokens_cons, List.filterMap_append, ih, hfirst, Token.eager]
      by_cases htag : t.kind = .tag
      · rw [if_pos htag, if_pos htag]
        rfl
      · rw [if_neg htag, if_neg htag]
        rfl

end Spacing

/-! ### Programs -/

namespace Program

/-- The tags of a program can be read off what its fragments match. -/
theorem tags_eq (p : Program) :
    p.tags = (p.fragments.map (·.shape.calm)).zipIdx.filterMap fun (shape, index) =>
      shape.tag?.map fun binding => (index, binding) := by
  rw [tags, List.zipIdx_map, List.filterMap_map]
  refine List.filterMap_congr fun f _ => ?_
  simp

theorem map_weight_eq (p : Program) :
    p.fragments.map Fragment.weight = (p.fragments.map (·.shape.calm)).map Shape.weight := by
  rw [List.map_map]
  exact List.map_congr_left fun f _ => (Shape.calm_weight f.shape).symm

end Program

namespace Compiler

open Text (Widened words)

variable {config : Config} {switches : Switches} {text text' : Text} {p : Program}

/-- The programs of texts with the same words have the same weights and the same tags, and the same
patterns exactly if the same tags take as much as they can. -/
theorem patterns_respaced (hoff : switches.inputs = false) (hwords : words text = words text')
    (hbegin : words text ≠ [] → text.head?.any Text.isBlank = text'.head?.any Text.isBlank)
    (hp : compile .normalize config switches text = .ok p) :
    ∃ p', compile .normalize config switches text' = .ok p' ∧
      p'.fragments.map Fragment.weight = p.fragments.map Fragment.weight ∧ p'.tags = p.tags ∧
      (p'.fragments.map Fragment.pattern = p.fragments.map Fragment.pattern ↔
        Token.eager config (tokens .normalize config switches text') =
          Token.eager config (tokens .normalize config switches text)) := by
  have hagree := compile_respaced config hoff hwords hbegin
  rw [hp] at hagree
  obtain ⟨p', hp', hcalm⟩ := hagree.exists_ok
  refine ⟨p', hp', by rw [Program.map_weight_eq, Program.map_weight_eq, hcalm],
    by rw [Program.tags_eq, Program.tags_eq, hcalm], ?_⟩
  have hgreedy {text : Text} {p : Program} (hp : compile .normalize config switches text = .ok p) :
      (p.fragments.map Fragment.shape).filterMap Shape.greedy? =
        Token.eager config (tokens .normalize config switches text) := by
    rw [fragments_of_compile hp, Policy.table, Spacing.table, List.filterMap_map,
      ← Spacing.greedy?_ofTokens []]
    rfl
  have hcalm' : (p'.fragments.map Fragment.shape).map Shape.calm =
      (p.fragments.map Fragment.shape).map Shape.calm := by
    rw [List.map_map, List.map_map]
    exact hcalm.symm
  rw [← hgreedy hp, ← hgreedy hp', ← Shape.map_source_eq_iff hcalm', List.map_map, List.map_map]
  rfl

/-- **The program of a widened text.**  If a text compiles, so does a text in which white space other
than newlines is inserted into its runs of white space between words; its program has the same weights
and the same tags at the same places.  It has the same patterns exactly if the same tags take as much as
they can. -/
theorem compile_widened (hoff : switches.inputs = false) (h : Widened text text')
    (hp : compile .normalize config switches text = .ok p) :
    ∃ p', compile .normalize config switches text' = .ok p' ∧
      p'.fragments.map Fragment.weight = p.fragments.map Fragment.weight ∧ p'.tags = p.tags ∧
      (p'.fragments.map Fragment.pattern = p.fragments.map Fragment.pattern ↔
        Token.eager config (tokens .normalize config switches text') =
          Token.eager config (tokens .normalize config switches text)) := by
  obtain ⟨hwords, hbegin⟩ := h.words_eq
  exact patterns_respaced hoff hwords.symm (fun _ => hbegin.symm) hp

/-- White space that does not separate a tag from the newlines behind it changes no pattern. -/
theorem compile_listing :
    ∃ p p', compile .normalize .standard ⟨true, false⟩ "ls <...>\n <x> b".toList = .ok p ∧
      compile .normalize .standard ⟨true, false⟩ "ls\t <...>\n  <x> b".toList = .ok p' ∧
      p'.fragments.map Fragment.pattern = p.fragments.map Fragment.pattern := by
  have htokens : tokens .normalize .standard ⟨true, false⟩ "ls <...>\n <x> b".toList =
      [⟨0, .literal, "ls".toList⟩, ⟨2, .spaces, " ".toList⟩, ⟨3, .tag, "<...>".toList⟩,
        ⟨8, .newlines, "\n".toList⟩, ⟨9, .spaces, " ".toList⟩, ⟨10, .tag, "<x>".toList⟩,
        ⟨13, .spaces, " ".toList⟩, ⟨14, .literal, "b".toList⟩, ⟨15, .finish, []⟩] := by decide +kernel
  have htokens' : tokens .normalize .standard ⟨true, false⟩ "ls\t <...>\n  <x> b".toList =
      [⟨0, .literal, "ls".toList⟩, ⟨2, .spaces, "\t ".toList⟩, ⟨4, .tag, "<...>".toList⟩,
        ⟨9, .newlines, "\n".toList⟩, ⟨10, .spaces, "  ".toList⟩, ⟨12, .tag, "<x>".toList⟩,
        ⟨15, .spaces, " ".toList⟩, ⟨16, .literal, "b".toList⟩, ⟨17, .finish, []⟩] := by decide +kernel
  obtain ⟨p, hp⟩ := exists_compile_eq_ok htokens (by decide +kernel) (by decide +kernel)
  have hfirst : Widened "ls <...>\n <x> b".toList "ls\t <...>\n <x> b".toList :=
    @Widened.insert _ "ls".toList " <...>\n <x> b".toList '\t' (.refl _) rfl (by decide)
      (by decide) ⟨'l', List.mem_cons_self .., rfl⟩ ⟨'b', by simp, rfl⟩
  have hboth : Widened "ls <...>\n <x> b".toList "ls\t <...>\n  <x> b".toList :=
    @Widened.insert _ "ls\t <...>\n".toList " <x> b".toList ' ' hfirst rfl (by decide)
      (by decide) ⟨'l', List.mem_cons_self .., rfl⟩ ⟨'b', by simp, rfl⟩
  obtain ⟨p', hp', -, -, hpatterns⟩ := compile_widened rfl hboth hp
  refine ⟨p, p', hp, hp', hpatterns.2 ?_⟩
  rw [htokens, htokens']
  decide +kernel

/-- A space between an anonymous tag and the newline behind it changes the pattern of the tag, which
does not take as much as it can any more. -/
theorem not_patterns_widened :
    ¬ ∀ text text' p, Widened text text' →
      compile .normalize .standard ⟨true, false⟩ text = .ok p →
      ∃ p', compile .normalize .standard ⟨true, false⟩ text' = .ok p' ∧
        p'.fragments.map Fragment.pattern = p.fragments.map Fragment.pattern ∧
        p'.fragments.map Fragment.weight = p.fragments.map Fragment.weight ∧ p'.tags = p.tags := by
  intro h
  have htokens : tokens .normalize .standard ⟨true, false⟩ "<...>\nb".toList =
      [⟨0, .tag, "<...>".toList⟩, ⟨5, .newlines, "\n".toList⟩, ⟨6, .literal, "b".toList⟩,
        ⟨7, .finish, []⟩] := by decide +kernel
  have htokens' : tokens .normalize .standard ⟨true, false⟩ "<...> \nb".toList =
      [⟨0, .tag, "<...>".toList⟩, ⟨5, .spaces, " ".toList⟩, ⟨6, .newlines, "\n".toList⟩,
        ⟨7, .literal, "b".toList⟩, ⟨8, .finish, []⟩] := by decide +kernel
  obtain ⟨p, hp⟩ := exists_compile_eq_ok htokens (by decide +kernel) (by decide +kernel)
  have hwidened : Widened "<...>\nb".toList "<...> \nb".toList :=
    @Widened.insert _ "<...>".toList "\nb".toList ' ' (.refl _) rfl (by decide)
      (by decide) ⟨'<', List.mem_cons_self .., rfl⟩ ⟨'b', by simp, rfl⟩
  obtain ⟨p', hp', hpatterns, -⟩ := h _ _ p hwidened hp
  rw [fragments_of_compile hp, fragments_of_compile hp', htokens, htokens'] at hpatterns
  exact absurd hpatterns (by decide +kernel)

/-- **Patterns depend on words and line ends alone.**  Texts with the same words, of which the same ones
end a line, compile to programs with the same patterns, weights and tags. -/
theorem patterns_of_lineEnds (hoff : switches.inputs = false) (hwords : words text = words text')
    (hbegin : text.head?.any Text.isBlank = text'.head?.any Text.isBlank)
    (hends : Text.lineEnds text = Text.lineEnds text')
    (hp : compile .normalize config switches text = .ok p) :
    ∃ p', compile .normalize config switches text' = .ok p' ∧
      p'.fragments.map Fragment.pattern = p.fragments.map Fragment.pattern ∧
      p'.fragments.map Fragment.weight = p.fragments.map Fragment.weight ∧ p'.tags = p.tags := by
  obtain ⟨p', hp', hweights, htags, hpatterns⟩ := patterns_respaced hoff hwords (fun _ => hbegin) hp
  refine ⟨p', hp', hpatterns.2 ?_, hweights, htags⟩
  exact Token.eager_of_lineEnds hwords.symm rfl hends.symm (reading_tokens .normalize config hoff text')
    (reading_tokens .normalize config hoff text)

end Compiler

end Transcript
