/-
**Tokens stand where they are written.**

The tokens of a text, written one after the other with inputs between the characters that mark them,
give back the text, and each token begins where what is written in front of it ends.  White space is cut
off where it ends and nowhere else, two literals never stand side by side, and the end comes last.  All
this holds whatever the tags look like; of the inputs, two characters must mark them.

The tokens of a part of a text are described by `Transcript.Token.Tiles`, which goes from the parts of a
text to the whole of it: from the pieces of a line to the line with its marker, and from the lines with
their newlines to the text.

Main definitions:

* `Transcript.Each` — a property of the elements of a list and of what stands in front of them;
* `Transcript.Token.written` — a token as it is written in a transcript;
* `Transcript.Config.stripped` — a line without the marker that closes it;
* `Transcript.Token.OfBody`, `Transcript.Token.OfText` — what a token says about the text around it;
* `Transcript.Token.Tiles` — tokens that make up a part of a text.

Main results:

* `Transcript.Token.Tiles.append` — tokens of one part behind those of another;
* `Transcript.Lexeme.tiles_ofLine`, `Transcript.Lexeme.tiles_ofText` — **the tokens of a line and of a
  text**;
* `Transcript.Lexeme.exists_ofText_eq` — the end is the last token, and the only one of its kind;
* `Transcript.Lexeme.tokens_tile` — **a text is cut into tokens without loss**.
-/

import Transcript.Markup.Lexing
import Transcript.Proofs.Markup.Delimited
import Transcript.Proofs.Regex.Within
import Transcript.Proofs.Text.Lines

set_option relaxedAutoImplicit false
set_option autoImplicit false

namespace Transcript

/-! ### Elements and what stands in front of them -/

section Each

variable {α β : Type}

/-- The property holds of each element of the list with what stands in front of it. -/
def Each (P : List α → α → Prop) (xs : List α) : Prop :=
  ∀ front x back, xs = front ++ x :: back → P front x

theorem Each.append {P : List α → α → Prop} {xs ys : List α} (hxs : Each P xs)
    (hys : Each (fun front => P (xs ++ front)) ys) : Each P (xs ++ ys) := by
  intro front x back h
  rcases List.append_eq_append_iff.1 h with ⟨between, rfl, hback⟩ | ⟨between, hfront, hback⟩
  · exact hys between x back hback
  · cases between with
    | nil =>
        rw [List.append_nil] at hfront
        subst hfront
        simpa using hys [] x back hback.symm
    | cons y between =>
        obtain ⟨rfl, rfl⟩ := List.cons.inj hback
        exact hxs front x between hfront

theorem each_nil {P : List α → α → Prop} : Each P [] := fun front x back h => by simp at h

theorem each_singleton {P : List α → α → Prop} {x : α} (h : P [] x) : Each P [x] := by
  intro front y back heq
  cases front with
  | nil => rwa [(List.cons.inj heq).1] at h
  | cons z front => simp at heq

theorem Each.imp {P Q : List α → α → Prop} {xs : List α} (h : Each P xs)
    (himp : ∀ front x, P front x → Q front x) : Each Q xs :=
  fun front x back heq => himp front x (h front x back heq)

/-- An element of a list that is put together from lists is one of those. -/
theorem exists_of_flatMap_eq {f : α → List β} {xs : List α} {x : β} {back : List β} :
    ∀ {front : List β}, xs.flatMap f = front ++ x :: back →
      ∃ as a bs fr bk, xs = as ++ a :: bs ∧ f a = fr ++ x :: bk ∧ front = as.flatMap f ++ fr := by
  induction xs with
  | nil => exact fun h => by simp at h
  | cons y xs ih =>
      intro front h
      rw [List.flatMap_cons] at h
      -- the element may stand in a list further back
      have hback (between : List β) (h : xs.flatMap f = between ++ x :: back) :
          ∃ as a bs fr bk, y :: xs = as ++ a :: bs ∧ f a = fr ++ x :: bk ∧
            f y ++ between = as.flatMap f ++ fr := by
        obtain ⟨as, a, bs, fr, bk, rfl, hfa, rfl⟩ := ih h
        exact ⟨y :: as, a, bs, fr, bk, rfl, hfa, by simp⟩
      rcases List.append_eq_append_iff.1 h with ⟨between, rfl, hrest⟩ | ⟨between, hfront, hrest⟩
      · exact hback between hrest
      · cases between with
        | nil =>
            rw [List.append_nil] at hfront
            simpa only [List.append_nil, hfront] using hback [] hrest.symm
        | cons z between =>
            obtain ⟨rfl, -⟩ := List.cons.inj hrest
            exact ⟨[], y, xs, front, between, rfl, hfront, rfl⟩

end Each

/-! ### Pieces -/

/-- Tokens of the two kinds may stand side by side: they are not both literals. -/
def TokenKind.Beside (k k' : TokenKind) : Prop := ¬ (k = .literal ∧ k' = .literal)

namespace Piece

theorem text_literals (s : Text) : (literals s).flatMap text = s := by
  unfold literals
  by_cases h : s = [] <;> simp [h]

theorem of_mem_literals {s : Text} {p : Piece} (h : p ∈ literals s) :
    p.kind = .literal ∧ p.text ≠ [] := by
  unfold literals at h
  by_cases hs : s = []
  · simp [hs] at h
  · rw [if_neg hs, List.mem_singleton] at h
    rw [h]
    exact ⟨rfl, hs⟩

/-- A text that is cut at tags which stand one after the other loses nothing. -/
theorem text_split {spans : List Span} :
    ∀ {c : Cursor}, Regex.Successive c spans → (split c spans).flatMap text = c.after := by
  induction spans with
  | nil => exact fun {c} _ => text_literals c.after
  | cons span spans ih =>
      intro c hspans
      cases hspans with
      | cons hgap hspan hrest =>
          rw [split, List.flatMap_append, List.flatMap_cons, text_literals, ih hrest,
            Span.text_of_reads hgap, Span.text_of_reads (c := span.start) (d := span.stop) hspan,
            hgap.after, hspan.after]

/-- A piece of a word is a literal that is not empty, or one of the tags. -/
theorem of_mem_split {spans : List Span} {p : Piece} : ∀ {c : Cursor}, p ∈ split c spans →
    (p.kind = .literal ∧ p.text ≠ []) ∨ (p.kind = .tag ∧ ∃ span ∈ spans, p.text = span.text) := by
  induction spans with
  | nil => exact fun hp => Or.inl (of_mem_literals hp)
  | cons span spans ih =>
      intro c hp
      rcases List.mem_append.1 hp with hp | hp
      · exact Or.inl (of_mem_literals hp)
      · rcases List.mem_cons.1 hp with rfl | hp
        · exact Or.inr ⟨rfl, span, List.mem_cons_self .., rfl⟩
        · rcases ih hp with hliteral | ⟨hkind, span', hspan', htext⟩
          · exact Or.inl hliteral
          · exact Or.inr ⟨hkind, span', List.mem_cons_of_mem _ hspan', htext⟩

/-- Between two literals of a word stands a tag. -/
theorem isChain_split (spans : List Span) :
    ∀ c, (split c spans).IsChain fun p q => p.kind.Beside q.kind := by
  have hliterals (s : Text) : (literals s).IsChain fun p q => p.kind.Beside q.kind := by
    unfold literals
    split
    · exact .nil
    · exact .singleton _
  induction spans with
  | nil => exact fun c => hliterals c.after
  | cons span spans ih =>
      intro c
      refine List.isChain_append.2 ⟨hliterals _, List.isChain_cons.2 ⟨fun q _ => ?_, ih _⟩,
        fun p _ q hq => ?_⟩
      · exact fun h => TokenKind.noConfusion h.1
      · obtain rfl := Option.some.inj hq
        exact fun h => TokenKind.noConfusion h.2

variable {config : Config} {switches : Switches}

/-- A word loses nothing, whatever the tags look like. -/
theorem text_ofWord (config : Config) (switches : Switches) (word : Text) :
    (ofWord config switches word).flatMap text = word := by
  unfold ofWord
  split
  · exact text_split (Regex.successive_findAll config.tags.regex word)
  · simp

theorem of_mem_ofWord {word : Text} (hne : word ≠ []) {p : Piece} (hp : p ∈ ofWord config switches word) :
    (p.kind = .literal ∧ p.text ≠ []) ∨
      (p.kind = .tag ∧ ∃ span ∈ config.tags.findAll word, p.text = span.text) := by
  unfold ofWord at hp
  split at hp
  · exact of_mem_split hp
  · rw [List.mem_singleton.1 hp]
    exact Or.inl ⟨rfl, hne⟩

theorem isChain_ofWord (word : Text) :
    (ofWord config switches word).IsChain fun p q => p.kind.Beside q.kind := by
  unfold ofWord
  split
  · exact isChain_split _ _
  · exact .singleton _

theorem text_ofRun (config : Config) (switches : Switches) (run : Text.Run) :
    (ofRun config switches run).flatMap text = run.text := by
  unfold ofRun
  split
  · simp
  · exact text_ofWord config switches run.text

theorem ofRun_ne_nil {run : Text.Run} (hne : run.text ≠ []) : ofRun config switches run ≠ [] := by
  intro hnil
  have htext := text_ofRun config switches run
  rw [hnil] at htext
  exact hne htext.symm

/-- White space comes from a blank run. -/
theorem kind_eq_spaces_of_blank {run : Text.Run} (hblank : run.blank = true) {p : Piece}
    (hp : p ∈ ofRun config switches run) : p.kind = .spaces := by
  rw [ofRun, if_pos hblank, List.mem_singleton] at hp
  rw [hp]

theorem text_ofBody (config : Config) (switches : Switches) (body : Text) :
    (ofBody config switches body).flatMap text = body := by
  rw [ofBody, List.flatMap_assoc, List.flatMap_congr fun run _ => text_ofRun config switches run,
    Text.flatMap_runs]

/-- A line falls into white space, literals, which hold none, and tags that are found in its words. -/
theorem of_mem_ofBody {body : Text} {p : Piece} (hp : p ∈ ofBody config switches body) :
    p.kind = .spaces ∨ (p.kind = .literal ∧ p.text ≠ [] ∧ ∀ c ∈ p.text, Text.isBlank c = false) ∨
      (p.kind = .tag ∧ ∃ word, (∃ span ∈ config.tags.findAll word, p.text = span.text) ∧
        ∀ c ∈ p.text, Text.isBlank c = false) := by
  obtain ⟨run, hrun, hp⟩ := List.mem_flatMap.1 hp
  obtain ⟨hne, hblank⟩ := Text.run_of_mem_runs hrun
  cases hkind : run.blank with
  | true => exact Or.inl (kind_eq_spaces_of_blank hkind hp)
  | false =>
      have htext := text_ofRun config switches run
      have hnot : ∀ c ∈ p.text, Text.isBlank c = false := by
        intro c hc
        have hmem : c ∈ run.text := by
          rw [← htext]
          exact List.mem_flatMap.2 ⟨p, hp, hc⟩
        rw [hblank c hmem, hkind]
      rw [ofRun, if_neg (by simp [hkind])] at hp
      rcases of_mem_ofWord hne hp with ⟨hliteral, hptext⟩ | ⟨htag, hspan⟩
      · exact Or.inr (Or.inl ⟨hliteral, hptext, hnot⟩)
      · exact Or.inr (Or.inr ⟨htag, run.text, hspan, hnot⟩)

/-- Two literals of a line do not stand side by side. -/
theorem isChain_ofBody (body : Text) :
    (ofBody config switches body).IsChain fun p q => p.kind.Beside q.kind := by
  have hne : [] ∉ (Text.runs body).map (ofRun config switches) := by
    intro hnil
    obtain ⟨run, hrun, hnil⟩ := List.mem_map.1 hnil
    exact ofRun_ne_nil (Text.run_of_mem_runs hrun).1 hnil
  rw [ofBody, List.flatMap_def, List.isChain_flatten hne, List.isChain_map]
  refine ⟨fun pieces hpieces => ?_, (Text.isChain_runs body).imp fun run run' hblank p hp q hq => ?_⟩
  · obtain ⟨run, -, rfl⟩ := List.mem_map.1 hpieces
    unfold ofRun
    split
    · exact .singleton _
    · exact isChain_ofWord _
  · -- one of the two runs is white space
    cases hrun : run.blank with
    | true =>
        have hp := kind_eq_spaces_of_blank hrun (List.mem_of_getLast? hp)
        exact fun h => absurd (hp.symm.trans h.1) (by decide)
    | false =>
        have hq := kind_eq_spaces_of_blank (by simpa [hrun] using hblank.symm) (List.mem_of_head? hq)
        exact fun h => absurd (hq.symm.trans h.2) (by decide)

/-- **White space in a line** goes as far as it can. -/
theorem each_ofBody (body : Text) :
    Each (fun front p => p.kind = .spaces →
        Text.MaximalRun Text.isBlank body (front.flatMap text).length p.text)
      (ofBody config switches body) := by
  intro front p back h hspaces
  obtain ⟨as, run, bs, fr, bk, hruns, hrun, rfl⟩ := exists_of_flatMap_eq h
  have hmaximal := Text.maximalRun_of_runs hruns
  have hmem : run ∈ Text.runs body := by simp [hruns]
  cases hblank : run.blank with
  | true =>
      rw [ofRun, if_pos hblank] at hrun
      obtain ⟨rfl, rfl⟩ : fr = [] ∧ p = ⟨.spaces, run.text⟩ := by
        cases fr with
        | nil => exact ⟨rfl, (List.cons.inj hrun).1.symm⟩
        | cons q fr => simp at hrun
      rw [List.append_nil, List.flatMap_assoc, List.flatMap_congr fun r _ => text_ofRun config switches r]
      exact hmaximal.congr fun c _ => by simp [hblank]
  | false =>
      -- a word has no white space
      have hp : p ∈ ofRun config switches run := by simp [hrun]
      rw [ofRun, if_neg (by simp [hblank])] at hp
      rcases of_mem_ofWord (Text.run_of_mem_runs hmem).1 hp with ⟨hkind, -⟩ | ⟨hkind, -⟩
      · exact absurd (hspaces.symm.trans hkind) (by decide)
      · exact absurd (hspaces.symm.trans hkind) (by decide)

end Piece

/-! ### What tokens make up -/

def Text.isGap (c : Char) : Bool := isBlank c && c != '\n'

/-- A line without the marker that closes it, if inputs are recognised. -/
def Config.stripped (config : Config) (switches : Switches) (line : Text) : Text :=
  if switches.inputs then
    match config.inputs.trailing? line with
    | none => line
    | some marker => line.take marker.start
  else line

namespace Token

/-- A token as it is written in a transcript: an input stands between the characters that mark
it. -/
def written (opening closing : Char) (t : Token) : Text :=
  if t.kind = .input then opening :: t.text ++ [closing] else t.text

theorem written_of_ne_input {opening closing : Char} {t : Token} (h : t.kind ≠ .input) :
    t.written opening closing = t.text := if_neg h

theorem flatMap_written {opening closing : Char} {ts : List Token} (hts : ∀ t ∈ ts, t.kind ≠ .input) :
    ts.flatMap (written opening closing) = ts.flatMap Token.text :=
  List.flatMap_congr fun t ht => written_of_ne_input (hts t ht)

/-- What a token of a line is in the part of the line in front of the marker: white space goes as far as
it can, and a literal holds none. -/
structure OfBody (start : Nat) (body : Text) (t : Token) : Prop where
  newlines : t.kind ≠ .newlines
  spaces : t.kind = .spaces →
    ∃ k, t.offset = start + k ∧ Text.MaximalRun Text.isGap body k t.text
  literal : t.kind = .literal → t.text ≠ [] ∧ ∀ c ∈ t.text, Text.isBlank c = false

/-- What a token is in its text: newlines go as far as they can, white space as far as it can in front of
the marker of its line, and a literal holds neither. -/
structure OfText (config : Config) (switches : Switches) (text : Text) (t : Token) : Prop where
  newlines : t.kind = .newlines → Text.MaximalRun (· == '\n') text t.offset t.text
  spaces : t.kind = .spaces → ∃ start line k, Text.IsLine text start line ∧ t.offset = start + k ∧
    Text.MaximalRun Text.isGap (config.stripped switches line) k t.text
  literal : t.kind = .literal → t.text ≠ [] ∧ ∀ c ∈ t.text, Text.isBlank c = false

theorem OfBody.ofText {config : Config} {switches : Switches} {text line : Text} {start : Nat} {t : Token}
    (h : t.OfBody start (config.stripped switches line)) (hline : Text.IsLine text start line) :
    t.OfText config switches text where
  newlines hkind := absurd hkind h.newlines
  spaces hkind := by
    obtain ⟨k, hoffset, hmaximal⟩ := h.spaces hkind
    exact ⟨start, line, k, hline, hoffset, hmaximal⟩
  literal := h.literal

/-- The tokens make up a part of a text, which begins at an offset.  Each begins where what is written in
front of it ends, and has the property, unless it is the spacing behind an input.  No two literals stand
side by side. -/
structure Tiles (opening closing : Char) (start : Nat) (s : Text) (P : Token → Prop)
    (ts : List Token) : Prop where
  written : ts.flatMap (written opening closing) = s
  offset : Each (fun front t => t.offset = start + (front.flatMap (Token.written opening closing)).length) ts
  each : Each (fun front t => (t.kind = .spaces ∧ ∃ u ∈ front.getLast?, u.kind = .input) ∨ P t) ts
  beside : (ts.map kind).IsChain TokenKind.Beside

namespace Tiles

variable {opening closing : Char} {start : Nat} {s s' : Text} {P Q : Token → Prop} {xs ys ts : List Token}

theorem imp (h : Tiles opening closing start s P ts) (himp : ∀ t, P t → Q t) :
    Tiles opening closing start s Q ts where
  written := h.written
  offset := h.offset
  each := h.each.imp fun _ t ht => ht.imp_right (himp t)
  beside := h.beside

theorem singleton {t : Token} (hoffset : t.offset = start) (hwritten : t.written opening closing = s)
    (ht : P t) : Tiles opening closing start s P [t] where
  written := by rw [List.flatMap_singleton, hwritten]
  offset := each_singleton (by simpa using hoffset)
  each := each_singleton (Or.inr ht)
  beside := .singleton _

/-- **Tokens of one part behind those of another.** -/
theorem append (hx : Tiles opening closing start s P xs)
    (hy : Tiles opening closing (start + s.length) s' P ys)
    (hbeside : ∀ t ∈ xs.getLast?, ∀ u ∈ ys.head?, t.kind.Beside u.kind) :
    Tiles opening closing start (s ++ s') P (xs ++ ys) where
  written := by rw [List.flatMap_append, hx.written, hy.written]
  offset := by
    refine hx.offset.append (hy.offset.imp fun front t ht => ?_)
    rw [ht, List.flatMap_append, hx.written, List.length_append]
    omega
  each := by
    refine hx.each.append (hy.each.imp fun front t ht => ?_)
    refine ht.imp_left fun ⟨hkind, u, hu, hinput⟩ => ?_
    exact ⟨hkind, u, List.mem_getLast?_append_of_mem_getLast? hu, hinput⟩
  beside := by
    rw [List.map_append]
    refine List.isChain_append.2 ⟨hx.beside, hy.beside, fun k hk k' hk' => ?_⟩
    rw [List.getLast?_map] at hk
    rw [List.head?_map] at hk'
    obtain ⟨t, ht, rfl⟩ := Option.map_eq_some_iff.1 hk
    obtain ⟨u, hu, rfl⟩ := Option.map_eq_some_iff.1 hk'
    exact hbeside t ht u hu

end Tiles

end Token

/-! ### The tokens of a line -/

namespace Lexeme

theorem tokens_append (xs ys : List Lexeme) : tokens (xs ++ ys) = tokens xs ++ tokens ys :=
  List.filterMap_append

@[simp] theorem tokens_warn (kind : WarningKind) (offset : Option Nat) :
    tokens (warn kind offset) = [] := by
  cases offset <;> rfl

@[simp] theorem tokens_map_token (ts : List Token) : tokens (ts.map .token) = ts := by
  induction ts with
  | nil => rfl
  | cons t ts ih =>
      have hcons : tokens (.token t :: ts.map .token) = t :: tokens (ts.map .token) := rfl
      rw [List.map_cons, hcons, ih]

/-- Placing pieces changes neither their kinds nor their texts. -/
theorem place_spec (ps : List Piece) (offset : Nat) :
    (Piece.place offset ps).flatMap Token.text = ps.flatMap Piece.text ∧
      ∀ t ∈ Piece.place offset ps, ∃ p ∈ ps, t.kind = p.kind ∧ t.text = p.text := by
  induction ps generalizing offset with
  | nil => exact ⟨rfl, by simp [Piece.place]⟩
  | cons p ps ih =>
      obtain ⟨htext, hmem⟩ := ih (offset + p.text.length)
      refine ⟨by rw [Piece.place, List.flatMap_cons, List.flatMap_cons, htext], fun t ht => ?_⟩
      rcases List.mem_cons.1 ht with rfl | ht
      · exact ⟨p, List.mem_cons_self .., rfl, rfl⟩
      · obtain ⟨q, hq, h⟩ := hmem t ht
        exact ⟨q, List.mem_cons_of_mem _ hq, h⟩

theorem map_kind_place (ps : List Piece) :
    ∀ offset, (Piece.place offset ps).map Token.kind = ps.map Piece.kind := by
  induction ps with
  | nil => exact fun _ => rfl
  | cons p ps ih =>
      intro offset
      rw [Piece.place, List.map_cons, List.map_cons, ih]

theorem each_place (ps : List Piece) :
    ∀ offset, Each (fun front t => ∃ before p after, ps = before ++ p :: after ∧
      front = Piece.place offset before ∧
      t = ⟨offset + (before.flatMap Piece.text).length, p.kind, p.text⟩) (Piece.place offset ps) := by
  induction ps with
  | nil => exact fun _ => each_nil
  | cons p ps ih =>
      intro offset front t back h
      cases front with
      | nil => exact ⟨[], p, ps, rfl, rfl, (List.cons.inj h).1.symm⟩
      | cons u front =>
          obtain ⟨rfl, hrest⟩ := List.cons.inj h
          obtain ⟨before, q, after, rfl, rfl, rfl⟩ := ih _ front t back hrest
          refine ⟨p :: before, q, after, rfl, rfl, ?_⟩
          rw [List.flatMap_cons, List.length_append, Nat.add_assoc]

variable {config : Config} {opening closing : Char}

/-- The tokens of a line in which no marker is recognised. -/
theorem tiles_ofBody (config : Config) (switches : Switches) (start : Nat) {body : Text} (hbody : '\n' ∉ body) :
    Token.Tiles opening closing start body (Token.OfBody start body)
      (tokens (ofBody config switches start body)) := by
  rw [ofBody, tokens_map_token]
  have hinput (ps : List Piece) (hps : ∀ p ∈ ps, p ∈ Piece.ofBody config switches body) :
      (Piece.place start ps).flatMap (Token.written opening closing) = ps.flatMap Piece.text := by
    rw [Token.flatMap_written fun t ht => ?_, (place_spec ps start).1]
    obtain ⟨p, hp, hkind, -⟩ := (place_spec ps start).2 t ht
    rw [hkind]
    rcases Piece.of_mem_ofBody (hps p hp) with hkind | ⟨hkind, -⟩ | ⟨hkind, -⟩ <;> simp [hkind]
  have hplace := each_place (Piece.ofBody config switches body) start
  refine ⟨?_, fun front t back h => ?_, fun front t back h => Or.inr ?_, ?_⟩
  · rw [hinput _ fun p hp => hp, Piece.text_ofBody]
  · obtain ⟨before, p, after, hpieces, rfl, rfl⟩ := hplace front t back h
    rw [hinput before fun q hq => by simp [hpieces, hq]]
  · obtain ⟨before, p, after, hpieces, rfl, rfl⟩ := hplace front t back h
    have hp : p ∈ Piece.ofBody config switches body := by simp [hpieces]
    have hcases := Piece.of_mem_ofBody hp
    refine ⟨?_, fun hkind => ⟨_, rfl, ?_⟩, fun hkind => ?_⟩
    · rcases hcases with hkind | ⟨hkind, -⟩ | ⟨hkind, -⟩ <;> simp [hkind]
    · refine (Piece.each_ofBody body before p after hpieces hkind).congr fun c hc => ?_
      have hnewline : c ≠ '\n' := by
        rintro rfl
        exact hbody hc
      simp [Text.isGap, hnewline]
    · rcases hcases with hspaces | ⟨-, hliteral⟩ | ⟨htag, -⟩
      · exact absurd (hspaces.symm.trans hkind) (by decide)
      · exact hliteral
      · exact absurd (htag.symm.trans hkind) (by decide)
  · rw [map_kind_place, List.isChain_map]
    exact Piece.isChain_ofBody body

/-- The tokens of a marker: its input, and the spacing behind it. -/
theorem tokens_ofMarker (config : Config) (start stop : Nat) (marker : TrailingInput) :
    tokens (ofMarker config start stop marker) = ⟨start, .input, marker.input⟩ ::
      if marker.spacing = [] then []
      else [⟨stop - marker.spacing.length, .spaces, marker.spacing⟩] := by
  rw [ofMarker, tokens_append, warnTag, tokens_warn, List.nil_append]
  by_cases hspacing : marker.spacing = []
  · rw [if_pos hspacing, if_pos hspacing]
    rfl
  · rw [if_neg hspacing, if_neg hspacing]
    rfl

/-- The tokens of a marker make it up, with the spacing behind it. -/
theorem tiles_ofMarker (config : Config) {start stop : Nat} {marker : TrailingInput} {P : Token → Prop}
    (hstop : stop = start + (opening :: marker.input ++ closing :: marker.spacing).length)
    (hinput : P ⟨start, .input, marker.input⟩) :
    Token.Tiles opening closing start (opening :: marker.input ++ closing :: marker.spacing) P
      (tokens (ofMarker config start stop marker)) := by
  have hwritten : Token.written opening closing ⟨start, .input, marker.input⟩ =
      opening :: marker.input ++ [closing] := rfl
  have htile := Token.Tiles.singleton rfl hwritten hinput
  rw [tokens_ofMarker]
  by_cases hspacing : marker.spacing = []
  · rw [if_pos hspacing, hspacing]
    exact htile
  · rw [if_neg hspacing, ← List.singleton_append]
    refine ⟨?_, htile.offset.append (each_singleton ?_), htile.each.append (each_singleton (Or.inl ?_)), ?_⟩
    · simp [Token.written]
    · simp only [List.length_append, List.length_cons] at hstop
      simp only [List.append_nil, List.flatMap_singleton, hwritten, List.length_append, List.length_cons,
        List.length_nil]
      omega
    · exact ⟨rfl, _, rfl, rfl⟩
    · exact .cons_cons (fun h => TokenKind.noConfusion h.1) (.singleton _)

/-- What is stripped from a line is the marker that closes it. -/
theorem stripped_append (hinputs : config.inputs = .delimited opening closing) {switches : Switches}
    (hswitch : switches.inputs = true) {line : Text} {marker : TrailingInput}
    (hmarker : config.inputs.trailing? line = some marker) :
    config.stripped switches line ++ (opening :: marker.input ++ closing :: marker.spacing) = line := by
  have hmarker' := hmarker
  rw [hinputs] at hmarker'
  obtain ⟨front, hfront, hstart, -⟩ := InputRule.trailing?_delimited hmarker'
  have hwhole : line = front ++ (opening :: marker.input ++ closing :: marker.spacing) := by
    rw [hfront]
    simp
  have htake : line.take marker.start = front := by
    rw [hwhole, hstart, List.take_left']
    rfl
  simp only [Config.stripped, if_pos hswitch, hmarker, htake]
  exact hwhole.symm

/-- **The tokens of a line.** -/
theorem tiles_ofLine (hinputs : config.inputs = .delimited opening closing) (switches : Switches)
    (start : Nat) {line : Text} (hline : '\n' ∉ line) :
    Token.Tiles opening closing start line (Token.OfBody start (config.stripped switches line))
      (tokens (ofLine config switches start line)) := by
  by_cases hswitch : switches.inputs = true
  · cases hmarker : config.inputs.trailing? line with
    | none =>
        have hstripped : config.stripped switches line = line := by
          simp [Config.stripped, hswitch, hmarker]
        have htokens : tokens (ofLine config switches start line) =
            tokens (ofBody config switches start line) := by
          simp [ofLine, hswitch, hmarker, warnInput, tokens_append]
        rw [hstripped, htokens]
        exact tiles_ofBody config switches start hline
    | some marker =>
        have htokens : tokens (ofLine config switches start line) =
            tokens (ofBody config switches start (config.stripped switches line)) ++
              tokens (ofMarker config (start + (config.stripped switches line).length)
                (start + line.length) marker) := by
          simp [ofLine, Config.stripped, hswitch, hmarker, warnInput, tokens_append]
        have hwhole := stripped_append hinputs hswitch hmarker
        generalize config.stripped switches line = front at htokens hwhole ⊢
        have hfront : '\n' ∉ front := fun h => hline (by simp [← hwhole, h])
        have hstop : start + line.length = start + front.length +
            (opening :: marker.input ++ closing :: marker.spacing).length := by
          rw [← hwhole, List.length_append, Nat.add_assoc]
        have htile := (tiles_ofBody config switches start hfront).append
          (tiles_ofMarker config hstop
            ⟨TokenKind.noConfusion, TokenKind.noConfusion, TokenKind.noConfusion⟩) ?_
        · rwa [← htokens, hwhole] at htile
        · intro t _ u hu h
          rw [tokens_ofMarker, List.head?_cons] at hu
          obtain rfl := Option.some.inj hu
          exact TokenKind.noConfusion h.2
  · have hstripped : config.stripped switches line = line := by simp [Config.stripped, hswitch]
    rw [hstripped, ofLine, if_neg hswitch]
    exact tiles_ofBody config switches start hline

/-! ### The tokens of a text -/

/-- The tokens of a line, of the newlines behind it and of the other lines. -/
theorem tokens_ofLines_cons (config : Config) (switches : Switches) (start : Nat) (line : Text.Line)
    (rest : List Text.Line) : tokens (ofLines config switches start (line :: rest)) =
      tokens (ofLine config switches start line.body) ++
        (tokens (ofNewlines (start + line.body.length) line.newlines) ++
          tokens (ofLines config switches (start + line.text.length) rest)) := by
  have hlength : start + line.text.length = start + line.body.length + line.newlines := by
    rw [Text.Line.text, List.length_append, List.length_replicate, Nat.add_assoc]
  rw [hlength, ofLines, tokens_append, tokens_append, List.append_assoc]

theorem tokens_ofNewlines {start count : Nat} (hcount : count ≠ 0) :
    tokens (ofNewlines start count) = [⟨start, .newlines, List.replicate count '\n'⟩] := by
  rw [ofNewlines, if_neg hcount]
  rfl

/-- The tokens of lines that stand behind a part of a text, by induction on the lines. -/
theorem tiles_ofLines (hinputs : config.inputs = .delimited opening closing) (switches : Switches)
    {before : Text} {ls : List Text.Line} (h : Text.Stacked before ls) :
    Token.Tiles opening closing before.length (ls.flatMap Text.Line.text)
      (Token.OfText config switches (before ++ ls.flatMap Text.Line.text))
      (tokens (ofLines config switches before.length ls)) := by
  -- a token that is no literal may stand anywhere
  have hbeside {xs ys : List Token} (kind : TokenKind) (hkind : kind ≠ .literal)
      (hhead : ys.head?.map Token.kind = some kind) :
      ∀ t ∈ xs.getLast?, ∀ u ∈ ys.head?, t.kind.Beside u.kind := by
    intro t _ u hu h
    rw [Option.mem_def] at hu
    rw [hu, Option.map_some, Option.some.injEq] at hhead
    exact hkind (hhead.symm.trans h.2)
  induction h with
  | @last before body hbefore hbody =>
      have hline := (Text.Stacked.last hbefore hbody).isLine
      have hfinish : Token.OfText config switches (before ++ [⟨body, 0⟩].flatMap Text.Line.text)
          ⟨before.length + body.length, .finish, []⟩ :=
        ⟨TokenKind.noConfusion, TokenKind.noConfusion, TokenKind.noConfusion⟩
      have htokens : tokens (ofLines config switches before.length [⟨body, 0⟩]) =
          tokens (ofLine config switches before.length body) ++
            [⟨before.length + body.length, .finish, []⟩] := by
        rw [tokens_ofLines_cons]
        simp [ofNewlines, ofLines, tokens, token?, Text.Line.text]
      have htext : [Text.Line.mk body 0].flatMap Text.Line.text = body ++ [] := by simp [Text.Line.text]
      have htile := ((tiles_ofLine hinputs switches before.length hbody).imp
        fun t ht => ht.ofText hline).append
        (.singleton rfl (Token.written_of_ne_input TokenKind.noConfusion) hfinish)
        (hbeside .finish TokenKind.noConfusion rfl)
      rwa [← htokens, ← htext] at htile
  | @cons before line rest hbefore hbody hnewlines hne hrest ih =>
      have hstacked := Text.Stacked.cons hbefore hbody hnewlines hne hrest
      have hline := hstacked.isLine
      have hbreak : Token.OfText config switches (before ++ (line :: rest).flatMap Text.Line.text)
          ⟨before.length + line.body.length, .newlines, List.replicate line.newlines '\n'⟩ :=
        ⟨fun _ => hstacked.maximalRun hnewlines, TokenKind.noConfusion, TokenKind.noConfusion⟩
      have hwhole : before ++ line.text ++ rest.flatMap Text.Line.text =
          before ++ (line :: rest).flatMap Text.Line.text := by
        rw [List.flatMap_cons, List.append_assoc]
      have hlength : before.length + line.text.length =
          before.length + line.body.length + (List.replicate line.newlines '\n').length := by
        rw [Text.Line.text, List.length_append, Nat.add_assoc]
      rw [hwhole, List.length_append, hlength] at ih
      have hbehind := (Token.Tiles.singleton (s := List.replicate line.newlines '\n') rfl
        (Token.written_of_ne_input TokenKind.noConfusion) hbreak).append ih
        fun t ht u _ h => by
          obtain rfl := Option.some.inj ht
          exact TokenKind.noConfusion h.1
      have htile := ((tiles_ofLine hinputs switches before.length hbody).imp
        fun t ht => ht.ofText hline).append hbehind (hbeside .newlines TokenKind.noConfusion rfl)
      have htext : (line :: rest).flatMap Text.Line.text = line.body ++
          (List.replicate line.newlines '\n' ++ rest.flatMap Text.Line.text) := by
        rw [List.flatMap_cons, Text.Line.text, List.append_assoc]
      rw [← htext] at htile
      rwa [tokens_ofLines_cons, tokens_ofNewlines hnewlines, hlength]

/-- **The tokens of a text.** -/
theorem tiles_ofText (hinputs : config.inputs = .delimited opening closing) (switches : Switches)
    (text : Text) :
    Token.Tiles opening closing 0 text (Token.OfText config switches text)
      (tokens (ofText config switches text)) := by
  have htile := tiles_ofLines hinputs switches (Text.stacked_lines text)
  rwa [List.nil_append, Text.flatMap_lines] at htile

/-! ### The end -/

/-- A line without a marker falls into white space, literals and tags. -/
theorem kind_of_mem_ofBody {switches : Switches} {start : Nat} {body : Text} {t : Token}
    (ht : t ∈ tokens (ofBody config switches start body)) :
    t.kind = .spaces ∨ t.kind = .literal ∨ t.kind = .tag := by
  rw [ofBody, tokens_map_token] at ht
  obtain ⟨p, hp, hkind, -⟩ := (place_spec _ _).2 t ht
  rw [hkind]
  rcases Piece.of_mem_ofBody hp with hspaces | ⟨hliteral, -⟩ | ⟨htag, -⟩
  · exact Or.inl hspaces
  · exact Or.inr (Or.inl hliteral)
  · exact Or.inr (Or.inr htag)

theorem kind_ne_finish_of_mem_ofLine {switches : Switches} {start : Nat} {line : Text} {t : Token}
    (ht : t ∈ tokens (ofLine config switches start line)) : t.kind ≠ .finish := by
  have hbody {start : Nat} {body : Text} (ht : t ∈ tokens (ofBody config switches start body)) :
      t.kind ≠ .finish := by
    rcases kind_of_mem_ofBody ht with hkind | hkind | hkind <;> simp [hkind]
  unfold ofLine at ht
  by_cases hswitch : switches.inputs = true
  · rw [if_pos hswitch] at ht
    cases hmarker : config.inputs.trailing? line with
    | none =>
        rw [hmarker, tokens_append, warnInput, tokens_warn, List.nil_append] at ht
        exact hbody ht
    | some marker =>
        rw [hmarker] at ht
        simp only [tokens_append, warnInput, tokens_warn, List.nil_append, List.mem_append] at ht
        rcases ht with ht | ht
        · exact hbody ht
        · rw [tokens_ofMarker] at ht
          by_cases hspacing : marker.spacing = []
          · rw [if_pos hspacing] at ht
            rw [List.mem_singleton.1 ht]
            simp
          · rw [if_neg hspacing] at ht
            rcases List.mem_pair.1 ht with rfl | rfl <;> simp
  · rw [if_neg hswitch] at ht
    exact hbody ht

theorem kind_ne_finish_of_mem_ofNewlines {start count : Nat} {t : Token}
    (ht : t ∈ tokens (ofNewlines start count)) : t.kind ≠ .finish := by
  unfold ofNewlines at ht
  by_cases hcount : count = 0
  · rw [if_pos hcount] at ht
    cases ht
  · rw [if_neg hcount] at ht
    rw [List.mem_singleton.1 ht]
    simp

/-- **The end is the last token of a text**, and the only one of its kind, whatever the lexical rules. -/
theorem exists_ofText_eq (config : Config) (switches : Switches) (text : Text) :
    ∃ (lead : List Lexeme) (stop : Nat),
      ofText config switches text = lead ++ [.token ⟨stop, .finish, []⟩] ∧
        ∀ t ∈ tokens lead, t.kind ≠ .finish := by
  have hlines (ls : List Text.Line) : ∀ start, ∃ (lead : List Lexeme) (stop : Nat),
      ofLines config switches start ls = lead ++ [.token ⟨stop, .finish, []⟩] ∧
        ∀ t ∈ tokens lead, t.kind ≠ .finish := by
    induction ls with
    | nil => exact fun start => ⟨[], start, rfl, nofun⟩
    | cons line rest ih =>
        intro start
        obtain ⟨lead, stop, hlead, hkinds⟩ := ih (start + line.body.length + line.newlines)
        refine ⟨ofLine config switches start line.body ++
          ofNewlines (start + line.body.length) line.newlines ++ lead, stop, ?_, fun t ht => ?_⟩
        · rw [ofLines, hlead, ← List.append_assoc]
        · rw [tokens_append, tokens_append, List.mem_append, List.mem_append] at ht
          rcases ht with (ht | ht) | ht
          · exact kind_ne_finish_of_mem_ofLine ht
          · exact kind_ne_finish_of_mem_ofNewlines ht
          · exact hkinds t ht
  exact hlines _ 0

/-- **A text is cut into tokens without loss.**  The tokens end in the end of the text, which stands where
the text ends.  Written one after the other they are the text, and each begins where what is written in
front of it ends.  Newlines go as far as there are any, white space that is not the spacing behind an input
goes as far as it can in the line without its marker, and literals are not empty, hold no white space and
do not stand side by side.  Tags may look like anything; they may even be empty. -/
theorem tokens_tile (hinputs : config.inputs = .delimited opening closing) (switches : Switches)
    (text : Text) :
    (∃ lead : List Token, tokens (ofText config switches text) = lead ++ [⟨text.length, .finish, []⟩] ∧
      ∀ t ∈ lead, t.kind ≠ .finish) ∧
    (tokens (ofText config switches text)).flatMap (Token.written opening closing) = text ∧
    (∀ (front : List Token) (t : Token) (back : List Token),
      tokens (ofText config switches text) = front ++ t :: back →
      t.offset = (front.flatMap (Token.written opening closing)).length ∧
      (t.kind = .newlines → Text.MaximalRun (· == '\n') text t.offset t.text) ∧
      (t.kind = .spaces → (∀ u ∈ front.getLast?, u.kind ≠ .input) →
        ∃ start line k, Text.IsLine text start line ∧ t.offset = start + k ∧
          Text.MaximalRun Text.isGap (config.stripped switches line) k t.text) ∧
      (t.kind = .literal → t.text ≠ [] ∧ ∀ c ∈ t.text, Text.isBlank c = false)) ∧
    ∀ (front : List Token) (t u : Token) (back : List Token),
      tokens (ofText config switches text) = front ++ t :: u :: back →
      ¬ (t.kind = .literal ∧ u.kind = .literal) := by
  have htile := tiles_ofText hinputs switches text
  refine ⟨?_, htile.written, fun front t back h => ?_, fun front t u back h => ?_⟩
  · obtain ⟨lead, stop, hlead, hkinds⟩ := exists_ofText_eq config switches text
    have htokens : tokens (ofText config switches text) = tokens lead ++ [⟨stop, .finish, []⟩] := by
      rw [hlead, tokens_append]
      rfl
    have hwritten := htile.written
    have hoffset : stop = ((tokens lead).flatMap (Token.written opening closing)).length := by
      simpa only [Nat.zero_add] using htile.offset _ _ _ htokens
    rw [htokens, List.flatMap_append] at hwritten
    -- nothing is written for the end
    have hstop : stop = text.length := by
      rw [← hwritten, List.length_append, ← hoffset]
      rfl
    exact ⟨tokens lead, hstop ▸ htokens, hkinds⟩
  · have hoffset : t.offset = (front.flatMap (Token.written opening closing)).length := by
      simpa only [Nat.zero_add] using htile.offset front t back h
    rcases htile.each front t back h with ⟨hspaces, u, hu, hinput⟩ | ht
    · refine ⟨hoffset, fun hkind => ?_, fun _ hnot => absurd hinput (hnot u hu), fun hkind => ?_⟩
      · exact TokenKind.noConfusion (hspaces.symm.trans hkind)
      · exact TokenKind.noConfusion (hspaces.symm.trans hkind)
    · exact ⟨hoffset, ht.newlines, fun hkind _ => ht.spaces hkind, ht.literal⟩
  · exact List.isChain_iff_forall_rel_of_append_cons_cons.1 ((List.isChain_map _).1 htile.beside) h

/-- A rule of tags that may be empty, a marker with spacing behind it and characters of two bytes. -/
theorem tokens_tile_listing :
    let tags : TagRule := ⟨.concat [.group TagRule.nameGroup (.concat [.star (.single 'b') true])]⟩
    let config : Config := { Config.standard with tags := tags }
    let ts := tokens (ofText config ⟨true, true⟩ "üb [ß]  \n\n c".toList)
    TagRule.read "(?P<name>b*)".toList = .ok tags ∧ config.inputs = .delimited '[' ']' ∧
      ts = [⟨0, .tag, []⟩, ⟨0, .literal, "ü".toList⟩, ⟨1, .tag, "b".toList⟩, ⟨2, .spaces, " ".toList⟩,
        ⟨3, .input, "ß".toList⟩, ⟨6, .spaces, "  ".toList⟩, ⟨8, .newlines, "\n\n".toList⟩,
        ⟨10, .spaces, " ".toList⟩, ⟨11, .tag, []⟩, ⟨11, .literal, "c".toList⟩, ⟨12, .tag, []⟩,
        ⟨12, .finish, []⟩] ∧
      ts.flatMap (Token.written '[' ']') = "üb [ß]  \n\n c".toList ∧
      (∃ lead : List Token, ts = lead ++ [⟨12, .finish, []⟩] ∧ ∀ t ∈ lead, t.kind ≠ .finish) := by
  intro tags config ts
  have hinputs : config.inputs = .delimited '[' ']' := rfl
  have htile := tokens_tile hinputs ⟨true, true⟩ "üb [ß]  \n\n c".toList
  exact ⟨by decide +kernel, hinputs, by decide +kernel, htile.2.1, htile.1⟩

end Lexeme

end Transcript
