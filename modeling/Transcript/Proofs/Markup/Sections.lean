/-
**The sections of a text.**

Where no input is recognised, the lines and the runs of a text play no part of their own: the text falls
into its maximal runs of newlines, of other white space and of other characters, and the tokens are
those runs, the words among them split at their tags.  Sections, unlike lines and runs, can be read off
the parts of a text one after the other.

Main definitions:

* `Transcript.TokenKind.ofChar` — newlines, other white space, and other characters;
* `Transcript.Piece.sections` — the maximal runs of the three kinds;
* `Transcript.Piece.ofText` — the pieces of a text, without the end;
* `Transcript.Token.piece` — a token without its offset.

Main results:

* `Transcript.Piece.sections_append` — sections of texts one behind the other;
* `Transcript.Lexeme.pieces_ofText` — **the tokens of a text are its sections, split at tags**;
* `Transcript.Piece.ofText_parted` — the pieces of a text in parts.
-/

import Transcript.Proofs.Compile.Run
import Transcript.Proofs.Markup.Tiling
import Transcript.Proofs.Text.Words

set_option relaxedAutoImplicit false
set_option autoImplicit false

namespace Transcript

/-! ### Sections -/

/-- The kind of the section that a character belongs to. -/
def TokenKind.ofChar (c : Char) : TokenKind :=
  if c = '\n' then .newlines else if Text.isBlank c then .spaces else .literal

namespace TokenKind

theorem ofChar_of_isBlank {c : Char} (hc : Text.isBlank c = true) : (ofChar c).isSpace = true := by
  unfold ofChar
  by_cases hnewline : c = '\n'
  · rw [if_pos hnewline]
    rfl
  · rw [if_neg hnewline, if_pos hc]
    rfl

theorem ofChar_ne_literal {c : Char} (hc : Text.isBlank c = true) : ofChar c ≠ .literal := by
  intro hliteral
  have hspace := ofChar_of_isBlank hc
  rw [hliteral] at hspace
  exact absurd hspace (by decide)

theorem ofChar_of_not_isBlank {c : Char} (hc : Text.isBlank c = false) : ofChar c = .literal := by
  have hnewline : c ≠ '\n' := by
    rintro rfl
    exact absurd hc (by decide)
  rw [ofChar, if_neg hnewline, if_neg (by simp [hc])]

end TokenKind

namespace Piece

open TokenKind (ofChar)

def extend (c : Char) : List Piece → List Piece
  | [] => [⟨ofChar c, [c]⟩]
  | piece :: rest =>
      if piece.kind = ofChar c then ⟨piece.kind, c :: piece.text⟩ :: rest
      else ⟨ofChar c, [c]⟩ :: piece :: rest

/-- The sections of a text: its maximal runs of newlines, of other white space and of other
characters. -/
def sections : Text → List Piece
  | [] => []
  | c :: text => extend c (sections text)

/-- The first section has the kind of the first character. -/
theorem head?_sections (text : Text) :
    (sections text).head?.map Piece.kind = text.head?.map ofChar := by
  cases text with
  | nil => rfl
  | cons c text =>
      rw [sections]
      cases sections text with
      | nil => rfl
      | cons piece rest => by_cases hkind : piece.kind = ofChar c <;> simp [extend, hkind]

theorem sections_eq_nil_iff {text : Text} : sections text = [] ↔ text = [] := by
  have h := head?_sections text
  cases text with
  | nil => exact ⟨fun _ => rfl, fun _ => rfl⟩
  | cons c text =>
      refine ⟨fun hnil => ?_, fun hnil => absurd hnil (List.cons_ne_nil _ _)⟩
      rw [hnil] at h
      exact absurd h (by simp)

/-- A character that is not of the kind of the first section is a section of its own. -/
theorem extend_of_ne {c : Char} {pieces : List Piece}
    (h : ∀ piece ∈ pieces.head?, piece.kind ≠ ofChar c) :
    extend c pieces = ⟨ofChar c, [c]⟩ :: pieces := by
  cases pieces with
  | nil => rfl
  | cons piece rest => rw [extend, if_neg (h piece rfl)]

theorem extend_append {c : Char} {pieces : List Piece} (hne : pieces ≠ []) (more : List Piece) :
    extend c (pieces ++ more) = extend c pieces ++ more := by
  obtain ⟨piece, rest, rfl⟩ := List.exists_cons_of_ne_nil hne
  by_cases hkind : piece.kind = ofChar c <;> simp [extend, hkind]

/-- **Sections of texts one behind the other**, where no section reaches over from one to the other. -/
theorem sections_append {front back : Text}
    (h : ∀ c ∈ front.getLast?, ∀ d ∈ back.head?, ofChar c ≠ ofChar d) :
    sections (front ++ back) = sections front ++ sections back := by
  induction front with
  | nil => rfl
  | cons c front ih =>
      rw [List.cons_append, sections, sections]
      cases front with
      | nil =>
          refine extend_of_ne fun piece hpiece hkind => ?_
          have hhead := head?_sections back
          rw [Option.mem_def, List.nil_append] at hpiece
          rw [hpiece] at hhead
          cases back with
          | nil => simp at hhead
          | cons d back =>
              refine h c rfl d rfl ?_
              rw [← hkind]
              simpa using hhead
      | cons d front =>
          have hne : sections (d :: front) ≠ [] := by
            intro hnil
            exact absurd (sections_eq_nil_iff.1 hnil) (List.cons_ne_nil _ _)
          rw [ih fun e he => h e (by simpa using he), extend_append hne]

theorem sections_eq_singleton {text : Text} {kind : TokenKind} (hne : text ≠ [])
    (h : ∀ c ∈ text, ofChar c = kind) : sections text = [⟨kind, text⟩] := by
  induction text with
  | nil => exact absurd rfl hne
  | cons c text ih =>
      have hc := h c (List.mem_cons_self ..)
      cases text with
      | nil => rw [sections, sections, extend, hc]
      | cons d text =>
          rw [sections, ih (by simp) fun e he => h e (List.mem_cons_of_mem _ he), extend, hc,
            if_pos rfl]

/-- A section has the kind of a character of the text. -/
theorem kind_of_mem_sections {text : Text} {piece : Piece} (h : piece ∈ sections text) :
    ∃ c ∈ text, piece.kind = ofChar c := by
  induction text generalizing piece with
  | nil => simp [sections] at h
  | cons c text ih =>
      rw [sections] at h
      have hrest {piece : Piece} (h : piece ∈ sections text) : ∃ d ∈ c :: text, piece.kind = ofChar d := by
        obtain ⟨d, hd, hkind⟩ := ih h
        exact ⟨d, List.mem_cons_of_mem _ hd, hkind⟩
      cases hsections : sections text with
      | nil =>
          rw [hsections, extend, List.mem_singleton] at h
          exact ⟨c, List.mem_cons_self .., by rw [h]⟩
      | cons first rest =>
          rw [hsections] at h hrest
          by_cases hkind : first.kind = ofChar c
          · rw [extend, if_pos hkind] at h
            rcases List.mem_cons.1 h with rfl | h
            · exact ⟨c, List.mem_cons_self .., hkind⟩
            · exact hrest (List.mem_cons_of_mem _ h)
          · rw [extend, if_neg hkind] at h
            rcases List.mem_cons.1 h with rfl | h
            · exact ⟨c, List.mem_cons_self .., rfl⟩
            · exact hrest h

end Piece

/-! ### Sections of lines -/

namespace Text

open TokenKind (ofChar)

def Run.section (run : Run) : Piece := ⟨if run.blank then .spaces else .literal, run.text⟩

def Line.breaks (line : Line) : List Piece :=
  if line.newlines = 0 then [] else [⟨.newlines, List.replicate line.newlines '\n'⟩]

def Line.sections (line : Line) : List Piece := (runs line.body).map Run.section ++ line.breaks

/-- A character that is no newline extends the sections of a line like its runs. -/
theorem Run.map_section_cons {c : Char} (hc : c ≠ '\n') (rs : List Run) :
    (Run.cons c rs).map Run.section = Piece.extend c (rs.map Run.section) := by
  have hkind (blank : Bool) :
      (if blank then TokenKind.spaces else .literal) = ofChar c ↔ blank = isBlank c := by
    rw [ofChar, if_neg hc]
    cases blank <;> cases isBlank c <;> simp
  cases rs with
  | nil => simp [Run.cons, Run.section, Piece.extend, (hkind _).2 rfl]
  | cons run rest =>
      by_cases hrun : run.blank = isBlank c
      · simp [Run.cons, Run.section, Piece.extend, hrun, (hkind _).2 rfl]
      · have hne := mt (hkind run.blank).1 hrun
        simp [Run.cons, Run.section, Piece.extend, hrun, hne, (hkind _).2 rfl]

theorem runs_ne_nil {body : Text} (h : body ≠ []) : runs body ≠ [] := by
  intro hnil
  have htext := flatMap_runs body
  rw [hnil] at htext
  exact h htext.symm

theorem ofChar_ne_newlines {c : Char} (hc : c ≠ '\n') : ofChar c ≠ .newlines := by
  rw [ofChar, if_neg hc]
  cases isBlank c <;> decide

/-- What follows a line begins with its newlines, or is nothing. -/
theorem Chained.kind_breaks {line : Line} {rest : List Line} (h : Chained (line :: rest)) :
    ∀ piece ∈ (line.breaks ++ rest.flatMap Line.sections).head?, piece.kind = .newlines := by
  intro piece hpiece
  cases rest with
  | nil => simp [Line.breaks, h.2] at hpiece
  | cons next rest =>
      simp only [Line.breaks, if_neg h.2.1, List.singleton_append, List.head?_cons,
        Option.mem_some_iff] at hpiece
      rw [← hpiece]

/-- A line that is not empty, or the last one, does not begin with newlines. -/
theorem Chained.kind_ne_newlines {line : Line} {rest : List Line} (h : Chained (line :: rest))
    (hline : line.body = [] → line.newlines = 0) :
    ∀ piece ∈ ((line :: rest).flatMap Line.sections).head?, piece.kind ≠ .newlines := by
  intro piece hpiece
  rw [List.flatMap_cons, Line.sections, List.append_assoc] at hpiece
  by_cases hbody : line.body = []
  · have hkind := h.kind_breaks piece
    rw [hbody, runs, List.map_nil, List.nil_append] at hpiece
    cases rest with
    | nil => simp [Line.breaks, h.2] at hpiece
    | cons next rest => exact absurd (hline hbody) h.2.1
  · obtain ⟨run, rs, hruns⟩ := List.exists_cons_of_ne_nil (runs_ne_nil hbody)
    simp only [hruns, List.map_cons, List.cons_append, List.head?_cons, Option.mem_some_iff] at hpiece
    rw [← hpiece]
    change (if run.blank then TokenKind.spaces else .literal) ≠ .newlines
    cases run.blank <;> decide

/-- A character extends the sections of lines. -/
theorem Line.flatMap_sections_cons (c : Char) {ls : List Line} (h : Chained ls) :
    (Line.cons c ls).flatMap Line.sections = Piece.extend c (ls.flatMap Line.sections) := by
  cases ls with
  | nil => exact h.elim
  | cons line rest =>
      by_cases hc : c = '\n'
      · subst hc
        have hkind : ofChar '\n' = .newlines := rfl
        by_cases hjoin : line.body = [] ∧ line.newlines ≠ 0
        · simp [Line.cons, hjoin, Line.sections, Line.breaks, runs, Piece.extend, hkind,
            List.replicate_succ]
        · have hline : line.body = [] → line.newlines = 0 := by simpa using hjoin
          rw [Piece.extend_of_ne (by simpa [hkind] using h.kind_ne_newlines hline)]
          simp [Line.cons, hjoin, Line.sections, Line.breaks, runs, hkind]
      · have hsections : (Line.cons c (line :: rest)).flatMap Line.sections =
            Piece.extend c ((runs line.body).map Run.section) ++
              (line.breaks ++ rest.flatMap Line.sections) := by
          rw [Line.cons, if_neg hc, List.flatMap_cons, Line.sections, runs, Run.map_section_cons hc,
            List.append_assoc]
          rfl
        rw [hsections, List.flatMap_cons, Line.sections, List.append_assoc]
        cases hruns : (runs line.body).map Run.section with
        | nil =>
            rw [List.nil_append]
            refine (Piece.extend_of_ne fun piece hpiece => ?_).symm
            rw [h.kind_breaks piece hpiece]
            exact (ofChar_ne_newlines hc).symm
        | cons piece pieces => rw [Piece.extend_append (List.cons_ne_nil _ _)]

/-- The sections of a text are those of its lines. -/
theorem flatMap_sections (text : Text) : (lines text).flatMap Line.sections = Piece.sections text := by
  induction text with
  | nil => rfl
  | cons c text ih => rw [lines, Line.flatMap_sections_cons c (chained_lines text), ih]; rfl

end Text

/-! ### The pieces of a text -/

def Token.piece (t : Token) : Piece := ⟨t.kind, t.text⟩

namespace Piece

/-- The pieces of a section: a word is split at its tags. -/
def ofSection (config : Config) (switches : Switches) (piece : Piece) : List Piece :=
  if piece.kind = .literal then ofWord config switches piece.text else [piece]

/-- The pieces of a text in which no input is recognised, without the end. -/
def ofText (config : Config) (switches : Switches) (text : Text) : List Piece :=
  (sections text).flatMap (ofSection config switches)

variable {config : Config} {switches : Switches}

theorem ofRun_eq (run : Text.Run) : ofRun config switches run = ofSection config switches run.section := by
  unfold ofRun ofSection Text.Run.section
  cases run.blank <;> simp

theorem map_piece_place (pieces : List Piece) :
    ∀ offset, (place offset pieces).map Token.piece = pieces := by
  induction pieces with
  | nil => exact fun _ => rfl
  | cons piece pieces ih =>
      intro offset
      rw [place, List.map_cons, ih]
      rfl

end Piece

namespace Lexeme

variable {config : Config} {switches : Switches}

/-- The pieces of lines are those of their sections, and the end. -/
theorem pieces_ofLines (hoff : switches.inputs = false) (ls : List Text.Line) :
    ∀ start, (tokens (ofLines config switches start ls)).map Token.piece =
      (ls.flatMap Text.Line.sections).flatMap (Piece.ofSection config switches) ++ [⟨.finish, []⟩] := by
  induction ls with
  | nil => exact fun _ => rfl
  | cons line rest ih =>
      intro start
      have hline : (tokens (ofLine config switches start line.body)).map Token.piece =
          ((Text.runs line.body).map Text.Run.section).flatMap (Piece.ofSection config switches) := by
        rw [ofLine, if_neg (by simp [hoff]), ofBody, tokens_map_token, Piece.map_piece_place,
          Piece.ofBody, List.flatMap_map]
        exact List.flatMap_congr fun run _ => Piece.ofRun_eq run
      have hbreaks (stop : Nat) : (tokens (ofNewlines stop line.newlines)).map Token.piece =
          line.breaks.flatMap (Piece.ofSection config switches) := by
        unfold ofNewlines Text.Line.breaks
        by_cases hcount : line.newlines = 0
        · rw [if_pos hcount, if_pos hcount]
          rfl
        · rw [if_neg hcount, if_neg hcount]
          rfl
      rw [ofLines, tokens_append, tokens_append, List.map_append, List.map_append, hline, hbreaks, ih]
      simp only [List.flatMap_cons, Text.Line.sections, List.flatMap_append, List.append_assoc]

/-- **The tokens of a text are its sections, split at tags**, and the end. -/
theorem pieces_ofText (config : Config) (hoff : switches.inputs = false) (text : Text) :
    (tokens (ofText config switches text)).map Token.piece =
      Piece.ofText config switches text ++ [⟨.finish, []⟩] := by
  rw [ofText, pieces_ofLines hoff, Text.flatMap_sections, Piece.ofText]

end Lexeme

namespace Piece

open TokenKind (ofChar)
open Text (Parted)

theorem isSpace_of_mem_sections {gap : Text} (hgap : ∀ b ∈ gap, Text.isBlank b = true) :
    ∀ piece ∈ sections gap, piece.kind.isSpace = true := by
  intro piece hpiece
  obtain ⟨b, hb, hkind⟩ := kind_of_mem_sections hpiece
  rw [hkind]
  exact TokenKind.ofChar_of_isBlank (hgap b hb)

theorem ofText_gap (config : Config) (switches : Switches) {gap : Text}
    (hgap : ∀ b ∈ gap, Text.isBlank b = true) : ofText config switches gap = sections gap := by
  have hself : ∀ piece ∈ sections gap, ofSection config switches piece = [piece] := by
    intro piece hpiece
    obtain ⟨b, hb, hkind⟩ := kind_of_mem_sections hpiece
    exact if_neg (by rw [hkind]; exact TokenKind.ofChar_ne_literal (hgap b hb))
  rw [ofText, List.flatMap_congr hself, List.flatMap_singleton']

/-- **The pieces of a text in parts.** -/
theorem ofText_parted (config : Config) (switches : Switches) {text gap word tail : Text}
    (h : Parted text gap word tail) :
    ofText config switches text =
      sections gap ++ (ofWord config switches word ++ ofText config switches tail) := by
  have hword : ∀ c ∈ word, ofChar c = .literal := fun c hc =>
    TokenKind.ofChar_of_not_isBlank (h.word c hc)
  have hsections : sections text = sections gap ++ (⟨.literal, word⟩ :: sections tail) := by
    rw [h.eq, sections_append, sections_append, sections_eq_singleton h.ne_nil hword]
    · rfl
    · intro c hc b hb
      rw [hword c (List.mem_of_getLast? hc)]
      exact (TokenKind.ofChar_ne_literal (h.tail b hb)).symm
    · intro b hb c hc
      obtain ⟨d, word, rfl⟩ := List.exists_cons_of_ne_nil h.ne_nil
      obtain rfl : d = c := by simpa using hc
      rw [hword d (List.mem_cons_self ..)]
      exact TokenKind.ofChar_ne_literal (h.gap b (List.mem_of_getLast? hb))
  have hgap := ofText_gap config switches h.gap
  rw [ofText, hsections, List.flatMap_append, List.flatMap_cons, ← ofText, hgap]
  rfl

/-- A word falls into literals and tags. -/
theorem kind_of_mem_ofWord {config : Config} {switches : Switches} {word : Text} {piece : Piece}
    (h : piece ∈ ofWord config switches word) : piece.kind = .literal ∨ piece.kind = .tag := by
  unfold ofWord at h
  by_cases htags : switches.tags = true
  · rw [if_pos htags] at h
    exact (of_mem_split h).imp And.left And.left
  · rw [if_neg htags, List.mem_singleton] at h
    rw [h]
    exact Or.inl rfl

/-- A text falls into white space, literals and tags. -/
theorem kind_of_mem_ofText {config : Config} {switches : Switches} {text : Text} {piece : Piece}
    (h : piece ∈ ofText config switches text) :
    piece.kind.isSpace = true ∨ piece.kind = .literal ∨ piece.kind = .tag := by
  obtain ⟨piece', hpiece', h⟩ := List.mem_flatMap.1 h
  unfold ofSection at h
  by_cases hliteral : piece'.kind = .literal
  · rw [if_pos hliteral] at h
    exact Or.inr (kind_of_mem_ofWord h)
  · rw [if_neg hliteral, List.mem_singleton] at h
    obtain ⟨c, -, hkind⟩ := kind_of_mem_sections hpiece'
    rw [h]
    cases hc : Text.isBlank c with
    | true =>
        rw [hkind]
        exact Or.inl (TokenKind.ofChar_of_isBlank hc)
    | false => exact absurd (hkind.trans (TokenKind.ofChar_of_not_isBlank hc)) hliteral

end Piece

/-! ### The tokens of a text in parts -/

namespace Token

open Text (Parted)

/-- The tokens are those of a text, at whatever offsets. -/
def Reading (config : Config) (switches : Switches) (text : Text) (ts : List Token) : Prop :=
  ts.map piece = Piece.ofText config switches text ++ [⟨.finish, []⟩]

variable {config : Config} {switches : Switches} {ts : List Token}

theorem isSpace_of_map_piece {run : List Token} {gap : Text}
    (hgap : ∀ b ∈ gap, Text.isBlank b = true) (hrun : run.map piece = Piece.sections gap) :
    ∀ t ∈ run, t.kind.isSpace = true := by
  intro t ht
  refine Piece.isSpace_of_mem_sections hgap t.piece ?_
  rw [← hrun]
  exact List.mem_map_of_mem ht

theorem Reading.kind_ne_input {text : Text} (h : Reading config switches text ts) :
    ∀ t ∈ ts, t.kind ≠ .input := by
  intro t ht hinput
  have hpiece : t.piece ∈ Piece.ofText config switches text ++ [⟨.finish, []⟩] := by
    rw [← h]
    exact List.mem_map_of_mem ht
  have hkind : t.piece.kind = .input := hinput
  rcases List.mem_append.1 hpiece with hpiece | hpiece
  · have hkinds := Piece.kind_of_mem_ofText hpiece
    simp [hkind, TokenKind.isSpace] at hkinds
  · rw [List.mem_singleton.1 hpiece] at hkind
    exact absurd hkind (by decide)

/-- The tokens of white space: a run of it, which may be empty, and the end. -/
theorem Reading.blank {gap : Text} (h : Reading config switches gap ts)
    (hgap : ∀ b ∈ gap, Text.isBlank b = true) :
    ∃ run t, ts = run ++ [t] ∧ (∀ s ∈ run, s.kind.isSpace = true) ∧ t.kind = .finish := by
  rw [Reading, Piece.ofText_gap config switches hgap] at h
  obtain ⟨run, back, rfl, hrun, hback⟩ := List.map_eq_append_iff.1 h
  obtain ⟨t, rfl, ht⟩ := List.map_eq_singleton_iff.1 hback
  exact ⟨run, t, rfl, isSpace_of_map_piece hgap hrun, congrArg Piece.kind ht⟩

/-- The tokens of a text in parts: a run of white space, the pieces of the word, and the tokens of the
tail. -/
theorem Reading.parted {text gap word tail : Text} (h : Reading config switches text ts)
    (hparts : Parted text gap word tail) :
    ∃ run middle rest, ts = run ++ (middle ++ rest) ∧ (∀ s ∈ run, s.kind.isSpace = true) ∧
      (run = [] ↔ gap = []) ∧ middle.map piece = Piece.ofWord config switches word ∧
      Reading config switches tail rest := by
  rw [Reading, Piece.ofText_parted config switches hparts, List.append_assoc, List.append_assoc] at h
  obtain ⟨run, back, rfl, hrun, hback⟩ := List.map_eq_append_iff.1 h
  obtain ⟨middle, rest, rfl, hmiddle, hrest⟩ := List.map_eq_append_iff.1 hback
  refine ⟨run, middle, rest, rfl, isSpace_of_map_piece hparts.gap hrun, ?_, hmiddle, hrest⟩
  rw [← List.map_eq_nil_iff (f := piece), hrun, Piece.sections_eq_nil_iff]

end Token

namespace Compiler

/-- The tokens of a text in which no input is recognised. -/
theorem reading_tokens (policy : Policy) (config : Config) {switches : Switches}
    (hoff : switches.inputs = false) (text : Text) :
    Token.Reading config switches (policy.scope text) (tokens policy config switches text) :=
  Lexeme.pieces_ofText config hoff _

end Compiler

end Transcript
