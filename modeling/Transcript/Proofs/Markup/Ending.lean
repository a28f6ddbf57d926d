/-
**The end of an expected text.**

In front of the end, the policies differ: where spacing is kept, the newlines at the end of a text are
not compiled; where it is normalized, they are.  Where no input is recognised, the tokens of the two are
the same up to there: what is left out is one run of newlines in front of the end.

Main results:

* `Transcript.Text.exists_lines_newlines` — newlines at the end of a text follow its last line;
* `Transcript.Compiler.exists_tokens_literal_normalize` — **the tokens of a text under the two
  policies**.
-/

import Transcript.Proofs.Markup.Sections
import Transcript.Proofs.Text.Trim

set_option relaxedAutoImplicit false
set_option autoImplicit false

namespace Transcript

/-! ### Lines -/

namespace Text

/-- A character joins the first line, or begins a line in front of it. -/
theorem Line.cons_cons (c : Char) (line : Line) (rest : List Line) :
    Line.cons c (line :: rest) = Line.cons c [line] ++ rest := by
  by_cases hc : c = '\n'
  · by_cases hjoin : line.body = [] ∧ line.newlines ≠ 0 <;> simp [Line.cons, hc, hjoin]
  · simp [Line.cons, hc]

/-- Newlines alone are an empty line that they follow, and another one. -/
theorem lines_replicate (k : Nat) : lines (List.replicate (k + 1) '\n') = [⟨[], k + 1⟩, ⟨[], 0⟩] := by
  induction k with
  | zero => rfl
  | succ k ih => rw [List.replicate_succ, lines, ih]; simp [Line.cons]

/-- Newlines at the end of a text that does not end in one follow its last line. -/
theorem exists_lines_newlines (k : Nat) {text : Text} (hlast : text.getLast? ≠ some '\n') :
    ∃ front body, lines text = front ++ [⟨body, 0⟩] ∧
      lines (text ++ List.replicate (k + 1) '\n') = front ++ [⟨body, k + 1⟩, ⟨[], 0⟩] := by
  induction text with
  | nil => exact ⟨[], [], rfl, lines_replicate k⟩
  | cons c text ih =>
      have hlast' : text.getLast? ≠ some '\n' := by
        intro h
        rw [List.getLast?_cons, h] at hlast
        exact hlast rfl
      obtain ⟨front, body, hlines, hlines'⟩ := ih hlast'
      rw [List.cons_append, lines, lines, hlines, hlines']
      cases front with
      | cons line front =>
          refine ⟨Line.cons c [line] ++ front, body, ?_, ?_⟩
          · rw [List.cons_append, Line.cons_cons, List.append_assoc]
          · rw [List.cons_append, Line.cons_cons, List.append_assoc]
      | nil =>
          by_cases hc : c = '\n'
          · -- the last line is not empty, or the text would end in this newline
            have hbody : body ≠ [] := by
              rintro rfl
              have htext := flatMap_lines text
              rw [hlines] at htext
              rw [← htext, hc] at hlast
              exact hlast rfl
            exact ⟨[⟨[], 1⟩], body, by simp [Line.cons, hc], by simp [Line.cons, hc, hbody]⟩
          · exact ⟨[], c :: body, by simp [Line.cons, hc], by simp [Line.cons, hc]⟩

end Text

/-! ### Tokens -/

namespace Lexeme

variable (config : Config) {switches : Switches} (hoff : switches.inputs = false)

include hoff

theorem tokens_ofLine_nil (start : Nat) : tokens (ofLine config switches start []) = [] := by
  rw [ofLine, if_neg (by simp [hoff])]
  rfl

/-- Newlines behind the last line stand in front of the end. -/
theorem exists_tokens_newlines (body : Text) (k : Nat) (front : List Text.Line) :
    ∀ start, ∃ lead stop,
      tokens (ofLines config switches start (front ++ [⟨body, 0⟩])) = lead ++ [⟨stop, .finish, []⟩] ∧
      tokens (ofLines config switches start (front ++ [⟨body, k + 1⟩, ⟨[], 0⟩])) =
        lead ++ [⟨stop, .newlines, List.replicate (k + 1) '\n'⟩, ⟨stop + (k + 1), .finish, []⟩] := by
  induction front with
  | nil =>
      intro start
      have hfinish (stop : Nat) : tokens [.token ⟨stop, .finish, []⟩] = [⟨stop, .finish, []⟩] := rfl
      have hnone (stop : Nat) : tokens (ofNewlines stop 0) = [] := rfl
      have hnewlines (stop : Nat) : tokens (ofNewlines stop (k + 1)) =
          [⟨stop, .newlines, List.replicate (k + 1) '\n'⟩] := rfl
      refine ⟨tokens (ofLine config switches start body), start + body.length, ?_, ?_⟩
      · simp only [List.nil_append, ofLines, tokens_append, hnone, List.append_nil, hfinish,
          Nat.add_zero]
      · simp only [List.nil_append, ofLines, tokens_append, hnone, hnewlines, hfinish,
          tokens_ofLine_nil config hoff, List.length_nil, Nat.add_zero,
          List.append_assoc, List.singleton_append]
  | cons line front ih =>
      intro start
      obtain ⟨lead, stop, hlead, hlead'⟩ := ih (start + line.body.length + line.newlines)
      refine ⟨tokens (ofLine config switches start line.body) ++
        tokens (ofNewlines (start + line.body.length) line.newlines) ++ lead, stop, ?_, ?_⟩
      · simp only [List.cons_append, ofLines, tokens_append, hlead, List.append_assoc]
      · simp only [List.cons_append, ofLines, tokens_append, hlead', List.append_assoc]

end Lexeme

namespace Compiler

/-- **The tokens of a text under the two policies**: where spacing is kept, the newlines in front of the
end are missing. -/
theorem exists_tokens_literal_normalize (config : Config) {switches : Switches}
    (hoff : switches.inputs = false) (text : Text) :
    ∃ lead gap stop stop',
      tokens .literal config switches text = lead ++ [⟨stop, .finish, []⟩] ∧
      tokens .normalize config switches text = lead ++ (gap ++ [⟨stop', .finish, []⟩]) ∧
      (gap = [] ∨ ∃ t, gap = [t] ∧ t.kind = .newlines) := by
  obtain ⟨k, hk⟩ := Text.exists_trimNewlines text
  obtain ⟨front, body, hlines, hlines'⟩ :=
    Text.exists_lines_newlines (k - 1) (Text.getLast?_trimNewlines text)
  obtain ⟨lead, stop, hlead, hlead'⟩ :=
    Lexeme.exists_tokens_newlines config hoff body (k - 1) front 0
  have hliteral : tokens .literal config switches text = lead ++ [⟨stop, .finish, []⟩] := by
    rw [tokens, Policy.scope, Lexeme.ofText, hlines, hlead]
  cases k with
  | zero =>
      rw [List.replicate_zero, List.append_nil] at hk
      refine ⟨lead, [], stop, stop, hliteral, ?_, Or.inl rfl⟩
      rw [List.nil_append, ← hliteral, tokens, tokens, Policy.scope, Policy.scope, ← hk]
  | succ k =>
      rw [Nat.add_sub_cancel] at hlines' hlead'
      refine ⟨lead, [⟨stop, .newlines, List.replicate (k + 1) '\n'⟩], stop, stop + (k + 1), hliteral, ?_,
        Or.inr ⟨_, rfl, rfl⟩⟩
      rw [tokens, Policy.scope, List.singleton_append, ← hlead', ← hlines', ← Lexeme.ofText, ← hk]

end Compiler

end Transcript
