/-
**The words of a text.**

The words of a text are its maximal runs of characters that are not white space.  A text that has a word
falls into the white space in front of the first one, that word and a tail that does not go on with it;
so what is said about a text can be proved by induction on its words.

Main definitions:

* `Transcript.Text.words` — the words of a text;
* `Transcript.Text.Parted` — a text in parts: white space, a word and a tail.

Main results:

* `Transcript.Text.words_append_blank` — **words split at white space**;
* `Transcript.Text.Parted.words_eq` — the words of a text in parts;
* `Transcript.Text.exists_parted` — the parts of a text with words.
-/

import Transcript.Text.Blank

set_option relaxedAutoImplicit false
set_option autoImplicit false

namespace Transcript

namespace Text

/-! ### Words -/

/-- The words of a text: its maximal runs of characters that are not white space. -/
def words (text : Text) : List Text := (text.splitOnP isBlank).filter (· ≠ [])

@[simp] theorem words_nil : words [] = [] := by simp [words]

/-- **Words split at white space.**  Everything else about words follows. -/
theorem words_append_blank {b : Char} (hb : isBlank b = true) (front back : Text) :
    words (front ++ b :: back) = words front ++ words back := by
  rw [words, List.splitOnP_append_cons front back hb, List.filter_append]
  rfl

/-- White space in front of a text is no part of its words. -/
theorem words_gap {gap : Text} (hgap : ∀ b ∈ gap, isBlank b = true) (text : Text) :
    words (gap ++ text) = words text := by
  induction gap with
  | nil => rfl
  | cons b gap ih =>
      have hb := hgap b (List.mem_cons_self ..)
      calc words (b :: (gap ++ text))
          = words [] ++ words (gap ++ text) := words_append_blank hb [] _
        _ = words text := by
            rw [words_nil, List.nil_append, ih fun c hc => hgap c (List.mem_cons_of_mem _ hc)]

theorem words_blank {gap : Text} (hgap : ∀ b ∈ gap, isBlank b = true) : words gap = [] := by
  have h := words_gap hgap []
  rwa [List.append_nil, words_nil] at h

theorem words_word {word : Text} (hne : word ≠ []) (hword : ∀ c ∈ word, isBlank c = false) :
    words word = [word] := by
  rw [words, List.splitOnP_eq_singleton hword]
  simp [hne]

/-- A word ends where white space or nothing follows. -/
theorem words_word_append {word tail : Text} (hne : word ≠ [])
    (hword : ∀ c ∈ word, isBlank c = false) (htail : ∀ b ∈ tail.head?, isBlank b = true) :
    words (word ++ tail) = word :: words tail := by
  cases tail with
  | nil => rw [List.append_nil, words_word hne hword, words_nil]
  | cons b back =>
      have hb := htail b rfl
      rw [words_append_blank hb, words_word hne hword]
      have hback : words (b :: back) = words back := words_append_blank hb [] back
      rw [hback]
      rfl

/-! ### Parts -/

/-- The text is white space, a word and a tail that does not go on with the word. -/
structure Parted (text gap word tail : Text) : Prop where
  eq : text = gap ++ (word ++ tail)
  gap : ∀ b ∈ gap, isBlank b = true
  ne_nil : word ≠ []
  word : ∀ c ∈ word, isBlank c = false
  tail : ∀ b ∈ tail.head?, isBlank b = true

theorem Parted.words_eq {text gap word tail : Text} (h : Parted text gap word tail) :
    words text = word :: words tail := by
  rw [h.eq, words_gap h.gap, words_word_append h.ne_nil h.word h.tail]

/-- The text begins with no white space exactly if there is none in front of the word. -/
theorem Parted.head?_eq_false {text gap word tail : Text} (h : Parted text gap word tail) :
    text.head?.any isBlank = false ↔ gap = [] := by
  rw [h.eq]
  cases gap with
  | nil =>
      obtain ⟨c, word, rfl⟩ := List.exists_cons_of_ne_nil h.ne_nil
      simp [h.word c (List.mem_cons_self ..)]
  | cons b gap => simp [h.gap b (List.mem_cons_self ..)]

theorem Parted.head?_eq_true {text gap word tail : Text} (h : Parted text gap word tail) :
    text.head?.any isBlank = true ↔ gap ≠ [] := by
  rw [← Bool.not_eq_false, h.head?_eq_false]

/-- A tail that has words begins with white space. -/
theorem Parted.blank_tail {text gap word tail : Text} (h : Parted text gap word tail)
    (hwords : words tail ≠ []) : tail.head?.any isBlank = true := by
  cases tail with
  | nil => exact absurd words_nil hwords
  | cons b tail => exact h.tail b rfl

/-- A text that is not all white space has parts. -/
theorem blank_or_parted (text : Text) :
    (∀ b ∈ text, isBlank b = true) ∨ ∃ gap word tail, Parted text gap word tail := by
  induction text with
  | nil => exact Or.inl (by simp)
  | cons c text ih =>
      cases hc : isBlank c with
      | true =>
          rcases ih with hblank | ⟨gap, word, tail, h⟩
          · exact Or.inl (List.forall_mem_cons.2 ⟨hc, hblank⟩)
          · exact Or.inr ⟨c :: gap, word, tail, congrArg (c :: ·) h.eq,
              List.forall_mem_cons.2 ⟨hc, h.gap⟩, h.ne_nil, h.word, h.tail⟩
      | false =>
          right
          by_cases htext : ∀ b ∈ text.head?, isBlank b = true
          · exact ⟨[], [c], text, rfl, by simp, by simp, by simpa using hc, htext⟩
          · -- the text goes on with the word, so nothing stands in front of its first word
            rcases ih with hblank | ⟨gap, word, tail, h⟩
            · exact absurd (fun b hb => hblank b (List.mem_of_mem_head? hb)) htext
            · have hgap : gap = [] := by
                refine Classical.byContradiction fun hne => htext fun b hb => ?_
                have hhead := h.head?_eq_true.2 hne
                rw [Option.mem_def] at hb
                rwa [hb] at hhead
              subst hgap
              exact ⟨[], c :: word, tail, congrArg (c :: ·) h.eq, by simp, by simp,
                List.forall_mem_cons.2 ⟨hc, h.word⟩, h.tail⟩

theorem words_eq_nil_iff {text : Text} : words text = [] ↔ ∀ b ∈ text, isBlank b = true := by
  refine ⟨fun h => ?_, words_blank⟩
  rcases blank_or_parted text with hblank | ⟨gap, word, tail, hparted⟩
  · exact hblank
  · rw [hparted.words_eq] at h
    exact absurd h (List.cons_ne_nil _ _)

theorem exists_parted {text word : Text} {rest : List Text} (h : words text = word :: rest) :
    ∃ gap tail, Parted text gap word tail ∧ words tail = rest := by
  rcases blank_or_parted text with hblank | ⟨gap, word', tail, hparted⟩
  · rw [words_blank hblank] at h
    exact absurd h.symm (List.cons_ne_nil _ _)
  · rw [hparted.words_eq] at h
    obtain ⟨rfl, rfl⟩ := List.cons.inj h
    exact ⟨gap, tail, hparted, rfl⟩

/-- A word is not empty, and none of it is white space. -/
theorem word_of_mem_words {ws : List Text} :
    ∀ {text : Text}, words text = ws → ∀ w ∈ ws, w ≠ [] ∧ ∀ c ∈ w, isBlank c = false := by
  induction ws with
  | nil => simp
  | cons word ws ih =>
      intro text h w hw
      obtain ⟨gap, tail, hparts, htail⟩ := exists_parted h
      rcases List.mem_cons.1 hw with rfl | hw
      · exact ⟨hparts.ne_nil, hparts.word⟩
      · exact ih htail w hw

end Text

end Transcript
