/-
**Lines and runs of a text.**

The lines of a text are what stands between its newlines, and the runs of a line are its maximal parts
that are blank or not.  This module says so for the functions that cut a text: no line holds a newline
and only the last one is followed by none, no run goes on with the one in front of it, and where the
newlines behind a line stand in the text there are no others beside them.

Main definitions:

* `Transcript.Text.MaximalRun` — a part of a text that goes as far as its characters allow;
* `Transcript.Text.IsLine` — a part of a text between newlines;
* `Transcript.Text.Chained` — lines as they follow one another;
* `Transcript.Text.Stacked` — lines as they stand behind a part of a text.

Main results:

* `Transcript.Text.maximalRun_of_runs` — **the runs of a text are maximal**;
* `Transcript.Text.stacked_lines` — the lines of a text stand one after the other;
* `Transcript.Text.Stacked.isLine`, `Transcript.Text.Stacked.maximalRun` — **lines and the newlines behind
  them** in their text.
-/

import Mathlib.Data.List.Chain
import Transcript.Text.Blank

set_option relaxedAutoImplicit false
set_option autoImplicit false

namespace Transcript

namespace Text

/-! ### Maximal runs -/

/-- The text `s` stands in a text at an offset.  It is not empty, all its characters have the property,
and those beside it do not. -/
structure MaximalRun (p : Char → Bool) (text : Text) (offset : Nat) (s : Text) : Prop where
  ne_nil : s ≠ []
  all : ∀ c ∈ s, p c = true
  maximal : ∃ front back, text = front ++ (s ++ back) ∧ front.length = offset ∧
    (∀ c ∈ front.getLast?, p c = false) ∧ ∀ c ∈ back.head?, p c = false

/-- Properties that agree on the text have the same runs. -/
theorem MaximalRun.congr {p q : Char → Bool} {text s : Text} {offset : Nat}
    (h : MaximalRun p text offset s) (hpq : ∀ c ∈ text, p c = q c) : MaximalRun q text offset s := by
  obtain ⟨hne, hall, front, back, rfl, hoffset, hfront, hback⟩ := h
  refine ⟨hne, fun c hc => ?_, front, back, rfl, hoffset, fun c hc => ?_, fun c hc => ?_⟩
  · rw [← hpq c (by simp [hc]), hall c hc]
  · rw [← hpq c (by simp [List.mem_of_getLast? hc]), hfront c hc]
  · rw [← hpq c (by simp [List.mem_of_head? hc]), hback c hc]

/-! ### Runs -/

/-- The runs of a text are not empty, and each is as blank as it says. -/
theorem run_of_mem_runs {s : Text} {run : Run} (h : run ∈ runs s) :
    run.text ≠ [] ∧ ∀ c ∈ run.text, isBlank c = run.blank := by
  induction s generalizing run with
  | nil => simp [runs] at h
  | cons c s ih =>
      rw [runs] at h
      cases hruns : runs s with
      | nil =>
          rw [hruns, Run.cons, List.mem_singleton] at h
          rw [h]
          simp
      | cons first rest =>
          have hmem : first ∈ runs s := by simp [hruns]
          have hfirst := ih hmem
          rw [hruns, Run.cons] at h
          by_cases hblank : first.blank = isBlank c
          · rw [if_pos hblank] at h
            rcases List.mem_cons.1 h with rfl | h
            · refine ⟨by simp, fun d hd => ?_⟩
              rcases List.mem_cons.1 hd with rfl | hd
              · exact hblank.symm
              · exact hfirst.2 d hd
            · exact ih (by simp [hruns, h])
          · rw [if_neg hblank] at h
            rcases List.mem_cons.1 h with rfl | h
            · simp
            · exact ih (by rw [hruns]; exact h)

/-- No run goes on with the one in front of it. -/
theorem isChain_runs (s : Text) : (runs s).IsChain fun r r' => r.blank ≠ r'.blank := by
  induction s with
  | nil => exact .nil
  | cons c s ih =>
      rw [runs]
      cases hruns : runs s with
      | nil => exact .singleton _
      | cons first rest =>
          rw [hruns] at ih
          by_cases hblank : first.blank = isBlank c
          · -- the first run keeps its kind
            rw [Run.cons, if_pos hblank]
            cases rest with
            | nil => exact .singleton _
            | cons next rest =>
                obtain ⟨hnext, hrest⟩ := List.isChain_cons_cons.1 ih
                exact .cons_cons hnext hrest
          · rw [Run.cons, if_neg hblank]
            exact .cons_cons (fun h => hblank h.symm) ih

/-- The last character of runs is one of the last run. -/
theorem exists_getLast?_of_flatMap {rs : List Run} (hne : ∀ run ∈ rs, run.text ≠ []) {c : Char}
    (h : c ∈ (rs.flatMap Run.text).getLast?) : ∃ run ∈ rs.getLast?, c ∈ run.text := by
  rcases List.eq_nil_or_concat rs with rfl | ⟨init, run, rfl⟩
  · simp at h
  · rw [List.concat_eq_append] at h hne ⊢
    refine ⟨run, by simp, List.mem_of_getLast? ?_⟩
    have hrun := hne run (by simp)
    rw [List.flatMap_append, List.flatMap_singleton, List.getLast?_append_of_ne_nil _ hrun] at h
    exact h

/-- The first character of runs is one of the first run. -/
theorem exists_head?_of_flatMap {rs : List Run} (hne : ∀ run ∈ rs, run.text ≠ []) {c : Char}
    (h : c ∈ (rs.flatMap Run.text).head?) : ∃ run ∈ rs.head?, c ∈ run.text := by
  cases rs with
  | nil => simp at h
  | cons run rs =>
      refine ⟨run, rfl, List.mem_of_head? ?_⟩
      rw [List.flatMap_cons, List.head?_append_of_ne_nil _ (hne run (List.mem_cons_self ..))] at h
      exact h

/-- **The runs of a text are maximal.** -/
theorem maximalRun_of_runs {s : Text} {front back : List Run} {run : Run}
    (h : runs s = front ++ run :: back) :
    MaximalRun (fun c => isBlank c == run.blank) s (front.flatMap Run.text).length run.text := by
  have hruns : ∀ r ∈ front ++ run :: back, r.text ≠ [] ∧ ∀ c ∈ r.text, isBlank c = r.blank :=
    fun r hr => run_of_mem_runs (h ▸ hr)
  obtain ⟨hne, hblank⟩ := hruns run (by simp)
  have hchain := isChain_runs s
  rw [h] at hchain
  obtain ⟨-, hback, hfront⟩ := List.isChain_append.1 hchain
  obtain ⟨-, -, hback⟩ := List.isChain_append.1 (List.singleton_append ▸ hback)
  refine ⟨hne, fun c hc => by simp [hblank c hc], front.flatMap Run.text, back.flatMap Run.text, ?_, rfl,
    fun c hc => ?_, fun c hc => ?_⟩
  · rw [← List.flatMap_cons, ← List.flatMap_append, ← h, flatMap_runs]
  · obtain ⟨last, hlast, hc⟩ := exists_getLast?_of_flatMap
      (fun r hr => (hruns r (List.mem_append_left _ hr)).1) hc
    rw [(hruns last (List.mem_append_left _ (List.mem_of_getLast? hlast))).2 c hc]
    exact beq_false_of_ne (hfront last hlast run rfl)
  · obtain ⟨first, hfirst, hc⟩ := exists_head?_of_flatMap (fun r hr => (hruns r (by simp [hr])).1) hc
    rw [(hruns first (by simp [List.mem_of_head? hfirst])).2 c hc]
    exact beq_false_of_ne (hback run rfl first hfirst).symm

/-! ### Lines -/

/-- Only the last line is followed by no newline, and no line holds one. -/
def Chained : List Line → Prop
  | [] => False
  | [line] => '\n' ∉ line.body ∧ line.newlines = 0
  | line :: rest => '\n' ∉ line.body ∧ line.newlines ≠ 0 ∧ Chained rest

theorem Chained.not_mem_body {line : Line} {rest : List Line} (h : Chained (line :: rest)) :
    '\n' ∉ line.body := by
  cases rest with
  | nil => exact h.1
  | cons next rest => exact h.1

theorem chained_cons (c : Char) {ls : List Line} (h : Chained ls) : Chained (Line.cons c ls) := by
  cases ls with
  | nil => exact h.elim
  | cons line rest =>
      by_cases hc : c = '\n'
      · by_cases hjoin : line.body = [] ∧ line.newlines ≠ 0
        · cases rest with
          | nil => exact absurd h.2 hjoin.2
          | cons next rest => simpa [Line.cons, hc, hjoin, Chained] using h.2.2
        · simpa [Line.cons, hc, hjoin, Chained] using h
      · cases rest with
        | nil => simpa [Line.cons, hc, Chained, eq_comm] using h
        | cons next rest => simpa [Line.cons, hc, Chained, eq_comm] using h

theorem chained_lines (text : Text) : Chained (lines text) := by
  induction text with
  | nil => simp [lines, Chained]
  | cons c text ih => exact chained_cons c ih

/-- Behind the first line, only the last one may be empty. -/
theorem isChain_lines (text : Text) :
    (lines text).IsChain fun _ next => next.body ≠ [] ∨ next.newlines = 0 := by
  induction text with
  | nil => exact .singleton _
  | cons c text ih =>
      rw [lines]
      cases hlines : lines text with
      | nil => by_cases hc : c = '\n' <;> simp [Line.cons, hc]
      | cons line rest =>
          rw [hlines] at ih
          -- nothing is said about the first line
          have hfirst {line' : Line} :
              (line' :: rest).IsChain fun _ next => next.body ≠ [] ∨ next.newlines = 0 := by
            cases rest with
            | nil => exact .singleton _
            | cons next rest =>
                obtain ⟨hnext, hrest⟩ := List.isChain_cons_cons.1 ih
                exact .cons_cons hnext hrest
          by_cases hc : c = '\n'
          · by_cases hjoin : line.body = [] ∧ line.newlines ≠ 0
            · rw [Line.cons, if_pos hc, if_pos hjoin]
              exact hfirst
            · rw [Line.cons, if_pos hc, if_neg hjoin]
              exact .cons_cons (by simpa [or_iff_not_imp_left] using hjoin) ih
          · rw [Line.cons, if_neg hc]
            exact hfirst

/-! ### Lines in their text -/

/-- The text `line` stands in a text at an offset, holds no newline, and newlines or nothing stand
beside it. -/
structure IsLine (text : Text) (offset : Nat) (line : Text) : Prop where
  not_mem : '\n' ∉ line
  whole : ∃ front back, text = front ++ (line ++ back) ∧ front.length = offset ∧
    (∀ c ∈ front.getLast?, c = '\n') ∧ ∀ c ∈ back.head?, c = '\n'

/-- The lines stand one after the other behind a part of a text.  All but the last one are followed by
newlines, and of these only the first one may be empty, where the text begins. -/
inductive Stacked : Text → List Line → Prop
  | last {before body : Text} (hbefore : ∀ c ∈ before.getLast?, c = '\n') (hbody : '\n' ∉ body) :
      Stacked before [⟨body, 0⟩]
  | cons {before : Text} {line : Line} {rest : List Line} (hbefore : ∀ c ∈ before.getLast?, c = '\n')
      (hbody : '\n' ∉ line.body) (hnewlines : line.newlines ≠ 0) (hne : line.body = [] → before = [])
      (hrest : Stacked (before ++ line.text) rest) : Stacked before (line :: rest)

/-- A line with newlines behind it ends in one. -/
theorem Line.getLast?_text {line : Line} (h : line.newlines ≠ 0) (before : Text) :
    (before ++ line.text).getLast? = some '\n' := by
  obtain ⟨n, hn⟩ := Nat.exists_eq_succ_of_ne_zero h
  rw [Line.text, hn, List.replicate_succ', ← List.append_assoc, ← List.append_assoc, List.getLast?_concat]

theorem stacked_of_chained {ls : List Line} :
    ∀ {before : Text}, Chained ls → (ls.IsChain fun _ next => next.body ≠ [] ∨ next.newlines = 0) →
      (∀ c ∈ before.getLast?, c = '\n') →
      (∀ line ∈ ls.head?, line.body = [] → line.newlines = 0 ∨ before = []) → Stacked before ls := by
  induction ls with
  | nil => exact fun h => h.elim
  | cons line rest ih =>
      intro before hchained hchain hbefore hfirst
      cases rest with
      | nil =>
          obtain ⟨body, newlines⟩ := line
          obtain ⟨hbody, rfl⟩ := hchained
          exact .last hbefore hbody
      | cons next rest =>
          obtain ⟨hbody, hnewlines, hrest⟩ := hchained
          obtain ⟨hnext, hchain⟩ := List.isChain_cons_cons.1 hchain
          refine .cons hbefore hbody hnewlines (fun hnil => (hfirst line rfl hnil).resolve_left hnewlines)
            (ih hrest hchain (fun c hc => ?_) fun line' hline' hnil => Or.inl ?_)
          · rw [Line.getLast?_text hnewlines] at hc
            exact (Option.some.inj hc).symm
          · obtain rfl := Option.some.inj hline'
            exact hnext.resolve_left fun hne => hne hnil

/-- The lines of a text stand one after the other. -/
theorem stacked_lines (text : Text) : Stacked [] (lines text) :=
  stacked_of_chained (chained_lines text) (isChain_lines text) nofun fun _ _ _ => Or.inr rfl

/-- Behind newlines, lines do not begin with another one. -/
theorem Stacked.head?_ne {before : Text} {ls : List Line} (h : Stacked before ls) (hne : before ≠ []) :
    ∀ c ∈ (ls.flatMap Line.text).head?, c ≠ '\n' := by
  have hbody {body rest : Text} (hbody : '\n' ∉ body) (hne : body ≠ []) :
      ∀ c ∈ (body ++ rest).head?, c ≠ '\n' := by
    rintro c hc rfl
    rw [List.head?_append_of_ne_nil _ hne] at hc
    exact hbody (List.mem_of_head? hc)
  cases h with
  | @last before body hbefore hnot =>
      by_cases hnil : body = []
      · simp [Line.text, hnil]
      · rw [List.flatMap_singleton, Line.text]
        exact hbody hnot hnil
  | cons hbefore hnot hnewlines hnil hrest =>
      rw [List.flatMap_cons, Line.text, List.append_assoc]
      exact hbody hnot fun h => hne (hnil h)

/-- **A line** in its text. -/
theorem Stacked.isLine {before : Text} {line : Line} {rest : List Line}
    (h : Stacked before (line :: rest)) :
    IsLine (before ++ (line :: rest).flatMap Line.text) before.length line.body := by
  cases h with
  | last hbefore hbody => exact ⟨hbody, before, [], by simp [Line.text], rfl, hbefore, nofun⟩
  | cons hbefore hbody hnewlines hne hrest =>
      obtain ⟨n, hn⟩ := Nat.exists_eq_succ_of_ne_zero hnewlines
      refine ⟨hbody, before, List.replicate line.newlines '\n' ++ rest.flatMap Line.text,
        by simp [Line.text], rfl, hbefore, fun c hc => ?_⟩
      rw [hn, List.replicate_succ, List.cons_append, List.head?_cons] at hc
      exact (Option.some.inj hc).symm

/-- **The newlines behind a line** in their text. -/
theorem Stacked.maximalRun {before : Text} {line : Line} {rest : List Line}
    (h : Stacked before (line :: rest)) (hnewlines : line.newlines ≠ 0) :
    MaximalRun (· == '\n') (before ++ (line :: rest).flatMap Line.text)
      (before.length + line.body.length) (List.replicate line.newlines '\n') := by
  cases h with
  | last => exact absurd rfl hnewlines
  | cons hbefore hbody hnewlines hne hrest =>
      refine ⟨by simpa using hnewlines, fun c hc => by simp [(List.mem_replicate.1 hc).2],
        before ++ line.body, rest.flatMap Line.text, by simp [Line.text], by simp, fun c hc => ?_,
        fun c hc => ?_⟩
      · -- an empty line stands where the text begins
        by_cases hnil : line.body = []
        · simp [hnil, hne hnil] at hc
        · rw [List.getLast?_append_of_ne_nil _ hnil] at hc
          refine beq_false_of_ne ?_
          rintro rfl
          exact hbody (List.mem_of_getLast? hc)
      · refine beq_false_of_ne (hrest.head?_ne (fun hnil => hnewlines ?_) c hc)
        have htext : line.body = [] ∧ line.newlines = 0 := by
          simpa [Line.text] using (List.append_eq_nil_iff.1 hnil).2
        exact htext.2

end Text

end Transcript
