/-
**What a program matches.**

A fragment admits a part of an output between two positions.  What it admits is said here without
expressions: a literal admits its text, a run of white space a run that cannot be longer, and a tag
any text, on which its surroundings put a condition.  An output is matched exactly when it falls into
parts that the fragments admit one after the other.

Main definitions:

* `Transcript.Shape.Admits` — **what a fragment admits**;
* `Transcript.Fragment.Through` — the fragments lead from one position to another;
* `Transcript.Fragment.Fits` — the fragments lead from a position to some other one;
* `Transcript.Fragment.ways` — the ways of fragments that follow one another.

Main results:

* `Transcript.Shape.leads_iff` — the ways of a fragment go through what it admits;
* `Transcript.Fragment.leads_iff`, `Transcript.Fragment.isMatch_start_iff` — the same of many fragments,
  and of those that begin where the output does;
* `Transcript.Regex.mem_ways_star_char`, `Transcript.Regex.mem_ways_literal` — the ways of the
  expressions that a fragment is built from.
-/

import Transcript.Proofs.Regex.Reading
import Transcript.Proofs.Regex.Search

set_option relaxedAutoImplicit false
set_option autoImplicit false

namespace Transcript

/-! ### The ways of common expressions -/

namespace Regex

/-- The ways of a sequence are those of its first and its second part together. -/
theorem ways_concat_append (rs ss : List Regex) (c : Cursor) :
    (concat (rs ++ ss)).ways c = Way.chain ((concat rs).ways c) (concat ss).ways := by
  induction rs generalizing c with
  | nil => rw [List.nil_append, concat, ways_empty, Way.here_chain]
  | cons r rs ih =>
      have hrest : (concat (rs ++ ss)).ways =
          fun d => Way.chain ((concat rs).ways d) (concat ss).ways := funext ih
      rw [List.cons_append, concat, concat, ways_seq, ways_seq, hrest, Way.chain_assoc]

theorem ways_concat_cons (r : Regex) (rs : List Regex) (c : Cursor) :
    (concat (r :: rs)).ways c = Way.chain (r.ways c) (concat rs).ways := rfl

theorem ways_concat_singleton (r : Regex) (c : Cursor) : (concat [r]).ways c = r.ways c :=
  Way.chain_here _

theorem mem_ways_assert {p : Assertion} {c : Cursor} {w : Way} :
    w ∈ (assert p).ways c ↔ p.holds c ∧ w = Way.here c := by
  rw [ways_assert]
  by_cases hp : p.holds c
  · simp [hp]
  · simp [hp]

/-- The ways of a greedy option are those of its body and then the one that passes it by. -/
theorem ways_opt_greedy (body : Regex) (c : Cursor) :
    (opt body true).ways c = body.ways c ++ [Way.here c] := rfl

theorem eq_here_of_reads_nil {c : Cursor} {w : Way} (h : c.Reads [] w.stop) (hmarks : w.marks = []) :
    w = Way.here c := by
  rw [Way.eq_here hmarks, h.eq_of_nil]

/-- A way of a repetition stays where it is, or begins with a round. -/
theorem mem_ways_star {body : Regex} (hbody : body.nullable = false) {greedy : Bool} {c : Cursor}
    {w : Way} : w ∈ (star body greedy).ways c ↔
      w = Way.here c ∨ ∃ u ∈ body.ways c, ∃ v ∈ (star body greedy).ways u.stop, u.join v = w := by
  rw [ways_star hbody, ← Way.mem_chain]
  cases greedy <;> simp [or_comm]

/-- A repetition of a character goes through characters of its class. -/
theorem mem_ways_star_char {cls : CharClass} {greedy : Bool} {c : Cursor} {w : Way} :
    w ∈ (star (char cls) greedy).ways c ↔
      ∃ s, c.Reads s w.stop ∧ (∀ ch ∈ s, cls.contains ch) ∧ w.marks = [] := by
  constructor
  · intro h
    -- a round leaves fewer characters ahead
    induction hn : c.after.length using Nat.strongRecOn generalizing c w with
    | ind n ih =>
        rcases (mem_ways_star rfl).1 h with rfl | ⟨u, hu, v, hv, rfl⟩
        · exact ⟨[], .refl c, by simp, rfl⟩
        · obtain ⟨ch, hcls, hreads, hmarks⟩ := mem_ways_char.1 hu
          have hlt := length_lt_of_mem_ways rfl hu
          obtain ⟨s, hs, hall, hmarks'⟩ := ih _ (by omega) hv rfl
          exact ⟨ch :: s, hreads.trans hs, by simpa [hcls] using hall, by
            simp [Way.join, hmarks, hmarks']⟩
  · rintro ⟨s, hs, hall, hmarks⟩
    induction s generalizing c with
    | nil => exact (mem_ways_star rfl).2 (Or.inl (eq_here_of_reads_nil hs hmarks))
    | cons ch s ih =>
        obtain ⟨d, hd, hd'⟩ := Cursor.Reads.split (s := [ch]) hs
        have hrest := ih hd' fun x hx => hall x (List.mem_cons_of_mem _ hx)
        have hfirst : Way.here d ∈ (char cls).ways c :=
          mem_ways_char.2 ⟨ch, hall ch (List.mem_cons_self ..), hd, rfl⟩
        exact (mem_ways_star rfl).2 (Or.inr ⟨_, hfirst, w, hrest, Way.here_join d w⟩)

/-- The same with at least one character. -/
theorem mem_ways_plus_char {cls : CharClass} {greedy : Bool} {c : Cursor} {w : Way} :
    w ∈ (plus (char cls) greedy).ways c ↔
      ∃ s, s ≠ [] ∧ c.Reads s w.stop ∧ (∀ ch ∈ s, cls.contains ch) ∧ w.marks = [] := by
  rw [ways_plus, Way.mem_chain]
  constructor
  · rintro ⟨u, hu, v, hv, rfl⟩
    obtain ⟨ch, hcls, hreads, hmarks⟩ := mem_ways_char.1 hu
    obtain ⟨s, hs, hall, hmarks'⟩ := mem_ways_star_char.1 hv
    exact ⟨ch :: s, by simp, hreads.trans hs, by simpa [hcls] using hall, by
      simp [Way.join, hmarks, hmarks']⟩
  · rintro ⟨s, hne, hs, hall, hmarks⟩
    obtain ⟨ch, s, rfl⟩ := List.exists_cons_of_ne_nil hne
    obtain ⟨d, hd, hd'⟩ := Cursor.Reads.split (s := [ch]) hs
    refine ⟨Way.here d, mem_ways_char.2 ⟨ch, hall ch (List.mem_cons_self ..), hd, rfl⟩, w, ?_,
      Way.here_join d w⟩
    exact mem_ways_star_char.2 ⟨s, hd', fun x hx => hall x (List.mem_cons_of_mem _ hx), hmarks⟩

theorem mem_ways_literal {text : Text} {c : Cursor} {w : Way} :
    w ∈ (literal text).ways c ↔ c.Reads text w.stop ∧ w.marks = [] := by
  induction text generalizing c w with
  | nil =>
      constructor
      · intro h
        rw [literal, List.map_nil, concat, ways_empty, List.mem_singleton] at h
        rw [h]
        exact ⟨.refl c, rfl⟩
      · rintro ⟨hs, hmarks⟩
        rw [eq_here_of_reads_nil hs hmarks]
        exact List.mem_singleton_self _
  | cons ch text ih =>
      have hliteral : (literal (ch :: text)).ways c =
          Way.chain ((single ch).ways c) (literal text).ways := rfl
      rw [hliteral, Way.mem_chain]
      constructor
      · rintro ⟨u, hu, v, hv, rfl⟩
        obtain ⟨x, hcls, hreads, hmarks⟩ := mem_ways_char.1 hu
        obtain ⟨hs, hmarks'⟩ := ih.1 hv
        rw [CharClass.single_contains, decide_eq_true_eq] at hcls
        subst hcls
        exact ⟨hreads.trans hs, by simp [Way.join, hmarks, hmarks']⟩
      · rintro ⟨hs, hmarks⟩
        obtain ⟨d, hd, hd'⟩ := Cursor.Reads.split (s := [ch]) hs
        exact ⟨Way.here d, mem_ways_char.2 ⟨ch, by simp [CharClass.single_contains], hd, rfl⟩, w,
          ih.2 ⟨hd', hmarks⟩, Way.here_join d w⟩

end Regex

/-! ### What a fragment admits -/

namespace Cursor

/-- A blank character stands directly behind the position. -/
def blankBehind (c : Cursor) : Bool := c.previous.any Text.isBlank

/-- A blank character comes next. -/
def blankAhead (c : Cursor) : Bool := c.after.head?.any Text.isBlank

end Cursor

namespace Shape

/-- **What a fragment admits**: the part `s` of an output, which leads from the position `c` to the
position `d`. -/
def Admits (c : Cursor) (s : Text) (d : Cursor) : Shape → Prop
  | start => s = [] ∧ c.offset = 0
  | literal text => s = text
  | space => ∃ b, Text.isBlank b ∧ s = [b]
  | spaces => s ≠ [] ∧ (∀ b ∈ s, Text.isBlank b) ∧ d.blankAhead = false
  | tag _ .bare _ => True
  | tag _ .leftSpace _ => True
  | tag _ .rightSpace _ => d.blankBehind = false
  | tag _ .bothSpace _ =>
      s = [] ∨ ∃ gap value, s = gap ++ value ∧ (∀ b ∈ gap, Text.isBlank b) ∧ value ≠ [] ∧
        value.head?.any Text.isBlank = false ∧ d.blankBehind = false
  | tag _ .lineEnd _ => s = [] ∨ s ≠ [] ∧ d.previous ≠ some '\n'
  | finish .blank => (∀ b ∈ s, Text.isBlank b) ∧ d.after = []
  | finish .newlines => (∀ b ∈ s, b = '\n') ∧ d.after = []

def ways (s : Shape) (c : Cursor) : List Way := (Regex.concat s.items).ways c

/-- A way with the ends of the group of a tag around it. -/
def bind (binding : Option Text) (c : Cursor) (w : Way) : Way :=
  match binding with
  | some name =>
      ⟨(.closing (groupName name), w.stop) :: w.marks ++ [(.opening (groupName name), c)], w.stop⟩
  | none => w

@[simp] theorem bind_stop (binding : Option Text) (c : Cursor) (w : Way) :
    (bind binding c w).stop = w.stop := by
  cases binding <;> rfl

theorem ways_around (binding : Option Text) (body : Regex) (c : Cursor) :
    (around binding body).ways c = (body.ways c).map (bind binding c) := by
  cases binding with
  | none =>
      have h : bind none c = id := rfl
      rw [h, List.map_id]
      exact Way.chain_here _
  | some name =>
      have hbody : (Regex.concat [body]).ways = body.ways := funext (Regex.ways_concat_singleton body)
      have hclosing (ws : List Way) :
          Way.chain ws (Regex.mark (.closing (groupName name))).ways =
            ws.map fun w => ⟨(.closing (groupName name), w.stop) :: w.marks, w.stop⟩ := by
        induction ws with
        | nil => rfl
        | cons w ws ih => rw [Way.chain_cons, ih, List.map_cons]; rfl
      simp only [around, Regex.group, Regex.ways_seq, Regex.ways_mark, hbody, Way.chain_cons,
        Way.chain_nil, List.append_nil, hclosing, List.map_map]
      rfl

/-- A tag that takes any text stops anywhere. -/
theorem mem_ways_anything {binding : Option Text} {greedy : Bool} {c : Cursor} {w : Way} :
    w ∈ (around binding (anything greedy)).ways c ↔
      ∃ s d, c.Reads s d ∧ w = bind binding c (Way.here d) := by
  rw [ways_around, List.mem_map]
  constructor
  · rintro ⟨v, hv, rfl⟩
    obtain ⟨s, hs, -, hmarks⟩ := Regex.mem_ways_star_char.1 hv
    exact ⟨s, v.stop, hs, by rw [← Way.eq_here hmarks]⟩
  · rintro ⟨s, d, hs, rfl⟩
    exact ⟨Way.here d, Regex.mem_ways_star_char.2 ⟨s, hs, fun ch _ => rfl, rfl⟩, rfl⟩

/-- A tag that takes any text but the empty one stops anywhere further right. -/
theorem mem_ways_something {binding : Option Text} {greedy : Bool} {c : Cursor} {w : Way} :
    w ∈ (around binding (something greedy)).ways c ↔
      ∃ s d, s ≠ [] ∧ c.Reads s d ∧ w = bind binding c (Way.here d) := by
  rw [ways_around, List.mem_map]
  constructor
  · rintro ⟨v, hv, rfl⟩
    obtain ⟨s, hne, hs, -, hmarks⟩ := Regex.mem_ways_plus_char.1 hv
    exact ⟨s, v.stop, hne, hs, by rw [← Way.eq_here hmarks]⟩
  · rintro ⟨s, d, hne, hs, rfl⟩
    exact ⟨Way.here d, Regex.mem_ways_plus_char.2 ⟨s, hne, hs, fun ch _ => rfl, rfl⟩, rfl⟩

/-! ### The ways of a fragment -/

/-- The expression may lead from one position to another. -/
def Leads (ways : Cursor → List Way) (c d : Cursor) : Prop := ∃ w ∈ ways c, w.stop = d

theorem leads_cons {r : Regex} {rs : List Regex} {c d : Cursor} :
    Leads (Regex.concat (r :: rs)).ways c d ↔
      ∃ e, Leads r.ways c e ∧ Leads (Regex.concat rs).ways e d := by
  constructor
  · rintro ⟨w, hw, rfl⟩
    obtain ⟨u, hu, v, hv, rfl⟩ := Way.mem_chain.1 hw
    exact ⟨u.stop, ⟨u, hu, rfl⟩, v, hv, rfl⟩
  · rintro ⟨e, ⟨u, hu, rfl⟩, v, hv, rfl⟩
    exact ⟨u.join v, Way.mem_chain.2 ⟨u, hu, v, hv, rfl⟩, rfl⟩

theorem leads_singleton {r : Regex} {c d : Cursor} :
    Leads (Regex.concat [r]).ways c d ↔ Leads r.ways c d := by
  have h : (Regex.concat [r]).ways = r.ways := funext (Regex.ways_concat_singleton r)
  rw [h]

theorem leads_assert {p : Assertion} {c d : Cursor} :
    Leads (Regex.assert p).ways c d ↔ p.holds c ∧ d = c := by
  constructor
  · rintro ⟨w, hw, rfl⟩
    obtain ⟨hp, rfl⟩ := Regex.mem_ways_assert.1 hw
    exact ⟨hp, rfl⟩
  · rintro ⟨hp, rfl⟩
    exact ⟨_, Regex.mem_ways_assert.2 ⟨hp, rfl⟩, rfl⟩

theorem leads_opt {body : Regex} {c d : Cursor} :
    Leads (Regex.opt body true).ways c d ↔ Leads body.ways c d ∨ d = c := by
  constructor
  · rintro ⟨w, hw, rfl⟩
    rw [Regex.ways_opt_greedy, List.mem_append, List.mem_singleton] at hw
    rcases hw with hw | rfl
    · exact Or.inl ⟨w, hw, rfl⟩
    · exact Or.inr rfl
  · rintro (⟨w, hw, rfl⟩ | rfl)
    · exact ⟨w, by rw [Regex.ways_opt_greedy]; exact List.mem_append_left _ hw, rfl⟩
    · exact ⟨_, by rw [Regex.ways_opt_greedy]; exact List.mem_append_right _ (List.mem_singleton_self _),
        rfl⟩

theorem leads_char {cls : CharClass} {c d : Cursor} :
    Leads (Regex.char cls).ways c d ↔ ∃ ch, cls.contains ch ∧ c.Reads [ch] d := by
  constructor
  · rintro ⟨w, hw, rfl⟩
    obtain ⟨ch, hcls, hreads, -⟩ := Regex.mem_ways_char.1 hw
    exact ⟨ch, hcls, hreads⟩
  · rintro ⟨ch, hcls, hreads⟩
    exact ⟨Way.here d, Regex.mem_ways_char.2 ⟨ch, hcls, hreads, rfl⟩, rfl⟩

theorem leads_star_char {cls : CharClass} {greedy : Bool} {c d : Cursor} :
    Leads (Regex.star (.char cls) greedy).ways c d ↔
      ∃ s, c.Reads s d ∧ ∀ ch ∈ s, cls.contains ch := by
  constructor
  · rintro ⟨w, hw, rfl⟩
    obtain ⟨s, hs, hall, -⟩ := Regex.mem_ways_star_char.1 hw
    exact ⟨s, hs, hall⟩
  · rintro ⟨s, hs, hall⟩
    exact ⟨Way.here d, Regex.mem_ways_star_char.2 ⟨s, hs, hall, rfl⟩, rfl⟩

theorem leads_plus_char {cls : CharClass} {greedy : Bool} {c d : Cursor} :
    Leads (Regex.plus (.char cls) greedy).ways c d ↔
      ∃ s, s ≠ [] ∧ c.Reads s d ∧ ∀ ch ∈ s, cls.contains ch := by
  constructor
  · rintro ⟨w, hw, rfl⟩
    obtain ⟨s, hne, hs, hall, -⟩ := Regex.mem_ways_plus_char.1 hw
    exact ⟨s, hne, hs, hall⟩
  · rintro ⟨s, hne, hs, hall⟩
    exact ⟨Way.here d, Regex.mem_ways_plus_char.2 ⟨s, hne, hs, hall, rfl⟩, rfl⟩

theorem leads_anything {binding : Option Text} {greedy : Bool} {c d : Cursor} :
    Leads (around binding (anything greedy)).ways c d ↔ ∃ s, c.Reads s d := by
  constructor
  · rintro ⟨w, hw, rfl⟩
    exact Regex.reads_of_mem_ways hw
  · rintro ⟨s, hs⟩
    exact ⟨_, mem_ways_anything.2 ⟨s, d, hs, rfl⟩, by simp [Way.here]⟩

theorem leads_something {binding : Option Text} {greedy : Bool} {c d : Cursor} :
    Leads (around binding (something greedy)).ways c d ↔ ∃ s, s ≠ [] ∧ c.Reads s d := by
  constructor
  · rintro ⟨w, hw, rfl⟩
    obtain ⟨s, d, hne, hs, rfl⟩ := mem_ways_something.1 hw
    exact ⟨s, hne, by simpa [Way.here] using hs⟩
  · rintro ⟨s, hne, hs⟩
    exact ⟨_, mem_ways_something.2 ⟨s, d, hne, hs, rfl⟩, by simp [Way.here]⟩

/-- A condition on the position where an expression stops. -/
theorem leads_guarded {r : Regex} {p : Assertion} {c d : Cursor} :
    Leads (Regex.concat [r, .assert p]).ways c d ↔ Leads r.ways c d ∧ p.holds d := by
  rw [leads_cons]
  simp only [leads_singleton, leads_assert]
  constructor
  · rintro ⟨e, he, hp, rfl⟩
    exact ⟨he, hp⟩
  · rintro ⟨hd, hp⟩
    exact ⟨d, hd, hp, rfl⟩

theorem holds_notNext_blank {c : Cursor} :
    (Assertion.notNext .blank).holds c = true ↔ c.blankAhead = false := by
  simp [Assertion.holds, Cursor.blankAhead, CharClass.contains]

theorem holds_notPrevious_blank {c : Cursor} :
    (Assertion.notPrevious .blank).holds c = true ↔ c.blankBehind = false := by
  simp [Assertion.holds, Cursor.blankBehind, CharClass.contains]

theorem holds_notPrevious_newline {c : Cursor} :
    (Assertion.notPrevious (.single '\n')).holds c = true ↔ c.previous ≠ some '\n' := by
  cases h : c.previous <;> simp [Assertion.holds, h, CharClass.single_contains]

theorem holds_textEnd {c : Cursor} : Assertion.textEnd.holds c = true ↔ c.after = [] := by
  simp [Assertion.holds]

/-- A tag with white space on both sides takes white space and a text between two characters that
are not blank, or nothing. -/
theorem leads_bothSpace {binding : Option Text} {greedy : Bool} {c d : Cursor} :
    Leads (Regex.concat [.star (.char .blank) true, .assert (.notNext .blank),
      around binding (something greedy), notBehind .blank]).ways c d ↔
      ∃ gap value, c.Reads (gap ++ value) d ∧ (∀ b ∈ gap, Text.isBlank b) ∧ value ≠ [] ∧
        value.head?.any Text.isBlank = false ∧ d.blankBehind = false := by
  have hahead {e : Cursor} {value : Text} (hvalue : e.Reads value d) (hne : value ≠ []) :
      e.blankAhead = value.head?.any Text.isBlank := by
    obtain ⟨x, value, rfl⟩ := List.exists_cons_of_ne_nil hne
    rw [Cursor.blankAhead, hvalue.after]
    rfl
  rw [leads_cons]
  simp only [leads_cons (r := .assert (.notNext .blank)), notBehind, leads_guarded, leads_assert,
    leads_star_char, leads_something, holds_notNext_blank, holds_notPrevious_blank]
  constructor
  · rintro ⟨e, ⟨gap, hgap, hblank⟩, e', ⟨hnext, rfl⟩, ⟨value, hne, hvalue⟩, hprevious⟩
    exact ⟨gap, value, hgap.trans hvalue, hblank, hne, by rw [← hahead hvalue hne]; exact hnext,
      hprevious⟩
  · rintro ⟨gap, value, hreads, hblank, hne, hhead, hprevious⟩
    obtain ⟨e, hgap, hvalue⟩ := hreads.split
    exact ⟨e, ⟨gap, hgap, hblank⟩, e, ⟨by rw [hahead hvalue hne]; exact hhead, rfl⟩,
      ⟨value, hne, hvalue⟩, hprevious⟩

/-- **The ways of a fragment go through what it admits.** -/
theorem leads_iff {shape : Shape} {c d : Cursor} :
    Leads shape.ways c d ↔ ∃ s, c.Reads s d ∧ shape.Admits c s d := by
  have hrefl {c d : Cursor} : d = c ↔ c.Reads [] d := by
    constructor
    · rintro rfl
      exact .refl d
    · exact fun h => h.eq_of_nil
  change Leads (Regex.concat shape.items).ways c d ↔ _
  cases shape with
  | start =>
      simp only [items, leads_singleton, leads_assert, Assertion.holds, decide_eq_true_eq, Admits]
      constructor
      · rintro ⟨hoffset, hd⟩
        exact ⟨[], hrefl.1 hd, rfl, hoffset⟩
      · rintro ⟨s, hs, rfl, hoffset⟩
        exact ⟨hoffset, hrefl.2 hs⟩
  | literal text =>
      constructor
      · rintro ⟨w, hw, rfl⟩
        exact ⟨text, (Regex.mem_ways_literal.1 hw).1, rfl⟩
      · rintro ⟨s, hs, rfl⟩
        exact ⟨Way.here d, Regex.mem_ways_literal.2 ⟨hs, rfl⟩, rfl⟩
  | space =>
      simp only [items, leads_singleton, leads_char, Admits]
      constructor
      · rintro ⟨b, hb, hs⟩
        exact ⟨[b], hs, b, hb, rfl⟩
      · rintro ⟨s, hs, b, hb, rfl⟩
        exact ⟨b, hb, hs⟩
  | spaces =>
      simp only [items, leads_guarded, leads_plus_char, holds_notNext_blank, Admits]
      constructor
      · rintro ⟨⟨s, hne, hs, hblank⟩, hnext⟩
        exact ⟨s, hs, hne, hblank, hnext⟩
      · rintro ⟨s, hs, hne, hblank, hnext⟩
        exact ⟨⟨s, hne, hs, hblank⟩, hnext⟩
  | tag binding context greedy =>
      cases context with
      | bare => simp only [items, leads_singleton, leads_anything, Admits, and_true]
      | leftSpace => simp only [items, leads_singleton, leads_anything, Admits, and_true]
      | rightSpace =>
          simp only [items, notBehind, leads_guarded, leads_anything, holds_notPrevious_blank, Admits,
            exists_and_right]
      | bothSpace =>
          simp only [items, leads_singleton, leads_opt, leads_bothSpace, Admits]
          constructor
          · rintro (⟨gap, value, hs, h⟩ | hd)
            · exact ⟨gap ++ value, hs, Or.inr ⟨gap, value, rfl, h⟩⟩
            · exact ⟨[], hrefl.1 hd, Or.inl rfl⟩
          · rintro ⟨s, hs, rfl | ⟨gap, value, rfl, h⟩⟩
            · exact Or.inr (hrefl.2 hs)
            · exact Or.inl ⟨gap, value, hs, h⟩
      | lineEnd =>
          simp only [items, leads_singleton, leads_opt, notBehind, leads_guarded, leads_something,
            holds_notPrevious_newline, Admits]
          constructor
          · rintro (⟨⟨s, hne, hs⟩, hprevious⟩ | hd)
            · exact ⟨s, hs, Or.inr ⟨hne, hprevious⟩⟩
            · exact ⟨[], hrefl.1 hd, Or.inl rfl⟩
          · rintro ⟨s, hs, rfl | ⟨hne, hprevious⟩⟩
            · exact Or.inr (hrefl.2 hs)
            · exact Or.inl ⟨⟨s, hne, hs⟩, hprevious⟩
  | finish anchor =>
      have hclass (b : Char) : (CharClass.single '\n').contains b = true ↔ b = '\n' := by
        rw [CharClass.single_contains, decide_eq_true_eq]
      cases anchor with
      | blank =>
          simp only [items, leads_guarded, leads_star_char, holds_textEnd, Admits]
          constructor
          · rintro ⟨⟨s, hs, hall⟩, hend⟩
            exact ⟨s, hs, hall, hend⟩
          · rintro ⟨s, hs, hall, hend⟩
            exact ⟨⟨s, hs, hall⟩, hend⟩
      | newlines =>
          simp only [items, leads_guarded, leads_star_char, holds_textEnd, hclass, Admits]
          constructor
          · rintro ⟨⟨s, hs, hall⟩, hend⟩
            exact ⟨s, hs, hall, hend⟩
          · rintro ⟨s, hs, hall, hend⟩
            exact ⟨⟨s, hs, hall⟩, hend⟩

end Shape

/-! ### Fragments one after the other -/

namespace Regex

theorem steady_concat {rs : List Regex} (h : ∀ r ∈ rs, r.steady) : (concat rs).steady := by
  induction rs with
  | nil => rfl
  | cons r rs ih =>
      have hrest := ih fun r' hr' => h r' (List.mem_cons_of_mem _ hr')
      simp [concat, steady, h r (List.mem_cons_self ..), hrest]

end Regex

namespace Fragment

def ways : List Fragment → Cursor → List Way
  | [], c => [Way.here c]
  | f :: fragments, c => Way.chain (f.shape.ways c) (ways fragments)

theorem ways_regex (fragments : List Fragment) (c : Cursor) :
    (regex fragments).ways c = ways fragments c := by
  induction fragments generalizing c with
  | nil => rfl
  | cons f fragments ih =>
      have hrest : (regex fragments).ways = ways fragments := funext ih
      rw [regex, List.flatMap_cons, Regex.ways_concat_append, ways, ← hrest]
      rfl

/-- The fragments lead from one position to another, each through a part that it admits. -/
inductive Through : List Fragment → Cursor → Cursor → Prop
  | nil (c : Cursor) : Through [] c c
  | cons {f : Fragment} {fragments : List Fragment} {c d e : Cursor} {s : Text} (hreads : c.Reads s d)
      (hadmits : f.shape.Admits c s d) (hrest : Through fragments d e) :
      Through (f :: fragments) c e

/-- **The ways of fragments go through what they admit.** -/
theorem leads_iff {fragments : List Fragment} {c e : Cursor} :
    Shape.Leads (ways fragments) c e ↔ Through fragments c e := by
  induction fragments generalizing c with
  | nil =>
      constructor
      · rintro ⟨w, hw, rfl⟩
        rw [List.mem_singleton.1 hw]
        exact .nil c
      · rintro ⟨⟩
        exact ⟨_, List.mem_singleton_self _, rfl⟩
  | cons f fragments ih =>
      constructor
      · rintro ⟨w, hw, rfl⟩
        obtain ⟨u, hu, v, hv, rfl⟩ := Way.mem_chain.1 hw
        obtain ⟨s, hs, hadmits⟩ := Shape.leads_iff.1 ⟨u, hu, rfl⟩
        exact .cons hs hadmits (ih.1 ⟨v, hv, rfl⟩)
      · intro h
        cases h with
        | cons hreads hadmits hrest =>
            obtain ⟨u, hu, rfl⟩ := Shape.leads_iff.2 ⟨_, hreads, hadmits⟩
            obtain ⟨v, hv, rfl⟩ := ih.2 hrest
            exact ⟨u.join v, Way.mem_chain.2 ⟨u, hu, v, hv, rfl⟩, rfl⟩

/-! ### Fitting -/

/-- The fragments lead from the position to some other one. -/
def Fits (fragments : List Fragment) (c : Cursor) : Prop := ∃ e, Through fragments c e

theorem fits_cons {f : Fragment} {fragments : List Fragment} {c : Cursor} :
    Fits (f :: fragments) c ↔
      ∃ s d, c.Reads s d ∧ f.shape.Admits c s d ∧ Fits fragments d := by
  constructor
  · rintro ⟨e, h⟩
    cases h with
    | cons hreads hadmits hrest => exact ⟨_, _, hreads, hadmits, e, hrest⟩
  · rintro ⟨s, d, hreads, hadmits, e, hrest⟩
    exact ⟨e, .cons hreads hadmits hrest⟩

/-- There is a way exactly from where the fragments fit. -/
theorem ways_ne_nil_iff {fragments : List Fragment} {c : Cursor} :
    ways fragments c ≠ [] ↔ Fits fragments c := by
  constructor
  · intro h
    obtain ⟨w, hw⟩ := List.exists_mem_of_ne_nil _ h
    exact ⟨w.stop, leads_iff.1 ⟨w, hw, rfl⟩⟩
  · rintro ⟨e, he⟩
    obtain ⟨w, hw, -⟩ := leads_iff.2 he
    exact List.ne_nil_of_mem hw

theorem ways_eq_nil_iff {fragments : List Fragment} {c : Cursor} :
    ways fragments c = [] ↔ ¬Fits fragments c := by
  rw [← ways_ne_nil_iff, Decidable.not_not]

/-! ### Searching -/

theorem steady_items (shape : Shape) : ∀ r ∈ shape.items, r.steady := by
  have haround (binding : Option Text) (body : Regex) (h : body.steady) :
      (Shape.around binding body).steady := by
    cases binding <;> simp [Shape.around, Regex.group, Regex.concat, Regex.steady, h]
  intro r hr
  cases shape with
  | literal text =>
      obtain ⟨c, -, rfl⟩ := List.mem_map.1 hr
      rfl
  | tag binding context greedy =>
      have hany : (Shape.around binding (Shape.anything greedy)).steady := haround _ _ rfl
      have hsome : (Shape.around binding (Shape.something greedy)).steady := haround _ _ rfl
      cases context with
      | bare =>
          rw [List.mem_singleton.1 hr]
          exact hany
      | leftSpace =>
          rw [List.mem_singleton.1 hr]
          exact hany
      | rightSpace =>
          rcases List.mem_cons.1 hr with rfl | hr
          · exact hany
          · rw [List.mem_singleton.1 hr]
            rfl
      | bothSpace =>
          rw [List.mem_singleton.1 hr]
          simp [Regex.opt, Regex.concat, Regex.steady, Shape.notBehind, hsome, Regex.nullable]
      | lineEnd =>
          rw [List.mem_singleton.1 hr]
          simp [Regex.opt, Regex.concat, Regex.steady, Shape.notBehind, hsome]
  | start => simp_all [Shape.items, Regex.steady]
  | space => simp_all [Shape.items, Regex.steady]
  | spaces => rcases List.mem_cons.1 hr with rfl | hr <;> simp_all [Regex.steady, Regex.nullable]
  | finish anchor =>
      cases anchor <;> rcases List.mem_cons.1 hr with rfl | hr <;>
        simp_all [Regex.steady, Regex.nullable]

theorem steady_regex (fragments : List Fragment) : (regex fragments).steady := by
  refine Regex.steady_concat fun r hr => ?_
  obtain ⟨f, -, hr⟩ := List.mem_flatMap.1 hr
  exact steady_items f.shape r hr

/-- The first way of fragments that begin where the output does is the match that is found. -/
theorem search_start (offset : Nat) (fragments : List Fragment) (output : Text) :
    (regex (⟨offset, .start⟩ :: fragments)).search output =
      (ways fragments (Cursor.start output)).head?.map (Trail.finish ⟨Cursor.start output, []⟩) := by
  have hregex : regex (⟨offset, .start⟩ :: fragments) =
      .seq (.assert .textStart) (regex fragments) := rfl
  rw [hregex, Regex.search_textStart (steady_regex fragments), ways_regex]

/-- **Fragments that begin where the output does match it when they fit at its beginning.** -/
theorem isMatch_start_iff (offset : Nat) (fragments : List Fragment) (output : Text) :
    (regex (⟨offset, .start⟩ :: fragments)).isMatch output = true ↔
      Fits fragments (Cursor.start output) := by
  rw [Regex.isMatch, search_start, Option.isSome_map, List.isSome_head?, ← ways_ne_nil_iff]

end Fragment

end Transcript
