/-
**One more newline.**

A newline at the end of a text moves the end and leaves every position before it where it was.  A part
of the longer text is a part of the shorter one, or it goes through to the new end.  So what a tag
may do in the longer text is what it may do in the shorter one and, if nothing on its right stands
against it, to stop at the new end.

Main definitions:

* `Transcript.Cursor.extend`, `Transcript.Cursor.last` — a position in the longer text, and its end;
* `Transcript.Way.extend` — a way in the longer text;
* `Transcript.Regex.Placed` — the ends of groups are positions of the text;
* `Transcript.Way.AgreesOn` — two ways pass the ends of a group at the same positions.

Main results:

* `Transcript.Cursor.Reads.of_extend` — a part of the longer text;
* `Transcript.Shape.ways_bare_extend`, `Transcript.Shape.ways_guarded_extend` — the ways of a tag in
  the longer text;
* `Transcript.Match.group?_of_agreesOn` — what a group captures in the longer text.
-/

import Transcript.Proofs.Regex.Preference

set_option relaxedAutoImplicit false
set_option autoImplicit false

namespace Transcript

/-! ### Positions -/

namespace Cursor

/-- The same position in the text with one more newline at its end. -/
def extend (c : Cursor) : Cursor := ⟨c.offset, c.previous, c.after ++ ['\n']⟩

/-- The end of the text with one more newline. -/
def last (c : Cursor) : Cursor := c.extend.past (c.after ++ ['\n']) []

@[simp] theorem extend_after (c : Cursor) : c.extend.after = c.after ++ ['\n'] := rfl

@[simp] theorem extend_offset (c : Cursor) : c.extend.offset = c.offset := rfl

@[simp] theorem last_after (c : Cursor) : c.last.after = [] := rfl

@[simp] theorem last_previous (c : Cursor) : c.last.previous = some '\n' := by
  simp [last, past]

theorem extend_start (text : Text) : (start text).extend = start (text ++ ['\n']) := rfl

theorem reads_last (c : Cursor) : c.extend.Reads (c.after ++ ['\n']) c.last :=
  reads_past (List.append_nil _).symm

theorem extend_blankAhead {c : Cursor} (h : c.after ≠ []) :
    c.extend.blankAhead = c.blankAhead := by
  obtain ⟨ch, rest, hafter⟩ := List.exists_cons_of_ne_nil h
  rw [blankAhead, blankAhead, extend_after, hafter]
  rfl

/-- Going through a part of a text does not depend on what is added at its end. -/
theorem Reads.extend {c d : Cursor} {s : Text} (h : c.Reads s d) : c.extend.Reads s d.extend where
  after := by rw [extend_after, h.after, List.append_assoc, extend_after]
  offset := h.offset
  previous := h.previous

/-- The new end is the same from everywhere. -/
theorem Reads.last_eq {c d : Cursor} {s : Text} (h : c.Reads s d) : d.last = c.last := by
  have hreads := h.extend.trans d.reads_last
  rw [← List.append_assoc, ← h.after] at hreads
  exact hreads.unique c.reads_last

/-- **A part of the longer text** is a part of the shorter one, or goes through to the new end. -/
theorem Reads.of_extend {c d : Cursor} {s : Text} (h : c.extend.Reads s d) :
    (∃ e, d = e.extend ∧ c.Reads s e) ∨ s = c.after ++ ['\n'] ∧ d = c.last := by
  by_cases hle : s.length ≤ c.after.length
  · have hprefix : s <+: c.after :=
      List.prefix_of_prefix_length_le ⟨d.after, h.after.symm⟩ (List.prefix_append _ _) hle
    obtain ⟨rest, hrest⟩ := hprefix
    have hreads := reads_past hrest.symm
    exact Or.inl ⟨_, h.unique hreads.extend, hreads⟩
  · have hlt : (c.after ++ ['\n']).length ≤ s.length := by
      rw [List.length_append, List.length_singleton]
      omega
    obtain ⟨rest, hrest, hd⟩ := c.reads_last.compare h hlt
    have hnil : rest = [] := by
      have := hd.length
      rw [last_after, List.length_nil] at this
      exact List.length_eq_zero_iff.1 (by omega)
    subst hnil
    exact Or.inr ⟨by rw [hrest, List.append_nil], hd.eq_of_nil⟩

/-- A part that is not longer than what there was is a part of the shorter text. -/
theorem Reads.of_extend_of_le {c d e : Cursor} {s t : Text} (h : c.extend.Reads s d)
    (ht : c.Reads t e) (hle : s.length ≤ t.length) :
    ∃ d' u, d = d'.extend ∧ c.Reads s d' ∧ d'.Reads u e := by
  rcases h.of_extend with ⟨d', rfl, hd'⟩ | ⟨rfl, -⟩
  · obtain ⟨u, -, hu⟩ := hd'.compare ht hle
    exact ⟨d', u, rfl, hd', hu⟩
  · have := ht.length
    rw [List.length_append, List.length_singleton] at hle
    omega

/-- The positions of the longer text are those there were and the new end. -/
theorem places_extend (c : Cursor) : c.extend.places = c.places.map extend ++ [c.last] := by
  induction c using induction_ahead with
  | nil c h =>
      have hnewline : c.extend.Reads ['\n'] c.last := by
        have := c.reads_last
        rwa [h, List.nil_append] at this
      rw [places_of_reads hnewline, places_of_nil (last_after c), places_of_nil h]
      rfl
  | cons c ch d h ih =>
      rw [places_of_reads h.extend, ih, places_of_reads h, h.last_eq]
      rfl

/-- The positions behind the first one, when there is a character ahead. -/
theorem tail_places_extend {c : Cursor} :
    c.extend.places.tail = c.places.tail.map extend ++ [c.last] := by
  rcases c.exists_reads with h | ⟨ch, d, h⟩
  · rw [places_extend, places_of_nil h]
    rfl
  · rw [places_extend, places_of_reads h]
    rfl

theorem skip_extend {c : Cursor} (h : c.skip.after ≠ []) : c.extend.skip = c.skip.extend := by
  have hreads := c.reads_skip.extend
  have hskip := c.extend.reads_skip
  have htake : c.extend.after.takeWhile Text.isBlank = c.after.takeWhile Text.isBlank := by
    have hblank : c.skip.extend.after.takeWhile Text.isBlank = [] := by
      have hnext := c.blankAhead_skip
      obtain ⟨ch, rest, hafter⟩ := List.exists_cons_of_ne_nil h
      rw [blankAhead, hafter] at hnext
      rw [extend_after, hafter, List.cons_append, List.takeWhile_cons_of_neg (by simpa using hnext)]
    rw [hreads.after, List.takeWhile_append_of_pos, hblank, List.append_nil]
    exact List.all_eq_true.1 List.all_takeWhile
  rw [htake] at hskip
  exact hskip.unique hreads

theorem skip_extend_of_nil {c : Cursor} (h : c.skip.after = []) : c.extend.skip = c.last := by
  have hblank : ∀ ch ∈ c.after, Text.isBlank ch = true := by
    have hafter := c.reads_skip.after
    rw [h, List.append_nil] at hafter
    rw [hafter]
    exact List.all_eq_true.1 List.all_takeWhile
  have hskip := c.extend.reads_skip
  have htake : c.extend.after.takeWhile Text.isBlank = c.after ++ ['\n'] := by
    rw [extend_after, List.takeWhile_append_of_pos hblank]
    rfl
  rw [htake] at hskip
  exact hskip.unique c.reads_last

end Cursor

/-! ### Ways -/

namespace Way

/-- The same way in the text with one more newline at its end. -/
def extend (w : Way) : Way := ⟨w.marks.map fun m => (m.1, m.2.extend), w.stop.extend⟩

end Way

namespace Shape

open Regex

@[simp] theorem extend_taken (binding : Option Text) (c d : Cursor) :
    (taken binding c d).extend = taken binding c.extend d.extend := by
  cases binding <;> rfl

theorem map_extend_taken (binding : Option Text) (c : Cursor) (ds : List Cursor) :
    (ds.map (taken binding c)).map Way.extend =
      (ds.map Cursor.extend).map (taken binding c.extend) := by
  rw [List.map_map, List.map_map]
  exact List.map_congr_left fun d _ => extend_taken binding c d

/-- A tag that may stop anywhere may also stop at the new end. -/
theorem ways_bare_extend (binding : Option Text) {context : TagContext}
    (hcontext : context = .bare ∨ context = .leftSpace) (greedy : Bool) (c : Cursor) :
    (tag binding context greedy).ways c.extend =
      if greedy then
        taken binding c.extend c.last :: ((tag binding context greedy).ways c).map Way.extend
      else
        ((tag binding context greedy).ways c).map Way.extend ++
          [taken binding c.extend c.last] := by
  rw [ways_bare binding hcontext, ways_bare binding hcontext, map_extend_taken, c.places_extend]
  cases greedy <;> simp [inOrder]

/-- Where a condition rules the new end out, the places to stop at are those there were. -/
theorem filter_inOrder_extend {p : Assertion} (hp : ∀ d : Cursor, p.holds d.extend = p.holds d)
    (greedy : Bool) {c : Cursor} (hlast : p.holds c.last = false) (ds : List Cursor) :
    ((inOrder greedy (ds.map Cursor.extend ++ [c.last])).filter fun d => p.holds d) =
      ((inOrder greedy ds).filter fun d => p.holds d).map Cursor.extend := by
  have hfilter (ds : List Cursor) : ((ds.map Cursor.extend).filter fun d => p.holds d) =
      (ds.filter fun d => p.holds d).map Cursor.extend := by
    rw [List.filter_map]
    congr 2
    exact funext hp
  cases greedy with
  | false => simp [inOrder, hlast, hfilter]
  | true => simp [inOrder, hlast, hfilter, ← List.map_reverse]

theorem holds_notPrevious_last (cls : CharClass) (hcls : cls.contains '\n' = true) (c : Cursor) :
    (Assertion.notPrevious cls).holds c.last = false := by
  rw [Assertion.holds, Cursor.last_previous, Option.any_some, hcls]
  rfl

/-- A tag that does not stop behind a newline may do in the longer text what it may do in the shorter
one. -/
theorem ways_guarded_extend (binding : Option Text) {context : TagContext}
    (hcontext : context = .rightSpace ∨ context = .bothSpace ∨ context = .lineEnd) (greedy : Bool)
    (c : Cursor) :
    (tag binding context greedy).ways c.extend =
      ((tag binding context greedy).ways c).map Way.extend := by
  have hguard (cls : CharClass) (d : Cursor) :
      (Assertion.notPrevious cls).holds d.extend = (Assertion.notPrevious cls).holds d := rfl
  have hblank (d : Cursor) := holds_notPrevious_last .blank (by decide) d
  have hnewline (d : Cursor) := holds_notPrevious_last (.single '\n') (by decide) d
  rcases hcontext with rfl | rfl | rfl
  · rw [ways_rightSpace, ways_rightSpace, c.places_extend, map_extend_taken,
      filter_inOrder_extend (hguard _) greedy (hblank c)]
  · rw [ways_bothSpace, ways_bothSpace, List.map_append, map_extend_taken]
    by_cases hskip : c.skip.after = []
    · -- behind the white space nothing is left, so the tag does not take part
      rw [Cursor.skip_extend_of_nil hskip, Cursor.places_of_nil hskip,
        Cursor.places_of_nil (Cursor.last_after c)]
      cases greedy <;> rfl
    · rw [Cursor.skip_extend hskip, Cursor.tail_places_extend,
        filter_inOrder_extend (hguard _) greedy (hblank c.skip)]
      rfl
  · rw [ways_lineEnd, ways_lineEnd, List.map_append, map_extend_taken, Cursor.tail_places_extend,
      filter_inOrder_extend (hguard _) greedy (hnewline c)]
    rfl

end Shape

/-! ### Marks -/

namespace Regex

/-- The ends of groups that are passed are positions of the text. -/
def Placed (step : Cursor → List Way) : Prop :=
  ∀ c, ∀ w ∈ step c, ∀ m ∈ w.marks, ∃ s, c.Reads s m.2

theorem Placed.join {step step' : Cursor → List Way} (h : Placed step) (h' : Placed step')
    (hstep : Advancing step false) {c : Cursor} {u v : Way} (hu : u ∈ step c)
    (hv : v ∈ step' u.stop) : ∀ m ∈ (u.join v).marks, ∃ s, c.Reads s m.2 := by
  intro m hm
  rcases List.mem_append.1 hm with hm | hm
  · obtain ⟨s, hs, -⟩ := hstep c u hu
    obtain ⟨t, ht⟩ := h' u.stop v hv m hm
    exact ⟨s ++ t, hs.trans ht⟩
  · exact h c u hu m hm

theorem advancing_of_ways (r : Regex) : Advancing r.ways false := fun c w hw =>
  let ⟨s, hs⟩ := reads_of_mem_ways hw
  ⟨s, hs, by simp⟩

theorem placed_rounds {step : Cursor → List Way} (greedy : Bool) (h : Placed step)
    (hstep : Advancing step false) (fuel : Nat) : Placed (rounds step greedy fuel) := by
  induction fuel with
  | zero =>
      intro c w hw
      rw [rounds, List.mem_singleton] at hw
      simp [hw, Way.here]
  | succ fuel ih =>
      intro c w hw
      have hcases : w = Way.here c ∨ w ∈ Way.chain (step c) (rounds step greedy fuel) := by
        cases greedy with
        | false => simpa [rounds] using hw
        | true => exact Or.symm (by simpa [rounds] using hw)
      rcases hcases with rfl | hw
      · simp [Way.here]
      · obtain ⟨u, hu, v, hv, rfl⟩ := Way.mem_chain.1 hw
        exact h.join ih hstep hu hv

theorem placed_ways (r : Regex) : Placed r.ways := by
  induction r with
  | empty =>
      intro c w hw
      rw [List.mem_singleton.1 hw]
      simp [Way.here]
  | char cls =>
      intro c w hw
      obtain ⟨ch, -, -, hmarks⟩ := mem_ways_char.1 hw
      simp [hmarks]
  | seq a b iha ihb =>
      intro c w hw
      obtain ⟨u, hu, v, hv, rfl⟩ := Way.mem_chain.1 hw
      exact iha.join ihb (advancing_of_ways a) hu hv
  | alt a b iha ihb =>
      intro c w hw
      rcases List.mem_append.1 hw with hw | hw
      · exact iha c w hw
      · exact ihb c w hw
  | star body greedy ih => exact fun c => placed_rounds greedy ih (advancing_of_ways body) _ c
  | plus body greedy ih =>
      intro c w hw
      obtain ⟨u, hu, v, hv, rfl⟩ := Way.mem_chain.1 hw
      have hrounds := placed_rounds greedy ih (advancing_of_ways body) u.stop.after.length
      exact ih.join hrounds (advancing_of_ways body) hu hv
  | mark m =>
      intro c w hw
      rw [ways_mark, List.mem_singleton] at hw
      simp only [hw, List.mem_singleton]
      rintro m rfl
      exact ⟨[], .refl c⟩
  | assert p =>
      intro c w hw
      rw [(mem_ways_assert.1 hw).2]
      simp [Way.here]

end Regex

/-- The text of a span does not depend on what is added at the end of the text. -/
theorem Span.text_extend {c d : Cursor} (h : d.offset ≤ c.offset + c.after.length) :
    Span.text ⟨c.extend, d.extend⟩ = Span.text ⟨c, d⟩ := by
  have hle : d.offset - c.offset ≤ c.after.length := by omega
  simp only [Span.text, Cursor.extend_after, Cursor.extend_offset]
  exact List.take_append_of_le_length hle

/-! ### Groups -/

/-- The group of which a mark is an end. -/
def Mark.group : Mark → Text
  | opening group => group
  | closing group => group

namespace Way

/-- Two ways, the second one in the longer text, pass the ends of a group at the same positions. -/
structure AgreesOn (group : Text) (w w' : Way) : Prop where
  opening : w'.marks.lookup (.opening group) = (w.marks.lookup (.opening group)).map Cursor.extend
  closing : w'.marks.lookup (.closing group) = (w.marks.lookup (.closing group)).map Cursor.extend

theorem lookup_extend (w : Way) (mark : Mark) :
    w.extend.marks.lookup mark = (w.marks.lookup mark).map Cursor.extend := by
  obtain ⟨marks, stop⟩ := w
  simp only [extend]
  induction marks with
  | nil => rfl
  | cons m marks ih =>
      obtain ⟨other, d⟩ := m
      rw [List.map_cons, List.lookup_cons, List.lookup_cons, ih]
      cases mark == other <;> rfl

theorem agreesOn_extend (group : Text) (w : Way) : AgreesOn group w w.extend :=
  ⟨w.lookup_extend _, w.lookup_extend _⟩

theorem AgreesOn.join {group : Text} {u u' v v' : Way} (hu : AgreesOn group u u')
    (hv : AgreesOn group v v') : AgreesOn group (u.join v) (u'.join v') where
  opening := by
    simp only [Way.join, List.lookup_append, hu.opening, hv.opening]
    cases v.marks.lookup (.opening group) <;> rfl
  closing := by
    simp only [Way.join, List.lookup_append, hu.closing, hv.closing]
    cases v.marks.lookup (.closing group) <;> rfl

theorem lookup_eq_none_of_group {w : Way} (mark : Mark)
    (h : ∀ m ∈ w.marks, m.1.group ≠ mark.group) : w.marks.lookup mark = none := by
  refine List.lookup_eq_none_iff.2 fun m hm => bne_iff_ne.2 fun heq => h m hm ?_
  rw [heq]

theorem agreesOn_of_group {group : Text} {w w' : Way} (h : ∀ m ∈ w.marks, m.1.group ≠ group)
    (h' : ∀ m ∈ w'.marks, m.1.group ≠ group) : AgreesOn group w w' where
  opening := by
    rw [lookup_eq_none_of_group (.opening group) h, lookup_eq_none_of_group (.opening group) h']
    rfl
  closing := by
    rw [lookup_eq_none_of_group (.closing group) h, lookup_eq_none_of_group (.closing group) h']
    rfl

theorem mem_of_lookup {w : Way} {mark : Mark} {c : Cursor} (h : w.marks.lookup mark = some c) :
    (mark, c) ∈ w.marks := by
  obtain ⟨front, back, hmarks, -⟩ := List.lookup_eq_some_iff.1 h
  rw [hmarks]
  simp

end Way

/-- A group on which two ways agree has the same text. -/
theorem Match.group?_of_agreesOn {c : Cursor} {group : Text} {w w' : Way}
    (h : Way.AgreesOn group w w') (hplaced : ∀ m ∈ w.marks, ∃ s, c.Reads s m.2) :
    ((Trail.finish ⟨c.extend, []⟩ w').group? group).map Span.text =
      ((Trail.finish ⟨c, []⟩ w).group? group).map Span.text := by
  simp only [group?, Trail.finish, List.append_nil, h.opening, h.closing]
  cases hopening : w.marks.lookup (.opening group) with
  | none => rfl
  | some start =>
      cases hclosing : w.marks.lookup (.closing group) with
      | none => rfl
      | some stop =>
          obtain ⟨s, hs⟩ : ∃ s, c.Reads s start := hplaced _ (Way.mem_of_lookup hopening)
          obtain ⟨t, ht⟩ : ∃ t, c.Reads t stop := hplaced _ (Way.mem_of_lookup hclosing)
          have hlength := hs.length
          have hlength' := ht.length
          have hoffset := hs.offset
          have hoffset' := ht.offset
          exact congrArg some (Span.text_extend (by omega))

end Transcript
