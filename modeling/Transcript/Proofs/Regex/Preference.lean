/-
**The preferred ways of a tag.**

A tag stops at one of the positions ahead of it, the near ones first if it takes as little as it can
and the far ones first if it takes as much as it can.  What surrounds the tag rules some of the
positions out.  This module lists the ways of a tag in the order of preference.

Main definitions:

* `Transcript.Cursor.places` — the positions from a position to the end of the text;
* `Transcript.Cursor.skip` — the position behind the white space ahead;
* `Transcript.Regex.inOrder` — positions in the order in which a tag prefers them;
* `Transcript.Shape.taken` — the way of a tag that stops at a position;
* `Transcript.Shape.Prefers` — a tag prefers one value to another.

Main results:

* `Transcript.Way.head?_chain_eq_some` — the first way of a chain;
* `Transcript.Regex.ways_skip` — a run of white space that cannot be longer;
* `Transcript.Shape.ways_bare`, `Transcript.Shape.ways_rightSpace`, `Transcript.Shape.ways_bothSpace`,
  `Transcript.Shape.ways_lineEnd` — the ways of a tag in their order;
* `Transcript.Shape.exists_of_mem_ways_tag` — what a tag goes through;
* `Transcript.Shape.exists_of_head?_bare` — **what a tag takes** is preferred to all else with which
  it is possible to go on.
-/

import Transcript.Proofs.Regex.Language

set_option relaxedAutoImplicit false
set_option autoImplicit false

namespace Transcript

/-! ### Positions -/

theorem Text.head?_dropWhile_isBlank (text : Text) :
    (text.dropWhile isBlank).head?.any isBlank = false := by
  have hhead := List.head?_dropWhile_not isBlank text
  cases h : (text.dropWhile isBlank).head? with
  | none => rfl
  | some ch =>
      rw [h] at hhead
      exact hhead

namespace Cursor

/-- The positions of a text that begins at `offset` behind the character `previous`. -/
def placesFrom : (offset : Nat) → (previous : Option Char) → (after : Text) → List Cursor
  | offset, previous, [] => [⟨offset, previous, []⟩]
  | offset, previous, ch :: after =>
      ⟨offset, previous, ch :: after⟩ :: placesFrom (offset + 1) (some ch) after

def places (c : Cursor) : List Cursor := placesFrom c.offset c.previous c.after

theorem places_of_nil {c : Cursor} (h : c.after = []) : c.places = [c] := by
  cases c
  simp_all [places, placesFrom]

theorem places_of_reads {c d : Cursor} {ch : Char} (h : c.Reads [ch] d) :
    c.places = c :: d.places := by
  obtain ⟨hafter, hoffset, hprevious⟩ := h
  cases c
  cases d
  simp_all [places, placesFrom]

theorem exists_reads (c : Cursor) : c.after = [] ∨ ∃ ch d, c.Reads [ch] d := by
  cases h : c.after with
  | nil => exact Or.inl rfl
  | cons ch rest => exact Or.inr ⟨ch, _, reads_past (s := [ch]) h⟩

theorem induction_ahead {motive : Cursor → Prop} (nil : ∀ c, c.after = [] → motive c)
    (cons : ∀ c ch d, c.Reads [ch] d → motive d → motive c) (c : Cursor) : motive c := by
  induction hn : c.after.length generalizing c with
  | zero => exact nil c (List.length_eq_zero_iff.1 hn)
  | succ n ih =>
      rcases c.exists_reads with hafter | ⟨ch, d, hd⟩
      · exact nil c hafter
      · have hlength := hd.length
        rw [List.length_singleton] at hlength
        exact cons c ch d hd (ih d (by omega))

/-- The positions are those that a part of the text leads to. -/
theorem mem_places {c d : Cursor} : d ∈ c.places ↔ ∃ s, c.Reads s d := by
  constructor
  · induction c using induction_ahead with
    | nil c h =>
        rw [places_of_nil h, List.mem_singleton]
        rintro rfl
        exact ⟨[], .refl d⟩
    | cons c ch e h ih =>
        rw [places_of_reads h, List.mem_cons]
        rintro (rfl | hd)
        · exact ⟨[], .refl d⟩
        · obtain ⟨s, hs⟩ := ih hd
          exact ⟨[ch] ++ s, h.trans hs⟩
  · rintro ⟨s, hs⟩
    induction s generalizing c with
    | nil =>
        rw [hs.eq_of_nil]
        rcases c.exists_reads with h | ⟨ch, e, h⟩
        · simp [places_of_nil h]
        · simp [places_of_reads h]
    | cons ch s ih =>
        obtain ⟨e, he, hs⟩ := Reads.split (s := [ch]) hs
        rw [places_of_reads he]
        exact List.mem_cons_of_mem _ (ih hs)

/-- The positions but the first one are behind a part of the text that is not empty. -/
theorem exists_of_mem_tail_places {c d : Cursor} (h : d ∈ c.places.tail) :
    ∃ s, s ≠ [] ∧ c.Reads s d := by
  rcases c.exists_reads with hc | ⟨ch, e, hc⟩
  · simp [places_of_nil hc] at h
  · rw [places_of_reads hc, List.tail_cons] at h
    obtain ⟨s, hs⟩ := mem_places.1 h
    exact ⟨[ch] ++ s, by simp, hc.trans hs⟩

/-- The positions come in the order of the text. -/
theorem pairwise_places (c : Cursor) :
    c.places.Pairwise fun d e => ∃ s, d.Reads s e := by
  induction c using induction_ahead with
  | nil c h =>
      rw [places_of_nil h]
      exact List.pairwise_singleton _ _
  | cons c ch d h ih =>
      rw [places_of_reads h, List.pairwise_cons]
      refine ⟨fun e he => ?_, ih⟩
      obtain ⟨s, hs⟩ := mem_places.1 he
      exact ⟨[ch] ++ s, h.trans hs⟩

/-- The position behind the white space ahead. -/
def skip (c : Cursor) : Cursor :=
  c.past (c.after.takeWhile Text.isBlank) (c.after.dropWhile Text.isBlank)

/-- White space leads to the position behind it. -/
theorem reads_skip (c : Cursor) : c.Reads (c.after.takeWhile Text.isBlank) c.skip :=
  reads_past List.takeWhile_append_dropWhile.symm

theorem blankAhead_skip (c : Cursor) : c.skip.blankAhead = false :=
  Text.head?_dropWhile_isBlank c.after

theorem skip_of_not_blankAhead {c : Cursor} (h : c.blankAhead = false) : c.skip = c := by
  have hnil : c.after.takeWhile Text.isBlank = [] := by
    rw [blankAhead] at h
    cases hafter : c.after with
    | nil => rfl
    | cons ch rest => simp_all
  have hskip := c.reads_skip
  rw [hnil] at hskip
  exact hskip.eq_of_nil

theorem skip_of_reads {c d : Cursor} {b : Char} (h : c.Reads [b] d) (hb : Text.isBlank b) :
    c.skip = d.skip := by
  have hskip := c.reads_skip
  rw [h.after, List.singleton_append, List.takeWhile_cons_of_pos hb] at hskip
  exact hskip.unique (h.trans d.reads_skip)

end Cursor
/-! ### The first way of a chain -/

namespace Way

/-- The first way that goes on from where others stop goes on from the first of them that goes on at
all. -/
theorem head?_chain_eq_some {ws : List Way} {next : Cursor → List Way} {w : Way} :
    (chain ws next).head? = some w ↔ ∃ before u after v, ws = before ++ u :: after ∧
      (∀ x ∈ before, next x.stop = []) ∧ (next u.stop).head? = some v ∧ w = u.join v := by
  rw [chain, List.head?_flatMap, List.findSome?_eq_some_iff]
  constructor
  · rintro ⟨before, u, after, hws, hu, hbefore⟩
    rw [List.head?_map, Option.map_eq_some_iff] at hu
    obtain ⟨v, hv, hw⟩ := hu
    exact ⟨before, u, after, v, hws, fun x hx => by simpa using hbefore x hx, hv, hw.symm⟩
  · rintro ⟨before, u, after, v, hws, hbefore, hv, rfl⟩
    refine ⟨before, u, after, hws, by rw [List.head?_map, hv]; rfl, fun x hx => ?_⟩
    rw [hbefore x hx]
    rfl

end Way

/-! ### Texts and white space -/

namespace Regex

/-- Positions in the order in which a repetition prefers to stop there. -/
def inOrder (greedy : Bool) (places : List Cursor) : List Cursor :=
  if greedy then places.reverse else places

@[simp] theorem mem_inOrder {greedy : Bool} {places : List Cursor} {d : Cursor} :
    d ∈ inOrder greedy places ↔ d ∈ places := by
  cases greedy with
  | false => exact Iff.rfl
  | true => exact List.mem_reverse

/-- Any text may stop at each position ahead. -/
theorem ways_star_any (greedy : Bool) (c : Cursor) :
    (star (.char .any) greedy).ways c = (inOrder greedy c.places).map Way.here := by
  induction c using Cursor.induction_ahead with
  | nil c h =>
      rw [ways_star rfl, ways_char_of_nil h, Cursor.places_of_nil h]
      cases greedy <;> rfl
  | cons c ch d h ih =>
      have hany : (CharClass.any).contains ch = true := rfl
      rw [ways_star rfl, ways_char_of_reads h, if_pos hany, Way.here_chain, ih,
        Cursor.places_of_reads h]
      cases greedy <;> simp [inOrder]

/-- Any text that is not empty may stop at each of them but the first. -/
theorem ways_plus_any (greedy : Bool) (c : Cursor) :
    (plus (.char .any) greedy).ways c = (inOrder greedy c.places.tail).map Way.here := by
  rw [ways_plus]
  rcases c.exists_reads with h | ⟨ch, d, h⟩
  · rw [ways_char_of_nil h, Cursor.places_of_nil h]
    cases greedy <;> rfl
  · have hany : (CharClass.any).contains ch = true := rfl
    rw [ways_char_of_reads h, if_pos hany, Way.here_chain, ways_star_any,
      Cursor.places_of_reads h, List.tail_cons]

/-- A condition on where a way stops leaves some of the ways. -/
theorem chain_assert (p : Assertion) (ws : List Way) :
    Way.chain ws (concat [.assert p]).ways = ws.filter fun w => p.holds w.stop := by
  induction ws with
  | nil => rfl
  | cons w ws ih =>
      rw [Way.chain_cons, ih, ways_concat_singleton, ways_assert, List.filter_cons]
      cases p.holds w.stop <;> simp

/-- A greedy repetition of white space in front of no white space goes through all of it. -/
theorem ways_skip (c : Cursor) :
    (concat [.star (.char .blank) true, .assert (.notNext .blank)]).ways c = [Way.here c.skip] := by
  rw [ways_concat_cons, chain_assert]
  induction c using Cursor.induction_ahead with
  | nil c h =>
      have hnext : c.blankAhead = false := by rw [Cursor.blankAhead, h]; rfl
      have hholds := Shape.holds_notNext_blank.2 hnext
      rw [ways_star rfl, ways_char_of_nil h, Cursor.skip_of_not_blankAhead hnext]
      simp [Way.here, hholds]
  | cons c ch d h ih =>
      have hnext : c.blankAhead = Text.isBlank ch := by rw [Cursor.blankAhead, h.after]; rfl
      rw [ways_star rfl, ways_char_of_reads h]
      cases hb : Text.isBlank ch with
      | true =>
          have hholds : (Assertion.notNext .blank).holds c = false := by
            rw [← Bool.not_eq_true, Shape.holds_notNext_blank, hnext, hb]
            simp
          have hcls : CharClass.blank.contains ch = true := hb
          rw [if_pos hcls, Way.here_chain, if_pos rfl, List.filter_append, ih,
            Cursor.skip_of_reads h hb]
          simp [Way.here, hholds]
      | false =>
          have hholds := Shape.holds_notNext_blank.2 (hnext.trans hb)
          have hcls : CharClass.blank.contains ch = false := hb
          rw [Cursor.skip_of_not_blankAhead (hnext.trans hb)]
          simp [hcls, Way.here, hholds]

end Regex

/-! ### Tags -/

namespace Shape

open Regex

/-- A tag that goes from one position to another. -/
def taken (binding : Option Text) (c d : Cursor) : Way := bind binding c (Way.here d)

@[simp] theorem taken_stop (binding : Option Text) (c d : Cursor) :
    (taken binding c d).stop = d := by
  rw [taken, bind_stop, Way.here]

theorem ways_anything (binding : Option Text) (greedy : Bool) (c : Cursor) :
    (around binding (anything greedy)).ways c =
      (inOrder greedy c.places).map (taken binding c) := by
  rw [ways_around, anything, ways_star_any, List.map_map]
  rfl

theorem ways_something (binding : Option Text) (greedy : Bool) (c : Cursor) :
    (around binding (something greedy)).ways c =
      (inOrder greedy c.places.tail).map (taken binding c) := by
  rw [ways_around, something, ways_plus_any, List.map_map]
  rfl

theorem filter_taken (p : Assertion) (binding : Option Text) (c : Cursor) (ds : List Cursor) :
    ((ds.map (taken binding c)).filter fun w => p.holds w.stop) =
      (ds.filter fun d => p.holds d).map (taken binding c) := by
  rw [List.filter_map]
  congr 2
  funext d
  rw [Function.comp_apply, taken_stop]

theorem ways_bare (binding : Option Text) {context : TagContext}
    (hcontext : context = .bare ∨ context = .leftSpace) (greedy : Bool) (c : Cursor) :
    (tag binding context greedy).ways c = (inOrder greedy c.places).map (taken binding c) := by
  have hitems : (tag binding context greedy).items = [around binding (anything greedy)] := by
    rcases hcontext with rfl | rfl <;> rfl
  rw [ways, hitems, ways_concat_singleton, ways_anything]

/-- A tag with white space on its right does not stop behind white space. -/
theorem ways_rightSpace (binding : Option Text) (greedy : Bool) (c : Cursor) :
    (tag binding .rightSpace greedy).ways c =
      ((inOrder greedy c.places).filter fun d => (Assertion.notPrevious .blank).holds d).map
        (taken binding c) := by
  change (concat [_, notBehind .blank]).ways c = _
  rw [ways_concat_cons, notBehind, chain_assert, ways_anything, filter_taken]

/-- A tag with white space on both sides begins behind all white space and stops behind no white
space, or does not take part. -/
theorem ways_bothSpace (binding : Option Text) (greedy : Bool) (c : Cursor) :
    (tag binding .bothSpace greedy).ways c =
      ((inOrder greedy c.skip.places.tail).filter fun d =>
        (Assertion.notPrevious .blank).holds d).map (taken binding c.skip) ++ [Way.here c] := by
  change (concat [opt (concat ([star (.char .blank) true, .assert (.notNext .blank)] ++
    [around binding (something greedy), notBehind .blank])) true]).ways c = _
  rw [ways_concat_singleton, ways_opt_greedy, ways_concat_append, ways_skip, Way.here_chain,
    ways_concat_cons, notBehind, chain_assert, ways_something, filter_taken]

/-- A tag in front of the end stops behind no newline, or does not take part. -/
theorem ways_lineEnd (binding : Option Text) (greedy : Bool) (c : Cursor) :
    (tag binding .lineEnd greedy).ways c =
      ((inOrder greedy c.places.tail).filter fun d =>
        (Assertion.notPrevious (.single '\n')).holds d).map (taken binding c) ++ [Way.here c] := by
  change (concat [opt (concat [around binding (something greedy), notBehind (.single '\n')])
    true]).ways c = _
  rw [ways_concat_singleton, ways_opt_greedy, ways_concat_cons, notBehind, chain_assert,
    ways_something, filter_taken]

/-- **A way of a tag** takes a part of the text, or the tag does not take part.  Only a tag with white
space on both sides goes through white space in front of what it takes. -/
theorem exists_of_mem_ways_tag {binding : Option Text} {context : TagContext} {greedy : Bool}
    {c : Cursor} {w : Way} (hw : w ∈ (tag binding context greedy).ways c) :
    (∃ gap value d e, c.Reads gap d ∧ d.Reads value e ∧ (∀ b ∈ gap, Text.isBlank b = true) ∧
      (context ≠ .bothSpace → gap = []) ∧ w = taken binding d e) ∨ w = Way.here c := by
  have hhere {ds : List Cursor} (hds : ∀ e ∈ ds, e ∈ c.places) (h : w ∈ ds.map (taken binding c)) :
      ∃ gap value d e, c.Reads gap d ∧ d.Reads value e ∧ (∀ b ∈ gap, Text.isBlank b = true) ∧
        (context ≠ .bothSpace → gap = []) ∧ w = taken binding d e := by
    obtain ⟨e, he, rfl⟩ := List.mem_map.1 h
    obtain ⟨value, hvalue⟩ := Cursor.mem_places.1 (hds e he)
    exact ⟨[], value, c, e, .refl c, hvalue, by simp, fun _ => rfl, rfl⟩
  cases context with
  | bare =>
      rw [ways_bare _ (Or.inl rfl)] at hw
      exact Or.inl (hhere (fun e he => mem_inOrder.1 he) hw)
  | leftSpace =>
      rw [ways_bare _ (Or.inr rfl)] at hw
      exact Or.inl (hhere (fun e he => mem_inOrder.1 he) hw)
  | rightSpace =>
      rw [ways_rightSpace] at hw
      exact Or.inl (hhere (fun e he => mem_inOrder.1 (List.mem_filter.1 he).1) hw)
  | bothSpace =>
      rw [ways_bothSpace, List.mem_append, List.mem_singleton] at hw
      refine hw.imp_left fun hw => ?_
      obtain ⟨e, he, rfl⟩ := List.mem_map.1 hw
      obtain ⟨value, hvalue⟩ :=
        Cursor.mem_places.1 (List.mem_of_mem_tail (mem_inOrder.1 (List.mem_filter.1 he).1))
      exact ⟨_, value, c.skip, e, c.reads_skip, hvalue, List.all_eq_true.1 List.all_takeWhile,
        fun h => absurd rfl h, rfl⟩
  | lineEnd =>
      rw [ways_lineEnd, List.mem_append, List.mem_singleton] at hw
      exact hw.imp_left (hhere fun e he =>
        List.mem_of_mem_tail (mem_inOrder.1 (List.mem_filter.1 he).1))

/-! ### What a tag takes -/

/-- A tag prefers the first value to the second one: it is longer if the tag takes as much as it can,
and shorter if it takes as little as it can. -/
def Prefers (greedy : Bool) (value other : Text) : Prop :=
  if greedy then other.length < value.length else value.length < other.length

/-- A position that comes later in the order is behind a value that is not preferred. -/
theorem prefers_of_reads {greedy : Bool} {c d e : Cursor} {value other : Text}
    (hvalue : c.Reads value d) (hother : c.Reads other e)
    (horder : ∃ s, if greedy then e.Reads s d else d.Reads s e) :
    other = value ∨ Prefers greedy value other := by
  obtain ⟨s, hs⟩ := horder
  cases greedy with
  | false =>
      have hsame : other = value ++ s :=
        List.append_cancel_right (hother.after.symm.trans (hvalue.trans hs).after)
      rcases List.eq_nil_or_concat s with rfl | ⟨t, ch, rfl⟩
      · exact Or.inl (by rw [hsame, List.append_nil])
      · exact Or.inr (by simp [Prefers, hsame])
  | true =>
      have hsame : value = other ++ s :=
        List.append_cancel_right (hvalue.after.symm.trans (hother.trans hs).after)
      rcases List.eq_nil_or_concat s with rfl | ⟨t, ch, rfl⟩
      · exact Or.inl (by rw [hsame, List.append_nil])
      · exact Or.inr (by simp [Prefers, hsame])

/-- A tag with text on its right may stop at each position ahead. -/
theorem taken_mem_ways_bare (binding : Option Text) (greedy : Bool) {c d : Cursor} {value : Text}
    (h : c.Reads value d) : taken binding c d ∈ (tag binding .bare greedy).ways c := by
  rw [ways_bare binding (Or.inl rfl)]
  exact List.mem_map_of_mem (mem_inOrder.2 (Cursor.mem_places.2 ⟨value, h⟩))

/-- **What a tag takes** is a value behind which it is possible to go on, and it is preferred to all
other such values. -/
theorem exists_of_head?_bare {binding : Option Text} {greedy : Bool} {c : Cursor}
    {next : Cursor → List Way} {w : Way}
    (h : (Way.chain ((tag binding .bare greedy).ways c) next).head? = some w) :
    ∃ value d v, c.Reads value d ∧ (next d).head? = some v ∧ w = (taken binding c d).join v ∧
      ∀ other e, c.Reads other e → next e ≠ [] → other = value ∨ Prefers greedy value other := by
  have hmem {d : Cursor} : d ∈ inOrder greedy c.places ↔ ∃ s, c.Reads s d := by
    rw [mem_inOrder, Cursor.mem_places]
  have hpairwise : (inOrder greedy c.places).Pairwise fun d e =>
      ∃ s, if greedy then e.Reads s d else d.Reads s e := by
    cases greedy with
    | false => exact c.pairwise_places
    | true => exact List.pairwise_reverse.2 c.pairwise_places
  rw [ways_bare binding (Or.inl rfl)] at h
  obtain ⟨before, u, after, v, hways, hbefore, hv, rfl⟩ := Way.head?_chain_eq_some.1 h
  obtain ⟨earlier, others, hsplit, rfl, hothers⟩ := List.map_eq_append_iff.1 hways
  obtain ⟨d, later, rfl, rfl, -⟩ := List.map_eq_cons_iff.1 hothers
  rw [hsplit] at hmem hpairwise
  obtain ⟨value, hvalue⟩ := hmem.1 (List.mem_append_right _ (List.mem_cons_self ..))
  rw [taken_stop] at hv
  refine ⟨value, d, v, hvalue, hv, rfl, fun other e hother hnext => ?_⟩
  rcases List.mem_append.1 (hmem.2 ⟨other, hother⟩) with he | he
  · -- the tag does not stop at an earlier position because there is no way to go on from it
    exact absurd (by simpa using hbefore _ (List.mem_map_of_mem he)) hnext
  · have horder := (List.pairwise_cons.1 (List.pairwise_append.1 hpairwise).2.1).1
    rcases List.mem_cons.1 he with rfl | he
    · exact Or.inl (List.append_cancel_right (hother.after.symm.trans hvalue.after))
    · exact prefers_of_reads hvalue hother (horder e he)

end Shape

end Transcript
