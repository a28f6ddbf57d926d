/-
**Markup between two characters.**

The usual rules recognise a tag or an input marker by the two characters around it.  This module says
what they recognise: a tag is a name between the two characters, and a marker that closes a line
falls into the opening character, the text to type, the closing character and spaces.

Main definitions:

* `Transcript.TagRule.Named` — no tag of the rule has an empty name;
* `Transcript.Regex.markless` — expressions without groups.

Main results:

* `Transcript.TagRule.named_delimited` — a tag between two characters has a name;
* `Transcript.TagRule.text_ne_nil_of_mem_findAll` — no tag of a text is empty;
* `Transcript.InputRule.trailing?_delimited` — **a marker that closes a line**.
-/

import Transcript.Markup.Config
import Transcript.Proofs.Regex.Language

set_option relaxedAutoImplicit false
set_option autoImplicit false

namespace Transcript

/-! ### Spans -/

theorem Span.text_of_reads {c d : Cursor} {s : Text} (h : c.Reads s d) : Span.text ⟨c, d⟩ = s := by
  have hlength : d.offset - c.offset = s.length := by
    have := h.offset
    omega
  rw [Span.text, hlength, h.after, List.take_left']
  rfl

/-! ### Expressions without groups -/

namespace Regex

/-- There is no end of a group in the expression. -/
def markless : Regex → Bool
  | empty => true
  | char _ => true
  | seq a b => a.markless && b.markless
  | alt a b => a.markless && b.markless
  | star body _ => body.markless
  | plus body _ => body.markless
  | mark _ => false
  | assert _ => true

theorem marks_of_mem_rounds {step : Cursor → List Way} {greedy : Bool}
    (h : ∀ c, ∀ w ∈ step c, w.marks = []) (fuel : Nat) :
    ∀ c, ∀ w ∈ rounds step greedy fuel c, w.marks = [] := by
  induction fuel with
  | zero =>
      intro c w hw
      rw [rounds, List.mem_singleton] at hw
      rw [hw]
      rfl
  | succ fuel ih =>
      intro c w hw
      have hcases : w = Way.here c ∨ w ∈ Way.chain (step c) (rounds step greedy fuel) := by
        cases greedy with
        | false => simpa [rounds] using hw
        | true => exact Or.symm (by simpa [rounds] using hw)
      rcases hcases with rfl | hw
      · rfl
      · obtain ⟨u, hu, v, hv, rfl⟩ := Way.mem_chain.1 hw
        simp [Way.join, h c u hu, ih u.stop v hv]

/-- A way of an expression without groups passes no end of a group. -/
theorem marks_of_mem_ways {r : Regex} (hr : r.markless) :
    ∀ {c : Cursor} {w : Way}, w ∈ r.ways c → w.marks = [] := by
  induction r with
  | empty =>
      intro c w hw
      rw [List.mem_singleton.1 hw]
      rfl
  | char cls =>
      intro c w hw
      obtain ⟨ch, -, -, hmarks⟩ := mem_ways_char.1 hw
      exact hmarks
  | seq a b iha ihb =>
      intro c w hw
      simp only [markless, Bool.and_eq_true] at hr
      obtain ⟨u, hu, v, hv, rfl⟩ := Way.mem_chain.1 hw
      simp [Way.join, iha hr.1 hu, ihb hr.2 hv]
  | alt a b iha ihb =>
      intro c w hw
      simp only [markless, Bool.and_eq_true] at hr
      rcases List.mem_append.1 hw with hw | hw
      · exact iha hr.1 hw
      · exact ihb hr.2 hw
  | star body greedy ih =>
      intro c w hw
      exact marks_of_mem_rounds (fun c w hw => ih hr hw) _ c w hw
  | plus body greedy ih =>
      intro c w hw
      obtain ⟨u, hu, v, hv, rfl⟩ := Way.mem_chain.1 hw
      simp [Way.join, ih hr hu, marks_of_mem_rounds (fun c w hw => ih hr hw) _ _ v hv]
  | mark m => simp [markless] at hr
  | assert p =>
      intro c w hw
      rw [(mem_ways_assert.1 hw).2]
      rfl

/-- A group goes through what its body goes through, between its two ends. -/
theorem exists_of_mem_ways_group {name : Text} {body : Regex} (hbody : body.markless) {c : Cursor}
    {w : Way} (h : w ∈ (group name body).ways c) :
    ∃ v ∈ body.ways c, w.stop = v.stop ∧
      w.marks = [(.closing name, v.stop), (.opening name, c)] := by
  obtain ⟨u, hu, v, hv, rfl⟩ := Way.mem_chain.1 h
  obtain ⟨x, hx, y, hy, rfl⟩ := Way.mem_chain.1 hv
  rw [ways_mark, List.mem_singleton] at hu hy
  subst hu
  rw [hy]
  exact ⟨x, hx, rfl, by simp [Way.join, marks_of_mem_ways hbody hx]⟩

/-- One given character is gone through in one way. -/
theorem reads_of_mem_ways_single {ch : Char} {c : Cursor} {w : Way} (h : w ∈ (single ch).ways c) :
    c.Reads [ch] w.stop ∧ w.marks = [] := by
  obtain ⟨x, hcls, hreads, hmarks⟩ := mem_ways_char.1 h
  rw [CharClass.single_contains, decide_eq_true_eq] at hcls
  exact ⟨hcls ▸ hreads, hmarks⟩

end Regex

/-! ### Groups -/

namespace Match

/-- A group whose ends were passed last. -/
theorem group?_of_marks {m : Match} {name : Text} {c d : Cursor} {marks : List (Mark × Cursor)}
    (h : m.marks = (.closing name, d) :: (.opening name, c) :: marks) :
    m.group? name = some ⟨c, d⟩ := by
  have hends : (Mark.opening name == Mark.closing name) = false := by simp
  simp [group?, h, List.lookup_cons, hends]

theorem group?_of_marks_of_ne {m : Match} {name other : Text} {c d : Cursor}
    {marks : List (Mark × Cursor)} (hne : name ≠ other)
    (h : m.marks = (.closing other, d) :: (.opening other, c) :: marks) :
    m.group? name = (Match.mk m.span marks).group? name := by
  have h₁ : (Mark.opening name == Mark.closing other) = false := by simp
  have h₂ : (Mark.opening name == Mark.opening other) = false := by simpa using hne
  have h₃ : (Mark.closing name == Mark.closing other) = false := by simpa using hne
  have h₄ : (Mark.closing name == Mark.opening other) = false := by simp
  simp [group?, h, List.lookup_cons, h₁, h₂, h₃, h₄]

end Match

/-! ### Tags -/

namespace TagRule

/-- No tag of the rule has an empty name. -/
def Named (rule : TagRule) : Prop := ∀ tag, rule.nameOf? tag ≠ some []

variable {opening closing : Char}

theorem steady_delimited : (delimited opening closing).regex.steady := rfl

/-- A tag is a name between the two characters. -/
theorem exists_of_mem_ways {c : Cursor} {w : Way}
    (h : w ∈ (delimited opening closing).regex.ways c) :
    ∃ name d e, name ≠ [] ∧ c.Reads [opening] d ∧ d.Reads name e ∧ e.Reads [closing] w.stop ∧
      w.marks = [(.closing nameGroup, e), (.opening nameGroup, d)] := by
  obtain ⟨u, hu, v, hv, rfl⟩ := Way.mem_chain.1 h
  obtain ⟨x, hx, y, hy, rfl⟩ := Way.mem_chain.1 hv
  rw [Regex.ways_concat_singleton] at hy
  obtain ⟨hopening, humarks⟩ := Regex.reads_of_mem_ways_single hu
  have hname : name.markless := rfl
  obtain ⟨z, hz, hstop, hmarks⟩ := Regex.exists_of_mem_ways_group hname hx
  obtain ⟨hclosing, hymarks⟩ := Regex.reads_of_mem_ways_single hy
  obtain ⟨s, hs, hne⟩ := Regex.advancing_ways name u.stop z hz
  rw [hstop] at hclosing
  refine ⟨s, u.stop, z.stop, hne rfl, hopening, hs, hclosing, ?_⟩
  simp [Way.join, humarks, hymarks, hmarks]

/-- A tag between two characters has a name. -/
theorem named_delimited : (delimited opening closing).Named := by
  intro tag h
  unfold nameOf? at h
  cases hfound : (delimited opening closing).regex.search tag with
  | none => simp [hfound] at h
  | some m =>
      rw [hfound] at h
      obtain ⟨_, start, _, w, hw, rfl⟩ := Regex.exists_of_searchFrom steady_delimited hfound
      obtain ⟨name, d, e, hne, -, hname, -, hmarks⟩ := exists_of_mem_ways hw
      have hmarks' : (Trail.finish ⟨start, []⟩ w).marks =
          [(.closing nameGroup, e), (.opening nameGroup, d)] := by
        simp [Trail.finish, hmarks]
      have hgroup := Match.group?_of_marks hmarks'
      simp only [hgroup, Option.map_some, Span.text_of_reads hname] at h
      split at h
      · exact hne (Option.some.inj h)
      · simp at h

theorem named_of_exists {rule : TagRule} (h : ∃ opening closing, rule = delimited opening closing) :
    rule.Named := by
  obtain ⟨opening, closing, rfl⟩ := h
  exact named_delimited

theorem text_ne_nil_of_mem_findAll {text : Text} {span : Span}
    (h : span ∈ (delimited opening closing).findAll text) : span.text ≠ [] := by
  obtain ⟨m, hm, rfl⟩ := List.mem_map.1 h
  obtain ⟨d, w, hw, rfl⟩ := Regex.exists_of_mem_findAll steady_delimited hm
  obtain ⟨name, e, e', -, hopening, hname, hclosing, -⟩ := exists_of_mem_ways hw
  have hspan : (Trail.finish ⟨d, []⟩ w).span = ⟨d, w.stop⟩ := rfl
  rw [hspan, Span.text_of_reads ((hopening.trans hname).trans hclosing)]
  simp

end TagRule

/-! ### Input markers -/

namespace InputRule

variable {opening closing : Char}

theorem steady_delimited : (delimited opening closing).closing.steady := rfl

theorem markless_body : (body closing).markless := rfl

/-- A marker at the end of a line falls into the opening character, the text to type, the closing character
and spaces; its groups are the text to type and the spaces. -/
theorem exists_of_mem_ways {start : Cursor} {w : Way}
    (h : w ∈ (delimited opening closing).closing.ways start) :
    ∃ input spacing d e, start.Reads [opening] d ∧ Shape.Leads (body closing).ways d e ∧
      d.Reads input e ∧ e.Reads (closing :: spacing) w.stop ∧ (∀ c ∈ spacing, c = ' ') ∧
      w.stop.after = [] ∧ groupText (Trail.finish ⟨start, []⟩ w) inputGroup = input ∧
      groupText (Trail.finish ⟨start, []⟩ w) spacingGroup = spacing := by
  -- the marker, the spacing and the end of the text
  obtain ⟨u, hu, v, hv, rfl⟩ := Way.mem_chain.1 h
  obtain ⟨x, hx, y, hy, rfl⟩ := Way.mem_chain.1 hv
  rw [Regex.ways_concat_singleton] at hy
  obtain ⟨hend, rfl⟩ := Regex.mem_ways_assert.1 hy
  have hspacesMarkless : (Regex.star (.single ' ') true).markless := rfl
  obtain ⟨z, hz, hxstop, hxmarks⟩ := Regex.exists_of_mem_ways_group hspacesMarkless hx
  obtain ⟨spacing, hspacing, hspaces, -⟩ := Regex.mem_ways_star_char.1 hz
  -- the marker falls into its three parts
  obtain ⟨u₁, hu₁, u₂, hu₂, rfl⟩ := Way.mem_chain.1 hu
  obtain ⟨u₃, hu₃, u₄, hu₄, rfl⟩ := Way.mem_chain.1 hu₂
  rw [Regex.ways_concat_singleton] at hu₄
  obtain ⟨hopening, hu₁marks⟩ := Regex.reads_of_mem_ways_single hu₁
  obtain ⟨z', hz', hu₃stop, hu₃marks⟩ := Regex.exists_of_mem_ways_group markless_body hu₃
  obtain ⟨hclosing, hu₄marks⟩ := Regex.reads_of_mem_ways_single hu₄
  obtain ⟨input, hinput⟩ := Regex.reads_of_mem_ways hz'
  change u₄.stop.Reads spacing z.stop at hspacing
  generalize hm : Trail.finish ⟨start, []⟩ _ = m
  have hmarks : m.marks = [(.closing spacingGroup, z.stop), (.opening spacingGroup, u₄.stop),
      (.closing inputGroup, z'.stop), (.opening inputGroup, u₁.stop)] := by
    rw [← hm]
    simp [Trail.finish, Way.join, Way.here, hu₁marks, hu₄marks, hu₃marks, hxmarks]
  have hspacingGroup : m.group? spacingGroup = some ⟨u₄.stop, z.stop⟩ := Match.group?_of_marks hmarks
  have hinputGroup : m.group? inputGroup = some ⟨u₁.stop, z'.stop⟩ := by
    rw [Match.group?_of_marks_of_ne (by decide) hmarks]
    exact Match.group?_of_marks rfl
  rw [hu₃stop] at hclosing
  refine ⟨input, spacing, u₁.stop, z'.stop, hopening, ⟨z', hz', rfl⟩, hinput, ?_, fun c hc => ?_,
    Shape.holds_textEnd.1 hend, ?_, ?_⟩
  · change z'.stop.Reads ([closing] ++ spacing) x.stop
    rw [hxstop]
    exact hclosing.trans hspacing
  · simpa [CharClass.single_contains] using hspaces c hc
  · simp [groupText, hinputGroup, Span.text_of_reads hinput]
  · simp [groupText, hspacingGroup, Span.text_of_reads hspacing]

/-- **A marker that closes a line**: the opening character, the text to type, the closing character
and spaces. -/
theorem trailing?_delimited {line : Text} {marker : TrailingInput}
    (h : (delimited opening closing).trailing? line = some marker) :
    ∃ front, line = front ++ opening :: marker.input ++ closing :: marker.spacing ∧
      marker.start = front.length ∧ ∀ c ∈ marker.spacing, c = ' ' := by
  obtain ⟨m, hfound, rfl⟩ := Option.map_eq_some_iff.1 h
  obtain ⟨front, start, hfront, w, hw, rfl⟩ := Regex.exists_of_searchFrom steady_delimited hfound
  obtain ⟨input, spacing, d, e, hopening, -, hinput, hclosing, hspaces, hend, rfl, rfl⟩ :=
    exists_of_mem_ways hw
  have hline := (((hfront.trans hopening).trans hinput).trans hclosing).after
  rw [hend, List.append_nil] at hline
  exact ⟨front, by simpa [Cursor.start] using hline, hfront.offset_start, hspaces⟩

end InputRule

end Transcript
