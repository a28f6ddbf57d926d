/-
**The grammar of input markers.**

The text of a marker is a sequence of units: a character that is neither the closing one nor a backslash, or
a backslash with any character behind it.  The expression of a marker is a repetition within a repetition, but
the units come apart in one way only, so the text of a marker ends at the first closing character that no
backslash takes along.  The rules of markers find the first place in a line, in bytes, from which on the line
reads so.

Main definitions:

* `Transcript.InputRule.Inner` — **the texts of markers**;
* `Transcript.InputRule.Begins`, `Transcript.InputRule.Closes`, `Transcript.InputRule.Closing` — a text that
  begins with a marker, and one that is a marker with spaces behind it;
* `Transcript.Text.First` — the first place of a line from which on it has a property.

Main results:

* `Transcript.InputRule.exists_inner_of_leads_body`, `Transcript.InputRule.leads_body_of_inner` — the
  expression goes through the texts of markers;
* `Transcript.InputRule.Inner.unique` — the closing character is found in one way only;
* `Transcript.Regex.exists_first_of_search` — a search finds the first place;
* `Transcript.InputRule.recognises_markers` — **markers are recognised by their grammar**.
-/

import Transcript.Proofs.Markup.Naming
import Transcript.Proofs.Markup.Sources

set_option relaxedAutoImplicit false
set_option autoImplicit false

namespace Transcript

/-! ### Places in a line -/

namespace Text

theorem length_le_byteLength (s : Text) : s.length ≤ byteLength s := by
  induction s with
  | nil => exact Nat.le_refl _
  | cons c s ih =>
      have hsize := c.utf8Size_pos
      rw [List.length_cons, byteLength]
      omega

/-- The byte at which a part of a text begins. -/
theorem byteOffset_append (front back : Text) :
    byteOffset (front ++ back) front.length = byteLength front := by
  rw [byteOffset, List.take_left]

/-- Bytes tell how far the parts at the front of a text go. -/
theorem byteLength_le_iff {line front front' back back' : Text} (h : line = front ++ back)
    (h' : line = front' ++ back') : byteLength front ≤ byteLength front' ↔ front.length ≤ front'.length := by
  have hprefix : front <+: line := ⟨back, h.symm⟩
  have hprefix' : front' <+: line := ⟨back', h'.symm⟩
  have hlonger {s t : Text} (hs : s <+: line) (ht : t <+: line) (hle : s.length ≤ t.length) :
      ∃ u, byteLength t = byteLength s + byteLength u ∧ t.length = s.length + u.length := by
    obtain ⟨u, rfl⟩ := List.prefix_of_prefix_length_le hs ht hle
    exact ⟨u, byteLength_append s u, List.length_append⟩
  constructor
  · intro hle
    by_contra hlt
    obtain ⟨u, hbytes, hlength⟩ := hlonger hprefix' hprefix (by omega)
    have hu := length_le_byteLength u
    omega
  · intro hle
    obtain ⟨u, hbytes, -⟩ := hlonger hprefix hprefix' hle
    omega

/-- The line reads `back` from the byte `start` on, which has the property, and no place further left has. -/
structure First (P : Text → Prop) (line : Text) (start : Nat) (back : Text) : Prop where
  split : ∃ front, line = front ++ back ∧ byteLength front = start
  holds : P back
  least : ∀ front' back', line = front' ++ back' → P back' → start ≤ byteLength front'

theorem First.unique {P : Text → Prop} {line : Text} {start start' : Nat} {back back' : Text}
    (h : First P line start back) (h' : First P line start' back') : start = start' ∧ back = back' := by
  obtain ⟨front, hfront, rfl⟩ := h.split
  obtain ⟨front', hfront', rfl⟩ := h'.split
  have hle := h.least front' back' hfront' h'.holds
  have hge := h'.least front back hfront h.holds
  have hlength : front.length = front'.length :=
    Nat.le_antisymm ((byteLength_le_iff hfront hfront').1 hle) ((byteLength_le_iff hfront' hfront).1 hge)
  exact ⟨Nat.le_antisymm hle hge, (List.append_inj (hfront.symm.trans hfront') hlength).2⟩

end Text

namespace Regex

variable {r : Regex} {line : Text} {P : Text → Prop}

/-- **A search finds the first place** from which on the line has a property, if the expression has a way
exactly from such places. -/
theorem exists_first_of_search (hr : r.steady)
    (hP : ∀ s d, (Cursor.start line).Reads s d → (r.ways d ≠ [] ↔ P d.after)) {m : Match}
    (hm : r.search line = some m) :
    ∃ d w, (r.ways d).head? = some w ∧ m = Trail.finish ⟨d, []⟩ w ∧
      Text.First P line (Text.byteOffset line m.span.start.offset) d.after := by
  obtain ⟨s, d, w, hs, hw, rfl, hfirst⟩ := exists_first_of_searchFrom hr hm
  have hline : line = s ++ d.after := hs.after
  have hways : r.ways d ≠ [] := List.ne_nil_of_mem (List.mem_of_head? hw)
  have hoffset : Text.byteOffset line d.offset = Text.byteLength s := by
    rw [hline, hs.offset_start, Text.byteOffset_append]
  refine ⟨d, w, hw, rfl, ⟨s, hline, hoffset.symm⟩, (hP s d hs).1 hways, fun front' back' h hback' => ?_⟩
  change Text.byteOffset line d.offset ≤ _
  have hs' : (Cursor.start line).Reads front' ((Cursor.start line).past front' back') :=
    Cursor.reads_past h
  rw [hoffset, Text.byteLength_le_iff hline h]
  exact hfirst front' _ hs' ((hP front' _ hs').2 hback')

/-- A search finds something if there is such a place. -/
theorem exists_search_of_first (hr : r.steady)
    (hP : ∀ s d, (Cursor.start line).Reads s d → (r.ways d ≠ [] ↔ P d.after)) {start : Nat} {back : Text}
    (h : Text.First P line start back) : ∃ m, r.search line = some m := by
  obtain ⟨front, hfront, -⟩ := h.split
  have hs : (Cursor.start line).Reads front ((Cursor.start line).past front back) :=
    Cursor.reads_past hfront
  exact Option.isSome_iff_exists.1 ((isSome_searchFrom_iff hr).2 ⟨front, _, hs, (hP _ _ hs).2 h.holds⟩)

/-- There is a way through an expression where it leads somewhere. -/
theorem ways_ne_nil_iff {c : Cursor} : r.ways c ≠ [] ↔ ∃ d, Shape.Leads r.ways c d := by
  constructor
  · intro h
    obtain ⟨w, hw⟩ := List.exists_mem_of_ne_nil _ h
    exact ⟨w.stop, w, hw, rfl⟩
  · rintro ⟨d, w, hw, -⟩
    exact List.ne_nil_of_mem hw

/-- A repetition leads nowhere else, or to where it leads behind one round. -/
theorem leads_star {body : Regex} (hbody : body.nullable = false) {greedy : Bool} {c d : Cursor} :
    Shape.Leads (star body greedy).ways c d ↔
      c = d ∨ ∃ e, Shape.Leads body.ways c e ∧ Shape.Leads (star body greedy).ways e d := by
  constructor
  · rintro ⟨w, hw, rfl⟩
    rcases (mem_ways_star hbody).1 hw with rfl | ⟨u, hu, v, hv, rfl⟩
    · exact Or.inl rfl
    · exact Or.inr ⟨u.stop, ⟨u, hu, rfl⟩, v, hv, rfl⟩
  · rintro (rfl | ⟨e, ⟨u, hu, rfl⟩, v, hv, rfl⟩)
    · exact ⟨_, (mem_ways_star hbody).2 (Or.inl rfl), rfl⟩
    · exact ⟨_, (mem_ways_star hbody).2 (Or.inr ⟨u, hu, v, hv, rfl⟩), rfl⟩

end Regex

namespace InputRule

/-! ### The grammar -/

/-- **The texts of markers**: sequences of characters that are neither the closing one nor a backslash, and of
backslashes with any character behind. -/
inductive Inner (closing : Char) : Text → Prop
  | nil : Inner closing []
  | plain {c : Char} {text : Text} : c ≠ closing → c ≠ '\\' → Inner closing text →
      Inner closing (c :: text)
  | escaped {c : Char} {text : Text} : Inner closing text → Inner closing ('\\' :: c :: text)

def Begins (opening closing : Char) (text : Text) : Prop :=
  ∃ input back, text = opening :: input ++ closing :: back ∧ Inner closing input

/-- The text is a marker with spaces behind it. -/
structure Closes (opening closing : Char) (input spacing text : Text) : Prop where
  text : text = opening :: input ++ closing :: spacing
  inner : Inner closing input
  spaces : ∀ c ∈ spacing, c = ' '

def Closing (opening closing : Char) (text : Text) : Prop :=
  ∃ input spacing, Closes opening closing input spacing text

variable {opening closing : Char}

theorem Closes.begins {input spacing text : Text} (h : Closes opening closing input spacing text) :
    Begins opening closing text := ⟨input, spacing, h.text, h.inner⟩

/-- **The closing character is found in one way only**: of two texts of markers in front of it, none is longer
than the other. -/
theorem Inner.unique (hclosing : closing ≠ '\\') {input : Text} (h : Inner closing input) :
    ∀ {input' back back' : Text}, Inner closing input' →
      input ++ closing :: back = input' ++ closing :: back' → input = input' ∧ back = back' := by
  induction h with
  | nil =>
      intro input' back back' h' heq
      cases h' with
      | nil => exact ⟨rfl, (List.cons.inj heq).2⟩
      | plain hc _ _ => exact absurd (List.cons.inj heq).1.symm hc
      | escaped _ => exact absurd (List.cons.inj heq).1 hclosing
  | plain hc hbackslash _ ih =>
      intro input' back back' h' heq
      cases h' with
      | nil => exact absurd (List.cons.inj heq).1 hc
      | plain _ _ h' =>
          obtain ⟨rfl, hrest⟩ := List.cons.inj heq
          obtain ⟨rfl, rfl⟩ := ih h' hrest
          exact ⟨rfl, rfl⟩
      | escaped _ => exact absurd (List.cons.inj heq).1 hbackslash
  | escaped _ ih =>
      intro input' back back' h' heq
      cases h' with
      | nil => exact absurd (List.cons.inj heq).1.symm hclosing
      | plain _ hbackslash _ => exact absurd (List.cons.inj heq).1.symm hbackslash
      | escaped h' =>
          obtain ⟨rfl, hrest⟩ := List.cons.inj (List.cons.inj heq).2
          obtain ⟨rfl, rfl⟩ := ih h' hrest
          exact ⟨rfl, rfl⟩

/-- A text is a marker with spaces behind it in one way only. -/
theorem Closes.unique (hclosing : closing ≠ '\\') {input input' spacing spacing' text : Text}
    (h : Closes opening closing input spacing text)
    (h' : Closes opening closing input' spacing' text) : input = input' ∧ spacing = spacing' :=
  h.inner.unique hclosing h'.inner (List.cons.inj (h.text.symm.trans h'.text)).2

/-! ### What the expressions go through -/

theorem plainRun_contains {c : Char} :
    (CharClass.compl (.oneOf [.single closing, .single '\\'])).contains c = true ↔
      c ≠ closing ∧ c ≠ '\\' := by
  simp [CharClass.contains, CharClass.oneOf_contains, CharClass.single_contains]

/-- Plain characters in front of the text of a marker belong to it. -/
theorem Inner.append {s input : Text} (hs : ∀ c ∈ s, c ≠ closing ∧ c ≠ '\\') (h : Inner closing input) :
    Inner closing (s ++ input) := by
  induction s with
  | nil => exact h
  | cons c s ih =>
      obtain ⟨hc, hbackslash⟩ := hs c (List.mem_cons_self ..)
      exact .plain hc hbackslash (ih fun c' hc' => hs c' (List.mem_cons_of_mem _ hc'))

/-- A round of the repetition is a backslash with a character behind it, and plain characters. -/
theorem leads_round {c d : Cursor} :
    Shape.Leads (Regex.concat [escapedPair, plainRun closing]).ways c d ↔
      ∃ ch s, ch ≠ '\n' ∧ (∀ c ∈ s, c ≠ closing ∧ c ≠ '\\') ∧ c.Reads ('\\' :: ch :: s) d := by
  simp only [escapedPair, plainRun, Shape.leads_cons, Regex.leads_nil, exists_eq_right, Regex.leads_single,
    Shape.leads_char, Shape.leads_star_char, plainRun_contains, CharClass.inLine_contains,
    decide_eq_true_eq]
  constructor
  · rintro ⟨e, ⟨f, hbackslash, ch, hch, he⟩, s, hs, hplain⟩
    exact ⟨ch, s, hch, hplain, (hbackslash.trans he).trans hs⟩
  · rintro ⟨ch, s, hch, hplain, hreads⟩
    obtain ⟨f, hbackslash, hrest⟩ := Cursor.Reads.split (s := ['\\']) hreads
    obtain ⟨e, he, hs⟩ := Cursor.Reads.split (s := [ch]) hrest
    exact ⟨e, ⟨f, hbackslash, ch, hch, he⟩, s, hs, hplain⟩

/-- The repetition goes through the text of a marker, by induction on the characters ahead. -/
theorem exists_inner_of_leads_rounds {c d : Cursor}
    (h : Shape.Leads (Regex.star (.concat [escapedPair, plainRun closing]) true).ways c d) :
    ∃ input, Inner closing input ∧ c.Reads input d := by
  induction hn : c.after.length using Nat.strongRecOn generalizing c with
  | ind n ih =>
      rcases (Regex.leads_star rfl).1 h with rfl | ⟨e, hround, hrest⟩
      · exact ⟨[], .nil, .refl c⟩
      · obtain ⟨ch, s, -, hplain, hreads⟩ := leads_round.1 hround
        have hlength := hreads.length
        simp only [List.length_cons] at hlength
        obtain ⟨input, hinput, htail⟩ := ih e.after.length (by omega) hrest rfl
        exact ⟨'\\' :: ch :: s ++ input, .escaped (hinput.append hplain), hreads.trans htail⟩

/-- Plain characters, and then rounds of the repetition. -/
theorem leads_body {c d : Cursor} : Shape.Leads (body closing).ways c d ↔
    ∃ s e, (∀ c ∈ s, c ≠ closing ∧ c ≠ '\\') ∧ c.Reads s e ∧
      Shape.Leads (Regex.star (.concat [escapedPair, plainRun closing]) true).ways e d := by
  have hplain {c e : Cursor} : Shape.Leads (plainRun closing).ways c e ↔
      ∃ s, c.Reads s e ∧ ∀ ch ∈ s, ch ≠ closing ∧ ch ≠ '\\' := by
    simp only [plainRun, Shape.leads_star_char, plainRun_contains]
  rw [body, Shape.leads_cons]
  simp only [Shape.leads_singleton, hplain]
  constructor
  · rintro ⟨e, ⟨s, hs, hchars⟩, hrounds⟩
    exact ⟨s, e, hchars, hs, hrounds⟩
  · rintro ⟨s, e, hchars, hs, hrounds⟩
    exact ⟨e, ⟨s, hs, hchars⟩, hrounds⟩

/-- The text of a marker is gone through, by induction on its units: a plain character joins the plain
characters in front, an escaped one begins a round.  A dot of an expression does not stand for a newline. -/
theorem leads_body_of_inner {input : Text} (h : Inner closing input) (hline : '\n' ∉ input) :
    ∀ {c d : Cursor}, c.Reads input d → Shape.Leads (body closing).ways c d := by
  induction h with
  | nil =>
      intro c d hreads
      obtain rfl := hreads.eq_of_nil
      exact leads_body.2 ⟨[], _, nofun, .refl _, (Regex.leads_star rfl).2 (Or.inl rfl)⟩
  | @plain ch text hc hbackslash _ ih =>
      intro c d hreads
      obtain ⟨e, he, hrest⟩ := Cursor.Reads.split (s := [ch]) hreads
      obtain ⟨s, f, hs, hplain, hrounds⟩ := leads_body.1 (ih (List.not_mem_of_not_mem_cons hline) hrest)
      refine leads_body.2 ⟨[ch] ++ s, f, fun c' hc' => ?_, he.trans hplain, hrounds⟩
      rcases List.mem_cons.1 hc' with rfl | hc'
      · exact ⟨hc, hbackslash⟩
      · exact hs c' hc'
  | @escaped ch text _ ih =>
      intro c d hreads
      have hch : ch ≠ '\n' := by
        rintro rfl
        simp at hline
      have htext : '\n' ∉ text := by
        intro hmem
        simp [hmem] at hline
      obtain ⟨e, he, hrest⟩ := Cursor.Reads.split (s := ['\\', ch]) hreads
      obtain ⟨s, f, hs, hplain, hrounds⟩ := leads_body.1 (ih htext hrest)
      refine leads_body.2 ⟨[], c, nofun, .refl c, (Regex.leads_star rfl).2 (Or.inr ⟨f, ?_, hrounds⟩)⟩
      exact leads_round.2 ⟨ch, s, hch, hs, he.trans hplain⟩

/-- **The expression goes through the texts of markers** and through no other texts. -/
theorem exists_inner_of_leads_body {c d : Cursor} (h : Shape.Leads (body closing).ways c d) :
    ∃ input, Inner closing input ∧ c.Reads input d := by
  obtain ⟨s, e, hs, hreads, hrounds⟩ := leads_body.1 h
  obtain ⟨input, hinput, htail⟩ := exists_inner_of_leads_rounds hrounds
  exact ⟨s ++ input, hinput.append hs, hreads.trans htail⟩

/-- A marker goes from its opening character to its closing one. -/
theorem leads_marker {c d : Cursor} : Shape.Leads (marker opening closing).ways c d ↔
    ∃ e f, c.Reads [opening] e ∧ Shape.Leads (body closing).ways e f ∧ f.Reads [closing] d := by
  simp only [marker, Shape.leads_cons, Regex.leads_nil, exists_eq_right, Regex.leads_single,
    Regex.leads_group]
  constructor
  · rintro ⟨e, hopening, f, hbody, hclosing⟩
    exact ⟨e, f, hopening, hbody, hclosing⟩
  · rintro ⟨e, f, hopening, hbody, hclosing⟩
    exact ⟨e, hopening, f, hbody, hclosing⟩

/-- A marker in a text without newlines is gone through. -/
theorem leads_marker_of_inner {input : Text} (h : Inner closing input) (hline : '\n' ∉ input)
    {c d : Cursor} (hreads : c.Reads (opening :: input ++ [closing]) d) :
    Shape.Leads (marker opening closing).ways c d := by
  obtain ⟨f, hfront, hclosing⟩ := hreads.split
  obtain ⟨e, hopening, hinput⟩ := Cursor.Reads.split (s := [opening]) hfront
  exact leads_marker.2 ⟨e, f, hopening, leads_body_of_inner h hline hinput, hclosing⟩

variable {line : Text}

theorem newline_not_mem (hline : '\n' ∉ line) {s : Text} {d : Cursor}
    (h : (Cursor.start line).Reads s d) : '\n' ∉ d.after := by
  have hafter : line = s ++ d.after := h.after
  intro hmem
  exact hline (by rw [hafter]; exact List.mem_append_right _ hmem)

/-- The rule of a marker anywhere has a way from where a marker begins. -/
theorem ways_anywhere_iff (hline : '\n' ∉ line) (s : Text) (d : Cursor)
    (h : (Cursor.start line).Reads s d) :
    (delimited opening closing).anywhere.ways d ≠ [] ↔ Begins opening closing d.after := by
  have hnewline := newline_not_mem hline h
  rw [Regex.ways_ne_nil_iff]
  constructor
  · rintro ⟨e, hleads⟩
    obtain ⟨f, g, hopening, hbody, hclosing⟩ := leads_marker.1 hleads
    obtain ⟨input, hinner, hinput⟩ := exists_inner_of_leads_body hbody
    refine ⟨input, e.after, ?_, hinner⟩
    have hafter := ((hopening.trans hinput).trans hclosing).after
    simpa using hafter
  · rintro ⟨input, back, hafter, hinner⟩
    have hsplit : d.after = (opening :: input ++ [closing]) ++ back := by simpa using hafter
    refine ⟨_, leads_marker_of_inner hinner (fun hmem => hnewline ?_) (Cursor.reads_past hsplit)⟩
    rw [hafter]
    simp [hmem]

/-- The rule of a marker at the end of a line has a way from where such a marker begins. -/
theorem ways_closing_iff (hline : '\n' ∉ line) (s : Text) (d : Cursor)
    (h : (Cursor.start line).Reads s d) :
    (delimited opening closing).closing.ways d ≠ [] ↔ Closing opening closing d.after := by
  have hnewline := newline_not_mem hline h
  constructor
  · intro hways
    obtain ⟨w, hw⟩ := List.exists_mem_of_ne_nil _ hways
    obtain ⟨input, spacing, e, f, hopening, hbody, hinput, hclosing, hspaces, hend, -, -⟩ :=
      exists_of_mem_ways hw
    obtain ⟨input', hinner, hinput'⟩ := exists_inner_of_leads_body hbody
    have hsame : input' = input :=
      (Span.text_of_reads hinput').symm.trans (Span.text_of_reads hinput)
    have hafter := ((hopening.trans hinput).trans hclosing).after
    rw [hend, List.append_nil] at hafter
    exact ⟨input, spacing, hafter, hsame ▸ hinner, hspaces⟩
  · rintro ⟨input, spacing, hafter, hinner, hspaces⟩
    have hsplit : d.after = (opening :: input ++ [closing]) ++ spacing := by simpa using hafter
    have hmarker := Cursor.reads_past hsplit
    have hspacing : Cursor.Reads (d.past (opening :: input ++ [closing]) spacing) spacing
        ((d.past (opening :: input ++ [closing]) spacing).past spacing []) :=
      Cursor.reads_past (List.append_nil spacing).symm
    have hleads := leads_marker_of_inner hinner (fun hmem => hnewline (by rw [hafter]; simp [hmem])) hmarker
    refine Regex.ways_ne_nil_iff.2 ⟨_, Shape.leads_cons.2 ⟨_, hleads, Shape.leads_cons.2 ⟨_,
      Regex.leads_group.2 (Shape.leads_star_char.2 ⟨spacing, hspacing, fun c hc => ?_⟩),
      Shape.leads_singleton.2 (Shape.leads_assert.2 ⟨Shape.holds_textEnd.2 rfl, rfl⟩)⟩⟩⟩
    rw [CharClass.single_contains, hspaces c hc]
    rfl

/-! ### The recogniser -/

/-- The place of the first marker in a line. -/
theorem find?_first_iff (hline : '\n' ∉ line) {start : Nat} :
    ((delimited opening closing).find? line).map (Text.byteOffset line) = some start ↔
      ∃ back, Text.First (Begins opening closing) line start back := by
  have hsteady : (delimited opening closing).anywhere.steady := rfl
  constructor
  · intro h
    rw [find?, Option.map_map] at h
    obtain ⟨m, hm, hstart⟩ := Option.map_eq_some_iff.1 h
    obtain ⟨d, w, -, -, hfirst⟩ := Regex.exists_first_of_search hsteady (ways_anywhere_iff hline) hm
    exact ⟨d.after, hstart ▸ hfirst⟩
  · rintro ⟨back, hback⟩
    obtain ⟨m, hm⟩ := Regex.exists_search_of_first hsteady (ways_anywhere_iff hline) hback
    obtain ⟨d, w, -, -, hfirst⟩ := Regex.exists_first_of_search hsteady (ways_anywhere_iff hline) hm
    rw [find?, hm, (hback.unique hfirst).1]
    rfl

/-- The place of the marker that closes a line, with its text and the spaces behind it. -/
theorem trailing?_first_iff (hclosing : closing ≠ '\\') (hline : '\n' ∉ line) {start : Nat}
    {input spacing : Text} :
    ((delimited opening closing).trailing? line).map
        (fun marker => (Text.byteOffset line marker.start, marker.input, marker.spacing)) =
      some (start, input, spacing) ↔
    ∃ back, Text.First (Closing opening closing) line start back ∧
      Closes opening closing input spacing back := by
  have hfound {m : Match} (hm : (delimited opening closing).closing.search line = some m) :
      ∃ back, Text.First (Closing opening closing) line (Text.byteOffset line m.span.start.offset) back ∧
        Closes opening closing (groupText m inputGroup) (groupText m spacingGroup) back := by
    obtain ⟨d, w, hw, rfl, hfirst⟩ :=
      Regex.exists_first_of_search steady_delimited (ways_closing_iff hline) hm
    obtain ⟨input, spacing, e, f, hopening, hbody, hinput, hend, hspaces, hstop, rfl, rfl⟩ :=
      exists_of_mem_ways (List.mem_of_head? hw)
    obtain ⟨input', hinner, hinput'⟩ := exists_inner_of_leads_body hbody
    have hafter := ((hopening.trans hinput).trans hend).after
    rw [hstop, List.append_nil] at hafter
    rw [(Span.text_of_reads hinput').symm.trans (Span.text_of_reads hinput)] at hinner
    exact ⟨d.after, hfirst, hafter, hinner, hspaces⟩
  constructor
  · intro h
    rw [trailing?, Option.map_map] at h
    obtain ⟨m, hm, hmarker⟩ := Option.map_eq_some_iff.1 h
    obtain ⟨rfl, hgroups⟩ := Prod.mk.inj hmarker
    obtain ⟨rfl, rfl⟩ := Prod.mk.inj hgroups
    exact hfound hm
  · rintro ⟨back, hback, hcloses⟩
    obtain ⟨m, hm⟩ := Regex.exists_search_of_first steady_delimited (ways_closing_iff hline) hback
    obtain ⟨back', hback', hcloses'⟩ := hfound hm
    obtain ⟨hstart, rfl⟩ := hback.unique hback'
    obtain ⟨rfl, rfl⟩ := hcloses.unique hclosing hcloses'
    rw [trailing?, hm, hstart]
    rfl

/-- **Markers are recognised by their grammar.**  Let the closing character be no backslash, and the line
without newlines.  The rule of a marker at the end of the line gives a place, a text and spaces exactly if the
place, in bytes, is the first one from which on the line is the opening character, the text of a marker, the
closing character and spaces; from there on it is so in one way only.  The rule of a marker anywhere gives the
first place from which on the line begins with a marker, which is not behind the marker at the end.  The two
characters may be equal and may have a meaning in expressions: the sources of the rules escape them. -/
theorem recognises_markers (hclosing : closing ≠ '\\') (hline : '\n' ∉ line) :
    (∀ start input spacing, ((delimited opening closing).trailing? line).map
        (fun marker => (Text.byteOffset line marker.start, marker.input, marker.spacing)) =
          some (start, input, spacing) ↔
      ∃ back, Text.First (Closing opening closing) line start back ∧
        Closes opening closing input spacing back) ∧
    (∀ text input spacing input' spacing', Closes opening closing input spacing text →
      Closes opening closing input' spacing' text → input = input' ∧ spacing = spacing') ∧
    (∀ start, ((delimited opening closing).find? line).map (Text.byteOffset line) = some start ↔
      ∃ back, Text.First (Begins opening closing) line start back) ∧
    (∀ marker, (delimited opening closing).trailing? line = some marker →
      ∃ start, (delimited opening closing).find? line = some start ∧
        Text.byteOffset line start ≤ Text.byteOffset line marker.start) ∧
    ∃ rule, read (anywhereSource opening closing) (closingSource opening closing) = .ok rule ∧
      rule.find? line = (delimited opening closing).find? line ∧
      rule.trailing? line = (delimited opening closing).trailing? line := by
  refine ⟨fun start input spacing => trailing?_first_iff hclosing hline,
    fun text input spacing input' spacing' h h' => h.unique hclosing h', fun start => find?_first_iff hline,
    fun marker hmarker => ?_, written opening closing, read_sources opening closing,
    agree_written opening closing line⟩
  have hbytes : ((delimited opening closing).trailing? line).map
      (fun marker => (Text.byteOffset line marker.start, marker.input, marker.spacing)) =
      some (Text.byteOffset line marker.start, marker.input, marker.spacing) := by
    rw [hmarker]
    rfl
  obtain ⟨back, hfirst, hcloses⟩ := (trailing?_first_iff hclosing hline).1 hbytes
  obtain ⟨front, hfront, hstart⟩ := hfirst.split
  have hread : (Cursor.start line).Reads front ((Cursor.start line).past front back) :=
    Cursor.reads_past hfront
  have hways : (delimited opening closing).anywhere.ways ((Cursor.start line).past front back) ≠ [] :=
    (ways_anywhere_iff hline _ _ hread).2 hcloses.begins
  obtain ⟨m, hm⟩ := Option.isSome_iff_exists.1
    ((Regex.isSome_searchFrom_iff (r := (delimited opening closing).anywhere) rfl).2 ⟨front, _, hread, hways⟩)
  obtain ⟨d, w, -, -, hleft⟩ := Regex.exists_first_of_search rfl (ways_anywhere_iff hline) hm
  refine ⟨m.span.start.offset, ?_, ?_⟩
  · rw [find?, Regex.search, hm]
    rfl
  · rw [← hstart]
    exact hleft.least front back hfront hcloses.begins

/-- Equal characters with a meaning in expressions, one of which a backslash takes along, and a character of
two bytes in front. -/
theorem recognises_markers_bars :
    let line := "ü|a| |b\\|c|  ".toList
    '|' ≠ '\\' ∧ '\n' ∉ line ∧
    (∃ back, Text.First (Closing '|' '|') line 6 back ∧
      Closes '|' '|' "b\\|c".toList "  ".toList back) ∧
    ∃ back, Text.First (Begins '|' '|') line 2 back := by
  intro line
  have hclosing : '|' ≠ '\\' := by decide
  have hline : '\n' ∉ line := by decide
  obtain ⟨htrailing, -, hfind, -⟩ := @recognises_markers '|' '|' line hclosing hline
  exact ⟨hclosing, hline, (htrailing 6 _ _).1 (by decide +kernel), (hfind 2).1 (by decide +kernel)⟩

end InputRule

end Transcript
