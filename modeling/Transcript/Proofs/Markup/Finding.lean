/-
**Finding a tag and naming it agree.**

A tag is found in the midst of a word, and its name is read by a second search in the text of the tag alone.
With tags between two characters both searches choose the same tag, even where a delimiter may itself stand
in a name and several closings compete.  Where neither delimiter may stand in a name, no tag reaches into
another one, so every name between the delimiters is found.

Main definitions:

* `Transcript.TagRule.isName` — the names of tags.

Main results:

* `Transcript.TagRule.exists_of_mem_findAll_delimited` — what is found is a name between the delimiters, and
  is named so;
* `Transcript.TagRule.exists_mem_findAll_delimited` — **every name between the delimiters is found** where
  neither may stand in a name;
* `Transcript.TagRule.findAll_agrees` — **finding a tag and naming it agree**.
-/

import Transcript.Proofs.Markup.Naming
import Transcript.Proofs.Markup.Sources

set_option relaxedAutoImplicit false
set_option autoImplicit false

namespace Transcript

namespace TagRule

/-! ### Names -/

/-- The character may stand in a name: a letter or a digit of ASCII, a colon, a dot or a dash. -/
def isNameChar (c : Char) : Bool := c.isAlphanum || c = ':' || c = '.' || c = '-'

/-- The text is a name, which does not begin with a digit, a colon or a dash. -/
def isName : Text → Bool
  | [] => false
  | first :: rest => (first.isAlpha || first = '.') && rest.all isNameChar

theorem range_contains_upper (c : Char) : (CharClass.range 'A' 'Z').contains c = c.isUpper := by
  have hupper : c.isUpper = decide ('A' ≤ c ∧ c ≤ 'Z') := rfl
  rw [hupper, Bool.decide_and]
  rfl

theorem nameHead_contains (c : Char) : nameHead.contains c = (c.isAlpha || c = '.') := by
  have halpha : c.isAlpha = (c.isUpper || c.isLower) := rfl
  have hlower : (CharClass.range 'a' 'z').contains c = c.isLower := rfl
  simp only [nameHead, CharClass.oneOf_contains, List.any_cons, List.any_nil, Bool.or_false, range_contains_upper,
    hlower, CharClass.single_contains, halpha, Bool.or_assoc]

theorem nameTail_contains (c : Char) : nameTail.contains c = isNameChar c := by
  have halpha : c.isAlpha = (c.isUpper || c.isLower) := rfl
  have hlower : (CharClass.range 'a' 'z').contains c = c.isLower := rfl
  have hdigit : (CharClass.range '0' '9').contains c = c.isDigit := rfl
  simp only [nameTail, CharClass.oneOf_contains, List.any_cons, List.any_nil, Bool.or_false, range_contains_upper,
    hlower, hdigit, CharClass.single_contains, isNameChar, Char.isAlphanum, halpha, Bool.or_assoc]

/-- A name is a first character and others. -/
theorem isName_iff {name : Text} : isName name = true ↔
    ∃ first rest, name = first :: rest ∧ nameHead.contains first = true ∧
      ∀ ch ∈ rest, nameTail.contains ch = true := by
  cases name with
  | nil => simp [isName]
  | cons first rest => simp [isName, nameHead_contains, nameTail_contains]

theorem isNameChar_of_mem {name : Text} (h : isName name = true) {c : Char} (hc : c ∈ name) :
    isNameChar c = true := by
  obtain ⟨first, rest, rfl, hfirst, hrest⟩ := isName_iff.1 h
  rcases List.mem_cons.1 hc with rfl | hc
  · rw [nameHead_contains, Bool.or_eq_true, decide_eq_true_eq] at hfirst
    rcases hfirst with hfirst | rfl
    · simp [isNameChar, Char.isAlphanum, hfirst]
    · rfl
  · rw [← nameTail_contains]
    exact hrest c hc

variable {opening closing : Char}

/-- What a tag goes through is a name between the delimiters. -/
theorem leads_delimited_iff {c d : Cursor} :
    Shape.Leads (delimited opening closing).regex.ways c d ↔
      ∃ name, isName name = true ∧ c.Reads (opening :: name ++ [closing]) d := by
  rw [leads_delimited]
  constructor
  · rintro ⟨first, rest, hfirst, hrest, hreads⟩
    exact ⟨first :: rest, isName_iff.2 ⟨first, rest, rfl, hfirst, hrest⟩, hreads⟩
  · rintro ⟨name, hname, hreads⟩
    obtain ⟨first, rest, rfl, hfirst, hrest⟩ := isName_iff.1 hname
    exact ⟨first, rest, hfirst, hrest, hreads⟩

/-! ### What is found -/

/-- A tag that is found is a name between the delimiters, and in its own text it is named so. -/
theorem named_of_mem_findAll {text : Text} {span : Span}
    (h : span ∈ (delimited opening closing).findAll text) :
    ∃ name, isName name = true ∧ span.text = opening :: name ++ [closing] ∧
      (delimited opening closing).nameOf? span.text = some name := by
  obtain ⟨first, rest, hfirst, hrest, hreads⟩ := exists_of_mem_findAll h
  have htext : span.text = opening :: first :: rest ++ [closing] := Span.text_of_reads hreads
  exact ⟨first :: rest, isName_iff.2 ⟨first, rest, rfl, hfirst, hrest⟩, htext,
    htext ▸ nameOf?_delimited hfirst hrest⟩

theorem exists_of_mem_findAll_delimited {text : Text} {span : Span}
    (h : span ∈ (delimited opening closing).findAll text) :
    ∃ front name back, isName name = true ∧ text = front ++ (opening :: name ++ [closing]) ++ back ∧
      span.start.offset = front.length ∧
      span.stop.offset = (front ++ (opening :: name ++ [closing])).length ∧
      span.text = opening :: name ++ [closing] ∧
      (delimited opening closing).nameOf? span.text = some name := by
  obtain ⟨name, hname, htext, hnamed⟩ := named_of_mem_findAll h
  have hspans := Regex.successive_findAll (delimited opening closing).regex text
  obtain ⟨front, tag, hfront, htag⟩ := hspans.reads_of_mem h
  obtain rfl : tag = opening :: name ++ [closing] := (Span.text_of_reads htag).symm.trans htext
  have hwhole := hfront.trans htag
  exact ⟨front, name, span.stop.after, hname, hwhole.after, hfront.offset_start, hwhole.offset_start,
    htext, hnamed⟩

/-! ### Where no tag reaches into another one -/

/-- Two names in front of the same delimiter are one name, if it may not stand in a name. -/
theorem name_unique {name name' back back' : Text} (hclosing : isNameChar closing = false)
    (hname : isName name = true) (hname' : isName name' = true)
    (h : name ++ closing :: back = name' ++ closing :: back') : name = name' := by
  have htake {name : Text} (hname : isName name = true) (back : Text) :
      (name ++ closing :: back).takeWhile isNameChar = name := by
    rw [List.takeWhile_append_of_pos fun c hc => isNameChar_of_mem hname hc,
      List.takeWhile_cons_of_neg (by simp [hclosing]), List.append_nil]
  rw [← htake hname back, h, htake hname' back']

/-- No tag reaches into one further right, if the opening delimiter is not the closing one and may not stand
in a name. -/
theorem reads_of_way {d e : Cursor} {name : Text} {s : Text} {v : Way} (hne : opening ≠ closing)
    (hopening : isNameChar opening = false) (hd : d.after.head? = some opening)
    (hname : isName name = true) (hv : e.Reads (opening :: name ++ [closing]) v.stop)
    (hs : e.Reads s d) (hlt : e.offset < d.offset) : ∃ s, v.stop.Reads s d := by
  by_cases hle : (opening :: name ++ [closing]).length ≤ s.length
  · obtain ⟨u, -, hu⟩ := hv.compare hs hle
    exact ⟨u, hu⟩
  · -- otherwise the opening delimiter stands in the name or closes the tag
    exfalso
    obtain ⟨u, hu, hstop⟩ := hs.compare hv (by omega)
    have hoffset := hs.offset
    obtain ⟨ch, s, rfl⟩ := List.exists_cons_of_length_pos (l := s) (by omega)
    have hnonempty : u ≠ [] := by
      rintro rfl
      rw [List.append_nil] at hu
      exact hle (Nat.le_of_eq (congrArg List.length hu))
    obtain ⟨x, u, rfl⟩ := List.exists_cons_of_ne_nil hnonempty
    have hx : x = opening := by
      rw [hstop.after, List.cons_append, List.head?_cons] at hd
      exact Option.some.inj hd
    have hmem : opening ∈ name ++ [closing] := by
      have hrest : name ++ [closing] = s ++ x :: u := (List.cons.inj hu).2
      rw [hrest, hx]
      simp
    rcases List.mem_append.1 hmem with hmem | hmem
    · rw [isNameChar_of_mem hname hmem] at hopening
      cases hopening
    · exact hne (List.mem_singleton.1 hmem)

/-- **Every name between the delimiters is found** where they are different and neither may stand in a
name. -/
theorem exists_mem_findAll_delimited (hne : opening ≠ closing) (hopening : isNameChar opening = false)
    (hclosing : isNameChar closing = false) {text front name back : Text} (hname : isName name = true)
    (htext : text = front ++ (opening :: name ++ [closing]) ++ back) :
    ∃ span ∈ (delimited opening closing).findAll text, span.start.offset = front.length ∧
      span.stop.offset = (front ++ (opening :: name ++ [closing])).length := by
  have hwhole : (Cursor.start text).Reads (front ++ (opening :: name ++ [closing])) _ :=
    Cursor.reads_past htext
  obtain ⟨d, hfront, htag⟩ := hwhole.split
  obtain ⟨u, hu, -⟩ := leads_delimited_iff.2 ⟨name, hname, htag⟩
  obtain ⟨w, hhead⟩ := Option.isSome_iff_exists.1 (List.isSome_head?.2 (List.ne_nil_of_mem hu))
  have hafter : d.after.head? = some opening := by
    rw [htag.after]
    rfl
  have hmem := Regex.mem_findAll (r := (delimited opening closing).regex) steady_delimited rfl hfront hhead
    fun e v hv hlt ⟨s, hs⟩ => by
      obtain ⟨name', hname', hreads⟩ := leads_delimited_iff.1 ⟨v, hv, rfl⟩
      exact reads_of_way hne hopening hafter hname' hreads hs hlt
  -- the preferred tag from there has the same name
  obtain ⟨name', hname', hreads⟩ := leads_delimited_iff.1 ⟨w, List.mem_of_head? hhead, rfl⟩
  have hsame := htag.after.symm.trans hreads.after
  simp only [List.cons_append, List.append_assoc, List.cons.injEq, true_and] at hsame
  obtain rfl := name_unique hclosing hname hname' hsame
  exact ⟨_, List.mem_map_of_mem hmem, hfront.offset_start, (hfront.trans hreads).offset_start⟩

/-- **Finding a tag and naming it agree.**  Between any two characters, each tag that is found in a text is a
name between them, and its own text is given this name; so is the text of each tag among the tokens.  The tags
are not empty, follow one another without overlapping, and the first one is where a tag is found at all.  If
the characters are different and neither may stand in a name, all names between them are found.  Both
characters may have a meaning in expressions: the source of the rule escapes them. -/
theorem findAll_agrees (opening closing : Char) (text : Text) :
    (∀ span ∈ (delimited opening closing).findAll text, ∃ front name back, isName name = true ∧
      text = front ++ (opening :: name ++ [closing]) ++ back ∧ span.start.offset = front.length ∧
      span.stop.offset = (front ++ (opening :: name ++ [closing])).length ∧
      span.text = opening :: name ++ [closing] ∧
      (delimited opening closing).nameOf? span.text = some name) ∧
    ((delimited opening closing).findAll text).Pairwise
      (fun span span' => span.stop.offset ≤ span'.start.offset) ∧
    (delimited opening closing).find? text =
      ((delimited opening closing).findAll text).head?.map (·.start.offset) ∧
    (opening ≠ closing → isNameChar opening = false → isNameChar closing = false →
      ∀ front name back, isName name = true →
        text = front ++ (opening :: name ++ [closing]) ++ back →
        ∃ span ∈ (delimited opening closing).findAll text, span.start.offset = front.length ∧
          span.stop.offset = (front ++ (opening :: name ++ [closing])).length) ∧
    (∀ (config : Config) (switches : Switches), config.tags = delimited opening closing →
      ∀ t ∈ Lexeme.tokens (Lexeme.ofText config switches text), t.kind = .tag →
        ∃ name, isName name = true ∧ t.text = opening :: name ++ [closing] ∧
          config.tags.nameOf? t.text = some name) ∧
    ∃ rule, read (source opening closing) = .ok rule ∧
      rule.findAll text = (delimited opening closing).findAll text ∧
      rule.find? text = (delimited opening closing).find? text ∧
      ∀ tag, rule.nameOf? tag = (delimited opening closing).nameOf? tag := by
  refine ⟨fun span => exists_of_mem_findAll_delimited, (Regex.successive_findAll _ text).pairwise, ?_,
    fun hne hopening hclosing front name back => exists_mem_findAll_delimited hne hopening hclosing,
    fun config switches htags t ht hkind => ?_, written opening closing, read_source opening closing, ?_⟩
  · rw [find?, findAll, Regex.findAll]
    cases (delimited opening closing).regex.search text <;> rfl
  · obtain ⟨word, span, hspan, htext⟩ := Lexeme.exists_span_of_mem_ofText ht hkind
    rw [htags] at hspan ⊢
    rw [htext]
    exact named_of_mem_findAll hspan
  · obtain ⟨hall, hfirst, -⟩ := agree_written opening closing text
    exact ⟨hall, hfirst, fun tag => (agree_written opening closing tag).2.2⟩

/-- Delimiters that may stand in a name, and delimiters that may not, in the same text. -/
theorem findAll_agrees_letters :
    let text := "xaab.bb <ab> a-b".toList
    ((delimited 'a' 'b').findAll text).map Span.text = ["aab.bb".toList] ∧
    (∀ span ∈ (delimited 'a' 'b').findAll text, ∃ name, isName name = true ∧
      span.text = 'a' :: name ++ ['b'] ∧ (delimited 'a' 'b').nameOf? span.text = some name) ∧
    ∃ span ∈ (delimited '<' '>').findAll text, span.start.offset = 8 ∧ span.stop.offset = 12 := by
  intro text
  obtain ⟨hletters, -⟩ := findAll_agrees 'a' 'b' text
  obtain ⟨-, -, -, hangles, -⟩ := findAll_agrees '<' '>' text
  refine ⟨by decide +kernel, fun span hspan => ?_, ?_⟩
  · obtain ⟨-, name, -, hname, -, -, -, htext, hnamed⟩ := hletters span hspan
    exact ⟨name, hname, htext, hnamed⟩
  · exact hangles (by decide) (by decide) (by decide) "xaab.bb ".toList "ab".toList " a-b".toList
      (by decide) (by decide)

end TagRule

end Transcript
