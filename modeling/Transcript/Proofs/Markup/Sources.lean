/-
**The usual rules as they are written.**

The rules of tags and inputs between two characters are written as sources, in which both characters are
escaped, outside brackets and inside.  Whatever the characters are, each source is read as an expression that
has the same ways as the one of the rule, so that a search cannot tell them apart.

Main definitions:

* `Transcript.TagRule.written`, `Transcript.InputRule.written` — the rules that the sources are read as.

Main results:

* `Transcript.Reader.feed_escapeRuleChar`, `Transcript.Reader.feed_plainSource` — the reader takes an escaped
  character for itself, outside brackets and inside;
* `Transcript.TagRule.read_source`, `Transcript.InputRule.read_sources` — **what the sources are read as**;
* `Transcript.TagRule.search_written`, `Transcript.InputRule.search_written` — and what is found by them.
-/

import Transcript.Markup.Config
import Transcript.Proofs.Regex.Leftmost
import Transcript.Proofs.Regex.Reading

set_option relaxedAutoImplicit false
set_option autoImplicit false

namespace Transcript

/-! ### Characters that are escaped -/

namespace Regex

theorem isRuleMeta_iff {c : Char} : isRuleMeta c = true ↔
    c ∈ ['\\', '.', '+', '*', '?', '(', ')', '|', '[', ']', '{', '}', '^', '$', '#', '&', '-', '~'] := by
  simp only [isRuleMeta, isMeta, metaChars, List.contains_iff_mem, Bool.or_eq_true, decide_eq_true_eq,
    List.mem_cons, List.not_mem_nil, or_false, or_assoc]

end Regex

namespace Reader

variable (names : List Text) (frame : Frame) (outer : List Frame)

/-- The reader takes an escaped character for itself. -/
theorem feed_escapeRuleChar (c : Char) :
    feed .rule (Regex.escapeRuleChar c) (resting names frame outer) =
      some (resting names (frame.push (Regex.single c)) outer) := by
  unfold Regex.escapeRuleChar
  by_cases hmeta : Regex.isRuleMeta c = true
  · rw [if_pos hmeta]
    have hmem := Regex.isRuleMeta_iff.1 hmeta
    simp only [List.mem_cons, List.not_mem_nil, or_false] at hmem
    rcases hmem with rfl | rfl | rfl | rfl | rfl | rfl | rfl | rfl | rfl | rfl | rfl | rfl | rfl |
      rfl | rfl | rfl | rfl | rfl <;> rfl
  · rw [if_neg hmeta]
    have hmem := mt Regex.isRuleMeta_iff.2 hmeta
    simp only [List.mem_cons, List.not_mem_nil, or_false, not_or] at hmem
    have hplain : plain? .rule (resting names frame outer) c =
        some ((resting names frame outer).pushChar c) := by
      unfold plain?
      split <;> simp_all
    change (plain? .rule (resting names frame outer) c).bind some = _
    rw [hplain]
    rfl

/-- At the front of negated brackets an escaped character stands for itself too. -/
theorem feed_negated (c : Char) :
    feed .rule (Regex.escapeRuleChar c)
        ⟨.bracketed ⟨.negated, ⟨true, none, .empty⟩, []⟩, false, names, frame, outer⟩ =
      some ⟨.bracketed ⟨.low (.char c), ⟨true, none, .empty⟩, []⟩, false, names, frame, outer⟩ := by
  unfold Regex.escapeRuleChar
  by_cases hmeta : Regex.isRuleMeta c = true
  · rw [if_pos hmeta]
    have hmem := Regex.isRuleMeta_iff.1 hmeta
    simp only [List.mem_cons, List.not_mem_nil, or_false] at hmem
    rcases hmem with rfl | rfl | rfl | rfl | rfl | rfl | rfl | rfl | rfl | rfl | rfl | rfl | rfl |
      rfl | rfl | rfl | rfl | rfl <;> rfl
  · rw [if_neg hmeta]
    have hmem := mt Regex.isRuleMeta_iff.2 hmeta
    simp only [List.mem_cons, List.not_mem_nil, or_false, not_or] at hmem
    simp [feed, step?, ClassReader.step?, ClassReader.front, ClassReader.ready, ClassOp.ofSign?, hmem]

/-- The characters other than the closing one and the backslash, as the reader builds their class. -/
def plainClass (closing : Char) : CharClass :=
  .compl (.union (.union .empty (.single closing)) (.single '\\'))

theorem feed_plainSource (closing : Char) :
    feed .rule (InputRule.plainSource closing) (resting names frame outer) =
      some ⟨.quantified .star (.char (plainClass closing)), false, names, frame, outer⟩ := by
  have hopen : feed .rule "[^".toList (resting names frame outer) =
      some ⟨.bracketed ⟨.negated, ⟨true, none, .empty⟩, []⟩, false, names, frame, outer⟩ := rfl
  have hclose : feed .rule "\\\\]*".toList
      ⟨.bracketed ⟨.low (.char closing), ⟨true, none, .empty⟩, []⟩, false, names, frame, outer⟩ =
      some ⟨.quantified .star (.char (plainClass closing)), false, names, frame, outer⟩ := rfl
  rw [InputRule.plainSource, feed_append, feed_append, hopen, Option.bind_some, feed_negated,
    Option.bind_some, hclose]

end Reader

/-! ### Expressions with the same ways -/

namespace Regex

/-- The ways of a character are said by the members of its class. -/
theorem ways_char_congr {cls cls' : CharClass} (h : ∀ ch, cls.contains ch = cls'.contains ch) :
    (char cls).ways = (char cls').ways := by
  funext c
  rcases c.exists_reads with hafter | ⟨ch, d, hreads⟩
  · rw [ways_char_of_nil hafter, ways_char_of_nil hafter]
  · rw [ways_char_of_reads hreads, ways_char_of_reads hreads, h]

theorem ways_seq_congr {a a' b b' : Regex} (ha : a.ways = a'.ways) (hb : b.ways = b'.ways) :
    (seq a b).ways = (seq a' b').ways := by
  funext c
  rw [ways_seq, ways_seq, ha, hb]

theorem ways_star_congr {a a' : Regex} {greedy : Bool} (h : a.ways = a'.ways) :
    (star a greedy).ways = (star a' greedy).ways := by
  funext c
  simp only [ways, h]

theorem ways_group_congr {a a' : Regex} {name : Text} (h : a.ways = a'.ways) :
    (group name a).ways = (group name a').ways :=
  ways_seq_congr rfl (ways_seq_congr h rfl)

/-- A sequence in a sequence may be written out. -/
theorem ways_concat_cons_concat (rs rest : List Regex) :
    (concat (concat rs :: rest)).ways = (concat (rs ++ rest)).ways := by
  funext c
  rw [ways_concat_append]
  rfl

end Regex

/-! ### Tags -/

namespace TagRule

/-- The rule of tags between two characters as it is read. -/
def written (opening closing : Char) : TagRule :=
  ⟨.concat [.single opening,
    .group nameGroup (.concat
      [.char (.union (.union (.union .empty (.range 'A' 'Z')) (.range 'a' 'z')) (.single '.')),
        .star (.char (.union (.union (.union (.union (.union (.union .empty (.range 'A' 'Z'))
          (.range 'a' 'z')) (.range '0' '9')) (.single ':')) (.single '.')) (.single '-'))) true]),
    .single closing]⟩

/-- **What the source of a rule of tags is read as.** -/
theorem read_source (opening closing : Char) :
    read (source opening closing) = .ok (written opening closing) := by
  have hname (frame : Frame) :
      Reader.feed .rule "(?P<name>[A-Za-z.][A-Za-z0-9:.-]*)".toList (Reader.resting [] frame []) =
        some (Reader.resting [nameGroup] (frame.push (.group nameGroup (.concat
          [.char (.union (.union (.union .empty (.range 'A' 'Z')) (.range 'a' 'z')) (.single '.')),
            .star (.char (.union (.union (.union (.union (.union (.union .empty (.range 'A' 'Z'))
              (.range 'a' 'z')) (.range '0' '9')) (.single ':')) (.single '.')) (.single '-')))
              true]))) []) := rfl
  have hread : Regex.read? .rule (source opening closing) = some (written opening closing).regex := by
    have hstart : Reader.start = Reader.resting [] (.fresh .plain false) [] := rfl
    rw [Regex.read?, source, Reader.feed_append, Reader.feed_append, hstart, Reader.feed_escapeRuleChar,
      Option.bind_some, hname, Option.bind_some, Reader.feed_escapeRuleChar, Option.bind_some]
    rfl
  rw [read, hread]
  rfl

/-- **A search cannot tell** the rule as it is read from the rule. -/
theorem search_written (opening closing : Char) (c : Cursor) :
    (written opening closing).regex.searchFrom c = (delimited opening closing).regex.searchFrom c := by
  refine Regex.searchFrom_congr rfl rfl (fun c => ?_) c
  refine congrFun (Regex.ways_seq_congr rfl (Regex.ways_seq_congr (Regex.ways_group_congr
    (Regex.ways_seq_congr (Regex.ways_char_congr fun ch => ?_) (Regex.ways_seq_congr
      (Regex.ways_star_congr (Regex.ways_char_congr fun ch => ?_)) rfl))) rfl)) c
  · simp [nameHead, CharClass.oneOf, CharClass.contains, Bool.or_assoc]
  · simp [nameTail, CharClass.oneOf, CharClass.contains, Bool.or_assoc]

/-- The rule as it is read finds the same tags and names them alike. -/
theorem agree_written (opening closing : Char) (text : Text) :
    (written opening closing).findAll text = (delimited opening closing).findAll text ∧
      (written opening closing).find? text = (delimited opening closing).find? text ∧
      (written opening closing).nameOf? text = (delimited opening closing).nameOf? text := by
  have hsearch := search_written opening closing
  refine ⟨?_, ?_, ?_⟩
  · rw [findAll, Regex.findAll_congr hsearch, findAll]
  · rw [find?, Regex.search, hsearch, find?, Regex.search]
  · rw [nameOf?, Regex.search, hsearch, nameOf?, Regex.search]

end TagRule

/-! ### Inputs -/

namespace InputRule

/-- The text of a marker as it is read. -/
def bodyWritten (closing : Char) : Regex :=
  .concat [.star (.char (Reader.plainClass closing)) true,
    .star (.concat [.single '\\', .char .inLine, .star (.char (Reader.plainClass closing)) true]) true]

/-- The parts of a marker as they are read. -/
def markerWritten (opening closing : Char) : List Regex :=
  [.single opening, .group inputGroup (bodyWritten closing), .single closing]

/-- The rule of inputs between two characters as it is read. -/
def written (opening closing : Char) : InputRule where
  anywhere := .concat (markerWritten opening closing)
  closing := .concat (markerWritten opening closing ++
    [.group spacingGroup (.concat [.star (.char (.union .empty (.single ' '))) true]), .assert .textEnd])

theorem feed_anywhereSource (opening closing : Char) :
    Reader.feed .rule (anywhereSource opening closing) Reader.start =
      some (Reader.resting [inputGroup]
        ⟨.plain, false, [], (markerWritten opening closing).reverse⟩ []) := by
  have hstart : Reader.start = Reader.resting [] ⟨.plain, false, [], []⟩ [] := rfl
  have hgroup : Reader.feed .rule "(?P<input>".toList
      (Reader.resting [] ⟨.plain, false, [], [.single opening]⟩ []) =
      some (Reader.resting [inputGroup] (.fresh (.named inputGroup) false)
        [⟨.plain, false, [], [.single opening]⟩]) := rfl
  have hescape : Reader.feed .rule "(?:\\\\.".toList ⟨.quantified .star (.char (Reader.plainClass closing)),
      false, [inputGroup], .fresh (.named inputGroup) false, [⟨.plain, false, [], [.single opening]⟩]⟩ =
      some (Reader.resting [inputGroup] ⟨.plain, false, [], [.char .inLine, .single '\\']⟩
        [⟨.named inputGroup, false, [], [.star (.char (Reader.plainClass closing)) true]⟩,
          ⟨.plain, false, [], [.single opening]⟩]) := rfl
  have hclose : Reader.feed .rule ")*)".toList ⟨.quantified .star (.char (Reader.plainClass closing)),
      false, [inputGroup], ⟨.plain, false, [], [.char .inLine, .single '\\']⟩,
        [⟨.named inputGroup, false, [], [.star (.char (Reader.plainClass closing)) true]⟩,
          ⟨.plain, false, [], [.single opening]⟩]⟩ =
      some (Reader.resting [inputGroup] ⟨.plain, false, [],
        [.group inputGroup (bodyWritten closing), .single opening]⟩ []) := rfl
  rw [anywhereSource, hstart]
  simp only [Reader.feed_append, Reader.feed_escapeRuleChar, Reader.feed_plainSource, Frame.push,
    Option.bind_some, hgroup, hescape, hclose]
  rfl

/-- **What the sources of a rule of inputs are read as.** -/
theorem read_sources (opening closing : Char) :
    read (anywhereSource opening closing) (closingSource opening closing) =
      .ok (written opening closing) := by
  have hanywhere : Regex.read? .rule (anywhereSource opening closing) =
      some (written opening closing).anywhere := by
    rw [Regex.read?, feed_anywhereSource, Option.bind_some]
    rfl
  have hclosing : Regex.read? .rule (closingSource opening closing) =
      some (written opening closing).closing := by
    rw [Regex.read?, closingSource, Reader.feed_append, feed_anywhereSource, Option.bind_some]
    rfl
  simp only [read, hanywhere, hclosing]
  rfl

theorem ways_bodyWritten (closing : Char) : (bodyWritten closing).ways = (body closing).ways := by
  have hplain : (Regex.star (.char (Reader.plainClass closing)) true).ways = (plainRun closing).ways := by
    refine Regex.ways_star_congr (Regex.ways_char_congr fun ch => ?_)
    simp [Reader.plainClass, CharClass.oneOf, CharClass.contains]
  refine Regex.ways_seq_congr hplain (Regex.ways_seq_congr (Regex.ways_star_congr ?_) rfl)
  rw [escapedPair, Regex.ways_concat_cons_concat]
  exact Regex.ways_seq_congr rfl (Regex.ways_seq_congr rfl (Regex.ways_seq_congr hplain rfl))

/-- **A search cannot tell** the rule as it is read from the rule. -/
theorem search_written (opening closing : Char) (c : Cursor) :
    (written opening closing).anywhere.searchFrom c = (delimited opening closing).anywhere.searchFrom c ∧
      (written opening closing).closing.searchFrom c =
        (delimited opening closing).closing.searchFrom c := by
  have hbody : (Regex.group inputGroup (bodyWritten closing)).ways =
      (Regex.group inputGroup (body closing)).ways := Regex.ways_group_congr (ways_bodyWritten closing)
  have hspaces : (Regex.concat [.star (.char (.union .empty (.single ' '))) true]).ways =
      (Regex.star (.single ' ') true).ways := by
    funext c
    rw [Regex.ways_concat_singleton]
    refine congrFun (Regex.ways_star_congr (Regex.ways_char_congr fun ch => ?_)) c
    simp [CharClass.contains]
  have hmarker (rest : List Regex) : (Regex.concat (markerWritten opening closing ++ rest)).ways =
      (Regex.concat (marker opening closing :: rest)).ways := by
    rw [marker, Regex.ways_concat_cons_concat]
    exact Regex.ways_seq_congr rfl (Regex.ways_seq_congr hbody (Regex.ways_seq_congr rfl rfl))
  refine ⟨Regex.searchFrom_congr rfl rfl (fun c => ?_) c, Regex.searchFrom_congr rfl rfl (fun c => ?_) c⟩
  · exact congrFun (Regex.ways_seq_congr rfl (Regex.ways_seq_congr hbody rfl)) c
  · rw [written, hmarker]
    exact congrFun (Regex.ways_seq_congr rfl (Regex.ways_seq_congr (Regex.ways_group_congr hspaces) rfl)) c

/-- The rule as it is read finds the same markers. -/
theorem agree_written (opening closing : Char) (line : Text) :
    (written opening closing).find? line = (delimited opening closing).find? line ∧
      (written opening closing).trailing? line = (delimited opening closing).trailing? line := by
  obtain ⟨hanywhere, hclosing⟩ := search_written opening closing (Cursor.start line)
  refine ⟨?_, ?_⟩
  · rw [find?, Regex.search, hanywhere, find?, Regex.search]
  · rw [trailing?, Regex.search, hclosing, trailing?, Regex.search]

end InputRule

end Transcript
