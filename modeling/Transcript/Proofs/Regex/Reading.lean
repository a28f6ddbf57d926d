/-
**Reading the source of a program.**

A program is written as a source, which is read again when an output is matched.  This module says
what the reader makes of it: the source of each fragment becomes a few expressions, and the program
the sequence of all of them.  A fragment may end in a quantifier, which the reader keeps open until
it knows whether a question mark follows; no fragment begins with one.

Main definitions:

* `Transcript.Shape.items` — the expressions that the source of a fragment becomes;
* `Transcript.Shape.groups` — the group that a fragment opens, if it is a tag with a name;
* `Transcript.Fragment.regex` — the expression of a list of fragments;
* `Transcript.Reader.Rests` — the reader between two fragments.

Main results:

* `Transcript.Reader.feed_source` — the reader gets through a fragment;
* `Transcript.Fragment.read?_join` — **fragments whose groups are distinct are read as their
  expressions**.
-/

import Transcript.Matcher

set_option relaxedAutoImplicit false
set_option autoImplicit false

namespace Transcript

/-! ### The expressions of a fragment -/

namespace Shape

/-- The group of a tag around an expression. -/
def around (binding : Option Text) (body : Regex) : Regex :=
  match binding with
  | some name => .group (groupName name) (.concat [body])
  | none => .concat [body]

def anything (greedy : Bool) : Regex := .star (.char .any) greedy

def something (greedy : Bool) : Regex := .plus (.char .any) greedy

/-- A text with a given character neither behind it nor further inside. -/
def notBehind (cls : CharClass) : Regex := .assert (.notPrevious cls)

/-- The expressions that the source of a fragment becomes. -/
def items : Shape → List Regex
  | start => [.assert .textStart]
  | literal text => text.map Regex.single
  | space => [.char .blank]
  | spaces => [.plus (.char .blank) true, .assert (.notNext .blank)]
  | tag binding .bare greedy => [around binding (anything greedy)]
  | tag binding .leftSpace greedy => [around binding (anything greedy)]
  | tag binding .rightSpace greedy => [around binding (anything greedy), notBehind .blank]
  | tag binding .bothSpace greedy =>
      [.opt (.concat [.star (.char .blank) true, .assert (.notNext .blank),
        around binding (something greedy), notBehind .blank]) true]
  | tag binding .lineEnd greedy =>
      [.opt (.concat [around binding (something greedy), notBehind (.single '\n')]) true]
  | finish .blank => [.star (.char .blank) true, .assert .textEnd]
  | finish .newlines => [.star (.char (.single '\n')) true, .assert .textEnd]

def groups (s : Shape) : List Text := (s.tag?.join.map groupName).toList

@[simp] theorem groups_named (name : Text) (context : TagContext) (greedy : Bool) :
    (tag (some name) context greedy).groups = [groupName name] := rfl

end Shape

def Fragment.regex (fragments : List Fragment) : Regex :=
  .concat (fragments.flatMap fun f => f.shape.items)

/-- The groups that fragments open are those of the names that they bind. -/
theorem Fragment.flatMap_groups (fragments : List Fragment) :
    (fragments.flatMap fun f => f.shape.groups) =
      (fragments.filterMap Fragment.name?).map groupName := by
  induction fragments with
  | nil => rfl
  | cons f fragments ih =>
      have hgroups : f.shape.groups = (f.name?.map groupName).toList := rfl
      rw [List.flatMap_cons, ih, hgroups, List.filterMap_cons]
      cases f.name? <;> rfl

/-- Groups that are distinct are so behind the first fragment. -/
theorem Fragment.nodup_groups_tail {f : Fragment} {fragments : List Fragment}
    (h : ((f :: fragments).flatMap fun f => f.shape.groups).Nodup) :
    (fragments.flatMap fun f => f.shape.groups).Nodup := by
  rw [List.flatMap_cons, List.nodup_append] at h
  exact h.2.1

/-! ### Group names -/

/-- A letter, a digit or an underscore may stand anywhere in the name of a group. -/
theorem nameChar_of_mem_groupName {name : Text} {c : Char} (h : c ∈ groupName name)
    (first : Bool) : Dialect.program.nameChar first c = true ∧ c ≠ '>' := by
  have hc : c = '_' ∨ c.isAlphanum = true := by
    obtain ⟨ch, -, rfl⟩ := List.mem_map.1 h
    by_cases hch : ch.isAlphanum
    · exact Or.inr (by rw [if_pos hch]; exact hch)
    · exact Or.inl (if_neg hch)
  rcases hc with rfl | hc
  · exact ⟨by cases first <;> decide +kernel, by decide⟩
  · have hclass : Text.isAlphabetic c = true ∨ Text.isDecimal c = true := by
      rw [Char.isAlphanum, Bool.or_eq_true] at hc
      rcases hc with hc | hc
      · left
        refine Text.isAlphabetic_of_le ?_
        change (decide (c.val ≥ 'A'.val ∧ c.val ≤ 'Z'.val) ||
          (decide (c.val ≥ 'a'.val) && decide (c.val ≤ 'z'.val))) = true at hc
        simpa [Char.le_def] using hc
      · right
        have hdigit : 48 ≤ c.toNat ∧ c.toNat ≤ 57 := by
          simpa [Char.isDigit, UInt32.le_iff_toNat_le] using hc
        have ht : Text.decimalRanges = (48, 57) :: Text.decimalRanges.drop 1 := rfl
        rw [Text.isDecimal, ht]
        simp [Text.inRanges, hdigit]
    refine ⟨?_, by rintro rfl; simp at hc⟩
    rcases hclass with hclass | hclass
    · cases first <;> simp [Dialect.nameChar, Dialect.program, Text.isAlphanumeric, hclass]
    · cases first <;> simp [Dialect.nameChar, Dialect.program, Text.isAlphanumeric, hclass]

namespace Reader

/-- A reader that has read a complete expression. -/
def resting (names : List Text) (frame : Frame) (outer : List Frame) : Reader :=
  ⟨.plain, false, names, frame, outer⟩

theorem feed_naming (names : List Text) (frame : Frame) (outer : List Frame) {s : Text} :
    ∀ (acc : Text), (∀ c ∈ s, ∀ first, Dialect.program.nameChar first c = true ∧ c ≠ '>') →
      feed .program s ⟨.naming acc, false, names, frame, outer⟩ =
        some ⟨.naming (s.reverse ++ acc), false, names, frame, outer⟩ := by
  induction s with
  | nil => exact fun acc _ => rfl
  | cons c s ih =>
      intro acc h
      obtain ⟨hname, hclose⟩ := h c (List.mem_cons_self ..) acc.isEmpty
      have hrest := ih (c :: acc) fun c' hc' => h c' (List.mem_cons_of_mem _ hc')
      rw [feed, step?]
      simp only [naming?, if_neg hclose, hname, if_true, Option.bind_some]
      rw [hrest, List.reverse_cons, List.append_assoc]
      rfl

/-! ### Tags -/

/-- The sign behind the dot, and what the two stand for. -/
def Takes (greedy : Bool) (rounds : Char) (body : Regex) : Prop :=
  rounds = '*' ∧ body = Shape.anything greedy ∨ rounds = '+' ∧ body = Shape.something greedy

/-- The reader opens the group of a tag. -/
theorem feed_opening {names : List Text} (frame : Frame) (outer : List Frame)
    {binding : Option Text} (hname : ∀ name ∈ binding, groupName name ≠ [] ∧ groupName name ∉ names) :
    feed .program (Shape.opening binding) (resting names frame outer) =
      some (resting ((binding.map groupName).toList ++ names)
        (.fresh (binding.elim .plain fun name => .named (groupName name)) false)
        (frame :: outer)) := by
  cases binding with
  | none => rfl
  | some name =>
      obtain ⟨hne, hnew⟩ := hname name rfl
      have hopen : feed .program "(?P<".toList (resting names frame outer) =
          some ⟨.naming [], false, names, frame, outer⟩ := rfl
      have hchars := feed_naming names frame outer (s := groupName name) []
        fun c hc first => nameChar_of_mem_groupName hc first
      rw [Shape.opening, feed_append, feed_append, hopen, Option.bind_some, hchars, Option.bind_some,
        List.append_nil]
      have hclose : feed .program ">".toList ⟨.naming (groupName name).reverse, false, names, frame,
          outer⟩ = (openNamed? ⟨.naming (groupName name).reverse, false, names, frame, outer⟩
            (groupName name)).bind some := by
        simp [feed, step?, naming?]
      rw [hclose]
      simp [openNamed?, hne, hnew, openGroup, resting]

/-- The reader gets through the group of a tag. -/
theorem feed_capture {names : List Text} (frame : Frame) (outer : List Frame)
    {binding : Option Text} (hname : ∀ name ∈ binding, groupName name ≠ [] ∧ groupName name ∉ names)
    {rounds : Char} {body : Regex} {greedy : Bool} (hbody : Takes greedy rounds body) :
    feed .program (Shape.capture binding rounds greedy) (resting names frame outer) =
      some (resting ((binding.map groupName).toList ++ names)
        (frame.push (Shape.around binding body)) outer) := by
  rw [Shape.capture, feed_append, feed_append, feed_append, feed_opening frame outer hname,
    Option.bind_some]
  cases binding <;> cases greedy <;> rcases hbody with ⟨rfl, rfl⟩ | ⟨rfl, rfl⟩ <;> rfl

/-! ### Literals -/

/-- The reader takes an escaped character for itself. -/
theorem feed_escapeChar (names : List Text) (frame : Frame) (outer : List Frame) (c : Char) :
    feed .program (Regex.escapeChar c) (resting names frame outer) =
      some (resting names (frame.push (Regex.single c)) outer) := by
  unfold Regex.escapeChar
  by_cases hmeta : Regex.isMeta c
  · rw [if_pos hmeta]
    have hmem : c ∈ Regex.metaChars := by simpa [Regex.isMeta] using hmeta
    simp only [Regex.metaChars, List.mem_cons, List.not_mem_nil, or_false] at hmem
    rcases hmem with rfl | rfl | rfl | rfl | rfl | rfl | rfl | rfl | rfl | rfl | rfl | rfl | rfl |
      rfl | rfl <;> rfl
  · rw [if_neg hmeta]
    have hmem : c ∉ Regex.metaChars := by simpa [Regex.isMeta] using hmeta
    simp only [Regex.metaChars, List.mem_cons, List.not_mem_nil, or_false, not_or] at hmem
    have hplain : plain? .program (resting names frame outer) c =
        some ((resting names frame outer).pushChar c) := by
      unfold plain?
      split <;> simp_all
    change (plain? .program (resting names frame outer) c).bind some = _
    rw [hplain]
    rfl

theorem feed_escape (names : List Text) (outer : List Frame) (text : Text) :
    ∀ frame : Frame, feed .program (Regex.escape text) (resting names frame outer) =
      some (resting names { frame with items := (text.map Regex.single).reverse ++ frame.items }
        outer) := by
  induction text with
  | nil => exact fun frame => rfl
  | cons c text ih =>
      intro frame
      rw [Regex.escape_cons, feed_append, feed_escapeChar, Option.bind_some, ih]
      simp [Frame.push]

/-! ### Fragments -/

/-- The reader before the first fragment or between two of them: `items` was read, the last one
first.  A quantifier may still be open. -/
structure Rests (r : Reader) (names : List Text) (items : List Regex) : Prop where
  settle : r.settle = resting names ⟨.plain, false, [], items⟩ []
  mode : r.mode = .plain ∨ ∃ quantifier body, r.mode = .quantified quantifier body

theorem rests_resting (names : List Text) (items : List Regex) :
    Rests (resting names ⟨.plain, false, [], items⟩ []) names items := ⟨rfl, Or.inl rfl⟩

/-- A quantifier that is open does not matter to a source that begins with no question mark. -/
theorem Rests.feed_eq {r : Reader} {names : List Text} {items : List Regex}
    (h : r.Rests names items) {s : Text} (hne : s ≠ []) (hs : s.head? ≠ some '?') :
    feed .program s r = feed .program s (resting names ⟨.plain, false, [], items⟩ []) := by
  obtain ⟨c, s, rfl⟩ := List.exists_cons_of_ne_nil hne
  have hc : c ≠ '?' := by simpa using hs
  have hstep : r.step? .program c =
      (resting names ⟨.plain, false, [], items⟩ []).step? .program c := by
    rcases h.mode with hmode | ⟨quantifier, body, hmode⟩
    · have hr : r = resting names ⟨.plain, false, [], items⟩ [] := by
        rw [← h.settle, Reader.settle, hmode]
      rw [hr]
    · rw [step?, hmode]
      simp only [if_neg hc, h.settle]
      rfl
  rw [feed, feed, hstep]

theorem Rests.finish? {r : Reader} {names : List Text} {items : List Regex}
    (h : r.Rests names items) : r.finish? = some (.concat items.reverse) := by
  have houter : r.outer = [] := by
    have hsettle : r.settle.outer = [] := by rw [h.settle]; rfl
    rcases h.mode with hmode | ⟨quantifier, body, hmode⟩
    · simpa [Reader.settle, hmode] using hsettle
    · simpa [Reader.settle, hmode, push] using hsettle
  rw [Reader.finish?, houter, h.settle]
  rfl

/-- **The reader gets through a fragment**, whose expressions it adds to those read before. -/
theorem feed_source {names : List Text} (items : List Regex) (shape : Shape)
    (hnew : ∀ group ∈ shape.groups, group ≠ [] ∧ group ∉ names) :
    ∃ r, feed .program shape.source (resting names ⟨.plain, false, [], items⟩ []) = some r ∧
      r.Rests (shape.groups ++ names) (shape.items.reverse ++ items) := by
  cases shape with
  | start => exact ⟨_, rfl, rests_resting _ _⟩
  | literal text =>
      refine ⟨_, feed_escape names [] text _, ?_⟩
      exact rests_resting _ _
  | space => exact ⟨_, rfl, rests_resting _ _⟩
  | spaces => exact ⟨_, rfl, rests_resting _ _⟩
  | finish anchor => cases anchor <;> exact ⟨_, rfl, rests_resting _ _⟩
  | tag binding context greedy =>
      have hname : ∀ name ∈ binding, groupName name ≠ [] ∧ groupName name ∉ names := by
        rintro name rfl
        exact hnew _ (by simp)
      have hgroups : (Shape.tag binding context greedy).groups = (binding.map groupName).toList := by
        cases binding <;> rfl
      have hany : Takes greedy '*' (Shape.anything greedy) := Or.inl ⟨rfl, rfl⟩
      have hsome : Takes greedy '+' (Shape.something greedy) := Or.inr ⟨rfl, rfl⟩
      rw [hgroups]
      cases context with
      | bare =>
          refine ⟨_, ?_, rests_resting _ (Shape.around binding (Shape.anything greedy) :: items)⟩
          exact feed_capture _ _ hname hany
      | leftSpace =>
          refine ⟨_, ?_, rests_resting _ (Shape.around binding (Shape.anything greedy) :: items)⟩
          exact feed_capture _ _ hname hany
      | rightSpace =>
          have hguard (names : List Text) (items : List Regex) :
              feed .program "(?<!\\s)".toList (resting names ⟨.plain, false, [], items⟩ []) =
                some (resting names ⟨.plain, false, [], Shape.notBehind .blank :: items⟩ []) := rfl
          refine ⟨_, ?_, rests_resting _
            (Shape.notBehind .blank :: Shape.around binding (Shape.anything greedy) :: items)⟩
          change feed .program (Shape.capture binding '*' greedy ++ "(?<!\\s)".toList) _ = _
          rw [feed_append, feed_capture _ _ hname hany, Option.bind_some]
          exact hguard _ _
      | bothSpace =>
          have hopen : feed .program "(?:\\s*(?!\\s)".toList
              (resting names ⟨.plain, false, [], items⟩ []) =
              some (resting names ⟨.plain, false, [], [.assert (.notNext .blank),
                .star (.char .blank) true]⟩ [⟨.plain, false, [], items⟩]) := rfl
          have hclose (names : List Text) (capture : Regex) : feed .program "(?<!\\s))?".toList
              (resting names ⟨.plain, false, [], [capture, .assert (.notNext .blank),
                .star (.char .blank) true]⟩ [⟨.plain, false, [], items⟩]) =
              some ⟨.quantified .opt (.concat [.star (.char .blank) true, .assert (.notNext .blank),
                capture, Shape.notBehind .blank]), false, names, ⟨.plain, false, [], items⟩, []⟩ := rfl
          have hread : feed .program (Shape.tag binding .bothSpace greedy).source
              (resting names ⟨.plain, false, [], items⟩ []) =
              some ⟨.quantified .opt (.concat [.star (.char .blank) true, .assert (.notNext .blank),
                Shape.around binding (Shape.something greedy), Shape.notBehind .blank]), false,
                (binding.map groupName).toList ++ names, ⟨.plain, false, [], items⟩, []⟩ := by
            change feed .program ("(?:\\s*(?!\\s)".toList ++ Shape.capture binding '+' greedy ++
              "(?<!\\s))?".toList) _ = _
            rw [feed_append, feed_append, hopen, Option.bind_some, feed_capture _ _ hname hsome]
            exact hclose _ _
          exact ⟨_, hread, rfl, Or.inr ⟨_, _, rfl⟩⟩
      | lineEnd =>
          have hopen : feed .program "(?:".toList (resting names ⟨.plain, false, [], items⟩ []) =
              some (resting names ⟨.plain, false, [], []⟩ [⟨.plain, false, [], items⟩]) := rfl
          have hclose (names : List Text) (capture : Regex) : feed .program "(?<!\\n))?".toList
              (resting names ⟨.plain, false, [], [capture]⟩ [⟨.plain, false, [], items⟩]) =
              some ⟨.quantified .opt (.concat [capture, Shape.notBehind (.single '\n')]), false,
                names, ⟨.plain, false, [], items⟩, []⟩ := rfl
          have hread : feed .program (Shape.tag binding .lineEnd greedy).source
              (resting names ⟨.plain, false, [], items⟩ []) =
              some ⟨.quantified .opt (.concat [Shape.around binding (Shape.something greedy),
                Shape.notBehind (.single '\n')]), false, (binding.map groupName).toList ++ names,
                ⟨.plain, false, [], items⟩, []⟩ := by
            change feed .program ("(?:".toList ++ Shape.capture binding '+' greedy ++
              "(?<!\\n))?".toList) _ = _
            rw [feed_append, feed_append, hopen, Option.bind_some, feed_capture _ _ hname hsome]
            exact hclose _ _
          exact ⟨_, hread, rfl, Or.inr ⟨_, _, rfl⟩⟩

/-- An escaped text does not begin with a quantifier. -/
theorem begins_escape (text : Text) :
    ∀ c ∈ (Regex.escape text).head?, isQuantifier c = false ∧ c ≠ '{' := by
  cases text with
  | nil => simp [Regex.escape]
  | cons c text =>
      rw [Regex.escape_cons, Regex.escapeChar]
      by_cases hmeta : Regex.isMeta c
      · simp [hmeta, isQuantifier]
      · have hmem : c ∉ Regex.metaChars := by simpa [Regex.isMeta] using hmeta
        simp only [Regex.metaChars, List.mem_cons, not_or] at hmem
        simp [hmeta, isQuantifier, hmem]

/-- **No fragment begins with a quantifier.** -/
theorem begins_source (shape : Shape) :
    ∀ c ∈ shape.source.head?, isQuantifier c = false ∧ c ≠ '{' := by
  have hfixed {c : Char} {s : Text} (hs : s.head? = some c)
      (hc : isQuantifier c = false ∧ c ≠ '{') : ∀ c ∈ s.head?, isQuantifier c = false ∧ c ≠ '{' := by
    intro d hd
    obtain rfl : c = d := Option.some.inj (hs.symm.trans hd)
    exact hc
  cases shape with
  | start => exact hfixed rfl (by decide)
  | literal text => exact begins_escape text
  | space => exact hfixed rfl (by decide)
  | spaces => exact hfixed rfl (by decide)
  | finish anchor => cases anchor <;> exact hfixed rfl (by decide)
  | tag binding context greedy =>
      refine hfixed (c := '(') ?_ (by decide)
      cases binding <;> cases context <;> rfl

theorem head?_source (shape : Shape) : shape.source.head? ≠ some '?' := fun h =>
  absurd (begins_source shape '?' h).1 (by decide)

theorem feed_join {fragments : List Fragment} :
    ∀ {r : Reader} {names : List Text} {items : List Regex}, r.Rests names items →
      (fragments.flatMap fun f => f.shape.groups).Nodup →
      (∀ group ∈ fragments.flatMap fun f => f.shape.groups, group ≠ [] ∧ group ∉ names) →
      ∃ last names', feed .program (Fragment.join fragments) r = some last ∧
        last.Rests names' ((fragments.flatMap fun f => f.shape.items).reverse ++ items) := by
  induction fragments with
  | nil => exact fun h _ _ => ⟨_, _, rfl, by simpa using h⟩
  | cons f fragments ih =>
      intro r names items h hnodup hnew
      rw [List.flatMap_cons] at hnodup hnew
      obtain ⟨-, hnodup', hdisjoint⟩ := List.nodup_append.1 hnodup
      -- an empty source leaves an open quantifier open
      have hfirst : ∃ r', feed .program f.pattern r = some r' ∧
          r'.Rests (f.shape.groups ++ names) (f.shape.items.reverse ++ items) := by
        obtain ⟨r', hr', hrests⟩ := feed_source items f.shape fun group hgroup =>
          hnew group (List.mem_append_left _ hgroup)
        by_cases hempty : f.pattern = []
        · have hsource : f.shape.source = [] := hempty
          rw [hsource, feed, Option.some.injEq] at hr'
          rw [← hr'] at hrests
          exact ⟨r, by rw [hempty]; rfl, h.settle.trans hrests.settle, h.mode⟩
        · exact ⟨r', (h.feed_eq hempty (head?_source f.shape)).trans hr', hrests⟩
      obtain ⟨r', hr', hrests⟩ := hfirst
      obtain ⟨last, names', hlast, hlast'⟩ := ih hrests hnodup' fun group hgroup => by
        obtain ⟨hne, hnames⟩ := hnew group (List.mem_append_right _ hgroup)
        refine ⟨hne, fun hmem => ?_⟩
        rcases List.mem_append.1 hmem with hmem | hmem
        · exact hdisjoint group hmem group hgroup rfl
        · exact hnames hmem
      refine ⟨last, names', ?_, ?_⟩
      · rw [Fragment.join, List.flatMap_cons, feed_append, hr']
        exact hlast
      · simpa using hlast'

end Reader

namespace Fragment

/-- **Fragments are read as their expressions**, one after the other, if the groups that they open
are distinct and have names. -/
theorem read?_join {fragments : List Fragment}
    (hnodup : (fragments.flatMap fun f => f.shape.groups).Nodup)
    (hne : ∀ group ∈ fragments.flatMap fun f => f.shape.groups, group ≠ []) :
    Regex.read? .program (join fragments) = some (regex fragments) := by
  obtain ⟨last, names', hlast, hrests⟩ := Reader.feed_join (Reader.rests_resting [] []) hnodup
    fun group hgroup => ⟨hne group hgroup, by simp⟩
  have hstart : Reader.start = Reader.resting [] ⟨.plain, false, [], []⟩ [] := rfl
  rw [Regex.read?, hstart, hlast, Option.bind_some, hrests.finish?, List.append_nil,
    List.reverse_reverse]
  rfl

end Fragment

end Transcript
