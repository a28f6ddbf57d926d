/-
**What is captured fills the text.**

A program with normalized spacing captures parts of the output.  When they are put back in place of
the tags, the text says what the output says, up to white space: no other character of the output is
passed over, and no other character of the text is left out.

Main definitions:

* `Transcript.Way.text?` — what a way captures under a group;
* `Transcript.Token.Fills` — a value is what a way captures under the name of a tag;
* `Transcript.Spacing.Refills` — what fragments capture can be put back into their tokens.

Main results:

* `Transcript.Spacing.Layout.refills` — what a layout captures can be put back into its tokens;
* `Transcript.Compiler.captures?_refill` — **what is captured fills the text**.
-/

import Mathlib.Data.List.Forall2
import Transcript.Proofs.Match.Captures
import Transcript.Proofs.Match.Relaxed
import Transcript.Proofs.Text.Normalized

set_option relaxedAutoImplicit false
set_option autoImplicit false

namespace Transcript

/-! ### What a way captures -/

namespace Way

/-- What a way captures under a group, if it passes both ends of it. -/
def text? (w : Way) (group : Text) : Option Text :=
  ((Trail.finish ⟨w.stop, []⟩ w).group? group).map Span.text

/-- A way that does not pass the ends of a group captures nothing more under it. -/
theorem text?_join_of_group {u v : Way} {group : Text} (h : ∀ m ∈ v.marks, m.1.group ≠ group) :
    (u.join v).text? group = u.text? group := by
  simp only [text?, Match.group?, Trail.finish, join, List.append_nil, List.lookup_append,
    lookup_eq_none_of_group (.opening group) h, lookup_eq_none_of_group (.closing group) h,
    Option.none_or]

/-- What was gone through before does not matter to a group whose ends it did not pass. -/
theorem text?_join_of_group_left {u v : Way} {group : Text} (h : ∀ m ∈ u.marks, m.1.group ≠ group) :
    (u.join v).text? group = v.text? group := by
  simp only [text?, Match.group?, Trail.finish, join, List.append_nil, List.lookup_append,
    lookup_eq_none_of_group (.opening group) h, lookup_eq_none_of_group (.closing group) h,
    Option.or_none]

end Way

theorem Shape.text?_taken (name : Text) {c d : Cursor} {s : Text} (h : c.Reads s d) :
    (taken (some name) c d).text? (groupName name) = some s := by
  have hgroup : (Trail.finish ⟨d, []⟩ (taken (some name) c d)).group? (groupName name) =
      some ⟨c, d⟩ := Match.group?_of_marks rfl
  rw [Way.text?, taken_stop, hgroup, Option.map_some, Span.text_of_reads h]

/-! ### Groups that were not passed -/

namespace Fragment

/-- The way passes no end of a group of the fragments. -/
def Fresh (fragments : List Fragment) (w : Way) : Prop :=
  ∀ m ∈ w.marks, ∀ f ∈ fragments, m.1.group ∉ f.shape.groups

/-- A way through the first fragment passes no end of a group of the others. -/
theorem Fresh.join {f : Fragment} {fragments : List Fragment} {first u : Way} {c : Cursor}
    (h : Fresh (f :: fragments) first)
    (hnodup : ((f :: fragments).flatMap fun f => f.shape.groups).Nodup) (hu : u ∈ f.shape.ways c) :
    Fresh fragments (first.join u) := by
  intro m hm g hg
  rcases List.mem_append.1 hm with hm | hm
  · rw [List.flatMap_cons] at hnodup
    intro hgroup
    exact (List.nodup_append.1 hnodup).2.2 _ (Shape.group_of_mem_ways hu m hm) _
      (List.mem_flatMap.2 ⟨g, hg, hgroup⟩) rfl
  · exact h m hm g (List.mem_cons_of_mem _ hg)

/-- Neither what was passed before nor what is passed later captures under the name of the first
fragment. -/
theorem Fresh.text?_join {f : Fragment} {fragments : List Fragment} {first u v : Way} {c : Cursor}
    {name : Text} (h : Fresh (f :: fragments) first) (hname : f.name? = some name)
    (hnodup : ((f :: fragments).flatMap fun f => f.shape.groups).Nodup)
    (hv : v ∈ ways fragments c) :
    ((first.join u).join v).text? (groupName name) = u.text? (groupName name) := by
  have hgroup : f.shape.groups = [groupName name] := by
    rw [Shape.groups, ← name?, hname]
    rfl
  rw [Way.text?_join_of_group, Way.text?_join_of_group_left]
  · intro m hm heq
    exact h m hm f (List.mem_cons_self ..) (by simp [hgroup, heq])
  · intro m hm heq
    rw [List.flatMap_cons, hgroup, groups_eq_names] at hnodup
    refine (List.nodup_cons.1 hnodup).1 ?_
    rw [← heq]
    exact group_of_mem_ways hv m hm

end Fragment

/-! ### Putting back what is captured -/

namespace Token

/-- The value is what the way captures under the name of the tag, or nothing if it captures nothing.
An anonymous tag may have any value. -/
def Fills (config : Config) (w : Way) (t : Token) (value : Text) : Prop :=
  ∀ name ∈ t.binding config, value = (w.text? (groupName name)).getD []

end Token

namespace Spacing

open Fragment Token

variable {config : Config} {left : Bool} {t : Token} {ahead : List Token} {fragments : List Fragment}

/-- What a way through the fragments captures can be put back into their tokens, whatever was passed
before: there are values for the tags with which the tokens say what stands ahead, up to white space.
Behind white space, more of it may be passed over first. -/
def Refills (config : Config) (left : Bool) (tokens : List Token) (fragments : List Fragment) :
    Prop :=
  ∀ (first w : Way) (c : Cursor), Fresh fragments first → w ∈ Fragment.ways fragments c →
    ∃ values gap rest,
      List.Forall₂ (Fills config (first.join w)) (tokens.filter (·.kind = .tag)) values ∧
      c.after = gap ++ rest ∧ (∀ b ∈ gap, Text.isBlank b = true) ∧ (left = false → gap = []) ∧
      Text.Respaced (weave (segments tokens) values) rest

theorem refills_finish (offset : Nat) (run : List Token) (hrun : ∀ u ∈ run, u.kind ≠ .tag)
    (hblank : ∀ b ∈ run.flatMap Token.text, Text.isBlank b = true) (hkind : t.kind = .finish)
    (htext : t.text = []) : Refills config false (run ++ [t]) [⟨offset, .finish .blank⟩] := by
  intro first w c _ hw
  have hall := fits_finish.1 (ways_ne_nil_iff.1 (List.ne_nil_of_mem hw))
  have hnil : (run ++ [t]).filter (·.kind = .tag) = [] := by
    refine List.filter_eq_nil_iff.2 fun u hu => ?_
    rcases List.mem_append.1 hu with hu | hu
    · simpa using hrun u hu
    · rw [List.mem_singleton.1 hu]
      simp [hkind]
  refine ⟨[], [], c.after, by rw [hnil]; exact .nil, rfl, by simp, fun _ => rfl, ?_⟩
  rw [weave_append hrun, weave_finish hkind htext (by simp [hkind]), List.append_nil]
  exact Text.respaced_blank hblank hall

theorem Refills.text (h : Refills config false ahead fragments)
    (hnodup : ((⟨t.offset, .literal t.text⟩ :: fragments).flatMap fun f => f.shape.groups).Nodup)
    (hkind : t.kind.isText) :
    Refills config false (t :: ahead) (⟨t.offset, .literal t.text⟩ :: fragments) := by
  intro first w c hfresh hw
  have htag : t.kind ≠ .tag := ne_tag_of_isText hkind
  obtain ⟨u, hu, v, hv, rfl⟩ := Way.mem_chain.1 hw
  obtain ⟨s, hs, hadmits⟩ := Shape.leads_iff.1 ⟨u, hu, rfl⟩
  obtain rfl : s = t.text := hadmits
  obtain ⟨values, gap, rest, hvalues, hafter, -, hgap, hrest⟩ :=
    h _ v u.stop (hfresh.join hnodup hu) hv
  rw [hgap rfl, List.nil_append] at hafter
  refine ⟨values, [], t.text ++ rest, ?_, by rw [hs.after, hafter]; rfl, by simp, fun _ => rfl, ?_⟩
  · rw [← Way.join_assoc]
    simpa [htag] using hvalues
  · rw [← List.singleton_append, weave_append (by simpa using htag)]
    simpa using hrest.append t.text

/-- What a tag goes through is what it captures, with white space in front of it only if it stands
behind white space. -/
theorem exists_value_of_mem_ways {c : Cursor} {u : Way}
    (hu : u ∈ (tagShape config left t ahead).ways c) :
    ∃ gap value, c.Reads (gap ++ value) u.stop ∧ (∀ b ∈ gap, Text.isBlank b = true) ∧
      (left = false → gap = []) ∧ Fills config u t value := by
  rcases Shape.exists_of_mem_ways_tag hu with ⟨gap, value, d, e, hd, he, hblank, hgap, rfl⟩ | rfl
  · refine ⟨gap, value, by rw [Shape.taken_stop]; exact hd.trans he, hblank, fun hleft => ?_, ?_⟩
    · refine hgap ?_
      rw [hleft]
      cases spaceAhead ahead <;> simp [context]
    · intro name hname
      rw [hname, Shape.text?_taken name he]
      rfl
  · exact ⟨[], [], .refl c, by simp, fun _ => rfl, fun _ _ => rfl⟩

theorem Refills.tag (h : Refills config false ahead fragments)
    (hnodup : ((⟨t.offset, tagShape config left t ahead⟩ :: fragments).flatMap
      fun f => f.shape.groups).Nodup) (hkind : t.kind = .tag) :
    Refills config left (t :: ahead) (⟨t.offset, tagShape config left t ahead⟩ :: fragments) := by
  intro first w c hfresh hw
  obtain ⟨u, hu, v, hv, rfl⟩ := Way.mem_chain.1 hw
  obtain ⟨gap, value, hreads, hblank, hgap, hvalue⟩ := exists_value_of_mem_ways hu
  obtain ⟨values, gap', rest, hvalues, hafter, -, hgap', hrest⟩ :=
    h _ v u.stop (hfresh.join hnodup hu) hv
  rw [hgap' rfl, List.nil_append] at hafter
  have hfills : Fills config ((first.join u).join v) t value := fun name hname => by
    rw [hfresh.text?_join hname hnodup hv]
    exact hvalue name hname
  refine ⟨value :: values, gap, value ++ rest, ?_, ?_, hblank, hgap, ?_⟩
  · rw [← Way.join_assoc]
    simpa [hkind] using ⟨hfills, hvalues⟩
  · rw [hreads.after, hafter, List.append_assoc]
  · simpa [segments, hkind, weave] using hrest.append value

theorem Refills.gap {tokens run : List Token} {f : Fragment}
    (h : Refills config left tokens fragments)
    (hnodup : ((f :: fragments).flatMap fun f => f.shape.groups).Nodup) (hgap : Gap run)
    (hf : f.shape = .space ∨ f.shape = .spaces) :
    Refills config false (run ++ tokens) (f :: fragments) := by
  intro first w c hfresh hw
  obtain ⟨u, hu, v, hv, rfl⟩ := Way.mem_chain.1 hw
  obtain ⟨s, hs, hadmits⟩ := Shape.leads_iff.1 ⟨u, hu, rfl⟩
  obtain ⟨hne, hblank⟩ : s ≠ [] ∧ ∀ b ∈ s, Text.isBlank b = true := by
    rcases hf with hf | hf <;> rw [hf] at hadmits
    · obtain ⟨b, hb, rfl⟩ := hadmits
      exact ⟨by simp, by simpa using hb⟩
    · exact ⟨hadmits.1, hadmits.2.1⟩
  obtain ⟨values, gap, rest, hvalues, hafter, hblank', -, hrest⟩ :=
    h _ v u.stop (hfresh.join hnodup hu) hv
  refine ⟨values, [], c.after, ?_, rfl, by simp, fun _ => rfl, ?_⟩
  · rw [← Way.join_assoc, tags_gap hgap]
    exact hvalues
  · rw [weave_append (kind_ne_tag_of_gap hgap), hs.after, hafter, ← List.append_assoc]
    refine hrest.gap hgap.text.1 (by simp [hne]) hgap.text.2 fun b hb => ?_
    exact (List.mem_append.1 hb).elim (hblank b) (hblank' b)

/-- **What a layout captures can be put back into its tokens.** -/
theorem Layout.refills {tokens : List Token} (h : Layout config tokens fragments)
    (hnodup : (fragments.flatMap fun f => f.shape.groups).Nodup) :
    Refills config false tokens fragments := by
  induction h with
  | finish offset hkind htext => exact refills_finish offset [] (by simp) (by simp) hkind htext
  | gapFinish offset hgap hkind htext =>
      exact refills_finish offset _ (kind_ne_tag_of_gap hgap) hgap.text.2 hkind htext
  | text hkind hformed hinput hahead ih => exact (ih (nodup_groups_tail hnodup)).text hnodup hkind
  | gapText offset hgap hkind hformed hinput hahead ih =>
      have hrest := nodup_groups_tail hnodup
      exact ((ih (nodup_groups_tail hrest)).text hrest hkind).gap hnodup hgap (Or.inr rfl)
  | tag hkind hformed hahead ih => exact (ih (nodup_groups_tail hnodup)).tag hnodup hkind
  | @gapTag run t ahead fragments offset hgap hkind hformed hahead ih =>
      have hrest := nodup_groups_tail hnodup
      refine ((ih (nodup_groups_tail hrest)).tag hrest hkind).gap hnodup hgap ?_
      cases spaceAhead ahead
      · exact Or.inr rfl
      · exact Or.inl rfl

/-- The names that a layout binds are those of its tags. -/
theorem Layout.names_eq {tokens : List Token} (h : Layout config tokens fragments) :
    names fragments = (tokens.filter (·.kind = .tag)).filterMap (·.binding config) := by
  have hskip {f : Fragment} {fragments : List Fragment} (hf : f.name? = none) :
      names (f :: fragments) = names fragments := List.filterMap_cons_none hf
  have htext {t : Token} {ahead : List Token} (hkind : t.kind.isText) :
      (t :: ahead).filter (·.kind = .tag) = ahead.filter (·.kind = .tag) :=
    List.filter_cons_of_neg fun htag => ne_tag_of_isText hkind (of_decide_eq_true htag)
  have htag {t : Token} {ahead : List Token} {left : Bool} {fragments : List Fragment}
      (hkind : t.kind = .tag)
      (ih : names fragments = (ahead.filter (·.kind = .tag)).filterMap (·.binding config)) :
      names (⟨t.offset, tagShape config left t ahead⟩ :: fragments) =
        ((t :: ahead).filter (·.kind = .tag)).filterMap (·.binding config) := by
    have hname : name? ⟨t.offset, tagShape config left t ahead⟩ = t.binding config := rfl
    rw [List.filter_cons_of_pos (by simpa using hkind), names, List.filterMap_cons,
      List.filterMap_cons, hname, ← ih]
    rfl
  induction h with
  | finish offset hkind htext => simp [names, name?, Shape.tag?, hkind]
  | gapFinish offset hgap hkind htext =>
      rw [tags_gap hgap]
      simp [names, name?, Shape.tag?, hkind]
  | text hkind hformed hinput hahead ih => rw [hskip rfl, htext hkind, ih]
  | gapText offset hgap hkind hformed hinput hahead ih =>
      rw [tags_gap hgap, hskip rfl, hskip rfl, htext hkind, ih]
  | tag hkind hformed hahead ih => exact htag hkind ih
  | @gapTag run t ahead fragments offset hgap hkind hformed hahead ih =>
      rw [tags_gap hgap, hskip (by cases spaceAhead ahead <;> rfl)]
      exact htag hkind ih

end Spacing

/-! ### Captures by name -/

namespace Matcher

theorem lookup_insertByName_self (name : Text) (value : Option Text)
    (entries : List (Text × Option Text)) :
    (insertByName (name, value) entries).lookup name = some value := by
  induction entries with
  | nil => simp [insertByName]
  | cons first entries ih =>
      rw [insertByName]
      by_cases hlt : first.1 < name
      · have hne : (name == first.1) = false :=
          beq_eq_false_iff_ne.2 fun heq => List.lt_irrefl _ (heq ▸ hlt)
        rw [if_pos hlt, List.lookup_cons, hne]
        exact ih
      · rw [if_neg hlt, List.lookup_cons, beq_self_eq_true]

theorem lookup_insertByName_of_ne {name other : Text} (h : other ≠ name) (value : Option Text)
    (entries : List (Text × Option Text)) :
    (insertByName (name, value) entries).lookup other = entries.lookup other := by
  have hne : (other == name) = false := beq_eq_false_iff_ne.2 h
  induction entries with
  | nil => simp [insertByName, List.lookup_cons, hne]
  | cons first entries ih =>
      rw [insertByName]
      by_cases hlt : first.1 < name
      · rw [if_pos hlt, List.lookup_cons, List.lookup_cons, ih]
      · rw [if_neg hlt, List.lookup_cons, hne]

/-- A name that is captured has its value, wherever it stands in the order. -/
theorem lookup_foldr_insertByName {names : List Text} {name : Text} (h : name ∈ names)
    (value : Text → Option Text) :
    ((names.map fun name => (name, value name)).foldr insertByName []).lookup name =
      some (value name) := by
  induction names with
  | nil => simp at h
  | cons first names ih =>
      rw [List.map_cons, List.foldr_cons]
      by_cases hname : name = first
      · rw [hname, lookup_insertByName_self]
      · rw [lookup_insertByName_of_ne hname]
        exact ih ((List.mem_cons.1 h).resolve_left hname)

end Matcher

/-- **What a program captures** is what a way through its fragments captures. -/
theorem Fragment.exists_way_of_captures? {p : Program} {fragments : List Fragment}
    (hp : p.fragments = ⟨0, .start⟩ :: fragments) {output : Text}
    {captured : List (Text × Option Text)}
    (h : (Matcher.mk p (regex p.fragments)).captures? output = some captured) :
    ∃ w ∈ ways fragments (Cursor.start output),
      ∀ name ∈ names fragments, captured.lookup name = some (w.text? (groupName name)) := by
  have hnames : p.names = names fragments := by
    rw [Program.names, hp]
    rfl
  simp only [Matcher.captures?, hnames, hp, search_start, Option.map_map] at h
  obtain ⟨w, hw, rfl⟩ := Option.map_eq_some_iff.1 h
  exact ⟨w, List.mem_of_mem_head? hw, fun name hname => Matcher.lookup_foldr_insertByName hname _⟩

/-! ### Programs -/

namespace Token

/-- The value is what was captured under the name of the tag, or nothing if nothing was.  An anonymous
tag may have any value. -/
def FilledFrom (config : Config) (captured : List (Text × Option Text)) (t : Token) (value : Text) :
    Prop :=
  ∀ name ∈ t.binding config, ∃ got, captured.lookup name = some got ∧ value = got.getD []

end Token

namespace Compiler

open Fragment Token

/-- **What is captured fills the text.**  The tokens make up the text, and its program can be matched.
With what is captured in an output in place of the tags that have names, and some values in place of
the anonymous ones, the text is the output up to white space. -/
theorem captures?_refill {config : Config} {opening closing : Char}
    (hconfig : config.Delimited opening closing) {switches : Switches} {text : Text} {p : Program}
    (h : compile .normalize config switches text = .ok p) :
    (tokens .normalize config switches text).flatMap (written opening closing) = text ∧
      ∃ m, p.matcher? = some m ∧
        ∀ output captured, m.captures? output = some captured →
          ∃ values,
            List.Forall₂ (FilledFrom config captured)
              ((tokens .normalize config switches text).filter (·.kind = .tag)) values ∧
            Text.normalized (weave (segments (tokens .normalize config switches text)) values) =
              Text.normalized output := by
  have hlexed : Lexed (tokens .normalize config switches text) :=
    Lexeme.lexed_ofText hconfig switches _
  have hlayout : Spacing.Layout config (tokens .normalize config switches text) _ :=
    Spacing.layout_ofTokens hlexed
  have hfragments := fragments_of_compile h
  have hnodup := (distinct_of_compile h).1
  rw [hfragments, Policy.table, Spacing.table] at hnodup
  refine ⟨Lexeme.written_ofText hconfig switches _, _,
    matcher?_of_compile (named_of_delimited hconfig) h, fun output captured hcaptured => ?_⟩
  obtain ⟨w, hw, hlookup⟩ := exists_way_of_captures? hfragments hcaptured
  obtain ⟨values, gap, rest, hvalues, hafter, -, hgap, hrest⟩ := hlayout.refills hnodup
    (Way.here (Cursor.start output)) w _ (by simp [Fresh, Way.here]) hw
  rw [Way.here_join] at hvalues
  rw [hgap rfl, List.nil_append] at hafter
  refine ⟨values, ?_, ?_⟩
  · refine List.Forall₂.imp ?_ ((List.forall₂_and_left _ _).2 ⟨fun t ht => ht, hvalues⟩)
    rintro t value ⟨ht, hfills⟩ name hname
    refine ⟨_, hlookup name ?_, hfills name hname⟩
    rw [hlayout.names_eq]
    exact List.mem_filterMap.2 ⟨t, ht, hname⟩
  · rw [hrest.normalized_eq, ← hafter]
    rfl

/-- A tag that captures nothing, an anonymous one and the echo of an input, with white space of other
kinds and lengths around them. -/
theorem captures?_login :
    ∃ p m value, compile .normalize .standard ⟨true, true⟩
        "login: [ab  c]\n<x> <...> <y>\n".toList = .ok p ∧
      p.matcher? = some m ∧
      m.captures? "login: \t ab  c\n  1 2\n".toList =
        some [("x".toList, some "1".toList), ("y".toList, none)] ∧
      Text.normalized ("login: ab  c\n1 ".toList ++ value ++ " \n".toList) =
        Text.normalized "login: \t ab  c\n  1 2\n".toList := by
  have htokens : tokens .normalize .standard ⟨true, true⟩ "login: [ab  c]\n<x> <...> <y>\n".toList =
      [⟨0, .literal, "login:".toList⟩, ⟨6, .spaces, " ".toList⟩, ⟨7, .input, "ab  c".toList⟩,
        ⟨14, .newlines, "\n".toList⟩, ⟨15, .tag, "<x>".toList⟩, ⟨18, .spaces, " ".toList⟩,
        ⟨19, .tag, "<...>".toList⟩, ⟨24, .spaces, " ".toList⟩, ⟨25, .tag, "<y>".toList⟩,
        ⟨28, .newlines, "\n".toList⟩, ⟨29, .finish, []⟩] := by decide +kernel
  obtain ⟨p, hp⟩ := exists_compile_eq_ok htokens (by decide +kernel) (by decide +kernel)
  have hfragments := fragments_of_compile hp
  rw [htokens] at hfragments
  obtain ⟨-, m, hm, hrefill⟩ := captures?_refill Config.delimited_standard hp
  have hmatcher := eq_of_matcher? TagRule.named_delimited hp hm
  have hcaptured : m.captures? "login: \t ab  c\n  1 2\n".toList =
      some [("x".toList, some "1".toList), ("y".toList, none)] := by
    rw [hmatcher, captures?_eq hfragments]
    decide +kernel
  obtain ⟨values, hvalues, hnormalized⟩ := hrefill _ _ hcaptured
  rw [htokens] at hvalues hnormalized
  cases hvalues with
  | @cons _ x _ values hx hvalues =>
      cases hvalues with
      | @cons _ value _ values _ hvalues =>
          cases hvalues with
          | @cons _ y _ values hy hvalues =>
              cases hvalues
              obtain ⟨_, ⟨⟩, rfl⟩ := hx "x".toList (by decide +kernel)
              obtain ⟨_, ⟨⟩, rfl⟩ := hy "y".toList (by decide +kernel)
              exact ⟨p, m, value, hp, hm, hcaptured, hnormalized⟩

end Compiler

end Transcript
