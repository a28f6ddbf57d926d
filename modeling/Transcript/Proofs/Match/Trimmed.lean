/-
**What is captured beside white space.**

Where spacing is normalized, white space that stands beside a tag in the text does not get into what the
tag captures.  A tag with white space on one side only may be empty, but does not begin or end with white
space there; one with white space on both sides captures nothing rather than an empty text.  What keeps
the white space out is not the same everywhere: it is the run of white space in front of the tag, which
cannot be longer, or a guard of the tag itself, depending on what stands behind the tag.

Main definitions:

* `Transcript.Token.Trimmed` — what is captured is free of white space on the given sides;
* `Transcript.Token.Tidy` — so it is for each tag and the sides where white space stands.

Main results:

* `Transcript.Shape.trimmed_of_mem_ways` — what a tag captures between white space or text;
* `Transcript.Spacing.Layout.tidy` — what is captured on a way through a layout;
* `Transcript.Compiler.captures?_trimmed` — **what a program captures** beside white space.
-/

import Transcript.Proofs.Match.Decomposition

set_option relaxedAutoImplicit false
set_option autoImplicit false

namespace Transcript

/-! ### One tag -/

namespace Token

/-- What is captured, if anything is, does not begin with white space if there is any on the left, nor end
with it if there is any on the right.  If there is on both sides, it is not empty. -/
structure Trimmed (left right : Bool) (got : Option Text) : Prop where
  head : left = true → ∀ value ∈ got, ∀ b ∈ value.head?, Text.isBlank b = false
  last : right = true → ∀ value ∈ got, ∀ b ∈ value.getLast?, Text.isBlank b = false
  ne_nil : left = true → right = true → ∀ value ∈ got, value ≠ []

theorem trimmed_none (left right : Bool) : Trimmed left right none := ⟨nofun, nofun, nofun⟩

end Token

namespace Cursor

variable {c d : Cursor} {s : Text}

/-- In front of no white space, no text begins with it. -/
theorem Reads.not_blank_head (h : c.Reads s d) (hahead : c.blankAhead = false) :
    ∀ b ∈ s.head?, Text.isBlank b = false := by
  intro b hb
  rw [blankAhead, h.after, List.head?_append, Option.mem_def.1 hb] at hahead
  exact hahead

/-- Behind no white space, no text ends with it. -/
theorem Reads.not_blank_last (h : c.Reads s d) (hbehind : d.blankBehind = false) :
    ∀ b ∈ s.getLast?, Text.isBlank b = false := by
  intro b hb
  rw [blankBehind, h.previous, Option.mem_def.1 hb] at hbehind
  exact hbehind

end Cursor

namespace Shape

open Token Spacing

/-- **What a tag captures** between white space or text.  With white space on the left only, the tag begins
behind all of it. -/
theorem trimmed_of_mem_ways {name : Text} {left right greedy : Bool} {c : Cursor} {u : Way}
    (hu : u ∈ (tag (some name) (context left right) greedy).ways c)
    (hahead : left = true → right = false → c.blankAhead = false) :
    Trimmed left right (u.text? (groupName name)) := by
  -- where the tag has no guard on its right, it stops at any place
  have hplace {e : Cursor} (he : e ∈ Regex.inOrder greedy c.places) :
      ∃ value, c.Reads value e ∧ (taken (some name) c e).text? (groupName name) = some value := by
    obtain ⟨value, hvalue⟩ := Cursor.mem_places.1 (Regex.mem_inOrder.1 he)
    exact ⟨value, hvalue, text?_taken name hvalue⟩
  cases left with
  | false =>
      refine ⟨fun hleft => Bool.noConfusion hleft, fun hright => ?_, fun hleft => Bool.noConfusion hleft⟩
      subst hright
      rw [context, ways_rightSpace] at hu
      obtain ⟨e, he, rfl⟩ := List.mem_map.1 hu
      obtain ⟨he, hholds⟩ := List.mem_filter.1 he
      obtain ⟨value, hreads, hgot⟩ := hplace he
      rw [hgot]
      rintro _ ⟨⟩
      exact hreads.not_blank_last (holds_notPrevious_blank.1 hholds)
  | true =>
      cases right with
      | false =>
          refine ⟨fun _ => ?_, fun hright => Bool.noConfusion hright,
            fun _ hright => Bool.noConfusion hright⟩
          rw [context, ways_bare _ (Or.inr rfl)] at hu
          obtain ⟨e, he, rfl⟩ := List.mem_map.1 hu
          obtain ⟨value, hreads, hgot⟩ := hplace he
          rw [hgot]
          rintro _ ⟨⟩
          exact hreads.not_blank_head (hahead rfl rfl)
      | true =>
          rw [context, ways_bothSpace, List.mem_append, List.mem_singleton] at hu
          rcases hu with hu | rfl
          · obtain ⟨e, he, rfl⟩ := List.mem_map.1 hu
            obtain ⟨he, hholds⟩ := List.mem_filter.1 he
            obtain ⟨value, hne, hreads⟩ := Cursor.exists_of_mem_tail_places (Regex.mem_inOrder.1 he)
            rw [text?_taken name hreads]
            refine ⟨fun _ => ?_, fun _ => ?_, fun _ _ => ?_⟩ <;> rintro _ ⟨⟩
            · exact hreads.not_blank_head c.blankAhead_skip
            · exact hreads.not_blank_last (holds_notPrevious_blank.1 hholds)
            · exact hne
          · -- the tag takes no part
            exact trimmed_none true true

end Shape

/-! ### All tags -/

namespace Token

open Spacing (spaceAhead)

variable {config : Config} {got : Text → Option Text} {left : Bool} {tokens run ahead : List Token}

/-- What is captured under the name of each tag is free of white space on the sides where white space
stands beside the tag, or the end of the text.  White space may stand on the left of all tokens. -/
def Tidy (config : Config) (got : Text → Option Text) : (left : Bool) → List Token → Prop
  | _, [] => True
  | left, t :: ahead =>
      (t.kind = .tag → ∀ name ∈ t.binding config, Trimmed left (spaceAhead ahead) (got name)) ∧
        Tidy config got t.kind.isSpace ahead

theorem Tidy.cons_of_ne_tag {t : Token} (h : Tidy config got t.kind.isSpace ahead)
    (hkind : t.kind ≠ .tag) : Tidy config got left (t :: ahead) := ⟨fun htag => absurd htag hkind, h⟩

/-- Behind a run of white space there is white space on the left. -/
theorem Tidy.gap (h : Tidy config got true ahead) (hgap : Gap run) :
    Tidy config got left (run ++ ahead) := by
  have hrun (left : Bool) {run : List Token} (hspace : ∀ t ∈ run, t.kind.isSpace = true)
      (hleft : run = [] → left = true) : Tidy config got left (run ++ ahead) := by
    induction run generalizing left with
    | nil =>
        rw [hleft rfl]
        exact h
    | cons t run ih =>
        have ht := hspace t (List.mem_cons_self ..)
        refine Tidy.cons_of_ne_tag (ih _ (fun u hu => hspace u (List.mem_cons_of_mem _ hu)) fun _ => ht) ?_
        intro hkind
        rw [hkind] at ht
        exact Bool.noConfusion ht
  exact hrun left hgap.isSpace fun hnil => absurd hnil hgap.ne_nil

/-- The sides of a tag among the tokens. -/
theorem Tidy.trimmed {front back : List Token} {t : Token}
    (h : Tidy config got left (front ++ t :: back)) (hkind : t.kind = .tag) {name : Text}
    (hname : name ∈ t.binding config) :
    Trimmed ((front.getLast?.map (·.kind.isSpace)).getD left) (spaceAhead back) (got name) := by
  induction front generalizing left with
  | nil => exact h.1 hkind name hname
  | cons s front ih =>
      have hrest := ih h.2
      rw [List.getLast?_cons]
      cases hlast : front.getLast? with
      | none => rwa [hlast] at hrest
      | some u => rwa [hlast] at hrest

end Token

namespace Spacing

open Fragment Token

variable {config : Config} {tokens : List Token} {fragments : List Fragment}

theorem tidy_finish {t : Token} {got : Text → Option Text} (left : Bool) (hkind : t.kind = .finish) :
    Tidy config got left [t] := ⟨fun htag => TokenKind.noConfusion (hkind.symm.trans htag), trivial⟩

theorem tidy_tag {t : Token} {left : Bool} {first u v : Way} {c d : Cursor} (hkind : t.kind = .tag)
    (hnodup : ((⟨t.offset, tagShape config left t tokens⟩ :: fragments).flatMap
      fun f => f.shape.groups).Nodup)
    (hfresh : Fresh (⟨t.offset, tagShape config left t tokens⟩ :: fragments) first)
    (hu : u ∈ (tagShape config left t tokens).ways c) (hv : v ∈ Fragment.ways fragments d)
    (hahead : left = true → spaceAhead tokens = false → c.blankAhead = false)
    (hrest : Tidy config (fun name => ((first.join u).join v).text? (groupName name)) false tokens) :
    Tidy config (fun name => ((first.join u).join v).text? (groupName name)) left (t :: tokens) := by
  refine ⟨fun _ name hname => ?_, by rw [hkind]; exact hrest⟩
  have hbinding : t.binding config = some name := hname
  have htext := hfresh.text?_join (u := u) hname hnodup hv
  rw [tagShape, hbinding] at hu
  simpa only [htext] using Shape.trimmed_of_mem_ways hu hahead

/-- **What is captured on a way through a layout**, by induction on the layout. -/
theorem Layout.tidy (h : Layout config tokens fragments)
    (hnodup : (fragments.flatMap fun f => f.shape.groups).Nodup) :
    ∀ (first w : Way) (c : Cursor), Fresh fragments first → w ∈ Fragment.ways fragments c →
      Tidy config (fun name => (first.join w).text? (groupName name)) false tokens := by
  induction h with
  | finish offset hkind htext => exact fun _ _ _ _ _ => tidy_finish false hkind
  | gapFinish offset hgap hkind htext => exact fun _ _ _ _ _ => .gap (tidy_finish true hkind) hgap
  | text hkind hformed hinput hahead ih =>
      intro first w c hfresh hw
      obtain ⟨u, hu, v, hv, rfl⟩ := Way.mem_chain.1 hw
      rw [← Way.join_assoc]
      refine .cons_of_ne_tag ?_ (ne_tag_of_isText hkind)
      rw [isSpace_eq_false_of_isText hkind]
      exact ih (nodup_groups_tail hnodup) _ _ _ (hfresh.join hnodup hu) hv
  | gapText offset hgap hkind hformed hinput hahead ih =>
      intro first w c hfresh hw
      obtain ⟨g, hg, w', hw', rfl⟩ := Way.mem_chain.1 hw
      obtain ⟨u, hu, v, hv, rfl⟩ := Way.mem_chain.1 hw'
      rw [← Way.join_assoc, ← Way.join_assoc]
      refine .gap (.cons_of_ne_tag ?_ (ne_tag_of_isText hkind)) hgap
      rw [isSpace_eq_false_of_isText hkind]
      have hrest := nodup_groups_tail hnodup
      exact ih (nodup_groups_tail hrest) _ _ _ ((hfresh.join hnodup hg).join hrest hu) hv
  | tag hkind hformed hahead ih =>
      intro first w c hfresh hw
      obtain ⟨u, hu, v, hv, rfl⟩ := Way.mem_chain.1 hw
      rw [← Way.join_assoc]
      exact tidy_tag hkind hnodup hfresh hu hv (fun hleft => Bool.noConfusion hleft)
        (ih (nodup_groups_tail hnodup) _ _ _ (hfresh.join hnodup hu) hv)
  | gapTag offset hgap hkind hformed hahead ih =>
      intro first w c hfresh hw
      obtain ⟨g, hg, w', hw', rfl⟩ := Way.mem_chain.1 hw
      obtain ⟨u, hu, v, hv, rfl⟩ := Way.mem_chain.1 hw'
      rw [← Way.join_assoc, ← Way.join_assoc]
      have hrest := nodup_groups_tail hnodup
      have hfresh' := hfresh.join hnodup hg
      refine .gap (tidy_tag hkind hrest hfresh' hu hv (fun _ hspace => ?_)
        (ih (nodup_groups_tail hrest) _ _ _ (hfresh'.join hrest hu) hv)) hgap
      -- with text behind the tag, the run in front of it goes through all white space
      obtain ⟨s, -, hadmits⟩ := Shape.leads_iff.1 ⟨g, hg, rfl⟩
      rw [hspace] at hadmits
      exact hadmits.2.2

end Spacing

/-! ### Programs -/

namespace Compiler

open Fragment Token

/-- **What a program captures** beside white space.  The program can be matched.  If it matches an output,
each tag with a name is bound to nothing or to a value.  If white space stands in front of the tag, the
value is empty or does not begin with white space; if white space or the end stands behind it, the value is
empty or does not end with white space; and if both do, it is not empty. -/
theorem captures?_trimmed {config : Config} {opening closing : Char}
    (hconfig : config.Delimited opening closing) {switches : Switches} {text : Text} {p : Program}
    (h : compile .normalize config switches text = .ok p) :
    ∃ m, p.matcher? = some m ∧ ∀ output, m.isMatch output = true →
      ∃ captured, m.captures? output = some captured ∧
        ∀ front t back, tokens .normalize config switches text = front ++ t :: back → t.kind = .tag →
          ∀ name ∈ t.binding config, ∃ got, captured.lookup name = some got ∧
            ((∃ s ∈ front.getLast?, s.kind.isSpace = true) →
              ∀ value ∈ got, ∀ b ∈ value.head?, Text.isBlank b = false) ∧
            ((∃ s ∈ back.head?, s.kind.isSpace = true ∨ s.kind = .finish) →
              ∀ value ∈ got, ∀ b ∈ value.getLast?, Text.isBlank b = false) ∧
            ((∃ s ∈ front.getLast?, s.kind.isSpace = true) →
              (∃ s ∈ back.head?, s.kind.isSpace = true ∨ s.kind = .finish) →
                ∀ value ∈ got, value ≠ []) := by
  have hlayout : Spacing.Layout config (tokens .normalize config switches text) _ :=
    Spacing.layout_ofTokens (Lexeme.lexed_ofText hconfig switches _)
  have hfragments := fragments_of_compile h
  have hnodup := (distinct_of_compile h).1
  rw [hfragments, Policy.table, Spacing.table] at hnodup
  refine ⟨_, matcher?_of_compile (named_of_delimited hconfig) h, fun output hmatch => ?_⟩
  rw [← Matcher.isSome_captures?] at hmatch
  obtain ⟨captured, hcaptured⟩ := Option.isSome_iff_exists.1 hmatch
  refine ⟨captured, hcaptured, fun front t back htokens hkind name hname => ?_⟩
  obtain ⟨w, hw, hlookup⟩ := exists_way_of_captures? hfragments hcaptured
  have htidy := hlayout.tidy hnodup (Way.here (Cursor.start output)) w _ (by simp [Fresh, Way.here]) hw
  rw [htokens] at htidy
  have htrimmed := htidy.trimmed hkind hname
  rw [Way.here_join] at htrimmed
  have hleft (h : ∃ s ∈ front.getLast?, s.kind.isSpace = true) :
      (front.getLast?.map (·.kind.isSpace)).getD false = true := by
    obtain ⟨s, hs, hspace⟩ := h
    rw [Option.mem_def.1 hs]
    exact hspace
  have hright (h : ∃ s ∈ back.head?, s.kind.isSpace = true ∨ s.kind = .finish) :
      Spacing.spaceAhead back = true := by
    obtain ⟨s, hs, hspace⟩ := h
    obtain ⟨rest, rfl⟩ := List.head?_eq_some_iff.1 hs
    simpa [Spacing.spaceAhead] using hspace
  refine ⟨_, hlookup name ?_, fun hl => htrimmed.head (hleft hl), fun hr => htrimmed.last (hright hr),
    fun hl hr => htrimmed.ne_nil (hleft hl) (hright hr)⟩
  rw [hlayout.names_eq, htokens]
  exact List.mem_filterMap.2 ⟨t, List.mem_filter.2 ⟨by simp, by simpa using hkind⟩, hname⟩

/-- A tag between white space that captures, one with text behind it, and one that captures nothing. -/
theorem captures?_greeting :
    ∃ p m captured, compile .normalize .standard ⟨true, true⟩ "say <x> and <y>!\n<z>\n".toList = .ok p ∧
      p.matcher? = some m ∧ m.captures? "say  1 2  and \t b!\n\n".toList = some captured ∧
      captured = [("x".toList, some "1 2".toList), ("y".toList, some "b".toList), ("z".toList, none)] ∧
      ∃ got, captured.lookup "x".toList = some got ∧
        ∀ value ∈ got, value ≠ [] ∧ (∀ b ∈ value.head?, Text.isBlank b = false) ∧
          ∀ b ∈ value.getLast?, Text.isBlank b = false := by
  have htokens : tokens .normalize .standard ⟨true, true⟩ "say <x> and <y>!\n<z>\n".toList =
      [⟨0, .literal, "say".toList⟩, ⟨3, .spaces, " ".toList⟩] ++ ⟨4, .tag, "<x>".toList⟩ ::
        [⟨7, .spaces, " ".toList⟩, ⟨8, .literal, "and".toList⟩, ⟨11, .spaces, " ".toList⟩,
          ⟨12, .tag, "<y>".toList⟩, ⟨15, .literal, "!".toList⟩, ⟨16, .newlines, "\n".toList⟩,
          ⟨17, .tag, "<z>".toList⟩, ⟨20, .newlines, "\n".toList⟩, ⟨21, .finish, []⟩] := by
    decide +kernel
  obtain ⟨p, hp⟩ := exists_compile_eq_ok htokens (by decide +kernel) (by decide +kernel)
  have hfragments := fragments_of_compile hp
  rw [htokens] at hfragments
  obtain ⟨m, hm, htrimmed⟩ := captures?_trimmed Config.delimited_standard hp
  have hmatcher := eq_of_matcher? TagRule.named_delimited hp hm
  have hgot : m.captures? "say  1 2  and \t b!\n\n".toList = some
      [("x".toList, some "1 2".toList), ("y".toList, some "b".toList), ("z".toList, none)] := by
    rw [hmatcher, captures?_eq hfragments]
    decide +kernel
  have hmatch : m.isMatch "say  1 2  and \t b!\n\n".toList = true := by
    rw [← Matcher.isSome_captures?, hgot]
    rfl
  obtain ⟨captured, hcaptured, htags⟩ := htrimmed _ hmatch
  obtain rfl := Option.some.inj (hcaptured.symm.trans hgot)
  obtain ⟨got, hlookup, hhead, hlast, hne⟩ := htags _ _ _ htokens rfl "x".toList (by decide +kernel)
  refine ⟨p, m, _, hp, hm, hgot, rfl, got, hlookup, fun value hvalue => ⟨hne ?_ ?_ value hvalue,
    hhead ?_ value hvalue, hlast ?_ value hvalue⟩⟩
  · exact ⟨_, rfl, rfl⟩
  · exact ⟨_, rfl, Or.inl rfl⟩
  · exact ⟨_, rfl, rfl⟩
  · exact ⟨_, rfl, Or.inl rfl⟩

end Compiler

end Transcript
