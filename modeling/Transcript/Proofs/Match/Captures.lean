/-
**What is captured in front of newlines.**

An output that is matched is still matched when newlines are added at its end, and the tags of the
program still capture what they captured.  There is one exception, which comes from tags that take as
much as they can: a greedy tag at the end of a line, or a tag between white space, may reach further
once the new newline stands in for the white space in front of the last tag.  Then this tag and those
behind it may capture something else.  The tags in front of it never do.

Main definitions:

* `Transcript.Matcher.KeptBut` — the same is captured, but for some names.

Main results:

* `Transcript.Matcher.exists_order` — the order of the captures does not depend on what they are;
* `Transcript.Compiler.captures?_newlines` — **newlines at the end of an output keep what is
  captured**, but for the names that may move;
* `Transcript.Compiler.not_captures?_newline` — a name that moves.
-/

import Mathlib.Data.List.Nodup
import Transcript.Proofs.Compile.Groups
import Transcript.Proofs.Match.Orderly
import Transcript.Proofs.Match.Trailing

set_option relaxedAutoImplicit false
set_option autoImplicit false

namespace Transcript

/-! ### Lists of captures -/

namespace Matcher

/-- What is captured after is what was captured before, but for some names. -/
structure KeptBut (names : List Text) (before after : List (Text × Option Text)) : Prop where
  names_eq : after.map Prod.fst = before.map Prod.fst
  lookup_eq : ∀ name, name ∉ names → after.lookup name = before.lookup name
  eq_of_nil : names = [] → after = before

namespace KeptBut

variable {names : List Text} {first second third : List (Text × Option Text)}

theorem refl (names : List Text) (captured : List (Text × Option Text)) :
    KeptBut names captured captured := ⟨rfl, fun _ _ => rfl, fun _ => rfl⟩

theorem trans (h : KeptBut names first second) (h' : KeptBut names second third) :
    KeptBut names first third where
  names_eq := h'.names_eq.trans h.names_eq
  lookup_eq name hname := (h'.lookup_eq name hname).trans (h.lookup_eq name hname)
  eq_of_nil hnil := (h'.eq_of_nil hnil).trans (h.eq_of_nil hnil)

end KeptBut

/-- Where an entry is put depends on its name alone. -/
theorem exists_order_insert (name : Text) (order : List Text) :
    ∃ order' : List Text, (∀ other ∈ order', other = name ∨ other ∈ order) ∧
      ∀ value : Text → Option Text,
        insertByName (name, value name) (order.map fun other => (other, value other)) =
          order'.map fun other => (other, value other) := by
  induction order with
  | nil => exact ⟨[name], by simp, fun value => rfl⟩
  | cons first order ih =>
      obtain ⟨order', hmem, horder⟩ := ih
      by_cases hlt : first < name
      · refine ⟨first :: order', fun other hother => ?_, fun value => ?_⟩
        · rcases List.mem_cons.1 hother with rfl | hother
          · exact Or.inr (List.mem_cons_self ..)
          · exact (hmem other hother).imp id (List.mem_cons_of_mem _)
        · rw [List.map_cons, insertByName, if_pos hlt, horder, List.map_cons]
      · refine ⟨name :: first :: order, fun other hother => ?_, fun value => ?_⟩
        · exact List.mem_cons.1 hother
        · rw [List.map_cons, insertByName, if_neg hlt, List.map_cons, List.map_cons]

/-- **The order of the captures** does not depend on what they are. -/
theorem exists_order (names : List Text) :
    ∃ order : List Text, (∀ name ∈ order, name ∈ names) ∧
      ∀ value : Text → Option Text,
        (names.map fun name => (name, value name)).foldr insertByName [] =
          order.map fun name => (name, value name) := by
  induction names with
  | nil => exact ⟨[], by simp, fun value => rfl⟩
  | cons name names ih =>
      obtain ⟨order, hmem, horder⟩ := ih
      obtain ⟨order', hmem', horder'⟩ := exists_order_insert name order
      refine ⟨order', fun other hother => ?_, fun value => ?_⟩
      · rcases hmem' other hother with rfl | hother
        · exact List.mem_cons_self ..
        · exact List.mem_cons_of_mem _ (hmem other hother)
      · rw [List.map_cons, List.foldr_cons, horder, horder']

theorem lookup_map_congr {order : List Text} {value value' : Text → Option Text} {name : Text}
    (h : name ∈ order → value' name = value name) :
    (order.map fun other => (other, value' other)).lookup name =
      (order.map fun other => (other, value other)).lookup name := by
  induction order with
  | nil => rfl
  | cons first order ih =>
      rw [List.map_cons, List.map_cons, List.lookup_cons, List.lookup_cons]
      by_cases hname : name = first
      · have hvalue := h (by rw [hname]; exact List.mem_cons_self ..)
        simp [← hname, hvalue]
      · have hbeq : (name == first) = false := beq_eq_false_iff_ne.2 hname
        rw [hbeq]
        exact ih fun hmem => h (List.mem_cons_of_mem _ hmem)

/-- Values that are the same but for some names give the same captures but for these. -/
theorem keptBut_of_values {names moved : List Text} {value value' : Text → Option Text}
    (h : ∀ name ∈ names, name ∉ moved → value' name = value name) :
    KeptBut moved ((names.map fun name => (name, value name)).foldr insertByName [])
      ((names.map fun name => (name, value' name)).foldr insertByName []) := by
  obtain ⟨order, hmem, horder⟩ := exists_order names
  rw [horder, horder]
  refine ⟨?_, fun name hname => ?_, ?_⟩
  · rw [List.map_map, List.map_map]
    rfl
  · exact lookup_map_congr fun hin => h name (hmem name hin) hname
  · rintro rfl
    refine List.map_congr_left fun name hname => ?_
    rw [h name (hmem name hname) (by simp)]

end Matcher

/-! ### One newline -/

namespace Fragment

/-- A name that does not move has a group that does not move. -/
theorem group_not_mem_moved {fragments : List Fragment} {name : Text}
    (hnodup : (fragments.flatMap fun f => f.shape.groups).Nodup) (hname : name ∈ names fragments)
    (hmoved : name ∉ moved fragments) : groupName name ∉ (moved fragments).map groupName := by
  rw [groups_eq_names] at hnodup
  intro hgroup
  obtain ⟨other, hother, heq⟩ := List.mem_map.1 hgroup
  have hsame := List.inj_on_of_nodup_map hnodup (moved_subset_names fragments hother) hname heq
  rw [hsame] at hother
  exact hmoved hother

/-- One newline at the end of an output. -/
theorem captures?_newline {p : Program} {fragments : List Fragment}
    (hp : p.fragments = ⟨0, .start⟩ :: fragments) (h : Orderly fragments)
    (hnodup : (p.fragments.flatMap fun f => f.shape.groups).Nodup) {output : Text}
    {captured : List (Text × Option Text)}
    (hcaptured : (Matcher.mk p (regex p.fragments)).captures? output = some captured) :
    ∃ captured', (Matcher.mk p (regex p.fragments)).captures? (output ++ ['\n']) = some captured' ∧
      Matcher.KeptBut (moved p.fragments) captured captured' := by
  have hnames : p.names = names fragments := by
    rw [Program.names, hp]
    rfl
  have hmoved : moved p.fragments = moved fragments := by
    rw [hp]
    rfl
  have hnodup' : (fragments.flatMap fun f => f.shape.groups).Nodup := by
    rw [hp] at hnodup
    exact hnodup
  simp only [Matcher.captures?, hnames, hp, search_start, ← Cursor.extend_start,
    Option.map_map] at hcaptured ⊢
  obtain ⟨w, hw, rfl⟩ := Option.map_eq_some_iff.1 hcaptured
  obtain ⟨w', hw', hagrees⟩ := h.keeps (Cursor.start output) w hw
  refine ⟨_, by rw [hw']; rfl, ?_⟩
  rw [← hp, hmoved]
  refine Matcher.keptBut_of_values fun name hname hkept => ?_
  have hplaced : ∀ m ∈ w.marks, ∃ s, (Cursor.start output).Reads s m.2 := by
    have hmem := List.mem_of_mem_head? hw
    rw [← ways_regex] at hmem
    exact Regex.placed_ways _ _ w hmem
  exact Match.group?_of_agreesOn (hagrees _ (group_not_mem_moved hnodup' hname hkept)) hplaced

end Fragment

/-! ### Programs -/

namespace Compiler

open Fragment

/-- **Newlines at the end of an output keep what is captured.**  Let inputs be switched off.  A program
can be matched; an output that it matches is still matched with any number of newlines at its end, and
every name captures what it captured, or nothing where it captured nothing, but for the names that may
move. -/
theorem captures?_newlines {policy : Policy} {config : Config} {switches : Switches}
    (htags : ∃ opening closing, config.tags = .delimited opening closing)
    (hoff : switches.inputs = false) {text : Text} {p : Program}
    (h : compile policy config switches text = .ok p) :
    ∃ m, p.matcher? = some m ∧
      ∀ output captured, m.captures? output = some captured →
        ∀ k, ∃ captured', m.captures? (output ++ List.replicate k '\n') = some captured' ∧
          Matcher.KeptBut (moved p.fragments) captured captured' := by
  obtain ⟨fragments, hp, horderly⟩ := orderly_of_compile htags hoff h
  have hnodup := (distinct_of_compile h).1
  have hnamed : config.tags.Named := by
    obtain ⟨opening, closing, htags⟩ := htags
    rw [htags]
    exact TagRule.named_delimited
  refine ⟨_, matcher?_of_compile hnamed h, fun output captured hcaptured k => ?_⟩
  induction k with
  | zero => exact ⟨captured, by rw [List.replicate_zero, List.append_nil]; exact hcaptured, .refl _ _⟩
  | succ k ih =>
      obtain ⟨captured', hcaptured', hkept⟩ := ih
      obtain ⟨captured'', hcaptured'', hkept'⟩ := captures?_newline hp horderly hnodup hcaptured'
      rw [List.append_assoc, ← List.replicate_succ'] at hcaptured''
      exact ⟨captured'', hcaptured'', hkept.trans hkept'⟩

theorem captures?_eq {p : Program} {fragments : List Fragment} (h : p.fragments = fragments)
    (output : Text) : (Matcher.mk p (regex p.fragments)).captures? output =
      (Matcher.mk ⟨fragments, [], []⟩ (regex fragments)).captures? output := by
  obtain ⟨fragments', inputs, warnings⟩ := p
  obtain rfl : fragments' = fragments := h
  rfl

/-- The newline does not move what stands behind a text of its own. -/
theorem captures?_uid :
    ∃ p m, compile .literal .standard ⟨true, false⟩ "<...>\nid <x>".toList = .ok p ∧
      p.matcher? = some m ∧
      m.captures? "hi\nid 7".toList = some [("x".toList, some "7".toList)] ∧
      m.captures? "hi\nid 7\n\n".toList = some [("x".toList, some "7".toList)] := by
  have htokens : tokens .literal .standard ⟨true, false⟩ "<...>\nid <x>".toList =
      [⟨0, .tag, "<...>".toList⟩, ⟨5, .newlines, "\n".toList⟩, ⟨6, .literal, "id".toList⟩,
        ⟨8, .spaces, " ".toList⟩, ⟨9, .tag, "<x>".toList⟩, ⟨12, .finish, []⟩] := by decide +kernel
  obtain ⟨p, hp⟩ := exists_compile_eq_ok htokens (by decide +kernel) (by decide +kernel)
  have hfragments : p.fragments = [⟨0, .start⟩, ⟨0, .tag none .bare true⟩, ⟨5, .literal "\n".toList⟩,
      ⟨6, .literal "id".toList⟩, ⟨8, .literal " ".toList⟩, ⟨9, .tag (some "x".toList) .lineEnd false⟩,
      ⟨12, .finish .newlines⟩] := by
    rw [fragments_of_compile hp, htokens]
    decide +kernel
  obtain ⟨m, hm, hnewlines⟩ := captures?_newlines ⟨'<', '>', rfl⟩ rfl hp
  have hmatcher : m = Matcher.mk p (regex p.fragments) := by
    rw [matcher?_of_compile TagRule.named_delimited hp, Option.some.injEq] at hm
    exact hm.symm
  have hcaptured : m.captures? "hi\nid 7".toList = some [("x".toList, some "7".toList)] := by
    rw [hmatcher, captures?_eq hfragments]
    decide +kernel
  obtain ⟨captured', hcaptured', hkept⟩ := hnewlines _ _ hcaptured 2
  rw [hkept.eq_of_nil (by rw [hfragments]; decide)] at hcaptured'
  exact ⟨p, m, hp, hm, hcaptured, hcaptured'⟩

/-- A name that moves: the greedy tag takes the second line, and the newline is taken for the one
between the two tags. -/
theorem not_captures?_newline :
    ∃ p m, compile .literal .standard ⟨true, false⟩ "<...>\n<x>".toList = .ok p ∧
      p.matcher? = some m ∧
      m.captures? "a\nb".toList = some [("x".toList, some "b".toList)] ∧
      m.captures? "a\nb\n".toList = some [("x".toList, none)] := by
  have htokens : tokens .literal .standard ⟨true, false⟩ "<...>\n<x>".toList =
      [⟨0, .tag, "<...>".toList⟩, ⟨5, .newlines, "\n".toList⟩, ⟨6, .tag, "<x>".toList⟩,
        ⟨9, .finish, []⟩] := by decide +kernel
  obtain ⟨p, hp⟩ := exists_compile_eq_ok htokens (by decide +kernel) (by decide +kernel)
  have hfragments : p.fragments = [⟨0, .start⟩, ⟨0, .tag none .bare true⟩, ⟨5, .literal "\n".toList⟩,
      ⟨6, .tag (some "x".toList) .lineEnd false⟩, ⟨9, .finish .newlines⟩] := by
    rw [fragments_of_compile hp, htokens]
    decide +kernel
  refine ⟨p, _, hp, matcher?_of_compile TagRule.named_delimited hp, ?_, ?_⟩
  · rw [captures?_eq hfragments]
    decide +kernel
  · rw [captures?_eq hfragments]
    decide +kernel

end Compiler

end Transcript
