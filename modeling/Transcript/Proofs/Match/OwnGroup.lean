/-
**Each name reads its own group.**

A name becomes the name of a group when what is no letter and no digit in it is replaced, and several
names may become the same one.  The names of a program that compiles do not: the source of every
fragment opens the group of the name that it binds, and no other fragment opens that group.  So what is
looked up for a name in a match of the whole is what the fragment of that name captured, out of the part
of the output that this fragment itself went through.

Main definitions:

* `Transcript.Fragment.Passes` — fragments that go through an output one after the other;
* `Transcript.Fragment.joined` — their ways as one way;
* `Transcript.Fragment.OwnGroups` — no two fragments open the same group.

Main results:

* `Transcript.Compiler.tagged_of_compile` — the tags of a program are those of its text;
* `Transcript.Fragment.Separate.ownGroups` — the groups of distinct fragments are distinct;
* `Transcript.Fragment.Passes.text?_joined` — what is captured under a name is what its own fragment
  captures;
* `Transcript.Compiler.captures?_own` — **each name reads its own group**.
-/

import Transcript.Proofs.Compile.Agreement
import Transcript.Proofs.Compile.Cues
import Transcript.Proofs.Markup.Naming
import Transcript.Proofs.Match.Decomposition
import Transcript.Proofs.Match.Source

set_option relaxedAutoImplicit false
set_option autoImplicit false

namespace Transcript

/-! ### The tags of a program -/

namespace Token

theorem filterMap_tagged? (config : Config) (ts : List Token) :
    ts.filterMap (tagged? config) =
      (ts.filter (·.kind = .tag)).map fun t => (t.offset, t.binding config) := by
  induction ts with
  | nil => rfl
  | cons t ts ih =>
      rw [List.filterMap_cons, tagged?, ih]
      by_cases htag : t.kind = .tag
      · rw [if_pos htag, List.filter_cons_of_pos (by simpa using htag)]
        rfl
      · rw [if_neg htag, List.filter_cons_of_neg (by simpa using htag)]

end Token

/-- The tags of a program are those of its text, in their order. -/
theorem Compiler.tagged_of_compile {policy : Policy} {config : Config} {switches : Switches}
    {text : Text} {p : Program} (h : compile policy config switches text = .ok p) :
    p.tagged = ((tokens policy config switches text).filter (·.kind = .tag)).map fun t =>
      (t.offset, t.binding config) := by
  obtain ⟨last, hrun, hdone, hfragments⟩ := compile_eq_ok h
  have htagged : Fragment.tagged (⟨0, .start⟩ :: policy.entries config
      (tokens policy config switches text).reverse []) =
      Fragment.tagged (policy.entries config (tokens policy config switches text).reverse []) := rfl
  rw [Program.tagged, hfragments, Machine.fragments_of_feedAll hrun hdone, htagged,
    Policy.tagged_entries, List.filterMap_reverse, List.reverse_reverse, Token.filterMap_tagged?]

/-! ### Groups that no two fragments share -/

namespace Fragment

/-- The groups of the fragments are their own: the source of a fragment opens the group of the name that
it binds and nothing else, and no two fragments open the same group. -/
structure OwnGroups (fragments : List Fragment) : Prop where
  opens : ∀ f ∈ fragments, ∃ r, Regex.read? .program f.pattern = some r ∧
    r.groups = (f.name?.map groupName).toList
  apart : ∀ (i j : Nat) (f g : Fragment), fragments[i]? = some f → fragments[j]? = some g →
    ∀ name ∈ f.name?, ∀ r, Regex.read? .program g.pattern = some r → groupName name ∈ r.groups → i = j

variable {fragments : List Fragment}

/-- What fragments at two places hold is not the same if all that they hold is distinct. -/
theorem index_eq_of_mem_groups (hnodup : (fragments.flatMap fun f => f.shape.groups).Nodup) {i j : Nat}
    {f g : Fragment} (hf : fragments[i]? = some f) (hg : fragments[j]? = some g) {group : Text}
    (hfgroup : group ∈ f.shape.groups) (hggroup : group ∈ g.shape.groups) : i = j := by
  have hdisjoint := List.pairwise_iff_getElem.1 (List.nodup_flatMap.1 hnodup).2
  obtain ⟨hi, rfl⟩ := List.getElem?_eq_some_iff.1 hf
  obtain ⟨hj, rfl⟩ := List.getElem?_eq_some_iff.1 hg
  rcases Nat.lt_trichotomy i j with hlt | heq | hlt
  · exact absurd hggroup (hdisjoint i j hi hj hlt hfgroup)
  · exact heq
  · exact absurd hfgroup (hdisjoint j i hj hi hlt hggroup)

/-- **Fragments that are read one by one have groups of their own** if all groups are distinct. -/
theorem Separate.ownGroups (h : Separate fragments)
    (hnodup : (fragments.flatMap fun f => f.shape.groups).Nodup) : OwnGroups fragments where
  opens f hf := ⟨_, h.alone f hf, by
    rw [Regex.groups_concat, Shape.flatMap_groups_items]
    rfl⟩
  apart i j f g hf hg name hname r hread hgroup := by
    obtain rfl := Option.some.inj ((h.alone g (List.mem_of_getElem? hg)).symm.trans hread)
    rw [Regex.groups_concat, Shape.flatMap_groups_items] at hgroup
    have hown : groupName name ∈ f.shape.groups := by
      rw [Shape.groups, ← name?, hname]
      exact List.mem_singleton_self _
    exact index_eq_of_mem_groups hnodup hf hg hown hgroup

/-! ### What each fragment goes through -/

/-- The fragments go through an output one after the other.  Each begins where the one in front of it
stops, and takes a way of the expression that its own source is read as. -/
inductive Passes : List Fragment → Cursor → List (Cursor × Way) → Prop
  | nil (c : Cursor) : Passes [] c []
  | cons {f : Fragment} {fragments : List Fragment} {r : Regex} {c : Cursor} {u : Way}
      {steps : List (Cursor × Way)} (hread : Regex.read? .program f.pattern = some r)
      (hu : u ∈ r.ways c) (hrest : Passes fragments u.stop steps) :
      Passes (f :: fragments) c ((c, u) :: steps)

def joined : Cursor → List (Cursor × Way) → Way
  | c, [] => Way.here c
  | _, (_, u) :: steps => u.join (joined u.stop steps)

theorem Passes.reads {c : Cursor} {steps : List (Cursor × Way)} (h : Passes fragments c steps) :
    c.Reads (steps.flatMap fun step => Span.text ⟨step.1, step.2.stop⟩) (joined c steps).stop := by
  induction h with
  | nil c => exact .refl c
  | cons hread hu hrest ih =>
      obtain ⟨s, hs⟩ := Regex.reads_of_mem_ways hu
      rw [List.flatMap_cons, Span.text_of_reads hs]
      exact hs.trans ih

section Separate

variable (hread : ∀ f ∈ fragments, Regex.read? .program f.pattern = some (.concat f.shape.items))

include hread

/-- A way through fragments is made of a way of each of them. -/
theorem exists_passes {c : Cursor} {w : Way} (hw : w ∈ ways fragments c) :
    ∃ steps, Passes fragments c steps ∧ joined c steps = w := by
  induction fragments generalizing c w with
  | nil => exact ⟨[], .nil c, (List.mem_singleton.1 hw).symm⟩
  | cons f fragments ih =>
      obtain ⟨u, hu, v, hv, rfl⟩ := Way.mem_chain.1 hw
      obtain ⟨steps, hsteps, rfl⟩ := ih (fun g hg => hread g (List.mem_cons_of_mem _ hg)) hv
      exact ⟨(c, u) :: steps, .cons (hread f (List.mem_cons_self ..)) hu hsteps, rfl⟩

/-- Ways that are taken one after the other are a way through the fragments. -/
theorem Passes.joined_mem_ways {c : Cursor} {steps : List (Cursor × Way)}
    (h : Passes fragments c steps) : joined c steps ∈ ways fragments c := by
  induction h with
  | nil c => exact List.mem_singleton_self _
  | @cons f fragments r c u steps hreadf hu hrest ih =>
      obtain rfl := Option.some.inj ((hread f (List.mem_cons_self ..)).symm.trans hreadf)
      exact Way.mem_chain.2
        ⟨u, hu, _, ih fun g hg => hread g (List.mem_cons_of_mem _ hg), rfl⟩

/-- **What is captured under a name is what its own fragment captures**, whatever was passed before. -/
theorem Passes.text?_joined {c : Cursor} {steps : List (Cursor × Way)} (h : Passes fragments c steps)
    (hnodup : (fragments.flatMap fun f => f.shape.groups).Nodup) {first : Way}
    (hfresh : Fresh fragments first) {i : Nat} {f : Fragment} {name : Text}
    (hf : fragments[i]? = some f) (hname : f.name? = some name) :
    ∃ d u, steps[i]? = some (d, u) ∧ u ∈ f.shape.ways d ∧
      (first.join (joined c steps)).text? (groupName name) = u.text? (groupName name) := by
  induction h generalizing first i with
  | nil c => simp at hf
  | @cons g fragments r c u steps hreadg hu hrest ih =>
      obtain rfl := Option.some.inj ((hread g (List.mem_cons_self ..)).symm.trans hreadg)
      have hreadrest (g' : Fragment) (hg' : g' ∈ fragments) :
          Regex.read? .program g'.pattern = some (.concat g'.shape.items) :=
        hread g' (List.mem_cons_of_mem _ hg')
      rw [joined, ← Way.join_assoc]
      cases i with
      | zero =>
          obtain rfl : g = f := by simpa using hf
          exact ⟨c, u, rfl, hu,
            hfresh.text?_join hname hnodup (hrest.joined_mem_ways hreadrest)⟩
      | succ i =>
          exact ih hreadrest (nodup_groups_tail hnodup) (hfresh.join hnodup hu) hf

end Separate

/-- What a fragment captures is a part of what it goes through. -/
theorem infix_of_text? {f : Fragment} {name value : Text} {c : Cursor} {u : Way}
    (hname : f.name? = some name) (hu : u ∈ f.shape.ways c)
    (hvalue : u.text? (groupName name) = some value) : value <:+: Span.text ⟨c, u.stop⟩ := by
  obtain ⟨context, greedy, hshape⟩ : ∃ context greedy, f.shape = .tag (some name) context greedy := by
    rw [name?] at hname
    cases hshape : f.shape <;> simp_all [Shape.tag?]
  rw [hshape] at hu
  rcases Shape.exists_of_mem_ways_tag hu with ⟨gap, taken, d, e, hgap, htaken, -, -, rfl⟩ | rfl
  · rw [Shape.text?_taken name htaken] at hvalue
    obtain rfl := Option.some.inj hvalue
    rw [Shape.taken_stop, Span.text_of_reads (hgap.trans htaken)]
    exact (List.suffix_append gap taken).isInfix
  · cases hvalue

theorem ways_start (offset : Nat) (fragments : List Fragment) (output : Text) :
    ways (⟨offset, .start⟩ :: fragments) (Cursor.start output) =
      ways fragments (Cursor.start output) := by
  have hstart : Shape.start.ways (Cursor.start output) = [Way.here (Cursor.start output)] := rfl
  rw [ways, hstart, Way.here_chain]

end Fragment

/-! ### Programs -/

namespace Compiler

open Fragment

/-- **Each name reads its own group.**  The names of a program are those that its tags have, without the
anonymous ones, in the order of the text, and each of them once.  A program can be matched, and when it
matches an output, it captures something or nothing under each of these names, in their order.  Its
fragments have groups of their own, even where several names are alike but for the characters that no
group has in its name.  They go through the output one after the other, and what is captured under a
name is what its own fragment captured there, a part of the output that this fragment went through. -/
theorem captures?_own {policy : Policy} {config : Config} {switches : Switches} {text : Text}
    {p : Program} (htags : ∃ opening closing, config.tags = .delimited opening closing)
    (h : compile policy config switches text = .ok p) :
    (∀ t ∈ tokens policy config switches text, t.kind = .tag → (config.tags.nameOf? t.text).isSome) ∧
      p.tagged = ((tokens policy config switches text).filter (·.kind = .tag)).map
        (fun t => (t.offset, t.binding config)) ∧
      p.names = ((tokens policy config switches text).filter (·.kind = .tag)).filterMap
        (·.binding config) ∧
      p.names.Nodup ∧ OwnGroups p.fragments ∧
      ∃ m, p.matcher? = some m ∧ ∀ output, m.isMatch output = true →
        ∃ captured steps, m.captures? output = some captured ∧
          (captured.map Prod.fst).Perm p.names ∧ (captured.Pairwise fun a b => a.1 < b.1) ∧
          Passes p.fragments (Cursor.start output) steps ∧
          (steps.flatMap fun step => Span.text ⟨step.1, step.2.stop⟩) <+: output ∧
          m.regex.search output = some (Trail.finish ⟨Cursor.start output, []⟩
            (joined (Cursor.start output) steps)) ∧
          ∀ (i : Nat) (f : Fragment), p.fragments[i]? = some f → ∀ name ∈ f.name?,
            ∃ c u, steps[i]? = some (c, u) ∧
              captured.lookup name = some (u.text? (groupName name)) ∧
              ∀ value ∈ u.text? (groupName name), value <:+: Span.text ⟨c, u.stop⟩ := by
  have hnamed := TagRule.named_of_exists htags
  have hnodup := (distinct_of_compile h).1
  have hseparate := Fragment.separate hnodup (groups_ne_nil_of_compile hnamed h)
  have htagged := tagged_of_compile h
  have hnames : p.names.Nodup := by
    rw [groups_eq_names] at hnodup
    exact hnodup.of_map
  obtain ⟨fragments, hp⟩ := exists_start_of_compile h
  refine ⟨fun t ht hkind => Lexeme.isSome_nameOf? htags ht hkind, htagged, ?_, hnames,
    hseparate.ownGroups hnodup, _, matcher?_of_compile hnamed h, fun output hmatch => ?_⟩
  · rw [Program.names_eq_tagged, htagged, List.filterMap_map]
    rfl
  have hsearch : (regex p.fragments).search output =
      (ways p.fragments (Cursor.start output)).head?.map (Trail.finish ⟨Cursor.start output, []⟩) := by
    rw [hp, search_start, ways_start]
  obtain ⟨w, hw⟩ : ∃ w, (ways p.fragments (Cursor.start output)).head? = some w := by
    rw [Matcher.isMatch, Regex.isMatch, hsearch, Option.isSome_map] at hmatch
    exact Option.isSome_iff_exists.1 hmatch
  obtain ⟨steps, hsteps, rfl⟩ := exists_passes hseparate.alone (List.mem_of_mem_head? hw)
  rw [hw, Option.map_some] at hsearch
  have hcaptured : (Matcher.mk p (regex p.fragments)).captures? output =
      some ((p.names.map fun name =>
        (name, (joined (Cursor.start output) steps).text? (groupName name))).foldr
          Matcher.insertByName []) := by
    rw [Matcher.captures?, hsearch]
    rfl
  have hkeys : (p.names.map fun name =>
      (name, (joined (Cursor.start output) steps).text? (groupName name))).map Prod.fst = p.names := by
    rw [List.map_map]
    exact List.map_id _
  refine ⟨_, steps, hcaptured, ?_, Matcher.pairwise_foldr_insertByName (by rwa [hkeys]), hsteps,
    ⟨_, hsteps.reads.after.symm⟩, hsearch, fun i f hf name hname => ?_⟩
  · have hperm := (Matcher.perm_foldr_insertByName (p.names.map fun name =>
      (name, (joined (Cursor.start output) steps).text? (groupName name)))).map Prod.fst
    rwa [hkeys] at hperm
  · have hfresh : Fresh p.fragments (Way.here (Cursor.start output)) := by simp [Fresh, Way.here]
    obtain ⟨c, u, hstep, hu, htext⟩ :=
      hsteps.text?_joined hseparate.alone hnodup hfresh hf hname
    rw [Way.here_join] at htext
    have hmem : name ∈ p.names := List.mem_filterMap.2 ⟨f, List.mem_of_getElem? hf, hname⟩
    refine ⟨c, u, hstep, ?_, fun value => infix_of_text? hname hu⟩
    rw [Matcher.lookup_foldr_insertByName hmem, htext]

/-- Two names that are alike but for one letter once the signs in them are replaced, around an
anonymous tag. -/
theorem captures?_own_signs :
    ∃ p m steps c u, compile .literal .standard ⟨true, true⟩ "<a-b>=<...>;<a.c>".toList = .ok p ∧
      p.matcher? = some m ∧ p.names = ["a-b".toList, "a.c".toList] ∧
      m.captures? "1=2;3\n".toList =
        some [("a-b".toList, some "1".toList), ("a.c".toList, some "3".toList)] ∧
      Passes p.fragments (Cursor.start "1=2;3\n".toList) steps ∧ steps[5]? = some (c, u) ∧
      u.text? "a_c".toList = some "3".toList ∧ "3".toList <:+: Span.text ⟨c, u.stop⟩ := by
  have htokens : tokens .literal .standard ⟨true, true⟩ "<a-b>=<...>;<a.c>".toList =
      [⟨0, .tag, "<a-b>".toList⟩, ⟨5, .literal, "=".toList⟩, ⟨6, .tag, "<...>".toList⟩,
        ⟨11, .literal, ";".toList⟩, ⟨12, .tag, "<a.c>".toList⟩, ⟨17, .finish, []⟩] := by
    decide +kernel
  obtain ⟨p, hp⟩ := exists_compile_eq_ok htokens (by decide +kernel) (by decide +kernel)
  have hfragments := fragments_of_compile hp
  rw [htokens] at hfragments
  obtain ⟨-, -, hnames, -, -, m, hm, howns⟩ := captures?_own ⟨'<', '>', rfl⟩ hp
  have hmatcher := eq_of_matcher? TagRule.named_delimited hp hm
  have hgot : m.captures? "1=2;3\n".toList =
      some [("a-b".toList, some "1".toList), ("a.c".toList, some "3".toList)] := by
    rw [hmatcher, captures?_eq hfragments]
    decide +kernel
  have hmatch : m.isMatch "1=2;3\n".toList = true := by
    rw [← Matcher.isSome_captures?, hgot]
    rfl
  obtain ⟨captured, steps, hcaptured, -, -, hsteps, -, -, hown⟩ := howns _ hmatch
  obtain rfl := Option.some.inj (hcaptured.symm.trans hgot)
  obtain ⟨c, u, hstep, hlookup, hinfix⟩ := hown 5 ⟨12, .tag (some "a.c".toList) .lineEnd false⟩
    (by rw [hfragments]; decide +kernel) "a.c".toList rfl
  have htext : u.text? "a_c".toList = some "3".toList := Option.some.inj hlookup.symm
  refine ⟨p, m, steps, c, u, hp, hm, ?_, hgot, hsteps, hstep, htext, hinfix _ htext⟩
  rw [hnames, htokens]
  decide +kernel

end Compiler

end Transcript
