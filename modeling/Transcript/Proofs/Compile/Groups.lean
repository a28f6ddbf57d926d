/-
**The groups of a program.**

Every tag with a name opens a group of its own: a tag whose group was opened before is refused, and
nothing else opens a group.  So the source of a program that compiles can always be read.

Main definitions:

* `Transcript.Build.Distinct` — the groups opened so far are distinct, and their names are names of
  tags.

Main results:

* `Transcript.Machine.advance_distinct` — a step keeps the groups distinct;
* `Transcript.Compiler.matcher?_of_compile` — **a program that compiles can be matched**.
-/

import Mathlib.Data.List.Flatten
import Transcript.Proofs.Compile.Step
import Transcript.Proofs.Markup.Delimited
import Transcript.Proofs.Regex.Reading

set_option relaxedAutoImplicit false
set_option autoImplicit false

namespace Transcript

namespace Build

/-- The groups opened so far are distinct, and their names are names of tags. -/
structure Distinct (config : Config) (b : Build) : Prop where
  nodup : b.groups.Nodup
  named : ∀ f ∈ b.fragments.toList, ∀ name ∈ f.name?, ∃ tag, config.tags.nameOf? tag = some name

theorem distinct_start (config : Config) : Distinct config start where
  nodup := by simp [start, groups, Fragment.name?, Shape.tag?]
  named f hf name hname := by
    simp only [start, List.mem_singleton] at hf
    rw [hf] at hname
    simp [Fragment.name?, Shape.tag?] at hname

variable {config : Config} {b b' : Build}

theorem Distinct.congr (h : Distinct config b) (hb : b'.fragments = b.fragments) :
    Distinct config b' where
  nodup := by
    have hgroups : b'.groups = b.groups := by rw [groups, hb, groups]
    rw [hgroups]
    exact h.nodup
  named := by
    rw [hb]
    exact h.named

/-- A fragment that is no tag opens no group. -/
theorem Distinct.emit (h : Distinct config b) {f : Fragment} (hf : f.name? = none) :
    Distinct config (b.emit config.cueRange f) where
  nodup := by
    have hgroups : (b.emit config.cueRange f).groups = b.groups := by simp [groups, hf]
    rw [hgroups]
    exact h.nodup
  named g hg name hname := by
    rw [fragments_emit, Array.toList_push, List.mem_append, List.mem_singleton] at hg
    rcases hg with hg | rfl
    · exact h.named g hg name hname
    · simp [hf] at hname

/-- A tag that is emitted opens a group that was not opened before. -/
theorem Distinct.emitTag (h : Distinct config b) {t : Token} {context : TagContext}
    {endOfLine : Bool} (htag : b.emitTag config t context endOfLine = .ok b') :
    Distinct config b' := by
  obtain ⟨-, rfl, hnew⟩ := emitTag_eq_ok htag
  cases hbinding : t.binding config with
  | none => exact h.emit rfl
  | some name =>
      rw [hbinding] at hnew
      refine ⟨?_, ?_⟩
      · have hgroups (greedy : Bool) :
            (b.emit config.cueRange ⟨t.offset, .tag (some name) context greedy⟩).groups =
              b.groups ++ [groupName name] := by
          simp [groups, Fragment.name?, Shape.tag?]
        rw [hgroups, List.nodup_append]
        refine ⟨h.nodup, by simp, ?_⟩
        rintro group hgroup group' hgroup' rfl
        rw [List.mem_singleton.1 hgroup'] at hgroup
        exact hnew name rfl hgroup
      · intro g hg name' hname'
        rw [fragments_emit, Array.toList_push, List.mem_append, List.mem_singleton] at hg
        rcases hg with hg | rfl
        · exact h.named g hg name' hname'
        · obtain rfl : name = name' := by simpa [Fragment.name?, Shape.tag?] using hname'
          refine ⟨t.text, ?_⟩
          rw [Token.binding] at hbinding
          exact (Option.filter_eq_some_iff.1 hbinding).1

theorem Distinct.of_grows (h : Distinct config b) (hgrows : Grows config b b') :
    Distinct config b' := by
  induction hgrows with
  | refl => exact h
  | emit _ hf ih => exact ih.emit hf
  | emitTag _ htag ih => exact ih.emitTag htag

end Build

namespace Machine

open Build

variable {config : Config} {m next : Machine} {t : Token}

/-- **A step keeps the groups distinct.** -/
theorem advance_distinct {policy : Policy} (hm : Distinct config m.build)
    (h : m.advance policy config t = .ok next) : Distinct config next.build :=
  hm.of_grows (follows_of_advance h).grows

theorem feedAll_distinct {policy : Policy} {tokens : List Token} {last : Machine}
    (hm : Distinct config m.build) (h : m.feedAll policy config tokens = (last, none)) :
    Distinct config last.build := by
  induction tokens generalizing m with
  | nil =>
      rw [feedAll, Prod.mk.injEq] at h
      rw [← h.1]
      exact hm
  | cons t tokens ih =>
      obtain ⟨next, hfeed, hrest⟩ := feedAll_cons_eq_ok h
      obtain ⟨mid, hmid, -, hfragments⟩ := feed_eq_ok hfeed
      exact ih ((advance_distinct hm hmid).congr hfragments) hrest

end Machine

namespace Compiler

/-- The groups of a program that compiles are distinct, and its names are names of tags. -/
theorem distinct_of_compile {policy : Policy} {config : Config} {switches : Switches} {text : Text}
    {p : Program} (h : compile policy config switches text = .ok p) :
    (p.fragments.flatMap fun f => f.shape.groups).Nodup ∧
      ∀ f ∈ p.fragments, ∀ name ∈ f.name?, ∃ tag, config.tags.nameOf? tag = some name := by
  obtain ⟨last, hrun, -, hfragments⟩ := compile_eq_ok h
  have hdistinct := Machine.feedAll_distinct (Build.distinct_start config) hrun
  rw [hfragments]
  refine ⟨?_, hdistinct.named⟩
  rw [Fragment.flatMap_groups, List.map_filterMap]
  exact hdistinct.nodup

/-- The groups of a program that compiles have names if no tag has an empty name. -/
theorem groups_ne_nil_of_compile {policy : Policy} {config : Config} {switches : Switches}
    {text : Text} {p : Program} (hnamed : config.tags.Named)
    (h : compile policy config switches text = .ok p) :
    ∀ group ∈ p.fragments.flatMap fun f => f.shape.groups, group ≠ [] := by
  intro group hgroup hempty
  obtain ⟨f, hf, hgroup⟩ := List.mem_flatMap.1 hgroup
  obtain ⟨name, hname, rfl⟩ := Option.map_eq_some_iff.1 (Option.mem_toList.1 hgroup)
  obtain ⟨tag, htag⟩ := (distinct_of_compile h).2 f hf name hname
  have hname' : name = [] := by simpa [groupName] using hempty
  exact hnamed tag (by rw [htag, hname'])

/-- Fragments of a program that compiles, in their order, are read as their expressions if no tag has
an empty name. -/
theorem read?_join_of_compile {policy : Policy} {config : Config} {switches : Switches} {text : Text}
    {p : Program} (hnamed : config.tags.Named) (h : compile policy config switches text = .ok p)
    {fragments : List Fragment} (hsub : fragments.Sublist p.fragments) :
    Regex.read? .program (Fragment.join fragments) = some (Fragment.regex fragments) :=
  Fragment.read?_join ((distinct_of_compile h).1.sublist (hsub.flatMap _)) fun group hgroup =>
    groups_ne_nil_of_compile hnamed h group ((hsub.flatMap _).subset hgroup)

/-- **A program that compiles can be matched** if no tag has an empty name: its source is read as
the expressions of its fragments. -/
theorem matcher?_of_compile {policy : Policy} {config : Config} {switches : Switches} {text : Text}
    {p : Program} (hnamed : config.tags.Named) (h : compile policy config switches text = .ok p) :
    p.matcher? = some ⟨p, Fragment.regex p.fragments⟩ := by
  rw [Program.matcher?, Program.source, read?_join_of_compile hnamed h (List.Sublist.refl _)]
  rfl

theorem eq_of_matcher? {policy : Policy} {config : Config} {switches : Switches} {text : Text}
    {p : Program} (hnamed : config.tags.Named) (h : compile policy config switches text = .ok p)
    {m : Matcher} (hm : p.matcher? = some m) : m = ⟨p, Fragment.regex p.fragments⟩ :=
  Option.some.inj (hm.symm.trans (matcher?_of_compile hnamed h))

end Compiler

end Transcript
