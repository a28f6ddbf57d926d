/-
**Which texts are refused, and why.**

A text is refused for three reasons: a tag stands directly behind another one, two tags capture under
the same group, or too little text precedes an input.  The machine notices them at different times, the
first two only when the token behind the tag arrives.  Still, the reason that is reported is that of the
first token, in the order of the text, with which anything is wrong.

Main definitions:

* `Transcript.Token.refusal?` — what is wrong with a token, read off its neighbours;
* `Transcript.Token.firstRefusal?` — what is wrong with the first token that has anything wrong;
* `Transcript.Machine.Ready` — the state of a run in which nothing was refused.

Main results:

* `Transcript.Machine.Ready.feed` — one step, and the refusal of the tag held back or of an input;
* `Transcript.Machine.feedAll_refusal` — a whole run reports the first refusal;
* `Transcript.Compiler.compile_refusal` — **which texts are refused, and why**.
-/

import Transcript.Proofs.Compile.Ledger
import Transcript.Proofs.Compile.Progress
import Transcript.Proofs.Markup.Naming

set_option relaxedAutoImplicit false
set_option autoImplicit false

namespace Transcript

/-! ### What is wrong with a token -/

namespace Token

/-- What is wrong with a tag between the tokens behind, the last one first, and those ahead. -/
def tagRefusal? (config : Config) (behind : List Token) (t : Token) (ahead : List Token) :
    Option CompileError :=
  if t.kind = .tag then t.conflict? config (groups config behind) (tagAhead ahead) else none

/-- What is wrong with an input: too little text stands between the last tag and the input. -/
def cueRefusal? (policy : Policy) (config : Config) (behind : List Token) (t : Token) :
    Option CompileError :=
  if t.kind = .input ∧ cueWeight policy behind < config.cueRange.min then
    some (.insufficientCue t.offset (cueWeight policy behind) config.cueRange.min)
  else none

def refusal? (policy : Policy) (config : Config) (behind : List Token) (t : Token)
    (ahead : List Token) : Option CompileError :=
  (cueRefusal? policy config behind t).or (tagRefusal? config behind t ahead)

/-- What is wrong with the first of the tokens ahead that has anything wrong. -/
def firstRefusal? (policy : Policy) (config : Config) :
    (behind ahead : List Token) → Option CompileError
  | _, [] => none
  | behind, t :: ahead =>
      (refusal? policy config behind t ahead).or (firstRefusal? policy config (t :: behind) ahead)

def lastTag? : (behind : List Token) → Option Token
  | [] => none
  | t :: _ => if t.kind = .tag then some t else none

/-- What is wrong with the last token, if it is a tag. -/
def heldRefusal? (config : Config) : (behind ahead : List Token) → Option CompileError
  | [], _ => none
  | t :: behind, ahead => tagRefusal? config behind t ahead

variable {policy : Policy} {config : Config}

theorem conflict?_congr {used used' : List Text} (h : ∀ group, group ∈ used ↔ group ∈ used')
    (tagNext : Bool) (t : Token) :
    t.conflict? config used tagNext = t.conflict? config used' tagNext := by
  simp only [conflict?, h]

end Token

/-! ### Runs -/

namespace Machine

open Build CompileError Token

/-- The state of a run in which nothing was refused. -/
structure Ready (policy : Policy) (config : Config) (behind : List Token) (m : Machine) : Prop where
  tracks : Tracks policy config behind m
  weighed : Weighed config m.build
  suits : m.pending.Suits policy
  tag? : m.pending.tag? = lastTag? behind
  not_done : m.pending ≠ .done
  not_finish : ∀ u ∈ behind, u.kind ≠ .finish
  named : ∀ u ∈ behind, u.kind = .tag → (config.tags.nameOf? u.text).isSome

variable {policy : Policy} {config : Config} {behind ahead : List Token} {m next : Machine} {t : Token}

theorem ready_start (policy : Policy) (config : Config) : Ready policy config [] start where
  tracks := tracks_start policy config
  weighed := weighed_start config
  suits := by cases policy <;> trivial
  tag? := rfl
  not_done := by simp [start]
  not_finish := by simp
  named := by simp

/-- What is wrong with the tag held back is what is wrong with the last token. -/
theorem Ready.conflict?_eq (h : Ready policy config behind m) (ahead : List Token) :
    m.conflict? config (tagAhead ahead) = heldRefusal? config behind ahead := by
  have hgroups := h.tracks.groups_eq
  rw [conflict?, h.tag?]
  rw [h.tag?] at hgroups
  cases behind with
  | nil => rfl
  | cons u behind =>
      by_cases htag : u.kind = .tag
      · have hused : m.build.groups = (Token.groups config behind).reverse := by
          rw [lastTag?, if_pos htag, Option.bind_some, Token.groups, List.filterMap_cons] at hgroups
          rw [Token.groups]
          cases hgroup : u.group? config with
          | none => simpa [hgroup] using hgroups
          | some group => simpa [hgroup] using hgroups
        rw [lastTag?, heldRefusal?, tagRefusal?, if_pos htag, if_pos htag]
        exact conflict?_congr (by simp [hused]) _ u
      · rw [lastTag?, heldRefusal?, tagRefusal?, if_neg htag, if_neg htag]
        rfl

theorem Ready.of?_advance (h : Ready policy config behind m) (t : Token) (ahead : List Token) :
    of? (m.advance policy config t) = heldRefusal? config behind (t :: ahead) := by
  rw [Machine.of?_advance h.not_done (fun g hg => ?_) h.suits, ← h.conflict?_eq (t :: ahead)]
  · rfl
  · rw [h.tag?] at hg
    cases behind with
    | nil => simp [lastTag?] at hg
    | cons u behind =>
        by_cases htag : u.kind = .tag
        · rw [lastTag?, if_pos htag, Option.mem_some_iff] at hg
          rw [← hg]
          exact h.named u (List.mem_cons_self ..) htag
        · simp [lastTag?, htag] at hg

theorem Ready.advance (h : Ready policy config behind m)
    (hnext : m.advance policy config t = .ok next) (hfinish : t.kind ≠ .finish)
    (hname : t.kind = .tag → (config.tags.nameOf? t.text).isSome) :
    Ready policy config (t :: behind) next := by
  obtain ⟨hsuits, htag, hdone, -, hgrows⟩ := follows_of_advance hnext
  exact {
    tracks := h.tracks.advance hnext
    weighed := h.weighed.of_grows hgrows
    suits := hsuits
    tag? := htag
    not_done := fun hd => hfinish (hdone.1 hd)
    not_finish := by simpa [hfinish] using h.not_finish
    named := by simpa using ⟨hname, h.named⟩ }

/-- The weight of the fragments when an input is scheduled is that of the tokens behind. -/
theorem Ready.cueWeight_eq (h : Ready policy config behind m)
    (hnext : m.advance policy config t = .ok next) (htext : t.kind.isText) :
    Fragment.cueWeight next.build.fragments.toList = cueWeight policy behind := by
  rw [(h.tracks.advance hnext).fragments_of_text ((follows_of_advance hnext).text htext) htext []]
  refine Policy.cueWeight_entries h.not_finish ?_
  rw [Spacing.afterRun_cons_of_not_isSpace [] (Spacing.isSpace_eq_false_of_isText htext)]
  exact htext

/-- **One step**: it is refused for the last token, or for the input that it schedules. -/
theorem Ready.of?_feed (h : Ready policy config behind m)
    (hrange : config.cueRange.min ≤ config.cueRange.max) (t : Token) (ahead : List Token) :
    of? (m.feed policy config t) =
      (heldRefusal? config behind (t :: ahead)).or (cueRefusal? policy config behind t) := by
  have hadvance := h.of?_advance t ahead
  cases hmid : m.advance policy config t with
  | error e =>
      rw [hmid] at hadvance
      rw [← hadvance, feed, hmid]
      rfl
  | ok mid =>
      rw [hmid] at hadvance
      rw [← hadvance, feed, hmid, cueRefusal?]
      by_cases hinput : t.kind = .input
      · have hschedule := of?_schedule (h.weighed.of_grows (follows_of_advance hmid).grows) hrange t
        rw [h.cueWeight_eq hmid (by rw [hinput]; rfl)] at hschedule
        simp only [hinput, true_and, of?, Option.none_or, ← hschedule]
        exact of?_bind_ok _ _
      · simp [hinput, of?, bind, Except.bind]

/-- Scheduling an input leaves a state in which nothing was refused. -/
theorem Ready.schedule (h : Ready policy config behind m) {build : Build}
    (hbuild : m.build.schedule config t = .ok build) :
    Ready policy config behind { m with build } where
  tracks := ⟨h.tracks.held, by
    rw [fragments_of_schedule_eq_ok hbuild]
    exact h.tracks.fragments⟩
  weighed := h.weighed.of_schedule hbuild
  suits := h.suits
  tag? := h.tag?
  not_done := h.not_done
  not_finish := h.not_finish
  named := h.named

theorem Ready.feed (h : Ready policy config behind m) (hnext : m.feed policy config t = .ok next)
    (hfinish : t.kind ≠ .finish) (hname : t.kind = .tag → (config.tags.nameOf? t.text).isSome) :
    Ready policy config (t :: behind) next := by
  unfold Machine.feed at hnext
  cases hmid : m.advance policy config t with
  | error e => simp [hmid, bind, Except.bind] at hnext
  | ok mid =>
      have hready := h.advance hmid hfinish hname
      simp only [hmid, bind, Except.bind] at hnext
      by_cases hinput : t.kind = .input
      · rw [if_pos hinput] at hnext
        obtain ⟨build, hbuild, rfl⟩ := bind_ok_eq_ok hnext
        exact hready.schedule hbuild
      · rw [if_neg hinput, Except.ok.injEq] at hnext
        exact hnext ▸ hready

/-- **A whole run** reports the first refusal, that of the tag held back included. -/
theorem feedAll_refusal (hrange : config.cueRange.min ≤ config.cueRange.max) (hlexed : Lexed ahead)
    (hnames : ∀ t ∈ ahead, t.kind = .tag → (config.tags.nameOf? t.text).isSome) :
    ∀ {behind m}, Ready policy config behind m →
      (m.feedAll policy config ahead).2 =
        (heldRefusal? config behind ahead).or (firstRefusal? policy config behind ahead) ∧
      ((m.feedAll policy config ahead).2 = none →
        (m.feedAll policy config ahead).1.pending = .done) := by
  induction hlexed with
  | @finish t hkind hformed =>
      intro behind m h
      have hfeed := h.of?_feed hrange t []
      have hfirst : firstRefusal? policy config behind [t] = none := by
        simp [firstRefusal?, refusal?, cueRefusal?, tagRefusal?, hkind]
      have hcue : cueRefusal? policy config behind t = none := by simp [cueRefusal?, hkind]
      rw [hcue, Option.or_none] at hfeed
      rw [hfirst, Option.or_none, ← hfeed]
      cases hnext : m.feed policy config t with
      | error e => simp [feedAll, hnext, of?]
      | ok next =>
          obtain ⟨mid, hmid, hpending, -⟩ := feed_eq_ok hnext
          simp [feedAll, hnext, of?, hpending, (follows_of_advance hmid).done_iff.2 hkind]
  | @cons t ahead hkind hformed hinput hahead ih =>
      intro behind m h
      have hfeed := h.of?_feed hrange t ahead
      replace ih := @ih fun u hu => hnames u (List.mem_cons_of_mem _ hu)
      have hname := hnames t (List.mem_cons_self ..)
      have hrest : (heldRefusal? config behind (t :: ahead)).or
            (firstRefusal? policy config behind (t :: ahead)) =
          (of? (m.feed policy config t)).or ((heldRefusal? config (t :: behind) ahead).or
            (firstRefusal? policy config (t :: behind) ahead)) := by
        rw [hfeed, firstRefusal?, refusal?, heldRefusal?, Option.or_assoc, Option.or_assoc]
      rw [hrest]
      cases hnext : m.feed policy config t with
      | error e => simp [feedAll, hnext, of?]
      | ok next =>
          have hready := ih (h.feed hnext hkind hname)
          simpa [feedAll, hnext, of?] using hready

end Machine

/-! ### The first refusal -/

namespace Token

variable {policy : Policy} {config : Config}

/-- What is wrong first is wrong with some token, and nothing is wrong with the tokens in front of
it. -/
theorem firstRefusal?_eq_some_iff {ahead : List Token} {e : CompileError} :
    ∀ {behind : List Token}, firstRefusal? policy config behind ahead = some e ↔
      ∃ front t back, ahead = front ++ t :: back ∧
        refusal? policy config (front.reverse ++ behind) t back = some e ∧
        ∀ front' t' back', ahead = front' ++ t' :: back' → front'.length < front.length →
          refusal? policy config (front'.reverse ++ behind) t' back' = none := by
  induction ahead with
  | nil => simp [firstRefusal?]
  | cons u ahead ih =>
      intro behind
      rw [firstRefusal?, Option.or_eq_some_iff]
      constructor
      · rintro (hfirst | ⟨hfirst, hrest⟩)
        · exact ⟨[], u, ahead, rfl, hfirst, fun _ _ _ _ hlt => absurd hlt (Nat.not_lt_zero _)⟩
        · obtain ⟨front, t, back, heq, hrefusal, hbefore⟩ := ih.1 hrest
          refine ⟨u :: front, t, back, by rw [heq, List.cons_append], by simpa using hrefusal, ?_⟩
          intro front' t' back' heq' hlt
          cases front' with
          | nil =>
              obtain ⟨rfl, rfl⟩ := List.cons.inj heq'
              exact hfirst
          | cons v front' =>
              obtain ⟨rfl, htail⟩ := List.cons.inj heq'
              simpa using hbefore front' t' back' htail (by simpa using hlt)
      · rintro ⟨front, t, back, heq, hrefusal, hbefore⟩
        cases front with
        | nil =>
            obtain ⟨rfl, rfl⟩ := List.cons.inj heq
            exact Or.inl hrefusal
        | cons v front =>
            obtain ⟨rfl, htail⟩ := List.cons.inj heq
            refine Or.inr ⟨hbefore [] u ahead rfl (by simp), ih.2 ⟨front, t, back, htail, ?_, ?_⟩⟩
            · simpa using hrefusal
            · intro front' t' back' heq' hlt
              simpa using hbefore (u :: front') t' back' (by rw [heq', List.cons_append])
                (by simpa using hlt)

theorem tagRefusal?_eq_none_iff {behind : List Token} {t : Token} {ahead : List Token} :
    tagRefusal? config behind t ahead = none ↔
      (t.kind = .tag → tagAhead ahead = false) ∧
        ∀ group ∈ t.group? config, group ∉ groups config behind := by
  unfold tagRefusal? conflict? group?
  by_cases htag : t.kind = .tag
  · cases hnext : tagAhead ahead with
    | true => simp [htag]
    | false =>
        cases hbinding : t.binding config with
        | none => simp
        | some name => simp [htag]
  · simp [htag]

theorem cueRefusal?_eq_none_iff {behind : List Token} {t : Token} :
    cueRefusal? policy config behind t = none ↔
      (t.kind = .input → config.cueRange.min ≤ cueWeight policy behind) := by
  simp [cueRefusal?, not_and]

/-- The groups of a token and of those ahead are distinct and new if the group of the token is new, and
the others are new behind it. -/
theorem nodup_groups_cons {behind : List Token} {t : Token} {ahead : List Token} :
    ((groups config (t :: ahead)).Nodup ∧
        ∀ group ∈ groups config (t :: ahead), group ∉ groups config behind) ↔
      (∀ group ∈ t.group? config, group ∉ groups config behind) ∧
        (groups config ahead).Nodup ∧
        ∀ group ∈ groups config ahead, group ∉ groups config (t :: behind) := by
  simp only [groups, List.filterMap_cons]
  cases hgroup : t.group? config with
  | none => simp
  | some group =>
      simp only [List.nodup_cons, List.mem_cons, forall_eq_or_imp, Option.mem_some_iff, not_or,
        forall_eq']
      constructor
      · rintro ⟨⟨hnew, hnodup⟩, hgroup, hothers⟩
        exact ⟨hgroup, hnodup, fun g hg => ⟨fun heq => hnew (heq ▸ hg), hothers g hg⟩⟩
      · rintro ⟨hgroup, hnodup, hothers⟩
        exact ⟨⟨fun hg => (hothers group hg).1 rfl, hnodup⟩, hgroup, fun g hg => (hothers g hg).2⟩

/-- Nothing is wrong exactly if the tags stand apart, their groups are distinct and new, and enough
text precedes the inputs. -/
theorem firstRefusal?_eq_none_iff {ahead : List Token} :
    ∀ {behind : List Token}, firstRefusal? policy config behind ahead = none ↔
      Apart ahead ∧ ((groups config ahead).Nodup ∧ ∀ group ∈ groups config ahead,
          group ∉ groups config behind) ∧
        ∀ front t back, ahead = front ++ t :: back → t.kind = .input →
          config.cueRange.min ≤ cueWeight policy (front.reverse ++ behind) := by
  induction ahead with
  | nil => simp [firstRefusal?, Apart, groups]
  | cons u ahead ih =>
      intro behind
      have hcue : ((u.kind = .input → config.cueRange.min ≤ cueWeight policy behind) ∧
          ∀ front t back, ahead = front ++ t :: back → t.kind = .input →
            config.cueRange.min ≤ cueWeight policy (front.reverse ++ u :: behind)) ↔
          ∀ front t back, u :: ahead = front ++ t :: back → t.kind = .input →
            config.cueRange.min ≤ cueWeight policy (front.reverse ++ behind) := by
        constructor
        · rintro ⟨hfirst, hrest⟩ front t back heq hinput
          cases front with
          | nil =>
              obtain ⟨rfl, rfl⟩ := List.cons.inj heq
              exact hfirst hinput
          | cons v front =>
              obtain ⟨rfl, htail⟩ := List.cons.inj heq
              simpa using hrest front t back htail hinput
        · intro h
          refine ⟨h [] u ahead rfl, fun front t back heq hinput => ?_⟩
          simpa using h (u :: front) t back (by rw [heq, List.cons_append]) hinput
      rw [firstRefusal?, Option.or_eq_none_iff, refusal?, Option.or_eq_none_iff,
        cueRefusal?_eq_none_iff, tagRefusal?_eq_none_iff, ih, nodup_groups_cons, ← hcue, Apart]
      constructor
      · rintro ⟨⟨hinput, htag, hgroup⟩, hapart, hgroups, hinputs⟩
        exact ⟨⟨htag, hapart⟩, ⟨hgroup, hgroups⟩, hinput, hinputs⟩
      · rintro ⟨⟨htag, hapart⟩, ⟨hgroup, hgroups⟩, hinput, hinputs⟩
        exact ⟨⟨hinput, htag, hgroup⟩, hapart, hgroups, hinputs⟩

end Token

namespace Compiler

open Token
open CompileError (of?)

/-- A text is refused for what its run is refused for, if a run without a refusal comes to the end. -/
theorem of?_compile {policy : Policy} {config : Config} {switches : Switches} {text : Text}
    (hdone : (Machine.start.feedAll policy config (tokens policy config switches text)).2 = none →
      (Machine.start.feedAll policy config (tokens policy config switches text)).1.pending = .done) :
    of? (compile policy config switches text) =
      (Machine.start.feedAll policy config (tokens policy config switches text)).2 := by
  rw [compile_eq]
  generalize Machine.start.feedAll policy config _ = outcome at hdone ⊢
  obtain ⟨last, refusal⟩ := outcome
  cases refusal with
  | some e => rfl
  | none => simp only [Machine.program?, if_pos (hdone rfl), of?]

/-- **Which texts are refused, and why.**  A text compiles exactly if its tags stand apart, the groups
of its tags are distinct, and in front of every input the text since the last tag is heavy enough.  It
is refused with an error exactly if that is what is wrong with some token, and nothing is wrong with
the tokens in front of it. -/
theorem compile_refusal {policy : Policy} {config : Config} {opening closing : Char}
    (hconfig : config.Delimited opening closing)
    (hrange : config.cueRange.min ≤ config.cueRange.max) (switches : Switches) (text : Text) :
    ((∃ p, compile policy config switches text = .ok p) ↔
      Apart (tokens policy config switches text) ∧
      (groups config (tokens policy config switches text)).Nodup ∧
      ∀ front t back, tokens policy config switches text = front ++ t :: back → t.kind = .input →
        config.cueRange.min ≤ cueWeight policy front.reverse) ∧
    ∀ e, compile policy config switches text = .error e ↔
      ∃ front t back, tokens policy config switches text = front ++ t :: back ∧
        refusal? policy config front.reverse t back = some e ∧
        ∀ front' t' back', tokens policy config switches text = front' ++ t' :: back' →
          front'.length < front.length → refusal? policy config front'.reverse t' back' = none := by
  have hnames : ∀ t ∈ tokens policy config switches text, t.kind = .tag →
      (config.tags.nameOf? t.text).isSome :=
    fun t ht hkind => Lexeme.isSome_nameOf? hconfig.tags ht hkind
  have hlexed : Lexed (tokens policy config switches text) := Lexeme.lexed_ofText hconfig switches _
  obtain ⟨hrun, hdone⟩ := Machine.feedAll_refusal hrange hlexed hnames (Machine.ready_start _ _)
  have hcompile : of? (compile policy config switches text) =
      firstRefusal? policy config [] (tokens policy config switches text) :=
    (of?_compile hdone).trans hrun
  constructor
  · rw [← CompileError.of?_eq_none, hcompile, firstRefusal?_eq_none_iff]
    simp [groups]
  · intro e
    rw [← CompileError.of?_eq_some, hcompile, firstRefusal?_eq_some_iff]
    simp only [List.append_nil]

/-- A tag whose group is in use and that another tag follows: it is the latter that is reported. -/
theorem compile_adjacent :
    compile .normalize .standard ⟨true, true⟩ "<x>a<x><y>".toList = .error (.ambiguousTags 4) := by
  have htokens : tokens .normalize .standard ⟨true, true⟩ "<x>a<x><y>".toList =
      [⟨0, .tag, "<x>".toList⟩, ⟨3, .literal, "a".toList⟩, ⟨4, .tag, "<x>".toList⟩,
        ⟨7, .tag, "<y>".toList⟩, ⟨10, .finish, []⟩] := by decide +kernel
  refine ((compile_refusal Config.delimited_standard (by decide) ⟨true, true⟩ _).2 _).2
    ⟨[⟨0, .tag, "<x>".toList⟩, ⟨3, .literal, "a".toList⟩], ⟨4, .tag, "<x>".toList⟩, _, htokens,
      by decide +kernel, ?_⟩
  intro front t back heq hlt
  rw [htokens] at heq
  match front, heq with
  | [], heq =>
      obtain ⟨rfl, rfl⟩ := List.cons.inj heq
      decide +kernel
  | [first], heq =>
      obtain ⟨rfl, heq'⟩ := List.cons.inj heq
      obtain ⟨rfl, rfl⟩ := List.cons.inj heq'
      decide +kernel
  | _ :: _ :: front, heq =>
      simp only [List.length_cons, List.length_nil] at hlt
      omega

end Compiler

end Transcript
