/-
**Inputs behind too little text.**

An input is refused for what the window in front of it weighs.  The window is trimmed whenever a
fragment is added, so what it weighs need not be what was emitted since the last tag: it is what is
left of that once the upper bound is reached without the oldest fragments.  Where the bounds are in
order, an input that is refused has everything in the window, and enough text is always accepted.  A
range that is read from JSON need not be in order, and then enough text may be refused.

Main definitions:

* `Transcript.Machine.Underway` — the state of a run that has not come to the end.

Main results:

* `Transcript.Build.schedule_eq_error` — what an input is refused for;
* `Transcript.Machine.schedule_of_feed_eq_error` — the step that is refused is the one over the input;
* `Transcript.Compiler.compile_insufficientCue` — **an input is refused for too little text** if the
  bounds are in order;
* `Transcript.Compiler.compile_enough` — bounds out of order, under which enough text is refused.
-/

import Transcript.Json.Settings
import Transcript.Proofs.Compile.Cues
import Transcript.Proofs.Compile.Ledger
import Transcript.Proofs.Markup.Placement

set_option relaxedAutoImplicit false
set_option autoImplicit false

namespace Transcript

/-! ### Weights -/

namespace Fragment

theorem total_sinceReset (fragments : List Fragment) :
    total (sinceReset fragments) = cueWeight fragments := by
  induction fragments using List.reverseRecOn with
  | nil => rfl
  | append_singleton fragments f ih =>
      rw [cueWeight_concat, sinceReset, List.rtakeWhile_concat]
      cases hreset : f.resetsCue with
      | true => rfl
      | false =>
          rw [← ih]
          simp [sinceReset, total]

end Fragment

/-! ### One input -/

namespace Build

open Fragment

variable {config : Config} {b : Build} {t : Token} {offset weight min : Nat}

/-- **What an input is refused for**: the newest fragments since the last tag, all of them unless they
reach the upper bound, weigh less than the lower bound. -/
theorem schedule_eq_error (h : Cued config b)
    (hschedule : b.schedule config t = .error (.insufficientCue offset weight min)) :
    offset = t.offset ∧ min = config.cueRange.min ∧ weight < min ∧
      ∃ dropped kept, sinceReset b.fragments.toList = dropped ++ kept ∧ total kept = weight ∧
        (dropped = [] ∨ config.cueRange.max ≤ weight) ∧
        ∀ f rest, kept = f :: rest → total rest < config.cueRange.max := by
  unfold schedule CueWindow.cue? at hschedule
  by_cases hlight : b.window.weight < config.cueRange.min
  · simp only [if_pos hlight, Except.error.injEq, CompileError.insufficientCue.injEq] at hschedule
    obtain ⟨rfl, rfl, rfl⟩ := hschedule
    obtain ⟨dropped, hall, hdropped⟩ := h.keeps.suffix
    obtain ⟨old, kept, hsince, hold, hkept⟩ := List.map_eq_append_iff.1 hall
    have hweight : total kept = b.window.weight := by
      rw [h.keeps.weight_eq, ← hkept, total_map_entry]
    rw [← h.keeps.weight_eq, ← hold, List.map_eq_nil_iff] at hdropped
    refine ⟨rfl, rfl, hlight, old, kept, hsince, hweight, hdropped, fun f rest heq => ?_⟩
    rw [← total_map_entry]
    exact h.keeps.rest_lt f.entry (rest.map entry) (by rw [← hkept, heq, List.map_cons])
  · simp [hlight] at hschedule

end Build

/-! ### Runs -/

namespace Machine

open CompileError Fragment

variable {policy : Policy} {config : Config} {m : Machine} {t : Token} {offset weight min : Nat}

/-- A run is refused at one of its tokens, in the state to which those in front of it lead. -/
theorem exists_of_run_eq_error {tokens : List Token} {e : CompileError} :
    ∀ {m : Machine}, m.run policy config tokens = .error e →
      ∃ front t back mid, tokens = front ++ t :: back ∧ m.run policy config front = .ok mid ∧
        mid.feed policy config t = .error e := by
  induction tokens with
  | nil => exact fun h => by cases h
  | cons t tokens ih =>
      intro m h
      rw [run_cons] at h
      cases hnext : m.feed policy config t with
      | error e' =>
          obtain rfl : e' = e := by simpa [hnext, bind, Except.bind] using h
          exact ⟨[], t, tokens, m, rfl, rfl, hnext⟩
      | ok next =>
          rw [hnext] at h
          obtain ⟨front, t', back, mid, rfl, hfront, hfeed⟩ := ih h
          refine ⟨t :: front, t', back, mid, rfl, ?_, hfeed⟩
          rw [run_cons, hnext]
          exact hfront

/-- A transition is refused for a tag and not for what precedes an input. -/
theorem advance_ne_insufficientCue (hdone : m.pending ≠ .done) (hsuits : m.pending.Suits policy) :
    m.advance policy config t ≠ .error (.insufficientCue offset weight min) := by
  intro h
  have hobjection : of? (m.advance policy config t) =
      m.pending.tag?.bind (Token.objection? config m.build.groups (t.kind == .tag)) :=
    of?_advance_objection hdone hsuits
  rw [h] at hobjection
  obtain ⟨g, -, hg⟩ := Option.bind_eq_some_iff.1 hobjection.symm
  unfold Token.objection? Token.conflict? at hg
  cases hnext : t.kind == .tag with
  | true => simp [hnext] at hg
  | false =>
      cases hname : config.tags.nameOf? g.text with
      | none => simp [hnext, hname] at hg
      | some name =>
          simp only [hnext, hname, Option.isNone_some, Bool.false_eq_true, if_false] at hg
          obtain ⟨binding, -, hconflict⟩ := Option.bind_eq_some_iff.1 hg
          split at hconflict <;> simp at hconflict

/-- The state of a run that has not come to the end. -/
structure Underway (policy : Policy) (config : Config) (behind : List Token) (m : Machine) : Prop where
  tracks : Tracks policy config behind m
  cued : Build.Cued config m.build
  suits : m.pending.Suits policy
  not_done : m.pending ≠ .done

theorem underway_start (policy : Policy) (config : Config) : Underway policy config [] start where
  tracks := tracks_start policy config
  cued := Build.cued_start config
  suits := by cases policy <;> trivial
  not_done := by simp [start]

theorem Underway.feed {behind : List Token} {next : Machine} (h : Underway policy config behind m)
    (hnext : m.feed policy config t = .ok next) (hfinish : t.kind ≠ .finish) :
    Underway policy config (t :: behind) next := by
  obtain ⟨mid, hmid, hpending, -⟩ := feed_eq_ok hnext
  have hfollows := follows_of_advance hmid
  have hcued := h.cued.of_grows hfollows.grows
  refine ⟨h.tracks.feed hnext, ?_, hpending ▸ hfollows.suits, fun hd => hfinish ?_⟩
  · unfold Machine.feed at hnext
    simp only [hmid, bind, Except.bind] at hnext
    by_cases hinput : t.kind = .input
    · rw [if_pos hinput] at hnext
      obtain ⟨build, hbuild, rfl⟩ := bind_ok_eq_ok hnext
      exact (hcued.schedule hbuild []).1
    · rw [if_neg hinput, Except.ok.injEq] at hnext
      exact hnext ▸ hcued
  · exact hfollows.done_iff.1 (hpending ▸ hd)

theorem Underway.run {front : List Token} (hfinish : ∀ u ∈ front, u.kind ≠ .finish) :
    ∀ {behind : List Token} {m mid : Machine}, Underway policy config behind m →
      m.run policy config front = .ok mid → Underway policy config (front.reverse ++ behind) mid := by
  induction front with
  | nil =>
      intro behind m mid h hrun
      obtain rfl : m = mid := Except.ok.inj hrun
      exact h
  | cons u front ih =>
      intro behind m mid h hrun
      rw [run_cons] at hrun
      cases hnext : m.feed policy config u with
      | error e =>
          rw [hnext] at hrun
          cases hrun
      | ok next =>
          rw [hnext] at hrun
          rw [List.reverse_cons, List.append_assoc, List.singleton_append]
          exact ih (fun v hv => hfinish v (List.mem_cons_of_mem _ hv))
            (h.feed hnext (hfinish u (List.mem_cons_self ..))) hrun

/-- A step that is refused for too little text is one over an input: what precedes the input is
emitted, and then the input is not scheduled. -/
theorem schedule_of_feed_eq_error (hdone : m.pending ≠ .done) (hsuits : m.pending.Suits policy)
    (h : m.feed policy config t = .error (.insufficientCue offset weight min)) :
    t.kind = .input ∧ ∃ next, m.advance policy config t = .ok next ∧
      next.build.schedule config t = .error (.insufficientCue offset weight min) := by
  unfold Machine.feed at h
  cases hnext : m.advance policy config t with
  | error e =>
      obtain rfl : e = .insufficientCue offset weight min := by simpa [hnext, bind, Except.bind] using h
      exact absurd hnext (advance_ne_insufficientCue hdone hsuits)
  | ok next =>
      simp only [hnext, bind, Except.bind] at h
      by_cases hinput : t.kind = .input
      · rw [if_pos hinput] at h
        refine ⟨hinput, next, rfl, ?_⟩
        cases hbuild : next.build.schedule config t with
        | error e => simpa [hbuild] using h
        | ok build => simp [hbuild] at h
      · simp [hinput] at h

end Machine

namespace Compiler

open Fragment

/-- **An input is refused for too little text.**  The fragments emitted since the last tag, or since
the start, are those of the tokens since then.  The weight that is reported is that of the newest of
them, and less than the lower bound; older ones are left out only if the newest reach the upper bound,
and as many as can be.  So where the bounds are in order none are left out: the weight that is reported
is that of all the text since the last tag, and an input behind enough text is accepted. -/
theorem compile_insufficientCue {policy : Policy} {config : Config} {switches : Switches} {text : Text}
    {offset weight min : Nat}
    (h : compile policy config switches text = .error (.insufficientCue offset weight min)) :
    ∃ (front : List Token) (t : Token) (back : List Token) (m next : Machine),
      tokens policy config switches text = front ++ t :: back ∧ t.kind = .input ∧ t.offset = offset ∧
      Machine.start.run policy config front = .ok m ∧ m.advance policy config t = .ok next ∧
      total (sinceReset next.build.fragments.toList) = Token.cueWeight policy front.reverse ∧
      min = config.cueRange.min ∧ weight < min ∧
      (∃ dropped kept, sinceReset next.build.fragments.toList = dropped ++ kept ∧
        total kept = weight ∧ (dropped = [] ∨ config.cueRange.max ≤ weight) ∧
        ∀ f rest, kept = f :: rest → total rest < config.cueRange.max) ∧
      (config.cueRange.min ≤ config.cueRange.max →
        total (sinceReset next.build.fragments.toList) = weight) := by
  obtain ⟨lead, stop, htext, hlead⟩ := Lexeme.exists_ofText_eq config switches (policy.scope text)
  have htokens : tokens policy config switches text = Lexeme.tokens lead ++ [⟨stop, .finish, []⟩] := by
    rw [tokens, htext, Lexeme.tokens_append]
    rfl
  have hrun : Machine.start.run policy config (tokens policy config switches text) =
      .error (.insufficientCue offset weight min) := by
    rw [compile_eq_run] at h
    cases hrun : Machine.start.run policy config (tokens policy config switches text) with
    | error e => simpa [hrun, bind, Except.bind] using h
    | ok last =>
        simp only [hrun, bind, Except.bind, Machine.program?] at h
        split at h <;> simp at h
  obtain ⟨front, t, back, m, hsplit, hfront, hfeed⟩ := Machine.exists_of_run_eq_error hrun
  have hfinish : ∀ u ∈ front, u.kind ≠ .finish := by
    intro u hu
    rw [htokens] at hsplit
    rcases List.append_eq_append_iff.1 hsplit with ⟨between, rfl, hback⟩ | ⟨between, hlead', -⟩
    · -- the input is the token of the end, so nothing else stands behind
      cases between with
      | nil => exact hlead u (by simpa using hu)
      | cons v between => simp at hback
    · exact hlead u (by rw [hlead']; exact List.mem_append_left _ hu)
  have hunder := (Machine.underway_start policy config).run hfinish hfront
  rw [List.append_nil] at hunder
  obtain ⟨hinput, next, hnext, hschedule⟩ :=
    Machine.schedule_of_feed_eq_error hunder.not_done hunder.suits hfeed
  have hfollows := Machine.follows_of_advance hnext
  obtain ⟨hoffset, hmin, hlight, dropped, kept, hsince, hkept, hdropped, hrest⟩ :=
    Build.schedule_eq_error (hunder.cued.of_grows hfollows.grows) hschedule
  have hisText : t.kind.isText := by rw [hinput]; rfl
  have hweight : cueWeight next.build.fragments.toList = Token.cueWeight policy front.reverse := by
    rw [(hunder.tracks.advance hnext).fragments_of_text (hfollows.text hisText) hisText []]
    refine Policy.cueWeight_entries (fun u hu => hfinish u (List.mem_reverse.1 hu)) ?_
    rw [Spacing.afterRun_cons_of_not_isSpace [] (Spacing.isSpace_eq_false_of_isText hisText)]
    exact hisText
  refine ⟨front, t, back, m, next, hsplit, hinput, hoffset.symm, hfront, hnext, ?_, hmin, hlight,
    ⟨dropped, kept, hsince, hkept, hdropped, hrest⟩, fun hrange => ?_⟩
  · rw [total_sinceReset, hweight]
  · -- the newest fragments are too light to reach the upper bound, so they are all of them
    have hnil : dropped = [] := by
      rcases hdropped with hnil | hheavy
      · exact hnil
      · omega
    rw [hsince, hnil, List.nil_append, hkept]

/-- Text since a tag that is too light for the usual range. -/
theorem compile_short :
    compile .normalize .standard ⟨true, true⟩ "<n> ab [x]".toList = .error (.insufficientCue 7 4 6) ∧
      ∃ (front : List Token) (t : Token) (back : List Token),
        tokens .normalize .standard ⟨true, true⟩ "<n> ab [x]".toList = front ++ t :: back ∧
          t.kind = .input ∧ t.offset = 7 ∧ Token.cueWeight .normalize front.reverse = 4 := by
  have h : compile .normalize .standard ⟨true, true⟩ "<n> ab [x]".toList =
      .error (.insufficientCue 7 4 6) := by decide +kernel
  obtain ⟨front, t, back, m, next, hsplit, hinput, hoffset, -, -, htotal, -, -, -, hall⟩ :=
    compile_insufficientCue h
  exact ⟨h, front, t, back, hsplit, hinput, hoffset, htotal.symm.trans (hall (by decide))⟩

/-- **Bounds out of order**: no constructor gives this range, but JSON does, and under it an input is
refused behind text that weighs more than the lower bound. -/
theorem compile_enough :
    ∃ range, CueRange.fromText? "\x7b\"min\":3,\"max\":2\x7d".toList = some range ∧
      CueRange.ofBounds 3 2 = .error (.invalidRange 3 2) ∧
      compile .literal { Config.standard with cueRange := range } ⟨true, true⟩ "a b [x]".toList =
        .error (.insufficientCue 4 2 3) ∧
      ∃ (front : List Token) (t : Token) (back : List Token) (m next : Machine),
        tokens .literal { Config.standard with cueRange := range } ⟨true, true⟩ "a b [x]".toList =
          front ++ t :: back ∧ t = ⟨4, .input, "x".toList⟩ ∧
        Machine.start.run .literal { Config.standard with cueRange := range } front = .ok m ∧
        m.advance .literal { Config.standard with cueRange := range } t = .ok next ∧
        total (sinceReset next.build.fragments.toList) = 4 := by
  refine ⟨⟨3, 2⟩, by decide +kernel, rfl, by decide +kernel,
    [⟨0, .literal, "a".toList⟩, ⟨1, .spaces, " ".toList⟩, ⟨2, .literal, "b".toList⟩,
      ⟨3, .spaces, " ".toList⟩], ⟨4, .input, "x".toList⟩, [⟨7, .finish, []⟩], _, _,
    by decide +kernel, rfl, rfl, rfl, ?_⟩
  decide +kernel

end Compiler

end Transcript
