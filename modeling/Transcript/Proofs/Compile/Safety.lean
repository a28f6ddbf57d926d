/-
**A compilation never fails.**

Whatever the lexical rules are and whatever an earlier text left in the workspace, a text is compiled or
refused for what is wrong with it.  Behind every token the buffer holds the tokens that the phase calls
for, so nothing is taken from an empty buffer or added to a full one, and no number goes below zero.  One
thing is reported as a fault of the compiler: a tag that the lexical rule finds in a text and then gives
no name.  A rule of delimited tags names every tag that it finds.

Main definitions:

* `Transcript.Workspace.Orderly` — the buffer holds what the phase calls for;
* `Transcript.Workspace.Faultless` — what it means for a compilation not to fail.

Main results:

* `Transcript.Machine.nameless_of_run` — a run reports no other fault than a tag without a name;
* `Transcript.Workspace.mirrors_readAll` — a workspace follows the machine through lexemes;
* `Transcript.Workspace.mirrors_parse` — **compiling in a workspace is compiling**;
* `Transcript.Workspace.orderly_of_readAll` — the buffer behind the lexemes that were read;
* `Transcript.Workspace.faultless_parse` — **a compilation never fails**.
-/

import Transcript.Proofs.Compile.Ledger
import Transcript.Proofs.Compile.Workspace
import Transcript.Proofs.Markup.Ending
import Transcript.Proofs.Markup.Naming
import Transcript.Proofs.Regex.Within

set_option relaxedAutoImplicit false
set_option autoImplicit false

namespace Transcript

/-! ### Faults -/

/-- The objection to a tag is reported as a fault only if the tag has no name. -/
theorem Token.nameless_of_objection {config : Config} {used : List Text} {tagNext : Bool} {t : Token}
    {fault : Fault} (h : t.objection? config used tagNext = some (.internal fault)) :
    fault = .namelessTag ∧ config.tags.nameOf? t.text = none := by
  unfold objection? at h
  cases tagNext with
  | true => simp at h
  | false =>
      cases hname : config.tags.nameOf? t.text with
      | none => simpa [hname, eq_comm] using h
      | some name =>
          -- a tag with a name is refused for its group, which is no fault
          simp only [hname, Option.isNone_some, Bool.false_eq_true, if_false, conflict?] at h
          obtain ⟨binding, -, hconflict⟩ := Option.bind_eq_some_iff.1 h
          split at hconflict <;> simp at hconflict

namespace Build

/-- An input is refused for what is in front of it, which is no fault. -/
theorem schedule_ne_internal (config : Config) (b : Build) (t : Token) (fault : Fault) :
    b.schedule config t ≠ .error (.internal fault) := by
  unfold schedule
  cases b.window.cue? config.cueRange <;> simp

end Build

namespace Machine

variable {policy : Policy} {config : Config} {m : Machine} {t : Token} {fault : Fault}

/-- One step reports no other fault than that the tag that is held back has no name. -/
theorem nameless_of_feed (hdone : m.pending ≠ .done) (hsuits : m.pending.Suits policy)
    (h : m.feed policy config t = .error (.internal fault)) :
    fault = .namelessTag ∧ ∃ g ∈ m.pending.tag?, config.tags.nameOf? g.text = none := by
  have hadvance : CompileError.of? (m.advance policy config t) =
      m.pending.tag?.bind (Token.objection? config m.build.groups (t.kind == .tag)) :=
    of?_advance_objection hdone hsuits
  unfold feed at h
  cases hmid : m.advance policy config t with
  | error e =>
      obtain rfl : e = .internal fault := by simpa [hmid, bind, Except.bind] using h
      rw [hmid] at hadvance
      obtain ⟨g, hg, hobjection⟩ := Option.bind_eq_some_iff.1 hadvance.symm
      obtain ⟨hfault, hname⟩ := Token.nameless_of_objection hobjection
      exact ⟨hfault, g, hg, hname⟩
  | ok mid =>
      simp only [hmid, bind, Except.bind] at h
      by_cases hinput : t.kind = .input
      · rw [if_pos hinput] at h
        cases hbuild : mid.build.schedule config t with
        | error e =>
            obtain rfl : e = .internal fault := by simpa [hbuild] using h
            exact absurd hbuild (Build.schedule_ne_internal config mid.build t fault)
        | ok build => simp [hbuild] at h
      · simp [hinput] at h

/-- **A run** over tokens that end in the one of the end reports no other fault than that one of the
tags has no name. -/
theorem nameless_of_run {lead all : List Token} (hlead : ∀ u ∈ lead, u.kind ≠ .finish ∧ u ∈ all)
    (hdone : m.pending ≠ .done) (hsuits : m.pending.Suits policy)
    (htag : ∀ g ∈ m.pending.tag?, g ∈ all ∧ g.kind = .tag)
    (h : m.run policy config (lead ++ [t]) = .error (.internal fault)) :
    fault = .namelessTag ∧ ∃ g ∈ all, g.kind = .tag ∧ config.tags.nameOf? g.text = none := by
  induction lead generalizing m with
  | nil =>
      have hfeed : m.feed policy config t = .error (.internal fault) := by
        rw [← bind_pure (m.feed policy config t)]
        exact h
      obtain ⟨hfault, g, hg, hname⟩ := nameless_of_feed hdone hsuits hfeed
      exact ⟨hfault, g, (htag g hg).1, (htag g hg).2, hname⟩
  | cons u lead ih =>
      obtain ⟨hfinish, hmem⟩ := hlead u (List.mem_cons_self ..)
      rw [List.cons_append, run_cons] at h
      cases hnext : m.feed policy config u with
      | error e =>
          obtain rfl : e = .internal fault := by simpa [hnext, bind, Except.bind] using h
          obtain ⟨hfault, g, hg, hname⟩ := nameless_of_feed hdone hsuits hnext
          exact ⟨hfault, g, (htag g hg).1, (htag g hg).2, hname⟩
      | ok next =>
          obtain ⟨mid, hmid, hpending, -⟩ := feed_eq_ok hnext
          have hfollows := follows_of_advance hmid
          rw [hnext] at h
          refine ih (fun v hv => hlead v (List.mem_cons_of_mem _ hv)) ?_ ?_ ?_ h
          · rw [hpending]
            exact fun hd => hfinish (hfollows.done_iff.1 hd)
          · rw [hpending]
            exact hfollows.suits
          · -- the tag that is held back is the token, if that is a tag
            intro g hg
            rw [hpending, hfollows.tag?] at hg
            by_cases hkind : u.kind = .tag
            · rw [if_pos hkind, Option.mem_some_iff] at hg
              exact hg ▸ ⟨hmem, hkind⟩
            · simp [hkind] at hg

end Machine

namespace Compiler

/-- The tokens of a text end in the one of the end, with no other of its kind in front of it. -/
theorem exists_tokens_eq (policy : Policy) (config : Config) (switches : Switches) (text : Text) :
    ∃ lead t, Lexeme.ofText config switches (policy.scope text) = lead ++ [.token t] ∧
      tokens policy config switches text = Lexeme.tokens lead ++ [t] ∧ t.kind = .finish ∧
      ∀ u ∈ Lexeme.tokens lead, u.kind ≠ .finish := by
  obtain ⟨lead, stop, htext, hlead⟩ := Lexeme.exists_ofText_eq config switches (policy.scope text)
  refine ⟨lead, ⟨stop, .finish, []⟩, htext, ?_, rfl, hlead⟩
  rw [tokens, htext, Lexeme.tokens_append]
  rfl

/-- Compiling reports no other fault than that one of the tags has no name. -/
theorem nameless_of_compile {policy : Policy} {config : Config} {switches : Switches} {text : Text}
    {fault : Fault} (h : compile policy config switches text = .error (.internal fault)) :
    fault = .namelessTag ∧
      ∃ g ∈ tokens policy config switches text, g.kind = .tag ∧ config.tags.nameOf? g.text = none := by
  obtain ⟨lead, t, -, htokens, hfinish, hlead⟩ := exists_tokens_eq policy config switches text
  rw [compile_eq_run] at h
  cases hrun : Machine.start.run policy config (tokens policy config switches text) with
  | error e =>
      obtain rfl : e = .internal fault := by simpa [hrun, bind, Except.bind] using h
      rw [htokens] at hrun ⊢
      refine Machine.nameless_of_run (fun u hu => ⟨hlead u hu, List.mem_append_left _ hu⟩) ?_ ?_ ?_ hrun
      · simp [Machine.start]
      · cases policy <;> trivial
      · exact nofun
  | ok last =>
      -- the run has come to the end, so there is a program
      rw [htokens] at hrun
      have hdone : last.pending = .done := Machine.pending_of_run hfinish hrun
      rw [← htokens] at hrun
      simp [hrun, bind, Except.bind, Machine.program?, hdone] at h

/-- A rule may find a tag in which the group of the name took no part. -/
example : (TagRule.read "(?P<name>x)?y".toList).map (fun tags =>
    compile .literal { Config.standard with tags } ⟨true, true⟩ "y".toList) =
      .ok (.error (.internal .namelessTag)) := by
  decide +kernel

end Compiler

/-! ### Lexemes -/

namespace Workspace

open Build

variable {policy : Policy} {config : Config} {m : Machine} {w : Workspace} {ws : List Warning}

theorem Mirrors.of_run_ok {α β : Type} {R : α → β → Workspace → Prop} {r : Except CompileError α}
    {c : β} (h : Mirrors R r (.ok c w)) : ∃ a, r = .ok a ∧ R a c w := by
  cases h with
  | ok h => exact ⟨_, rfl, h⟩

theorem Mirrors.of_run_error {α β : Type} {R : α → β → Workspace → Prop}
    {r : Except CompileError α} {halt : Halt} (h : Mirrors R r (.error halt w)) :
    ∃ e, halt = .refused e ∧ r = .error e := by
  cases h with
  | error e w => exact ⟨e, rfl, rfl⟩

theorem Represents.not_ended (h : Represents policy config ws m w) : w.phase.ended = false := by
  obtain ⟨rfl, hp, -⟩ := h
  obtain ⟨pending, b⟩ := m
  cases hp <;> rfl

/-- The workspace of a new text, whatever an earlier text left in it. -/
theorem represents_reset (policy : Policy) (config : Config) (leftover : Workspace) :
    Represents policy config [] .start leftover.reset :=
  ⟨rfl, .idle, cued_start config⟩

theorem readAll_of_ended (h : w.phase.ended = true) (lexemes : List Lexeme) :
    (readAll policy config lexemes).run w = .ok () w := by
  cases lexemes with
  | nil => rfl
  | cons lexeme rest =>
      rw [readAll, bind_of_ok (get_apply w), if_pos h]
      rfl

theorem readAll_cons (h : w.phase.ended = false) (lexeme : Lexeme) (rest : List Lexeme) :
    (readAll policy config (lexeme :: rest)).run w =
      (read policy config lexeme >>= fun _ => readAll policy config rest).run w := by
  rw [readAll, bind_of_ok (get_apply w), if_neg (by simp [h])]

theorem readAll_append (front back : List Lexeme) (w : Workspace) :
    (readAll policy config (front ++ back)).run w =
      (readAll policy config front >>= fun _ => readAll policy config back).run w := by
  induction front generalizing w with
  | nil => rfl
  | cons lexeme front ih =>
      cases hended : w.phase.ended with
      | true =>
          rw [readAll_of_ended hended, bind_of_ok (readAll_of_ended hended (lexeme :: front)),
            readAll_of_ended hended]
      | false =>
          rw [List.cons_append, readAll_cons hended]
          cases hread : (read policy config lexeme).run w with
          | error halt w' =>
              have hfront : (readAll policy config (lexeme :: front)).run w = .error halt w' := by
                rw [readAll_cons hended, bind_of_error hread]
              rw [bind_of_error hread, bind_of_error hfront]
          | ok _ w' =>
              rw [bind_of_ok hread, ih w']
              have hfront : (readAll policy config (lexeme :: front)).run w =
                  (readAll policy config front).run w' := by
                rw [readAll_cons hended, bind_of_ok hread]
              cases hrest : (readAll policy config front).run w' with
              | error halt w'' => rw [bind_of_error hrest, bind_of_error (hfront.trans hrest)]
              | ok _ w'' => rw [bind_of_ok hrest, bind_of_ok (hfront.trans hrest)]

/-- **A workspace follows the machine** through lexemes in front of the end, and keeps the warnings. -/
theorem mirrors_readAll {lexemes : List Lexeme} (hkinds : ∀ t ∈ Lexeme.tokens lexemes, t.kind ≠ .finish)
    (h : Represents policy config ws m w) :
    Mirrors (fun last _ w' => Represents policy config (ws ++ Lexeme.warnings lexemes) last w')
      (m.run policy config (Lexeme.tokens lexemes)) ((readAll policy config lexemes).run w) := by
  induction lexemes generalizing m w ws with
  | nil =>
      refine .ok ?_
      simpa [Lexeme.warnings] using h
  | cons lexeme rest ih =>
      rw [readAll_cons h.not_ended]
      cases lexeme with
      | warning warning =>
          -- a warning is no step of the machine
          obtain ⟨rfl, hp, hb⟩ := h
          have hread : (read policy config (.warning warning)).run (ofMachine m ws) =
              .ok () (ofMachine m (ws ++ [warning])) := rfl
          rw [bind_of_ok hread, show Lexeme.warnings (.warning warning :: rest) =
            [warning] ++ Lexeme.warnings rest from rfl, ← List.append_assoc]
          exact ih hkinds ⟨rfl, hp, hb⟩
      | token t =>
          have hkinds' : t.kind ≠ .finish ∧ ∀ u ∈ Lexeme.tokens rest, u.kind ≠ .finish :=
            List.forall_mem_cons.1 hkinds
          have htokens : Lexeme.tokens (.token t :: rest) = t :: Lexeme.tokens rest := rfl
          have hwarnings : Lexeme.warnings (.token t :: rest) = Lexeme.warnings rest := rfl
          rw [htokens, hwarnings, Machine.run_cons]
          exact (mirrors_feed h hkinds'.1).bind fun next _ w' _ hnext => ih hkinds'.2 hnext

/-- The workspace follows the machine through the token of the end, too. -/
theorem mirrors_readAll_finish {lead : List Lexeme} {t : Token}
    (hkinds : ∀ u ∈ Lexeme.tokens lead, u.kind ≠ .finish) (ht : t.kind = .finish)
    (h : Represents policy config ws m w) :
    Mirrors (fun last _ w' =>
        Ends policy config .finish (ws ++ Lexeme.warnings lead) last .finish w')
      (m.run policy config (Lexeme.tokens lead ++ [t]))
      ((readAll policy config (lead ++ [.token t])).run w) := by
  rw [readAll_append, Machine.run_append]
  refine (mirrors_readAll hkinds h).bind fun mid _ w' _ hmid => ?_
  rw [readAll_cons hmid.not_ended, Machine.run_cons]
  refine (mirrors_feed_finish hmid ht).bind fun last _ w'' _ hlast => ?_
  exact .ok hlast

/-- Behind the token of the end, the anchor completes the program. -/
theorem mirrors_complete {lead : List Lexeme} {t : Token}
    (hkinds : ∀ u ∈ Lexeme.tokens lead, u.kind ≠ .finish) (ht : t.kind = .finish)
    (h : Represents policy config ws m w) :
    Mirrors (fun last _ w' => last.pending = .done ∧ w' = ofMachine last (ws ++ Lexeme.warnings lead))
      (m.run policy config (Lexeme.tokens lead ++ [t]))
      ((complete policy config (lead ++ [.token t])).run w) := by
  refine (mirrors_readAll_finish hkinds ht h).finally fun last _ w' hends => ?_
  obtain ⟨hdone, hclose⟩ := close_run hends
  have hphase : ¬ w'.phase.ended = true := by
    obtain ⟨-, b, u, -, -, rfl, -⟩ := hends
    simp [holding, Phase.ended]
  have hended : (ofMachine last (ws ++ Lexeme.warnings lead)).phase.ended = true := by
    change last.pending.phase.ended = true
    rw [hdone]
    rfl
  refine ⟨(), ofMachine last (ws ++ Lexeme.warnings lead), ?_, hdone, rfl⟩
  rw [bind_of_ok (get_apply w'), if_neg hphase, bind_of_ok hclose, bind_of_ok (get_apply _),
    if_pos hended]
  rfl

/-- **Compiling in a workspace is compiling**: whatever an earlier text left in it, the text is compiled
to the same program, or refused with the same error. -/
theorem mirrors_parse (policy : Policy) (config : Config) (switches : Switches) (text : Text)
    (leftover : Workspace) :
    Mirrors (fun p result w => result = (p, p.tags) ∧ w.phase = .exhausted ∧ w.held = [])
      (Compiler.compile policy config switches text)
      ((parse policy config switches text).run leftover) := by
  obtain ⟨lead, t, htext, htokens, hfinish, hlead⟩ :=
    Compiler.exists_tokens_eq policy config switches text
  have hwarnings : Lexeme.warnings (lead ++ [.token t]) = Lexeme.warnings lead := by
    simp [Lexeme.warnings, Lexeme.warning?]
  have hcomplete := mirrors_complete hlead hfinish (represents_reset policy config leftover)
  rw [Compiler.compile_eq_run, htokens, htext, hwarnings]
  change Mirrors _ _ (parse policy config switches text leftover)
  rw [parse, htext]
  generalize (complete policy config (lead ++ [.token t])).run leftover.reset = result at hcomplete ⊢
  generalize Machine.start.run policy config (Lexeme.tokens lead ++ [t]) = r at hcomplete ⊢
  cases hcomplete with
  | error e w => exact .error e _
  | @ok last _ w h =>
      obtain ⟨hdone, rfl⟩ := h
      have hprogram : last.program? (Lexeme.warnings lead) =
          .ok ⟨last.build.fragments.toList, last.build.inputs.toList, Lexeme.warnings lead⟩ := if_pos hdone
      change Mirrors _ (last.program? (Lexeme.warnings lead)) _
      rw [hprogram]
      refine .ok ⟨rfl, ?_, ?_⟩
      · change last.pending.phase = .exhausted
        rw [hdone]
        rfl
      · change last.pending.stash = []
        rw [hdone]
        rfl

/-! ### Safety -/

/-- The buffer holds what the phase calls for: nothing, white space, a literal, a tag, white space and a
tag, or the end.  Where spacing is matched as written, white space is a literal. -/
def Orderly (policy : Policy) (w : Workspace) : Prop :=
  match w.phase with
  | .idle | .exhausted => w.held = []
  | .gap => policy = .normalize ∧ ∃ s, w.held = [s] ∧ s.kind.isSpace
  | .text => ∃ x, w.held = [x] ∧ policy.isLiteral x.kind
  | .tag => ∃ g, w.held = [g] ∧ g.kind = .tag
  | .gapTag => policy = .normalize ∧ ∃ s g, w.held = [s, g] ∧ s.kind.isSpace ∧ g.kind = .tag
  | .finish => ∃ u, w.held = [u] ∧ u.kind = .finish
  | .failed => False

theorem Represents.orderly (h : Represents policy config ws m w) : w.Orderly policy := by
  obtain ⟨rfl, hp, -⟩ := h
  obtain ⟨pending, b⟩ := m
  cases hp with
  | idle => rfl
  | gap hpolicy hs => exact ⟨hpolicy, _, rfl, hs⟩
  | text hx => exact ⟨_, rfl, hx⟩
  | tag hg => exact ⟨_, rfl, hg⟩
  | gapTag hpolicy hs hg => exact ⟨hpolicy, _, _, rfl, hs, hg⟩

theorem Ends.orderly {last : Machine} {phase : Phase} (h : Ends policy config .finish ws last phase w) :
    w.Orderly policy := by
  obtain ⟨-, b, u, -, hu, rfl, -⟩ := h
  exact ⟨u, rfl, hu⟩

/-- **Behind the lexemes that were read**, the buffer holds what the phase calls for. -/
theorem orderly_of_readAll {switches : Switches} {text : Text} {leftover : Workspace}
    {front : List Lexeme} (hfront : front <+: Lexeme.ofText config switches (policy.scope text))
    (h : (readAll policy config front).run leftover.reset = .ok () w) : w.Orderly policy := by
  obtain ⟨lead, t, htext, -, hfinish, hlead⟩ := Compiler.exists_tokens_eq policy config switches text
  have hreset := represents_reset policy config leftover
  rw [htext] at hfront
  -- the lexemes that were read are all of them, or they stand in front of the end
  rcases List.prefix_concat_iff.1 hfront with rfl | ⟨back, rfl⟩
  · have hread := mirrors_readAll_finish hlead hfinish hreset
    rw [h] at hread
    obtain ⟨last, -, hends⟩ := hread.of_run_ok
    exact hends.orderly
  · have hkinds : ∀ u ∈ Lexeme.tokens front, u.kind ≠ .finish := by
      intro u hu
      refine hlead u ?_
      rw [Lexeme.tokens_append]
      exact List.mem_append_left _ hu
    have hread := mirrors_readAll hkinds hreset
    rw [h] at hread
    obtain ⟨last, -, hlast⟩ := hread.of_run_ok
    exact hlast.orderly

/-- The only fault that is reported in a workspace is that a tag has no name. -/
theorem nameless_of_parse {switches : Switches} {text : Text} {leftover : Workspace} {fault : Fault}
    (h : (parse policy config switches text).run leftover = .error (.refused (.internal fault)) w) :
    fault = .namelessTag ∧ ∃ t ∈ Compiler.tokens policy config switches text,
      t.kind = .tag ∧ config.tags.nameOf? t.text = none := by
  have hparse := mirrors_parse policy config switches text leftover
  rw [h] at hparse
  obtain ⟨e, he, hcompile⟩ := hparse.of_run_error
  obtain rfl : CompileError.internal fault = e := Halt.refused.inj he
  exact Compiler.nameless_of_compile hcompile

/-- What it means for a compilation not to fail in a workspace that an earlier text left. -/
structure Faultless (policy : Policy) (config : Config) (switches : Switches) (text : Text)
    (leftover : Workspace) : Prop where
  /-- behind every lexeme that is read, the buffer holds what the phase calls for -/
  orderly : ∀ lead, lead <+: Lexeme.ofText config switches (policy.scope text) →
    ∀ w, (readAll policy config lead).run leftover.reset = .ok () w → w.Orderly policy
  /-- a text that compiles gives its program and the indexes of the tags, and leaves an empty buffer -/
  compiled : ∀ result w, (parse policy config switches text).run leftover = .ok result w →
    Compiler.compile policy config switches text = .ok result.1 ∧ result.2 = result.1.tags ∧
      w.phase = .exhausted ∧ w.held = []
  /-- a text that does not compile is refused: no operation fails -/
  refused : ∀ halt w, (parse policy config switches text).run leftover = .error halt w →
    ∃ e, halt = .refused e ∧ Compiler.compile policy config switches text = .error e
  /-- no fault is reported but that a tag of the text has no name -/
  nameless : ∀ fault w,
    (parse policy config switches text).run leftover = .error (.refused (.internal fault)) w →
      fault = .namelessTag ∧ ∃ t ∈ Compiler.tokens policy config switches text,
        t.kind = .tag ∧ config.tags.nameOf? t.text = none
  /-- with delimited tags, no fault is reported -/
  named : (∃ opening closing, config.tags = .delimited opening closing) → ∀ fault w,
    (parse policy config switches text).run leftover ≠ .error (.refused (.internal fault)) w
  /-- the spacing behind a marker is not longer than its line -/
  spacing : ∀ line marker, config.inputs.trailing? line = some marker →
    marker.spacing.length ≤ line.length

/-- **A compilation never fails.** -/
theorem faultless_parse (policy : Policy) (config : Config) (switches : Switches) (text : Text)
    (leftover : Workspace) : Faultless policy config switches text leftover := by
  have hparse := mirrors_parse policy config switches text leftover
  refine ⟨?orderly, ?compiled, ?refused, ?nameless, ?named, ?spacing⟩
  case orderly =>
    intro lead hlead w hrun
    exact orderly_of_readAll hlead hrun
  case compiled =>
    intro result w hrun
    rw [hrun] at hparse
    obtain ⟨p, hcompile, rfl, hphase, hheld⟩ := hparse.of_run_ok
    exact ⟨hcompile, rfl, hphase, hheld⟩
  case refused =>
    intro halt w hrun
    rw [hrun] at hparse
    exact hparse.of_run_error
  case nameless =>
    intro fault w hrun
    exact nameless_of_parse hrun
  case named =>
    intro htags fault w hrun
    obtain ⟨-, t, ht, hkind, hname⟩ := nameless_of_parse hrun
    have hsome := Lexeme.isSome_nameOf? htags ht hkind
    rw [hname] at hsome
    cases hsome
  case spacing =>
    intro line marker h
    have hle := InputRule.trailing?_le h
    omega

end Workspace

end Transcript
