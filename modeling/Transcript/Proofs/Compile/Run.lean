/-
**Runs of the machine.**

A text that compiles has been fed to the machine token by token, and each token was accepted.  This
module takes such a run apart: into its steps, a step into the transition and the scheduling of an
input, and a tag that was emitted into its name and its fragment.

Main definitions:

* `Transcript.Compiler.tokens` — the tokens of a text, without the warnings among them;
* `Transcript.Machine.run` — a run as a result: the last state, or why a token was refused;
* `Transcript.Token.binding` — the name under which a tag captures;
* `Transcript.Token.Apart` — no tag stands directly behind another one.

Main results:

* `Transcript.Compiler.compile_eq`, `Transcript.Compiler.compile_eq_run` — compiling is a run over the
  tokens;
* `Transcript.Compiler.compile_eq_ok` — what a text that compiles says about its run;
* `Transcript.Machine.feedAll_cons_eq_ok`, `Transcript.Machine.feed_eq_ok` — a run begins with a
  step, and a step is a transition that may be followed by the scheduling of an input;
* `Transcript.Build.emitTag_eq_ok` — what a tag that is emitted becomes.
-/

import Transcript.Compile.Compiler

set_option relaxedAutoImplicit false
set_option autoImplicit false

namespace Transcript

/-! ### Fragments -/

namespace Build

@[simp] theorem fragments_emit (range : CueRange) (b : Build) (f : Fragment) :
    (b.emit range f).fragments = b.fragments.push f := rfl

@[simp] theorem fragments_emitText (config : Config) (b : Build) (t : Token) :
    (b.emitText config t).fragments = b.fragments.push ⟨t.offset, .literal t.text⟩ := rfl

@[simp] theorem fragments_emitSpace (config : Config) (b : Build) (t : Token) :
    (b.emitSpace config t).fragments = b.fragments.push ⟨t.offset, .space⟩ := rfl

@[simp] theorem fragments_emitSpaces (config : Config) (b : Build) (t : Token) :
    (b.emitSpaces config t).fragments = b.fragments.push ⟨t.offset, .spaces⟩ := rfl

@[simp] theorem fragments_emitFinish (config : Config) (b : Build) (offset : Nat)
    (anchor : EndAnchor) :
    (b.emitFinish config offset anchor).fragments = b.fragments.push ⟨offset, .finish anchor⟩ := rfl

end Build

/-! ### Tags -/

/-- The name under which a tag captures; an anonymous tag has none. -/
def Token.binding (config : Config) (t : Token) : Option Text :=
  (config.tags.nameOf? t.text).filter (· ≠ config.ellipsis)

namespace Token

def tagAhead : List Token → Bool
  | [] => false
  | t :: _ => t.kind == .tag

/-- No tag stands directly behind another one. -/
def Apart : List Token → Prop
  | [] => True
  | t :: ahead => (t.kind = .tag → tagAhead ahead = false) ∧ Apart ahead

theorem Apart.of_append {run ahead : List Token} (h : Apart (run ++ ahead)) : Apart ahead := by
  induction run with
  | nil => exact h
  | cons t run ih => exact ih h.2

end Token

namespace Build

/-- A tag that is emitted has a name in the lexical rule.  It takes as much as it can only if it is
anonymous and ends a line, and the group of the name that it binds was not used before. -/
theorem emitTag_eq_ok {config : Config} {b b' : Build} {t : Token} {context : TagContext}
    {endOfLine : Bool} (h : b.emitTag config t context endOfLine = .ok b') :
    (config.tags.nameOf? t.text).isSome ∧
      b' = b.emit config.cueRange
        ⟨t.offset, .tag (t.binding config) context (endOfLine && (t.binding config).isNone)⟩ ∧
      ∀ name ∈ t.binding config, groupName name ∉ b.groups := by
  unfold emitTag at h
  unfold Token.binding
  cases hname : config.tags.nameOf? t.text with
  | none => simp [hname] at h
  | some name =>
      simp only [hname] at h
      by_cases hdots : name = config.ellipsis
      · rw [if_pos hdots, Except.ok.injEq] at h
        refine ⟨rfl, ?_, ?_⟩
        · simp [← h, hdots, Option.filter]
        · simp [hdots, Option.filter]
      · rw [if_neg hdots] at h
        by_cases hused : b.groups.contains (groupName name)
        · rw [if_pos hused] at h
          exact absurd h (by simp)
        · rw [if_neg hused, Except.ok.injEq] at h
          refine ⟨rfl, ?_, ?_⟩
          · simp [← h, hdots, Option.filter]
          · simpa [hdots, Option.filter] using hused

/-- When a tag is emitted and what follows is accepted, the tag has become its fragment. -/
theorem of_emitTag_bind_eq_ok {α : Type} {config : Config} {b : Build} {t : Token}
    {context : TagContext} {endOfLine : Bool} {next : Build → Except CompileError α} {result : α}
    (h : b.emitTag config t context endOfLine >>= next = .ok result) :
    next (b.emit config.cueRange
      ⟨t.offset, .tag (t.binding config) context (endOfLine && (t.binding config).isNone)⟩) =
        .ok result := by
  cases htag : b.emitTag config t context endOfLine with
  | error e => simp [htag, bind, Except.bind] at h
  | ok b' =>
      obtain ⟨-, rfl, -⟩ := emitTag_eq_ok htag
      simpa [htag, bind, Except.bind] using h

/-- Scheduling an input adds no fragment. -/
theorem fragments_of_schedule_eq_ok {config : Config} {b b' : Build} {t : Token}
    (h : b.schedule config t = .ok b') : b'.fragments = b.fragments := by
  unfold schedule at h
  cases hcue : b.window.cue? config.cueRange with
  | none => simp [hcue] at h
  | some cue =>
      simp only [hcue, Except.ok.injEq] at h
      rw [← h]

end Build

/-! ### Steps and runs -/

namespace Machine

/-- A token that is accepted takes the machine through a transition; scheduling an input leaves the
fragments and the tokens held back as they are. -/
theorem feed_eq_ok {policy : Policy} {config : Config} {m next : Machine} {t : Token}
    (h : m.feed policy config t = .ok next) :
    ∃ mid, m.advance policy config t = .ok mid ∧ next.pending = mid.pending ∧
      next.build.fragments = mid.build.fragments := by
  unfold feed at h
  cases hmid : m.advance policy config t with
  | error e => simp [hmid, bind, Except.bind] at h
  | ok mid =>
      simp only [hmid, bind, Except.bind] at h
      refine ⟨mid, rfl, ?_⟩
      by_cases hinput : t.kind = .input
      · rw [if_pos hinput] at h
        cases hbuild : mid.build.schedule config t with
        | error e => simp [hbuild] at h
        | ok build =>
            simp only [hbuild, Except.ok.injEq] at h
            exact ⟨by rw [← h], by rw [← h]; exact Build.fragments_of_schedule_eq_ok hbuild⟩
      · rw [if_neg hinput, Except.ok.injEq] at h
        rw [← h]
        exact ⟨rfl, rfl⟩

/-- A run in which every token is accepted begins with a step. -/
theorem feedAll_cons_eq_ok {policy : Policy} {config : Config} {m last : Machine} {t : Token}
    {tokens : List Token} (h : m.feedAll policy config (t :: tokens) = (last, none)) :
    ∃ next, m.feed policy config t = .ok next ∧
      next.feedAll policy config tokens = (last, none) := by
  rw [feedAll] at h
  cases hnext : m.feed policy config t with
  | error e => simp [hnext] at h
  | ok next => exact ⟨next, rfl, by simpa [hnext] using h⟩

/-- A token that is no input takes the machine through its transition. -/
theorem feed_of_ne_input {policy : Policy} {config : Config} {m : Machine} {t : Token}
    (hinput : t.kind ≠ .input) : m.feed policy config t = m.advance policy config t := by
  unfold feed
  simp only [if_neg hinput]
  cases m.advance policy config t <;> rfl

def run (policy : Policy) (config : Config) (m : Machine) (tokens : List Token) :
    Except CompileError Machine :=
  tokens.foldlM (fun m t => m.feed policy config t) m

theorem run_cons {policy : Policy} {config : Config} (m : Machine) (t : Token) (tokens : List Token) :
    m.run policy config (t :: tokens) =
      m.feed policy config t >>= fun next => next.run policy config tokens :=
  List.foldlM_cons

theorem run_append {policy : Policy} {config : Config} (m : Machine) (front back : List Token) :
    m.run policy config (front ++ back) =
      m.run policy config front >>= fun next => next.run policy config back :=
  List.foldlM_append

theorem run_eq_feedAll {policy : Policy} {config : Config} {tokens : List Token} :
    ∀ m : Machine, m.run policy config tokens =
      match m.feedAll policy config tokens with
      | (_, some e) => .error e
      | (last, none) => .ok last := by
  induction tokens with
  | nil => exact fun _ => rfl
  | cons t tokens ih =>
      intro m
      rw [run_cons, feedAll]
      cases m.feed policy config t with
      | error e => rfl
      | ok next => exact ih next

theorem run_eq_ok_iff {policy : Policy} {config : Config} {m last : Machine} {tokens : List Token} :
    m.run policy config tokens = .ok last ↔ m.feedAll policy config tokens = (last, none) := by
  rw [run_eq_feedAll]
  obtain ⟨final, refusal⟩ := m.feedAll policy config tokens
  cases refusal <;> simp

end Machine

namespace Compiler

/-- The tokens of the part of a text that is compiled. -/
def tokens (policy : Policy) (config : Config) (switches : Switches) (text : Text) : List Token :=
  Lexeme.tokens (Lexeme.ofText config switches (policy.scope text))

theorem compile_eq (policy : Policy) (config : Config) (switches : Switches) (text : Text) :
    compile policy config switches text =
      match Machine.start.feedAll policy config (tokens policy config switches text) with
      | (_, some e) => .error e
      | (last, none) =>
          last.program? (Lexeme.warnings (Lexeme.ofText config switches (policy.scope text))) := by
  have hrun : (fresh policy config).reset.machine.feedAll policy config
      (Lexeme.tokens ((fresh policy config).lexemes switches text)) =
        Machine.start.feedAll policy config (tokens policy config switches text) := rfl
  unfold compile parse
  dsimp only [fresh] at hrun ⊢
  rw [hrun]
  generalize Machine.start.feedAll policy config _ = outcome
  obtain ⟨last, refusal⟩ := outcome
  cases refusal <;> rfl

/-- A text is compiled by a run over its tokens, and what was built is the program if the run comes to
the end. -/
theorem compile_eq_run (policy : Policy) (config : Config) (switches : Switches) (text : Text) :
    compile policy config switches text =
      Machine.start.run policy config (tokens policy config switches text) >>= fun last =>
        last.program? (Lexeme.warnings (Lexeme.ofText config switches (policy.scope text))) := by
  rw [compile_eq, Machine.run_eq_feedAll]
  obtain ⟨last, refusal⟩ := Machine.start.feedAll policy config (tokens policy config switches text)
  cases refusal <;> rfl

/-- A text that compiles takes the machine to the end, and the fragments of the program are those
that were built. -/
theorem compile_eq_ok {policy : Policy} {config : Config} {switches : Switches} {text : Text}
    {p : Program} (h : compile policy config switches text = .ok p) :
    ∃ last, Machine.start.feedAll policy config (tokens policy config switches text) = (last, none) ∧
      last.pending = .done ∧ p.fragments = last.build.fragments.toList := by
  rw [compile_eq] at h
  generalize Machine.start.feedAll policy config _ = outcome at h ⊢
  obtain ⟨last, refusal⟩ := outcome
  cases refusal with
  | some e => simp at h
  | none =>
      simp only [Machine.program?] at h
      by_cases hdone : last.pending = .done
      · rw [if_pos hdone, Except.ok.injEq] at h
        exact ⟨last, rfl, hdone, by rw [← h]⟩
      · simp [hdone] at h

/-- A text compiles if its tokens take the machine to the end. -/
theorem exists_compile_eq_ok {policy : Policy} {config : Config} {switches : Switches} {text : Text}
    {ts : List Token} (htokens : tokens policy config switches text = ts)
    (hrun : (Machine.start.feedAll policy config ts).2 = none)
    (hdone : (Machine.start.feedAll policy config ts).1.pending = .done) :
    ∃ p, compile policy config switches text = .ok p := by
  rw [compile_eq, htokens]
  generalize Machine.start.feedAll policy config ts = outcome at hrun hdone ⊢
  obtain ⟨last, refusal⟩ := outcome
  obtain rfl : refusal = none := hrun
  exact ⟨_, if_pos hdone⟩

end Compiler

end Transcript
