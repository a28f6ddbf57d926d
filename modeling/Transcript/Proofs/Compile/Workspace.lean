/-
**The workspace follows the machine.**

A workspace in which the indexes agree with what was built, and whose buffer holds what a state of the
machine holds back, is taken by every token to the workspace of the next state, or is left for the error
with which the machine refuses the token.  The operations on it find what they take from the buffer and
room for what they add, and the weight of the window, which is that of its entries, never goes below
zero.

Main definitions:

* `Transcript.Workspace.holding` — the workspace in which the indexes agree with what was built;
* `Transcript.Workspace.Mirrors` — **a task does what a step of the machine does**;
* `Transcript.Pending.Proper` — the tokens held back are of the kinds that the state calls for;
* `Transcript.Workspace.Represents` — the workspace of a state in the midst of a text.

Main results:

* `Transcript.Workspace.emit_apply`, `Transcript.Workspace.mirrors_emitTag` — adding fragments;
* `Transcript.Workspace.mirrors_transition`, `Transcript.Workspace.mirrors_transition_finish` — the
  transitions;
* `Transcript.Workspace.mirrors_feed`, `Transcript.Workspace.mirrors_feed_finish` — **what a token
  does**.
-/

import Transcript.Compile.Workspace
import Transcript.Proofs.Compile.Cues

set_option relaxedAutoImplicit false
set_option autoImplicit false

namespace Transcript

/-! ### What is kept in step -/

namespace CueWindow

/-- A list whose weight is known is trimmed without going below zero. -/
theorem trim?_total (keep : Nat) (entries : List CueEntry) :
    trim? keep entries (total entries) = some (trim keep entries (total entries)) := by
  induction entries with
  | nil => rfl
  | cons entry rest ih =>
      have hle : ¬ total (entry :: rest) < entry.weight := by simp [total]
      have hrest : total (entry :: rest) - entry.weight = total rest := by simp [total]
      rw [trim?, if_neg hle, trim, hrest, ih]
      by_cases hkeep : total rest < keep
      · rw [if_pos hkeep, if_pos hkeep]
      · rw [if_neg hkeep, if_neg hkeep]

/-- So is a window that is as heavy as its entries. -/
theorem push?_eq {window : CueWindow} (h : window.weight = total window.entries) (range : CueRange)
    (entry : CueEntry) : window.push? range entry = some (window.push range entry) := by
  have hweight : window.weight + entry.weight = total (window.entries ++ [entry]) := by
    simp [h, total]
  rw [push?, push, hweight, trim?_total]

end CueWindow

namespace Fragment

/-- The index of each tag among fragments, with the name that it binds. -/
def indexed (fragments : List Fragment) : List (Nat × Option Text) :=
  fragments.zipIdx.filterMap fun (fragment, index) =>
    fragment.shape.tag?.map fun binding => (index, binding)

theorem indexed_concat (fragments : List Fragment) (f : Fragment) :
    indexed (fragments ++ [f]) =
      indexed fragments ++ (f.shape.tag?.map fun binding => (fragments.length, binding)).toList := by
  rw [indexed, List.zipIdx_append, List.filterMap_append, ← indexed]
  cases htag : f.shape.tag? <;> simp [htag]

end Fragment

/-- The token as it is held back once it was scheduled. -/
def Token.echoed (t : Token) : Token := if t.kind = .input then { t with kind := .literal } else t

namespace Workspace

/-- The workspace in which the indexes agree with what was built. -/
def holding (phase : Phase) (held : List Token) (b : Build) (warnings : List Warning) : Workspace where
  phase := phase
  held := held
  fragments := b.fragments
  tags := Fragment.indexed b.fragments.toList
  groups := b.groups
  window := b.window
  inputs := b.inputs
  warnings := warnings

variable {config : Config} {phase : Phase} {held : List Token} {b : Build} {ws : List Warning}

theorem bind_of_ok {α β : Type} {x : Task α} {f : α → Task β} {w w' : Workspace} {a : α}
    (h : x.run w = .ok a w') : (x >>= f).run w = (f a).run w' := by
  change EStateM.bind x f w = _
  rw [EStateM.bind, show x w = _ from h]
  rfl

theorem bind_of_error {α β : Type} {x : Task α} {f : α → Task β} {w w' : Workspace} {halt : Halt}
    (h : x.run w = .error halt w') : (x >>= f).run w = .error halt w' := by
  change EStateM.bind x f w = _
  rw [EStateM.bind, show x w = _ from h]

theorem get_apply (w : Workspace) : (get : Task Workspace).run w = .ok w w := rfl

theorem hold_apply (t : Token) (h : held.length < capacity) :
    (hold t).run (holding phase held b ws) = .ok () (holding phase (held ++ [t]) b ws) := if_pos h

theorem takeOldest_apply (t : Token) :
    takeOldest.run (holding phase (t :: held) b ws) = .ok t (holding phase held b ws) := rfl

theorem takeNewest_apply (t : Token) :
    takeNewest.run (holding phase (held ++ [t]) b ws) = .ok t (holding phase held b ws) := by
  simp [EStateM.run, takeNewest, holding]

open Build

theorem emit_apply (hb : Cued config b) {f : Fragment} (hf : f.shape.tag? = none) :
    (emit config f).run (holding phase held b ws) = .ok () (holding phase held (b.emit config.cueRange f) ws) := by
  have hgroups : (b.emit config.cueRange f).groups = b.groups :=
    groups_emit _ _ (by rw [Fragment.name?, hf]; rfl)
  have hindexed : Fragment.indexed (b.emit config.cueRange f).fragments.toList =
      Fragment.indexed b.fragments.toList := by
    rw [fragments_emit, Array.toList_push, Fragment.indexed_concat, hf]
    simp
  have hstate : holding phase held (b.emit config.cueRange f) ws =
      { holding phase held b ws with
        fragments := b.fragments.push f
        window := (b.emit config.cueRange f).window } := by
    rw [holding, hgroups, hindexed]
    rfl
  rw [hstate, EStateM.run, emit, Build.emit]
  cases hreset : f.resetsCue with
  | true => rfl
  | false =>
      have hpush := CueWindow.push?_eq hb.keeps.weight_eq config.cueRange f.entry
      simp only [holding, hpush]
      rfl

theorem emitText_apply (hb : Cued config b) (t : Token) :
    (emitText config).run (holding phase (t.echoed :: held) b ws) =
      .ok () (holding phase held (b.emitText config t) ws) := by
  have hoffset : t.echoed.offset = t.offset := by
    unfold Token.echoed
    split <;> rfl
  have htext : t.echoed.text = t.text := by
    unfold Token.echoed
    split <;> rfl
  rw [emitText, bind_of_ok (takeOldest_apply t.echoed), hoffset, htext]
  exact emit_apply hb rfl

theorem emitSpace_apply (hb : Cued config b) (t : Token) :
    (emitSpaces config true).run (holding phase (t :: held) b ws) =
      .ok () (holding phase held (b.emitSpace config t) ws) := by
  rw [emitSpaces, bind_of_ok (takeOldest_apply t)]
  exact emit_apply hb rfl

theorem emitSpaces_apply (hb : Cued config b) (t : Token) :
    (emitSpaces config false).run (holding phase (t :: held) b ws) =
      .ok () (holding phase held (b.emitSpaces config t) ws) := by
  rw [emitSpaces, bind_of_ok (takeOldest_apply t)]
  exact emit_apply hb rfl

theorem emitFinish_apply (hb : Cued config b) (t : Token) (anchor : EndAnchor) :
    (emitFinish config anchor).run (holding phase (t :: held) b ws) =
      .ok () (holding phase held (b.emitFinish config t.offset anchor) ws) := by
  rw [emitFinish, bind_of_ok (takeOldest_apply t)]
  exact emit_apply hb rfl

/-! ### Tasks beside steps -/

/-- A task does what a step of the machine does: both are accepted and what they come to is related, or
both are refused with the same error. -/
inductive Mirrors {α β : Type} (R : α → β → Workspace → Prop) :
    Except CompileError α → EStateM.Result Halt Workspace β → Prop
  | ok {a : α} {c : β} {w : Workspace} (h : R a c w) : Mirrors R (.ok a) (.ok c w)
  | error (e : CompileError) (w : Workspace) : Mirrors R (.error e) (.error (.refused e) w)

theorem holding_emit_tag (range : CueRange) (offset : Nat) (binding : Option Text)
    (context : TagContext) (greedy : Bool) :
    holding phase held (b.emit range ⟨offset, .tag binding context greedy⟩) ws =
      { holding phase held b ws with
        fragments := b.fragments.push ⟨offset, .tag binding context greedy⟩
        tags := Fragment.indexed b.fragments.toList ++ [(b.fragments.size, binding)]
        groups := b.groups ++ (binding.map groupName).toList
        window := .empty } := by
  have hgroups : (b.emit range ⟨offset, .tag binding context greedy⟩).groups =
      b.groups ++ (binding.map groupName).toList := by
    cases binding <;> simp [Build.groups, Fragment.name?, Shape.tag?]
  rw [holding, hgroups, fragments_emit, Array.toList_push, Fragment.indexed_concat, Array.length_toList]
  rfl

theorem mirrors_emitTag (hb : Cued config b) (t : Token) (context : TagContext) (endOfLine : Bool) :
    Mirrors (fun b' _ w => Cued config b' ∧ w = holding phase held b' ws)
      (b.emitTag config t context endOfLine)
      ((emitTag config context endOfLine).run (holding phase (t :: held) b ws)) := by
  rw [emitTag, bind_of_ok (takeOldest_apply t), Build.emitTag]
  cases hname : config.tags.nameOf? t.text with
  | none => exact .error _ _
  | some name =>
      dsimp only
      by_cases hdots : name = config.ellipsis
      · rw [if_pos hdots, if_pos hdots]
        refine .ok ⟨hb.emit _, ?_⟩
        rw [holding_emit_tag, Option.map_none, Option.toList_none, List.append_nil]
        rfl
      · rw [if_neg hdots, if_neg hdots]
        by_cases hused : b.groups.contains (groupName name) = true
        · have hopen : (openGroup name t.offset).run (holding phase held b ws) =
              .error (.refused (.duplicateName name t.offset)) (holding phase held b ws) := if_pos hused
          rw [if_pos hused, bind_of_error hopen]
          exact .error _ _
        · have hopen : (openGroup name t.offset).run (holding phase held b ws) =
              .ok () { holding phase held b ws with groups := b.groups ++ [groupName name] } :=
            if_neg hused
          rw [if_neg hused, bind_of_ok hopen]
          refine .ok ⟨hb.emit _, ?_⟩
          rw [holding_emit_tag]
          rfl

theorem Mirrors.of_ok {α β : Type} {R : α → β → Workspace → Prop} {task : Task β} {w w' : Workspace}
    {a : α} {c : β} (h : task.run w = .ok c w') (hR : R a c w') : Mirrors R (.ok a) (task.run w) := by
  rw [h]
  exact .ok hR

theorem Mirrors.after {α β γ : Type} {R : α → β → Workspace → Prop} {first : Task γ} {f : γ → Task β}
    {w w' : Workspace} {c : γ} {r : Except CompileError α} (h : first.run w = .ok c w')
    (hf : Mirrors R r ((f c).run w')) : Mirrors R r ((first >>= f).run w) := by
  rw [bind_of_ok h]
  exact hf

/-- A task and the one behind it do what a step and the one behind it do. -/
theorem Mirrors.bind {α β γ δ : Type} {R : α → β → Workspace → Prop} {S : γ → δ → Workspace → Prop}
    {task : Task β} {f : β → Task δ} {w : Workspace} {r : Except CompileError α}
    {g : α → Except CompileError γ} (h : Mirrors R r (task.run w))
    (hg : ∀ a c w', r = .ok a → R a c w' → Mirrors S (g a) ((f c).run w')) :
    Mirrors S (r >>= g) ((task >>= f).run w) := by
  generalize htask : task.run w = result at h
  cases h with
  | ok h =>
      rw [bind_of_ok htask]
      exact hg _ _ _ rfl h
  | error e w' =>
      rw [bind_of_error htask]
      exact .error e w'

theorem Mirrors.map {α β γ : Type} {R : α → β → Workspace → Prop} {S : γ → β → Workspace → Prop}
    {r : Except CompileError α} {result : EStateM.Result Halt Workspace β} {g : α → γ}
    (h : Mirrors R r result) (hg : ∀ a c w', R a c w' → S (g a) c w') :
    Mirrors S (r >>= fun a => .ok (g a)) result := by
  cases h with
  | ok h => exact .ok (hg _ _ _ h)
  | error e w' => exact .error e w'

/-- A task and something behind it that cannot stop do what a step does. -/
theorem Mirrors.finally {α β δ : Type} {R : α → β → Workspace → Prop} {S : α → δ → Workspace → Prop}
    {task : Task β} {f : β → Task δ} {w : Workspace} {r : Except CompileError α}
    (h : Mirrors R r (task.run w))
    (hf : ∀ a c w', R a c w' → ∃ d w'', (f c).run w' = .ok d w'' ∧ S a d w'') :
    Mirrors S r ((task >>= f).run w) := by
  rw [← bind_pure r]
  refine h.bind fun a c w' _ hR => ?_
  obtain ⟨d, w'', hrun, hS⟩ := hf a c w' hR
  exact .of_ok hrun hS

/-- A task that is done, and where the compilation stands then. -/
theorem andThen_of_ok {task : Task Unit} {w w' : Workspace} (h : task.run w = .ok () w')
    (next : Phase) : (andThen task next).run w = .ok next w' := by
  rw [andThen, bind_of_ok h]
  rfl

/-- What is done with a build that was accepted. -/
theorem Mirrors.andThen {task : Task Unit} {w : Workspace} {r : Except CompileError Build}
    (h : Mirrors (fun b' _ w' => Cued config b' ∧ w' = holding phase held b' ws) r (task.run w))
    {S : Machine → Phase → Workspace → Prop} {next : Build → Machine} {p : Phase}
    (hnext : ∀ b', Cued config b' → S (next b') p (holding phase held b' ws)) :
    Mirrors S (r >>= fun b' => .ok (next b')) ((Workspace.andThen task p).run w) := by
  refine h.bind fun b' _ w' _ hb' => ?_
  obtain ⟨hb', rfl⟩ := hb'
  exact .ok (hnext b' hb')

section Dispatch

variable {kind : TokenKind} {onSpace onText onTag onFinish : Task Phase}

theorem dispatch_of_isSpace (h : kind.isSpace = true) :
    dispatch kind onSpace onText onTag onFinish = onSpace := if_pos h

theorem dispatch_of_isText (h : kind.isText = true) :
    dispatch kind onSpace onText onTag onFinish = onText := by
  cases kind <;> first | rfl | exact absurd h (by decide)

/-- White space and text that are treated alike. -/
theorem dispatch_of_ne (htag : kind ≠ .tag) (hfinish : kind ≠ .finish) :
    dispatch kind onText onText onTag onFinish = onText := by
  cases kind <;> first | rfl | contradiction

theorem dispatch_of_tag (h : kind = .tag) :
    dispatch kind onSpace onText onTag onFinish = onTag := by
  rw [h]
  rfl

theorem dispatch_of_finish (h : kind = .finish) :
    dispatch kind onSpace onText onTag onFinish = onFinish := by
  rw [h]
  rfl

end Dispatch

end Workspace

/-! ### The tokens held back -/

/-- What is read as a literal: white space is where it is matched as written. -/
def Policy.isLiteral : Policy → TokenKind → Bool
  | _, .literal => true
  | .literal, kind => kind.isSpace
  | .normalize, _ => false

namespace Pending

def phase : Pending → Phase
  | idle => .idle
  | gap _ => .gap
  | text _ => .text
  | tag _ => .tag
  | gapTag _ _ => .gapTag
  | done => .exhausted

/-- The tokens held back, an input as a literal. -/
def stash : Pending → List Token
  | text x => [x.echoed]
  | pending => pending.held

/-- In the midst of a text, the tokens held back are of the kinds that the state calls for. -/
inductive Proper (policy : Policy) : Pending → Prop
  | idle : Proper policy .idle
  | gap {s : Token} (hpolicy : policy = .normalize) (hs : s.kind.isSpace = true) : Proper policy (.gap s)
  | text {x : Token} (hx : policy.isLiteral x.echoed.kind = true) : Proper policy (.text x)
  | tag {g : Token} (hg : g.kind = .tag) : Proper policy (.tag g)
  | gapTag {s g : Token} (hpolicy : policy = .normalize) (hs : s.kind.isSpace = true)
      (hg : g.kind = .tag) : Proper policy (.gapTag s g)

end Pending

namespace Workspace

open Build

variable {policy : Policy} {config : Config} {m : Machine} {t : Token} {w : Workspace}
  {ws : List Warning}

/-- Behind a transition, the buffer holds what the state holds back; the token itself is not yet turned
into an echo. -/
structure Settles (policy : Policy) (config : Config) (t : Token) (old : Phase) (ws : List Warning)
    (next : Machine) (phase : Phase) (w : Workspace) : Prop where
  phase : phase = next.pending.phase
  eq : w = holding old next.pending.held next.build ws
  proper : next.pending.Proper policy
  text : ∀ x, next.pending = .text x → x = t
  cued : Cued config next.build

theorem isLiteral_of_isText (policy : Policy) (ht : t.kind.isText = true) :
    policy.isLiteral t.echoed.kind = true := by
  have hkind : t.echoed.kind = .literal := by
    cases hk : t.kind <;> simp_all [Token.echoed, TokenKind.isText]
  rw [hkind]
  cases policy <;> rfl

theorem isLiteral_of_ne (htag : t.kind ≠ .tag) (hfinish : t.kind ≠ .finish) :
    Policy.literal.isLiteral t.echoed.kind = true := by
  cases hk : t.kind <;> simp_all [Token.echoed, Policy.isLiteral, TokenKind.isSpace]

theorem mirrors_normalizeSpace (hb : Cued config m.build) (hp : m.pending.Proper .normalize)
    (ht : t.kind.isSpace = true) :
    Mirrors (Settles .normalize config t m.pending.phase ws) (m.normalizeSpace config t)
      ((normalize config t.kind m.pending.phase).run
        (holding m.pending.phase (m.pending.stash ++ [t]) m.build ws)) := by
  obtain ⟨pending, b⟩ := m
  cases hp with
  | idle =>
      rw [Pending.phase, normalize, dispatch_of_isSpace ht]
      exact .ok ⟨rfl, rfl, .gap rfl ht, nofun, hb⟩
  | gap _ hs =>
      rw [Pending.phase, normalize, dispatch_of_isSpace ht]
      exact .after (takeNewest_apply t) (.ok ⟨rfl, rfl, .gap rfl hs, nofun, hb⟩)
  | @text x _ =>
      rw [Pending.phase, normalize, dispatch_of_isSpace ht]
      exact .of_ok (andThen_of_ok (emitText_apply hb x) _) ⟨rfl, rfl, .gap rfl ht, nofun, hb.emit _⟩
  | @tag g _ =>
      rw [Pending.phase, normalize, dispatch_of_isSpace ht]
      exact (mirrors_emitTag hb g _ _).andThen fun b' hb' => ⟨rfl, rfl, .gap rfl ht, nofun, hb'⟩
  | @gapTag s g _ _ _ =>
      rw [Pending.phase, normalize, dispatch_of_isSpace ht]
      exact .after (emitSpace_apply hb s) ((mirrors_emitTag (hb.emit _) g _ _).andThen
        fun b' hb' => ⟨rfl, rfl, .gap rfl ht, nofun, hb'⟩)

theorem mirrors_normalizeText (hb : Cued config m.build) (hp : m.pending.Proper .normalize)
    (ht : t.kind.isText = true) :
    Mirrors (Settles .normalize config t m.pending.phase ws) (m.normalizeText config t)
      ((normalize config t.kind m.pending.phase).run
        (holding m.pending.phase (m.pending.stash ++ [t]) m.build ws)) := by
  obtain ⟨pending, b⟩ := m
  have hproper : (Pending.text t).Proper .normalize := .text (isLiteral_of_isText _ ht)
  have htext : ∀ x, Pending.text t = .text x → x = t := fun x h => (Pending.text.inj h).symm
  cases hp with
  | idle =>
      rw [Pending.phase, normalize, dispatch_of_isText ht]
      exact .ok ⟨rfl, rfl, hproper, htext, hb⟩
  | @gap s _ _ =>
      rw [Pending.phase, normalize, dispatch_of_isText ht]
      exact .of_ok (andThen_of_ok (emitSpaces_apply hb s) _) ⟨rfl, rfl, hproper, htext, hb.emit _⟩
  | @text x _ =>
      rw [Pending.phase, normalize, dispatch_of_isText ht]
      exact .of_ok (andThen_of_ok (emitText_apply hb x) _) ⟨rfl, rfl, hproper, htext, hb.emit _⟩
  | @tag g _ =>
      rw [Pending.phase, normalize, dispatch_of_isText ht]
      exact (mirrors_emitTag hb g _ _).andThen fun b' hb' => ⟨rfl, rfl, hproper, htext, hb'⟩
  | @gapTag s g _ _ _ =>
      rw [Pending.phase, normalize, dispatch_of_isText ht]
      exact .after (emitSpaces_apply hb s) ((mirrors_emitTag (hb.emit _) g _ _).andThen
        fun b' hb' => ⟨rfl, rfl, hproper, htext, hb'⟩)

theorem mirrors_normalizeTag (hb : Cued config m.build) (hp : m.pending.Proper .normalize)
    (ht : t.kind = .tag) :
    Mirrors (Settles .normalize config t m.pending.phase ws) (m.normalizeTag config t)
      ((normalize config t.kind m.pending.phase).run
        (holding m.pending.phase (m.pending.stash ++ [t]) m.build ws)) := by
  obtain ⟨pending, b⟩ := m
  cases hp with
  | idle =>
      rw [Pending.phase, normalize, dispatch_of_tag ht]
      exact .ok ⟨rfl, rfl, .tag ht, nofun, hb⟩
  | @gap s _ hs =>
      rw [Pending.phase, normalize, dispatch_of_tag ht]
      exact .ok ⟨rfl, rfl, .gapTag rfl hs ht, nofun, hb⟩
  | @text x _ =>
      rw [Pending.phase, normalize, dispatch_of_tag ht]
      exact .of_ok (andThen_of_ok (emitText_apply hb x) _) ⟨rfl, rfl, .tag ht, nofun, hb.emit _⟩
  | @tag g _ =>
      rw [Pending.phase, normalize, dispatch_of_tag ht]
      exact .error _ _
  | @gapTag s g _ _ _ =>
      rw [Pending.phase, normalize, dispatch_of_tag ht]
      exact .after (takeOldest_apply s) (.error _ _)

theorem mirrors_verbatimText (hb : Cued config m.build) (hp : m.pending.Proper .literal)
    (htag : t.kind ≠ .tag) (hfinish : t.kind ≠ .finish) :
    Mirrors (Settles .literal config t m.pending.phase ws) (m.verbatimText config t)
      ((verbatim config t.kind m.pending.phase).run
        (holding m.pending.phase (m.pending.stash ++ [t]) m.build ws)) := by
  obtain ⟨pending, b⟩ := m
  have hproper : (Pending.text t).Proper .literal := .text (isLiteral_of_ne htag hfinish)
  have htext : ∀ x, Pending.text t = .text x → x = t := fun x h => (Pending.text.inj h).symm
  cases hp with
  | idle =>
      rw [Pending.phase, verbatim, dispatch_of_ne htag hfinish]
      exact .ok ⟨rfl, rfl, hproper, htext, hb⟩
  | gap hpolicy _ => cases hpolicy
  | @text x _ =>
      rw [Pending.phase, verbatim, dispatch_of_ne htag hfinish]
      exact .of_ok (andThen_of_ok (emitText_apply hb x) _) ⟨rfl, rfl, hproper, htext, hb.emit _⟩
  | @tag g _ =>
      rw [Pending.phase, verbatim, dispatch_of_ne htag hfinish]
      exact (mirrors_emitTag hb g _ _).andThen fun b' hb' => ⟨rfl, rfl, hproper, htext, hb'⟩
  | gapTag hpolicy _ _ => cases hpolicy

theorem mirrors_verbatimTag (hb : Cued config m.build) (hp : m.pending.Proper .literal)
    (ht : t.kind = .tag) :
    Mirrors (Settles .literal config t m.pending.phase ws) (m.verbatimTag config t)
      ((verbatim config t.kind m.pending.phase).run
        (holding m.pending.phase (m.pending.stash ++ [t]) m.build ws)) := by
  obtain ⟨pending, b⟩ := m
  cases hp with
  | idle =>
      rw [Pending.phase, verbatim, dispatch_of_tag ht]
      exact .ok ⟨rfl, rfl, .tag ht, nofun, hb⟩
  | gap hpolicy _ => cases hpolicy
  | @text x _ =>
      rw [Pending.phase, verbatim, dispatch_of_tag ht]
      exact .of_ok (andThen_of_ok (emitText_apply hb x) _) ⟨rfl, rfl, .tag ht, nofun, hb.emit _⟩
  | @tag g _ =>
      rw [Pending.phase, verbatim, dispatch_of_tag ht]
      exact .error _ _
  | gapTag hpolicy _ _ => cases hpolicy

theorem mirrors_transition (hb : Cued config m.build) (hp : m.pending.Proper policy)
    (hfinish : t.kind ≠ .finish) :
    Mirrors (Settles policy config t m.pending.phase ws) (m.advance policy config t)
      ((transition policy config t.kind m.pending.phase).run
        (holding m.pending.phase (m.pending.stash ++ [t]) m.build ws)) := by
  by_cases htag : t.kind = .tag
  · cases policy with
    | normalize =>
        have hadvance : m.advance .normalize config t = m.normalizeTag config t := by
          rw [Machine.advance, Machine.normalize, htag]
        rw [hadvance]
        exact mirrors_normalizeTag hb hp htag
    | literal =>
        have hadvance : m.advance .literal config t = m.verbatimTag config t := by
          rw [Machine.advance, Machine.verbatim, htag]
        rw [hadvance]
        exact mirrors_verbatimTag hb hp htag
  · cases policy with
    | normalize =>
        rw [Machine.advance]
        cases hspace : t.kind.isSpace with
        | true =>
            rw [Machine.normalize_of_isSpace hspace]
            exact mirrors_normalizeSpace hb hp hspace
        | false =>
            have htext : t.kind.isText = true := by
              cases hk : t.kind <;> simp_all [TokenKind.isText, TokenKind.isSpace]
            rw [Machine.normalize_of_isText htext]
            exact mirrors_normalizeText hb hp htext
    | literal =>
        rw [Machine.advance, Machine.verbatim_of_ne htag hfinish]
        exact mirrors_verbatimText hb hp htag hfinish

/-- Behind the transition for the end, the buffer holds the end, and only the anchor is missing from
what was built. -/
structure Ends (policy : Policy) (config : Config) (old : Phase) (ws : List Warning) (next : Machine)
    (phase : Phase) (w : Workspace) : Prop where
  phase : phase = .finish
  exists_finish : ∃ b u, Cued config b ∧ u.kind = .finish ∧ w = holding old [u] b ws ∧
    next = ⟨.done, b.emitFinish config u.offset (anchor policy)⟩

theorem mirrors_normalizeFinish (hb : Cued config m.build) (hp : m.pending.Proper .normalize)
    (ht : t.kind = .finish) :
    Mirrors (Ends .normalize config m.pending.phase ws) (m.normalizeFinish config t)
      ((normalize config t.kind m.pending.phase).run
        (holding m.pending.phase (m.pending.stash ++ [t]) m.build ws)) := by
  obtain ⟨pending, b⟩ := m
  cases hp with
  | idle =>
      rw [Pending.phase, normalize, dispatch_of_finish ht]
      exact .ok ⟨rfl, _, t, hb, ht, rfl, rfl⟩
  | @gap s _ _ =>
      -- the end takes the offset of the white space
      rw [Pending.phase, normalize, dispatch_of_finish ht]
      exact .after (takeOldest_apply s) (.after (takeOldest_apply t)
        (.ok ⟨rfl, _, { t with offset := s.offset }, hb, ht, rfl, rfl⟩))
  | @text x _ =>
      rw [Pending.phase, normalize, dispatch_of_finish ht]
      exact .of_ok (andThen_of_ok (emitText_apply hb x) _) ⟨rfl, _, t, hb.emit _, ht, rfl, rfl⟩
  | @tag g _ =>
      rw [Pending.phase, normalize, dispatch_of_finish ht]
      exact (mirrors_emitTag hb g _ _).andThen fun b' hb' => ⟨rfl, b', t, hb', ht, rfl, rfl⟩
  | @gapTag s g _ _ _ =>
      rw [Pending.phase, normalize, dispatch_of_finish ht]
      exact .after (emitSpace_apply hb s) ((mirrors_emitTag (hb.emit _) g _ _).andThen
        fun b' hb' => ⟨rfl, b', t, hb', ht, rfl, rfl⟩)

theorem mirrors_verbatimFinish (hb : Cued config m.build) (hp : m.pending.Proper .literal)
    (ht : t.kind = .finish) :
    Mirrors (Ends .literal config m.pending.phase ws) (m.verbatimFinish config t)
      ((verbatim config t.kind m.pending.phase).run
        (holding m.pending.phase (m.pending.stash ++ [t]) m.build ws)) := by
  obtain ⟨pending, b⟩ := m
  cases hp with
  | idle =>
      rw [Pending.phase, verbatim, dispatch_of_finish ht]
      exact .ok ⟨rfl, _, t, hb, ht, rfl, rfl⟩
  | gap hpolicy _ => cases hpolicy
  | @text x _ =>
      rw [Pending.phase, verbatim, dispatch_of_finish ht]
      exact .of_ok (andThen_of_ok (emitText_apply hb x) _) ⟨rfl, _, t, hb.emit _, ht, rfl, rfl⟩
  | @tag g _ =>
      rw [Pending.phase, verbatim, dispatch_of_finish ht]
      exact (mirrors_emitTag hb g _ _).andThen fun b' hb' => ⟨rfl, b', t, hb', ht, rfl, rfl⟩
  | gapTag hpolicy _ _ => cases hpolicy

theorem mirrors_transition_finish (hb : Cued config m.build) (hp : m.pending.Proper policy)
    (ht : t.kind = .finish) :
    Mirrors (Ends policy config m.pending.phase ws) (m.advance policy config t)
      ((transition policy config t.kind m.pending.phase).run
        (holding m.pending.phase (m.pending.stash ++ [t]) m.build ws)) := by
  cases policy with
  | normalize =>
      have hadvance : m.advance .normalize config t = m.normalizeFinish config t := by
        rw [Machine.advance, Machine.normalize, ht]
      rw [hadvance]
      exact mirrors_normalizeFinish hb hp ht
  | literal =>
      have hadvance : m.advance .literal config t = m.verbatimFinish config t := by
        rw [Machine.advance, Machine.verbatim, ht]
      rw [hadvance]
      exact mirrors_verbatimFinish hb hp ht

/-! ### Tokens -/

def ofMachine (m : Machine) (ws : List Warning) : Workspace :=
  holding m.pending.phase m.pending.stash m.build ws

/-- No state holds back as many tokens as the buffer has room for. -/
theorem length_stash_lt (pending : Pending) : pending.stash.length < capacity := by
  cases pending <;> simp [Pending.stash, Pending.held, capacity]

theorem advance_run (policy : Policy) (config : Config) (t : Token) (m : Machine) (ws : List Warning) :
    (advance policy config t).run (ofMachine m ws) =
      (transition policy config t.kind m.pending.phase >>= goTo).run
        (holding m.pending.phase (m.pending.stash ++ [t]) m.build ws) := by
  rw [advance, ofMachine, bind_of_ok (hold_apply t (length_stash_lt m.pending))]
  rfl

/-- The workspace of a state in the midst of a text. -/
structure Represents (policy : Policy) (config : Config) (ws : List Warning) (m : Machine)
    (w : Workspace) : Prop where
  eq : w = ofMachine m ws
  proper : m.pending.Proper policy
  cued : Cued config m.build

/-- Scheduling an input leaves its echo in the buffer. -/
theorem mirrors_schedule {phase : Phase} {b : Build} (hb : Cued config b) (ht : t.kind = .input) :
    Mirrors (fun b' _ w => w = holding phase [t.echoed] b' ws ∧ Cued config b')
      (b.schedule config t) ((schedule config).run (holding phase [t] b ws)) := by
  have hechoed : t.echoed = ⟨t.offset, .literal, t.text⟩ := if_pos ht
  have hwindow : (holding phase [] b ws).window = b.window := rfl
  rw [schedule, bind_of_ok (takeOldest_apply t), bind_of_ok (get_apply _), hwindow, Build.schedule, hechoed]
  cases b.window.cue? config.cueRange with
  | none => exact .error _ _
  | some cue => exact .ok ⟨rfl, hb.keeps, hb.reset⟩

/-- **What a token does** in the midst of a text. -/
theorem mirrors_feed (h : Represents policy config ws m w) (hfinish : t.kind ≠ .finish) :
    Mirrors (fun next _ w' => Represents policy config ws next w') (m.feed policy config t)
      ((feed policy config t).run w) := by
  obtain ⟨rfl, hp, hb⟩ := h
  have hadvance : Mirrors (fun next _ w' => Settles policy config t next.pending.phase ws next
      next.pending.phase w') (m.advance policy config t)
      ((advance policy config t).run (ofMachine m ws)) := by
    rw [advance_run]
    refine (mirrors_transition hb hp hfinish).finally fun next phase w' hsettles => ?_
    obtain ⟨rfl, rfl, hproper, htext, hcued⟩ := hsettles
    exact ⟨(), _, rfl, rfl, rfl, hproper, htext, hcued⟩
  refine hadvance.bind fun next _ w' hnext hsettles => ?_
  obtain ⟨-, rfl, hproper, htext, hcued⟩ := hsettles
  by_cases hinput : t.kind = .input
  · -- the input is scheduled, and its echo takes its place in the buffer
    have hpending : next.pending = .text t :=
      (Machine.follows_of_advance hnext).text (by rw [hinput]; rfl)
    rw [if_pos hinput, if_pos hinput, hpending]
    refine (mirrors_schedule hcued hinput).map fun b' _ w'' hscheduled => ?_
    obtain ⟨rfl, hcued'⟩ := hscheduled
    exact ⟨rfl, hpending ▸ hproper, hcued'⟩
  · -- the token that is held is no input, so it is its own echo
    have hstash : next.pending.stash = next.pending.held := by
      cases hpending : next.pending with
      | text x =>
          rw [htext x hpending, Pending.stash, Pending.held, Token.echoed, if_neg hinput]
      | _ => rfl
    rw [if_neg hinput, if_neg hinput]
    refine .ok ⟨?_, hproper, hcued⟩
    rw [ofMachine, hstash]

/-- **What the token of the end does.** -/
theorem mirrors_feed_finish (h : Represents policy config ws m w) (ht : t.kind = .finish) :
    Mirrors (fun next _ w' => Ends policy config .finish ws next .finish w') (m.feed policy config t)
      ((feed policy config t).run w) := by
  obtain ⟨rfl, hp, hb⟩ := h
  have hinput : t.kind ≠ .input := by simp [ht]
  have hfeed : feed policy config t = advance policy config t >>= fun _ => pure () := by
    unfold feed
    simp only [if_neg hinput]
  rw [Machine.feed_of_ne_input hinput, hfeed, bind_pure, advance_run]
  refine (mirrors_transition_finish hb hp ht).finally fun next phase w' hends => ?_
  obtain ⟨rfl, b, u, hcued, hu, rfl, rfl⟩ := hends
  exact ⟨(), _, rfl, rfl, b, u, hcued, hu, rfl, rfl⟩

/-- **The end of the tokens** adds the anchor. -/
theorem close_run {next : Machine} {phase : Phase} (h : Ends policy config .finish ws next phase w) :
    next.pending = .done ∧ (close policy config).run w = .ok () (ofMachine next ws) := by
  obtain ⟨-, b, u, hcued, -, rfl, rfl⟩ := h
  have hphase : (holding .finish [u] b ws).phase = .finish := rfl
  refine ⟨rfl, ?_⟩
  rw [close, bind_of_ok (get_apply _), if_pos hphase, bind_of_ok (emitFinish_apply hcued u _)]
  rfl

end Workspace

end Transcript
