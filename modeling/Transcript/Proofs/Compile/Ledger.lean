/-
**What a compilation does to the tags.**

Of a text without inputs, nothing but the tags decides whether it is refused: a tag behind another tag,
a tag that the lexical rule gives no name, or one whose group is in use.  The ledger keeps what matters
for that, the tag that is held back and the tags that were emitted, and forgets the fragments, the
window and the white space.  The machines of both policies are refined by the one step of the ledger,
so they refuse the same tokens and emit the same tags.

Main definitions:

* `Transcript.Fragment.tagged` — the offsets of the tags among fragments, with what they bind;
* `Transcript.Ledger` — the tag held back and the tags emitted;
* `Transcript.Ledger.step` — **what a token does to the ledger**;
* `Transcript.Machine.ledger` — the ledger of a state.

Main results:

* `Transcript.Machine.map_ledger_advance` — **a step of either machine is a step of its ledger**;
* `Transcript.Machine.of?_advance_objection` — **why a step is refused**;
* `Transcript.Machine.map_ledger_run` — a whole run is a run of the ledger.
-/

import Transcript.Proofs.Compile.Step

set_option relaxedAutoImplicit false
set_option autoImplicit false

namespace Transcript

/-! ### The ledger -/

/-- The offsets of the tags among fragments, with what they bind. -/
def Fragment.tagged (fragments : List Fragment) : List (Nat × Option Text) :=
  fragments.filterMap fun f => f.shape.tag?.map (f.offset, ·)

/-- What is wrong with a tag: another tag follows it, it has no name in the lexical rule, or its group
is one of those used before. -/
def Token.objection? (config : Config) (used : List Text) (tagNext : Bool) (t : Token) :
    Option CompileError :=
  if tagNext then some (.ambiguousTags t.offset)
  else if (config.tags.nameOf? t.text).isNone then some (.internal .namelessTag)
  else t.conflict? config used false

/-- The tag that is held back, and the tags that were emitted, each with its offset and what it binds. -/
structure Ledger where
  held : Option Token
  tags : List (Nat × Option Text)
  deriving Repr, DecidableEq

namespace Ledger

def start : Ledger := ⟨none, []⟩

def groups (tags : List (Nat × Option Text)) : List Text :=
  tags.filterMap fun tag => tag.2.map groupName

@[simp] theorem groups_append (tags tags' : List (Nat × Option Text)) :
    groups (tags ++ tags') = groups tags ++ groups tags' := List.filterMap_append

/-- Emit the tag that is held back, if there is one. -/
def settle (config : Config) (tagNext : Bool) (l : Ledger) :
    Except CompileError (List (Nat × Option Text)) :=
  match l.held with
  | none => .ok l.tags
  | some tag =>
      match tag.objection? config (groups l.tags) tagNext with
      | none => .ok (l.tags ++ [(tag.offset, tag.binding config)])
      | some e => .error e

/-- **What a token does to the ledger**: the tag held back is emitted, and a tag takes its place. -/
def step (config : Config) (l : Ledger) (t : Token) : Except CompileError Ledger :=
  (l.settle config (t.kind == .tag)).map fun tags => ⟨if t.kind = .tag then some t else none, tags⟩

/-- What tokens do to the ledger. -/
def run (config : Config) (l : Ledger) (tokens : List Token) : Except CompileError Ledger :=
  tokens.foldlM (step config) l

variable {config : Config} {l : Ledger}

/-- Why the tag that is held back is not emitted. -/
theorem of?_settle (config : Config) (tagNext : Bool) (l : Ledger) :
    CompileError.of? (l.settle config tagNext) =
      l.held.bind (Token.objection? config (groups l.tags) tagNext) := by
  obtain ⟨held, tags⟩ := l
  cases held with
  | none => rfl
  | some tag =>
      unfold settle
      dsimp only [Option.bind_some]
      cases tag.objection? config (groups tags) tagNext <;> rfl

theorem step_of_ne_tag {t : Token} (ht : t.kind ≠ .tag) :
    l.step config t = (l.settle config false).map fun tags => ⟨none, tags⟩ := by
  have hkind : (t.kind == .tag) = false := by simpa using ht
  rw [step, hkind, if_neg ht]

theorem step_of_tag {t : Token} (ht : t.kind = .tag) :
    l.step config t = (l.settle config true).map fun tags => ⟨some t, tags⟩ := by
  rw [step, ht, if_pos rfl]
  rfl

/-- **Tokens that are no tags** emit the tag held back, if there is one, and do nothing else. -/
theorem run_of_ne_tag {tokens : List Token} (htokens : ∀ t ∈ tokens, t.kind ≠ .tag)
    (hne : tokens ≠ []) :
    l.run config tokens = (l.settle config false).map fun tags => ⟨none, tags⟩ := by
  induction tokens generalizing l with
  | nil => exact absurd rfl hne
  | cons t tokens ih =>
      have hstep : l.step config t = (l.settle config false).map fun tags => ⟨none, tags⟩ :=
        step_of_ne_tag (htokens t (List.mem_cons_self ..))
      rw [run, List.foldlM_cons, hstep]
      cases l.settle config false with
      | error e => rfl
      | ok tags =>
          cases tokens with
          | nil => rfl
          | cons u tokens =>
              exact ih (l := ⟨none, tags⟩) (fun v hv => htokens v (List.mem_cons_of_mem _ hv)) (by simp)

end Ledger

/-! ### Emitting a tag -/

namespace CompileError

theorem of?_map {α β : Type} (f : α → β) (result : Except CompileError α) :
    of? (result.map f) = of? result := by
  cases result <;> rfl

end CompileError

namespace Build

/-- The tags among the fragments so far. -/
def tagged (b : Build) : List (Nat × Option Text) := Fragment.tagged b.fragments.toList

theorem groups_tagged (b : Build) : Ledger.groups b.tagged = b.groups := by
  rw [Ledger.groups, tagged, Fragment.tagged, List.filterMap_filterMap, groups]
  congr 1
  funext f
  rw [Fragment.name?]
  cases f.shape.tag? <;> rfl

theorem tagged_emit (range : CueRange) (b : Build) {f : Fragment} (hf : f.shape.tag? = none) :
    (b.emit range f).tagged = b.tagged := by
  simp [tagged, Fragment.tagged, hf]

@[simp] theorem tagged_emitText (config : Config) (b : Build) (t : Token) :
    (b.emitText config t).tagged = b.tagged := tagged_emit _ _ rfl

@[simp] theorem tagged_emitSpace (config : Config) (b : Build) (t : Token) :
    (b.emitSpace config t).tagged = b.tagged := tagged_emit _ _ rfl

@[simp] theorem tagged_emitSpaces (config : Config) (b : Build) (t : Token) :
    (b.emitSpaces config t).tagged = b.tagged := tagged_emit _ _ rfl

@[simp] theorem tagged_emitFinish (config : Config) (b : Build) (offset : Nat) (anchor : EndAnchor) :
    (b.emitFinish config offset anchor).tagged = b.tagged := tagged_emit _ _ rfl

theorem tagged_emit_tag (range : CueRange) (b : Build) (offset : Nat) (binding : Option Text)
    (context : TagContext) (greedy : Bool) :
    (b.emit range ⟨offset, .tag binding context greedy⟩).tagged = b.tagged ++ [(offset, binding)] := by
  simp [tagged, Fragment.tagged, Shape.tag?]

/-- Of the tags, emitting one adds it, unless there is an objection. -/
theorem map_tagged_emitTag (config : Config) (b : Build) (t : Token) (context : TagContext)
    (endOfLine : Bool) :
    (b.emitTag config t context endOfLine).map tagged = Ledger.settle config false ⟨some t, b.tagged⟩ := by
  rw [Ledger.settle, groups_tagged]
  cases hname : config.tags.nameOf? t.text with
  | none => simp [emitTag, Token.objection?, hname, Except.map]
  | some name =>
      have hconflict := of?_emitTag (by rw [hname]; rfl) b context endOfLine
      have hobjection : t.objection? config b.groups false = t.conflict? config b.groups false := by
        simp [Token.objection?, hname]
      dsimp only
      rw [hobjection, ← hconflict]
      cases hemit : b.emitTag config t context endOfLine with
      | error e => rfl
      | ok b' =>
          obtain ⟨-, rfl, -⟩ := emitTag_eq_ok hemit
          exact congrArg Except.ok (tagged_emit_tag ..)

end Build

/-! ### The steps of the machines -/

namespace Machine

open Build CompileError

def ledger (m : Machine) : Ledger := ⟨m.pending.tag?, m.build.tagged⟩

/-- What is wrong with the tag that is held back, in front of another tag or not. -/
def conflict? (config : Config) (tagNext : Bool) (m : Machine) : Option CompileError :=
  m.pending.tag?.bind (Token.conflict? config m.build.groups tagNext)

variable {policy : Policy} {config : Config} {m : Machine} {t : Token}

/-- When the tag held back is emitted, the ledger is settled. -/
theorem map_ledger_emitTag {b : Build} {tags : List (Nat × Option Text)} (hb : b.tagged = tags)
    (tag : Token) (context : TagContext) (endOfLine : Bool) {next : Build → Machine}
    (hnext : ∀ b, (next b).ledger = ⟨none, b.tagged⟩) :
    (b.emitTag config tag context endOfLine >>= fun b' => .ok (next b')).map ledger =
      (Ledger.settle config false ⟨some tag, tags⟩).map fun tags => ⟨none, tags⟩ := by
  rw [← hb, ← map_tagged_emitTag config b tag context endOfLine]
  cases b.emitTag config tag context endOfLine with
  | error e => rfl
  | ok b' => exact congrArg Except.ok (hnext b')

section Refined

variable (hdone : m.pending ≠ .done)

include hdone

theorem map_ledger_normalizeSpace (ht : t.kind ≠ .tag) :
    (m.normalizeSpace config t).map ledger = m.ledger.step config t := by
  rw [Ledger.step_of_ne_tag ht]
  obtain ⟨pending, build⟩ := m
  cases pending with
  | idle => rfl
  | gap space => rfl
  | text text => simp [normalizeSpace, ledger, Ledger.settle, Except.map, Pending.tag?]
  | tag tag => exact map_ledger_emitTag rfl tag _ _ fun _ => rfl
  | gapTag space tag => exact map_ledger_emitTag (tagged_emitSpace ..) tag _ _ fun _ => rfl
  | done => exact absurd rfl hdone

theorem map_ledger_normalizeText (ht : t.kind ≠ .tag) :
    (m.normalizeText config t).map ledger = m.ledger.step config t := by
  rw [Ledger.step_of_ne_tag ht]
  obtain ⟨pending, build⟩ := m
  cases pending with
  | idle => rfl
  | gap space => simp [normalizeText, ledger, Ledger.settle, Except.map, Pending.tag?]
  | text text => simp [normalizeText, ledger, Ledger.settle, Except.map, Pending.tag?]
  | tag tag => exact map_ledger_emitTag rfl tag _ _ fun _ => rfl
  | gapTag space tag => exact map_ledger_emitTag (tagged_emitSpaces ..) tag _ _ fun _ => rfl
  | done => exact absurd rfl hdone

theorem map_ledger_normalizeTag (ht : t.kind = .tag) :
    (m.normalizeTag config t).map ledger = m.ledger.step config t := by
  rw [Ledger.step_of_tag ht]
  obtain ⟨pending, build⟩ := m
  cases pending with
  | text text => simp [normalizeTag, ledger, Ledger.settle, Except.map, Pending.tag?]
  | done => exact absurd rfl hdone
  | _ => rfl

theorem map_ledger_normalizeFinish (ht : t.kind ≠ .tag) :
    (m.normalizeFinish config t).map ledger = m.ledger.step config t := by
  rw [Ledger.step_of_ne_tag ht]
  obtain ⟨pending, build⟩ := m
  cases pending with
  | idle => simp [normalizeFinish, ledger, Ledger.settle, Except.map, Pending.tag?]
  | gap space => simp [normalizeFinish, ledger, Ledger.settle, Except.map, Pending.tag?]
  | text text => simp [normalizeFinish, ledger, Ledger.settle, Except.map, Pending.tag?]
  | tag tag => exact map_ledger_emitTag rfl tag _ _ fun _ => by simp [ledger, Pending.tag?]
  | gapTag space tag =>
      exact map_ledger_emitTag (tagged_emitSpace ..) tag _ _ fun _ => by simp [ledger, Pending.tag?]
  | done => exact absurd rfl hdone

theorem map_ledger_verbatimText (hsuits : m.pending.Suits .literal) (ht : t.kind ≠ .tag) :
    (m.verbatimText config t).map ledger = m.ledger.step config t := by
  rw [Ledger.step_of_ne_tag ht]
  obtain ⟨pending, build⟩ := m
  cases pending with
  | idle => rfl
  | gap space => exact hsuits.elim
  | text text => simp [verbatimText, ledger, Ledger.settle, Except.map, Pending.tag?]
  | tag tag => exact map_ledger_emitTag rfl tag _ _ fun _ => rfl
  | gapTag space tag => exact hsuits.elim
  | done => exact absurd rfl hdone

theorem map_ledger_verbatimTag (hsuits : m.pending.Suits .literal) (ht : t.kind = .tag) :
    (m.verbatimTag config t).map ledger = m.ledger.step config t := by
  rw [Ledger.step_of_tag ht]
  obtain ⟨pending, build⟩ := m
  cases pending with
  | idle => rfl
  | gap space => exact hsuits.elim
  | text text => simp [verbatimTag, ledger, Ledger.settle, Except.map, Pending.tag?]
  | tag tag => rfl
  | gapTag space tag => exact hsuits.elim
  | done => exact absurd rfl hdone

theorem map_ledger_verbatimFinish (hsuits : m.pending.Suits .literal) (ht : t.kind ≠ .tag) :
    (m.verbatimFinish config t).map ledger = m.ledger.step config t := by
  rw [Ledger.step_of_ne_tag ht]
  obtain ⟨pending, build⟩ := m
  cases pending with
  | idle => simp [verbatimFinish, ledger, Ledger.settle, Except.map, Pending.tag?]
  | gap space => exact hsuits.elim
  | text text => simp [verbatimFinish, ledger, Ledger.settle, Except.map, Pending.tag?]
  | tag tag => exact map_ledger_emitTag rfl tag _ _ fun _ => by simp [ledger, Pending.tag?]
  | gapTag space tag => exact hsuits.elim
  | done => exact absurd rfl hdone

/-- **A step of either machine is a step of its ledger.** -/
theorem map_ledger_advance (hsuits : m.pending.Suits policy) :
    (m.advance policy config t).map ledger = m.ledger.step config t := by
  cases policy with
  | normalize =>
      unfold advance normalize
      cases hkind : t.kind
      case newlines => exact map_ledger_normalizeSpace hdone (by simp [hkind])
      case spaces => exact map_ledger_normalizeSpace hdone (by simp [hkind])
      case literal => exact map_ledger_normalizeText hdone (by simp [hkind])
      case input => exact map_ledger_normalizeText hdone (by simp [hkind])
      case tag => exact map_ledger_normalizeTag hdone hkind
      case finish => exact map_ledger_normalizeFinish hdone (by simp [hkind])
  | literal =>
      unfold advance verbatim
      cases hkind : t.kind
      case tag => exact map_ledger_verbatimTag hdone hsuits hkind
      case finish => exact map_ledger_verbatimFinish hdone hsuits (by simp [hkind])
      all_goals exact map_ledger_verbatimText hdone hsuits (by simp [hkind])

/-- **Why a step is refused**: there is an objection to the tag that is held back. -/
theorem of?_advance_objection (hsuits : m.pending.Suits policy) :
    of? (m.advance policy config t) =
      m.pending.tag?.bind (Token.objection? config m.build.groups (t.kind == .tag)) := by
  rw [← of?_map ledger, map_ledger_advance hdone hsuits, Ledger.step, of?_map, Ledger.of?_settle,
    ledger, groups_tagged]

/-- A step is refused for a conflict of the tag that is held back, if that has a name. -/
theorem of?_advance (hname : ∀ g ∈ m.pending.tag?, (config.tags.nameOf? g.text).isSome)
    (hsuits : m.pending.Suits policy) :
    of? (m.advance policy config t) = m.conflict? config (t.kind == .tag) := by
  rw [of?_advance_objection hdone hsuits, conflict?]
  refine Option.bind_congr fun g hg => ?_
  rw [Token.objection?, Option.isNone_eq_false_iff.2 (hname g hg)]
  cases t.kind == .tag <;> rfl

end Refined

/-! ### Runs -/

/-- A run over the token of the end comes to the end. -/
theorem pending_of_run {lead : List Token} {last : Machine} (hfinish : t.kind = .finish)
    (h : m.run policy config (lead ++ [t]) = .ok last) : last.pending = .done := by
  rw [run_append] at h
  cases hmid : m.run policy config lead with
  | error e =>
      rw [hmid] at h
      cases h
  | ok mid =>
      rw [hmid] at h
      have hfeed : mid.feed policy config t = .ok last := by
        rw [← bind_pure (mid.feed policy config t)]
        exact h
      obtain ⟨next, hnext, hpending, -⟩ := feed_eq_ok hfeed
      rw [hpending]
      exact (follows_of_advance hnext).done_iff.2 hfinish

/-- **A whole run is a run of the ledger**, where the end is the last token, and no input stands in front
of it. -/
theorem map_ledger_run (config : Config) {lead : List Token} (hfinish : t.kind = .finish)
    (hlead : ∀ u ∈ lead, u.kind ≠ .finish ∧ u.kind ≠ .input) (hdone : m.pending ≠ .done)
    (hsuits : m.pending.Suits policy) :
    (m.run policy config (lead ++ [t])).map ledger = m.ledger.run config (lead ++ [t]) := by
  induction lead generalizing m with
  | nil =>
      have hstep : (m.advance policy config t).map ledger = m.ledger.step config t :=
        map_ledger_advance hdone hsuits
      rw [List.nil_append, run_cons, feed_of_ne_input (by simp [hfinish]), Ledger.run,
        List.foldlM_cons, ← hstep]
      cases m.advance policy config t <;> rfl
  | cons u lead ih =>
      obtain ⟨hne, hinput⟩ := hlead u (List.mem_cons_self ..)
      have hstep : (m.advance policy config u).map ledger = m.ledger.step config u :=
        map_ledger_advance hdone hsuits
      rw [List.cons_append, run_cons, feed_of_ne_input hinput, Ledger.run, List.foldlM_cons, ← hstep]
      cases hnext : m.advance policy config u with
      | error e => rfl
      | ok next =>
          have hfollows := follows_of_advance hnext
          exact ih (fun v hv => hlead v (List.mem_cons_of_mem _ hv))
            (fun hd => hne (hfollows.done_iff.1 hd)) hfollows.suits

end Machine

end Transcript
