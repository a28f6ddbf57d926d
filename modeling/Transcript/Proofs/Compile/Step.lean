/-
**One step of a compilation.**

Whatever the policy, a step that is accepted does two things: it adds fragments for the tokens that were
held back, and it holds back the token that it is given.  This module says so once, for both policies;
what a run preserves is derived from it.

Main definitions:

* `Transcript.Build.Grows` — fragments are added, and tags only where they are accepted;
* `Transcript.Pending.tag?` — the tag that is held back;
* `Transcript.CompileError.of?` — why a result was refused;
* `Transcript.Token.conflict?` — what is wrong with a tag.

Main results:

* `Transcript.Build.of?_emitTag` — why a tag is refused;
* `Transcript.Machine.follows_of_advance` — **what a step that is accepted does**.
-/

import Transcript.Proofs.Compile.Run

set_option relaxedAutoImplicit false
set_option autoImplicit false

namespace Transcript

/-! ### Adding fragments -/

namespace Build

/-- Fragments are added: tags that are accepted, and what is no tag. -/
inductive Grows (config : Config) : Build → Build → Prop
  | refl (b : Build) : Grows config b b
  | emit {b b' : Build} (h : Grows config b b') {f : Fragment} (hf : f.name? = none) :
      Grows config b (b'.emit config.cueRange f)
  | emitTag {b b' b'' : Build} (h : Grows config b b') {t : Token} {context : TagContext}
      {endOfLine : Bool} (htag : b'.emitTag config t context endOfLine = .ok b'') : Grows config b b''

namespace Grows

variable {config : Config} {b b' : Build}

theorem emitText (h : Grows config b b') (t : Token) : Grows config b (b'.emitText config t) :=
  h.emit rfl

theorem emitSpace (h : Grows config b b') (t : Token) : Grows config b (b'.emitSpace config t) :=
  h.emit rfl

theorem emitSpaces (h : Grows config b b') (t : Token) : Grows config b (b'.emitSpaces config t) :=
  h.emit rfl

theorem emitFinish (h : Grows config b b') (offset : Nat) (anchor : EndAnchor) :
    Grows config b (b'.emitFinish config offset anchor) := h.emit rfl

end Grows

end Build

/-! ### Refusals -/

/-- Why a result was refused, if it was. -/
def CompileError.of? {α : Type} : Except CompileError α → Option CompileError
  | .error e => some e
  | .ok _ => none

namespace CompileError

theorem of?_eq_some {α : Type} {result : Except CompileError α} {e : CompileError} :
    of? result = some e ↔ result = .error e := by
  cases result <;> simp [of?]

theorem of?_eq_none {α : Type} {result : Except CompileError α} :
    of? result = none ↔ ∃ a, result = .ok a := by
  cases result <;> simp [of?]

/-- What is done with a result that is not refused, when that cannot be refused. -/
theorem of?_bind_ok {α β : Type} (result : Except CompileError α) (f : α → β) :
    of? (result >>= fun a => .ok (f a)) = of? result := by
  cases result <;> rfl

theorem bind_ok_eq_ok {α β : Type} {result : Except CompileError α} {f : α → β} {b : β}
    (h : (result >>= fun a => .ok (f a)) = .ok b) : ∃ a, result = .ok a ∧ f a = b := by
  cases result with
  | error e => simp [bind, Except.bind] at h
  | ok a => exact ⟨a, rfl, Except.ok.inj h⟩

end CompileError

/-- What is wrong with a tag: another tag follows it, or its group is one of those used before. -/
def Token.conflict? (config : Config) (used : List Text) (tagNext : Bool) (t : Token) :
    Option CompileError :=
  if tagNext then some (.ambiguousTags t.offset)
  else (t.binding config).bind fun name =>
    if groupName name ∈ used then some (.duplicateName name t.offset) else none

namespace Build

open CompileError (of?)

theorem groups_emit (range : CueRange) (b : Build) {f : Fragment} (hf : f.name? = none) :
    (b.emit range f).groups = b.groups := by
  simp [groups, hf]

theorem of?_emitTag {config : Config} {t : Token} (hname : (config.tags.nameOf? t.text).isSome)
    (b : Build) (context : TagContext) (endOfLine : Bool) :
    of? (b.emitTag config t context endOfLine) = t.conflict? config b.groups false := by
  obtain ⟨name, hname⟩ := Option.isSome_iff_exists.1 hname
  by_cases hdots : name = config.ellipsis
  · simp [emitTag, Token.conflict?, Token.binding, hname, hdots, of?, Option.filter]
  · by_cases hused : groupName name ∈ b.groups
    · simp [emitTag, Token.conflict?, Token.binding, hname, hdots, of?, Option.filter, hused]
    · simp [emitTag, Token.conflict?, Token.binding, hname, hdots, of?, Option.filter, hused]

end Build

/-! ### The tokens held back -/

namespace Pending

def tag? : Pending → Option Token
  | .tag t => some t
  | .gapTag _ t => some t
  | _ => none

/-- White space is not held back where it is matched as written. -/
def Suits : Policy → Pending → Prop
  | .literal, .gap _ => False
  | .literal, .gapTag _ _ => False
  | _, _ => True

theorem suits_normalize (pending : Pending) : pending.Suits .normalize := by
  cases pending <;> trivial

end Pending

namespace Machine

open Build CompileError

variable {policy : Policy} {config : Config} {m next : Machine} {t : Token}

/-! ### Which transition a token takes -/

theorem normalize_of_isSpace (ht : t.kind.isSpace = true) (m : Machine) :
    m.normalize config t = m.normalizeSpace config t := by
  unfold normalize
  cases hkind : t.kind with
  | newlines => rfl
  | spaces => rfl
  | _ => simp [hkind, TokenKind.isSpace] at ht

theorem normalize_of_isText (ht : t.kind.isText = true) (m : Machine) :
    m.normalize config t = m.normalizeText config t := by
  unfold normalize
  cases hkind : t.kind with
  | literal => rfl
  | input => rfl
  | _ => simp [hkind, TokenKind.isText] at ht

theorem verbatim_of_ne (htag : t.kind ≠ .tag) (hfinish : t.kind ≠ .finish) (m : Machine) :
    m.verbatim config t = m.verbatimText config t := by
  unfold verbatim
  cases hkind : t.kind with
  | tag => exact absurd hkind htag
  | finish => exact absurd hkind hfinish
  | _ => rfl

/-! ### A step that is accepted -/

theorem normalizeSpace_eq_ok (h : m.normalizeSpace config t = .ok next) :
    (∃ first, next.pending = .gap first) ∧ Grows config m.build next.build := by
  obtain ⟨pending, build⟩ := m
  cases pending with
  | idle =>
      obtain rfl := Except.ok.inj h
      exact ⟨⟨t, rfl⟩, .refl _⟩
  | gap space =>
      obtain rfl := Except.ok.inj h
      exact ⟨⟨space, rfl⟩, .refl _⟩
  | text text =>
      obtain rfl := Except.ok.inj h
      exact ⟨⟨t, rfl⟩, (Grows.refl _).emitText text⟩
  | tag tag =>
      obtain ⟨b, hb, rfl⟩ := bind_ok_eq_ok h
      exact ⟨⟨t, rfl⟩, (Grows.refl _).emitTag hb⟩
  | gapTag space tag =>
      obtain ⟨b, hb, rfl⟩ := bind_ok_eq_ok h
      exact ⟨⟨t, rfl⟩, ((Grows.refl _).emitSpace space).emitTag hb⟩
  | done => simp [normalizeSpace] at h

theorem normalizeText_eq_ok (h : m.normalizeText config t = .ok next) :
    next.pending = .text t ∧ Grows config m.build next.build := by
  obtain ⟨pending, build⟩ := m
  cases pending with
  | idle =>
      obtain rfl := Except.ok.inj h
      exact ⟨rfl, .refl _⟩
  | gap space =>
      obtain rfl := Except.ok.inj h
      exact ⟨rfl, (Grows.refl _).emitSpaces space⟩
  | text text =>
      obtain rfl := Except.ok.inj h
      exact ⟨rfl, (Grows.refl _).emitText text⟩
  | tag tag =>
      obtain ⟨b, hb, rfl⟩ := bind_ok_eq_ok h
      exact ⟨rfl, (Grows.refl _).emitTag hb⟩
  | gapTag space tag =>
      obtain ⟨b, hb, rfl⟩ := bind_ok_eq_ok h
      exact ⟨rfl, ((Grows.refl _).emitSpaces space).emitTag hb⟩
  | done => simp [normalizeText] at h

theorem normalizeTag_eq_ok (h : m.normalizeTag config t = .ok next) :
    (next.pending = .tag t ∨ ∃ space, next.pending = .gapTag space t) ∧
      Grows config m.build next.build := by
  obtain ⟨pending, build⟩ := m
  cases pending with
  | idle =>
      obtain rfl := Except.ok.inj h
      exact ⟨Or.inl rfl, .refl _⟩
  | gap space =>
      obtain rfl := Except.ok.inj h
      exact ⟨Or.inr ⟨space, rfl⟩, .refl _⟩
  | text text =>
      obtain rfl := Except.ok.inj h
      exact ⟨Or.inl rfl, (Grows.refl _).emitText text⟩
  | _ => simp [normalizeTag] at h

theorem normalizeFinish_eq_ok (h : m.normalizeFinish config t = .ok next) :
    next.pending = .done ∧ Grows config m.build next.build := by
  obtain ⟨pending, build⟩ := m
  cases pending with
  | idle =>
      obtain rfl := Except.ok.inj h
      exact ⟨rfl, (Grows.refl _).emitFinish _ _⟩
  | gap space =>
      obtain rfl := Except.ok.inj h
      exact ⟨rfl, (Grows.refl _).emitFinish _ _⟩
  | text text =>
      obtain rfl := Except.ok.inj h
      exact ⟨rfl, ((Grows.refl _).emitText text).emitFinish _ _⟩
  | tag tag =>
      obtain ⟨b, hb, rfl⟩ := bind_ok_eq_ok h
      exact ⟨rfl, ((Grows.refl _).emitTag hb).emitFinish _ _⟩
  | gapTag space tag =>
      obtain ⟨b, hb, rfl⟩ := bind_ok_eq_ok h
      exact ⟨rfl, (((Grows.refl _).emitSpace space).emitTag hb).emitFinish _ _⟩
  | done => simp [normalizeFinish] at h

theorem verbatimText_eq_ok (h : m.verbatimText config t = .ok next) :
    next.pending = .text t ∧ Grows config m.build next.build := by
  obtain ⟨pending, build⟩ := m
  cases pending with
  | idle =>
      obtain rfl := Except.ok.inj h
      exact ⟨rfl, .refl _⟩
  | text text =>
      obtain rfl := Except.ok.inj h
      exact ⟨rfl, (Grows.refl _).emitText text⟩
  | tag tag =>
      obtain ⟨b, hb, rfl⟩ := bind_ok_eq_ok h
      exact ⟨rfl, (Grows.refl _).emitTag hb⟩
  | _ => simp [verbatimText] at h

theorem verbatimTag_eq_ok (h : m.verbatimTag config t = .ok next) :
    next.pending = .tag t ∧ Grows config m.build next.build := by
  obtain ⟨pending, build⟩ := m
  cases pending with
  | idle =>
      obtain rfl := Except.ok.inj h
      exact ⟨rfl, .refl _⟩
  | text text =>
      obtain rfl := Except.ok.inj h
      exact ⟨rfl, (Grows.refl _).emitText text⟩
  | _ => simp [verbatimTag] at h

theorem verbatimFinish_eq_ok (h : m.verbatimFinish config t = .ok next) :
    next.pending = .done ∧ Grows config m.build next.build := by
  obtain ⟨pending, build⟩ := m
  cases pending with
  | idle =>
      obtain rfl := Except.ok.inj h
      exact ⟨rfl, (Grows.refl _).emitFinish _ _⟩
  | text text =>
      obtain rfl := Except.ok.inj h
      exact ⟨rfl, ((Grows.refl _).emitText text).emitFinish _ _⟩
  | tag tag =>
      obtain ⟨b, hb, rfl⟩ := bind_ok_eq_ok h
      exact ⟨rfl, ((Grows.refl _).emitTag hb).emitFinish _ _⟩
  | _ => simp [verbatimFinish] at h

/-- What a step that is accepted does: fragments are added, and the token that is given is held back
if it is a tag or text. -/
structure Follows (policy : Policy) (config : Config) (t : Token) (m next : Machine) : Prop where
  suits : next.pending.Suits policy
  tag? : next.pending.tag? = if t.kind = .tag then some t else none
  done_iff : next.pending = .done ↔ t.kind = .finish
  text : t.kind.isText → next.pending = .text t
  grows : Grows config m.build next.build

theorem follows_gap (hspace : t.kind.isSpace)
    (h : (∃ first, next.pending = .gap first) ∧ Grows config m.build next.build) :
    Follows .normalize config t m next := by
  obtain ⟨⟨first, hpending⟩, hgrows⟩ := h
  refine ⟨trivial, ?_, ?_, fun htext => ?_, hgrows⟩ <;>
    cases hkind : t.kind <;> simp_all [Pending.tag?, TokenKind.isSpace, TokenKind.isText]

theorem follows_text (htag : t.kind ≠ .tag) (hfinish : t.kind ≠ .finish)
    (h : next.pending = .text t ∧ Grows config m.build next.build) :
    Follows policy config t m next := by
  obtain ⟨hpending, hgrows⟩ := h
  refine ⟨?_, by simp [hpending, Pending.tag?, htag], by simp [hpending, hfinish], fun _ => hpending,
    hgrows⟩
  rw [hpending]
  cases policy <;> trivial

theorem follows_finish (hfinish : t.kind = .finish)
    (h : next.pending = .done ∧ Grows config m.build next.build) :
    Follows policy config t m next := by
  obtain ⟨hpending, hgrows⟩ := h
  refine ⟨?_, by simp [hpending, Pending.tag?, hfinish], by simp [hpending, hfinish],
    by simp [hfinish, TokenKind.isText], hgrows⟩
  rw [hpending]
  cases policy <;> trivial

theorem follows_tag (htag : t.kind = .tag)
    (h : (next.pending = .tag t ∨ ∃ space, next.pending = .gapTag space t) ∧
      Grows config m.build next.build) : Follows .normalize config t m next := by
  obtain ⟨hpending, hgrows⟩ := h
  rcases hpending with hpending | ⟨space, hpending⟩ <;>
    exact ⟨trivial, by simp [hpending, Pending.tag?, htag], by simp [hpending, htag],
      by simp [htag, TokenKind.isText], hgrows⟩

/-- **What a step that is accepted does.** -/
theorem follows_of_advance (h : m.advance policy config t = .ok next) :
    Follows policy config t m next := by
  cases policy with
  | normalize =>
      unfold advance normalize at h
      cases hkind : t.kind <;> simp only [hkind] at h
      case newlines => exact follows_gap (by rw [hkind]; rfl) (normalizeSpace_eq_ok h)
      case spaces => exact follows_gap (by rw [hkind]; rfl) (normalizeSpace_eq_ok h)
      case literal => exact follows_text (by simp [hkind]) (by simp [hkind]) (normalizeText_eq_ok h)
      case input => exact follows_text (by simp [hkind]) (by simp [hkind]) (normalizeText_eq_ok h)
      case tag => exact follows_tag hkind (normalizeTag_eq_ok h)
      case finish => exact follows_finish hkind (normalizeFinish_eq_ok h)
  | literal =>
      unfold advance verbatim at h
      cases hkind : t.kind <;> simp only [hkind] at h
      case tag =>
        obtain ⟨hpending, hgrows⟩ := verbatimTag_eq_ok h
        exact ⟨by rw [hpending]; trivial, by simp [hpending, Pending.tag?, hkind],
          by simp [hpending, hkind], by simp [hkind, TokenKind.isText], hgrows⟩
      case finish => exact follows_finish hkind (verbatimFinish_eq_ok h)
      all_goals exact follows_text (by simp [hkind]) (by simp [hkind]) (verbatimText_eq_ok h)

end Machine

end Transcript
