/-
**Compiling texts with other spacing.**

Where spacing is normalized, how wide a run of white space is and where its newlines stand decide
nothing but whether an anonymous tag in front of it takes as much as it can.  So the machine that reads
two texts with the same words is, in both, in the same state up to this and to the offsets, and the
texts compile to the same program up to the same, or are refused for the same cause.

Main definitions:

* `Transcript.Shape.calm` — a shape without how much its tag takes;
* `Transcript.CompileError.cause` — an error without its offset;
* `Transcript.CompileError.Agree` — results that are related, or refused for the same cause;
* `Transcript.Machine.Alike` — **states that differ in spacing and offsets only**.

Main results:

* `Transcript.Machine.normalize_agree`, `Transcript.Machine.normalizeSpace_agree` — one step;
* `Transcript.Machine.steps_respaced` — a whole run, by induction on the words of the text;
* `Transcript.Compiler.compile_respaced` — **texts with the same words compile alike**.
-/

import Transcript.Proofs.Compile.Step
import Transcript.Proofs.Markup.Sections

set_option relaxedAutoImplicit false
set_option autoImplicit false

namespace Transcript

/-! ### What spacing decides -/

/-- The shape with its tag, if it is one, taking as little as it can. -/
def Shape.calm : Shape → Shape
  | .tag binding context _ => .tag binding context false
  | shape => shape

namespace CompileError

/-- What is wrong, without where. -/
def cause : CompileError → CompileError
  | .ambiguousTags _ => .ambiguousTags 0
  | .duplicateName name _ => .duplicateName name 0
  | .insufficientCue _ weight min => .insufficientCue 0 weight min
  | .internal fault => .internal fault

/-- Both results are accepted and related, or both are refused for the same cause. -/
inductive Agree {α β : Type} (R : α → β → Prop) : Except CompileError α → Except CompileError β → Prop
  | ok {a : α} {b : β} (h : R a b) : Agree R (.ok a) (.ok b)
  | error {e e' : CompileError} (h : e.cause = e'.cause) : Agree R (.error e) (.error e')

namespace Agree

variable {α β γ δ : Type} {R : α → β → Prop} {S : γ → δ → Prop} {r : Except CompileError α}
  {r' : Except CompileError β}

theorem cause_eq (h : Agree R r r') : (of? r).map cause = (of? r').map cause := by
  cases h with
  | ok h => rfl
  | error h => exact congrArg some h

theorem of_ok {a : α} {b : β} (h : Agree R (.ok a) (.ok b)) : R a b := by
  cases h with
  | ok h => exact h

theorem exists_ok {a : α} (h : Agree R (.ok a) r') : ∃ b, r' = .ok b ∧ R a b := by
  cases h with
  | ok h => exact ⟨_, rfl, h⟩

theorem symm {R' : β → α → Prop} (h : Agree R r r') (hR : ∀ a b, R a b → R' b a) : Agree R' r' r := by
  cases h with
  | ok h => exact .ok (hR _ _ h)
  | error h => exact .error h.symm

theorem bind {f : α → Except CompileError γ} {g : β → Except CompileError δ} (h : Agree R r r')
    (hfg : ∀ a b, R a b → Agree S (f a) (g b)) : Agree S (r >>= f) (r' >>= g) := by
  cases h with
  | ok h => exact hfg _ _ h
  | error h => exact .error h

end Agree

end CompileError

namespace Build

/-- What the fragments so far match, without how much their tags take. -/
def outline (b : Build) : List Shape := b.fragments.toList.map (·.shape.calm)

@[simp] theorem outline_emit (range : CueRange) (b : Build) (f : Fragment) :
    (b.emit range f).outline = b.outline ++ [f.shape.calm] := by
  simp [outline]

@[simp] theorem outline_emitText (config : Config) (b : Build) (t : Token) :
    (b.emitText config t).outline = b.outline ++ [.literal t.text] := outline_emit ..

@[simp] theorem outline_emitSpace (config : Config) (b : Build) (t : Token) :
    (b.emitSpace config t).outline = b.outline ++ [.space] := outline_emit ..

@[simp] theorem outline_emitSpaces (config : Config) (b : Build) (t : Token) :
    (b.emitSpaces config t).outline = b.outline ++ [.spaces] := outline_emit ..

@[simp] theorem outline_emitFinish (config : Config) (b : Build) (offset : Nat) (anchor : EndAnchor) :
    (b.emitFinish config offset anchor).outline = b.outline ++ [.finish anchor] := outline_emit ..

/-- The groups in use can be read off the outline. -/
theorem groups_eq_outline (b : Build) :
    b.groups = b.outline.filterMap fun shape => shape.tag?.join.map groupName := by
  rw [groups, outline, List.filterMap_map]
  refine List.filterMap_congr fun f _ => ?_
  obtain ⟨offset, shape⟩ := f
  cases shape <;> rfl

open CompileError (Agree)

/-- A tag is accepted and becomes the same, or is refused for the same cause, wherever it ends a
line. -/
theorem emitTag_agree {config : Config} {b b' : Build} (h : b.outline = b'.outline) {t t' : Token}
    (htext : t.text = t'.text) (context : TagContext) (endOfLine endOfLine' : Bool) :
    Agree (fun b b' => b.outline = b'.outline) (b.emitTag config t context endOfLine)
      (b'.emitTag config t' context endOfLine') := by
  have hgroups : b.groups = b'.groups := by rw [groups_eq_outline, groups_eq_outline, h]
  unfold emitTag
  rw [htext, hgroups]
  cases config.tags.nameOf? t'.text with
  | none => exact .error rfl
  | some name =>
      by_cases hdots : name = config.ellipsis
      · simp only [if_pos hdots]
        exact .ok (by rw [outline_emit, outline_emit, h]; rfl)
      · simp only [if_neg hdots]
        by_cases hused : b'.groups.contains (groupName name)
        · rw [if_pos hused, if_pos hused]
          exact .error rfl
        · rw [if_neg hused, if_neg hused]
          exact .ok (by rw [outline_emit, outline_emit, h])

end Build

/-! ### States -/

/-- The tokens held back differ in white space and offsets only. -/
inductive Pending.Alike : Pending → Pending → Prop
  | idle : Alike .idle .idle
  | gap (space space' : Token) : Alike (.gap space) (.gap space')
  | text {x x' : Token} (h : x.text = x'.text) : Alike (.text x) (.text x')
  | tag {g g' : Token} (h : g.text = g'.text) : Alike (.tag g) (.tag g')
  | gapTag (space space' : Token) {g g' : Token} (h : g.text = g'.text) :
      Alike (.gapTag space g) (.gapTag space' g')
  | done : Alike .done .done

theorem Pending.Alike.symm {pending pending' : Pending} (h : Alike pending pending') :
    Alike pending' pending := by
  cases h with
  | idle => exact .idle
  | gap space space' => exact .gap space' space
  | text h => exact .text h.symm
  | tag h => exact .tag h.symm
  | gapTag space space' h => exact .gapTag space' space h.symm
  | done => exact .done

namespace Machine

open CompileError (Agree)

/-- **The states differ in spacing and offsets only.** -/
structure Alike (m m' : Machine) : Prop where
  pending : m.pending.Alike m'.pending
  outline : m.build.outline = m'.build.outline

theorem Alike.symm {m m' : Machine} (h : Alike m m') : Alike m' m := ⟨h.pending.symm, h.outline.symm⟩

theorem alike_start : Alike start start := ⟨.idle, rfl⟩

variable {config : Config} {m m' : Machine} {t t' : Token}

/-- When a tag is emitted, states that hold the same back are alike. -/
theorem agree_of_emitTag {pending pending' : Pending} (hpending : pending.Alike pending')
    {r r' : Except CompileError Build} (h : Agree (fun b b' => b.outline = b'.outline) r r') :
    Agree Alike (r >>= fun b => .ok ⟨pending, b⟩) (r' >>= fun b => .ok ⟨pending', b⟩) :=
  h.bind fun _ _ hbuild => .ok ⟨hpending, hbuild⟩

/-- White space may be any other. -/
theorem normalizeSpace_agree (h : Alike m m') (t t' : Token) :
    Agree Alike (m.normalizeSpace config t) (m'.normalizeSpace config t') := by
  obtain ⟨pending, b⟩ := m
  obtain ⟨pending', b'⟩ := m'
  obtain ⟨hpending, hbuild⟩ := h
  dsimp only at hpending hbuild
  cases hpending with
  | idle => exact .ok ⟨.gap .., hbuild⟩
  | gap space space' => exact .ok ⟨.gap .., hbuild⟩
  | text hx => exact .ok ⟨.gap .., by simp [hbuild, hx]⟩
  | tag hg => exact agree_of_emitTag (.gap ..) (Build.emitTag_agree hbuild hg ..)
  | gapTag space space' hg =>
      exact agree_of_emitTag (.gap ..) (Build.emitTag_agree (by simp [hbuild]) hg ..)
  | done => exact .error rfl

theorem normalizeText_agree (h : Alike m m') (ht : t.text = t'.text) :
    Agree Alike (m.normalizeText config t) (m'.normalizeText config t') := by
  obtain ⟨pending, b⟩ := m
  obtain ⟨pending', b'⟩ := m'
  obtain ⟨hpending, hbuild⟩ := h
  dsimp only at hpending hbuild
  cases hpending with
  | idle => exact .ok ⟨.text ht, hbuild⟩
  | gap space space' => exact .ok ⟨.text ht, by simp [hbuild]⟩
  | text hx => exact .ok ⟨.text ht, by simp [hbuild, hx]⟩
  | tag hg => exact agree_of_emitTag (.text ht) (Build.emitTag_agree hbuild hg ..)
  | gapTag space space' hg =>
      exact agree_of_emitTag (.text ht) (Build.emitTag_agree (by simp [hbuild]) hg ..)
  | done => exact .error rfl

theorem normalizeTag_agree (h : Alike m m') (ht : t.text = t'.text) :
    Agree Alike (m.normalizeTag config t) (m'.normalizeTag config t') := by
  obtain ⟨pending, b⟩ := m
  obtain ⟨pending', b'⟩ := m'
  obtain ⟨hpending, hbuild⟩ := h
  dsimp only at hpending hbuild
  cases hpending with
  | idle => exact .ok ⟨.tag ht, hbuild⟩
  | gap space space' => exact .ok ⟨.gapTag _ _ ht, hbuild⟩
  | text hx => exact .ok ⟨.tag ht, by simp [hbuild, hx]⟩
  | tag hg => exact .error rfl
  | gapTag space space' hg => exact .error rfl
  | done => exact .error rfl

theorem alike_done {b b' : Build} (h : b.outline = b'.outline) (offset offset' : Nat) :
    Alike ⟨.done, b.emitFinish config offset .blank⟩ ⟨.done, b'.emitFinish config offset' .blank⟩ :=
  ⟨.done, by simp [h]⟩

theorem normalizeFinish_agree (h : Alike m m') (t t' : Token) :
    Agree Alike (m.normalizeFinish config t) (m'.normalizeFinish config t') := by
  obtain ⟨pending, b⟩ := m
  obtain ⟨pending', b'⟩ := m'
  obtain ⟨hpending, hbuild⟩ := h
  dsimp only at hpending hbuild
  cases hpending with
  | idle => exact .ok (alike_done hbuild ..)
  | gap space space' => exact .ok (alike_done hbuild ..)
  | text hx => exact .ok (alike_done (by simp [hbuild, hx]) ..)
  | tag hg => exact (Build.emitTag_agree hbuild hg ..).bind fun _ _ hc => .ok (alike_done hc ..)
  | gapTag space space' hg =>
      exact (Build.emitTag_agree (by simp [hbuild]) hg ..).bind fun _ _ hc => .ok (alike_done hc ..)
  | done => exact .error rfl

/-- White space in front of the end may be left out. -/
theorem normalizeSpace_finish_agree (h : Alike m m') (s t t' : Token) :
    Agree Alike (m.normalizeSpace config s >>= fun next => next.normalizeFinish config t)
      (m'.normalizeFinish config t') := by
  obtain ⟨pending, b⟩ := m
  obtain ⟨pending', b'⟩ := m'
  obtain ⟨hpending, hbuild⟩ := h
  dsimp only at hpending hbuild
  cases hpending with
  | idle => exact .ok (alike_done hbuild ..)
  | gap space space' => exact .ok (alike_done hbuild ..)
  | text hx => exact .ok (alike_done (by simp [hbuild, hx]) ..)
  | tag hg =>
      rw [normalizeSpace, bind_assoc]
      exact (Build.emitTag_agree hbuild hg ..).bind fun _ _ hc => .ok (alike_done hc ..)
  | gapTag space space' hg =>
      rw [normalizeSpace, bind_assoc]
      exact (Build.emitTag_agree (by simp [hbuild]) hg ..).bind fun _ _ hc => .ok (alike_done hc ..)
  | done => exact .error rfl

/-- **One step**: tokens that differ in their offsets only. -/
theorem normalize_agree (h : Alike m m') (ht : t.piece = t'.piece) :
    Agree Alike (m.normalize config t) (m'.normalize config t') := by
  obtain ⟨hkind, htext⟩ := Piece.mk.inj ht
  unfold normalize
  rw [hkind]
  cases t'.kind with
  | newlines => exact normalizeSpace_agree h t t'
  | spaces => exact normalizeSpace_agree h t t'
  | literal => exact normalizeText_agree h htext
  | input => exact normalizeText_agree h htext
  | tag => exact normalizeTag_agree h htext
  | finish => exact normalizeFinish_agree h t t'

/-! ### Runs -/

def steps (config : Config) (m : Machine) (ts : List Token) : Except CompileError Machine :=
  ts.foldlM (fun m t => m.normalize config t) m

theorem steps_cons (m : Machine) (t : Token) (ts : List Token) :
    m.steps config (t :: ts) = m.normalize config t >>= fun next => next.steps config ts :=
  List.foldlM_cons

theorem steps_append (m : Machine) (ts us : List Token) :
    m.steps config (ts ++ us) = m.steps config ts >>= fun next => next.steps config us :=
  List.foldlM_append

theorem steps_singleton (m : Machine) (t : Token) :
    m.steps config [t] = m.normalize config t := by
  rw [steps_cons]
  exact bind_pure _

/-- Where no input is fed, a run is made of such steps. -/
theorem steps_eq_feedAll {ts : List Token} (hinput : ∀ t ∈ ts, t.kind ≠ .input) :
    ∀ m : Machine, m.steps config ts =
      match m.feedAll .normalize config ts with
      | (_, some e) => .error e
      | (last, none) => .ok last := by
  induction ts with
  | nil => exact fun m => rfl
  | cons t ts ih =>
      intro m
      have hfeed : m.feed .normalize config t = m.normalize config t :=
        feed_of_ne_input (hinput t (List.mem_cons_self ..))
      rw [steps_cons, feedAll, hfeed]
      cases m.normalize config t with
      | error e => rfl
      | ok next => exact ih (fun u hu => hinput u (List.mem_cons_of_mem _ hu)) next

theorem steps_agree {ts : List Token} :
    ∀ {ts' : List Token} {m m' : Machine}, ts.map Token.piece = ts'.map Token.piece → Alike m m' →
      Agree Alike (m.steps config ts) (m'.steps config ts') := by
  induction ts with
  | nil =>
      intro ts' m m' hts h
      obtain rfl := List.map_eq_nil_iff.1 hts.symm
      exact .ok h
  | cons t ts ih =>
      intro ts' m m' hts h
      obtain ⟨t', ts', rfl, ht, hts⟩ := List.map_eq_cons_iff.1 hts.symm
      rw [steps_cons, steps_cons]
      exact (normalize_agree h ht.symm).bind fun _ _ h => ih hts.symm h

/-- In the middle of a run of white space, what is left of it changes nothing. -/
theorem steps_run {run : List Token} (hrun : ∀ t ∈ run, t.kind.isSpace = true) {space : Token}
    (hm : m.pending = .gap space) : m.steps config run = .ok m := by
  induction run with
  | nil => rfl
  | cons t run ih =>
      have hstep : m.normalize config t = .ok m := by
        obtain ⟨pending, b⟩ := m
        obtain rfl : pending = .gap space := hm
        exact normalize_of_isSpace (hrun t (List.mem_cons_self ..)) _
      rw [steps_cons, hstep]
      exact ih fun u hu => hrun u (List.mem_cons_of_mem _ hu)

/-- A run of white space does what its first token does. -/
theorem steps_gap {run : List Token} (hrun : ∀ s ∈ t :: run, s.kind.isSpace = true) (m : Machine) :
    m.steps config (t :: run) = m.normalizeSpace config t := by
  rw [steps_cons, normalize_of_isSpace (hrun t (List.mem_cons_self ..))]
  cases hnext : m.normalizeSpace config t with
  | error e => rfl
  | ok next =>
      obtain ⟨⟨space, hspace⟩, -⟩ := normalizeSpace_eq_ok hnext
      exact steps_run (fun s hs => hrun s (List.mem_cons_of_mem _ hs)) hspace

theorem steps_finish {run : List Token} (hrun : ∀ s ∈ run, s.kind.isSpace = true)
    (ht : t.kind = .finish) (m : Machine) :
    m.steps config (run ++ [t]) =
      match run with
      | [] => m.normalizeFinish config t
      | s :: _ => m.normalizeSpace config s >>= fun next => next.normalizeFinish config t := by
  have hlast (m : Machine) : m.steps config [t] = m.normalizeFinish config t := by
    rw [steps_singleton, normalize, ht]
  rw [steps_append]
  simp only [hlast]
  cases run with
  | nil => rfl
  | cons s run => rw [steps_gap hrun]

/-- White space in front of the end may be any other, or none. -/
theorem steps_finish_agree {run run' : List Token} (hrun : ∀ s ∈ run, s.kind.isSpace = true)
    (hrun' : ∀ s ∈ run', s.kind.isSpace = true) (ht : t.kind = .finish) (ht' : t'.kind = .finish)
    (h : Alike m m') : Agree Alike (m.steps config (run ++ [t])) (m'.steps config (run' ++ [t'])) := by
  rw [steps_finish hrun ht, steps_finish hrun' ht']
  cases run with
  | nil =>
      cases run' with
      | nil => exact normalizeFinish_agree h t t'
      | cons s' run' => exact (normalizeSpace_finish_agree h.symm s' t' t).symm fun _ _ h => h.symm
  | cons s run =>
      cases run' with
      | nil => exact normalizeSpace_finish_agree h s t t'
      | cons s' run' =>
          exact (normalizeSpace_agree h s s').bind fun _ _ h => normalizeFinish_agree h t t'

/-- White space in front of anything else may be any other, but not none. -/
theorem steps_gap_agree {run run' : List Token} (hrun : ∀ s ∈ run, s.kind.isSpace = true)
    (hrun' : ∀ s ∈ run', s.kind.isSpace = true) (hnil : run = [] ↔ run' = []) (h : Alike m m') :
    Agree Alike (m.steps config run) (m'.steps config run') := by
  cases run with
  | nil =>
      obtain rfl := hnil.1 rfl
      exact .ok h
  | cons s run =>
      obtain ⟨s', run', rfl⟩ := List.exists_cons_of_ne_nil (mt hnil.2 (List.cons_ne_nil s run))
      rw [steps_gap hrun, steps_gap hrun']
      exact normalizeSpace_agree h s s'

open Text (words)

/-- **A whole run**: texts with the same words, where both or neither begin with white space, leave the
machine in states that are alike, or are refused for the same cause. -/
theorem steps_respaced {switches : Switches} {ws : List Text} :
    ∀ {text text' : Text} {ts ts' : List Token} {m m' : Machine}, words text = ws → words text' = ws →
      (ws ≠ [] → text.head?.any Text.isBlank = text'.head?.any Text.isBlank) →
      Token.Reading config switches text ts → Token.Reading config switches text' ts' → Alike m m' →
      Agree Alike (m.steps config ts) (m'.steps config ts') := by
  induction ws with
  | nil =>
      intro text text' ts ts' m m' hwords hwords' _ hts hts' h
      obtain ⟨run, t, rfl, hrun, ht⟩ := hts.blank (Text.words_eq_nil_iff.1 hwords)
      obtain ⟨run', t', rfl, hrun', ht'⟩ := hts'.blank (Text.words_eq_nil_iff.1 hwords')
      exact steps_finish_agree hrun hrun' ht ht' h
  | cons word ws ih =>
      intro text text' ts ts' m m' hwords hwords' hbegin hts hts' h
      obtain ⟨gap, tail, hparts, htail⟩ := Text.exists_parted hwords
      obtain ⟨gap', tail', hparts', htail'⟩ := Text.exists_parted hwords'
      obtain ⟨run, middle, rest, rfl, hrun, hnil, hmiddle, hrest⟩ := hts.parted hparts
      obtain ⟨run', middle', rest', rfl, hrun', hnil', hmiddle', hrest'⟩ := hts'.parted hparts'
      have hgap : run = [] ↔ run' = [] := by
        rw [hnil, hnil', ← hparts.head?_eq_false, ← hparts'.head?_eq_false,
          hbegin (List.cons_ne_nil _ _)]
      -- behind a word that is not the last one, both texts go on with white space
      have hbegin' : ws ≠ [] → tail.head?.any Text.isBlank = tail'.head?.any Text.isBlank := by
        intro hws
        rw [hparts.blank_tail (htail ▸ hws), hparts'.blank_tail (htail' ▸ hws)]
      rw [steps_append, steps_append]
      refine (steps_gap_agree hrun hrun' hgap h).bind fun _ _ h => ?_
      rw [steps_append, steps_append]
      refine (steps_agree (hmiddle.trans hmiddle'.symm) h).bind fun _ _ h => ?_
      exact ih htail htail' hbegin' hrest hrest' h

end Machine

namespace Compiler

open CompileError (Agree)
open Text (words)

variable {config : Config} {switches : Switches}

/-- Where no input is recognised, a text is compiled by the steps for its tokens. -/
theorem compile_eq_steps (config : Config) (hoff : switches.inputs = false) (text : Text) :
    compile .normalize config switches text =
      Machine.start.steps config (tokens .normalize config switches text) >>= fun last =>
        last.program? (Lexeme.warnings (Lexeme.ofText config switches text)) := by
  have hinput := (reading_tokens .normalize config hoff text).kind_ne_input
  rw [compile_eq, Machine.steps_eq_feedAll hinput]
  generalize Machine.start.feedAll .normalize config _ = outcome
  obtain ⟨last, refusal⟩ := outcome
  cases refusal <;> rfl

/-- **Texts with the same words compile alike.**  If both or neither begin with white space, they are
refused for the same cause, or compile to programs that match the same up to how much their tags take. -/
theorem compile_respaced (config : Config) (hoff : switches.inputs = false) {text text' : Text}
    (hwords : words text = words text')
    (hbegin : words text ≠ [] → text.head?.any Text.isBlank = text'.head?.any Text.isBlank) :
    Agree (fun p p' => p.fragments.map (·.shape.calm) = p'.fragments.map (·.shape.calm))
      (compile .normalize config switches text) (compile .normalize config switches text') := by
  rw [compile_eq_steps config hoff, compile_eq_steps config hoff]
  refine (Machine.steps_respaced rfl hwords.symm hbegin (reading_tokens .normalize config hoff text)
    (reading_tokens .normalize config hoff text') Machine.alike_start).bind fun last last' h => ?_
  obtain ⟨pending, b⟩ := last
  obtain ⟨pending', b'⟩ := last'
  obtain ⟨hpending, houtline⟩ := h
  dsimp only at hpending
  cases hpending with
  | done => exact .ok houtline
  | _ => exact .error rfl

end Compiler

end Transcript
