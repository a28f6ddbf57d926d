/-
**Normalized spacing, read off the neighbours.**

The machine of normalized spacing holds back up to two tokens before it decides what they become.
This module says the same without a machine: what a token becomes is read off the tokens around it.
A table gives the fragments of every token from the tokens behind it, the last one first, and the
tokens ahead of it, and the machine is proved to build exactly the fragments of the table.

Main definitions:

* `Transcript.Spacing.firstOfRun?` — the first token of the run of white space just read;
* `Transcript.Spacing.ofGap`, `Transcript.Spacing.ofTag`, `Transcript.Spacing.ofToken` — the
  fragments of a run of white space, of a tag and of any token;
* `Transcript.Spacing.table` — **the table**: the fragments of a list of tokens;
* `Transcript.Spacing.Held` — what the tokens that the machine holds back are among those behind.

Main results:

* `Transcript.Spacing.normalize_accounts` — what a step emits and what is owed after it are what was
  owed before it and the entry of the token;
* `Transcript.Spacing.fragments_eq_table` — **the machine builds the table**.
-/

import Transcript.Proofs.Compile.Run

set_option relaxedAutoImplicit false
set_option autoImplicit false

namespace Transcript

namespace Spacing

/-! ### Neighbours -/

/-- White space stands directly behind; the tokens behind are given with the last one first. -/
def spaceBehind : List Token → Bool
  | [] => false
  | t :: _ => t.kind.isSpace

/-- White space or the end of the text comes next. -/
def spaceAhead : List Token → Bool
  | [] => false
  | t :: _ => t.kind.isSpace || t.kind == .finish

/-- Newlines or the end of the text come next. -/
def lineEndAhead : List Token → Bool
  | [] => false
  | t :: _ => t.kind == .newlines || t.kind == .finish

/-- The first token of the run of white space that stands directly behind. -/
def firstOfRun? (behind : List Token) : Option Token :=
  (behind.takeWhile (·.kind.isSpace)).getLast?

/-- The tokens ahead from the first one on that is not white space. -/
def afterRun (ahead : List Token) : List Token := ahead.dropWhile (·.kind.isSpace)

@[simp] theorem firstOfRun?_nil : firstOfRun? [] = none := rfl

theorem firstOfRun?_cons_of_isSpace {t : Token} (behind : List Token) (h : t.kind.isSpace) :
    firstOfRun? (t :: behind) = some ((firstOfRun? behind).getD t) := by
  simp only [firstOfRun?, List.takeWhile_cons, h, if_true, List.getLast?_cons]

@[simp] theorem firstOfRun?_cons_of_not_isSpace {t : Token} (behind : List Token)
    (h : t.kind.isSpace = false) : firstOfRun? (t :: behind) = none := by
  simp [firstOfRun?, h]

/-- White space stands directly behind exactly when there is a run of it. -/
theorem isSome_firstOfRun? (behind : List Token) :
    (firstOfRun? behind).isSome = spaceBehind behind := by
  cases behind with
  | nil => rfl
  | cons t behind =>
      cases h : t.kind.isSpace with
      | true => simp [firstOfRun?_cons_of_isSpace behind h, spaceBehind, h]
      | false => simp [firstOfRun?_cons_of_not_isSpace behind h, spaceBehind, h]

/-! ### The table -/

/-- What surrounds a tag, from whether white space is on its left and on its right. -/
def context : (left right : Bool) → TagContext
  | false, false => .bare
  | true, false => .leftSpace
  | false, true => .rightSpace
  | true, true => .bothSpace

/-- A run of white space that begins with `first` and has the tokens `ahead` behind it.  The anchor
takes the place of a run in front of the end; in front of a tag that may take white space itself,
one character of the run is enough. -/
def ofGap (first : Token) : (ahead : List Token) → List Fragment
  | [] => [⟨first.offset, .spaces⟩]
  | t :: ahead =>
      if t.kind = .finish then []
      else if t.kind = .tag ∧ spaceAhead ahead then [⟨first.offset, .space⟩]
      else [⟨first.offset, .spaces⟩]

def ofTag (config : Config) (behind : List Token) (t : Token) (ahead : List Token) : Fragment :=
  ⟨t.offset, .tag (t.binding config) (context (spaceBehind behind) (spaceAhead ahead))
    (lineEndAhead ahead && (t.binding config).isNone)⟩

/-- What a token becomes.  Only the first token of a run of white space has a fragment, and the
anchor of the end begins where the run in front of it does. -/
def ofToken (config : Config) (behind : List Token) (t : Token) (ahead : List Token) :
    List Fragment :=
  match t.kind with
  | .newlines => if spaceBehind behind then [] else ofGap t (afterRun ahead)
  | .spaces => if spaceBehind behind then [] else ofGap t (afterRun ahead)
  | .literal => [⟨t.offset, .literal t.text⟩]
  | .input => [⟨t.offset, .literal t.text⟩]
  | .tag => [ofTag config behind t ahead]
  | .finish => [⟨((firstOfRun? behind).getD t).offset, .finish .blank⟩]

def ofTokens (config : Config) : (behind ahead : List Token) → List Fragment
  | _, [] => []
  | behind, t :: ahead => ofToken config behind t ahead ++ ofTokens config (t :: behind) ahead

/-- **The table**: the fragments of the tokens of a text. -/
def table (config : Config) (tokens : List Token) : List Fragment :=
  ⟨0, .start⟩ :: ofTokens config [] tokens

theorem ofTokens_cons (config : Config) (behind : List Token) (t : Token) (ahead : List Token) :
    ofTokens config behind (t :: ahead) =
      ofToken config behind t ahead ++ ofTokens config (t :: behind) ahead := rfl

theorem ofToken_of_isSpace (config : Config) (behind : List Token) {t : Token} (ahead : List Token)
    (h : t.kind.isSpace) :
    ofToken config behind t ahead = if spaceBehind behind then [] else ofGap t (afterRun ahead) := by
  unfold ofToken
  cases hkind : t.kind with
  | newlines => rfl
  | spaces => rfl
  | _ => simp [hkind, TokenKind.isSpace] at h

theorem ofToken_of_isText (config : Config) (behind : List Token) {t : Token} (ahead : List Token)
    (h : t.kind.isText) : ofToken config behind t ahead = [⟨t.offset, .literal t.text⟩] := by
  unfold ofToken
  cases hkind : t.kind with
  | literal => rfl
  | input => rfl
  | _ => simp [hkind, TokenKind.isText] at h

theorem ofToken_of_tag (config : Config) (behind : List Token) {t : Token} (ahead : List Token)
    (h : t.kind = .tag) : ofToken config behind t ahead = [ofTag config behind t ahead] := by
  simp [ofToken, h]

theorem ofToken_of_finish (config : Config) (behind : List Token) {t : Token} (ahead : List Token)
    (h : t.kind = .finish) :
    ofToken config behind t ahead =
      [⟨((firstOfRun? behind).getD t).offset, .finish .blank⟩] := by
  simp [ofToken, h]

theorem ne_tag_of_isText {t : Token} (h : t.kind.isText) : t.kind ≠ .tag := by
  intro hk
  simp [hk, TokenKind.isText] at h

theorem ofGap_of_isText (first : Token) {t : Token} (ahead : List Token) (h : t.kind.isText) :
    ofGap first (t :: ahead) = [⟨first.offset, .spaces⟩] := by
  have hfinish : t.kind ≠ .finish := by intro hk; simp [hk, TokenKind.isText] at h
  have htag := ne_tag_of_isText h
  simp [ofGap, hfinish, htag]

theorem ofGap_of_tag (first : Token) {t : Token} (ahead : List Token) (h : t.kind = .tag) :
    ofGap first (t :: ahead) =
      [⟨first.offset, if spaceAhead ahead then .space else .spaces⟩] := by
  by_cases hspace : spaceAhead ahead <;> simp [ofGap, h, hspace]

theorem ofGap_of_finish (first : Token) {t : Token} (ahead : List Token) (h : t.kind = .finish) :
    ofGap first (t :: ahead) = [] := by
  simp [ofGap, h]

/-! ### The tokens held back -/

/-- What the tokens held back are among the tokens behind. -/
inductive Held : (behind : List Token) → Pending → Prop
  | idle : Held [] .idle
  | gap {behind : List Token} {first : Token} : firstOfRun? behind = some first →
      Held behind (.gap first)
  | text {behind : List Token} {t : Token} : t.kind.isText → Held (t :: behind) (.text t)
  | tag {behind : List Token} {t : Token} : t.kind = .tag → firstOfRun? behind = none →
      Held (t :: behind) (.tag t)
  | gapTag {behind : List Token} {first t : Token} : t.kind = .tag →
      firstOfRun? behind = some first → Held (t :: behind) (.gapTag first t)
  | done {behind : List Token} {t : Token} : t.kind = .finish → Held (t :: behind) .done

/-- The fragments of the tokens held back, given what is ahead. -/
def owed (config : Config) (behind : List Token) (ahead : List Token) : Pending → List Fragment
  | .idle => []
  | .gap first => ofGap first (afterRun ahead)
  | .text t => [⟨t.offset, .literal t.text⟩]
  | .tag t => [ofTag config behind.tail t ahead]
  | .gapTag first t => ofGap first (t :: ahead) ++ [ofTag config behind.tail t ahead]
  | .done => []

theorem spaceBehind_of_firstOfRun? {behind : List Token} {first : Token}
    (h : firstOfRun? behind = some first) : spaceBehind behind = true := by
  rw [← isSome_firstOfRun?, h]
  rfl

theorem not_spaceBehind_of_firstOfRun? {behind : List Token} (h : firstOfRun? behind = none) :
    spaceBehind behind = false := by
  rw [← isSome_firstOfRun?, h]
  rfl

/-- A token of white space takes its place in the run behind it, if there is one. -/
theorem Held.gap_cons {behind : List Token} {first t : Token} (ht : t.kind.isSpace)
    (h : (firstOfRun? behind).getD t = first) : Held (t :: behind) (.gap first) :=
  .gap (by rw [firstOfRun?_cons_of_isSpace behind ht, h])

/-! ### One step -/

/-- The step for the token `t` keeps the account: the tokens held back are again among those behind,
and what was emitted together with what is owed afterwards is what was owed before and the entry of
the token. -/
def Accounts (config : Config) (behind : List Token) (t : Token) (m next : Machine) : Prop :=
  Held (t :: behind) next.pending ∧
    ∃ emitted, next.build.fragments.toList = m.build.fragments.toList ++ emitted ∧
      ∀ ahead, emitted ++ owed config (t :: behind) ahead next.pending =
        owed config behind (t :: ahead) m.pending ++ ofToken config behind t ahead

theorem isSpace_ne_finish {t : Token} (h : t.kind.isSpace) : t.kind ≠ .finish := by
  intro hk
  simp [hk, TokenKind.isSpace] at h

theorem isSpace_eq_false_of_isText {t : Token} (h : t.kind.isText) : t.kind.isSpace = false := by
  cases hk : t.kind <;> simp_all [TokenKind.isSpace, TokenKind.isText]

theorem afterRun_cons_of_isSpace {t : Token} (ahead : List Token) (h : t.kind.isSpace) :
    afterRun (t :: ahead) = afterRun ahead := by
  simp [afterRun, h]

theorem afterRun_cons_of_not_isSpace {t : Token} (ahead : List Token) (h : t.kind.isSpace = false) :
    afterRun (t :: ahead) = t :: ahead := by
  simp [afterRun, h]

theorem normalizeSpace_accounts {config : Config} {behind : List Token} {t : Token}
    {m next : Machine} (ht : t.kind.isSpace) (hheld : Held behind m.pending)
    (h : m.normalizeSpace config t = .ok next) : Accounts config behind t m next := by
  obtain ⟨pending, build⟩ := m
  have hfinish : (t.kind == .finish) = false := by simpa using isSpace_ne_finish ht
  have hahead (ahead : List Token) : spaceAhead (t :: ahead) = true := by simp [spaceAhead, ht]
  have hline (ahead : List Token) : lineEndAhead (t :: ahead) = (t.kind == .newlines) := by
    simp [lineEndAhead, hfinish]
  cases hheld with
  | idle =>
      simp only [Machine.normalizeSpace, Except.ok.injEq] at h
      subst h
      refine ⟨.gap_cons ht rfl, [], by simp, fun ahead => ?_⟩
      simp [owed, ofToken_of_isSpace config [] ahead ht, spaceBehind]
  | @gap _ first hfirst =>
      simp only [Machine.normalizeSpace, Except.ok.injEq] at h
      subst h
      refine ⟨.gap_cons ht (by rw [hfirst]; rfl), [], by simp, fun ahead => ?_⟩
      simp [owed, ofToken_of_isSpace config behind ahead ht, spaceBehind_of_firstOfRun? hfirst,
        afterRun_cons_of_isSpace ahead ht]
  | @text behind x hx =>
      simp only [Machine.normalizeSpace, Except.ok.injEq] at h
      subst h
      have hxs := isSpace_eq_false_of_isText hx
      refine ⟨.gap_cons ht (by rw [firstOfRun?_cons_of_not_isSpace behind hxs]; rfl),
        [⟨x.offset, .literal x.text⟩], by simp, fun ahead => ?_⟩
      simp [owed, ofToken_of_isSpace config _ ahead ht, spaceBehind, hxs]
  | @tag behind g hg hbehind =>
      have hgs : g.kind.isSpace = false := by rw [hg]; rfl
      simp only [Machine.normalizeSpace] at h
      have h := Build.of_emitTag_bind_eq_ok h
      rw [Except.ok.injEq] at h
      subst h
      refine ⟨.gap_cons ht (by rw [firstOfRun?_cons_of_not_isSpace behind hgs]; rfl),
        [ofTag config behind g (t :: [])], ?_, fun ahead => ?_⟩
      · simp [ofTag, not_spaceBehind_of_firstOfRun? hbehind, hahead, hline, context]
      · simp [owed, ofToken_of_isSpace config _ ahead ht, spaceBehind, hgs, ofTag, hahead, hline]
  | @gapTag behind first g hg hfirst =>
      have hgs : g.kind.isSpace = false := by rw [hg]; rfl
      simp only [Machine.normalizeSpace] at h
      have h := Build.of_emitTag_bind_eq_ok h
      rw [Except.ok.injEq] at h
      subst h
      refine ⟨.gap_cons ht (by rw [firstOfRun?_cons_of_not_isSpace behind hgs]; rfl),
        [⟨first.offset, .space⟩, ofTag config behind g (t :: [])], ?_, fun ahead => ?_⟩
      · simp [ofTag, spaceBehind_of_firstOfRun? hfirst, hahead, hline, context]
      · simp [owed, ofToken_of_isSpace config _ ahead ht, spaceBehind, hgs, ofTag, hahead, hline,
          ofGap_of_tag first _ hg]
  | done => simp [Machine.normalizeSpace] at h

theorem normalizeText_accounts {config : Config} {behind : List Token} {t : Token}
    {m next : Machine} (ht : t.kind.isText) (hheld : Held behind m.pending)
    (h : m.normalizeText config t = .ok next) : Accounts config behind t m next := by
  obtain ⟨pending, build⟩ := m
  have hts := isSpace_eq_false_of_isText ht
  have hfinish : (t.kind == .finish) = false := by cases hk : t.kind <;> simp_all [TokenKind.isText]
  have hnewlines : (t.kind == .newlines) = false := by
    cases hk : t.kind <;> simp_all [TokenKind.isText]
  have hahead (ahead : List Token) : spaceAhead (t :: ahead) = false := by
    simp [spaceAhead, hts, hfinish]
  have hline (ahead : List Token) : lineEndAhead (t :: ahead) = false := by
    simp [lineEndAhead, hfinish, hnewlines]
  have hentry (behind ahead : List Token) := ofToken_of_isText config behind ahead ht
  cases hheld with
  | idle =>
      simp only [Machine.normalizeText, Except.ok.injEq] at h
      subst h
      exact ⟨.text ht, [], by simp, fun ahead => by simp [owed, hentry]⟩
  | @gap _ first hfirst =>
      simp only [Machine.normalizeText, Except.ok.injEq] at h
      subst h
      refine ⟨.text ht, [⟨first.offset, .spaces⟩], by simp, fun ahead => ?_⟩
      simp [owed, hentry, afterRun_cons_of_not_isSpace ahead hts, ofGap_of_isText first ahead ht]
  | @text behind x hx =>
      simp only [Machine.normalizeText, Except.ok.injEq] at h
      subst h
      exact ⟨.text ht, [⟨x.offset, .literal x.text⟩], by simp, fun ahead => by simp [owed, hentry]⟩
  | @tag behind g hg hbehind =>
      simp only [Machine.normalizeText] at h
      have h := Build.of_emitTag_bind_eq_ok h
      rw [Except.ok.injEq] at h
      subst h
      refine ⟨.text ht, [ofTag config behind g (t :: [])], ?_, fun ahead => ?_⟩
      · simp [ofTag, not_spaceBehind_of_firstOfRun? hbehind, hahead, hline, context]
      · simp [owed, hentry, ofTag, hahead, hline]
  | @gapTag behind first g hg hfirst =>
      simp only [Machine.normalizeText] at h
      have h := Build.of_emitTag_bind_eq_ok h
      rw [Except.ok.injEq] at h
      subst h
      refine ⟨.text ht, [⟨first.offset, .spaces⟩, ofTag config behind g (t :: [])], ?_,
        fun ahead => ?_⟩
      · simp [ofTag, spaceBehind_of_firstOfRun? hfirst, hahead, hline, context]
      · simp [owed, hentry, ofTag, hahead, hline, ofGap_of_tag first _ hg]
  | done => simp [Machine.normalizeText] at h

theorem normalizeTag_accounts {config : Config} {behind : List Token} {t : Token}
    {m next : Machine} (ht : t.kind = .tag) (hheld : Held behind m.pending)
    (h : m.normalizeTag config t = .ok next) : Accounts config behind t m next := by
  obtain ⟨pending, build⟩ := m
  have hts : t.kind.isSpace = false := by rw [ht]; rfl
  have hentry (behind ahead : List Token) := ofToken_of_tag config behind ahead ht
  cases hheld with
  | idle =>
      simp only [Machine.normalizeTag, Except.ok.injEq] at h
      subst h
      exact ⟨.tag ht rfl, [], by simp, fun ahead => by simp [owed, hentry]⟩
  | @gap _ first hfirst =>
      simp only [Machine.normalizeTag, Except.ok.injEq] at h
      subst h
      refine ⟨.gapTag ht hfirst, [], by simp, fun ahead => ?_⟩
      simp [owed, hentry, afterRun_cons_of_not_isSpace ahead hts]
  | @text behind x hx =>
      simp only [Machine.normalizeTag, Except.ok.injEq] at h
      subst h
      have hxs := isSpace_eq_false_of_isText hx
      exact ⟨.tag ht (firstOfRun?_cons_of_not_isSpace behind hxs),
        [⟨x.offset, .literal x.text⟩], by simp, fun ahead => by simp [owed, hentry]⟩
  | tag => simp [Machine.normalizeTag] at h
  | gapTag => simp [Machine.normalizeTag] at h
  | done => simp [Machine.normalizeTag] at h

theorem normalizeFinish_accounts {config : Config} {behind : List Token} {t : Token}
    {m next : Machine} (ht : t.kind = .finish) (hheld : Held behind m.pending)
    (h : m.normalizeFinish config t = .ok next) : Accounts config behind t m next := by
  obtain ⟨pending, build⟩ := m
  have hts : t.kind.isSpace = false := by rw [ht]; rfl
  have hahead (ahead : List Token) : spaceAhead (t :: ahead) = true := by simp [spaceAhead, ht]
  have hline (ahead : List Token) : lineEndAhead (t :: ahead) = true := by simp [lineEndAhead, ht]
  have hentry (behind ahead : List Token) := ofToken_of_finish config behind ahead ht
  cases hheld with
  | idle =>
      simp only [Machine.normalizeFinish, Except.ok.injEq] at h
      subst h
      exact ⟨.done ht, [⟨t.offset, .finish .blank⟩], by simp, fun ahead => by simp [owed, hentry]⟩
  | @gap _ first hfirst =>
      simp only [Machine.normalizeFinish, Except.ok.injEq] at h
      subst h
      refine ⟨.done ht, [⟨first.offset, .finish .blank⟩], by simp, fun ahead => ?_⟩
      simp [owed, hentry, hfirst, afterRun_cons_of_not_isSpace ahead hts, ofGap_of_finish first _ ht]
  | @text behind x hx =>
      simp only [Machine.normalizeFinish, Except.ok.injEq] at h
      subst h
      have hxs := isSpace_eq_false_of_isText hx
      refine ⟨.done ht, [⟨x.offset, .literal x.text⟩, ⟨t.offset, .finish .blank⟩], by simp,
        fun ahead => ?_⟩
      simp [owed, hentry, firstOfRun?_cons_of_not_isSpace behind hxs]
  | @tag behind g hg hbehind =>
      have hgs : g.kind.isSpace = false := by rw [hg]; rfl
      simp only [Machine.normalizeFinish] at h
      have h := Build.of_emitTag_bind_eq_ok h
      rw [Except.ok.injEq] at h
      subst h
      refine ⟨.done ht, [ofTag config behind g (t :: []), ⟨t.offset, .finish .blank⟩], ?_,
        fun ahead => ?_⟩
      · simp [ofTag, not_spaceBehind_of_firstOfRun? hbehind, hahead, hline, context]
      · simp [owed, hentry, ofTag, hahead, hline, firstOfRun?_cons_of_not_isSpace behind hgs]
  | @gapTag behind first g hg hfirst =>
      have hgs : g.kind.isSpace = false := by rw [hg]; rfl
      simp only [Machine.normalizeFinish] at h
      have h := Build.of_emitTag_bind_eq_ok h
      rw [Except.ok.injEq] at h
      subst h
      refine ⟨.done ht, [⟨first.offset, .space⟩, ofTag config behind g (t :: []),
        ⟨t.offset, .finish .blank⟩], ?_, fun ahead => ?_⟩
      · simp [ofTag, spaceBehind_of_firstOfRun? hfirst, hahead, hline, context]
      · simp [owed, hentry, ofTag, hahead, hline, ofGap_of_tag first _ hg,
          firstOfRun?_cons_of_not_isSpace behind hgs]
  | done => simp [Machine.normalizeFinish] at h

/-- **A step keeps the account.** -/
theorem normalize_accounts {config : Config} {behind : List Token} {t : Token} {m next : Machine}
    (hheld : Held behind m.pending) (h : m.normalize config t = .ok next) :
    Accounts config behind t m next := by
  unfold Machine.normalize at h
  cases hkind : t.kind with
  | newlines => exact normalizeSpace_accounts (by rw [hkind]; rfl) hheld (by simpa [hkind] using h)
  | spaces => exact normalizeSpace_accounts (by rw [hkind]; rfl) hheld (by simpa [hkind] using h)
  | literal => exact normalizeText_accounts (by rw [hkind]; rfl) hheld (by simpa [hkind] using h)
  | input => exact normalizeText_accounts (by rw [hkind]; rfl) hheld (by simpa [hkind] using h)
  | tag => exact normalizeTag_accounts hkind hheld (by simpa [hkind] using h)
  | finish => exact normalizeFinish_accounts hkind hheld (by simpa [hkind] using h)

/-! ### A whole run -/

/-- A run to the end builds what is owed for the tokens held back and then the entries of the tokens
ahead. -/
theorem feedAll_fragments {config : Config} {ahead : List Token} :
    ∀ {behind : List Token} {m last : Machine}, Held behind m.pending →
      m.feedAll .normalize config ahead = (last, none) → last.pending = .done →
      last.build.fragments.toList = m.build.fragments.toList ++ owed config behind ahead m.pending ++
        ofTokens config behind ahead := by
  induction ahead with
  | nil =>
      intro behind m last _ hrun hdone
      rw [Machine.feedAll, Prod.mk.injEq] at hrun
      obtain ⟨rfl, -⟩ := hrun
      simp [hdone, owed, ofTokens]
  | cons t ahead ih =>
      intro behind m last hheld hrun hdone
      obtain ⟨next, hfeed, hrest⟩ := Machine.feedAll_cons_eq_ok hrun
      obtain ⟨mid, hmid, hpending, hfragments⟩ := Machine.feed_eq_ok hfeed
      obtain ⟨hheld', emitted, hemitted, howed⟩ := normalize_accounts hheld hmid
      rw [← hpending] at hheld' howed
      rw [ih hheld' hrest hdone, hfragments, hemitted, ofTokens_cons]
      have := howed ahead
      simp only [List.append_assoc] at this ⊢
      rw [← List.append_assoc emitted, this, List.append_assoc]

/-- A run to the end builds the table. -/
theorem fragments_of_run {config : Config} {tokens : List Token} {last : Machine}
    (hrun : Machine.start.feedAll .normalize config tokens = (last, none))
    (hdone : last.pending = .done) : last.build.fragments.toList = table config tokens := by
  rw [feedAll_fragments .idle hrun hdone]
  rfl

/-- **The machine of normalized spacing builds the table.**  Whatever the lexical rules, the bounds
of the cues and the markup that is recognised, the fragments of a text that compiles are the entries
that its tokens have from their neighbours. -/
theorem fragments_eq_table {config : Config} {switches : Switches} {text : Text} {p : Program}
    (h : Compiler.compile .normalize config switches text = .ok p) :
    p.fragments = table config (Compiler.tokens .normalize config switches text) := by
  obtain ⟨last, hrun, hdone, hfragments⟩ := Compiler.compile_eq_ok h
  rw [hfragments, fragments_of_run hrun hdone]

/-- A tag at the end of a line and one behind it, with runs of white space around them. -/
theorem fragments_listing :
    ∃ p, Compiler.compile .normalize .standard ⟨true, false⟩ "ls <...>\n  <x> b\n".toList = .ok p ∧
      p.fragments = [⟨0, .start⟩, ⟨0, .literal "ls".toList⟩, ⟨2, .space⟩,
        ⟨3, .tag none .bothSpace true⟩, ⟨8, .space⟩, ⟨11, .tag (some "x".toList) .bothSpace false⟩,
        ⟨14, .spaces⟩, ⟨15, .literal "b".toList⟩, ⟨16, .finish .blank⟩] := by
  have htokens : Compiler.tokens .normalize .standard ⟨true, false⟩ "ls <...>\n  <x> b\n".toList =
      [⟨0, .literal, "ls".toList⟩, ⟨2, .spaces, " ".toList⟩, ⟨3, .tag, "<...>".toList⟩,
        ⟨8, .newlines, "\n".toList⟩, ⟨9, .spaces, "  ".toList⟩, ⟨11, .tag, "<x>".toList⟩,
        ⟨14, .spaces, " ".toList⟩, ⟨15, .literal, "b".toList⟩, ⟨16, .newlines, "\n".toList⟩,
        ⟨17, .finish, []⟩] := by decide +kernel
  obtain ⟨p, hp⟩ :=
    Compiler.exists_compile_eq_ok htokens (by decide +kernel) (by decide +kernel)
  refine ⟨p, hp, (fragments_eq_table hp).trans ?_⟩
  rw [htokens]
  decide +kernel

end Spacing

end Transcript
