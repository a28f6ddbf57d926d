/-
**Spacing as written, read off the neighbours.**

Where spacing is matched as written, every token becomes one fragment.  Only a tag is held back, until
the next token says whether it ends a line or the text.  As for normalized spacing, a table gives the
fragment of each token from the tokens ahead of it, and the machine is proved to build the table.

Main definitions:

* `Transcript.Literal.ofToken` — the fragment of a token;
* `Transcript.Literal.table` — the fragments of a list of tokens;
* `Transcript.Policy.table` — the same under either policy.

Main results:

* `Transcript.Literal.verbatim_accounts` — what a step emits and what is owed after it are what was
  owed before it and the entry of the token;
* `Transcript.Literal.feedAll_fragments` — a run builds the table;
* `Transcript.Compiler.fragments_of_compile` — so does a compilation, under either policy.
-/

import Transcript.Proofs.Compile.Spacing

set_option relaxedAutoImplicit false
set_option autoImplicit false

namespace Transcript

namespace Literal

open Spacing (lineEndAhead)

/-! ### The table -/

/-- The text ends here. -/
def finishAhead : List Token → Bool
  | [] => false
  | t :: _ => t.kind == .finish

def ofTag (config : Config) (t : Token) (ahead : List Token) : Fragment :=
  ⟨t.offset, .tag (t.binding config) (if finishAhead ahead then .lineEnd else .bare)
    (lineEndAhead ahead && (t.binding config).isNone)⟩

/-- What a token becomes. -/
def ofToken (config : Config) (t : Token) (ahead : List Token) : Fragment :=
  match t.kind with
  | .tag => ofTag config t ahead
  | .finish => ⟨t.offset, .finish .newlines⟩
  | _ => ⟨t.offset, .literal t.text⟩

def ofTokens (config : Config) : List Token → List Fragment
  | [] => []
  | t :: ahead => ofToken config t ahead :: ofTokens config ahead

/-- The fragments of the tokens of a text. -/
def table (config : Config) (tokens : List Token) : List Fragment :=
  ⟨0, .start⟩ :: ofTokens config tokens

theorem ofToken_of_tag (config : Config) {t : Token} (ahead : List Token) (h : t.kind = .tag) :
    ofToken config t ahead = ofTag config t ahead := by
  simp [ofToken, h]

theorem ofToken_of_finish (config : Config) {t : Token} (ahead : List Token)
    (h : t.kind = .finish) : ofToken config t ahead = ⟨t.offset, .finish .newlines⟩ := by
  simp [ofToken, h]

theorem ofToken_of_text (config : Config) {t : Token} (ahead : List Token) (htag : t.kind ≠ .tag)
    (hfinish : t.kind ≠ .finish) : ofToken config t ahead = ⟨t.offset, .literal t.text⟩ := by
  unfold ofToken
  cases h : t.kind <;> simp_all

/-- Where spacing is matched as written, a fragment begins where its token does. -/
theorem offset_ofToken (config : Config) (t : Token) (ahead : List Token) :
    (ofToken config t ahead).offset = t.offset := by
  unfold ofToken
  cases t.kind <;> rfl

/-! ### One step -/

/-- What the tokens held back are. -/
inductive Held : Pending → Prop
  | idle : Held .idle
  | text (t : Token) : Held (.text t)
  | tag {t : Token} : t.kind = .tag → Held (.tag t)
  | done : Held .done

/-- The fragments of the tokens held back, given what is ahead. -/
def owed (config : Config) (ahead : List Token) : Pending → List Fragment
  | .text t => [⟨t.offset, .literal t.text⟩]
  | .tag t => [ofTag config t ahead]
  | _ => []

/-- The step for the token `t` keeps the account. -/
def Accounts (config : Config) (t : Token) (m next : Machine) : Prop :=
  Held next.pending ∧
    ∃ emitted, next.build.fragments.toList = m.build.fragments.toList ++ emitted ∧
      ∀ ahead, emitted ++ owed config ahead next.pending =
        owed config (t :: ahead) m.pending ++ [ofToken config t ahead]

theorem verbatimText_accounts {config : Config} {t : Token} {m next : Machine}
    (htag : t.kind ≠ .tag) (hfinish : t.kind ≠ .finish) (hheld : Held m.pending)
    (h : m.verbatimText config t = .ok next) : Accounts config t m next := by
  obtain ⟨pending, build⟩ := m
  have hentry (ahead : List Token) := ofToken_of_text config ahead htag hfinish
  cases hheld with
  | idle =>
      simp only [Machine.verbatimText, Except.ok.injEq] at h
      subst h
      exact ⟨.text t, [], by simp, fun ahead => by simp [owed, hentry]⟩
  | text x =>
      simp only [Machine.verbatimText, Except.ok.injEq] at h
      subst h
      exact ⟨.text t, [⟨x.offset, .literal x.text⟩], by simp, fun ahead => by simp [owed, hentry]⟩
  | @tag g hg =>
      simp only [Machine.verbatimText] at h
      have h := Build.of_emitTag_bind_eq_ok h
      rw [Except.ok.injEq] at h
      subst h
      have hline (ahead : List Token) : lineEndAhead (t :: ahead) = (t.kind == .newlines) := by
        simp [lineEndAhead, hfinish]
      refine ⟨.text t, [ofTag config g (t :: [])], ?_, fun ahead => ?_⟩
      · simp [ofTag, finishAhead, hfinish, hline]
      · simp [owed, hentry, ofTag, finishAhead, hfinish, hline]
  | done => simp [Machine.verbatimText] at h

theorem verbatimTag_accounts {config : Config} {t : Token} {m next : Machine}
    (ht : t.kind = .tag) (hheld : Held m.pending) (h : m.verbatimTag config t = .ok next) :
    Accounts config t m next := by
  obtain ⟨pending, build⟩ := m
  have hentry (ahead : List Token) := ofToken_of_tag config ahead ht
  cases hheld with
  | idle =>
      simp only [Machine.verbatimTag, Except.ok.injEq] at h
      subst h
      exact ⟨.tag ht, [], by simp, fun ahead => by simp [owed, hentry]⟩
  | text x =>
      simp only [Machine.verbatimTag, Except.ok.injEq] at h
      subst h
      exact ⟨.tag ht, [⟨x.offset, .literal x.text⟩], by simp, fun ahead => by simp [owed, hentry]⟩
  | tag => simp [Machine.verbatimTag] at h
  | done => simp [Machine.verbatimTag] at h

theorem verbatimFinish_accounts {config : Config} {t : Token} {m next : Machine}
    (ht : t.kind = .finish) (hheld : Held m.pending) (h : m.verbatimFinish config t = .ok next) :
    Accounts config t m next := by
  obtain ⟨pending, build⟩ := m
  have hentry (ahead : List Token) := ofToken_of_finish config ahead ht
  cases hheld with
  | idle =>
      simp only [Machine.verbatimFinish, Except.ok.injEq] at h
      subst h
      exact ⟨.done, [⟨t.offset, .finish .newlines⟩], by simp, fun ahead => by simp [owed, hentry]⟩
  | text x =>
      simp only [Machine.verbatimFinish, Except.ok.injEq] at h
      subst h
      exact ⟨.done, [⟨x.offset, .literal x.text⟩, ⟨t.offset, .finish .newlines⟩], by simp,
        fun ahead => by simp [owed, hentry]⟩
  | @tag g hg =>
      simp only [Machine.verbatimFinish] at h
      have h := Build.of_emitTag_bind_eq_ok h
      rw [Except.ok.injEq] at h
      subst h
      refine ⟨.done, [ofTag config g (t :: []), ⟨t.offset, .finish .newlines⟩], ?_, fun ahead => ?_⟩
      · simp [ofTag, finishAhead, lineEndAhead, ht]
      · simp [owed, hentry, ofTag, finishAhead, lineEndAhead, ht]
  | done => simp [Machine.verbatimFinish] at h

/-- A step keeps the account. -/
theorem verbatim_accounts {config : Config} {t : Token} {m next : Machine}
    (hheld : Held m.pending) (h : m.verbatim config t = .ok next) : Accounts config t m next := by
  unfold Machine.verbatim at h
  by_cases htag : t.kind = .tag
  · exact verbatimTag_accounts htag hheld (by simpa [htag] using h)
  by_cases hfinish : t.kind = .finish
  · exact verbatimFinish_accounts hfinish hheld (by simpa [hfinish] using h)
  · refine verbatimText_accounts htag hfinish hheld ?_
    cases hkind : t.kind <;> simp_all

/-! ### A whole run -/

/-- A run to the end builds what is owed for the tokens held back and then the entries of the tokens
ahead. -/
theorem feedAll_fragments {config : Config} {ahead : List Token} :
    ∀ {m last : Machine}, Held m.pending →
      m.feedAll .literal config ahead = (last, none) → last.pending = .done →
      last.build.fragments.toList = m.build.fragments.toList ++ owed config ahead m.pending ++
        ofTokens config ahead := by
  induction ahead with
  | nil =>
      intro m last _ hrun hdone
      rw [Machine.feedAll, Prod.mk.injEq] at hrun
      obtain ⟨rfl, -⟩ := hrun
      simp [hdone, owed, ofTokens]
  | cons t ahead ih =>
      intro m last hheld hrun hdone
      obtain ⟨next, hfeed, hrest⟩ := Machine.feedAll_cons_eq_ok hrun
      obtain ⟨mid, hmid, hpending, hfragments⟩ := Machine.feed_eq_ok hfeed
      obtain ⟨hheld', emitted, hemitted, howed⟩ := verbatim_accounts hheld hmid
      rw [← hpending] at hheld' howed
      rw [ih hheld' hrest hdone, hfragments, hemitted, ofTokens]
      have := howed ahead
      simp only [List.append_assoc] at this ⊢
      rw [← List.append_assoc emitted, this, List.append_assoc]
      rfl

/-- The machine that keeps spacing builds the table. -/
theorem fragments_of_run {config : Config} {tokens : List Token} {last : Machine}
    (hrun : Machine.start.feedAll .literal config tokens = (last, none))
    (hdone : last.pending = .done) : last.build.fragments.toList = table config tokens := by
  rw [feedAll_fragments .idle hrun hdone]
  rfl

end Literal

/-! ### Either policy -/

/-- The fragments of the tokens of a text, as the policy matches spacing. -/
def Policy.table : Policy → Config → List Token → List Fragment
  | .literal => Literal.table
  | .normalize => Spacing.table

namespace Compiler

/-- The fragments of a text that compiles are those of its tokens. -/
theorem fragments_of_compile {policy : Policy} {config : Config} {switches : Switches} {text : Text}
    {p : Program} (h : compile policy config switches text = .ok p) :
    p.fragments = policy.table config (tokens policy config switches text) := by
  obtain ⟨last, hrun, hdone, hfragments⟩ := compile_eq_ok h
  rw [hfragments]
  cases policy with
  | literal => exact Literal.fragments_of_run hrun hdone
  | normalize => exact Spacing.fragments_of_run hrun hdone

end Compiler

end Transcript
