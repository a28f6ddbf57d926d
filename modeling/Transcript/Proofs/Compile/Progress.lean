/-
**What has been built so far.**

In the midst of a run, the fragments built so far and those owed for the tokens held back are the
entries of the tokens behind, as the table gives them.  So the tags of a program, the groups that are in
use and the weight of the text since the last tag can be read off the tokens.

Main definitions:

* `Transcript.Policy.entries` — what the tokens behind have become;
* `Transcript.Machine.Tracks` — **the state of a run**: what is built and owed are these entries;
* `Transcript.Token.tagged?` — the offset of a tag with what it binds;
* `Transcript.Token.groups` — the groups of the tags among tokens;
* `Transcript.Token.cueWeight` — the weight of the text since the last tag.

Main results:

* `Transcript.Machine.Tracks.advance` — a step keeps the account of what is built and owed;
* `Transcript.Policy.tagged_entries` — the tags among what tokens have become are theirs;
* `Transcript.Machine.Tracks.groups_eq` — the groups in use;
* `Transcript.Policy.cueWeight_entries` — the weight in front of an input.
-/

import Transcript.Proofs.Compile.Ledger
import Transcript.Proofs.Compile.Literal
import Transcript.Proofs.Compile.Window

set_option relaxedAutoImplicit false
set_option autoImplicit false

namespace Transcript

/-! ### The table of either policy -/

namespace Policy

def ofToken (policy : Policy) (config : Config) (behind : List Token) (t : Token)
    (ahead : List Token) : List Fragment :=
  match policy with
  | normalize => Spacing.ofToken config behind t ahead
  | literal => [Literal.ofToken config t ahead]

def owed (policy : Policy) (config : Config) (behind ahead : List Token) (pending : Pending) :
    List Fragment :=
  match policy with
  | normalize => Spacing.owed config behind ahead pending
  | literal => Literal.owed config ahead pending

/-- What the tokens held back are among those behind. -/
def Held (policy : Policy) (behind : List Token) (pending : Pending) : Prop :=
  match policy with
  | normalize => Spacing.Held behind pending
  | literal => Literal.Held pending

/-- What the tokens behind, the last one first, have become in front of those ahead. -/
def entries (policy : Policy) (config : Config) : (behind ahead : List Token) → List Fragment
  | [], _ => []
  | t :: behind, ahead =>
      entries policy config behind (t :: ahead) ++ policy.ofToken config behind t ahead

theorem ofToken_of_isText {policy : Policy} {config : Config} (behind : List Token) {t : Token}
    (ahead : List Token) (htext : t.kind.isText) :
    policy.ofToken config behind t ahead = [⟨t.offset, .literal t.text⟩] := by
  cases policy with
  | normalize => exact Spacing.ofToken_of_isText config behind ahead htext
  | literal =>
      have hkinds : t.kind ≠ .tag ∧ t.kind ≠ .finish := by
        cases hk : t.kind <;> simp_all [TokenKind.isText]
      rw [Policy.ofToken, Literal.ofToken_of_text config ahead hkinds.1 hkinds.2]

end Policy

namespace Machine

/-- **The state of a run**: what is built and what is owed for the tokens held back are the entries of
the tokens behind. -/
structure Tracks (policy : Policy) (config : Config) (behind : List Token) (m : Machine) : Prop where
  held : policy.Held behind m.pending
  fragments : ∀ ahead, m.build.fragments.toList ++ policy.owed config behind ahead m.pending =
    ⟨0, .start⟩ :: policy.entries config behind ahead

variable {policy : Policy} {config : Config} {behind : List Token} {m next : Machine} {t : Token}

theorem tracks_start (policy : Policy) (config : Config) : Tracks policy config [] start := by
  cases policy with
  | normalize => exact ⟨.idle, fun _ => rfl⟩
  | literal => exact ⟨.idle, fun _ => rfl⟩

theorem Tracks.advance (h : Tracks policy config behind m)
    (hnext : m.advance policy config t = .ok next) : Tracks policy config (t :: behind) next := by
  obtain ⟨hheld, emitted, hemitted, howed⟩ : policy.Held (t :: behind) next.pending ∧
      ∃ emitted, next.build.fragments.toList = m.build.fragments.toList ++ emitted ∧
        ∀ ahead, emitted ++ policy.owed config (t :: behind) ahead next.pending =
          policy.owed config behind (t :: ahead) m.pending ++ policy.ofToken config behind t ahead := by
    cases policy with
    | normalize => exact Spacing.normalize_accounts h.held hnext
    | literal => exact Literal.verbatim_accounts h.held hnext
  refine ⟨hheld, fun ahead => ?_⟩
  rw [hemitted, List.append_assoc, howed, ← List.append_assoc, h.fragments, List.cons_append,
    Policy.entries]

/-- When text is held back, what is built is what the tokens in front of it have become. -/
theorem Tracks.fragments_of_text (h : Tracks policy config (t :: behind) m)
    (hpending : m.pending = .text t) (htext : t.kind.isText) (ahead : List Token) :
    m.build.fragments.toList = ⟨0, .start⟩ :: policy.entries config behind (t :: ahead) := by
  have hfragments := h.fragments ahead
  have howed : policy.owed config (t :: behind) ahead m.pending = [⟨t.offset, .literal t.text⟩] := by
    rw [hpending]
    cases policy <;> rfl
  rw [howed, Policy.entries, Policy.ofToken_of_isText behind ahead htext, ← List.cons_append]
    at hfragments
  exact List.append_cancel_right hfragments

end Machine

/-! ### Tags and groups -/

namespace Token

/-- The offset of a token and what it binds, if it is a tag. -/
def tagged? (config : Config) (t : Token) : Option (Nat × Option Text) :=
  if t.kind = .tag then some (t.offset, t.binding config) else none

/-- The group under which a token captures, if it is a tag with a name. -/
def group? (config : Config) (t : Token) : Option Text :=
  if t.kind = .tag then (t.binding config).map groupName else none

/-- The groups of the tags among tokens. -/
def groups (config : Config) (ts : List Token) : List Text := ts.filterMap (group? config)

theorem bind_tagged? (config : Config) (t : Token) :
    ((t.tagged? config).bind fun tag => tag.2.map groupName) = t.group? config := by
  rw [tagged?, group?]
  split <;> rfl

theorem groups_filterMap_tagged? (config : Config) (ts : List Token) :
    Ledger.groups (ts.filterMap (tagged? config)) = groups config ts := by
  rw [Ledger.groups, List.filterMap_filterMap, groups]
  exact congrArg (List.filterMap · ts) (funext (bind_tagged? config))

end Token

@[simp] theorem Fragment.tagged_append (fragments fragments' : List Fragment) :
    tagged (fragments ++ fragments') = tagged fragments ++ tagged fragments' := List.filterMap_append

namespace Policy

open Token

variable {policy : Policy} {config : Config}

theorem tagged_ofGap (first : Token) (ahead : List Token) :
    Fragment.tagged (Spacing.ofGap first ahead) = [] := by
  cases ahead with
  | nil => rfl
  | cons t ahead =>
      rw [Spacing.ofGap]
      by_cases hfinish : t.kind = .finish
      · rw [if_pos hfinish]
        rfl
      · rw [if_neg hfinish]
        by_cases htag : t.kind = .tag ∧ Spacing.spaceAhead ahead
        · rw [if_pos htag]
          rfl
        · rw [if_neg htag]
          rfl

theorem tagged_tag {t : Token} (ht : t.kind = .tag) (context : TagContext) (greedy : Bool) :
    Fragment.tagged [⟨t.offset, .tag (t.binding config) context greedy⟩] =
      (t.tagged? config).toList := by
  rw [tagged?, if_pos ht]
  rfl

/-- A tag becomes a tag with its offset and its name, and nothing else becomes one. -/
theorem tagged_ofToken (behind : List Token) (t : Token) (ahead : List Token) :
    Fragment.tagged (policy.ofToken config behind t ahead) = (t.tagged? config).toList := by
  by_cases htag : t.kind = .tag
  · cases policy with
    | normalize =>
        rw [ofToken, Spacing.ofToken_of_tag config behind ahead htag]
        exact tagged_tag htag _ _
    | literal =>
        rw [ofToken, Literal.ofToken_of_tag config ahead htag]
        exact tagged_tag htag _ _
  · rw [tagged?, if_neg htag]
    cases policy with
    | normalize =>
        unfold ofToken Spacing.ofToken
        cases hkind : t.kind
        case tag => exact absurd hkind htag
        case newlines =>
          cases Spacing.spaceBehind behind
          · exact tagged_ofGap t _
          · rfl
        case spaces =>
          cases Spacing.spaceBehind behind
          · exact tagged_ofGap t _
          · rfl
        all_goals rfl
    | literal =>
        unfold ofToken Literal.ofToken
        cases hkind : t.kind
        case tag => exact absurd hkind htag
        all_goals rfl

/-- The tags among what tokens have become are theirs, in their order. -/
theorem tagged_entries (behind : List Token) :
    ∀ ahead, Fragment.tagged (policy.entries config behind ahead) =
      (behind.filterMap (tagged? config)).reverse := by
  induction behind with
  | nil => exact fun ahead => rfl
  | cons t behind ih =>
      intro ahead
      rw [entries, Fragment.tagged_append, ih, tagged_ofToken, List.filterMap_cons]
      cases t.tagged? config <;> simp

/-- Of the tokens held back, the tag will be one. -/
theorem tagged_owed {behind : List Token} {pending : Pending} (h : policy.Held behind pending)
    (ahead : List Token) :
    Fragment.tagged (policy.owed config behind ahead pending) =
      (pending.tag?.bind (tagged? config)).toList := by
  cases policy with
  | normalize =>
      cases h with
      | gap hfirst => exact tagged_ofGap _ _
      | tag ht hfirst => exact tagged_tag ht _ _
      | gapTag ht hfirst =>
          rw [owed, Spacing.owed, Fragment.tagged_append, tagged_ofGap, List.nil_append]
          exact tagged_tag ht _ _
      | _ => rfl
  | literal =>
      cases h with
      | tag ht => exact tagged_tag ht _ _
      | _ => rfl

end Policy

namespace Machine

variable {policy : Policy} {config : Config} {behind : List Token} {m : Machine}

/-- The groups in use, and that of the tag held back, are those of the tokens behind. -/
theorem Tracks.groups_eq (h : Tracks policy config behind m) :
    m.build.groups ++ (m.pending.tag?.bind (Token.group? config)).toList =
      (Token.groups config behind).reverse := by
  have hfragments := congrArg Fragment.tagged (h.fragments [])
  rw [Fragment.tagged_append, Policy.tagged_owed h.held] at hfragments
  have htags : m.build.tagged ++ (m.pending.tag?.bind (Token.tagged? config)).toList =
      behind.reverse.filterMap (Token.tagged? config) := by
    rw [List.filterMap_reverse]
    exact hfragments.trans (Policy.tagged_entries behind [])
  have hheld : Ledger.groups (m.pending.tag?.bind (Token.tagged? config)).toList =
      (m.pending.tag?.bind (Token.group? config)).toList := by
    cases m.pending.tag? with
    | none => rfl
    | some t =>
        rw [Option.bind_some, Option.bind_some, ← Token.bind_tagged?]
        cases t.tagged? config with
        | none => rfl
        | some tag => cases htag : tag.2.map groupName <;> simp [Ledger.groups, htag]
  have hgroups := congrArg Ledger.groups htags
  rw [Ledger.groups_append, Build.groups_tagged, hheld, Token.groups_filterMap_tagged?] at hgroups
  rw [hgroups, Token.groups, List.filterMap_reverse]
  rfl

end Machine

/-! ### Weights -/

namespace Token

/-- The weight of a token behind others: its characters, or one for a run of white space if that is
normalized. -/
def weight (policy : Policy) (behind : List Token) (t : Token) : Nat :=
  match policy with
  | .normalize =>
      if t.kind.isSpace then (if Spacing.spaceBehind behind then 0 else 1) else t.text.length
  | .literal => t.text.length

/-- The weight of the text since the last tag; the tokens are given with the last one first. -/
def cueWeight (policy : Policy) : List Token → Nat
  | [] => 0
  | t :: behind => if t.kind = .tag then 0 else cueWeight policy behind + t.weight policy behind

end Token

namespace Policy

open Token

variable {policy : Policy} {config : Config}

/-- The weight of what the tokens behind have become in front of text. -/
theorem cueWeight_entries {behind : List Token} (hbehind : ∀ u ∈ behind, u.kind ≠ .finish) :
    ∀ {ahead : List Token}, (Spacing.afterRun ahead).head?.any (·.kind.isText) = true →
      Fragment.cueWeight (⟨0, .start⟩ :: policy.entries config behind ahead) =
        cueWeight policy behind := by
  induction behind with
  | nil => exact fun _ => rfl
  | cons u behind ih =>
      intro ahead hahead
      replace ih := @ih fun v hv => hbehind v (List.mem_cons_of_mem _ hv)
      rw [entries, ← List.cons_append, Token.cueWeight]
      by_cases htag : u.kind = .tag
      · -- nothing in front of a tag matters
        rw [if_pos htag]
        cases policy with
        | normalize =>
            rw [ofToken, Spacing.ofToken_of_tag config behind ahead htag, Fragment.cueWeight_concat]
            rfl
        | literal =>
            rw [ofToken, Literal.ofToken_of_tag config ahead htag, Fragment.cueWeight_concat]
            rfl
      · rw [if_neg htag]
        have hfinish := hbehind u (List.mem_cons_self ..)
        cases hspace : u.kind.isSpace with
        | false =>
            have htext : u.kind.isText = true := by
              cases hk : u.kind <;> simp_all [TokenKind.isText, TokenKind.isSpace]
            have hnext : (Spacing.afterRun (u :: ahead)).head?.any (·.kind.isText) = true := by
              rw [Spacing.afterRun_cons_of_not_isSpace ahead hspace]
              exact htext
            cases policy with
            | normalize =>
                rw [ofToken, Spacing.ofToken_of_isText config behind ahead htext,
                  Fragment.cueWeight_concat, ih hnext, Token.weight, hspace]
                rfl
            | literal =>
                rw [ofToken, Literal.ofToken_of_text config ahead htag hfinish,
                  Fragment.cueWeight_concat, ih hnext]
                rfl
        | true =>
            have hrest : (Spacing.afterRun (u :: ahead)).head?.any (·.kind.isText) = true := by
              rwa [Spacing.afterRun_cons_of_isSpace ahead hspace]
            cases policy with
            | normalize =>
                -- only the first token of a run has a fragment
                rw [ofToken, Spacing.ofToken_of_isSpace config behind ahead hspace, Token.weight, hspace]
                cases hrun : Spacing.spaceBehind behind with
                | true => simpa using ih hrest
                | false =>
                    obtain ⟨v, rest, hafter⟩ := List.exists_cons_of_ne_nil
                      (l := Spacing.afterRun ahead) (by rintro hnil; simp [hnil] at hahead)
                    rw [hafter] at hahead
                    rw [hafter, if_neg (by simp), Spacing.ofGap_of_isText u rest (by simpa using hahead),
                      Fragment.cueWeight_concat, ih hrest]
                    rfl
            | literal =>
                rw [ofToken, Literal.ofToken_of_text config ahead htag hfinish,
                  Fragment.cueWeight_concat, ih hrest]
                rfl

end Policy

end Transcript
