/-
**Both policies refuse the same texts.**

Where no input is recognised, the policies differ in what white space becomes and in the newlines at the
end of a text, and neither matters to the tags.  Both machines are refined by the ledger, and the ledger
passes over newlines in front of the end: what is left of a text when they are trimmed has the same
ledger.  So a text is refused under both policies, with the same error, or under neither, and then the
programs have the same tags.

Main definitions:

* `Transcript.Program.tagged` — the tags of a program, with the offsets that they come from.

Main results:

* `Transcript.Compiler.map_tagged_compile` — what a text comes to is read off the ledger;
* `Transcript.Compiler.compile_normalize_literal` — **both policies refuse the same texts**.
-/

import Transcript.Proofs.Compile.Ledger
import Transcript.Proofs.Markup.Ending

set_option relaxedAutoImplicit false
set_option autoImplicit false

namespace Transcript

/-- The offsets that the tags of a program come from, with what they bind, in the order of the tags. -/
def Program.tagged (p : Program) : List (Nat × Option Text) := Fragment.tagged p.fragments

/-- The names are those that the tags bind. -/
theorem Program.names_eq_tagged (p : Program) : p.names = p.tagged.filterMap (·.2) := by
  rw [names, tagged, Fragment.tagged, List.filterMap_filterMap]
  congr 1
  funext f
  rw [Fragment.name?]
  cases f.shape.tag? <;> rfl

namespace Ledger

/-- **White space in front of the end** changes nothing. -/
theorem run_gap (config : Config) (l : Ledger) {lead gap : List Token} {t t' : Token}
    (ht : t.kind = .finish) (ht' : t'.kind = .finish) (hgap : ∀ u ∈ gap, u.kind ≠ .tag) :
    l.run config (lead ++ (gap ++ [t'])) = l.run config (lead ++ [t]) := by
  have hback (l : Ledger) : l.run config (gap ++ [t']) = l.run config [t] := by
    have huntagged : ∀ u ∈ gap ++ [t'], u.kind ≠ .tag := by
      intro u hu
      rcases List.mem_append.1 hu with hu | hu
      · exact hgap u hu
      · simp [List.mem_singleton.1 hu, ht']
    rw [run_of_ne_tag huntagged (by simp), run_of_ne_tag (by simp [ht]) (by simp)]
  rw [run, run, List.foldlM_append, List.foldlM_append]
  exact congrArg (_ >>= ·) (funext hback)

end Ledger

namespace Compiler

variable {switches : Switches}

/-- **What a text comes to is read off the ledger.** -/
theorem map_tagged_compile (policy : Policy) (config : Config) (hoff : switches.inputs = false)
    (text : Text) :
    (compile policy config switches text).map Program.tagged =
      (Ledger.start.run config (tokens policy config switches text)).map Ledger.tags := by
  -- the end is the last token and the only one of its kind
  obtain ⟨lead, t, htokens, hlead, hfinish⟩ : ∃ lead t,
      tokens policy config switches text = lead ++ [t] ∧
        (∀ u ∈ lead, u.kind ≠ .finish ∧ u.kind ≠ .input) ∧ t.kind = .finish := by
    obtain ⟨lead, back, htokens, hlead, hback⟩ :=
      List.map_eq_append_iff.1 (reading_tokens policy config hoff text)
    obtain ⟨t, rfl, ht⟩ := List.map_eq_singleton_iff.1 hback
    refine ⟨lead, t, htokens, fun u hu => ?_, congrArg Piece.kind ht⟩
    have hpiece : u.piece ∈ Piece.ofText config switches (policy.scope text) := by
      rw [← hlead]
      exact List.mem_map_of_mem hu
    have hkinds : u.kind.isSpace = true ∨ u.kind = .literal ∨ u.kind = .tag :=
      Piece.kind_of_mem_ofText hpiece
    cases hk : u.kind <;> simp_all [TokenKind.isSpace]
  have hsuits : Machine.start.pending.Suits policy := by cases policy <;> trivial
  have hrun := Machine.map_ledger_run config hfinish hlead (by simp [Machine.start]) hsuits
  have hstart : Machine.start.ledger = Ledger.start := rfl
  rw [compile_eq_run, htokens, ← hstart, ← hrun]
  cases hlast : Machine.start.run policy config (lead ++ [t]) with
  | error e => rfl
  | ok last =>
      simp only [bind, Except.bind, Machine.program?,
        if_pos (Machine.pending_of_run hfinish hlast)]
      rfl

/-- **Both policies refuse the same texts.**  Where no input is recognised, a text is refused under both
policies with the same error, or compiled under both; then the programs bind the same names, and their
tags have the same offsets and bind the same. -/
theorem compile_normalize_literal (config : Config) (tags : Bool) (text : Text) :
    (compile .normalize config ⟨tags, false⟩ text).map (fun p => (p.names, p.tagged)) =
      (compile .literal config ⟨tags, false⟩ text).map fun p => (p.names, p.tagged) := by
  obtain ⟨lead, gap, stop, stop', hlead, hlead', hgap⟩ :=
    exists_tokens_literal_normalize config (show (⟨tags, false⟩ : Switches).inputs = false from rfl)
      text
  have huntagged : ∀ u ∈ gap, u.kind ≠ .tag := by
    rcases hgap with rfl | ⟨t, rfl, ht⟩
    · simp
    · simp [ht]
  -- the names are a part of the tags
  have hview (result : Except CompileError Program) :
      result.map (fun p => (p.names, p.tagged)) =
        (result.map Program.tagged).map fun tagged => (tagged.filterMap (·.2), tagged) := by
    cases result with
    | error e => rfl
    | ok p =>
        simp only [Except.map, Program.names_eq_tagged]
  have hrun : Ledger.start.run config (lead ++ (gap ++ [⟨stop', .finish, []⟩])) =
      Ledger.start.run config (lead ++ [⟨stop, .finish, []⟩]) :=
    Ledger.run_gap config .start rfl rfl huntagged
  rw [hview, hview, map_tagged_compile .normalize config rfl, map_tagged_compile .literal config rfl,
    hlead, hlead', hrun]

end Compiler

end Transcript
