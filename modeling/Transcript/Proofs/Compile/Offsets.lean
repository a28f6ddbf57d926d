/-
**Offsets never go back.**

An offset is set in several ways: a piece of a line begins where the piece in front of it ends, the
spacing behind a marker is measured from the end of its line, and the anchor of the end moves back to the
run of white space that it takes the place of.  Besides, a fragment is emitted later than its token is
read.  Whatever the lexical rules are, the offsets of tokens, of fragments and of inputs rise all the same.

What one part of a text contributes is described by `Transcript.Rises`, which keeps to the bounds of the
part; parts that follow one another are put together by `Transcript.Rises.append`.  For the fragments it is
enough that their offsets are among those of the tokens, in the same order.

Main definitions:

* `Transcript.Rises` — offsets that rise between two bounds.

Main results:

* `Transcript.Lexeme.rises_ofLine`, `Transcript.Lexeme.rises_ofText` — **the tokens of a line and of a text**;
* `Transcript.Spacing.offsets_ofTokens`, `Transcript.Literal.offsets_ofTokens` — a fragment has the offset of
  a token;
* `Transcript.Compiler.offsets_rise` — **offsets never go back**.
-/

import Transcript.Proofs.Compile.Cues
import Transcript.Proofs.Markup.Placement

set_option relaxedAutoImplicit false
set_option autoImplicit false

namespace Transcript

/-! ### Rising offsets -/

/-- The offsets never go back, and lie between two bounds. -/
structure Rises (lo hi : Nat) (offsets : List Nat) : Prop where
  between : ∀ k ∈ offsets, lo ≤ k ∧ k ≤ hi
  sorted : offsets.Pairwise (· ≤ ·)

namespace Rises

variable {lo mid hi : Nat} {xs ys : List Nat}

theorem nil (lo hi : Nat) : Rises lo hi [] := ⟨nofun, .nil⟩

theorem singleton {k : Nat} (hlo : lo ≤ k) (hhi : k ≤ hi) : Rises lo hi [k] where
  between := by simp [hlo, hhi]
  sorted := List.pairwise_singleton ..

/-- **The offsets of one part behind those of another.** -/
theorem append (hx : Rises lo mid xs) (hy : Rises mid hi ys) (hlo : lo ≤ mid) (hhi : mid ≤ hi) :
    Rises lo hi (xs ++ ys) where
  between := by
    intro k hk
    rcases List.mem_append.1 hk with hk | hk
    · have hbounds := hx.between k hk
      omega
    · have hbounds := hy.between k hk
      omega
  sorted := by
    refine List.pairwise_append.2 ⟨hx.sorted, hy.sorted, fun k hk l hl => ?_⟩
    have hbelow := (hx.between k hk).2
    have habove := (hy.between l hl).1
    omega

end Rises

/-! ### The tokens of a line -/

namespace Lexeme

variable {config : Config}

theorem rises_place (ps : List Piece) : ∀ start,
    Rises start (start + (ps.flatMap Piece.text).length) ((Piece.place start ps).map Token.offset) := by
  induction ps with
  | nil => exact fun start => .nil ..
  | cons p ps ih =>
      intro start
      have hlength : start + ((p :: ps).flatMap Piece.text).length =
          start + p.text.length + (ps.flatMap Piece.text).length := by
        rw [List.flatMap_cons, List.length_append, Nat.add_assoc]
      rw [hlength]
      exact (Rises.singleton (Nat.le_refl start) (Nat.le_add_right ..)).append (ih _)
        (Nat.le_add_right ..) (Nat.le_add_right ..)

/-- A line without a marker, whatever the tags look like. -/
theorem rises_ofBody (config : Config) (switches : Switches) (start : Nat) (body : Text) :
    Rises start (start + body.length) ((tokens (ofBody config switches start body)).map Token.offset) := by
  have hplace := rises_place (Piece.ofBody config switches body) start
  rw [Piece.text_ofBody] at hplace
  rwa [ofBody, tokens_map_token]

/-- A marker, with the spacing behind it, which ends where the line does. -/
theorem rises_ofMarker (config : Config) {start stop : Nat} {marker : TrailingInput}
    (hfits : start + marker.spacing.length ≤ stop) :
    Rises start stop ((tokens (ofMarker config start stop marker)).map Token.offset) := by
  have hinput : Rises start start [start] := .singleton (Nat.le_refl _) (Nat.le_refl _)
  rw [tokens_ofMarker, List.map_cons]
  refine hinput.append ?_ (Nat.le_refl _) (by omega)
  split
  · exact .nil ..
  · exact .singleton (by dsimp only; omega) (Nat.sub_le ..)

/-- **The tokens of a line**, whatever the marker that closes it looks like: it lies in the line, with what
it says is the spacing. -/
theorem rises_ofLine (config : Config) (switches : Switches) (start : Nat) (line : Text) :
    Rises start (start + line.length) ((tokens (ofLine config switches start line)).map Token.offset) := by
  unfold ofLine
  by_cases hswitch : switches.inputs = true
  · rw [if_pos hswitch]
    cases hmarker : config.inputs.trailing? line with
    | none =>
        simp only [tokens_append, warnInput, tokens_warn, List.nil_append]
        exact rises_ofBody config switches start line
    | some marker =>
        have hle := InputRule.trailing?_le hmarker
        have hbody : (line.take marker.start).length = marker.start :=
          List.length_take_of_le (by omega)
        simp only [tokens_append, warnInput, tokens_warn, List.nil_append, List.map_append]
        exact (rises_ofBody config switches start _).append (rises_ofMarker config (by omega))
          (by omega) (by omega)
  · rw [if_neg hswitch]
    exact rises_ofBody config switches start line

/-! ### The tokens of a text -/

theorem rises_ofNewlines (start count : Nat) :
    Rises start (start + count) ((tokens (ofNewlines start count)).map Token.offset) := by
  by_cases hcount : count = 0
  · rw [ofNewlines, if_pos hcount]
    exact .nil ..
  · rw [tokens_ofNewlines hcount]
    exact .singleton (Nat.le_refl _) (Nat.le_add_right ..)

/-- Lines that follow one another, by induction on the lines. -/
theorem rises_ofLines (config : Config) (switches : Switches) (ls : List Text.Line) : ∀ start,
    Rises start (start + (ls.flatMap Text.Line.text).length)
        ((tokens (ofLines config switches start ls)).map Token.offset) ∧
      (tokens (ofLines config switches start ls)).getLast? =
        some ⟨start + (ls.flatMap Text.Line.text).length, .finish, []⟩ := by
  induction ls with
  | nil => exact fun start => ⟨.singleton (Nat.le_refl _) (Nat.le_refl _), rfl⟩
  | cons line rest ih =>
      intro start
      obtain ⟨hrest, hlast⟩ := ih (start + line.text.length)
      have hline : start + line.text.length = start + line.body.length + line.newlines := by
        rw [Text.Line.text, List.length_append, List.length_replicate, Nat.add_assoc]
      have hlength : start + ((line :: rest).flatMap Text.Line.text).length =
          start + line.text.length + (rest.flatMap Text.Line.text).length := by
        rw [List.flatMap_cons, List.length_append, Nat.add_assoc]
      rw [tokens_ofLines_cons, hlength]
      refine ⟨?_, by rw [List.getLast?_append, List.getLast?_append, hlast]; rfl⟩
      rw [List.map_append, List.map_append]
      have hbreak := rises_ofNewlines (start + line.body.length) line.newlines
      rw [← hline] at hbreak
      exact (rises_ofLine config switches start line.body).append
        (hbreak.append hrest (by omega) (by omega)) (by omega) (by omega)

/-- **The tokens of a text**, which end where the text does. -/
theorem rises_ofText (config : Config) (switches : Switches) (text : Text) :
    Rises 0 text.length ((tokens (ofText config switches text)).map Token.offset) ∧
      ∃ lead, tokens (ofText config switches text) = lead ++ [⟨text.length, .finish, []⟩] ∧
        ∀ t ∈ lead, t.kind ≠ .finish := by
  obtain ⟨hrises, hlast⟩ := rises_ofLines config switches (Text.lines text) 0
  rw [Text.flatMap_lines, Nat.zero_add] at hrises hlast
  refine ⟨hrises, ?_⟩
  obtain ⟨lead, stop, hlead, hkinds⟩ := exists_ofText_eq config switches text
  have htokens : tokens (ofText config switches text) = tokens lead ++ [⟨stop, .finish, []⟩] := by
    rw [hlead, tokens_append]
    rfl
  have hstop : stop = text.length := by
    change (tokens (ofText config switches text)).getLast? = _ at hlast
    simpa [htokens] using hlast
  exact ⟨tokens lead, hstop ▸ htokens, hkinds⟩

end Lexeme

/-! ### Fragments -/

namespace Spacing

/-- A run of white space has no fragment but its own. -/
theorem offsets_ofGap (first : Token) (ahead : List Token) :
    ((ofGap first ahead).map Fragment.offset).Sublist [first.offset] := by
  cases ahead with
  | nil => exact .refl _
  | cons t ahead =>
      by_cases hfinish : t.kind = .finish
      · rw [ofGap_of_finish first ahead hfinish]
        exact List.nil_sublist _
      · rw [ofGap, if_neg hfinish]
        split <;> exact .refl _

/-- The offsets of the fragments are among those of the tokens, in their order, by induction on the tokens
ahead.  The first token of the run of white space that stands directly behind is still to be taken into
account: what becomes of it is known behind the run, where the anchor of the end may take its offset. -/
theorem offsets_ofTokens (config : Config) (ahead : List Token) : ∀ behind,
    (((firstOfRun? behind).toList.flatMap (fun first => ofGap first (afterRun ahead)) ++
        ofTokens config behind ahead).map Fragment.offset).Sublist
      (((firstOfRun? behind).toList ++ ahead).map Token.offset) := by
  induction ahead with
  | nil =>
      intro behind
      cases firstOfRun? behind with
      | none => exact .refl _
      | some first => exact .refl _
  | cons t ahead ih =>
      intro behind
      have ih := ih (t :: behind)
      rw [ofTokens_cons]
      by_cases ht : t.kind.isSpace = true
      · rw [firstOfRun?_cons_of_isSpace behind ht] at ih
        rw [ofToken_of_isSpace config behind ahead ht, afterRun_cons_of_isSpace ahead ht,
          ← isSome_firstOfRun?]
        cases hfirst : firstOfRun? behind with
        | none => simpa [hfirst] using ih
        | some first =>
            have ih : ((ofGap first (afterRun ahead) ++ ofTokens config (t :: behind) ahead).map
                Fragment.offset).Sublist (first.offset :: ahead.map Token.offset) := by
              simpa [hfirst] using ih
            have hskip := ih.trans ((List.sublist_cons_self t.offset _).cons_cons first.offset)
            simpa using hskip
      · have ht : t.kind.isSpace = false := by simpa using ht
        rw [firstOfRun?_cons_of_not_isSpace behind ht] at ih
        have ih : ((ofTokens config (t :: behind) ahead).map Fragment.offset).Sublist
            (ahead.map Token.offset) := by simpa using ih
        rw [afterRun_cons_of_not_isSpace ahead ht, ← List.append_assoc, List.map_append]
        have hcons : ((firstOfRun? behind).toList ++ t :: ahead).map Token.offset =
            ((firstOfRun? behind).toList.map Token.offset ++ [t.offset]) ++ ahead.map Token.offset := by
          simp
        rw [hcons]
        refine List.Sublist.append ?_ ih
        rw [List.map_append]
        by_cases hfinish : t.kind = .finish
        · -- the anchor stands where the run in front of it began, if there is one
          rw [ofToken_of_finish config behind ahead hfinish]
          cases firstOfRun? behind with
          | none => exact .refl _
          | some first =>
              simp only [Option.toList_some, List.flatMap_singleton, ofGap_of_finish first ahead hfinish]
              exact List.sublist_append_left [first.offset] [t.offset]
        · have hentry : (ofToken config behind t ahead).map Fragment.offset = [t.offset] := by
            cases hkind : t.kind with
            | newlines => simp [hkind, TokenKind.isSpace] at ht
            | spaces => simp [hkind, TokenKind.isSpace] at ht
            | literal => simp [ofToken, hkind]
            | input => simp [ofToken, hkind]
            | tag => simp [ofToken, hkind, ofTag]
            | finish => exact absurd hkind hfinish
          rw [hentry]
          refine List.Sublist.append ?_ (.refl _)
          cases firstOfRun? behind with
          | none => exact .refl _
          | some first => simpa using offsets_ofGap first (t :: ahead)

end Spacing

theorem Literal.offsets_ofTokens (config : Config) (ts : List Token) :
    (ofTokens config ts).map Fragment.offset = ts.map Token.offset := by
  induction ts with
  | nil => rfl
  | cons t ahead ih => rw [ofTokens, List.map_cons, List.map_cons, ih, offset_ofToken]

namespace Compiler

variable {policy : Policy} {config : Config} {switches : Switches} {text : Text} {p : Program}

/-- The fragments of a program begin with the anchor, and behind it each has the offset of a token. -/
theorem offsets_fragments (h : compile policy config switches text = .ok p) :
    ∃ rest, p.fragments = ⟨0, .start⟩ :: rest ∧
      (rest.map Fragment.offset).Sublist ((tokens policy config switches text).map Token.offset) := by
  cases policy with
  | normalize =>
      refine ⟨_, fragments_of_compile h, ?_⟩
      simpa using Spacing.offsets_ofTokens config (tokens .normalize config switches text) []
  | literal =>
      refine ⟨_, fragments_of_compile h, ?_⟩
      rw [Literal.offsets_ofTokens]

theorem offsets_inputs (h : compile policy config switches text = .ok p) :
    (p.inputs.map InputRecord.offset).Sublist
      ((tokens policy config switches text).map Token.offset) := by
  obtain ⟨echoes, hkeys, -⟩ := exists_echoes_of_compile h
  have hoffsets := congrArg (List.map Prod.fst) hkeys
  simp only [List.map_map] at hoffsets
  have hinputs : p.inputs.map InputRecord.offset =
      ((tokens policy config switches text).filter (·.kind = .input)).map Token.offset := hoffsets
  rw [hinputs]
  exact (List.filter_sublist ..).map _

/-- **Offsets never go back.**  Whatever the policy, the lexical rules, the bounds of the cues and the markup
that is recognised, the offsets of the tokens of a text rise up to the end, which stands where the text ends.
The fragments of a program begin at 0, and rise without going beyond the end of the text.  Its inputs rise
too, and each stands where the fragment that echoes it does, one echo behind the other.  The marker that
closes a line may look like anything, and what a rule says is the spacing may stand anywhere in it. -/
theorem offsets_rise (policy : Policy) (config : Config) (switches : Switches) (text : Text) :
    ((tokens policy config switches text).map Token.offset).Pairwise (· ≤ ·) ∧
    (∃ lead, tokens policy config switches text = lead ++ [⟨(policy.scope text).length, .finish, []⟩] ∧
      ∀ t ∈ lead, t.kind ≠ .finish) ∧
    ∀ p, compile policy config switches text = .ok p →
      (p.fragments.map Fragment.offset).head? = some 0 ∧
      (p.fragments.map Fragment.offset).Pairwise (· ≤ ·) ∧
      (∀ f ∈ p.fragments, f.offset ≤ (policy.scope text).length) ∧
      (p.inputs.map InputRecord.offset).Pairwise (· ≤ ·) ∧
      ∃ echoes : List Nat,
        List.Forall₂ (fun r j => p.fragments[j]? = some ⟨r.offset, .literal r.text⟩) p.inputs echoes ∧
          echoes.Pairwise (· < ·) := by
  obtain ⟨hrises, hend⟩ := Lexeme.rises_ofText config switches (policy.scope text)
  refine ⟨hrises.sorted, hend, fun p h => ?_⟩
  obtain ⟨rest, hfragments, hoffsets⟩ := offsets_fragments h
  have hrest := hrises.sorted.sublist hoffsets
  obtain ⟨echoes, -, hechoes, hsorted⟩ := exists_echoes_of_compile h
  rw [hfragments, List.map_cons]
  refine ⟨rfl, hrest.cons fun k _ => Nat.zero_le k, fun f hf => ?_, hrises.sorted.sublist (offsets_inputs h),
    echoes, ?_, hsorted⟩
  · rcases List.mem_cons.1 hf with rfl | hf
    · exact Nat.zero_le _
    · exact (hrises.between _ (hoffsets.subset (List.mem_map_of_mem hf))).2
  · rw [← hfragments]
    exact hechoes.imp fun r j hpoints => hpoints.echo

/-- A marker that does not reach the end of its line, with the spacing in front of the input: the token of
the spacing is the white space at the end of the line, where the anchor of the end goes back to. -/
theorem offsets_rise_login :
    let rule : InputRule :=
      ⟨.concat [.single '('],
        .concat [.single '(', .group InputRule.spacingGroup (.concat [.star (.single ' ') true]),
          .group InputRule.inputGroup (.concat [.plus (.char (.union .empty (.range 'a' 'z'))) true]),
          .single ')']⟩
    let config : Config := { Config.standard with inputs := rule }
    let text := "login: (  root) now \n".toList
    InputRule.read "\\(".toList "\\((?P<trailing> *)(?P<input>[a-z]+)\\)".toList = .ok rule ∧
    tokens .normalize config ⟨true, true⟩ text =
      [⟨0, .literal, "login:".toList⟩, ⟨6, .spaces, " ".toList⟩, ⟨7, .input, "root".toList⟩,
        ⟨18, .spaces, "  ".toList⟩, ⟨20, .newlines, "\n".toList⟩, ⟨21, .finish, []⟩] ∧
    ∃ p, compile .normalize config ⟨true, true⟩ text = .ok p ∧
      p.fragments.map Fragment.offset = [0, 0, 6, 7, 18] ∧
      (p.fragments.map Fragment.offset).Pairwise (· ≤ ·) ∧ ∀ f ∈ p.fragments, f.offset ≤ 21 := by
  intro rule config text
  have htokens : tokens .normalize config ⟨true, true⟩ text =
      [⟨0, .literal, "login:".toList⟩, ⟨6, .spaces, " ".toList⟩, ⟨7, .input, "root".toList⟩,
        ⟨18, .spaces, "  ".toList⟩, ⟨20, .newlines, "\n".toList⟩, ⟨21, .finish, []⟩] := by
    decide +kernel
  obtain ⟨p, hp⟩ := exists_compile_eq_ok htokens (by decide +kernel) (by decide +kernel)
  obtain ⟨-, hsorted, hle, -⟩ := (offsets_rise .normalize config ⟨true, true⟩ text).2.2 p hp
  refine ⟨by decide +kernel, htokens, p, hp, ?_, hsorted, hle⟩
  rw [fragments_of_compile hp, htokens]
  decide +kernel

end Compiler

end Transcript
