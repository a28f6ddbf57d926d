/-
**The source of a program.**

The sources of the fragments are joined with nothing between them, and the result is read again as one
expression.  So the border of two fragments has to be a border for the reader as well, whatever the
texts of the literals are, empty ones included.

Main definitions:

* `Transcript.Fragment.Separate` — fragments that are read one by one;
* `Transcript.Program.Readable` — a program whose source can be read, with all its groups;
* `Transcript.Token.verbatim` — the tokens that are matched as they stand.

Main results:

* `Transcript.Fragment.separate` — fragments whose groups are distinct are read one by one;
* `Transcript.Compiler.literals_of_compile` — the literals of a program are tokens of its text;
* `Transcript.Compiler.readable_of_compile` — **a program that compiles can be read**.
-/

import Transcript.Proofs.Match.Partial

set_option relaxedAutoImplicit false
set_option autoImplicit false

namespace Transcript

/-! ### The groups of an expression -/

namespace Regex

theorem groups_concat (rs : List Regex) : (concat rs).groups = rs.flatMap groups := by
  induction rs with
  | nil => rfl
  | cons r rs ih => rw [concat, groups, ih, List.flatMap_cons]

end Regex

/-- The expressions of a fragment have the group that the fragment opens, and no other one. -/
theorem Shape.flatMap_groups_items (shape : Shape) :
    shape.items.flatMap Regex.groups = shape.groups := by
  cases shape with
  | literal text =>
      change (text.map Regex.single).flatMap Regex.groups = []
      simp [Regex.single, Regex.groups]
  | tag binding context greedy => cases binding <;> cases context <;> rfl
  | finish anchor => cases anchor <;> rfl
  | _ => rfl

namespace Fragment

theorem groups_regex (fragments : List Fragment) :
    (regex fragments).groups = fragments.flatMap fun f => f.shape.groups := by
  rw [regex, Regex.groups_concat, List.flatMap_assoc]
  simp only [Shape.flatMap_groups_items]

/-! ### Borders -/

/-- The fragments are read one by one. -/
structure Separate (fragments : List Fragment) : Prop where
  /-- The source of a fragment is read as its expressions. -/
  alone : ∀ f ∈ fragments, Regex.read? .program f.pattern = some (.concat f.shape.items)
  /-- Fragments that follow one another are read as what each of them is read as alone. -/
  together : ∀ run, run <:+: fragments →
    Regex.read? .program (join run) = some (.concat (run.flatMap fun f => f.shape.items))
  /-- Wherever the fragments are cut, the reader stands behind the expressions of the fragments in
  front, with no escape and no group open. -/
  rests : ∀ front back, front ++ back = fragments →
    ∃ r names, Reader.feed .program (join front) .start = some r ∧
      r.Rests names (front.flatMap fun f => f.shape.items).reverse
  /-- No fragment goes on with what is in front of it. -/
  begins : ∀ f ∈ fragments, ∀ c ∈ f.pattern.head?, isQuantifier c = false ∧ c ≠ '{'

/-- **Fragments whose groups are distinct are read one by one.** -/
theorem separate {fragments : List Fragment}
    (hnodup : (fragments.flatMap fun f => f.shape.groups).Nodup)
    (hne : ∀ group ∈ fragments.flatMap fun f => f.shape.groups, group ≠ []) :
    Separate fragments := by
  have hread (run : List Fragment) (hrun : run.Sublist fragments) :
      Regex.read? .program (join run) = some (regex run) :=
    read?_join (hnodup.sublist (hrun.flatMap _)) fun group hgroup =>
      hne group ((hrun.flatMap _).subset hgroup)
  refine ⟨fun f hf => ?_, fun run hrun => hread run hrun.sublist, fun front back hfront => ?_,
    fun f _ => Reader.begins_source f.shape⟩
  · simpa [join, regex] using hread [f] (List.singleton_sublist.2 hf)
  · have hsub : front.Sublist fragments := hfront ▸ List.sublist_append_left front back
    obtain ⟨r, names, hfeed, hrests⟩ := Reader.feed_join (Reader.rests_resting [] [])
      (hnodup.sublist (hsub.flatMap _)) fun group hgroup =>
        ⟨hne group ((hsub.flatMap _).subset hgroup), by simp⟩
    exact ⟨r, names, hfeed, by simpa using hrests⟩

end Fragment

/-! ### Programs -/

/-- The source of a program can be read, and so can the sources of its first fragments. -/
structure Program.Readable (p : Program) : Prop where
  matcher : p.matcher? = some ⟨p, Fragment.regex p.fragments⟩
  leading : ∀ count, p.leading? count = some (Fragment.regex (p.fragments.take count))
  separate : Fragment.Separate p.fragments
  literal : ∀ f ∈ p.fragments, ∀ text, f.shape = .literal text →
    Regex.read? .program f.pattern = some (Regex.literal text)
  /-- The groups of the expression are those of the names that the program binds. -/
  groups : (Fragment.regex p.fragments).groups = p.names.map groupName
  nodup : (p.names.map groupName).Nodup
  named : ∀ group ∈ p.names.map groupName, group ≠ [] ∧ ∀ c ∈ group, c.isAlphanum = true ∨ c = '_'

theorem isAlphanum_of_mem_groupName {name : Text} {c : Char} (h : c ∈ groupName name) :
    c.isAlphanum = true ∨ c = '_' := by
  obtain ⟨ch, -, rfl⟩ := List.mem_map.1 h
  by_cases hch : ch.isAlphanum
  · rw [if_pos hch]
    exact Or.inl hch
  · exact Or.inr (if_neg hch)

/-! ### Literals -/

/-- The token is matched as it stands: text is, and white space where spacing is kept. -/
def Token.verbatim (policy : Policy) (t : Token) : Bool :=
  t.kind.isText || (policy == .literal && t.kind.isSpace)

/-- The text that a fragment matches, if it is a literal, with its offset. -/
def Fragment.literal? (f : Fragment) : Option (Nat × Text) :=
  match f.shape with
  | .literal text => some (f.offset, text)
  | _ => none

def Token.asLiteral (t : Token) : Nat × Text := (t.offset, t.text)

namespace Spacing

theorem filterMap_literal?_ofGap (first : Token) (ahead : List Token) :
    (ofGap first ahead).filterMap Fragment.literal? = [] := by
  cases ahead with
  | nil => rfl
  | cons t ahead =>
      rw [ofGap]
      split
      · rfl
      · split <;> rfl

/-- Where spacing is normalized, the literals are the texts among the tokens. -/
theorem literals_ofTokens (config : Config) (ahead : List Token) : ∀ behind,
    (ofTokens config behind ahead).filterMap Fragment.literal? =
      (ahead.filter (Token.verbatim .normalize)).map Token.asLiteral := by
  induction ahead with
  | nil => exact fun behind => rfl
  | cons t ahead ih =>
      intro behind
      rw [ofTokens_cons, List.filterMap_append, ih]
      have hverbatim : Token.verbatim .normalize t = t.kind.isText := by simp [Token.verbatim]
      cases htext : t.kind.isText with
      | true =>
          rw [ofToken_of_isText config behind ahead htext, List.filter_cons_of_pos (by simp [*])]
          rfl
      | false =>
          rw [List.filter_cons_of_neg (by simp [*])]
          have hnone : (ofToken config behind t ahead).filterMap Fragment.literal? = [] := by
            cases hspace : t.kind.isSpace with
            | true =>
                rw [ofToken_of_isSpace config behind ahead hspace]
                split
                · rfl
                · exact filterMap_literal?_ofGap t _
            | false =>
                cases hkind : t.kind with
                | tag =>
                    rw [ofToken_of_tag config behind ahead hkind]
                    rfl
                | finish =>
                    rw [ofToken_of_finish config behind ahead hkind]
                    rfl
                | _ => simp [hkind, TokenKind.isText, TokenKind.isSpace] at htext hspace
          rw [hnone, List.nil_append]

end Spacing

namespace Literal

/-- Where spacing is kept, the literals are all tokens but the tags and the end. -/
theorem literals_ofTokens (config : Config) (tokens : List Token) :
    (ofTokens config tokens).filterMap Fragment.literal? =
      (tokens.filter (Token.verbatim .literal)).map Token.asLiteral := by
  induction tokens with
  | nil => rfl
  | cons t ahead ih =>
      rw [ofTokens, List.filterMap_cons, ih]
      cases hkind : t.kind with
      | tag =>
          rw [ofToken_of_tag config ahead hkind, List.filter_cons_of_neg
            (by simp [Token.verbatim, hkind, TokenKind.isText, TokenKind.isSpace])]
          rfl
      | finish =>
          rw [ofToken_of_finish config ahead hkind, List.filter_cons_of_neg
            (by simp [Token.verbatim, hkind, TokenKind.isText, TokenKind.isSpace])]
          rfl
      | _ =>
          rw [ofToken_of_text config ahead (by simp [hkind]) (by simp [hkind]),
            List.filter_cons_of_pos
              (by simp [Token.verbatim, hkind, TokenKind.isText, TokenKind.isSpace])]
          rfl

end Literal

namespace Compiler

variable {policy : Policy} {config : Config} {switches : Switches} {text : Text} {p : Program}

/-- The literals of a program are the tokens that are matched as they stand, in their order. -/
theorem literals_of_compile (h : compile policy config switches text = .ok p) :
    p.fragments.filterMap Fragment.literal? =
      ((tokens policy config switches text).filter (Token.verbatim policy)).map Token.asLiteral := by
  cases policy with
  | normalize =>
      rw [fragments_of_compile h]
      exact Spacing.literals_ofTokens config _ []
  | literal =>
      rw [fragments_of_compile h]
      exact Literal.literals_ofTokens config _

/-- **A program that compiles can be read.**  Its source is a valid one, and so are the sources of its
first fragments, however many they are.  The whole is read as the fragments are one by one; each of
its literals is read as the characters of a token.  The groups have names of letters, digits and
underscores, which are distinct. -/
theorem readable_of_compile (htags : ∃ opening closing, config.tags = .delimited opening closing)
    (h : compile policy config switches text = .ok p) :
    p.Readable ∧ p.fragments.filterMap Fragment.literal? =
      ((tokens policy config switches text).filter (Token.verbatim policy)).map Token.asLiteral := by
  have hnamed := TagRule.named_of_exists htags
  have hnodup := (distinct_of_compile h).1
  have hne := groups_ne_nil_of_compile hnamed h
  have hseparate := Fragment.separate hnodup hne
  refine ⟨?_, literals_of_compile h⟩
  exact {
    matcher := matcher?_of_compile hnamed h
    leading := leading?_of_compile hnamed h
    separate := hseparate
    literal := fun f hf text hshape => by
      rw [hseparate.alone f hf, hshape]
      rfl
    groups := (Fragment.groups_regex _).trans (Fragment.flatMap_groups _)
    nodup := by
      rw [Program.names, ← Fragment.flatMap_groups]
      exact hnodup
    named := fun group hgroup => by
      refine ⟨hne group ?_, fun c hc => ?_⟩
      · rwa [Fragment.flatMap_groups]
      · obtain ⟨name, -, rfl⟩ := List.mem_map.1 hgroup
        exact isAlphanum_of_mem_groupName hc }

/-- A tag in front of an empty input, with a literal of quantifiers behind them. -/
theorem readable_signs :
    let config : Config := ⟨.delimited '+' '?', .standard, Config.standardEllipsis, ⟨0, 12⟩⟩
    ∃ p, compile .normalize config ⟨true, true⟩ "a+x.y?[]\n*\x7b2\x7d".toList = .ok p ∧ p.Readable ∧
      p.source = "\\Aa(?P<x_y>.*?)\\s+(?!\\s)\\*\\\x7b2\\\x7d\\s*\\z".toList := by
  intro config
  have htokens : tokens .normalize config ⟨true, true⟩ "a+x.y?[]\n*\x7b2\x7d".toList =
      [⟨0, .literal, "a".toList⟩, ⟨1, .tag, "+x.y?".toList⟩, ⟨6, .input, []⟩,
        ⟨8, .newlines, "\n".toList⟩, ⟨9, .literal, "*\x7b2\x7d".toList⟩, ⟨13, .finish, []⟩] := by
    decide +kernel
  obtain ⟨p, hp⟩ := exists_compile_eq_ok htokens (by decide +kernel) (by decide +kernel)
  refine ⟨p, hp, (readable_of_compile ⟨'+', '?', rfl⟩ hp).1, ?_⟩
  rw [Program.source, fragments_of_compile hp, htokens]
  decide +kernel

end Compiler

end Transcript
