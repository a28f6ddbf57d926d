/-
**A text can be put together again from its program.**

Where spacing is kept and no input is recognised, every token of a text becomes one fragment.  The
offsets of the fragments cut the text, so that each fragment covers the part up to the next one.  A
fragment that is no tag is that part escaped; one that is a tag stands for a part that the lexical rule
gives the name which is bound.

Nothing is lost but the way in which a tag is written: of the text of a tag, a program keeps the name.
Where tags stand between two characters the name determines the text, and the program determines the
whole transcript up to the newlines at its end.  A rule may write one name in several ways.

Main definitions:

* `Transcript.Regex.unescape` — the text that was escaped;
* `Transcript.Token.Becomes` — what a token becomes;
* `Transcript.Fragment.Covers` — what a fragment says about the part of the text that it covers;
* `Transcript.Program.rebuild` — the text of a program.

Main results:

* `Transcript.Regex.unescape_escape` — escaping can be undone;
* `Transcript.Compiler.isSome_nameOf?_of_compile` — the tags of a text that compiles have names;
* `Transcript.Compiler.fragments_rebuild` — **the fragments cover the text and give it back**.
-/

import Transcript.Proofs.Compile.Agreement
import Transcript.Proofs.Compile.Literal
import Transcript.Proofs.Markup.Cutting
import Transcript.Proofs.Markup.Naming

set_option relaxedAutoImplicit false
set_option autoImplicit false

namespace Transcript

/-! ### Escaping undone -/

namespace Regex

/-- The text that was escaped: a backslash says that the next character stands for itself. -/
def unescape : Text → Text
  | [] => []
  | '\\' :: c :: rest => c :: unescape rest
  | c :: rest => c :: unescape rest

/-- **Escaping can be undone.** -/
theorem unescape_escape (text : Text) : unescape (escape text) = text := by
  induction text with
  | nil => rfl
  | cons c text ih =>
      rw [escape_cons, escapeChar]
      by_cases hmeta : isMeta c
      · rw [if_pos hmeta, List.cons_append, List.singleton_append, unescape, ih]
      · have hslash : c ≠ '\\' := by
          rintro rfl
          exact hmeta (by decide)
        rw [if_neg hmeta, List.singleton_append, unescape, ih]
        exact fun _ _ h _ => hslash h

end Regex

/-! ### The names of tags -/

namespace Ledger

/-- **In a run that comes to its end, tags have names**: each of them is emitted when the next token
comes. -/
theorem isSome_nameOf?_of_run {config : Config} {tokens : List Token} :
    ∀ {l last : Ledger}, l.run config tokens = .ok last → last.held = none →
      (∀ t ∈ l.held, (config.tags.nameOf? t.text).isSome) ∧
        ∀ t ∈ tokens, t.kind = .tag → (config.tags.nameOf? t.text).isSome := by
  induction tokens with
  | nil =>
      intro l last hrun hheld
      obtain rfl : l = last := Except.ok.inj hrun
      simp [hheld]
  | cons t tokens ih =>
      intro l last hrun hheld
      rw [run, List.foldlM_cons] at hrun
      have hsettle := of?_settle config (t.kind == .tag) l
      cases htags : l.settle config (t.kind == .tag) with
      | error e => simp [step, htags, Except.map, bind, Except.bind] at hrun
      | ok tags =>
          have hstep : l.step config t = .ok ⟨if t.kind = .tag then some t else none, tags⟩ := by
            rw [step, htags]
            rfl
          rw [hstep] at hrun
          obtain ⟨hnext, hrest⟩ := ih hrun hheld
          refine ⟨fun g hg => ?_, fun u hu hkind => ?_⟩
          · -- there was no objection to the tag that is held back
            rw [htags, hg, Option.bind_some] at hsettle
            cases hname : config.tags.nameOf? g.text with
            | some name => rfl
            | none =>
                rw [Token.objection?, hname] at hsettle
                by_cases htag : t.kind = .tag <;> simp [CompileError.of?, htag] at hsettle
          · rcases List.mem_cons.1 hu with rfl | hu
            · exact hnext u (by simp [hkind])
            · exact hrest u hu hkind

end Ledger

namespace Compiler

variable {config : Config} {switches : Switches} {text : Text} {p : Program}

/-- **The tags of a text that compiles have names**, whatever the lexical rule. -/
theorem isSome_nameOf?_of_compile {policy : Policy} (hoff : switches.inputs = false)
    (h : compile policy config switches text = .ok p) :
    ∀ t ∈ tokens policy config switches text, t.kind = .tag →
      (config.tags.nameOf? t.text).isSome := by
  have hmap := map_tagged_compile policy config hoff text
  have hcuts : Token.Cuts (policy.scope text) (tokens policy config switches text) :=
    Lexeme.cuts_ofText hoff _
  obtain ⟨lead, htokens, -⟩ := hcuts.finish
  cases hrun : Ledger.start.run config (tokens policy config switches text) with
  | error e =>
      rw [h, hrun] at hmap
      simp [Except.map] at hmap
  | ok last =>
      have hheld : last.held = none := by
        rw [htokens, Ledger.run, List.foldlM_append] at hrun
        cases hlead : List.foldlM (Ledger.step config) Ledger.start lead with
        | error e => simp [hlead, bind, Except.bind] at hrun
        | ok l =>
            rw [hlead] at hrun
            change l.run config [_] = _ at hrun
            rw [Ledger.run_of_ne_tag (by simp) (by simp)] at hrun
            cases hsettle : l.settle config false with
            | error e => simp [hsettle, Except.map] at hrun
            | ok tags =>
                rw [hsettle] at hrun
                rw [← Except.ok.inj hrun]
      exact (Ledger.isSome_nameOf?_of_run hrun hheld).2

end Compiler

/-! ### Fragments and tokens -/

theorem exists_append_of_getElem? {α : Type} {xs : List α} {x : α} {i : Nat} (h : xs[i]? = some x) :
    ∃ front back, xs = front ++ x :: back ∧ front.length = i := by
  obtain ⟨hi, rfl⟩ := List.getElem?_eq_some_iff.1 h
  refine ⟨xs.take i, xs.drop (i + 1), ?_, List.length_take_of_le (Nat.le_of_lt hi)⟩
  rw [← List.drop_eq_getElem_cons hi, List.take_append_drop]

/-- What a token becomes where spacing is kept. -/
def Token.Becomes (config : Config) (t : Token) (f : Fragment) : Prop :=
  f.offset = t.offset ∧
    match t.kind with
    | .tag => f.shape.tag? = some (t.binding config)
    | .finish => f.shape = .finish .newlines
    | _ => f.shape = .literal t.text

/-- What a fragment says about the part of the text that it covers.  One that is no tag is the part
escaped, with a weight of one for each character; one that is a tag binds the name of the part, or
nothing if that is the ellipsis. -/
structure Fragment.Covers (config : Config) (f : Fragment) (tag? : Option (Option Text))
    (part : Text) : Prop where
  literal : tag? = none →
    f.pattern = Regex.escape part ∧ f.weight = part.length ∧ f.resetsCue = false
  tag : ∀ binding, tag? = some binding → f.weight = 0 ∧
    ∃ name, config.tags.nameOf? part = some name ∧
      binding = if name = config.ellipsis then none else some name

namespace Literal

variable {config : Config}

/-- Every token becomes one fragment. -/
theorem forall₂_becomes (config : Config) (ts : List Token) :
    List.Forall₂ (Token.Becomes config) ts (ofTokens config ts) := by
  induction ts with
  | nil => exact .nil
  | cons t ts ih =>
      refine .cons ?_ ih
      unfold Token.Becomes ofToken
      cases t.kind <;> exact ⟨rfl, rfl⟩

/-- The fragments are counted as the tokens are. -/
theorem getElem?_ofTokens (ts : List Token) :
    ∀ i, (ofTokens config ts)[i]? = ts[i]?.map fun t => ofToken config t (ts.drop (i + 1)) := by
  induction ts with
  | nil => exact fun _ => rfl
  | cons t ts ih =>
      intro i
      cases i with
      | zero => rfl
      | succ i => exact ih i

theorem tag?_ofToken (t : Token) (ahead : List Token) :
    (ofToken config t ahead).shape.tag? = if t.kind = .tag then some (t.binding config) else none := by
  unfold ofToken
  cases t.kind <;> rfl

/-- The fragment of a token covers its text. -/
theorem covers_ofToken {t : Token} (hfinish : t.kind ≠ .finish)
    (hname : t.kind = .tag → (config.tags.nameOf? t.text).isSome) (ahead : List Token) :
    (ofToken config t ahead).Covers config (ofToken config t ahead).shape.tag? t.text := by
  rw [tag?_ofToken]
  by_cases htag : t.kind = .tag
  · obtain ⟨name, hname⟩ := Option.isSome_iff_exists.1 (hname htag)
    rw [if_pos htag, ofToken_of_tag config ahead htag]
    refine ⟨by simp, fun binding hbinding => ⟨rfl, name, hname, ?_⟩⟩
    rw [← Option.some.inj hbinding, Token.binding, hname]
    by_cases hellipsis : name = config.ellipsis <;> simp [hellipsis, Option.filter]
  · rw [if_neg htag, ofToken_of_text config ahead htag hfinish]
    exact ⟨fun _ => ⟨rfl, rfl, rfl⟩, by simp⟩

end Literal

namespace Program

/-- The fragments that are tags, with their indexes, looked up by an index. -/
theorem lookup_tagged (fragments : List Fragment) : ∀ start i,
    ((fragments.zipIdx start).filterMap fun entry =>
      entry.1.shape.tag?.map fun binding => (entry.2, binding)).lookup (start + i) =
        fragments[i]?.bind fun f => f.shape.tag? := by
  induction fragments with
  | nil => exact fun _ _ => rfl
  | cons f fragments ih =>
      intro start i
      rw [List.zipIdx_cons, List.filterMap_cons]
      cases i with
      | zero =>
          cases htag : f.shape.tag? with
          | some binding => simp [htag]
          | none =>
              -- the tags behind a fragment have greater indexes
              simp only [htag, Option.map_none, Nat.add_zero, List.getElem?_cons_zero,
                Option.bind_some, List.lookup_eq_none_iff]
              rintro ⟨index, binding⟩ hmem
              obtain ⟨⟨g, index'⟩, hg, heq⟩ := List.mem_filterMap.1 hmem
              obtain ⟨_, -, heq⟩ := Option.map_eq_some_iff.1 heq
              obtain ⟨rfl, -⟩ := Prod.mk.inj heq
              have hle := (List.mem_zipIdx hg).1
              simp
              omega
      | succ i =>
          have hnext := ih (start + 1) i
          rw [Nat.add_assoc, Nat.add_comm 1 i] at hnext
          cases htag : f.shape.tag? with
          | none => simpa [htag] using hnext
          | some binding =>
              have hne : (start + (i + 1) == start) = false := by simp
              simpa [htag, List.lookup_cons, hne] using hnext

theorem lookup_tags (p : Program) (i : Nat) :
    p.tags.lookup i = p.fragments[i]?.bind fun f => f.shape.tag? := by
  simpa [tags] using lookup_tagged p.fragments 0 i

end Program

/-! ### The text of a program -/

/-- The text of a program: each fragment between the first and the last one stands for what was escaped,
or for the text of a tag. -/
def Program.rebuild (tagText : Nat → Option Text → Text) (patterns : List Text)
    (tags : List (Nat × Option Text)) : Text :=
  (patterns.dropLast.zipIdx.drop 1).flatMap fun (pattern, index) =>
    match tags.lookup index with
    | some binding => tagText index binding
    | none => Regex.unescape pattern

/-- Pieces that are the texts of the tokens make up what the tokens do. -/
theorem Literal.flatMap_patterns {config : Config} {finish : Token} {piece : Text × Nat → Text}
    {lead : List Token} : ∀ {start : Nat},
      (∀ front t back, lead = front ++ t :: back →
        piece ((ofToken config t (back ++ [finish])).pattern, start + front.length) = t.text) →
      (((ofTokens config (lead ++ [finish])).map Fragment.pattern).dropLast.zipIdx start).flatMap piece =
        lead.flatMap Token.text := by
  induction lead with
  | nil => exact fun _ => rfl
  | cons t lead ih =>
      intro start hpiece
      have hne : (ofTokens config (lead ++ [finish])).map Fragment.pattern ≠ [] := by
        cases lead <;> simp [ofTokens]
      rw [List.cons_append, ofTokens, List.map_cons, List.dropLast_cons_of_ne_nil hne, List.zipIdx_cons,
        List.flatMap_cons, List.flatMap_cons, ih fun front u back hlead => ?_]
      · exact congrArg (· ++ _) (hpiece [] t lead rfl)
      · have hu := hpiece (t :: front) u back (by rw [hlead, List.cons_append])
        rwa [List.length_cons, Nat.add_comm front.length 1, ← Nat.add_assoc] at hu

namespace Literal

variable {config : Config} {s : Text} {ts : List Token}

/-- Two fragments behind the first one that follow one another come from two such tokens. -/
theorem exists_of_getElem?_table {i : Nat} {f g : Fragment} (hi : 0 < i)
    (hf : (table config ts)[i]? = some f) (hg : (table config ts)[i + 1]? = some g) :
    ∃ front t u back, ts = front ++ t :: u :: back ∧ i = front.length + 1 ∧
      f = ofToken config t (u :: back) ∧ g = ofToken config u back := by
  obtain ⟨i, rfl⟩ := Nat.exists_eq_add_one_of_ne_zero (Nat.ne_of_gt hi)
  rw [table, List.getElem?_cons_succ, getElem?_ofTokens] at hf hg
  obtain ⟨t, ht, rfl⟩ := Option.map_eq_some_iff.1 hf
  obtain ⟨u, hu, rfl⟩ := Option.map_eq_some_iff.1 hg
  obtain ⟨front, back, rfl, rfl⟩ := exists_append_of_getElem? ht
  rw [List.getElem?_append_right (Nat.le_succ _), Nat.succ_sub (Nat.le_refl _), Nat.sub_self,
    List.getElem?_cons_succ, ← List.head?_eq_getElem?] at hu
  obtain ⟨back, rfl⟩ := List.head?_eq_some_iff.1 hu
  refine ⟨front, t, u, back, rfl, rfl, ?_, ?_⟩
  · rw [List.drop_length_add_append]
    rfl
  · rw [Nat.add_assoc, List.drop_length_add_append]
    rfl

/-- The other way round, two such tokens give two such fragments. -/
theorem getElem?_table_append (front : List Token) (t : Token) (back : List Token) :
    (table config (front ++ t :: back))[front.length + 1]? = some (ofToken config t back) := by
  rw [table, List.getElem?_cons_succ, getElem?_ofTokens]
  simp

variable {p : Program}

/-- **Each fragment covers the part of the text up to the next one.** -/
theorem covers_of_table (hcuts : Token.Cuts s ts) (htable : p.fragments = table config ts)
    (hnames : ∀ t ∈ ts, t.kind = .tag → (config.tags.nameOf? t.text).isSome) {i : Nat}
    {f g : Fragment} (hi : 0 < i) (hf : p.fragments[i]? = some f)
    (hg : p.fragments[i + 1]? = some g) :
    f.offset ≤ g.offset ∧ g.offset ≤ s.length ∧
      f.Covers config (p.tags.lookup i) (s.extract f.offset g.offset) := by
  have htag := p.lookup_tags i
  rw [hf, Option.bind_some] at htag
  rw [htable] at hf hg
  obtain ⟨front, t, u, back, hts, rfl, rfl, rfl⟩ := exists_of_getElem?_table hi hf hg
  have hnext := hcuts.offset_next hts
  have hle := hcuts.offset_le (t := u) (by simp [hts])
  rw [htag, offset_ofToken, offset_ofToken, hcuts.extract_next hts]
  exact ⟨by omega, by omega,
    covers_ofToken (hcuts.kind_ne_finish hts) (hnames t (by simp [hts])) _⟩

/-- **What a fragment stands for** is the text of its token. -/
theorem piece_of_table (hcuts : Token.Cuts s ts) (htable : p.fragments = table config ts)
    {tagText : Nat → Option Text → Text}
    (htagText : ∀ i f g binding, 0 < i → p.fragments[i]? = some f → p.fragments[i + 1]? = some g →
      p.tags.lookup i = some binding → tagText i binding = s.extract f.offset g.offset)
    {front rest : List Token} {t u : Token} (hts : ts = front ++ t :: u :: rest) :
    (match p.tags.lookup (front.length + 1) with
      | some binding => tagText (front.length + 1) binding
      | none => Regex.unescape (ofToken config t (u :: rest)).pattern) = t.text := by
  have hf : p.fragments[front.length + 1]? = some (ofToken config t (u :: rest)) := by
    rw [htable, hts]
    exact getElem?_table_append front t (u :: rest)
  have hg : p.fragments[front.length + 1 + 1]? = some (ofToken config u rest) := by
    rw [htable, show ts = (front ++ [t]) ++ u :: rest by simp [hts]]
    have hlength : front.length + 1 + 1 = (front ++ [t]).length + 1 := by simp
    rw [hlength]
    exact getElem?_table_append (front ++ [t]) u rest
  have hlookup := p.lookup_tags (front.length + 1)
  rw [hf, Option.bind_some, tag?_ofToken] at hlookup
  by_cases htag : t.kind = .tag
  · rw [if_pos htag] at hlookup
    have hpart := htagText _ _ _ _ (Nat.succ_pos _) hf hg hlookup
    rw [offset_ofToken, offset_ofToken, hcuts.extract_next hts] at hpart
    simp only [hlookup, hpart]
  · rw [if_neg htag] at hlookup
    simp only [hlookup]
    rw [ofToken_of_text config _ htag (hcuts.kind_ne_finish hts)]
    exact Regex.unescape_escape t.text

/-- **The patterns and the texts of the tags make up the text.** -/
theorem rebuild_of_table (hcuts : Token.Cuts s ts) (htable : p.fragments = table config ts)
    {tagText : Nat → Option Text → Text}
    (htagText : ∀ i f g binding, 0 < i → p.fragments[i]? = some f → p.fragments[i + 1]? = some g →
      p.tags.lookup i = some binding → tagText i binding = s.extract f.offset g.offset) :
    Program.rebuild tagText (p.fragments.map Fragment.pattern) p.tags = s := by
  obtain ⟨lead, hlead, -⟩ := hcuts.finish
  have htext : lead.flatMap Token.text = s := by
    rw [← hcuts.text, hlead, List.flatMap_append, List.flatMap_singleton, List.append_nil]
  have hne : (ofTokens config ts).map Fragment.pattern ≠ [] := by
    rw [hlead]
    cases lead <;> simp [ofTokens]
  generalize hfinish : Token.mk s.length .finish [] = finish at hlead
  rw [Program.rebuild, htable, table, List.map_cons, List.dropLast_cons_of_ne_nil hne,
    List.zipIdx_cons, List.drop_succ_cons, List.drop_zero, hlead, ← htext]
  refine flatMap_patterns fun front t back hback => ?_
  obtain ⟨u, rest, hrest⟩ := List.exists_cons_of_ne_nil (show back ++ [finish] ≠ [] by simp)
  have hts : ts = front ++ t :: u :: rest := by
    rw [hlead, hback, List.append_assoc, List.cons_append, hrest]
  rw [hrest]
  simpa only [Nat.add_comm 1] using piece_of_table hcuts htable htagText hts

end Literal

namespace Compiler

variable {config : Config} {switches : Switches} {text : Text} {p : Program}

/-- **The fragments cover the text and give it back.**  Where spacing is kept and no input is recognised,
the fragments behind the first one are the tokens of the text without the newlines at its end, and the
last of them is the end.  Each of the others covers the text from its offset to that of the next one: it
is no tag, and what it covers is escaped in its pattern, or it is one, and binds the name of what it
covers.  So the text is made up of the patterns and the texts of the tags, and where two characters mark a
tag, of the patterns and what the tags bind. -/
theorem fragments_rebuild (hoff : switches.inputs = false)
    (h : compile .literal config switches text = .ok p) :
    (∃ fragments lead, p.fragments = ⟨0, .start⟩ :: fragments ∧
      List.Forall₂ (Token.Becomes config) (tokens .literal config switches text) fragments ∧
      tokens .literal config switches text =
        lead ++ [⟨(Text.trimNewlines text).length, .finish, []⟩] ∧
      ∀ t ∈ lead, t.kind ≠ .finish) ∧
    (∀ i f g, 0 < i → p.fragments[i]? = some f → p.fragments[i + 1]? = some g →
      f.offset ≤ g.offset ∧ g.offset ≤ (Text.trimNewlines text).length ∧
      f.Covers config (p.tags.lookup i) ((Text.trimNewlines text).extract f.offset g.offset)) ∧
    (∀ tagText : Nat → Option Text → Text,
      (∀ i f g binding, 0 < i → p.fragments[i]? = some f → p.fragments[i + 1]? = some g →
        p.tags.lookup i = some binding →
        tagText i binding = (Text.trimNewlines text).extract f.offset g.offset) →
      Program.rebuild tagText (p.fragments.map Fragment.pattern) p.tags = Text.trimNewlines text) ∧
    ∀ opening closing, config.tags = .delimited opening closing →
      Program.rebuild (fun _ binding => opening :: binding.getD config.ellipsis ++ [closing])
        (p.fragments.map Fragment.pattern) p.tags = Text.trimNewlines text := by
  have hcuts : Token.Cuts (Text.trimNewlines text) (tokens .literal config switches text) :=
    Lexeme.cuts_ofText hoff _
  have hnames := isSome_nameOf?_of_compile hoff h
  have htable := fragments_of_compile h
  obtain ⟨lead, hlead, hkinds⟩ := hcuts.finish
  refine ⟨⟨_, lead, htable, Literal.forall₂_becomes config _, hlead, hkinds⟩,
    fun i f g => Literal.covers_of_table hcuts htable hnames,
    fun tagText => Literal.rebuild_of_table hcuts htable,
    fun opening closing hrule => Literal.rebuild_of_table hcuts htable
      fun i f g binding hi hf hg hbinding => ?_⟩
  -- the name determines how the tag is written
  obtain ⟨-, name, hname, rfl⟩ :=
    (Literal.covers_of_table hcuts htable hnames hi hf hg).2.2.tag binding hbinding
  rw [hrule] at hname
  rw [TagRule.eq_of_nameOf? hname]
  by_cases hellipsis : name = config.ellipsis <;> simp [hellipsis]

/-- A transcript with two tags and two newlines at its end. -/
theorem rebuild_listing :
    ∃ p, compile .literal .standard ⟨true, false⟩ "a.b <x>\n<...> c\n\n".toList = .ok p ∧
      p.fragments.map Fragment.pattern = ["\\A".toList, "a\\.b".toList, " ".toList,
        "(?P<x>.*?)".toList, "\n".toList, "(?:.*?)".toList, " ".toList, "c".toList,
        "\\n*\\z".toList] ∧
      p.tags = [(3, some "x".toList), (5, none)] ∧
      Program.rebuild (fun _ binding => '<' :: binding.getD "...".toList ++ ['>'])
        (p.fragments.map Fragment.pattern) p.tags = "a.b <x>\n<...> c".toList := by
  have htokens : tokens .literal .standard ⟨true, false⟩ "a.b <x>\n<...> c\n\n".toList =
      [⟨0, .literal, "a.b".toList⟩, ⟨3, .spaces, " ".toList⟩, ⟨4, .tag, "<x>".toList⟩,
        ⟨7, .newlines, "\n".toList⟩, ⟨8, .tag, "<...>".toList⟩, ⟨13, .spaces, " ".toList⟩,
        ⟨14, .literal, "c".toList⟩, ⟨15, .finish, []⟩] := by decide +kernel
  obtain ⟨p, hp⟩ := exists_compile_eq_ok htokens (by decide +kernel) (by decide +kernel)
  obtain ⟨-, -, -, hrebuild⟩ := fragments_rebuild rfl hp
  refine ⟨p, hp, ?_, ?_, hrebuild '<' '>' rfl⟩
  · rw [fragments_of_compile hp, htokens]
    decide +kernel
  · rw [Program.tags, fragments_of_compile hp, htokens]
    decide +kernel

/-! ### A name that may be written in two ways -/

/-- Tags in angle brackets or in round ones. -/
def angledOrRound : TagRule :=
  let either (angled round : Char) : CharClass :=
    .union (.union .empty (.single angled)) (.single round)
  ⟨.concat [.char (either '<' '('),
    .group TagRule.nameGroup (.concat [.plus (.char (.union .empty (.range 'a' 'z'))) true]),
    .char (either '>' ')')]⟩

/-- **A program does not say how its tags are written.**  A rule may write a name in two ways, and no
function of the patterns, the offsets and the names gives back the text. -/
theorem not_exists_rebuild :
    TagRule.read "[<(](?P<name>[a-z]+)[>)]".toList = .ok angledOrRound ∧
      ¬ ∃ rebuild : List Text → List Nat → List (Nat × Option Text) → Text, ∀ text p,
        compile .literal { Config.standard with tags := angledOrRound } ⟨true, false⟩ text = .ok p →
          rebuild (p.fragments.map Fragment.pattern) (p.fragments.map Fragment.offset) p.tags =
            Text.trimNewlines text := by
  refine ⟨rfl, fun ⟨rebuild, hrebuild⟩ => ?_⟩
  let config := { Config.standard with tags := angledOrRound }
  have htokens : tokens .literal config ⟨true, false⟩ "<x>".toList =
      [⟨0, .tag, "<x>".toList⟩, ⟨3, .finish, []⟩] := by decide +kernel
  have htokens' : tokens .literal config ⟨true, false⟩ "(x)".toList =
      [⟨0, .tag, "(x)".toList⟩, ⟨3, .finish, []⟩] := by decide +kernel
  obtain ⟨p, hp⟩ := exists_compile_eq_ok htokens (by decide +kernel) (by decide +kernel)
  obtain ⟨p', hp'⟩ := exists_compile_eq_ok htokens' (by decide +kernel) (by decide +kernel)
  -- the two programs have the same fragments
  have hfragments : p.fragments = p'.fragments := by
    rw [fragments_of_compile hp, fragments_of_compile hp', htokens, htokens']
    decide +kernel
  have hangled := hrebuild _ p hp
  rw [Program.tags, hfragments] at hangled
  exact absurd (hangled.symm.trans (hrebuild _ p' hp')) (by decide +kernel)

end Compiler

end Transcript
