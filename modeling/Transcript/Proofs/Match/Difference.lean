/-
**Where an output differs.**

Without tags and inputs, and with spacing kept, a program matches one text with any number of newlines
behind it.  An output that it does not match agrees with the text up to some character.  The partial
match stops at the token in which this character stands, or at the end if the whole text is there, and
what is reported is where this token begins, with the line of that place.

Main definitions:

* `Transcript.Text.agreement` — how far two texts agree;
* `Transcript.Token.Meets` — the token in which a position of the text lies.

Main results:

* `Transcript.Text.take_prefix_iff` — how far one text begins the other;
* `Transcript.exists_line_of_le` — the line in which an offset lies;
* `Transcript.Compiler.exists_compile_of_untagged` — a text without tags compiles;
* `Transcript.Literal.leads_iff_le_agreement` — how many leading fragments match;
* `Transcript.Compiler.partialMatch_difference` — **an output differs in the token that is reported**.
-/

import Transcript.Command
import Transcript.Proofs.Compile.Rebuilding
import Transcript.Proofs.Match.Decomposition
import Transcript.Proofs.Match.Partial

set_option relaxedAutoImplicit false
set_option autoImplicit false

namespace Transcript

/-! ### How far two texts agree -/

namespace Text

/-- The number of characters up to which two texts are the same. -/
def agreement : Text → Text → Nat
  | a :: s, b :: t => if a = b then agreement s t + 1 else 0
  | _, _ => 0

theorem agreement_le (s t : Text) : agreement s t ≤ s.length := by
  induction s generalizing t with
  | nil => exact Nat.le_refl 0
  | cons a s ih =>
      cases t with
      | nil => exact Nat.zero_le _
      | cons b t =>
          rw [agreement]
          split
          · exact Nat.succ_le_succ (ih t)
          · exact Nat.zero_le _

/-- **How far one text begins the other**: as far as the two agree, and no further. -/
theorem take_prefix_iff {s t : Text} {n : Nat} (hn : n ≤ s.length) :
    s.take n <+: t ↔ n ≤ agreement s t := by
  induction s generalizing t n with
  | nil =>
      obtain rfl : n = 0 := Nat.le_zero.1 hn
      simp
  | cons a s ih =>
      cases n with
      | zero => simp
      | succ n =>
          cases t with
          | nil => simp [agreement]
          | cons b t =>
              rw [List.take_succ_cons, List.cons_prefix_cons, ih (Nat.le_of_succ_le_succ hn), agreement]
              by_cases heq : a = b <;> simp [heq]

end Text

/-! ### Lines -/

/-- **The line in which an offset lies.**  The lines are what newlines separate, and the offset lies in the
one with its number, or at its end. -/
theorem exists_line_of_le {text : Text} {offset : Nat} (h : offset ≤ text.length) :
    ∃ before line behind, text.splitOn '\n' = before ++ line :: behind ∧
      lineNumber text offset = before.length + 1 ∧
      (before.flatMap (· ++ ['\n'])).length ≤ offset ∧
      offset ≤ (before.flatMap (· ++ ['\n'])).length + line.length := by
  induction text generalizing offset with
  | nil =>
      obtain rfl : offset = 0 := Nat.le_zero.1 h
      exact ⟨[], [], [], rfl, rfl, Nat.le_refl 0, Nat.le_refl 0⟩
  | cons c text ih =>
      cases offset with
      | zero =>
          obtain ⟨line, behind, hlines⟩ :=
            List.exists_cons_of_ne_nil (List.splitOn_ne_nil '\n' (c :: text))
          exact ⟨[], line, behind, hlines, rfl, Nat.le_refl 0, Nat.zero_le _⟩
      | succ offset =>
          obtain ⟨before, line, behind, hlines, hnumber, hbegin, hend⟩ :=
            ih (Nat.le_of_succ_le_succ h)
          have hnumber' : lineNumber (c :: text) (offset + 1) =
              before.length + 1 + if c = '\n' then 1 else 0 := by
            rw [← hnumber, lineNumber, lineNumber, List.take_succ_cons, List.count_cons]
            by_cases hc : c = '\n' <;> simp [hc]
          rw [hnumber', List.splitOn_cons_eq_if_modifyHead, hlines]
          by_cases hc : c = '\n'
          · -- a line ends here
            refine ⟨[] :: before, line, behind, by simp [hc], by simp [hc], ?_, ?_⟩ <;>
              simp only [List.flatMap_cons, List.length_append, List.length_cons, List.length_nil] <;>
              omega
          · have hbeq : (c == '\n') = false := by simpa using hc
            cases before with
            | nil =>
                refine ⟨[], c :: line, behind, by simp [hbeq], by simp [hc], Nat.zero_le _, ?_⟩
                simp only [List.flatMap_nil, List.length_cons, List.length_nil] at hend ⊢
                omega
            | cons first before =>
                refine ⟨(c :: first) :: before, line, behind, by simp [hbeq], by simp [hc], ?_, ?_⟩ <;>
                  simp only [List.flatMap_cons, List.length_append, List.length_cons] at hbegin hend ⊢ <;>
                  omega

/-! ### Texts without tags -/

namespace Literal

variable {config : Config} {lead : List Token} {finish : Token}

/-- Tokens that are no tags become their texts. -/
theorem ofTokens_of_untagged (hfinish : finish.kind = .finish)
    (hlead : ∀ t ∈ lead, t.kind ≠ .tag ∧ t.kind ≠ .finish) :
    ofTokens config (lead ++ [finish]) =
      lead.map (fun t => ⟨t.offset, .literal t.text⟩) ++ [⟨finish.offset, .finish .newlines⟩] := by
  induction lead with
  | nil => rw [List.nil_append, ofTokens, ofTokens, ofToken_of_finish config [] hfinish]; rfl
  | cons t lead ih =>
      obtain ⟨htag, hkind⟩ := hlead t (List.mem_cons_self ..)
      rw [List.cons_append, ofTokens, ofToken_of_text config _ htag hkind,
        ih fun u hu => hlead u (List.mem_cons_of_mem _ hu), List.map_cons, List.cons_append]

/-- Texts one after the other fit where they come next. -/
theorem fits_literals_iff (ts : List Token) {c : Cursor} :
    Fragment.Fits (ts.map fun t => ⟨t.offset, .literal t.text⟩) c ↔
      ts.flatMap Token.text <+: c.after := by
  induction ts generalizing c with
  | nil => exact iff_of_true ⟨c, .nil c⟩ List.nil_prefix
  | cons t ts ih =>
      rw [List.map_cons, Fragment.fits_cons, List.flatMap_cons]
      constructor
      · rintro ⟨s, d, hreads, rfl, hrest⟩
        rw [hreads.after, List.prefix_append_right_inj]
        exact ih.1 hrest
      · rintro ⟨rest, hrest⟩
        rw [List.append_assoc] at hrest
        exact ⟨t.text, _, Cursor.reads_past hrest.symm, rfl, ih.2 (List.prefix_append _ _)⟩

end Literal

namespace Token

/-- The position lies in the token, or the token is the end and the position is that of the end. -/
def Meets (s : Text) (position : Nat) (t : Token) : Prop :=
  t.offset ≤ position ∧
    (position < t.offset + t.text.length ∨ t.kind = .finish ∧ position = s.length)

namespace Cuts

variable {s : Text} {ts front back : List Token} {t : Token}

/-- The tokens in front of the one that a position lies in are those that end before the position. -/
theorem length_filter_of_meets (h : Cuts s ts) (hts : ts = front ++ t :: back) {position : Nat}
    (hmeets : t.Meets s position) :
    (ts.filter fun u => u.kind ≠ .finish ∧ u.offset + u.text.length ≤ position).length =
      front.length := by
  obtain ⟨hle, hmeets⟩ := hmeets
  have hfront : ∀ u ∈ front, u.kind ≠ .finish ∧ u.offset + u.text.length ≤ position := by
    intro u hu
    obtain ⟨before, middle, rfl⟩ := List.append_of_mem hu
    have hsplit : ts = before ++ u :: (middle ++ t :: back) := by simp [hts]
    have hnext := h.offset_of_before hsplit
    refine ⟨?_, by omega⟩
    obtain ⟨v, rest, hrest⟩ := List.exists_cons_of_ne_nil (show middle ++ t :: back ≠ [] by simp)
    rw [hrest] at hsplit
    exact h.kind_ne_finish hsplit
  have hback : ∀ u ∈ t :: back, ¬ (u.kind ≠ .finish ∧ u.offset + u.text.length ≤ position) := by
    rintro u hu ⟨hkind, hbefore⟩
    rcases List.mem_cons.1 hu with rfl | hu
    · rcases hmeets with hlt | ⟨hfinish, -⟩
      · omega
      · exact hkind hfinish
    · obtain ⟨middle, rest, rfl⟩ := List.append_of_mem hu
      have hnext := h.offset_of_before hts
      rcases hmeets with hlt | ⟨hfinish, -⟩
      · omega
      · -- nothing stands behind the end
        obtain ⟨v, rest', hrest⟩ := List.exists_cons_of_ne_nil (show middle ++ u :: rest ≠ [] by simp)
        rw [hrest] at hts
        exact h.kind_ne_finish hts hfinish
  rw [hts, List.filter_append, List.filter_eq_self.2 fun u hu => decide_eq_true (hfront u hu),
    List.filter_eq_nil_iff.2 fun u hu => by simpa using hback u hu, List.append_nil]

end Cuts

end Token

namespace Fragment

theorem read?_join_of_untagged {fragments : List Fragment} (h : ∀ f ∈ fragments, f.shape.tag? = none) :
    Regex.read? .program (join fragments) = some (regex fragments) := by
  have hgroups : (fragments.flatMap fun f => f.shape.groups) = [] := by
    rw [List.flatMap_eq_nil_iff]
    intro f hf
    rw [Shape.groups, h f hf]
    rfl
  exact read?_join (by rw [hgroups]; exact .nil) (by simp [hgroups])

end Fragment

namespace Compiler

/-- **A text without tags compiles** where no input is recognised. -/
theorem exists_compile_of_untagged {policy : Policy} {config : Config} {switches : Switches} {text : Text}
    (hoff : switches.inputs = false)
    (htags : ∀ t ∈ tokens policy config switches text, t.kind ≠ .tag) :
    ∃ p, compile policy config switches text = .ok p := by
  have hcuts : Token.Cuts (policy.scope text) (tokens policy config switches text) :=
    Lexeme.cuts_ofText hoff _
  obtain ⟨lead, hlead, -⟩ := hcuts.finish
  have hmap := map_tagged_compile policy config hoff text
  rw [Ledger.run_of_ne_tag htags (by simp [hlead])] at hmap
  cases hresult : compile policy config switches text with
  | error e =>
      rw [hresult] at hmap
      cases hmap
  | ok p => exact ⟨p, rfl⟩

end Compiler

namespace Literal

open Fragment

variable {config : Config} {s : Text} {ts : List Token} {p : Program}

theorem tag?_of_untagged (htable : p.fragments = table config ts) (htags : ∀ t ∈ ts, t.kind ≠ .tag) :
    ∀ f ∈ p.fragments, f.shape.tag? = none := by
  intro f hf
  rw [htable, table, List.mem_cons] at hf
  rcases hf with rfl | hf
  · rfl
  · obtain ⟨i, hi⟩ := List.getElem?_of_mem hf
    rw [getElem?_ofTokens] at hi
    obtain ⟨t, ht, rfl⟩ := Option.map_eq_some_iff.1 hi
    rw [tag?_ofToken, if_neg (htags t (List.mem_of_getElem? ht))]

theorem leading?_of_untagged (htable : p.fragments = table config ts) (htags : ∀ t ∈ ts, t.kind ≠ .tag)
    (count : Nat) : p.leading? count = some (regex (p.fragments.take count)) :=
  read?_join_of_untagged fun f hf => tag?_of_untagged htable htags f (List.mem_of_mem_take hf)

/-- **How many leading fragments match.**  The fragments in front of a token do if the output agrees with
the text up to this token. -/
theorem leads_iff_le_agreement (hcuts : Token.Cuts s ts) (htable : p.fragments = table config ts)
    (htags : ∀ t ∈ ts, t.kind ≠ .tag) {front back : List Token} {u : Token}
    (hts : ts = front ++ u :: back) (output : Text) :
    (Matcher.mk p (regex p.fragments)).leads output (front.length + 1) = true ↔
      u.offset ≤ Text.agreement s output := by
  obtain ⟨lead, hlead, hkinds⟩ := hcuts.finish
  obtain ⟨hs, hoffset⟩ := hcuts.split hts
  have hle := hcuts.offset_le (t := u) (by simp [hts])
  -- the fragments in front of the token are its texts
  obtain ⟨rest, rfl⟩ : ∃ rest, lead = front ++ rest := by
    have hdrop := congrArg List.dropLast (hlead.symm.trans hts)
    rw [List.dropLast_concat, List.dropLast_append_of_ne_nil (by simp)] at hdrop
    exact ⟨_, hdrop⟩
  have hfragments : p.fragments.take (front.length + 1) =
      ⟨0, .start⟩ :: front.map fun t => ⟨t.offset, .literal t.text⟩ := by
    rw [htable, table, hlead, ofTokens_of_untagged rfl fun t ht =>
        ⟨htags t (hlead ▸ List.mem_append_left _ ht), hkinds t ht⟩,
      List.take_succ_cons, List.map_append, List.append_assoc, List.take_append_of_le_length (by simp),
      List.take_of_length_le (by simp)]
  rw [Compiler.leads_iff_of_leading? htable (leading?_of_untagged htable htags _) _ rfl, hfragments, fits_start, fits_literals_iff,
    ← Text.take_prefix_iff (by omega), hoffset, hs, List.take_left]
  exact Iff.rfl

/-- Where the bisection stops: the fragments in front of some token match, and with its own they do not. -/
theorem exists_partialMatch_stop (htable : p.fragments = table config ts)
    (htags : ∀ t ∈ ts, t.kind ≠ .tag) {output : Text}
    (hmatch : (Matcher.mk p (regex p.fragments)).isMatch output = false) :
    ∃ front t back, ts = front ++ t :: back ∧
      (Matcher.mk p (regex p.fragments)).leads output (front.length + 1) = true ∧
      (Matcher.mk p (regex p.fragments)).leads output (front.length + 2) = false ∧
      (Matcher.mk p (regex p.fragments)).partialMatch output = ⟨front.length + 1, some t.offset⟩ := by
  have hcount : p.fragments.length = ts.length + 1 := by
    rw [htable, table, List.length_cons, ← (forall₂_becomes config _).length_eq]
  have hleads (count : Nat) := Compiler.leads_iff_of_leading? htable
    (leading?_of_untagged htable htags count) (Matcher.mk p (regex p.fragments)) rfl output
  -- the first fragment matches any output
  have hone : (Matcher.mk p (regex p.fragments)).leads output 1 = true := by
    rw [hleads, htable]
    exact fits_start.2 ⟨_, .nil _⟩
  have hall : (Matcher.mk p (regex p.fragments)).leads output p.fragments.length = false := by
    rw [Matcher.leads, leading?_of_untagged htable htags, Option.any_some, List.take_length]
    exact hmatch
  obtain ⟨hless, hholds, hnext⟩ := Matcher.bisect_spec (by omega) (Nat.le_refl _)
    ((hleads 0).2 ⟨_, .nil _⟩) hall
  simp only [Matcher.partialMatch, hmatch, Bool.false_eq_true, if_false]
  generalize Matcher.bisect _ _ _ _ = matched at hless hholds hnext
  obtain ⟨j, rfl⟩ : ∃ j, matched = j + 1 := by
    refine Nat.exists_eq_add_one_of_ne_zero fun hnil => ?_
    subst hnil
    exact absurd (hone.symm.trans hnext) (by simp)
  obtain ⟨front, back, hts, rfl⟩ := exists_append_of_getElem?
    (List.getElem?_eq_getElem (show j < ts.length by omega))
  generalize ts[front.length] = t at hts
  refine ⟨front, t, back, hts, hholds, hnext, ?_⟩
  rw [htable, hts, getElem?_table_append, Option.map_some, offset_ofToken]

/-- **The partial match stops at the token in which the output differs.** -/
theorem exists_partialMatch_eq (hcuts : Token.Cuts s ts) (htable : p.fragments = table config ts)
    (htags : ∀ t ∈ ts, t.kind ≠ .tag) {output : Text}
    (hmatch : (Matcher.mk p (regex p.fragments)).isMatch output = false) :
    ∃ front t back, ts = front ++ t :: back ∧ t.Meets s (Text.agreement s output) ∧
      (Matcher.mk p (regex p.fragments)).partialMatch output =
        ⟨1 + front.length, some t.offset⟩ := by
  obtain ⟨front, t, back, hts, hholds, hnext, hpartial⟩ := exists_partialMatch_stop htable htags hmatch
  have hbegins := (leads_iff_le_agreement hcuts htable htags hts output).1 hholds
  refine ⟨front, t, back, hts, ⟨hbegins, ?_⟩, by rw [hpartial, Nat.add_comm]⟩
  cases back with
  | nil =>
      -- all fragments but the last one match
      obtain ⟨lead, hlead, -⟩ := hcuts.finish
      have hlast := List.append_inj_right' (hlead.symm.trans hts) rfl
      obtain rfl := (List.cons.inj hlast).1
      exact Or.inr ⟨rfl, Nat.le_antisymm (Text.agreement_le s output) hbegins⟩
  | cons u back =>
      have hu := leads_iff_le_agreement hcuts htable htags
        (show ts = (front ++ [t]) ++ u :: back by simp [hts]) output
      rw [List.length_append, List.length_singleton, hnext, hcuts.offset_next hts] at hu
      exact Or.inl (Nat.lt_of_not_le fun hle => Bool.noConfusion (hu.2 hle))

end Literal

namespace Command

/-- **The report on an output that a program does not match.** -/
theorem run_of_not_isMatch {c : Command} {config : Config} {expected output : Text} {p : Program}
    {m : Matcher} (hconfig : c.config = .ok config)
    (hcompile : c.options.compile config expected = .ok p) (hm : p.matcher? = some m)
    (hmatch : m.isMatch output = false) :
    c.run expected (some output) = c.mismatch expected (m.partialMatch output) := by
  have hcaptures : m.captures? output = none := by
    rw [← Option.not_isSome_iff_eq_none, Matcher.isSome_captures?, hmatch]
    exact Bool.false_ne_true
  simp only [run, hconfig, hcompile, compare, hm, hcaptures]

end Command

namespace Compiler

/-- **An output differs in the token that is reported.**  A text without tags, in which no input is
recognised, compiles where spacing is kept, and its program can be matched.  If an output does not match,
the partial match stops at the token in which the first character lies that is not the same, or at the end
if the whole text is there.  Behind the first fragment, those that match are the tokens that end before
this character.  The command reports where the token begins, and the number of the line in which that
is. -/
theorem partialMatch_difference (config : Config) (tags : Bool) (text : Text)
    (hplain : ∀ t ∈ tokens .literal config ⟨tags, false⟩ text, t.kind ≠ .tag) :
    ∃ p m, compile .literal config ⟨tags, false⟩ text = .ok p ∧ p.matcher? = some m ∧
      ∀ output, m.isMatch output = false →
        let position := Text.agreement (Text.trimNewlines text) output
        ∃ t ∈ tokens .literal config ⟨tags, false⟩ text,
          t.Meets (Text.trimNewlines text) position ∧
          m.partialMatch output = ⟨1 + ((tokens .literal config ⟨tags, false⟩ text).filter fun u =>
            u.kind ≠ .finish ∧ u.offset + u.text.length ≤ position).length, some t.offset⟩ ∧
          ∃ before line behind, text.splitOn '\n' = before ++ line :: behind ∧
            (before.flatMap (· ++ ['\n'])).length ≤ t.offset ∧
            t.offset ≤ (before.flatMap (· ++ ['\n'])).length + line.length ∧
            ∀ c : Command, ∀ expected, c.config = .ok config → c.options.normalize = false →
              c.options.input = false → c.options.tags = tags → c.options.strip expected = text →
              c.run expected (some output) =
                .failure ("Output differs from the expected at character ".toList ++
                  Text.ofNat t.offset ++ " (line ".toList ++ Text.ofNat (before.length + 1) ++
                  ").".toList) := by
  have hcuts : Token.Cuts (Text.trimNewlines text) (tokens .literal config ⟨tags, false⟩ text) :=
    Lexeme.cuts_ofText rfl _
  obtain ⟨p, hp⟩ := exists_compile_of_untagged rfl hplain
  have htable := fragments_of_compile hp
  have hm : p.matcher? = some ⟨p, Fragment.regex p.fragments⟩ := by
    rw [Program.matcher?, Program.source,
      Fragment.read?_join_of_untagged (Literal.tag?_of_untagged htable hplain)]
    rfl
  refine ⟨p, _, hp, hm, fun output hmatch => ?_⟩
  obtain ⟨front, t, back, hts, hmeets, hpartial⟩ :=
    Literal.exists_partialMatch_eq hcuts htable hplain hmatch
  have hlength : t.offset ≤ text.length := by
    have hle := hcuts.offset_le (t := t) (by simp [hts])
    obtain ⟨k, hk⟩ := Text.exists_trimNewlines text
    rw [hk, List.length_append]
    omega
  obtain ⟨before, line, behind, hlines, hnumber, hbegin, hend⟩ := exists_line_of_le hlength
  refine ⟨t, by simp [hts], hmeets, ?_, before, line, behind, hlines, hbegin, hend, ?_⟩
  · rw [hpartial, hcuts.length_filter_of_meets hts hmeets]
  · intro c expected hconfig hnormalize hinput htags hstrip
    have hcompile : c.options.compile config expected = .ok p := by
      rw [Options.compile, Options.policy, Options.switches, hnormalize, hinput, htags, hstrip]
      exact hp
    rw [Command.run_of_not_isMatch hconfig hcompile hm hmatch, hpartial, ← hnumber, ← hstrip]
    rfl

/-- The last line of an output has another letter, and the command says so. -/
theorem partialMatch_six :
    ∃ p m, compile .literal .standard ⟨true, false⟩ "one\n two\n\nsix\n".toList = .ok p ∧
      p.matcher? = some m ∧ m.isMatch "one\n two\n\nsit".toList = false ∧
      m.partialMatch "one\n two\n\nsit".toList = ⟨6, some 10⟩ ∧
      Command.standard.run "one\n two\n\nsix\n".toList (some "one\n two\n\nsit".toList) =
        .failure "Output differs from the expected at character 10 (line 4).".toList := by
  have htokens : tokens .literal .standard ⟨true, false⟩ "one\n two\n\nsix\n".toList =
      [⟨0, .literal, "one".toList⟩, ⟨3, .newlines, "\n".toList⟩, ⟨4, .spaces, " ".toList⟩,
        ⟨5, .literal, "two".toList⟩, ⟨8, .newlines, "\n\n".toList⟩, ⟨10, .literal, "six".toList⟩,
        ⟨13, .finish, []⟩] := by decide +kernel
  obtain ⟨p, m, hp, hm, hdifference⟩ := partialMatch_difference .standard true
    "one\n two\n\nsix\n".toList (by rw [htokens]; decide)
  have hmatch : m.isMatch "one\n two\n\nsit".toList = false := by
    have hregex : m.regex = Fragment.regex p.fragments :=
      congrArg Matcher.regex (eq_of_matcher? TagRule.named_delimited hp hm)
    rw [Matcher.isMatch, hregex, fragments_of_compile hp, htokens]
    decide +kernel
  obtain ⟨t, ht, hmeets, hpartial, before, line, behind, hlines, hbegin, hend, hrun⟩ :=
    hdifference _ hmatch
  have hposition : Text.agreement (Text.trimNewlines "one\n two\n\nsix\n".toList)
    "one\n two\n\nsit".toList = 12 := by decide
  rw [hposition] at hmeets hpartial
  obtain rfl : t = ⟨10, .literal, "six".toList⟩ := by
    simp only [htokens, List.mem_cons, List.not_mem_nil, or_false] at ht
    rcases ht with rfl | rfl | rfl | rfl | rfl | rfl | rfl <;> simp [Token.Meets] at hmeets ⊢
  -- the lines in front are told by their lengths
  have hthree : before.length = 3 := by
    have hlengths : [3, 4, 0, 3, 0] =
        before.map List.length ++ line.length :: behind.map List.length := by
      rw [← List.map_cons, ← List.map_append, ← hlines]
      decide +kernel
    rcases before with _ | ⟨a, _ | ⟨b, _ | ⟨c, _ | ⟨d, rest⟩⟩⟩⟩ <;>
      simp only [List.map_nil, List.map_cons, List.nil_append, List.cons_append, List.cons.injEq,
        List.flatMap_cons, List.flatMap_nil, List.length_append, List.length_cons, List.length_nil]
        at hlengths hbegin hend ⊢ <;>
      omega
  refine ⟨p, m, hp, hm, hmatch, ?_, ?_⟩
  · rw [hpartial, htokens]
    rfl
  · rw [hthree] at hrun
    exact (hrun .standard _ (by decide) rfl rfl rfl rfl).trans (by decide +kernel)

end Compiler

end Transcript
