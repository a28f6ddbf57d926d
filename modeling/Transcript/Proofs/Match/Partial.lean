/-
**How far an output agrees.**

The first fragments of a program are a program of their own, and an output that more of them match is
matched by fewer of them.  So the numbers of leading fragments that match are those up to a greatest
one, and halving the distance between a number that matches and one that does not finds it.

Main definitions:

* `Transcript.Matcher.Longest` — what is found is as long as it can be.

Main results:

* `Transcript.Matcher.bisect_spec` — halving ends between a number that satisfies a condition and the
  next one, which does not;
* `Transcript.Compiler.leads_iff` — the first fragments of a program match where they fit;
* `Transcript.Compiler.partialMatch_longest` — **a partial match is the longest one**.
-/

import Transcript.Proofs.Compile.Groups
import Transcript.Proofs.Compile.Literal

set_option relaxedAutoImplicit false
set_option autoImplicit false

namespace Transcript

/-! ### Halving -/

namespace Matcher

/-- Halving ends at a number that satisfies the condition while the next one does not. -/
theorem bisect_spec {holds : Nat → Bool} {fuel : Nat} :
    ∀ {low high : Nat}, low < high → high - low ≤ fuel → holds low = true → holds high = false →
      bisect holds fuel low high < high ∧ holds (bisect holds fuel low high) = true ∧
        holds (bisect holds fuel low high + 1) = false := by
  induction fuel with
  | zero =>
      intro low high hlt hfuel
      omega
  | succ fuel ih =>
      intro low high hlt hfuel hlow hhigh
      by_cases hmore : low + 1 < high
      · simp only [bisect, if_pos hmore]
        -- both halves are shorter, and each of them begins and ends as the whole does
        cases hmiddle : holds ((low + high) / 2) with
        | true => exact ih (by omega) (by omega) hmiddle hhigh
        | false =>
            obtain ⟨hless, hends⟩ := ih (by omega) (by omega) hlow hmiddle
            exact ⟨Nat.lt_of_lt_of_le hless (by omega), hends⟩
      · simp only [bisect, if_neg hmore]
        obtain rfl : high = low + 1 := by omega
        exact ⟨hlt, hlow, hhigh⟩

/-- What is found is as long as it can be: so many leading fragments match and no more, and where not
all of them do, the offset is that of the first one that does not. -/
structure Longest (m : Matcher) (output : Text) (found : PartialMatch) : Prop where
  pos : 1 ≤ found.matched
  le_length : found.matched ≤ m.program.fragments.length
  leads : m.leads output found.matched = true
  greatest : ∀ count ≤ m.program.fragments.length, m.leads output count = true →
    count ≤ found.matched
  isComplete_iff : found.isComplete = true ↔ m.isMatch output = true
  all_of_isMatch : m.isMatch output = true → found.matched = m.program.fragments.length
  failedAt_of_not_isMatch : m.isMatch output = false →
    ∃ f, m.program.fragments[found.matched]? = some f ∧ found.failedAt = some f.offset

end Matcher

/-! ### Leading fragments -/

namespace Fragment

theorem Fits.take {fragments : List Fragment} {c : Cursor} (h : Fits fragments c) (count : Nat) :
    Fits (fragments.take count) c := by
  induction fragments generalizing c count with
  | nil =>
      rw [List.take_nil]
      exact h
  | cons f fragments ih =>
      cases count with
      | zero => exact ⟨c, .nil c⟩
      | succ count =>
          obtain ⟨s, d, hreads, hadmits, hrest⟩ := fits_cons.1 h
          exact fits_cons.2 ⟨s, d, hreads, hadmits, ih hrest count⟩

/-- The fragment that begins where the output does fits there, and leads nowhere else. -/
theorem fits_start {offset : Nat} {fragments : List Fragment} {output : Text} :
    Fits (⟨offset, .start⟩ :: fragments) (Cursor.start output) ↔
      Fits fragments (Cursor.start output) := by
  rw [fits_cons]
  constructor
  · rintro ⟨s, d, hreads, ⟨rfl, -⟩, hrest⟩
    rwa [hreads.eq_of_nil] at hrest
  · exact fun hrest => ⟨[], _, .refl _, ⟨rfl, rfl⟩, hrest⟩

theorem isMatch_nil (output : Text) : (regex []).isMatch output = true := by
  have hsearch := Regex.searchFrom_eq (r := .empty) rfl (Cursor.start output)
  rw [Regex.matchesAt, Regex.ways_empty, List.map_cons, List.cons_append, List.head?_cons] at hsearch
  have hregex : regex [] = .empty := rfl
  rw [hregex, Regex.isMatch, Regex.search, hsearch]
  rfl

end Fragment

namespace Compiler

open Fragment

variable {policy : Policy} {config : Config} {switches : Switches} {text : Text} {p : Program}

/-- The first fragment of a program is the beginning of the output. -/
theorem exists_start_of_compile (h : compile policy config switches text = .ok p) :
    ∃ fragments, p.fragments = ⟨0, .start⟩ :: fragments := by
  cases policy with
  | normalize => exact ⟨_, fragments_of_compile h⟩
  | literal => exact ⟨_, fragments_of_compile h⟩

/-- The first fragments of a program are read as their expressions. -/
theorem leading?_of_compile (hnamed : config.tags.Named)
    (h : compile policy config switches text = .ok p) (count : Nat) :
    p.leading? count = some (regex (p.fragments.take count)) :=
  read?_join_of_compile hnamed h (List.take_sublist count p.fragments)

/-- Fragments that are read as their expressions match where they fit. -/
theorem leads_iff_of_leading? {fragments : List Fragment} {count : Nat}
    (hfragments : p.fragments = ⟨0, .start⟩ :: fragments)
    (hread : p.leading? count = some (regex (p.fragments.take count))) (m : Matcher)
    (hm : m.program = p) (output : Text) :
    m.leads output count = true ↔ Fits (p.fragments.take count) (Cursor.start output) := by
  rw [Matcher.leads, hm, hread, Option.any_some]
  cases count with
  | zero => exact iff_of_true (isMatch_nil output) ⟨_, .nil _⟩
  | succ count => rw [hfragments, List.take_succ_cons, isMatch_start_iff, fits_start]

/-- **The first fragments of a program match where they fit.** -/
theorem leads_iff (hnamed : config.tags.Named) (h : compile policy config switches text = .ok p)
    (output : Text) (count : Nat) :
    (Matcher.mk p (regex p.fragments)).leads output count = true ↔
      Fits (p.fragments.take count) (Cursor.start output) := by
  obtain ⟨fragments, hfragments⟩ := exists_start_of_compile h
  exact leads_iff_of_leading? hfragments (leading?_of_compile hnamed h count) _ rfl output

theorem leads_length (hnamed : config.tags.Named) (h : compile policy config switches text = .ok p)
    (output : Text) :
    (Matcher.mk p (regex p.fragments)).leads output p.fragments.length =
      (Matcher.mk p (regex p.fragments)).isMatch output := by
  rw [Matcher.leads, leading?_of_compile hnamed h, List.take_length, Option.any_some, Matcher.isMatch]

/-- An output that more fragments match is matched by fewer of them. -/
theorem leads_of_le (hnamed : config.tags.Named) (h : compile policy config switches text = .ok p)
    {output : Text} {count count' : Nat} (hle : count ≤ count')
    (hleads : (Matcher.mk p (regex p.fragments)).leads output count' = true) :
    (Matcher.mk p (regex p.fragments)).leads output count = true := by
  rw [leads_iff hnamed h] at hleads ⊢
  have hfits := hleads.take count
  rwa [List.take_take, Nat.min_eq_left hle] at hfits

/-- What is found where the whole program does not match. -/
theorem bisect_longest (hnamed : config.tags.Named)
    (h : compile policy config switches text = .ok p) {output : Text}
    (hmatch : (Matcher.mk p (regex p.fragments)).isMatch output = false) :
    (Matcher.mk p (regex p.fragments)).Longest output
      ((Matcher.mk p (regex p.fragments)).partialMatch output) := by
  obtain ⟨fragments, hfragments⟩ := exists_start_of_compile h
  have hpos : 0 < p.fragments.length := by simp [hfragments]
  have hzero : (Matcher.mk p (regex p.fragments)).leads output 0 = true :=
    (leads_iff hnamed h output 0).2 ⟨_, .nil _⟩
  have hone : (Matcher.mk p (regex p.fragments)).leads output 1 = true := by
    rw [leads_iff hnamed h, hfragments]
    exact fits_start.2 ⟨_, .nil _⟩
  have hall := (leads_length hnamed h output).trans hmatch
  obtain ⟨hless, hholds, hnext⟩ := Matcher.bisect_spec hpos (Nat.le_refl _) hzero hall
  simp only [Matcher.partialMatch, hmatch, Bool.false_eq_true, if_false]
  generalize Matcher.bisect _ _ _ _ = matched at hless hholds hnext
  have hgreatest (count : Nat)
      (hcount : (Matcher.mk p (regex p.fragments)).leads output count = true) : count ≤ matched := by
    refine Nat.not_lt.1 fun hlt => ?_
    rw [leads_of_le hnamed h hlt hcount] at hnext
    exact Bool.noConfusion hnext
  have hfailed := List.getElem?_eq_getElem hless
  exact {
    pos := hgreatest 1 hone
    le_length := Nat.le_of_lt hless
    leads := hholds
    greatest := fun count _ => hgreatest count
    isComplete_iff := by simp [PartialMatch.isComplete, hfailed, hmatch]
    all_of_isMatch := by simp [hmatch]
    failedAt_of_not_isMatch := fun _ => ⟨_, hfailed, by rw [hfailed]; rfl⟩ }

/-- What is found where the whole program matches. -/
theorem longest_of_isMatch (hnamed : config.tags.Named)
    (h : compile policy config switches text = .ok p) {output : Text}
    (hmatch : (Matcher.mk p (regex p.fragments)).isMatch output = true) :
    (Matcher.mk p (regex p.fragments)).Longest output
      ((Matcher.mk p (regex p.fragments)).partialMatch output) := by
  obtain ⟨fragments, hfragments⟩ := exists_start_of_compile h
  simp only [Matcher.partialMatch, hmatch, if_true]
  exact {
    pos := by simp [hfragments]
    le_length := Nat.le_refl _
    leads := (leads_length hnamed h output).trans hmatch
    greatest := fun count hle _ => hle
    isComplete_iff := iff_of_true rfl hmatch
    all_of_isMatch := fun _ => rfl
    failedAt_of_not_isMatch := by simp [hmatch] }

/-- **A partial match is the longest one.**  The first fragments of a program can be read, however
many they are, and so can the whole program.  Of the numbers of leading fragments that match an
output, each is followed down to zero by the smaller ones, and the partial match finds the
greatest. -/
theorem partialMatch_longest (htags : ∃ opening closing, config.tags = .delimited opening closing)
    (h : compile policy config switches text = .ok p) :
    (∀ count, (p.leading? count).isSome = true) ∧
      ∃ m, p.matcher? = some m ∧ ∀ output,
        (∀ count count', count ≤ count' → m.leads output count' = true →
          m.leads output count = true) ∧
        m.Longest output (m.partialMatch output) := by
  have hnamed := TagRule.named_of_exists htags
  refine ⟨fun count => by rw [leading?_of_compile hnamed h]; rfl, _, matcher?_of_compile hnamed h,
    fun output => ⟨fun count count' hle => leads_of_le hnamed h hle, ?_⟩⟩
  cases hmatch : (Matcher.mk p (regex p.fragments)).isMatch output with
  | true => exact longest_of_isMatch hnamed h hmatch
  | false => exact bisect_longest hnamed h hmatch

theorem partialMatch_eq {fragments : List Fragment} (h : p.fragments = fragments) (output : Text) :
    (Matcher.mk p (regex p.fragments)).partialMatch output =
      (Matcher.mk ⟨fragments, [], []⟩ (regex fragments)).partialMatch output := by
  obtain ⟨fragments', inputs, warnings⟩ := p
  obtain rfl : fragments' = fragments := h
  rfl

/-- An output that agrees up to its last word. -/
theorem partialMatch_bye :
    ∃ p m, compile .literal .standard ⟨true, true⟩ "say <x>\nhello".toList = .ok p ∧
      p.matcher? = some m ∧ m.Longest "say it\nbye".toList (m.partialMatch "say it\nbye".toList) ∧
      m.partialMatch "say it\nbye".toList = ⟨5, some 8⟩ := by
  have htokens : tokens .literal .standard ⟨true, true⟩ "say <x>\nhello".toList =
      [⟨0, .literal, "say".toList⟩, ⟨3, .spaces, " ".toList⟩, ⟨4, .tag, "<x>".toList⟩,
        ⟨7, .newlines, "\n".toList⟩, ⟨8, .literal, "hello".toList⟩, ⟨13, .finish, []⟩] := by
    decide +kernel
  obtain ⟨p, hp⟩ := exists_compile_eq_ok htokens (by decide +kernel) (by decide +kernel)
  have hfragments : p.fragments = [⟨0, .start⟩, ⟨0, .literal "say".toList⟩,
      ⟨3, .literal " ".toList⟩, ⟨4, .tag (some "x".toList) .bare false⟩, ⟨7, .literal "\n".toList⟩,
      ⟨8, .literal "hello".toList⟩, ⟨13, .finish .newlines⟩] := by
    rw [fragments_of_compile hp, htokens]
    decide +kernel
  obtain ⟨-, m, hm, hpartial⟩ := partialMatch_longest ⟨'<', '>', rfl⟩ hp
  have hmatcher := eq_of_matcher? TagRule.named_delimited hp hm
  refine ⟨p, m, hp, hm, (hpartial _).2, ?_⟩
  rw [hmatcher, partialMatch_eq hfragments]
  decide +kernel

end Compiler

end Transcript
