/-
**What a cue recognises.**

The cue of an input is matched against the output that was received before the input is typed.  That
output ends where the input is due, while the cue was taken from a program that goes on there.  A literal
and a run of white space look no further than one character ahead, and what they ask of it holds at the
end of the output too.  So wherever the fragments in front of the echo lead to a position of an output,
the cue matches a span of the output up to there that ends at this position; and as every fragment goes
through as many characters as it weighs, no such span is shorter than the lower bound.

Main definitions:

* `Transcript.Regex.Spans` — an expression may match a span of a text;
* `Transcript.Regex.Recognises` — **a cue recognises the output in front of its input**.

Main results:

* `Transcript.Fragment.Through.cut` — what fragments of a cue go through, they go through when nothing
  follows;
* `Transcript.Fragment.Through.total_le` — fragments go through what they weigh;
* `Transcript.Regex.isMatch_iff` — the search finds a match if there is one;
* `Transcript.Compiler.inputs_recognise` — **every cue recognises the output in front of its input**.
-/

import Transcript.Proofs.Compile.Cues
import Transcript.Proofs.Match.Partial
import Transcript.Proofs.Regex.Leftmost

set_option relaxedAutoImplicit false
set_option autoImplicit false

namespace Transcript

/-! ### Matches anywhere in a text -/

namespace Regex

/-- The expression may match the span of a text from one position to another. -/
def Spans (r : Regex) (output : Text) (start stop : Cursor) : Prop :=
  (∃ s, (Cursor.start output).Reads s start) ∧ Shape.Leads r.ways start stop

/-- **A cue recognises the output in front of its input**, to which `lead` leads.  When an output was
received up to where `lead` may stop in it, the cue matches a span that ends there, and it never matches
less than `min` characters. -/
structure Recognises (cue lead : Regex) (min : Nat) : Prop where
  ends : ∀ output stop, lead.Spans output (Cursor.start output) stop →
    ∃ start stop', cue.Spans (output.take stop.offset) start stop' ∧ stop'.offset = stop.offset
  isMatch : ∀ output stop, lead.Spans output (Cursor.start output) stop →
    cue.isMatch (output.take stop.offset) = true
  min_le : ∀ output start stop, cue.Spans output start stop → start.offset + min ≤ stop.offset

/-- **The search finds a match if there is one.** -/
theorem isMatch_iff {r : Regex} (hr : r.steady) (output : Text) :
    r.isMatch output = true ↔ ∃ start stop, r.Spans output start stop := by
  rw [isMatch, search, isSome_searchFrom_iff hr]
  constructor
  · rintro ⟨s, d, hs, hways⟩
    obtain ⟨w, hw⟩ := List.exists_mem_of_ne_nil _ hways
    exact ⟨d, w.stop, ⟨s, hs⟩, w, hw, rfl⟩
  · rintro ⟨start, stop, ⟨s, hs⟩, w, hw, -⟩
    exact ⟨s, start, hs, List.ne_nil_of_mem hw⟩

end Regex

/-! ### Where an output is cut -/

/-- The position, when of what follows only `rest` was received. -/
def Cursor.cut (c : Cursor) (rest : Text) : Cursor := { c with after := rest }

theorem Cursor.Reads.cut {c d : Cursor} {s : Text} (h : c.Reads s d) (rest : Text) :
    (c.cut (s ++ rest)).Reads s (d.cut rest) := ⟨rfl, h.offset, h.previous⟩

namespace Shape

/-- A fragment of a cue admits the same in front of a cut: at the cut itself nothing comes next. -/
theorem Admits.cut {shape : Shape} (hshape : shape.resetsCue = false) {c d e : Cursor} {s t : Text}
    (h : shape.Admits c s d) (hrest : d.Reads t e) :
    shape.Admits (c.cut (s ++ t)) s (d.cut t) := by
  cases shape with
  | literal text => exact h
  | space => exact h
  | spaces =>
      obtain ⟨hne, hblank, hahead⟩ := h
      refine ⟨hne, hblank, ?_⟩
      cases t with
      | nil => rfl
      | cons ch t =>
          rw [Cursor.blankAhead, hrest.after] at hahead
          exact hahead
  | _ => simp [resetsCue] at hshape

/-- A fragment goes through what it weighs. -/
theorem weight_le_of_admits {shape : Shape} {c d : Cursor} {s : Text} (h : shape.Admits c s d) :
    shape.weight ≤ s.length := by
  cases shape with
  | literal text =>
      obtain rfl : s = text := h
      exact Nat.le_refl _
  | space =>
      obtain ⟨b, -, rfl⟩ := h
      exact Nat.le_refl _
  | spaces => exact List.length_pos_iff.2 h.1
  | _ => exact Nat.zero_le _

end Shape

namespace Fragment

/-- The fragments of two runs lead where the second run leads from where the first one stops. -/
theorem through_append {front back : List Fragment} {c e : Cursor} :
    Through (front ++ back) c e ↔ ∃ d, Through front c d ∧ Through back d e := by
  induction front generalizing c with
  | nil =>
      constructor
      · exact fun h => ⟨c, .nil c, h⟩
      · rintro ⟨d, ⟨⟩, h⟩
        exact h
  | cons f front ih =>
      constructor
      · rintro (_ | ⟨hreads, hadmits, hrest⟩)
        obtain ⟨d, hfront, hback⟩ := ih.1 hrest
        exact ⟨d, .cons hreads hadmits hfront, hback⟩
      · rintro ⟨d, _ | ⟨hreads, hadmits, hfront⟩, hback⟩
        exact .cons hreads hadmits (ih.2 ⟨d, hfront, hback⟩)

theorem Through.reads {fragments : List Fragment} {c e : Cursor} (h : Through fragments c e) :
    ∃ s, c.Reads s e := by
  induction h with
  | nil c => exact ⟨[], .refl c⟩
  | cons hreads _ _ ih =>
      obtain ⟨t, ht⟩ := ih
      exact ⟨_, hreads.trans ht⟩

/-- What the fragments of a cue go through, they go through when nothing follows. -/
theorem Through.cut {fragments : List Fragment} {c e : Cursor} (h : Through fragments c e)
    (hcue : ∀ f ∈ fragments, f.resetsCue = false) :
    ∃ s, c.Reads s e ∧ Through fragments (c.cut s) (e.cut []) := by
  induction h with
  | nil c => exact ⟨[], .refl c, .nil _⟩
  | cons hreads hadmits _ ih =>
      obtain ⟨t, ht, hrest⟩ := ih fun f hf => hcue f (List.mem_cons_of_mem _ hf)
      exact ⟨_, hreads.trans ht,
        .cons (hreads.cut t) (hadmits.cut (hcue _ (List.mem_cons_self ..)) ht) hrest⟩

theorem Through.total_le {fragments : List Fragment} {c e : Cursor} (h : Through fragments c e) :
    c.offset + total fragments ≤ e.offset := by
  induction h with
  | nil c => exact Nat.le_refl _
  | @cons f fragments c d e s hreads hadmits _ ih =>
      have hweight : f.weight ≤ s.length := Shape.weight_le_of_admits hadmits
      have hoffset := hreads.offset
      rw [total]
      omega

theorem leads_regex {fragments : List Fragment} {c d : Cursor} :
    Shape.Leads (regex fragments).ways c d ↔ Through fragments c d := by
  have hways : (regex fragments).ways = ways fragments := funext (ways_regex fragments)
  rw [hways, leads_iff]

/-! ### The fragments of a cue -/

/-- The fragments up to an index are those up to a smaller one and those between the two. -/
theorem take_append_between (fragments : List Fragment) {k j : Nat} (hle : k ≤ j) :
    fragments.take k ++ between fragments k j = fragments.take j := by
  have htake : fragments.take k = (fragments.take j).take k := by
    rw [List.take_take, Nat.min_eq_left hle]
  rw [between, htake, List.take_append_drop]

/-- No fragment of a cue is one that a cue does not reach back over. -/
theorem CueLimit.resetsCue_eq_false {fragments : List Fragment} {j first k : Nat}
    (h : CueLimit fragments j first) (hle : first ≤ k) :
    ∀ f ∈ between fragments k j, f.resetsCue = false := by
  obtain ⟨last, -, rfl, -, -, -, hbetween⟩ := h
  intro f hf
  obtain ⟨i, hi⟩ := List.mem_iff_getElem?.1 hf
  rw [between, List.getElem?_drop, List.getElem?_take] at hi
  by_cases hlt : k + i < j
  · rw [if_pos hlt] at hi
    exact hbetween (k + i) f (by omega) hlt hi
  · simp [hlt] at hi

/-- A cue begins behind the limit, no later than at the echo, and weighs as much as the lower bound asks
for. -/
theorem CueBegin.spec {range : CueRange} {fragments : List Fragment} {first j k : Nat}
    (h : CueBegin range.max fragments first j k) (hfirst : first ≤ j)
    (hrange : range.min ≤ range.max) (hmin : range.min ≤ total (between fragments first j)) :
    first ≤ k ∧ k ≤ j ∧ range.min ≤ total (between fragments k j) := by
  rcases h with ⟨hle, hle', hheavy, -⟩ | ⟨rfl, -⟩
  · exact ⟨hle, hle', hrange.trans hheavy⟩
  · exact ⟨Nat.le_refl _, hfirst, hmin⟩

/-- A cue is read as the expression of its fragments. -/
theorem read?_join_of_cue {fragments : List Fragment} (h : ∀ f ∈ fragments, f.resetsCue = false) :
    Regex.read? .program (join fragments) = some (regex fragments) := by
  have hgroups : (fragments.flatMap fun f => f.shape.groups) = [] := by
    rw [List.flatMap_eq_nil_iff]
    intro f hf
    have hreset : f.shape.resetsCue = false := h f hf
    cases hshape : f.shape with
    | tag => simp [hshape, Shape.resetsCue] at hreset
    | _ => rfl
  exact read?_join (by simp [hgroups]) (by simp [hgroups])

/-- **The fragments in front of an echo end in a cue that recognises what they lead to.** -/
theorem recognises_between {fragments : List Fragment} {k j min : Nat} (hle : k ≤ j)
    (hcue : ∀ f ∈ between fragments k j, f.resetsCue = false)
    (hmin : min ≤ total (between fragments k j)) :
    (regex (between fragments k j)).Recognises (regex (fragments.take j)) min := by
  have hends : ∀ output stop, (regex (fragments.take j)).Spans output (Cursor.start output) stop →
      ∃ start stop', (regex (between fragments k j)).Spans (output.take stop.offset) start stop' ∧
        stop'.offset = stop.offset := by
    rintro output stop ⟨-, hlead⟩
    rw [leads_regex, ← take_append_between fragments hle, through_append] at hlead
    obtain ⟨start, hfront, hbetween⟩ := hlead
    obtain ⟨front, hreads⟩ := hfront.reads
    obtain ⟨s, hs, hcut⟩ := hbetween.cut hcue
    have hoffset : stop.offset = (front ++ s).length := by
      rw [hs.offset, hreads.offset, List.length_append, Cursor.start, Nat.zero_add]
    have houtput : output.take stop.offset = front ++ s := by
      have hafter : output = front ++ s ++ stop.after := by
        rw [List.append_assoc, ← hs.after, ← hreads.after, Cursor.start]
      rw [hafter, List.take_left' hoffset.symm]
    refine ⟨start.cut s, stop.cut [], ⟨⟨front, ?_⟩, leads_regex.2 hcut⟩, rfl⟩
    rw [houtput]
    exact hreads.cut s
  refine ⟨hends, fun output stop hlead => ?_, fun output start stop hspan => ?_⟩
  · obtain ⟨start, stop', hspan, -⟩ := hends output stop hlead
    exact (Regex.isMatch_iff (steady_regex _) _).2 ⟨start, stop', hspan⟩
  · have htotal := (leads_regex.1 hspan.2).total_le
    omega

end Fragment

/-! ### The cues of a program -/

namespace Compiler

open Fragment

variable {policy : Policy} {config : Config} {switches : Switches} {text : Text} {p : Program}

/-- **Every cue recognises the output in front of its input.**  A program records its inputs in the
order of their echoes.  The fragments in front of an echo can be read, and so can the cue of its input;
when an output was received up to a position to which those fragments lead, the cue matches a span that
ends there, and whatever the cue matches is no shorter than the lower bound. -/
theorem inputs_recognise (htags : ∃ opening closing, config.tags = .delimited opening closing)
    (hrange : config.cueRange.min ≤ config.cueRange.max)
    (h : compile policy config switches text = .ok p) :
    ∃ echoes, echoes.Pairwise (· < ·) ∧
      List.Forall₂ (fun r j => r.PointsAt config.cueRange p.fragments j ∧
        ∃ lead cue, p.leading? j = some lead ∧ Regex.read? .program r.cue = some cue ∧
          cue.Recognises lead config.cueRange.min) p.inputs echoes := by
  have hnamed := TagRule.named_of_exists htags
  obtain ⟨echoes, -, hechoes, hsorted⟩ := exists_echoes_of_compile h
  refine ⟨echoes, hsorted, hechoes.imp fun r j hpoints => ⟨hpoints, ?_⟩⟩
  obtain ⟨first, k, hlimit, hmin, hbegin, hcue⟩ := hpoints.cue
  have hfirst : first ≤ j := by
    obtain ⟨last, -, rfl, hlast, -⟩ := hlimit
    exact hlast
  obtain ⟨hle, hle', hweight⟩ := hbegin.spec hfirst hrange hmin
  have hresets := hlimit.resetsCue_eq_false hle
  exact ⟨_, _, leading?_of_compile hnamed h j, by rw [hcue]; exact read?_join_of_cue hresets,
    recognises_between hle' hresets hweight⟩

/-- Two inputs behind a tag, each of which is announced by its cue. -/
theorem inputs_recognise_login :
    ∃ p, compile .normalize .standard ⟨true, true⟩ "user <n> login: [root]\nsecret: [xyz]".toList =
        .ok p ∧ p.inputs.length = 2 ∧
      ∃ echoes, echoes.Pairwise (· < ·) ∧
        List.Forall₂ (fun r j => r.PointsAt ⟨6, 12⟩ p.fragments j ∧
          ∃ lead cue, p.leading? j = some lead ∧ Regex.read? .program r.cue = some cue ∧
            cue.Recognises lead 6) p.inputs echoes := by
  have hlength : ((compile .normalize .standard ⟨true, true⟩
      "user <n> login: [root]\nsecret: [xyz]".toList).toOption.map (·.inputs.length)) = some 2 := by
    decide +kernel
  cases hok : compile .normalize .standard ⟨true, true⟩
      "user <n> login: [root]\nsecret: [xyz]".toList with
  | error e =>
      rw [hok] at hlength
      cases hlength
  | ok p =>
      rw [hok] at hlength
      exact ⟨p, rfl, Option.some.inj hlength, inputs_recognise ⟨'<', '>', rfl⟩ (by decide) hok⟩

end Compiler

end Transcript
