/-
**Where runs cross.**

Fragments fit at a position if they lead from there to the end of the output.  Three things are said
about where fragments fit when a newline is added at the end of the output: they still fit where they
did; a position from which they fit only now lies behind every position from which they fitted before;
and if the newline cannot become part of the last text that is matched as it is, no new position is
won at all.

The second is the crossing argument.  Let a run through the longer output begin further left than a
run through the shorter one.  The first run ends behind the other, unless it is a run through the
shorter output itself, so somewhere the two cross.  Where they do, a fragment may be left on the
other run's way.

Main definitions:

* `Transcript.Fragment.Orderly` — the fragments follow one another as those of a program do;
* `Transcript.Fragment.Closed` — the fragments win no position;
* `Transcript.Fragment.loose` — the newline may become part of what stands in front of the last tag.

Main results:

* `Transcript.Fragment.Orderly.extend` — the fragments fit where they did;
* `Transcript.Fragment.Orderly.fits_of_later` — **the crossing argument**;
* `Transcript.Fragment.Orderly.closed_or_loose` — fragments that are not loose win no position.
-/

import Transcript.Proofs.Match.Fits
import Transcript.Proofs.Regex.Extend

set_option relaxedAutoImplicit false
set_option autoImplicit false

namespace Transcript

/-! ### White space -/

/-- No part of white space begins where none comes next. -/
theorem Cursor.Reads.eq_nil_of_blank {c d : Cursor} {s : Text} (h : c.Reads s d)
    (hahead : c.blankAhead = false) (hs : ∀ b ∈ s, Text.isBlank b = true) : s = [] := by
  cases s with
  | nil => rfl
  | cons b s =>
      rw [blankAhead, h.after, List.cons_append, List.head?_cons, Option.any_some,
        hs b (List.mem_cons_self ..)] at hahead
      exact Bool.noConfusion hahead

namespace Text

/-- A text is a text that does not end in white space, and white space. -/
theorem exists_trimBlank (text : Text) : ∃ front back, text = front ++ back ∧
    (∀ b ∈ back, isBlank b = true) ∧ front.getLast?.any isBlank = false := by
  induction text with
  | nil => exact ⟨[], [], rfl, by simp, rfl⟩
  | cons ch text ih =>
      obtain ⟨front, back, rfl, hback, hfront⟩ := ih
      cases front with
      | nil =>
          cases hch : isBlank ch with
          | true => exact ⟨[], ch :: back, rfl, by simpa [hch] using hback, rfl⟩
          | false => exact ⟨[ch], back, rfl, hback, by simp [hch]⟩
      | cons first front =>
          exact ⟨ch :: first :: front, back, rfl, hback, by
            rw [List.getLast?_cons_cons]; exact hfront⟩

end Text

namespace Fragment

/-! ### Fragments that need a character -/

def Demands (fragments : List Fragment) : Prop := ∀ c, Fits fragments c → c.after ≠ []

theorem Demands.cons {fragments : List Fragment} (h : Demands fragments) (f : Fragment) :
    Demands (f :: fragments) := by
  intro c hfits hnil
  obtain ⟨s, d, hreads, -, hrest⟩ := fits_cons.1 hfits
  have hlength := hreads.length
  rw [hnil, List.length_nil] at hlength
  exact h d hrest (List.length_eq_zero_iff.1 (by omega))

theorem demands_literal {offset : Nat} {text : Text} (hne : text ≠ []) (fragments : List Fragment) :
    Demands (⟨offset, .literal text⟩ :: fragments) := by
  intro c hfits hnil
  obtain ⟨s, d, hreads, rfl, -⟩ := fits_cons.1 hfits
  have hafter := hreads.after
  rw [hnil, eq_comm, List.append_eq_nil_iff] at hafter
  exact hne hafter.1

end Fragment

/-! ### Tags between white space -/

namespace Shape

/-- A tag with white space on both sides takes any text that does not end in white space: the white
space at its beginning is not part of the value. -/
theorem admits_bothSpace {c d : Cursor} {s : Text} (hreads : c.Reads s d)
    (hlast : s.getLast?.any Text.isBlank = false) (binding : Option Text) (greedy : Bool) :
    (tag binding .bothSpace greedy).Admits c s d := by
  by_cases hnil : s = []
  · exact Or.inl hnil
  · have hbehind : d.blankBehind = false := by
      obtain ⟨ch, hch⟩ : ∃ ch, s.getLast? = some ch := ⟨_, List.getLast?_eq_some_getLast hnil⟩
      rw [Cursor.blankBehind, hreads.previous, hch]
      rw [hch] at hlast
      exact hlast
    refine Or.inr ⟨s.takeWhile Text.isBlank, s.dropWhile Text.isBlank,
      List.takeWhile_append_dropWhile.symm, List.all_eq_true.1 List.all_takeWhile, ?_,
      Text.head?_dropWhile_isBlank s, hbehind⟩
    intro hvalue
    have htake := List.takeWhile_append_dropWhile (p := Text.isBlank) (l := s)
    rw [hvalue, List.append_nil] at htake
    have hall := List.all_eq_true.1 (List.all_takeWhile (p := Text.isBlank) (l := s))
    rw [htake] at hall
    rw [List.getLast?_eq_some_getLast hnil, Option.any_some, hall _ (List.getLast_mem hnil)] at hlast
    exact Bool.noConfusion hlast

end Shape

/-! ### Fragments of a program -/

namespace Shape

/-- The fragment may begin in the middle of white space. -/
def beginsBlank : Shape → Bool
  | space => true
  | spaces => true
  | finish .blank => true
  | _ => false

/-- The last character that the fragment goes through may be a newline at the end of the output. -/
def mayEndLine : Shape → Bool
  | space => true
  | literal text => text.getLast? = some '\n'
  | _ => false

end Shape

namespace Fragment

/-- White space may stand in front of the fragments. -/
def BeginsBlank : List Fragment → Prop
  | [] => False
  | f :: _ => f.shape.beginsBlank

/-- Fragments that follow one another as those of a program do. -/
inductive Orderly : List Fragment → Prop
  | finish (offset : Nat) (anchor : EndAnchor) : Orderly [⟨offset, .finish anchor⟩]
  | literal {fragments : List Fragment} (offset : Nat) {text : Text} (hne : text ≠ [])
      (hlast : ∀ f, fragments = [f] → text.getLast? ≠ some '\n') (h : Orderly fragments) :
      Orderly (⟨offset, .literal text⟩ :: fragments)
  | spaces {fragments : List Fragment} (offset : Nat) (hdemands : Demands fragments)
      (h : Orderly fragments) : Orderly (⟨offset, .spaces⟩ :: fragments)
  | bare {fragments : List Fragment} (offset : Nat) (binding : Option Text) {context : TagContext}
      (greedy : Bool) (hcontext : context = .bare ∨ context = .leftSpace)
      (hdemands : Demands fragments) (h : Orderly fragments) :
      Orderly (⟨offset, .tag binding context greedy⟩ :: fragments)
  | rightSpace {fragments : List Fragment} (offset : Nat) (binding : Option Text) (greedy : Bool)
      (hblank : BeginsBlank fragments) (h : Orderly fragments) :
      Orderly (⟨offset, .tag binding .rightSpace greedy⟩ :: fragments)
  | bothSpace {fragments : List Fragment} (offset offset' : Nat) (binding : Option Text)
      (greedy : Bool) (hblank : BeginsBlank fragments) (h : Orderly fragments) :
      Orderly (⟨offset, .space⟩ :: ⟨offset', .tag binding .bothSpace greedy⟩ :: fragments)
  | lineEnd (offset offset' : Nat) (binding : Option Text) (greedy : Bool) :
      Orderly [⟨offset, .tag binding .lineEnd greedy⟩, ⟨offset', .finish .newlines⟩]

end Fragment

/-! ### The longer output -/

namespace Shape

/-- What is admitted in the longer output, but not up to its end, was admitted before. -/
theorem admits_of_extend {shape : Shape} {c d : Cursor} {s : Text}
    (h : shape.Admits c.extend s d.extend) : shape.Admits c s d := by
  cases shape with
  | start => exact h
  | literal text => exact h
  | space => exact h
  | spaces =>
      obtain ⟨hne, hblank, hahead⟩ := h
      refine ⟨hne, hblank, ?_⟩
      cases hafter : d.after with
      | nil => rw [Cursor.blankAhead, hafter]; rfl
      | cons ch rest =>
          rw [← Cursor.extend_blankAhead (by rw [hafter]; exact List.cons_ne_nil ch rest)]
          exact hahead
  | tag binding context greedy => cases context <;> exact h
  | finish anchor =>
      cases anchor <;> exact absurd h.2 (List.append_ne_nil_of_right_ne_nil _ (by simp))

/-- What was admitted still is, if it did not go up to the end. -/
theorem Admits.extend {shape : Shape} {c d : Cursor} {s : Text} (h : shape.Admits c s d)
    (hne : d.after ≠ []) : shape.Admits c.extend s d.extend := by
  cases shape with
  | start => exact h
  | literal text => exact h
  | space => exact h
  | spaces => exact ⟨h.1, h.2.1, (Cursor.extend_blankAhead hne).trans h.2.2⟩
  | tag binding context greedy => cases context <;> exact h
  | finish anchor => cases anchor <;> exact absurd h.2 hne

end Shape

namespace Fragment

/-- A fragment in front of others that still fit where they did. -/
theorem fits_cons_extend {f : Fragment} {fragments : List Fragment} {c : Cursor}
    (hf : ∀ s d, f.shape.Admits c s d → Fits fragments d → f.shape.Admits c.extend s d.extend)
    (h : ∀ d, Fits fragments d → Fits fragments d.extend) (hfits : Fits (f :: fragments) c) :
    Fits (f :: fragments) c.extend := by
  obtain ⟨s, d, hreads, hadmits, hrest⟩ := fits_cons.1 hfits
  exact fits_cons.2 ⟨s, d.extend, hreads.extend, hf s d hadmits hrest, h d hrest⟩

/-- **The fragments still fit where they did.** -/
theorem Orderly.extend {fragments : List Fragment} (h : Orderly fragments) :
    ∀ c, Fits fragments c → Fits fragments c.extend := by
  induction h with
  | finish offset anchor =>
      intro c hfits
      refine fits_finish.2 fun b hb => ?_
      rcases List.mem_append.1 hb with hb | hb
      · exact fits_finish.1 hfits b hb
      · rw [List.mem_singleton.1 hb]
        exact spares_newline anchor
  | literal offset hne hlast h ih =>
      exact fun c => fits_cons_extend (fun s d hadmits _ => hadmits) ih
  | spaces offset hdemands h ih =>
      exact fun c => fits_cons_extend (fun s d hadmits hrest => hadmits.extend (hdemands d hrest)) ih
  | bare offset binding greedy hcontext hdemands h ih =>
      exact fun c => fits_cons_extend (fun s d hadmits hrest => hadmits.extend (hdemands d hrest)) ih
  | rightSpace offset binding greedy hblank h ih =>
      exact fun c => fits_cons_extend (fun s d hadmits _ => hadmits) ih
  | bothSpace offset offset' binding greedy hblank h ih =>
      exact fun c => fits_cons_extend (fun s d hadmits _ => hadmits)
        fun d => fits_cons_extend (fun s e hadmits _ => hadmits) ih
  | lineEnd offset offset' binding greedy => exact fun c _ => fits_lineEnd _ _ _ _ _

/-! ### Crossing runs -/

/-- White space in front of a position from which the fragments fit does not matter to them. -/
def Spreads (fragments : List Fragment) : Prop :=
  ∀ {c d : Cursor} {s : Text}, c.Reads s d → (∀ b ∈ s, Text.isBlank b = true) →
    Fits fragments d → Fits fragments c

/-- A white space character, a tag between white space, and fragments that fit further right: the tag
takes all up to there but the white space at the end. -/
theorem fits_bothSpace {fragments : List Fragment} (h : Spreads fragments) (offset offset' : Nat)
    (binding : Option Text) (greedy : Bool) {b : Char} (hb : Text.isBlank b = true)
    {c d e : Cursor} {s : Text} (hspace : c.Reads [b] d) (hreads : d.Reads s e)
    (hrest : Fits fragments e) :
    Fits (⟨offset, .space⟩ :: ⟨offset', .tag binding .bothSpace greedy⟩ :: fragments) c := by
  obtain ⟨front, back, rfl, hback, hfront⟩ := Text.exists_trimBlank s
  obtain ⟨m, hm, hm'⟩ := hreads.split
  have htag : Fits (⟨offset', .tag binding .bothSpace greedy⟩ :: fragments) d :=
    fits_cons.2 ⟨front, m, hm, Shape.admits_bothSpace hm hfront binding greedy, h hm' hback hrest⟩
  exact fits_cons.2 ⟨[b], d, hspace, ⟨b, hb, rfl⟩, htag⟩

/-- Where the fragments in front of which white space may stand fit, they fit in front of any white
space there. -/
theorem Orderly.spreads {fragments : List Fragment} (h : Orderly fragments)
    (hblank : BeginsBlank fragments) : Spreads fragments := by
  induction h with
  | finish offset anchor =>
      intro c d s hreads hs hfits
      cases anchor with
      | blank =>
          refine fits_finish.2 fun b hb => ?_
          rw [hreads.after] at hb
          rcases List.mem_append.1 hb with hb | hb
          · exact hs b hb
          · exact fits_finish.1 hfits b hb
      | newlines => exact Bool.noConfusion hblank
  | literal offset hne hlast h ih => exact Bool.noConfusion hblank
  | spaces offset hdemands h ih =>
      intro c d s hreads hs hfits
      obtain ⟨t, e, ht, ⟨hne, hblanks, hahead⟩, hrest⟩ := fits_cons.1 hfits
      refine fits_cons.2 ⟨s ++ t, e, hreads.trans ht, ⟨by simp [hne], ?_, hahead⟩, hrest⟩
      intro b hb
      rcases List.mem_append.1 hb with hb | hb
      · exact hs b hb
      · exact hblanks b hb
  | bare offset binding greedy hcontext hdemands h ih => exact Bool.noConfusion hblank
  | rightSpace offset binding greedy hblank' h ih => exact Bool.noConfusion hblank
  | bothSpace offset offset' binding greedy hblank' h ih =>
      intro c d s hreads hs hfits
      cases s with
      | nil => exact hreads.eq_of_nil ▸ hfits
      | cons b s =>
          obtain ⟨x, y, hx, -, hfits⟩ := fits_cons.1 hfits
          obtain ⟨t, e, ht, -, hrest⟩ := fits_cons.1 hfits
          obtain ⟨m, hm, hm'⟩ := Cursor.Reads.split (s := [b]) hreads
          exact fits_bothSpace (ih hblank') offset offset' binding greedy
            (hs b (List.mem_cons_self ..)) hm (hm'.trans (hx.trans ht)) hrest
  | lineEnd offset offset' binding greedy => exact Bool.noConfusion hblank

/-- Where two runs cross in a tag that may begin and stop as it likes, it may be left on the other
run's way. -/
theorem fits_of_later_tag {f : Fragment} {fragments : List Fragment}
    (hf : ∀ {c c' d : Cursor} {s s' : Text}, f.shape.Admits c s d → f.shape.Admits c' s' d)
    (ih : ∀ {c d : Cursor} {u : Text}, c.Reads u d → Fits fragments c.extend → Fits fragments d →
      Fits fragments c)
    {c d : Cursor} {u : Text} (hreads : c.Reads u d) (hnew : Fits (f :: fragments) c.extend)
    (hold : Fits (f :: fragments) d) : Fits (f :: fragments) c := by
  obtain ⟨s, e, hs, hadmits, hrest⟩ := fits_cons.1 hnew
  obtain ⟨t, e', ht, hadmits', hrest'⟩ := fits_cons.1 hold
  by_cases hle : s.length ≤ (u ++ t).length
  · -- the first run is still behind the second
    obtain ⟨m, v, rfl, hm, hv⟩ := hs.of_extend_of_le (hreads.trans ht) hle
    exact fits_cons.2 ⟨s, m, hm, Shape.admits_of_extend hadmits, ih hv hrest hrest'⟩
  · -- the first run has overtaken the second
    exact fits_cons.2 ⟨u ++ t, e', hreads.trans ht, hf hadmits', hrest'⟩

/-- Runs do not cross in a run of white space that cannot be longer. -/
theorem length_le_of_spaces {fragments : List Fragment} (hdemands : Demands fragments)
    {c e e' : Cursor} {s u t : Text} (hs : c.extend.Reads s e) (hall : ∀ b ∈ s, Text.isBlank b = true)
    (ht : c.Reads (u ++ t) e') (hahead : e'.blankAhead = false) (hrest : Fits fragments e') :
    s.length ≤ (u ++ t).length := by
  refine Nat.not_lt.1 fun hlt => ?_
  obtain ⟨v, rfl, hv⟩ := ht.extend.compare hs (by omega)
  have hnil := hv.eq_nil_of_blank
    ((Cursor.extend_blankAhead (hdemands e' hrest)).trans hahead)
    fun b hb => hall b (List.mem_append_right _ hb)
  simp [hnil] at hlt

/-- **The crossing argument.**  If the fragments fit in the longer output, and further right they
fitted before, then they fitted here before. -/
theorem Orderly.fits_of_later {fragments : List Fragment} (h : Orderly fragments) :
    ∀ {c d : Cursor} {u : Text}, c.Reads u d → Fits fragments c.extend → Fits fragments d →
      Fits fragments c := by
  induction h with
  | finish offset anchor =>
      -- what is left of the shorter output is left of the longer one as well
      intro c d u _ hnew _
      exact fits_finish.2 fun b hb => fits_finish.1 hnew b (List.mem_append_left _ hb)
  | @literal fragments offset text hne hlast h ih =>
      -- two runs through one literal keep their distance
      intro c d u hreads hnew hold
      obtain ⟨s, e, hs, rfl, hrest⟩ := fits_cons.1 hnew
      obtain ⟨t, e', ht, rfl, hrest'⟩ := fits_cons.1 hold
      obtain ⟨m, v, rfl, hm, hv⟩ := hs.of_extend_of_le (hreads.trans ht) (by simp)
      exact fits_cons.2 ⟨_, m, hm, rfl, ih hv hrest hrest'⟩
  | spaces offset hdemands h ih =>
      intro c d u hreads hnew hold
      obtain ⟨s, e, hs, hadmits, hrest⟩ := fits_cons.1 hnew
      obtain ⟨t, e', ht, hadmits', hrest'⟩ := fits_cons.1 hold
      have hle := length_le_of_spaces hdemands hs hadmits.2.1 (hreads.trans ht) hadmits'.2.2 hrest'
      obtain ⟨m, v, rfl, hm, hv⟩ := hs.of_extend_of_le (hreads.trans ht) hle
      exact fits_cons.2 ⟨s, m, hm, Shape.admits_of_extend hadmits, ih hv hrest hrest'⟩
  | bare offset binding greedy hcontext hdemands h ih =>
      intro c d u hreads hnew hold
      refine fits_of_later_tag (fun _ => ?_) ih hreads hnew hold
      rcases hcontext with rfl | rfl <;> trivial
  | rightSpace offset binding greedy hblank h ih =>
      intro c d u hreads hnew hold
      refine fits_of_later_tag (fun hadmits => ?_) ih hreads hnew hold
      exact hadmits
  | bothSpace offset offset' binding greedy hblank h ih =>
      intro c d u hreads hnew hold
      obtain ⟨x, y, hx, ⟨b, hb, rfl⟩, -⟩ := fits_cons.1 hnew
      obtain ⟨x', y', hx', ⟨b', -, rfl⟩, hold⟩ := fits_cons.1 hold
      obtain ⟨t, e, ht, -, hrest⟩ := fits_cons.1 hold
      -- where the tag of the other run stops, this one may stop as well
      obtain ⟨m, v, rfl, hm, hv⟩ := hx.of_extend_of_le (hreads.trans hx') (by simp)
      exact fits_bothSpace (h.spreads hblank) offset offset' binding greedy hb hm (hv.trans ht) hrest
  | lineEnd offset offset' binding greedy => exact fun _ _ _ => fits_lineEnd _ _ _ _ _

/-! ### Winning positions -/

/-- The newline may become part of what stands in front of the last tag. -/
def loose : List Fragment → Bool
  | [] => false
  | [gap, last, _] => gap.shape.mayEndLine && last.shape.tag?.isSome
  | _ :: fragments => loose fragments

theorem loose_cons {fragments : List Fragment} (h : loose fragments = true) (f : Fragment) :
    loose (f :: fragments) = true := by
  match fragments, h with
  | [_, _, _], h => exact h
  | _ :: _ :: _ :: _ :: _, h => exact h

/-- The newline wins no position from which the fragments did not fit before. -/
def Settled (fragments : List Fragment) : Prop := ∀ c, Fits fragments c.extend → Fits fragments c

/-- The newline wins no position at all, the end of the longer output included. -/
structure Closed (fragments : List Fragment) : Prop where
  settled : Settled fragments
  not_last : ∀ c, Fits fragments c → c.after = [] → c.previous ≠ some '\n'

/-- A fragment in front of others that win no position: none is won if it does not stop at the end of
the longer output. -/
theorem Settled.cons {fragments : List Fragment} (h : Settled fragments) {f : Fragment}
    (hf : ∀ c s d, c.Reads s d → f.shape.Admits c s d → Fits fragments d → d.after = [] →
      d.previous ≠ some '\n') : Closed (f :: fragments) where
  settled c hfits := by
    obtain ⟨s, d, hreads, hadmits, hrest⟩ := fits_cons.1 hfits
    rcases hreads.of_extend with ⟨e, rfl, he⟩ | ⟨-, rfl⟩
    · exact fits_cons.2 ⟨s, e, he, Shape.admits_of_extend hadmits, h e hrest⟩
    · exact absurd c.last_previous (hf _ _ _ hreads hadmits hrest c.last_after)
  not_last c hfits hnil := by
    obtain ⟨s, d, hreads, hadmits, hrest⟩ := fits_cons.1 hfits
    have hlength := hreads.length
    rw [hnil, List.length_nil] at hlength
    obtain rfl : s = [] := List.length_eq_zero_iff.1 (by omega)
    have hd := hreads.eq_of_nil
    rw [hd] at hreads hadmits hrest
    exact hf _ _ _ hreads hadmits hrest hnil

theorem Closed.cons {fragments : List Fragment} (h : Closed fragments) (f : Fragment) :
    Closed (f :: fragments) :=
  h.settled.cons fun _ _ d _ _ hrest => h.not_last d hrest

/-- A literal that does not end in a newline does not stop behind the new one. -/
theorem Settled.literal {fragments : List Fragment} (h : Settled fragments) (offset : Nat)
    {text : Text} (hne : text ≠ []) (hlast : text.getLast? ≠ some '\n') :
    Closed (⟨offset, .literal text⟩ :: fragments) := by
  refine h.cons ?_
  rintro c s d hreads rfl - -
  have hprevious := hreads.previous
  rw [List.getLast?_eq_some_getLast hne, Option.some_or] at hprevious
  rw [hprevious, ← List.getLast?_eq_some_getLast hne]
  exact hlast

/-- The end alone, or together with a tag that leaves all newlines to it. -/
inductive Ending : List Fragment → Prop
  | finish (offset : Nat) (anchor : EndAnchor) : Ending [⟨offset, .finish anchor⟩]
  | lineEnd (offset offset' : Nat) (binding : Option Text) (greedy : Bool) :
      Ending [⟨offset, .tag binding .lineEnd greedy⟩, ⟨offset', .finish .newlines⟩]

theorem Ending.settled {fragments : List Fragment} (h : Ending fragments) : Settled fragments := by
  cases h with
  | finish offset anchor =>
      exact fun c hfits => fits_finish.2 fun b hb => fits_finish.1 hfits b (List.mem_append_left _ hb)
  | lineEnd offset offset' binding greedy => exact fun c _ => fits_lineEnd _ _ _ _ c

theorem Ending.not_demands {fragments : List Fragment} (h : Ending fragments) :
    ¬Demands fragments := by
  intro hdemands
  have hnil : (Cursor.start []).after = [] := rfl
  cases h with
  | finish offset anchor =>
      exact hdemands (Cursor.start []) (fits_finish.2 fun b hb => absurd hb (by simp [hnil])) hnil
  | lineEnd offset offset' binding greedy =>
      exact hdemands (Cursor.start []) (fits_lineEnd _ _ _ _ _) hnil

/-- White space may stand in front of an ending only if it is the end alone. -/
theorem Ending.eq_finish {fragments : List Fragment} (h : Ending fragments)
    (hblank : BeginsBlank fragments) : ∃ offset, fragments = [⟨offset, .finish .blank⟩] := by
  cases h with
  | finish offset anchor =>
      cases anchor with
      | blank => exact ⟨offset, rfl⟩
      | newlines => exact Bool.noConfusion hblank
  | lineEnd => exact Bool.noConfusion hblank

/-- Fragments win no position, may take in the newline in front of the last tag, or are an ending. -/
def Classed (fragments : List Fragment) : Prop :=
  Closed fragments ∨ loose fragments = true ∨ Ending fragments

/-- What wins no position, or is loose, remains so behind another fragment; only an ending has to be
looked at. -/
theorem Classed.cons {fragments : List Fragment} (h : Classed fragments) (f : Fragment)
    (hending : Ending fragments → Closed (f :: fragments) ∨ loose (f :: fragments) = true) :
    Classed (f :: fragments) := by
  rcases h with hclosed | hloose | h
  · exact Or.inl (hclosed.cons f)
  · exact Or.inr (Or.inl (loose_cons hloose f))
  · exact (hending h).imp_right Or.inl

theorem Orderly.classed {fragments : List Fragment} (h : Orderly fragments) : Classed fragments := by
  induction h with
  | finish offset anchor => exact Or.inr (Or.inr (.finish offset anchor))
  | @literal fragments offset text hne hlast h ih =>
      refine ih.cons _ fun hending => ?_
      by_cases hnewline : text.getLast? = some '\n'
      · cases hending with
        | finish offset' anchor => exact absurd hnewline (hlast _ rfl)
        | lineEnd => exact Or.inr (by simp [loose, Shape.mayEndLine, Shape.tag?, hnewline])
      · exact Or.inl (hending.settled.literal offset hne hnewline)
  | spaces offset hdemands h ih => exact ih.cons _ fun hending => absurd hdemands hending.not_demands
  | bare offset binding greedy hcontext hdemands h ih =>
      exact ih.cons _ fun hending => absurd hdemands hending.not_demands
  | rightSpace offset binding greedy hblank h ih =>
      -- the tag does not stop behind a newline
      refine ih.cons _ fun hending => Or.inl (hending.settled.cons fun c s d _ hadmits _ _ hprevious => ?_)
      have hbehind : d.blankBehind = false := hadmits
      rw [Cursor.blankBehind, hprevious] at hbehind
      exact absurd hbehind (by decide)
  | bothSpace offset offset' binding greedy hblank h ih =>
      rcases ih with hclosed | hloose | hending
      · exact Or.inl ((hclosed.cons _).cons _)
      · exact Or.inr (Or.inl (loose_cons (loose_cons hloose _) _))
      · obtain ⟨offset'', rfl⟩ := hending.eq_finish hblank
        exact Or.inr (Or.inl rfl)
  | lineEnd offset offset' binding greedy => exact Or.inr (Or.inr (.lineEnd _ _ _ _))

/-- **Fragments that are not loose win no position**, if they need a character. -/
theorem Orderly.closed_or_loose {fragments : List Fragment} (h : Orderly fragments)
    (hdemands : Demands fragments) : Closed fragments ∨ loose fragments = true := by
  rcases h.classed with hclosed | hloose | hending
  · exact Or.inl hclosed
  · exact Or.inr hloose
  · exact absurd hdemands hending.not_demands

/-- Fragments that are not loose win no position of the shorter output. -/
theorem Orderly.settled_or_loose {fragments : List Fragment} (h : Orderly fragments) :
    Settled fragments ∨ loose fragments = true := by
  rcases h.classed with hclosed | hloose | hending
  · exact Or.inl hclosed.settled
  · exact Or.inr hloose
  · exact Or.inl hending.settled

end Fragment

end Transcript
