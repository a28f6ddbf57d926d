/-
**The cues of the inputs.**

The cue of an input is computed from a window that is kept beside the fragments and trimmed whenever
one is added.  This module says what the window holds, and from it where every cue stands in the
program: a record points at the fragment that echoes its input, and its cue is the run of fragments
right in front of that echo, the shortest one that reaches the upper bound or else everything since
the last tag.

Main definitions:

* `Transcript.CueWindow.Keeps` — **what the window holds** of the entries since the last tag;
* `Transcript.Fragment.between`, `Transcript.Fragment.total` — the fragments from one index up to
  another, and their weight;
* `Transcript.Fragment.CueLimit`, `Transcript.Fragment.CueBegin` — how far back a cue may reach, and
  where it begins;
* `Transcript.InputRecord.PointsAt` — a record belongs to the echo at an index.

Main results:

* `Transcript.CueWindow.Keeps.push` — adding a fragment;
* `Transcript.Build.Cued.of_grows` — the window of a build holds the newest of its fragments;
* `Transcript.Machine.feedAll_inputs` — the records of a run;
* `Transcript.Compiler.inputs_pointsAt` — **every record points at its echo**.
-/

import Mathlib.Data.List.DropRight
import Mathlib.Data.List.Forall2
import Transcript.Proofs.Compile.Progress

set_option relaxedAutoImplicit false
set_option autoImplicit false

namespace Transcript

/-! ### What the window holds -/

namespace CueWindow

@[simp] theorem total_append (entries entries' : List CueEntry) :
    total (entries ++ entries') = total entries + total entries' := by
  induction entries with
  | nil => simp [total]
  | cons entry entries ih => rw [List.cons_append, total, ih, total, Nat.add_assoc]

/-- The window holds the newest of the entries `all`: what it dropped is not needed to reach the upper
bound, and without its oldest entry it would not reach it. -/
structure Keeps (range : CueRange) (window : CueWindow) (all : List CueEntry) : Prop where
  weight_eq : window.weight = total window.entries
  suffix : ∃ dropped, all = dropped ++ window.entries ∧
    (dropped = [] ∨ range.max ≤ total window.entries)
  rest_lt : ∀ entry rest, window.entries = entry :: rest → total rest < range.max

variable {range : CueRange} {window : CueWindow} {all : List CueEntry}

theorem keeps_empty (range : CueRange) : Keeps range empty [] where
  weight_eq := rfl
  suffix := ⟨[], rfl, Or.inl rfl⟩
  rest_lt := by simp [empty]

/-- Trimming a list whose weight is known drops what is not needed. -/
theorem keeps_trim (range : CueRange) (entries : List CueEntry) :
    Keeps range (trim range.max entries (total entries)) entries := by
  induction entries with
  | nil => exact keeps_empty range
  | cons entry rest ih =>
      have hrest : total (entry :: rest) - entry.weight = total rest := by simp [total]
      rw [trim, hrest]
      by_cases hshort : total rest < range.max
      · rw [if_pos hshort]
        refine ⟨rfl, ⟨[], rfl, Or.inl rfl⟩, fun e r heq => ?_⟩
        obtain ⟨rfl, rfl⟩ := List.cons.inj heq
        exact hshort
      · rw [if_neg hshort]
        obtain ⟨dropped, hall, hdropped⟩ := ih.suffix
        refine ⟨ih.weight_eq, ⟨entry :: dropped, congrArg (entry :: ·) hall, Or.inr ?_⟩, ih.rest_lt⟩
        rcases hdropped with rfl | hheavy
        · rw [List.nil_append] at hall
          rw [← hall]
          exact Nat.le_of_not_lt hshort
        · exact hheavy

theorem Keeps.push (h : Keeps range window all) (entry : CueEntry) :
    Keeps range (window.push range entry) (all ++ [entry]) := by
  obtain ⟨dropped, hall, hdropped⟩ := h.suffix
  have hweight : window.weight + entry.weight = total (window.entries ++ [entry]) := by
    simp [h.weight_eq, total]
  have htrim := keeps_trim range (window.entries ++ [entry])
  rw [CueWindow.push, hweight]
  obtain ⟨dropped', hentries, hdropped'⟩ := htrim.suffix
  refine ⟨htrim.weight_eq, ⟨dropped ++ dropped', ?_, ?_⟩, htrim.rest_lt⟩
  · rw [hall, List.append_assoc, List.append_assoc, ← hentries]
  · rcases hdropped' with rfl | hheavy
    · -- nothing was trimmed, so what was heavy enough before still is
      rw [List.nil_append] at hentries
      rw [List.append_nil, ← hentries, total_append]
      exact hdropped.imp_right fun hheavy => Nat.le_add_right_of_le hheavy
    · exact Or.inr hheavy

/-- Entries that do not reach the bound are all taken. -/
theorem takeWeight_append {max : Nat} {entries : List CueEntry} (more : List CueEntry) :
    ∀ {weight : Nat}, weight + total entries < max →
      takeWeight max weight (entries ++ more) =
        entries ++ takeWeight max (weight + total entries) more := by
  induction entries with
  | nil => exact fun _ => rfl
  | cons entry entries ih =>
      intro weight hlight
      rw [total, ← Nat.add_assoc] at hlight ⊢
      have hentry : ¬ max ≤ weight + entry.weight := by omega
      rw [List.cons_append, takeWeight, if_neg hentry, ih hlight, List.cons_append]

theorem total_reverse (entries : List CueEntry) : total entries.reverse = total entries := by
  induction entries with
  | nil => rfl
  | cons entry entries ih => simp [total, ih, Nat.add_comm]

/-- The cue is made of everything that the window holds. -/
theorem Keeps.newest_eq (h : Keeps range window all) :
    newest range.max window.entries = window.entries := by
  cases hentries : window.entries with
  | nil => rfl
  | cons entry rest =>
      have hlight : 0 + total rest.reverse < range.max := by
        rw [Nat.zero_add, total_reverse]
        exact h.rest_lt entry rest hentries
      have hlast (weight : Nat) : takeWeight range.max weight [entry] = [entry] := by
        simp [takeWeight]
      rw [newest, List.reverse_cons, takeWeight_append [entry] hlight, hlast]
      simp

end CueWindow

/-! ### Fragments between two indices -/

namespace Fragment

/-- The fragments from an index up to another one. -/
def between (fragments : List Fragment) (first stop : Nat) : List Fragment :=
  (fragments.take stop).drop first

/-- The weight of fragments together. -/
def total : List Fragment → Nat
  | [] => 0
  | f :: fragments => f.weight + total fragments

/-- The cue of an input whose echo is at `stop` does not reach back beyond `first`, which is directly
behind the last fragment in front of the echo that a cue does not reach back over. -/
def CueLimit (fragments : List Fragment) (stop first : Nat) : Prop :=
  ∃ last f, first = last + 1 ∧ last < stop ∧ fragments[last]? = some f ∧ f.resetsCue = true ∧
    ∀ i g, last < i → i < stop → fragments[i]? = some g → g.resetsCue = false

/-- Among the indices from `first` up to `stop`, the cue of an input whose echo is at `stop` begins at
the last one from which the fragments in front of the echo weigh at least `max`, or at `first` if there
is none. -/
def CueBegin (max : Nat) (fragments : List Fragment) (first stop k : Nat) : Prop :=
  (first ≤ k ∧ k ≤ stop ∧ max ≤ total (between fragments k stop) ∧
    ∀ i, k < i → i ≤ stop → total (between fragments i stop) < max) ∨
  (k = first ∧ ∀ i, first ≤ i → i ≤ stop → total (between fragments i stop) < max)

/-- The fragments since the last one that a cue does not reach back over. -/
def sinceReset (fragments : List Fragment) : List Fragment :=
  fragments.rtakeWhile fun f => !f.resetsCue

theorem total_map_entry (fragments : List Fragment) :
    CueWindow.total (fragments.map entry) = total fragments := by
  induction fragments with
  | nil => rfl
  | cons f fragments ih => rw [List.map_cons, CueWindow.total, ih, total, entry]

@[simp] theorem total_append (fragments fragments' : List Fragment) :
    total (fragments ++ fragments') = total fragments + total fragments' := by
  rw [← total_map_entry, List.map_append, CueWindow.total_append, total_map_entry, total_map_entry]

theorem total_drop_le (n : Nat) (fragments : List Fragment) :
    total (fragments.drop n) ≤ total fragments := by
  conv_rhs => rw [← List.take_append_drop n fragments, total_append]
  exact Nat.le_add_left ..

/-- In front of the last fragment that is added, an index leaves what it drops. -/
theorem between_length (front back : List Fragment) (first : Nat) :
    between (front ++ back) first front.length = front.drop first := by
  rw [between, List.take_left]

/-- A program begins with a fragment that a cue does not reach back over, and what follows the last
such fragment are those since then. -/
theorem exists_append_sinceReset {fragments : List Fragment} {f : Fragment} (hf : f ∈ fragments)
    (hreset : f.resetsCue = true) :
    ∃ front last, fragments = front ++ last :: sinceReset fragments ∧ last.resetsCue = true := by
  have hne : fragments.rdropWhile (fun f => !f.resetsCue) ≠ [] := by
    intro hnil
    have hall := List.rdropWhile_eq_nil_iff.1 hnil f hf
    simp [hreset] at hall
  have hlast := List.rdropWhile_last_not (fun f : Fragment => !f.resetsCue) fragments hne
  refine ⟨(fragments.rdropWhile fun f => !f.resetsCue).dropLast, _, ?_, by simpa using hlast⟩
  conv_lhs => rw [← List.rdropWhile_append_rtakeWhile (p := fun f => !f.resetsCue) (l := fragments),
    ← List.dropLast_append_getLast hne]
  simp [sinceReset]

/-- How far back the cue of the next input may reach. -/
theorem cueLimit_length (back : List Fragment) {fragments front : List Fragment} {last : Fragment}
    (heq : fragments = front ++ last :: sinceReset fragments) (hreset : last.resetsCue = true) :
    CueLimit (fragments ++ back) fragments.length (front.length + 1) := by
  have hlength : fragments.length = front.length + 1 + (sinceReset fragments).length := by
    conv_lhs => rw [heq]
    simp only [List.length_append, List.length_cons]
    omega
  refine ⟨front.length, last, rfl, by omega, ?_, hreset, fun i g hlt hle hg => ?_⟩
  · rw [heq, List.append_assoc, List.getElem?_append_right (Nat.le_refl _), Nat.sub_self]
    rfl
  · rw [List.getElem?_append_left hle, heq, List.getElem?_append_right hlt.le] at hg
    obtain ⟨n, hn⟩ : ∃ n, i - front.length = n + 1 := ⟨i - front.length - 1, by omega⟩
    rw [hn, List.getElem?_cons_succ] at hg
    simpa using List.mem_rtakeWhile_imp (List.mem_of_getElem? hg)

/-- Where the cue of the next input begins: at the fragments that the window holds. -/
theorem cueBegin_length {range : CueRange} {window : CueWindow} {since : List Fragment}
    (front : List Fragment) (hkeeps : window.Keeps range (since.map entry)) (back : List Fragment) :
    ∃ k kept, CueBegin range.max (front ++ since ++ back) front.length (front ++ since).length k ∧
      between (front ++ since ++ back) k (front ++ since).length = kept ∧
      kept.map entry = window.entries := by
  obtain ⟨dropped, hall, hdropped⟩ := hkeeps.suffix
  obtain ⟨old, kept, rfl, hold, hkept⟩ := List.map_eq_append_iff.1 hall
  have hbetween (i : Nat) : between (front ++ (old ++ kept) ++ back) (front.length + i)
      (front ++ (old ++ kept)).length = (old ++ kept).drop i := by
    rw [between_length, List.drop_append, List.drop_of_length_le (by omega), List.nil_append]
    congr 1
    omega
  have htotal : CueWindow.total window.entries = total kept := by rw [← hkept, total_map_entry]
  refine ⟨front.length + old.length, kept, ?_, by rw [hbetween, List.drop_left], hkept⟩
  rw [htotal] at hdropped
  by_cases hheavy : range.max ≤ total kept
  · refine Or.inl ⟨Nat.le_add_right .., by simp, by rwa [hbetween, List.drop_left], ?_⟩
    -- behind the oldest entry that is held, the rest does not reach the bound
    intro i hlt hle
    obtain ⟨n, rfl⟩ : ∃ n, i = front.length + (old.length + (n + 1)) :=
      ⟨i - front.length - old.length - 1, by omega⟩
    rw [hbetween, List.drop_append, List.drop_of_length_le (by omega), List.nil_append,
      Nat.add_sub_cancel_left]
    cases kept with
    | nil =>
        rw [List.append_nil, List.length_append] at hle
        omega
    | cons f rest =>
        have hrest := hkeeps.rest_lt f.entry (rest.map entry) hkept.symm
        rw [total_map_entry] at hrest
        exact (total_drop_le n rest).trans_lt hrest
  · have hnil : old = [] := by
      have := hdropped.resolve_right hheavy
      rwa [← hold, List.map_eq_nil_iff] at this
    subst hnil
    refine Or.inr ⟨rfl, fun i hle _ => ?_⟩
    obtain ⟨n, rfl⟩ := Nat.exists_eq_add_of_le hle
    rw [hbetween, List.nil_append]
    exact (total_drop_le n kept).trans_lt (Nat.lt_of_not_le hheavy)

end Fragment

/-! ### The record of an input -/

open Fragment

/-- The record belongs to the echo at index `j`: the fragments in front of it weigh enough, and the cue
is the run of them that the bounds call for. -/
structure InputRecord.PointsAt (range : CueRange) (fragments : List Fragment) (r : InputRecord)
    (j : Nat) : Prop where
  echo : fragments[j]? = some ⟨r.offset, .literal r.text⟩
  cue : ∃ first k, CueLimit fragments j first ∧
    range.min ≤ Fragment.total (between fragments first j) ∧
    CueBegin range.max fragments first j k ∧ r.cue = Fragment.join (between fragments k j)

/-- The record of an input that comes next belongs to its echo, whatever follows that. -/
theorem InputRecord.pointsAt_length {range : CueRange} {window : CueWindow}
    {fragments : List Fragment} {f : Fragment} (hf : f ∈ fragments) (hreset : f.resetsCue = true)
    (hkeeps : window.Keeps range ((sinceReset fragments).map entry))
    (hmin : range.min ≤ window.weight) (offset : Nat) (text : Text) (back : List Fragment) :
    InputRecord.PointsAt range (fragments ++ ⟨offset, .literal text⟩ :: back)
      ⟨offset, (CueWindow.join (CueWindow.newest range.max window.entries)).pattern, text⟩
      fragments.length where
  echo := by
    rw [List.getElem?_append_right (Nat.le_refl _), Nat.sub_self]
    rfl
  cue := by
    obtain ⟨front, last, heq, hlast⟩ := exists_append_sinceReset hf hreset
    have hsplit : fragments = front ++ [last] ++ sinceReset fragments := by simpa using heq
    have hfirst : (front ++ [last]).length = front.length + 1 := by simp
    obtain ⟨k, kept, hbegin, hkept, hentries⟩ := cueBegin_length (front ++ [last]) hkeeps
      (⟨offset, .literal text⟩ :: back)
    rw [← hsplit, hfirst] at hbegin
    rw [← hsplit] at hkept
    refine ⟨front.length + 1, k, cueLimit_length _ heq hlast, ?_, hbegin, ?_⟩
    · -- the window is no heavier than the fragments since the last reset
      have hsince : between (fragments ++ ⟨offset, .literal text⟩ :: back) (front.length + 1)
          fragments.length = sinceReset fragments := by
        rw [between_length]
        conv_lhs => rw [hsplit]
        exact List.drop_left' hfirst
      obtain ⟨dropped, hall, -⟩ := hkeeps.suffix
      rw [hsince, ← total_map_entry, hall, CueWindow.total_append, ← hkeeps.weight_eq]
      exact hmin.trans (Nat.le_add_left ..)
    · rw [hkeeps.newest_eq, hkept, ← hentries, CueWindow.join, Fragment.join, List.flatMap_map]
      rfl

namespace Build

variable {config : Config} {b b' : Build}

/-- The window holds the newest of the fragments since the last one that a cue does not reach back
over. -/
structure Cued (config : Config) (b : Build) : Prop where
  keeps : b.window.Keeps config.cueRange ((sinceReset b.fragments.toList).map entry)
  reset : ∃ f ∈ b.fragments.toList, f.resetsCue = true

theorem cued_start (config : Config) : Cued config start where
  keeps := CueWindow.keeps_empty _
  reset := ⟨⟨0, .start⟩, List.mem_singleton.2 rfl, rfl⟩

theorem Cued.emit (h : Cued config b) (f : Fragment) :
    Cued config (b.emit config.cueRange f) where
  keeps := by
    rw [fragments_emit, Array.toList_push, Build.emit, sinceReset, List.rtakeWhile_concat]
    cases hreset : f.resetsCue with
    | true => exact CueWindow.keeps_empty _
    | false => simpa [sinceReset] using h.keeps.push f.entry
  reset := by
    obtain ⟨g, hg, hreset⟩ := h.reset
    exact ⟨g, by simp [hg], hreset⟩

/-- Whatever is added, the window holds the newest fragments. -/
theorem Cued.of_grows (h : Cued config b) (hgrows : Grows config b b') : Cued config b' := by
  induction hgrows with
  | refl => exact h
  | emit _ hf ih => exact ih.emit _
  | emitTag _ htag ih =>
      obtain ⟨-, rfl, -⟩ := emitTag_eq_ok htag
      exact ih.emit _

theorem Grows.inputs_eq (hgrows : Grows config b b') : b'.inputs = b.inputs := by
  induction hgrows with
  | refl => rfl
  | emit _ hf ih => exact ih
  | emitTag _ htag ih =>
      obtain ⟨-, rfl, -⟩ := emitTag_eq_ok htag
      exact ih

/-- Scheduling an input records it and changes neither the fragments nor the window.  The record
belongs to the echo that comes next. -/
theorem Cued.schedule (h : Cued config b) {t : Token} (hb : b.schedule config t = .ok b')
    (back : List Fragment) :
    Cued config b' ∧ ∃ r : InputRecord,
      b'.inputs = b.inputs.push r ∧ (r.offset, r.text) = (t.offset, t.text) ∧
        r.PointsAt config.cueRange (b.fragments.toList ++ ⟨t.offset, .literal t.text⟩ :: back)
          b.fragments.toList.length := by
  unfold Build.schedule CueWindow.cue? at hb
  by_cases hlight : b.window.weight < config.cueRange.min
  · simp [hlight] at hb
  · simp only [if_neg hlight, Except.ok.injEq] at hb
    subst hb
    obtain ⟨f, hf, hreset⟩ := h.reset
    exact ⟨⟨h.keeps, h.reset⟩, _, rfl, rfl, InputRecord.pointsAt_length hf hreset h.keeps
      (Nat.le_of_not_lt hlight) t.offset t.text back⟩

end Build

/-! ### The records of a run -/

namespace Policy

/-- What the tokens behind have become stays when those ahead are read. -/
theorem exists_entries_append (policy : Policy) (config : Config) (ahead : List Token) :
    ∀ behind, ∃ more, policy.entries config (ahead.reverse ++ behind) [] =
      policy.entries config behind ahead ++ more := by
  induction ahead with
  | nil => exact fun behind => ⟨[], (List.append_nil _).symm⟩
  | cons t ahead ih =>
      intro behind
      obtain ⟨more, hmore⟩ := ih (t :: behind)
      refine ⟨policy.ofToken config behind t ahead ++ more, ?_⟩
      rw [List.reverse_cons, List.append_assoc, List.singleton_append, hmore, entries,
        List.append_assoc]

end Policy

namespace Machine

open Build CompileError

variable {policy : Policy} {config : Config} {behind ahead : List Token} {m next last : Machine}
  {t : Token}

/-- A token that is accepted keeps the account of what is built and owed. -/
theorem Tracks.feed (h : Tracks policy config behind m) (hnext : m.feed policy config t = .ok next) :
    Tracks policy config (t :: behind) next := by
  obtain ⟨mid, hmid, hpending, hfragments⟩ := feed_eq_ok hnext
  obtain ⟨hheld, haccount⟩ := h.advance hmid
  exact ⟨hpending ▸ hheld, by rwa [hpending, hfragments]⟩

/-- **One step**: an input is recorded, and its record belongs to the echo of the input. -/
theorem feed_inputs {fragments : List Fragment} (htracks : Tracks policy config behind m)
    (hcued : Cued config m.build) (hnext : m.feed policy config t = .ok next)
    (hfragments : fragments = ⟨0, .start⟩ :: policy.entries config (ahead.reverse ++ t :: behind) []) :
    Cued config next.build ∧
      if t.kind = .input then
        ∃ r : InputRecord, next.build.inputs = m.build.inputs.push r ∧
          (r.offset, r.text) = (t.offset, t.text) ∧
          r.PointsAt config.cueRange fragments ((policy.entries config behind (t :: ahead)).length + 1)
      else next.build.inputs = m.build.inputs := by
  unfold Machine.feed at hnext
  cases hmid : m.advance policy config t with
  | error e => simp [hmid, bind, Except.bind] at hnext
  | ok mid =>
      have hgrows := (follows_of_advance hmid).grows
      have hcued' := hcued.of_grows hgrows
      simp only [hmid, bind, Except.bind] at hnext
      by_cases hinput : t.kind = .input
      · have htext : t.kind.isText := by rw [hinput]; rfl
        rw [if_pos hinput] at hnext ⊢
        obtain ⟨build, hbuild, rfl⟩ := bind_ok_eq_ok hnext
        obtain ⟨more, hmore⟩ := policy.exists_entries_append config ahead (t :: behind)
        have hmid' := (htracks.advance hmid).fragments_of_text
          ((follows_of_advance hmid).text htext) htext ahead
        obtain ⟨hcued'', r, hinputs, hkey, hpoints⟩ := hcued'.schedule hbuild more
        refine ⟨hcued'', r, by rw [hinputs, hgrows.inputs_eq], hkey, ?_⟩
        rw [hmid', List.length_cons] at hpoints
        convert hpoints using 1
        rw [hfragments, hmore, Policy.entries, Policy.ofToken_of_isText behind ahead htext]
        simp
      · rw [if_neg hinput, Except.ok.injEq] at hnext
        rw [if_neg hinput, ← hnext]
        exact ⟨hcued', hgrows.inputs_eq⟩

/-- **A whole run** records every input once, and the records belong to the echoes one after the
other. -/
theorem feedAll_inputs (fragments : List Fragment) :
    ∀ {behind m}, Tracks policy config behind m → Cued config m.build →
      m.feedAll policy config ahead = (last, none) →
      fragments = ⟨0, .start⟩ :: policy.entries config (ahead.reverse ++ behind) [] →
      ∃ records echoes, last.build.inputs.toList = m.build.inputs.toList ++ records ∧
        (records.map fun r => (r.offset, r.text)) =
          (ahead.filter (·.kind = .input)).map (fun t => (t.offset, t.text)) ∧
        List.Forall₂ (InputRecord.PointsAt config.cueRange fragments) records echoes ∧
        echoes.Pairwise (· < ·) ∧
        ∀ j ∈ echoes, (policy.entries config behind ahead).length < j := by
  induction ahead with
  | nil =>
      intro behind m _ _ hrun _
      rw [feedAll, Prod.mk.injEq] at hrun
      obtain ⟨rfl, -⟩ := hrun
      exact ⟨[], [], by simp, rfl, .nil, .nil, by simp⟩
  | cons t ahead ih =>
      intro behind m htracks hcued hrun hfragments
      obtain ⟨next, hnext, hrest⟩ := feedAll_cons_eq_ok hrun
      rw [List.reverse_cons, List.append_assoc, List.singleton_append] at hfragments
      obtain ⟨hcued', hstep⟩ := feed_inputs htracks hcued hnext hfragments
      obtain ⟨records, echoes, hinputs, hkeys, hpoints, hsorted, hbound⟩ :=
        ih (htracks.feed hnext) hcued' hrest hfragments
      have hlength : (policy.entries config (t :: behind) ahead).length =
          (policy.entries config behind (t :: ahead)).length +
            (policy.ofToken config behind t ahead).length := by
        rw [Policy.entries, List.length_append]
      by_cases hinput : t.kind = .input
      · have htext : t.kind.isText := by rw [hinput]; rfl
        rw [if_pos hinput] at hstep
        obtain ⟨r, hr, hkey, hpoint⟩ := hstep
        rw [Policy.ofToken_of_isText behind ahead htext, List.length_singleton] at hlength
        refine ⟨r :: records, _ :: echoes, by simp [hinputs, hr], by simp [hkey, hkeys, hinput],
          .cons hpoint hpoints, hsorted.cons fun j hj => ?_, ?_⟩
        · rw [← hlength]
          exact hbound j hj
        · intro j hj
          rcases List.mem_cons.1 hj with rfl | hj
          · exact Nat.lt_succ_self _
          · have hlt := hbound j hj
            omega
      · rw [if_neg hinput] at hstep
        refine ⟨records, echoes, by rw [hinputs, hstep], by simp [hkeys, hinput], hpoints, hsorted,
          fun j hj => (Nat.le_add_right ..).trans_lt (hlength ▸ hbound j hj)⟩

theorem Tracks.feedAll :
    ∀ {behind m}, Tracks policy config behind m → m.feedAll policy config ahead = (last, none) →
      Tracks policy config (ahead.reverse ++ behind) last := by
  induction ahead with
  | nil =>
      intro behind m h hrun
      rw [Machine.feedAll, Prod.mk.injEq] at hrun
      exact hrun.1 ▸ h
  | cons t ahead ih =>
      intro behind m h hrun
      obtain ⟨next, hnext, hrest⟩ := feedAll_cons_eq_ok hrun
      rw [List.reverse_cons, List.append_assoc, List.singleton_append]
      exact ih (h.feed hnext) hrest

theorem fragments_of_feedAll (hrun : start.feedAll policy config ahead = (last, none))
    (hdone : last.pending = .done) :
    last.build.fragments.toList = ⟨0, .start⟩ :: policy.entries config ahead.reverse [] := by
  have hfragments := ((tracks_start policy config).feedAll hrun).fragments []
  have howed : policy.owed config (ahead.reverse ++ []) [] last.pending = [] := by
    rw [hdone]
    cases policy <;> rfl
  rwa [howed, List.append_nil, List.append_nil] at hfragments

end Machine

namespace Compiler

/-- The records of a program, in the order of its inputs, and the fragments that they point at. -/
theorem exists_echoes_of_compile {policy : Policy} {config : Config} {switches : Switches} {text : Text}
    {p : Program} (h : compile policy config switches text = .ok p) :
    ∃ echoes, (p.inputs.map fun r => (r.offset, r.text)) =
        ((tokens policy config switches text).filter (·.kind = .input)).map
          (fun t => (t.offset, t.text)) ∧
      List.Forall₂ (InputRecord.PointsAt config.cueRange p.fragments) p.inputs echoes ∧
      echoes.Pairwise (· < ·) := by
  obtain ⟨last, hrun, hdone, hfragments⟩ := compile_eq_ok h
  have hinputs : p.inputs = last.build.inputs.toList := by
    rw [compile_eq, hrun] at h
    simp only [Machine.program?, if_pos hdone, Except.ok.injEq] at h
    rw [← h]
  rw [Machine.fragments_of_feedAll hrun hdone] at hfragments
  obtain ⟨records, echoes, hrecords, hkeys, hpoints, hsorted, -⟩ := Machine.feedAll_inputs
    p.fragments (Machine.tracks_start policy config) (Build.cued_start config) hrun
    (by rw [hfragments, List.append_nil])
  have heq : p.inputs = records := hinputs.trans (hrecords.trans (List.nil_append _))
  rw [heq]
  exact ⟨echoes, hkeys, hpoints, hsorted⟩

/-- **Every record points at its echo.**  Whatever the policy, the lexical rules and the bounds of the
cues, a program records each input of its text once, in the order of the text, and the records belong
to fragments that echo them, one behind the other. -/
theorem inputs_pointsAt {policy : Policy} {config : Config} {switches : Switches} {text : Text}
    {p : Program} (h : compile policy config switches text = .ok p) :
    (p.inputs.map fun r => (r.offset, r.text)) =
      ((tokens policy config switches text).filter (·.kind = .input)).map
        (fun t => (t.offset, t.text)) ∧
    ∃ echoes, List.Forall₂ (InputRecord.PointsAt config.cueRange p.fragments) p.inputs echoes ∧
      echoes.Pairwise (· < ·) := by
  obtain ⟨echoes, hkeys, hpoints⟩ := exists_echoes_of_compile h
  exact ⟨hkeys, echoes, hpoints⟩

/-- Two inputs behind a tag; the cue of the second one reaches back over the echo of the first. -/
theorem inputs_login :
    ∃ p, compile .normalize .standard ⟨true, true⟩ "user <n> login: [root]\nsecret: [xyz]".toList =
        .ok p ∧
      (p.inputs.map fun r => (r.offset, r.text)) = [(16, "root".toList), (31, "xyz".toList)] ∧
      ∃ echoes, List.Forall₂ (InputRecord.PointsAt ⟨6, 12⟩ p.fragments) p.inputs echoes ∧
        echoes.Pairwise (· < ·) := by
  have htokens : tokens .normalize .standard ⟨true, true⟩
      "user <n> login: [root]\nsecret: [xyz]".toList =
      [⟨0, .literal, "user".toList⟩, ⟨4, .spaces, " ".toList⟩, ⟨5, .tag, "<n>".toList⟩,
        ⟨8, .spaces, " ".toList⟩, ⟨9, .literal, "login:".toList⟩, ⟨15, .spaces, " ".toList⟩,
        ⟨16, .input, "root".toList⟩, ⟨22, .newlines, "\n".toList⟩, ⟨23, .literal, "secret:".toList⟩,
        ⟨30, .spaces, " ".toList⟩, ⟨31, .input, "xyz".toList⟩, ⟨36, .finish, []⟩] := by
    decide +kernel
  obtain ⟨p, hp⟩ := exists_compile_eq_ok htokens (by decide +kernel) (by decide +kernel)
  obtain ⟨hkeys, hechoes⟩ := inputs_pointsAt hp
  refine ⟨p, hp, hkeys.trans ?_, hechoes⟩
  rw [htokens]
  decide

end Compiler

end Transcript
