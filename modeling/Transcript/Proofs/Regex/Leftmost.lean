/-
**The search begins as far left as it can.**

The search lists the matches from the left to the right, and at each position in the order of preference.
So the match that it finds begins at the first position from which the expression has a way, and takes the
preferred way from there.  Behind that match the search goes on where the match stops: a match that no other
one reaches into from further left is therefore found sooner or later.

Main results:

* `Transcript.Regex.exists_first_of_searchFrom` — **what the search finds**: the preferred way from the first
  position that has one;
* `Transcript.Regex.isSome_searchFrom_iff` — the search finds a match if there is one;
* `Transcript.Regex.searchFrom_congr` — the ways of an expression say all about its search;
* `Transcript.Regex.mem_findAll` — **a match that none reaches into is found**.
-/

import Transcript.Proofs.Regex.Preference

set_option relaxedAutoImplicit false
set_option autoImplicit false

namespace Transcript

namespace Regex

variable {r : Regex} {c d : Cursor}

/-! ### One search -/

/-- At the end of the text there is only one position to begin at. -/
theorem searchFrom_of_nil (hr : r.steady) (h : c.after = []) :
    r.searchFrom c = (r.matchesAt c).head? := by
  rw [searchFrom_eq hr, h, matchesBehind, List.append_nil]

/-- A match begins here or behind the next character. -/
theorem searchFrom_of_reads (hr : r.steady) {ch : Char} (h : c.Reads [ch] d) :
    r.searchFrom c = (r.matchesAt c).head?.or (r.searchFrom d) := by
  have hd : d = ⟨c.offset + 1, some ch, d.after⟩ := h.unique (Cursor.reads_past h.after)
  rw [searchFrom_eq hr, searchFrom_eq hr, List.head?_append, h.after, List.singleton_append, matchesBehind,
    ← hd, h.offset, List.length_singleton]

/-- **What the search finds** is the preferred way from a position that has one, and there is no way from a
position further left.  By induction on the characters ahead. -/
theorem exists_first_of_searchFrom (hr : r.steady) {m : Match} :
    ∀ {c : Cursor}, r.searchFrom c = some m →
      ∃ s d w, c.Reads s d ∧ (r.ways d).head? = some w ∧ m = Trail.finish ⟨d, []⟩ w ∧
        ∀ s' d', c.Reads s' d' → r.ways d' ≠ [] → s.length ≤ s'.length := by
  have hhere {c : Cursor} (h : (r.matchesAt c).head? = some m) :
      ∃ s d w, c.Reads s d ∧ (r.ways d).head? = some w ∧ m = Trail.finish ⟨d, []⟩ w ∧
        ∀ s' d', c.Reads s' d' → r.ways d' ≠ [] → s.length ≤ s'.length := by
    rw [matchesAt, List.head?_map] at h
    obtain ⟨w, hw, rfl⟩ := Option.map_eq_some_iff.1 h
    exact ⟨[], c, w, .refl c, hw, rfl, fun s' _ _ _ => Nat.zero_le s'.length⟩
  intro c
  induction c using Cursor.induction_ahead with
  | nil c hafter =>
      intro h
      rw [searchFrom_of_nil hr hafter] at h
      exact hhere h
  | cons c ch d hreads ih =>
      intro h
      rw [searchFrom_of_reads hr hreads] at h
      rcases Option.or_eq_some_iff.1 h with h | ⟨hnone, h⟩
      · exact hhere h
      · obtain ⟨s, e, w, hs, hw, hm, hfirst⟩ := ih h
        refine ⟨[ch] ++ s, e, w, hreads.trans hs, hw, hm, fun s' d' hs' hways => ?_⟩
        -- there is no way from here, so the other position lies behind the character too
        cases s' with
        | nil =>
            rw [hs'.eq_of_nil] at hways
            rw [matchesAt, List.head?_map, Option.map_eq_none_iff, List.head?_eq_none_iff] at hnone
            exact absurd hnone hways
        | cons ch' s' =>
            obtain ⟨e', he', hrest⟩ := Cursor.Reads.split (s := [ch']) hs'
            have hsame := (Cursor.next?_eq_some.2 hreads).symm.trans (Cursor.next?_eq_some.2 he')
            obtain ⟨-, rfl⟩ := Prod.mk.inj (Option.some.inj hsame)
            have hle := hfirst s' d' hrest hways
            simp only [List.length_append, List.length_cons, List.length_nil]
            omega

/-- **The search finds a match if there is one.** -/
theorem isSome_searchFrom_iff (hr : r.steady) :
    (r.searchFrom c).isSome = true ↔ ∃ s d, c.Reads s d ∧ r.ways d ≠ [] := by
  constructor
  · intro h
    obtain ⟨m, hm⟩ := Option.isSome_iff_exists.1 h
    obtain ⟨s, d, w, hs, hw, -⟩ := exists_first_of_searchFrom hr hm
    exact ⟨s, d, hs, List.ne_nil_of_mem (List.mem_of_head? hw)⟩
  · rintro ⟨s, d, hs, hways⟩
    have hhere (d : Cursor) (hways : r.ways d ≠ []) : (r.matchesAt d).head?.isSome = true := by
      simpa [matchesAt] using hways
    induction s generalizing c with
    | nil =>
        rw [hs.eq_of_nil] at hways
        rw [searchFrom_eq hr, List.head?_append, Option.isSome_or, hhere c hways, Bool.true_or]
    | cons ch s ih =>
        obtain ⟨e, he, hrest⟩ := Cursor.Reads.split (s := [ch]) hs
        rw [searchFrom_of_reads hr he, Option.isSome_or, ih hrest, Bool.or_true]

/-! ### Expressions with the same ways -/

/-- **The ways of an expression say all about its search.** -/
theorem searchFrom_congr {r' : Regex} (hr : r.steady) (hr' : r'.steady) (h : ∀ c, r.ways c = r'.ways c)
    (c : Cursor) : r.searchFrom c = r'.searchFrom c := by
  have hat (c : Cursor) : r.matchesAt c = r'.matchesAt c := by rw [matchesAt, h, matchesAt]
  induction c using Cursor.induction_ahead with
  | nil c hafter => rw [searchFrom_of_nil hr hafter, searchFrom_of_nil hr' hafter, hat]
  | cons c ch d hreads ih => rw [searchFrom_of_reads hr hreads, searchFrom_of_reads hr' hreads, hat, ih]

theorem findAll_congr {r' : Regex} (h : ∀ c, r.searchFrom c = r'.searchFrom c) (text : Text) :
    r.findAll text = r'.findAll text := by
  have hcollect (fuel : Nat) : ∀ found, r.collect fuel found = r'.collect fuel found := by
    induction fuel with
    | zero => exact fun _ => rfl
    | succ fuel ih =>
        intro found
        cases found with
        | none => rfl
        | some m => simp only [collect, searchAfter, h, ih]
  rw [findAll, search, h, findAll, search, hcollect]

/-! ### Successive matches -/

/-- Where no match is empty, the search goes on where the last match stopped. -/
theorem searchAfter_eq (hr : r.steady) (hempty : r.nullable = false) (c : Cursor) :
    r.searchAfter c = r.searchFrom c := by
  unfold searchAfter
  cases hfound : r.searchFrom c with
  | none => rfl
  | some m =>
      obtain ⟨s, d, w, hs, hw, rfl, -⟩ := exists_first_of_searchFrom hr hfound
      obtain ⟨t, ht, hne⟩ := advancing_ways r d w (List.mem_of_head? hw)
      have hlength := List.length_pos_iff.2 (hne (by simp [hempty]))
      have hoffset := (hs.trans ht).offset
      rw [List.length_append] at hoffset
      have hbehind : (Trail.finish ⟨d, []⟩ w).span.stop.offset ≠ c.offset := by
        change w.stop.offset ≠ c.offset
        omega
      simp only [if_neg hbehind]

/-- The preferred way from a position is among the matches that are collected from further left, if no match
reaches into it from there.  By induction on the fuel, which is enough for the characters in between. -/
theorem mem_collect (hr : r.steady) (hempty : r.nullable = false) {w : Way}
    (hw : (r.ways d).head? = some w)
    (hclear : ∀ e, ∀ v ∈ r.ways e, e.offset < d.offset → (∃ s, e.Reads s d) → ∃ s, v.stop.Reads s d)
    (fuel : Nat) : ∀ {c : Cursor} {s : Text}, c.Reads s d → s.length < fuel →
      Trail.finish ⟨d, []⟩ w ∈ r.collect fuel (r.searchFrom c) := by
  induction fuel with
  | zero => exact fun _ hfuel => absurd hfuel (Nat.not_lt_zero _)
  | succ fuel ih =>
      intro c s hs hfuel
      have hways : r.ways d ≠ [] := List.ne_nil_of_mem (List.mem_of_head? hw)
      obtain ⟨m, hm⟩ := Option.isSome_iff_exists.1 ((isSome_searchFrom_iff hr).2 ⟨s, d, hs, hways⟩)
      obtain ⟨t, e, v, ht, hv, rfl, hfirst⟩ := exists_first_of_searchFrom hr hm
      obtain ⟨u, rfl, hu⟩ := ht.compare hs (hfirst s d hs hways)
      rw [hm, collect]
      cases u with
      | nil =>
          obtain rfl := hu.eq_of_nil
          obtain rfl := Option.some.inj (hw.symm.trans hv)
          exact List.mem_cons_self ..
      | cons ch u =>
          -- the match that is found in front stops in front as well
          have hv := List.mem_of_head? hv
          have hoffset := hu.offset
          rw [List.length_cons] at hoffset
          obtain ⟨rest, hrest⟩ := hclear e v hv (by omega) ⟨_, hu⟩
          obtain ⟨x, hx, hne⟩ := advancing_ways r e v hv
          have hlength := List.length_pos_iff.2 (hne (by simp [hempty]))
          have hbetween := (hx.trans hrest).offset
          rw [List.length_append] at hbetween hfuel
          rw [List.length_cons] at hfuel
          refine List.mem_cons_of_mem _ ?_
          rw [searchAfter_eq hr hempty]
          exact ih hrest (by omega)

/-- **A match that none reaches into from further left is among the successive matches.** -/
theorem mem_findAll (hr : r.steady) (hempty : r.nullable = false) {text s : Text} {w : Way}
    (hs : (Cursor.start text).Reads s d) (hw : (r.ways d).head? = some w)
    (hclear : ∀ e, ∀ v ∈ r.ways e, e.offset < d.offset → (∃ s, e.Reads s d) → ∃ s, v.stop.Reads s d) :
    Trail.finish ⟨d, []⟩ w ∈ r.findAll text := by
  have hlength : text.length = s.length + d.after.length := hs.length
  exact mem_collect hr hempty hw hclear _ hs (by omega)

end Regex

end Transcript
