/-
**A match lies behind where its search began.**

Whatever an expression is, empty rounds and all, the search records no position but those that it comes
to as it reads the text.  So a match begins behind where its search began, it ends behind where it
begins, and no group of it is longer than what was left of the text.  As each search begins where the
match before it ended, successive matches stand one after the other.

Main definitions:

* `Transcript.Cursor.Reaches` — a position that lies behind another one;
* `Transcript.Trail.Between`, `Transcript.Front.Between` — what has come to no other positions than those
  between two;
* `Transcript.Front.Guards` — a way of going on that comes to no other positions;
* `Transcript.Match.Behind` — a match behind a position;
* `Transcript.Regex.Successive` — spans that stand one after the other.

Main results:

* `Transcript.Regex.guards_explore` — going through an expression comes to no other positions;
* `Transcript.Regex.behind_of_searchFrom` — **a match lies behind where its search began**;
* `Transcript.Regex.successive_findAll` — **successive matches stand one after the other**;
* `Transcript.InputRule.trailing?_le` — the marker that closes a line and the spacing behind it fit into the
  line.
-/

import Transcript.Markup.Input
import Transcript.Proofs.Regex.Way

set_option relaxedAutoImplicit false
set_option autoImplicit false

namespace Transcript

/-! ### Positions behind a position -/

/-- The position `d` is the position `c` or lies behind it. -/
def Cursor.Reaches (c d : Cursor) : Prop := ∃ s, c.Reads s d

namespace Cursor

variable {c d e : Cursor}

theorem Reaches.refl (c : Cursor) : c.Reaches c := ⟨[], .refl c⟩

theorem Reaches.trans (h : c.Reaches d) (h' : d.Reaches e) : c.Reaches e := by
  obtain ⟨s, hs⟩ := h
  obtain ⟨t, ht⟩ := h'
  exact ⟨s ++ t, hs.trans ht⟩

theorem reaches_next {ch : Char} {rest : Text} (hafter : c.after = ch :: rest) :
    c.Reaches ⟨c.offset + 1, some ch, rest⟩ := ⟨[ch], reads_past (s := [ch]) hafter⟩

/-- What lies between two positions, and what is left at the second one, make up what is left at the
first one. -/
theorem Reaches.length (h : c.Reaches d) :
    d.offset + d.after.length = c.offset + c.after.length := by
  obtain ⟨s, hs⟩ := h
  have hlength := hs.length
  have hoffset := hs.offset
  omega

end Cursor

/-- The trail begins behind the position `c` and has come to the position `d`, passing no position in
front of its beginning. -/
structure Trail.Between (c d : Cursor) (trail : Trail) : Prop where
  start : c.Reaches trail.start
  now : trail.start.Reaches d
  marks : ∀ m ∈ trail.marks, trail.start.Reaches m.2

theorem Trail.between_start {c d : Cursor} (h : c.Reaches d) : Between c d ⟨d, []⟩ where
  start := h
  now := .refl d
  marks := nofun

/-- A trail that has come to a position has come to those behind it. -/
theorem Trail.Between.mono {c d e : Cursor} {trail : Trail} (h : trail.Between c d)
    (hreaches : d.Reaches e) : trail.Between c e where
  start := h.start
  now := h.now.trans hreaches
  marks := h.marks

/-- The front at the position `d` was reached from the position `c` on. -/
structure Front.Between (c d : Cursor) (front : Front) : Prop where
  threads : ∀ t ∈ front.threads, t.trail.Between c d
  accepted : ∀ trail ∈ front.accepted, trail.Between c d

/-- The match lies behind a position, and its groups lie behind where it begins. -/
structure Match.Behind (c : Cursor) (m : Match) : Prop where
  start : c.Reaches m.span.start
  stop : m.span.start.Reaches m.span.stop
  marks : ∀ mark ∈ m.marks, m.span.start.Reaches mark.2

theorem Match.Behind.mono {c d : Cursor} {m : Match} (h : m.Behind d) (hreaches : c.Reaches d) :
    m.Behind c where
  start := hreaches.trans h.start
  stop := h.stop
  marks := h.marks

namespace Front

variable {c d : Cursor} {front : Front}

theorem between_empty (c d : Cursor) : empty.Between c d := ⟨nofun, nofun⟩

/-- Going on this way at the position `d` comes to no position in front of `c`. -/
def Guards (c d : Cursor) (go : Trail → Front → Front) : Prop :=
  ∀ trail front, trail.Between c d → front.Between c d → (go trail front).Between c d

/-- A point that is visited is followed or passed over. -/
theorem Between.visit (h : front.Between c d) (p : Point) {follow : Front → Front}
    (hfollow : ∀ front, front.Between c d → (follow front).Between c d) :
    (front.visit p follow).Between c d := by
  unfold Front.visit
  split
  · exact h
  · exact hfollow _ ⟨h.threads, h.accepted⟩

theorem Between.push (h : front.Between c d) {thread : Thread} (hthread : thread.trail.Between c d) :
    (front.push thread).Between c d := by
  unfold Front.push
  split
  · exact h
  · refine ⟨fun t ht => ?_, h.accepted⟩
    rcases List.mem_cons.1 ht with rfl | ht
    · exact hthread
    · exact h.threads t ht

theorem guards_accept (c d : Cursor) : Guards c d accept := by
  intro trail front htrail hfront
  unfold accept
  split
  · exact hfront
  · refine ⟨hfront.threads, fun trail' h => ?_⟩
    obtain rfl : trail = trail' := Option.some.inj h
    exact htrail

/-- What matches at a position lies behind where the front was reached from. -/
theorem Between.match? (h : front.Between c d) {m : Match} (hm : front.match? d = some m) :
    m.Behind c := by
  obtain ⟨trail, htrail, rfl⟩ := Option.map_eq_some_iff.1 hm
  obtain ⟨hstart, hnow, hmarks⟩ := h.accepted trail htrail
  exact ⟨hstart, hnow, hmarks⟩

end Front

/-! ### The search -/

namespace Regex

open Front (Guards)

variable {c d : Cursor}

/-- **Going through an expression** comes to no other positions than the one at which it goes through
it. -/
theorem guards_explore (r : Regex) :
    ∀ {rest : Point} {follow : Trail → Front → Front}, Guards c d follow →
      Guards c d (r.explore d rest follow) := by
  induction r with
  | empty => exact fun hfollow => hfollow
  | char cls => exact fun _ trail front htrail hfront => hfront.push htrail
  | seq a b iha ihb => exact fun hfollow => iha (ihb hfollow)
  | alt a b iha ihb =>
      intro rest follow hfollow trail front htrail hfront
      exact hfront.visit _ fun front hfront =>
        ihb hfollow trail _ htrail (iha hfollow trail front htrail hfront)
  | star a greedy ih =>
      intro rest follow hfollow trail front htrail hfront
      -- a round inside a round is passed over
      have hround : Guards c d (a.explore d (rest.push (star a greedy)) fun _ front => front) :=
        ih fun _ _ _ hfront => hfront
      refine hfront.visit _ fun front hfront => ?_
      cases greedy with
      | true => exact hfollow trail _ htrail (hround trail front htrail hfront)
      | false => exact hround trail _ htrail (hfollow trail front htrail hfront)
  | plus a greedy ih =>
      intro rest follow hfollow
      exact ih fun trail front htrail hfront =>
        hfront.visit _ fun front hfront => hfollow trail front htrail hfront
  | mark m =>
      intro rest follow hfollow trail front htrail hfront
      refine hfollow _ front ⟨htrail.start, htrail.now, fun m' hm' => ?_⟩ hfront
      rcases List.mem_cons.1 hm' with rfl | hm'
      · exact htrail.now
      · exact htrail.marks m' hm'
  | assert assertion =>
      intro rest follow hfollow trail front htrail hfront
      unfold explore
      split
      · exact hfollow trail front htrail hfront
      · exact hfront

end Regex

/-- Going through what is left at a point comes to no other positions. -/
theorem Point.guards_explore {c d : Cursor} (p : Point) :
    Front.Guards c d (p.explore d) := by
  induction p with
  | done => exact Front.guards_accept c d
  | next depth part rest ih => exact Regex.guards_explore part ih

theorem Front.between_advance {c d : Cursor} {threads : List Thread}
    (hthreads : ∀ t ∈ threads, t.trail.Between c d) (ch : Char) :
    (advance threads ch d).Between c d := by
  have hfold : ∀ front : Front, front.Between c d →
      (threads.foldl (fun front thread =>
        if thread.cls.contains ch then thread.rest.explore d thread.trail front else front)
        front).Between c d := by
    induction threads with
    | nil => exact fun front hfront => hfront
    | cons thread threads ih =>
        intro front hfront
        refine ih (fun t ht => hthreads t (List.mem_cons_of_mem _ ht)) _ ?_
        dsimp only
        split
        · exact thread.rest.guards_explore _ _ (hthreads thread (List.mem_cons_self ..)) hfront
        · exact hfront
  exact hfold _ (between_empty c d)

namespace Regex

variable {first : Point}

/-- The search from a position on, by induction on the characters behind it. -/
theorem behind_of_scan {c : Cursor} {m : Match} (after : Text) :
    ∀ {d : Cursor} {threads : List Thread} {found : Option Match}, d.after = after → c.Reaches d →
      (∀ t ∈ threads, t.trail.Between c d) → (∀ m ∈ found, m.Behind c) →
      scan first threads found d.offset after = some m → m.Behind c := by
  induction after with
  | nil =>
      intro d threads found _ _ _ hfound hscan
      rw [scan.eq_def] at hscan
      exact hfound m hscan
  | cons ch after ih =>
      intro d threads found hafter hreaches hthreads hfound hscan
      have hstep := Cursor.reaches_next hafter
      have hnext := hreaches.trans hstep
      have hadvance := Front.between_advance (fun t ht => (hthreads t ht).mono hstep) ch
      cases found with
      | some m' =>
          rw [scan] at hscan
          split at hscan
          · exact hfound m hscan
          · refine ih (d := ⟨d.offset + 1, some ch, after⟩) rfl hnext
              (fun t ht => hadvance.threads t (List.mem_reverse.1 ht)) (fun m'' hm'' => ?_) hscan
            rcases Option.or_eq_some_iff.1 hm'' with hm'' | ⟨-, hm''⟩
            · exact hadvance.match? hm''
            · exact hfound m'' hm''
      | none =>
          rw [scan] at hscan
          have hbegin := first.guards_explore _ _ (Trail.between_start hnext) hadvance
          exact ih (d := ⟨d.offset + 1, some ch, after⟩) rfl hnext
            (fun t ht => hbegin.threads t (List.mem_reverse.1 ht)) (fun m' hm' => hbegin.match? hm')
            hscan

/-- **A match lies behind where its search began.** -/
theorem behind_of_searchFrom {r : Regex} {c : Cursor} {m : Match} (h : r.searchFrom c = some m) :
    m.Behind c := by
  have hc := Cursor.Reaches.refl c
  have hbegin := (Point.done.before r).guards_explore _ _ (Trail.between_start hc)
    (Front.between_empty c c)
  exact behind_of_scan c.after rfl hc (fun t ht => hbegin.threads t (List.mem_reverse.1 ht))
    (fun m' hm' => hbegin.match? hm') h

/-! ### Successive matches -/

/-- The spans stand one after the other behind a position. -/
inductive Successive : Cursor → List Span → Prop
  | nil (c : Cursor) : Successive c []
  | cons {c : Cursor} {s t : Text} {span : Span} {spans : List Span} (hgap : c.Reads s span.start)
      (hspan : span.start.Reads t span.stop) (hrest : Successive span.stop spans) :
      Successive c (span :: spans)

/-- Each of the spans lies behind the position, and ends behind where it begins. -/
theorem Successive.reads_of_mem {c : Cursor} {spans : List Span} (h : Successive c spans) {span : Span}
    (hspan : span ∈ spans) : ∃ s t, c.Reads s span.start ∧ span.start.Reads t span.stop := by
  induction h with
  | nil c => cases hspan
  | cons hgap hfirst hrest ih =>
      rcases List.mem_cons.1 hspan with rfl | hspan
      · exact ⟨_, _, hgap, hfirst⟩
      · obtain ⟨s, t, hs, ht⟩ := ih hspan
        exact ⟨_, t, (hgap.trans hfirst).trans hs, ht⟩

/-- Each of the spans ends in front of those behind it. -/
theorem Successive.pairwise {c : Cursor} {spans : List Span} (h : Successive c spans) :
    spans.Pairwise fun span span' => span.stop.offset ≤ span'.start.offset := by
  induction h with
  | nil c => exact .nil
  | cons hgap hfirst hrest ih =>
      refine List.pairwise_cons.2 ⟨fun span hspan => ?_, ih⟩
      obtain ⟨s, -, hs, -⟩ := hrest.reads_of_mem hspan
      have hoffset := hs.offset
      omega

/-- The next match lies behind the one before it. -/
theorem behind_of_searchAfter {r : Regex} {c : Cursor} {m : Match} (h : r.searchAfter c = some m) :
    m.Behind c := by
  unfold searchAfter at h
  cases hfound : r.searchFrom c with
  | none => simp [hfound] at h
  | some found =>
      rw [hfound] at h
      simp only at h
      by_cases hempty : found.span.stop.offset = c.offset
      · rw [if_pos hempty] at h
        cases hnext : c.next? with
        | none => simp [hnext] at h
        | some next =>
            obtain ⟨ch, next⟩ := next
            simp only [hnext] at h
            exact (behind_of_searchFrom h).mono ⟨[ch], Cursor.next?_eq_some.1 hnext⟩
      · rw [if_neg hempty, Option.some.injEq] at h
        rw [← h]
        exact behind_of_searchFrom hfound

/-- The matches that are collected stand one after the other. -/
theorem successive_collect {r : Regex} (fuel : Nat) :
    ∀ {c : Cursor} {found : Option Match}, (∀ m ∈ found, m.Behind c) →
      Successive c ((r.collect fuel found).map (·.span)) := by
  induction fuel with
  | zero => exact fun _ => .nil _
  | succ fuel ih =>
      intro c found hfound
      cases found with
      | none => exact .nil _
      | some m =>
          obtain ⟨⟨s, hs⟩, ⟨t, ht⟩, -⟩ := hfound m rfl
          exact .cons hs ht (ih fun m' hm' => behind_of_searchAfter hm')

/-- **Successive matches stand one after the other**, whatever the expression is. -/
theorem successive_findAll (r : Regex) (text : Text) :
    Successive (Cursor.start text) ((r.findAll text).map (·.span)) :=
  successive_collect _ fun _ hm => behind_of_searchFrom hm

end Regex

/-! ### Markers -/

/-- A group of a match is not longer than what is left of the text where the match begins. -/
theorem InputRule.length_groupText_le {c : Cursor} {m : Match} (h : m.Behind c) (group : Text) :
    (groupText m group).length ≤ m.span.start.after.length := by
  unfold groupText
  cases hgroup : m.group? group with
  | none => simp
  | some span =>
      have hspan : m.span.start.Reaches span.start := by
        unfold Match.group? at hgroup
        cases hopening : m.marks.lookup (.opening group) with
        | none => simp [hopening] at hgroup
        | some start =>
            cases hclosing : m.marks.lookup (.closing group) with
            | none => simp [hopening, hclosing] at hgroup
            | some stop =>
                simp only [hopening, hclosing, Option.some.injEq] at hgroup
                obtain ⟨front, back, hmarks, -⟩ := List.lookup_eq_some_iff.1 hopening
                rw [← hgroup]
                exact h.marks (.opening group, start) (by simp [hmarks])
      have hafter : span.start.after.length ≤ m.span.start.after.length := by
        obtain ⟨s, hs⟩ := hspan
        rw [hs.after, List.length_append]
        exact Nat.le_add_left ..
      exact Nat.le_trans (List.length_take_le' ..) hafter

/-- The marker that closes a line and the spacing behind it fit into the line: the spacing is a part of
the line behind where the marker begins, wherever in the marker the rule takes it from. -/
theorem InputRule.trailing?_le {rule : InputRule} {line : Text} {marker : TrailingInput}
    (h : rule.trailing? line = some marker) :
    marker.start + marker.spacing.length ≤ line.length := by
  obtain ⟨m, hm, rfl⟩ := Option.map_eq_some_iff.1 h
  have hbehind := Regex.behind_of_searchFrom hm
  have hstart := hbehind.start.length
  have hspacing := length_groupText_le hbehind spacingGroup
  simp only [Cursor.start] at hstart
  dsimp only
  omega

end Transcript
