/-
**The search finds the preferred way.**

The search goes through an expression at a position once for each character, keeps the points that
it has reached there, and follows none of them twice.  This module proves that it finds what trying
the ways of the expression one after the other would find: the matches that begin furthest left come
first, and of those the one that the expression prefers.

A point that was followed before may be passed over because whatever can be found behind it was found
then, and was preferred.  This is so only if the first visit was complete when the second one is due.
An expression whose repetitions have no empty round never comes back to a point that it is still
following: what is left at a point that can be reached without a character has a smaller rank.

Main definitions:

* `Transcript.Point.ways`, `Transcript.Point.rank` — the ways of what is left at a point, and the
  part of it that may be reached without a character;
* `Transcript.Front.found` — the matches to which the threads of a front and its accepted way lead;
* `Transcript.Front.Extends` — a front that also leads to given matches;
* `Transcript.Regex.matchesAt`, `Transcript.Regex.matchesBehind` — the matches that begin at a
  position, and those that begin behind it.

Main results:

* `Transcript.Regex.follows_explore` — going through an expression adds its ways;
* `Transcript.Regex.searchFrom_eq` — **the search finds the preferred way**;
* `Transcript.Regex.exists_of_mem_findAll` — each of the successive matches is a way.
-/

import Transcript.Proofs.Regex.Way

set_option relaxedAutoImplicit false
set_option autoImplicit false

namespace Transcript

/-! ### What is left at a point -/

def Regex.size : Regex → Nat
  | .empty => 1
  | .char _ => 1
  | .seq a b => a.size + b.size + 1
  | .alt a b => a.size + b.size + 1
  | .star body _ => body.size + 1
  | .plus body _ => body.size + 1
  | .mark _ => 1
  | .assert _ => 1

namespace Point

/-- The ways of what is left at a point. -/
def ways : Point → Cursor → List Way
  | done, c => [Way.here c]
  | next _ part rest, c => Way.chain (part.ways c) rest.ways

/-- The size of what can be reached at a point without a character. -/
def rank : Point → Nat
  | done => 0
  | next _ part rest => part.size + if part.nullable then rest.rank else 0

/-- No repetition that is left has an empty round. -/
def Steady (p : Point) : Prop := ∀ r ∈ p.parts, r.steady

@[simp] theorem ways_push (rest : Point) (part : Regex) (c : Cursor) :
    (rest.push part).ways c = Way.chain (part.ways c) rest.ways := rfl

@[simp] theorem rank_push (rest : Point) (part : Regex) :
    (rest.push part).rank = part.size + if part.nullable then rest.rank else 0 := rfl

theorem rank_push_lt (rest : Point) {part part' : Regex} (hsize : part.size < part'.size)
    (hnullable : part.nullable → part'.nullable) : (rest.push part).rank < (rest.push part').rank := by
  rw [rank_push, rank_push]
  by_cases h : part.nullable
  · rw [if_pos h, if_pos (hnullable h)]
    omega
  · rw [if_neg h]
    omega

theorem steady_push {rest : Point} {part : Regex} :
    (rest.push part).Steady ↔ part.steady ∧ rest.Steady := by
  simp [Steady, parts_push]

theorem ways_before (r : Regex) (rest : Point) (c : Cursor) :
    (before r rest).ways c = Way.chain (r.ways c) rest.ways := by
  induction r generalizing rest c with
  | seq a b iha ihb =>
      have hb : (before b rest).ways = fun c => Way.chain (b.ways c) rest.ways := funext (ihb rest)
      rw [before, iha, hb, Regex.ways_seq, Way.chain_assoc]
  | _ => rfl

theorem steady_before {r : Regex} {rest : Point} (hr : r.steady) (hrest : rest.Steady) :
    (before r rest).Steady := by
  induction r generalizing rest with
  | seq a b iha ihb =>
      simp only [Regex.steady, Bool.and_eq_true] at hr
      exact iha hr.1 (ihb hr.2 hrest)
  | _ => exact steady_push.2 ⟨hr, hrest⟩

end Point

/-! ### The matches of a front -/

/-- The match of a trail that goes on along a way. -/
def Trail.finish (trail : Trail) (w : Way) : Match :=
  ⟨⟨trail.start, w.stop⟩, w.marks ++ trail.marks⟩

/-- The matches to which a thread leads. -/
def Thread.found (c : Cursor) (t : Thread) : List Match :=
  ((t.rest.push (.char t.cls)).ways c).map t.trail.finish

namespace Front

/-- The matches to which the threads of a front lead, in the order of preference, and the match of
its accepted way. -/
def found (front : Front) (c : Cursor) : List Match :=
  front.threads.reverse.flatMap (Thread.found c) ++ (front.match? c).toList

/-- If there is a way at the point, the front leads to a match already. -/
def Settled (front : Front) (c : Cursor) (p : Point) : Prop :=
  p.ways c ≠ [] → front.found c ≠ []

/-- The points of a smaller rank that were followed are settled. -/
def Ready (front : Front) (c : Cursor) (rank : Nat) : Prop :=
  ∀ p ∈ front.seen, p.rank < rank → front.Settled c p

/-- The front `front'` leads first where `front` leads, and then to the matches `ms`.  The points
that it followed in addition are settled, and the threads that it has in addition are steady. -/
structure Extends (c : Cursor) (ms : List Match) (front front' : Front) : Prop where
  head : (front'.found c).head? = (front.found c ++ ms).head?
  seen : ∀ p ∈ front'.seen, p ∈ front.seen ∨ front'.Settled c p
  threads : ∀ t ∈ front'.threads, t ∈ front.threads ∨ t.rest.Steady

theorem Extends.ne_nil {c : Cursor} {ms : List Match} {front front' : Front}
    (h : Extends c ms front front') (hne : front.found c ++ ms ≠ []) : front'.found c ≠ [] := by
  intro hnil
  have hhead := h.head
  rw [hnil, List.head?_nil, eq_comm, List.head?_eq_none_iff] at hhead
  exact hne hhead

theorem Extends.settled {c : Cursor} {ms : List Match} {front front' : Front} {p : Point}
    (h : Extends c ms front front') (hp : front.Settled c p) : front'.Settled c p :=
  fun hways => h.ne_nil (by simp [hp hways])

theorem Extends.ready {c : Cursor} {ms : List Match} {front front' : Front} {rank : Nat}
    (h : Extends c ms front front') (hready : front.Ready c rank) : front'.Ready c rank := by
  intro p hp hrank
  rcases h.seen p hp with hp | hp
  · exact h.settled (hready p hp hrank)
  · exact hp

theorem Extends.trans {c : Cursor} {ms ms' : List Match} {front front' front'' : Front}
    (h : Extends c ms front front') (h' : Extends c ms' front' front'') :
    Extends c (ms ++ ms') front front'' where
  head := by
    rw [h'.head, List.head?_append, h.head, ← List.head?_append, List.append_assoc]
  seen p hp := by
    rcases h'.seen p hp with hp | hp
    · rcases h.seen p hp with hp | hp
      · exact Or.inl hp
      · exact Or.inr (h'.settled hp)
    · exact Or.inr hp
  threads t ht := by
    rcases h'.threads t ht with ht | ht
    · exact h.threads t ht
    · exact Or.inr ht

/-- A front that leads somewhere already is not changed by less preferred matches. -/
theorem extends_self {c : Cursor} {ms : List Match} {front : Front}
    (h : front.found c ≠ [] ∨ ms = []) : Extends c ms front front where
  head := by
    rcases h with h | rfl
    · obtain ⟨m, rest, hm⟩ := List.exists_cons_of_ne_nil h
      simp [hm]
    · simp
  seen p hp := Or.inl hp
  threads t ht := Or.inl ht

theorem found_ne_nil_of_accepted {front : Front} (h : front.accepted.isSome) (c : Cursor) :
    front.found c ≠ [] := by
  obtain ⟨trail, htrail⟩ := Option.isSome_iff_exists.1 h
  simp [found, match?, htrail]

theorem Ready.mono {front : Front} {c : Cursor} {rank rank' : Nat} (h : front.Ready c rank')
    (hle : rank ≤ rank') : front.Ready c rank :=
  fun p hp hrank => h p hp (by omega)

end Front

/-! ### Following a point -/

/-- Going on with `go` adds the ways of the point `q`. -/
def Follows (c : Cursor) (q : Point) (go : Trail → Front → Front) : Prop :=
  ∀ (trail : Trail) (front : Front), front.Ready c (q.rank + 1) →
    Front.Extends c ((q.ways c).map trail.finish) front (go trail front)

theorem Follows.congr {c : Cursor} {q q' : Point} {go : Trail → Front → Front}
    (h : Follows c q go) (hways : q'.ways c = q.ways c) (hrank : q.rank ≤ q'.rank) :
    Follows c q' go := by
  intro trail front hready
  rw [hways]
  exact h trail front (hready.mono (by omega))

/-- A point is followed on its first visit, when all points of a smaller rank that were followed
before are settled; on a later visit it is settled itself. -/
theorem follows_visit {c : Cursor} {q : Point} {go : Trail → Front → Front}
    (h : ∀ (trail : Trail) (front : Front), front.Ready c q.rank →
      Front.Extends c ((q.ways c).map trail.finish) front (go trail front)) :
    Follows c q fun trail front => front.visit q (go trail) := by
  intro trail front hready
  simp only [Front.visit]
  by_cases haccepted : front.accepted.isSome
  · simp only [haccepted, Bool.true_or, if_true]
    exact Front.extends_self (Or.inl (Front.found_ne_nil_of_accepted haccepted c))
  by_cases hseen : q ∈ front.seen
  · have hcontains : front.seen.contains q = true := by simpa using hseen
    simp only [hcontains, Bool.or_true, if_true]
    refine Front.extends_self ?_
    by_cases hways : q.ways c = []
    · exact Or.inr (by rw [hways]; rfl)
    · exact Or.inl (hready q hseen (by omega) hways)
  · rw [if_neg (by simp [haccepted, hseen])]
    have hext := h trail { front with seen := q :: front.seen } (by
      intro p hp hrank
      rcases List.mem_cons.1 hp with rfl | hp
      · omega
      · exact hready p hp (by omega))
    refine ⟨hext.head, ?_, hext.threads⟩
    intro p hp
    rcases hext.seen p hp with hp | hp
    · rcases List.mem_cons.1 hp with rfl | hp
      · -- the point itself is settled once its ways were added
        exact Or.inr fun hways => hext.ne_nil (by simp [hways])
      · exact Or.inl hp
    · exact Or.inr hp

/-- A point whose ways are those of two points of smaller rank is followed by following the two. -/
theorem follows_both {c : Cursor} {p p' q : Point} {go go' : Trail → Front → Front}
    (h : Follows c p go) (h' : Follows c p' go') (hrank : p.rank < q.rank)
    (hrank' : p'.rank < q.rank) (hways : q.ways c = p.ways c ++ p'.ways c) :
    Follows c q fun trail front => front.visit q fun front => go' trail (go trail front) := by
  refine follows_visit fun trail front hready => ?_
  have hext := h trail front (hready.mono (by omega))
  have hext' := h' trail _ (hext.ready (hready.mono (by omega)))
  rw [hways, List.map_append]
  exact hext.trans hext'

/-- A point that waits for a character is followed by its thread. -/
theorem follows_push {c : Cursor} {cls : CharClass} {rest : Point} (hrest : rest.Steady) :
    Follows c (rest.push (.char cls)) fun trail front => front.push ⟨cls, rest, trail⟩ := by
  intro trail front _
  simp only [Front.push]
  by_cases haccepted : front.accepted.isSome
  · rw [if_pos haccepted]
    exact Front.extends_self (Or.inl (Front.found_ne_nil_of_accepted haccepted c))
  · rw [if_neg haccepted]
    have hnone : front.accepted = none := by simpa using haccepted
    refine ⟨?_, fun p hp => Or.inl hp, fun t ht => ?_⟩
    · simp [Front.found, Front.match?, hnone, Thread.found]
    · rcases List.mem_cons.1 ht with rfl | ht
      · exact Or.inr hrest
      · exact Or.inl ht

namespace Regex

/-- **Going through an expression adds its ways.**  Only an expression that may match without a
character goes on to what is left behind it at the same position. -/
theorem follows_explore {c : Cursor} {r : Regex} (hr : r.steady) {rest : Point}
    {follow : Trail → Front → Front} (hrest : rest.Steady)
    (hfollow : r.nullable → Follows c rest follow) :
    Follows c (rest.push r) (r.explore c rest follow) := by
  induction r generalizing rest follow with
  | empty =>
      refine (hfollow rfl).congr ?_ ?_
      · rw [Point.ways_push, ways_empty, Way.here_chain]
      · simp [nullable]
  | char cls => exact follows_push hrest
  | seq a b iha ihb =>
      simp only [steady, Bool.and_eq_true] at hr
      -- the second part is met at this position only if the first one needs no character
      have hb : a.nullable → Follows c (rest.push b) (b.explore c rest follow) := fun ha =>
        ihb hr.2 hrest fun hb => hfollow (by simp [nullable, ha, hb])
      refine (iha hr.1 (Point.steady_push.2 ⟨hr.2, hrest⟩) hb).congr ?_ ?_
      · simp only [Point.ways_push, ways_seq]
        exact Way.chain_assoc _ _ _
      · simp only [Point.rank_push, size, nullable]
        by_cases ha : a.nullable <;> by_cases hb : b.nullable <;> simp [ha, hb] <;> omega
  | alt a b iha ihb =>
      simp only [steady, Bool.and_eq_true] at hr
      have hranka : (rest.push a).rank < (rest.push (alt a b)).rank :=
        rest.rank_push_lt (by simp only [size]; omega) fun ha => by simp [nullable, ha]
      have hrankb : (rest.push b).rank < (rest.push (alt a b)).rank :=
        rest.rank_push_lt (by simp only [size]; omega) fun hb => by simp [nullable, hb]
      exact follows_both (iha hr.1 hrest fun ha => hfollow (by simp [nullable, ha]))
        (ihb hr.2 hrest fun hb => hfollow (by simp [nullable, hb])) hranka hrankb
        (by simp [ways_alt])
  | star body greedy ih =>
      simp only [steady, Bool.and_eq_true, Bool.not_eq_true'] at hr
      obtain ⟨hbody, hsteady⟩ := hr
      have hrest' : (rest.push (star body greedy)).Steady :=
        Point.steady_push.2 ⟨by simp [steady, hbody, hsteady], hrest⟩
      -- the rounds do not come back to the repetition at this position
      have hround : Follows c ((rest.push (star body greedy)).push body)
          (body.explore c (rest.push (star body greedy)) fun _ front => front) :=
        ih hsteady hrest' (by simp [hbody])
      have hrank : ((rest.push (star body greedy)).push body).rank <
          (rest.push (star body greedy)).rank := by
        simp only [Point.rank_push, size, nullable, hbody]
        simp
        omega
      have hrank' : rest.rank < (rest.push (star body greedy)).rank := by
        simp only [Point.rank_push, size, nullable]
        simp
      have hassoc : Way.chain (Way.chain (body.ways c) (star body greedy).ways) rest.ways =
          ((rest.push (star body greedy)).push body).ways c := Way.chain_assoc _ _ _
      cases greedy with
      | true =>
          refine follows_both hround (hfollow rfl) hrank hrank' ?_
          rw [Point.ways_push, ways_star hbody, if_pos rfl, Way.chain_append, hassoc, Way.here_chain]
      | false =>
          refine follows_both (hfollow rfl) hround hrank' hrank ?_
          rw [Point.ways_push, ways_star hbody, if_neg (by simp), ← List.singleton_append,
            Way.chain_append, hassoc, Way.here_chain]
  | plus body greedy ih =>
      simp only [steady, Bool.and_eq_true, Bool.not_eq_true'] at hr
      obtain ⟨hbody, hsteady⟩ := hr
      have hrest' : (rest.push (star body greedy)).Steady :=
        Point.steady_push.2 ⟨by simp [steady, hbody, hsteady], hrest⟩
      -- behind the first round a repetition is left, which the rest of the search does not meet here
      refine (ih hsteady hrest' (by simp [hbody])).congr ?_ ?_
      · simp only [Point.ways_push, ways_plus]
        exact Way.chain_assoc _ _ _
      · simp only [Point.rank_push, size, nullable, hbody]
        simp
  | mark m =>
      intro trail front hready
      have hext := hfollow rfl (trail.pass m c) front (hready.mono (by simp [nullable]))
      have hways : ((rest.push (mark m)).ways c).map trail.finish =
          (rest.ways c).map (trail.pass m c).finish := by
        simp [ways_mark, Trail.finish, Trail.pass, Way.join, Function.comp_def]
      rw [hways]
      exact hext
  | assert p =>
      intro trail front hready
      simp only [explore]
      by_cases hp : p.holds c
      · rw [if_pos hp]
        have hways : (rest.push (assert p)).ways c = rest.ways c := by
          rw [Point.ways_push, ways_assert, if_pos hp, Way.here_chain]
        rw [hways]
        exact hfollow rfl trail front (hready.mono (by simp [nullable]))
      · rw [if_neg hp]
        exact Front.extends_self (Or.inr (by simp [ways_assert, hp]))

end Regex

theorem follows_accept (c : Cursor) : Follows c .done Front.accept := by
  intro trail front _
  simp only [Front.accept]
  by_cases haccepted : front.accepted.isSome
  · rw [if_pos haccepted]
    exact Front.extends_self (Or.inl (Front.found_ne_nil_of_accepted haccepted c))
  · rw [if_neg haccepted]
    have hnone : front.accepted = none := by simpa using haccepted
    refine ⟨?_, fun p hp => Or.inl hp, fun t ht => Or.inl ht⟩
    simp [Front.found, Front.match?, hnone, Point.ways, Trail.finish, Way.here]

theorem Point.follows_explore {c : Cursor} {p : Point} (hp : p.Steady) :
    Follows c p (p.explore c) := by
  induction p with
  | done => exact follows_accept c
  | next depth part rest ih =>
      have hpart : part.steady := hp part (List.mem_cons_self ..)
      have hrest : rest.Steady := fun r hr => hp r (List.mem_cons_of_mem _ hr)
      exact (Regex.follows_explore hpart hrest fun _ => ih hrest).congr rfl (Nat.le_refl _)

/-! ### One character further -/

/-- A thread whose class has the next character leads where the rest leads from behind it. -/
theorem Thread.found_of_reads {c d : Cursor} {ch : Char} (h : c.Reads [ch] d) (t : Thread) :
    t.found c = if t.cls.contains ch then (t.rest.ways d).map t.trail.finish else [] := by
  rw [found, Point.ways_push, Regex.ways_char_of_reads h]
  by_cases hcls : t.cls.contains ch
  · rw [if_pos hcls, if_pos hcls, Way.here_chain]
  · rw [if_neg hcls, if_neg hcls, Way.chain_nil, List.map_nil]

theorem Thread.found_of_nil {c : Cursor} (h : c.after = []) (t : Thread) : t.found c = [] := by
  rw [found, Point.ways_push, Regex.ways_char_of_nil h, Way.chain_nil, List.map_nil]

namespace Front

theorem found_empty (c : Cursor) : empty.found c = [] := rfl

theorem ready_empty (c : Cursor) (rank : Nat) : empty.Ready c rank := by
  intro p hp
  simp [empty] at hp

/-- Behind a character the front leads where the threads led in front of it. -/
theorem advance_extends {c d : Cursor} {ch : Char} (h : c.Reads [ch] d) {threads : List Thread}
    (hthreads : ∀ t ∈ threads, t.rest.Steady) :
    Extends d (threads.flatMap (Thread.found c)) empty (advance threads ch d) := by
  -- every point that was followed stays settled, so the fold starts from any such front
  have hfold : ∀ front : Front, (∀ rank, front.Ready d rank) →
      Extends d (threads.flatMap (Thread.found c)) front
        (threads.foldl (fun front t =>
          if t.cls.contains ch then t.rest.explore d t.trail front else front) front) := by
    induction threads with
    | nil => exact fun front _ => extends_self (Or.inr rfl)
    | cons t threads ih =>
        intro front hready
        have hstep : Extends d (t.found c) front
            (if t.cls.contains ch then t.rest.explore d t.trail front else front) := by
          rw [Thread.found_of_reads h]
          by_cases hcls : t.cls.contains ch
          · rw [if_pos hcls, if_pos hcls]
            exact Point.follows_explore (hthreads t (List.mem_cons_self ..)) t.trail front (hready _)
          · rw [if_neg hcls, if_neg hcls]
            exact extends_self (Or.inr rfl)
        have hrest := ih (fun t' ht' => hthreads t' (List.mem_cons_of_mem _ ht')) _
          fun rank => hstep.ready (hready rank)
        exact hstep.trans hrest
  exact hfold empty (ready_empty d)

end Front

/-! ### The whole search -/

namespace Regex

/-- The matches that begin at a position, the preferred one first. -/
def matchesAt (r : Regex) (c : Cursor) : List Match :=
  (r.ways c).map (Trail.finish ⟨c, []⟩)

/-- The matches that begin behind the position at `offset`, those that begin further left first. -/
def matchesBehind (r : Regex) : (offset : Nat) → (after : Text) → List Match
  | _, [] => []
  | offset, ch :: after =>
      r.matchesAt ⟨offset + 1, some ch, after⟩ ++ matchesBehind r (offset + 1) after

theorem steady_threads {c : Cursor} {ms : List Match} {front : Front}
    (h : Front.Extends c ms .empty front) : ∀ t ∈ front.threads.reverse, t.rest.Steady := by
  intro t ht
  rcases h.threads t (List.mem_reverse.1 ht) with ht | ht
  · simp [Front.empty] at ht
  · exact ht

/-- The threads lead to the match that is found, if there is one; then comes the match found before,
and then those that begin further right. -/
theorem scan_eq {r : Regex} (hr : r.steady) (after : Text) :
    ∀ (threads : List Thread) (found : Option Match) (offset : Nat) (previous : Option Char),
      (∀ t ∈ threads, t.rest.Steady) →
      scan (Point.done.before r) threads found offset after =
        (threads.flatMap (Thread.found ⟨offset, previous, after⟩) ++ found.toList ++
          r.matchesBehind offset after).head? := by
  have hfirst : (Point.done.before r).Steady :=
    Point.steady_before hr fun p hp => by simp [Point.parts] at hp
  induction after with
  | nil =>
      intro threads found offset previous _
      have hnone : threads.flatMap (Thread.found ⟨offset, previous, []⟩) = [] := by
        simp [Thread.found_of_nil]
      cases found with
      | none => simp [scan, hnone, matchesBehind]
      | some m => simp [scan, hnone]
  | cons ch after ih =>
      intro threads found offset previous hthreads
      have hreads : Cursor.Reads ⟨offset, previous, ch :: after⟩ [ch] ⟨offset + 1, some ch, after⟩ :=
        ⟨rfl, rfl, rfl⟩
      have hext := Front.advance_extends hreads hthreads
      cases found with
      | some m =>
          by_cases hempty : threads.isEmpty
          · simp [scan, List.isEmpty_iff.1 hempty]
          · simp only [scan, if_neg hempty]
            rw [ih _ _ _ (some ch) (steady_threads hext)]
            have hhead := hext.head
            rw [Front.found_empty, List.nil_append, Front.found] at hhead
            cases hmatch : (Front.advance threads ch ⟨offset + 1, some ch, after⟩).match?
                ⟨offset + 1, some ch, after⟩ with
            | none =>
                rw [hmatch, Option.toList_none, List.append_nil] at hhead
                simp [List.head?_append, hhead]
            | some m' =>
                rw [hmatch, List.head?_append] at hhead
                simp [List.head?_append, ← hhead]
      | none =>
          simp only [scan]
          have hext' := hext.trans (Point.follows_explore hfirst ⟨⟨offset + 1, some ch, after⟩, []⟩ _
            (hext.ready (Front.ready_empty _ _)))
          rw [ih _ _ _ (some ch) (steady_threads hext')]
          have hhead := hext'.head
          rw [Front.found_empty, List.nil_append, Front.found, Point.ways_before] at hhead
          have hways : Way.chain (r.ways ⟨offset + 1, some ch, after⟩) Point.done.ways =
              r.ways ⟨offset + 1, some ch, after⟩ := Way.chain_here _
          rw [hways] at hhead
          rw [List.head?_append, hhead, ← List.head?_append]
          simp [matchesBehind, matchesAt]

/-- **The search finds the preferred way.**  The match found is the first of all matches: those that
begin further left come first, and those that begin at one position in the order in which the
expression prefers them. -/
theorem searchFrom_eq {r : Regex} (hr : r.steady) (c : Cursor) :
    r.searchFrom c = (r.matchesAt c ++ r.matchesBehind c.offset c.after).head? := by
  have hfirst : (Point.done.before r).Steady :=
    Point.steady_before hr fun p hp => by simp [Point.parts] at hp
  have hext := Point.follows_explore hfirst ⟨c, []⟩ .empty (Front.ready_empty c _)
  simp only [searchFrom]
  rw [scan_eq hr c.after _ _ c.offset c.previous (steady_threads hext)]
  have hhead := hext.head
  rw [Front.found_empty, List.nil_append, Front.found, Point.ways_before] at hhead
  have hways : Way.chain (r.ways c) Point.done.ways = r.ways c := Way.chain_here _
  rw [hways] at hhead
  rw [List.head?_append, hhead, ← List.head?_append, matchesAt]

/-- A match begins at some position from where the search began, and is a way from there. -/
theorem exists_of_mem_matchesBehind {r : Regex} {m : Match} {after : Text} :
    ∀ {offset : Nat} {previous : Option Char}, m ∈ r.matchesBehind offset after →
      ∃ s d, Cursor.Reads ⟨offset, previous, after⟩ s d ∧
        ∃ w ∈ r.ways d, m = Trail.finish ⟨d, []⟩ w := by
  induction after with
  | nil =>
      intro offset previous h
      simp [matchesBehind] at h
  | cons ch after ih =>
      intro offset previous h
      have hreads : Cursor.Reads ⟨offset, previous, ch :: after⟩ [ch]
          ⟨offset + 1, some ch, after⟩ := ⟨rfl, rfl, rfl⟩
      rcases List.mem_append.1 h with h | h
      · obtain ⟨w, hw, rfl⟩ := List.mem_map.1 h
        exact ⟨_, _, hreads, w, hw, rfl⟩
      · obtain ⟨s, d, hs, hw⟩ := ih h
        exact ⟨_, d, hreads.trans hs, hw⟩

theorem exists_of_searchFrom {r : Regex} (hr : r.steady) {c : Cursor} {m : Match}
    (h : r.searchFrom c = some m) :
    ∃ s d, c.Reads s d ∧ ∃ w ∈ r.ways d, m = Trail.finish ⟨d, []⟩ w := by
  rw [searchFrom_eq hr] at h
  rcases List.mem_append.1 (List.mem_of_head? h) with h | h
  · obtain ⟨w, hw, rfl⟩ := List.mem_map.1 h
    exact ⟨[], c, .refl c, w, hw, rfl⟩
  · exact exists_of_mem_matchesBehind h

/-! ### Successive matches -/

theorem exists_of_searchAfter {r : Regex} (hr : r.steady) {c : Cursor} {m : Match}
    (h : r.searchAfter c = some m) : ∃ d, ∃ w ∈ r.ways d, m = Trail.finish ⟨d, []⟩ w := by
  unfold searchAfter at h
  cases hfound : r.searchFrom c with
  | none => simp [hfound] at h
  | some found =>
      rw [hfound] at h
      simp only at h
      by_cases hempty : found.span.stop.offset = c.offset
      · rw [if_pos hempty] at h
        cases hnext : c.next? with
        | none => simp [hnext] at h
        | some next =>
            simp only [hnext] at h
            obtain ⟨s, d, -, hw⟩ := exists_of_searchFrom hr h
            exact ⟨d, hw⟩
      · rw [if_neg hempty, Option.some.injEq] at h
        obtain ⟨s, d, -, hw⟩ := exists_of_searchFrom hr hfound
        exact ⟨d, h ▸ hw⟩

/-- Each of the matches that are collected is a way of the expression. -/
theorem exists_of_mem_collect {r : Regex} (hr : r.steady) {m : Match} (fuel : Nat) :
    ∀ {found : Option Match}, (∀ m ∈ found, ∃ d, ∃ w ∈ r.ways d, m = Trail.finish ⟨d, []⟩ w) →
      m ∈ r.collect fuel found → ∃ d, ∃ w ∈ r.ways d, m = Trail.finish ⟨d, []⟩ w := by
  induction fuel with
  | zero => exact fun _ hm => absurd hm List.not_mem_nil
  | succ fuel ih =>
      intro found hfound hm
      cases found with
      | none => exact absurd hm List.not_mem_nil
      | some m' =>
          rcases List.mem_cons.1 hm with rfl | hm
          · exact hfound m rfl
          · exact ih (fun m'' hm'' => exists_of_searchAfter hr hm'') hm

/-- Each of the successive matches is a way of the expression. -/
theorem exists_of_mem_findAll {r : Regex} (hr : r.steady) {text : Text} {m : Match}
    (hm : m ∈ r.findAll text) : ∃ d, ∃ w ∈ r.ways d, m = Trail.finish ⟨d, []⟩ w := by
  refine exists_of_mem_collect hr _ (fun m' hm' => ?_) hm
  obtain ⟨s, d, -, hw⟩ := exists_of_searchFrom hr hm'
  exact ⟨d, hw⟩

/-! ### Expressions that begin with the text -/

/-- An expression that begins where the text does has no match further right. -/
theorem matchesBehind_textStart (r : Regex) (after : Text) :
    ∀ offset, (seq (assert .textStart) r).matchesBehind offset after = [] := by
  induction after with
  | nil => exact fun _ => rfl
  | cons ch after ih =>
      intro offset
      have hnone : (seq (assert .textStart) r).matchesAt ⟨offset + 1, some ch, after⟩ = [] := by
        simp [matchesAt, ways_seq, ways_assert, Assertion.holds]
      rw [matchesBehind, hnone, ih, List.append_nil]

/-- An expression that begins where the text does is matched by its preferred way from there. -/
theorem search_textStart {r : Regex} (hr : r.steady) (text : Text) :
    (seq (assert .textStart) r).search text =
      (r.ways (Cursor.start text)).head?.map (Trail.finish ⟨Cursor.start text, []⟩) := by
  have hsteady : (seq (assert .textStart) r).steady := by simp [steady, hr]
  have hways : (seq (assert .textStart) r).ways (Cursor.start text) = r.ways (Cursor.start text) := by
    rw [ways_seq, ways_assert, if_pos (by simp [Assertion.holds, Cursor.start]), Way.here_chain]
  rw [search, searchFrom_eq hsteady, matchesBehind_textStart, List.append_nil, matchesAt, hways,
    List.head?_map]

end Regex

end Transcript
