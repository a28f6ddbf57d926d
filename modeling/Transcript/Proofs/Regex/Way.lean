/-
**The ways of an expression.**

The search of this library follows all ways of an expression side by side.  This module says what
those ways are, one after the other: `Transcript.Regex.ways r c` lists every way in which `r` may
match from the position `c`, in the order of preference.  A sequence takes each way of its first part
and goes on from there; an alternative lists the ways of its first part first; a greedy repetition
lists the ways of one more round before the way that stops, and a lazy one the other way round.

A round of a repetition that consumes nothing would lead nowhere new.  The expressions of this
library have none: `Transcript.Regex.steady` says that no repetition has a body that may match
without a character, and under it the fuel of a repetition is never felt.

Main definitions:

* `Transcript.Cursor.Reads` — going through a text from one position to another;
* `Transcript.Way` — the ends of groups that a way passes, and where it stops;
* `Transcript.Way.chain` — the ways that go on from where other ways stop;
* `Transcript.Regex.ways` — **the ways of an expression**, the preferred one first;
* `Transcript.Regex.steady` — no repetition has an empty round.

Main results:

* `Transcript.Way.chain_assoc` — going on twice is going on by what goes on;
* `Transcript.Regex.reads_of_mem_ways` — a way goes through a part of the text;
* `Transcript.Regex.ways_star` — a repetition is a round and the repetition, or nothing.
-/

import Transcript.Regex.Match

set_option relaxedAutoImplicit false
set_option autoImplicit false

namespace Transcript

/-! ### Going through a text -/

namespace Cursor

/-- Going through the text `s` leads from the position `c` to the position `d`. -/
structure Reads (c : Cursor) (s : Text) (d : Cursor) : Prop where
  after : c.after = s ++ d.after
  offset : d.offset = c.offset + s.length
  previous : d.previous = s.getLast?.or c.previous

/-- The position behind a text, when `rest` is what follows there. -/
def past (c : Cursor) (s rest : Text) : Cursor :=
  ⟨c.offset + s.length, s.getLast?.or c.previous, rest⟩

theorem reads_past {c : Cursor} {s rest : Text} (h : c.after = s ++ rest) :
    c.Reads s (c.past s rest) := ⟨h, rfl, rfl⟩

namespace Reads

theorem refl (c : Cursor) : c.Reads [] c := ⟨rfl, rfl, rfl⟩

theorem trans {c d e : Cursor} {s t : Text} (h : c.Reads s d) (h' : d.Reads t e) :
    c.Reads (s ++ t) e where
  after := by rw [h.after, h'.after, List.append_assoc]
  offset := by rw [h'.offset, h.offset, List.length_append]; omega
  previous := by rw [h'.previous, h.previous, List.getLast?_append, Option.or_assoc]

theorem length {c d : Cursor} {s : Text} (h : c.Reads s d) :
    c.after.length = s.length + d.after.length := by
  rw [h.after, List.length_append]

theorem eq_of_nil {c d : Cursor} (h : c.Reads [] d) : d = c := by
  obtain ⟨hafter, hoffset, hprevious⟩ := h
  cases c
  cases d
  simp_all

theorem unique {c d e : Cursor} {s : Text} (h : c.Reads s d) (h' : c.Reads s e) : d = e := by
  have hafter : d.after = e.after := List.append_cancel_left (h.after.symm.trans h'.after)
  have hoffset : d.offset = e.offset := by rw [h.offset, h'.offset]
  have hprevious : d.previous = e.previous := by rw [h.previous, h'.previous]
  cases d
  cases e
  simp_all

theorem split {c e : Cursor} {s t : Text} (h : c.Reads (s ++ t) e) :
    ∃ d, c.Reads s d ∧ d.Reads t e := by
  have hc : c.after = s ++ (t ++ e.after) := by rw [h.after, List.append_assoc]
  refine ⟨c.past s (t ++ e.after), reads_past hc, rfl, ?_, ?_⟩
  · have hoffset := h.offset
    rw [List.length_append] at hoffset
    simp only [past]
    omega
  · rw [h.previous, past, List.getLast?_append, Option.or_assoc]

/-- Of two texts that are read from one position, the shorter one is the beginning of the other. -/
theorem compare {c d e : Cursor} {s t : Text} (h : c.Reads s d) (h' : c.Reads t e)
    (hle : s.length ≤ t.length) : ∃ u, t = s ++ u ∧ d.Reads u e := by
  have hprefix : s <+: t :=
    List.prefix_of_prefix_length_le ⟨d.after, h.after.symm⟩ ⟨e.after, h'.after.symm⟩ hle
  obtain ⟨u, rfl⟩ := hprefix
  obtain ⟨d', hd', hu⟩ := h'.split
  rw [h.unique hd']
  exact ⟨u, rfl, hu⟩

/-- From the start of a text, the offset says how much was read. -/
theorem offset_start {text s : Text} {d : Cursor} (h : (start text).Reads s d) : d.offset = s.length := by
  rw [h.offset, start, Nat.zero_add]

end Reads

theorem next?_eq_some {c d : Cursor} {ch : Char} : c.next? = some (ch, d) ↔ c.Reads [ch] d := by
  cases c with
  | mk offset previous after =>
      cases after with
      | nil =>
          refine ⟨fun h => by simp [next?] at h, fun h => ?_⟩
          have := h.after
          simp at this
      | cons x rest =>
          constructor
          · intro h
            simp only [next?, Option.some.injEq, Prod.mk.injEq] at h
            obtain ⟨rfl, rfl⟩ := h
            exact ⟨rfl, rfl, rfl⟩
          · rintro ⟨hafter, hoffset, hprevious⟩
            cases d
            simp_all [next?]

theorem next?_eq_none {c : Cursor} : c.next? = none ↔ c.after = [] := by
  unfold next?
  cases c.after <;> simp

end Cursor

/-! ### Ways -/

/-- A way through an expression: the ends of groups that it passes with their positions, the last
one first, and the position where it stops. -/
structure Way where
  marks : List (Mark × Cursor)
  stop : Cursor
  deriving Repr, DecidableEq

namespace Way

/-- The way that stops where it begins. -/
def here (c : Cursor) : Way := ⟨[], c⟩

def join (first second : Way) : Way := ⟨second.marks ++ first.marks, second.stop⟩

/-- The ways that go on from where the given ones stop. -/
def chain (ws : List Way) (next : Cursor → List Way) : List Way :=
  ws.flatMap fun w => (next w.stop).map w.join

theorem eq_here {w : Way} (h : w.marks = []) : w = here w.stop := by
  cases w
  simp_all [here]

@[simp] theorem join_here (w : Way) : w.join (here w.stop) = w := rfl

@[simp] theorem here_join (c : Cursor) (w : Way) : (here c).join w = w := by simp [here, join]

theorem join_assoc (u v w : Way) : (u.join v).join w = u.join (v.join w) := by simp [join]

@[simp] theorem chain_nil (next : Cursor → List Way) : chain [] next = [] := rfl

@[simp] theorem chain_cons (w : Way) (ws : List Way) (next : Cursor → List Way) :
    chain (w :: ws) next = (next w.stop).map w.join ++ chain ws next := rfl

@[simp] theorem chain_append (ws ws' : List Way) (next : Cursor → List Way) :
    chain (ws ++ ws') next = chain ws next ++ chain ws' next := by simp [chain]

@[simp] theorem here_chain (c : Cursor) (next : Cursor → List Way) : chain [here c] next = next c := by
  have h : (here c).join = id := funext fun w => here_join c w
  rw [chain_cons, chain_nil, List.append_nil, h]
  exact List.map_id _

@[simp] theorem chain_here (ws : List Way) : chain ws (fun c => [here c]) = ws := by
  induction ws with
  | nil => rfl
  | cons w ws ih => simp [ih]

/-- Going on twice is going on by what goes on. -/
theorem chain_assoc (ws : List Way) (next next' : Cursor → List Way) :
    chain (chain ws next) next' = chain ws fun c => chain (next c) next' := by
  have hone (w : Way) (vs : List Way) :
      chain (vs.map w.join) next' = (chain vs next').map w.join := by
    induction vs with
    | nil => rfl
    | cons v vs ih =>
        have hjoin : (w.join v).join = w.join ∘ v.join := funext fun u => join_assoc w v u
        rw [List.map_cons, chain_cons, chain_cons, List.map_append, List.map_map, ih, hjoin]
        rfl
  induction ws with
  | nil => rfl
  | cons w ws ih => rw [chain_cons, chain_append, chain_cons, hone, ih]

theorem mem_chain {ws : List Way} {next : Cursor → List Way} {w : Way} :
    w ∈ chain ws next ↔ ∃ u ∈ ws, ∃ v ∈ next u.stop, u.join v = w := by
  simp [chain]

theorem chain_congr {ws : List Way} {next next' : Cursor → List Way}
    (h : ∀ w ∈ ws, next w.stop = next' w.stop) : chain ws next = chain ws next' := by
  induction ws with
  | nil => rfl
  | cons w ws ih =>
      rw [chain_cons, chain_cons, h w (List.mem_cons_self ..),
        ih fun v hv => h v (List.mem_cons_of_mem _ hv)]

end Way

/-! ### The ways of an expression -/

namespace Regex

/-- The ways of a repetition, of which `step` gives the ways of one round. -/
def rounds (step : Cursor → List Way) (greedy : Bool) : (fuel : Nat) → Cursor → List Way
  | 0, c => [Way.here c]
  | fuel + 1, c =>
      let more := Way.chain (step c) (rounds step greedy fuel)
      if greedy then more ++ [Way.here c] else Way.here c :: more

/-- **The ways of an expression** from a position on, the preferred one first.  A repetition has at
most as many rounds as there are characters ahead. -/
def ways : Regex → Cursor → List Way
  | empty, c => [Way.here c]
  | char cls, c =>
      match c.next? with
      | none => []
      | some (ch, next) => if cls.contains ch then [Way.here next] else []
  | seq a b, c => Way.chain (ways a c) (ways b)
  | alt a b, c => ways a c ++ ways b c
  | star body greedy, c => rounds (ways body) greedy c.after.length c
  | plus body greedy, c =>
      Way.chain (ways body c) fun d => rounds (ways body) greedy d.after.length d
  | mark m, c => [⟨[(m, c)], c⟩]
  | assert p, c => if p.holds c then [Way.here c] else []

/-- No repetition has a body that may match without a character. -/
def steady : Regex → Bool
  | empty => true
  | char _ => true
  | seq a b => a.steady && b.steady
  | alt a b => a.steady && b.steady
  | star body _ => !body.nullable && body.steady
  | plus body _ => !body.nullable && body.steady
  | mark _ => true
  | assert _ => true

@[simp] theorem ways_empty (c : Cursor) : empty.ways c = [Way.here c] := rfl

theorem ways_seq (a b : Regex) (c : Cursor) : (seq a b).ways c = Way.chain (a.ways c) b.ways := rfl

theorem ways_alt (a b : Regex) (c : Cursor) : (alt a b).ways c = a.ways c ++ b.ways c := rfl

theorem ways_mark (m : Mark) (c : Cursor) : (mark m).ways c = [⟨[(m, c)], c⟩] := rfl

theorem ways_assert (p : Assertion) (c : Cursor) :
    (assert p).ways c = if p.holds c then [Way.here c] else [] := rfl

theorem ways_plus (body : Regex) (greedy : Bool) (c : Cursor) :
    (plus body greedy).ways c = Way.chain (body.ways c) (star body greedy).ways := rfl

theorem ways_char_of_reads {cls : CharClass} {c d : Cursor} {ch : Char} (h : c.Reads [ch] d) :
    (char cls).ways c = if cls.contains ch then [Way.here d] else [] := by
  simp only [ways, Cursor.next?_eq_some.2 h]

theorem ways_char_of_nil {cls : CharClass} {c : Cursor} (h : c.after = []) :
    (char cls).ways c = [] := by
  simp only [ways, Cursor.next?_eq_none.2 h]

theorem mem_ways_char {cls : CharClass} {c : Cursor} {w : Way} :
    w ∈ (char cls).ways c ↔ ∃ ch, cls.contains ch ∧ c.Reads [ch] w.stop ∧ w.marks = [] := by
  cases hnext : c.next? with
  | none =>
      rw [ways_char_of_nil (Cursor.next?_eq_none.1 hnext)]
      refine ⟨fun h => by simp at h, ?_⟩
      rintro ⟨ch, -, h, -⟩
      rw [Cursor.next?_eq_some.2 h] at hnext
      simp at hnext
  | some found =>
      obtain ⟨ch, d⟩ := found
      have hreads := Cursor.next?_eq_some.1 hnext
      rw [ways_char_of_reads hreads]
      constructor
      · intro h
        by_cases hcls : cls.contains ch
        · rw [if_pos hcls, List.mem_singleton] at h
          exact ⟨ch, hcls, by rw [h]; exact hreads, by rw [h]; rfl⟩
        · simp [hcls] at h
      · rintro ⟨ch', hcls, h, hmarks⟩
        have hsame := Cursor.next?_eq_some.2 h
        rw [hnext, Option.some.injEq, Prod.mk.injEq] at hsame
        obtain ⟨rfl, rfl⟩ := hsame
        rw [if_pos hcls, List.mem_singleton]
        cases w
        simp_all [Way.here]

/-! ### Ways go through the text -/

/-- Every way goes through a part of the text, which is not empty if `strict` is set. -/
def Advancing (step : Cursor → List Way) (strict : Bool) : Prop :=
  ∀ c, ∀ w ∈ step c, ∃ s, c.Reads s w.stop ∧ (strict → s ≠ [])

theorem reads_of_mem_rounds {step : Cursor → List Way} {greedy : Bool} (h : Advancing step false)
    (fuel : Nat) : Advancing (rounds step greedy fuel) false := by
  induction fuel with
  | zero =>
      intro c w hw
      rw [rounds, List.mem_singleton] at hw
      exact ⟨[], by rw [hw]; exact .refl c, by simp⟩
  | succ fuel ih =>
      intro c w hw
      have hcases : w = Way.here c ∨ w ∈ Way.chain (step c) (rounds step greedy fuel) := by
        cases greedy with
        | false => simpa [rounds] using hw
        | true => exact Or.symm (by simpa [rounds] using hw)
      rcases hcases with rfl | hw
      · exact ⟨[], .refl c, by simp⟩
      · obtain ⟨u, hu, v, hv, rfl⟩ := Way.mem_chain.1 hw
        obtain ⟨s, hs, -⟩ := h c u hu
        obtain ⟨t, ht, -⟩ := ih u.stop v hv
        exact ⟨s ++ t, hs.trans ht, by simp⟩

theorem advancing_ways (r : Regex) : Advancing r.ways (!r.nullable) := by
  induction r with
  | empty =>
      intro c w hw
      rw [ways_empty, List.mem_singleton] at hw
      exact ⟨[], by rw [hw]; exact .refl c, by simp [nullable]⟩
  | char cls =>
      intro c w hw
      obtain ⟨ch, -, h, -⟩ := mem_ways_char.1 hw
      exact ⟨[ch], h, by simp⟩
  | seq a b iha ihb =>
      intro c w hw
      obtain ⟨u, hu, v, hv, rfl⟩ := Way.mem_chain.1 hw
      obtain ⟨s, hs, hs'⟩ := iha c u hu
      obtain ⟨t, ht, ht'⟩ := ihb u.stop v hv
      refine ⟨s ++ t, hs.trans ht, ?_⟩
      cases ha : a.nullable <;> cases hb : b.nullable <;> simp_all [nullable]
  | alt a b iha ihb =>
      intro c w hw
      rcases List.mem_append.1 hw with hw | hw
      · obtain ⟨s, hs, hs'⟩ := iha c w hw
        exact ⟨s, hs, by cases ha : a.nullable <;> simp_all [nullable]⟩
      · obtain ⟨s, hs, hs'⟩ := ihb c w hw
        exact ⟨s, hs, by cases hb : b.nullable <;> simp_all [nullable]⟩
  | star body greedy ih =>
      intro c w hw
      have hbody : Advancing body.ways false := fun c w hw =>
        let ⟨s, hs, _⟩ := ih c w hw
        ⟨s, hs, by simp⟩
      obtain ⟨s, hs, -⟩ := reads_of_mem_rounds hbody _ c w hw
      exact ⟨s, hs, by simp [nullable]⟩
  | plus body greedy ih =>
      intro c w hw
      have hbody : Advancing body.ways false := fun c w hw =>
        let ⟨s, hs, _⟩ := ih c w hw
        ⟨s, hs, by simp⟩
      obtain ⟨u, hu, v, hv, rfl⟩ := Way.mem_chain.1 hw
      obtain ⟨s, hs, hs'⟩ := ih c u hu
      obtain ⟨t, ht, -⟩ := reads_of_mem_rounds hbody _ u.stop v hv
      refine ⟨s ++ t, hs.trans ht, ?_⟩
      cases hb : body.nullable <;> simp_all [nullable]
  | mark m =>
      intro c w hw
      rw [ways_mark, List.mem_singleton] at hw
      exact ⟨[], by rw [hw]; exact .refl c, by simp [nullable]⟩
  | assert p =>
      intro c w hw
      rw [ways_assert] at hw
      by_cases hp : p.holds c
      · rw [if_pos hp, List.mem_singleton] at hw
        exact ⟨[], by rw [hw]; exact .refl c, by simp [nullable]⟩
      · simp [hp] at hw

theorem reads_of_mem_ways {r : Regex} {c : Cursor} {w : Way} (h : w ∈ r.ways c) :
    ∃ s, c.Reads s w.stop :=
  let ⟨s, hs, _⟩ := advancing_ways r c w h
  ⟨s, hs⟩

/-- An expression that may not match without a character consumes one. -/
theorem length_lt_of_mem_ways {r : Regex} (hr : r.nullable = false) {c : Cursor} {w : Way}
    (h : w ∈ r.ways c) : w.stop.after.length < c.after.length := by
  obtain ⟨s, hs, hne⟩ := advancing_ways r c w h
  have := List.length_pos_iff.2 (hne (by simp [hr]))
  rw [hs.length]
  omega

/-! ### Repetition -/

/-- When every round consumes a character, the fuel is not felt as long as there is enough of it. -/
theorem rounds_eq_of_le {step : Cursor → List Way} {greedy : Bool}
    (hstep : ∀ c, ∀ w ∈ step c, w.stop.after.length < c.after.length) :
    ∀ (m n : Nat) (c : Cursor), c.after.length ≤ m → c.after.length ≤ n →
      rounds step greedy m c = rounds step greedy n c := by
  -- with no character ahead there is no round at all
  have hnone (n : Nat) (c : Cursor) (h : c.after.length = 0) :
      rounds step greedy n c = [Way.here c] := by
    cases n with
    | zero => rfl
    | succ n =>
        have hempty : step c = [] := List.eq_nil_iff_forall_not_mem.2 fun w hw => by
          have := hstep c w hw
          omega
        simp [rounds, hempty]
  intro m
  induction m with
  | zero =>
      intro n c hm _
      rw [hnone 0 c (by omega), hnone n c (by omega)]
  | succ m ih =>
      intro n c hm hn
      cases n with
      | zero => rw [hnone _ c (by omega), hnone 0 c (by omega)]
      | succ n =>
          have hmore : Way.chain (step c) (rounds step greedy m) =
              Way.chain (step c) (rounds step greedy n) :=
            Way.chain_congr fun w hw => by
              have := hstep c w hw
              exact ih n w.stop (by omega) (by omega)
          simp only [rounds, hmore]

/-- A repetition whose rounds consume a character is one round and the repetition, or nothing. -/
theorem ways_star {body : Regex} (hbody : body.nullable = false) (greedy : Bool) (c : Cursor) :
    (star body greedy).ways c =
      if greedy then Way.chain (body.ways c) (star body greedy).ways ++ [Way.here c]
      else Way.here c :: Way.chain (body.ways c) (star body greedy).ways := by
  have hstep : ∀ c, ∀ w ∈ body.ways c, w.stop.after.length < c.after.length :=
    fun c w hw => length_lt_of_mem_ways hbody hw
  have hunfold : (star body greedy).ways c =
      rounds body.ways greedy (c.after.length + 1) c :=
    rounds_eq_of_le hstep _ _ c (by omega) (by omega)
  have hmore : Way.chain (body.ways c) (rounds body.ways greedy c.after.length) =
      Way.chain (body.ways c) (star body greedy).ways :=
    Way.chain_congr fun w hw => by
      have := hstep c w hw
      exact rounds_eq_of_le hstep _ _ w.stop (by omega) (by omega)
  rw [hunfold, rounds, hmore]

end Regex

end Transcript
