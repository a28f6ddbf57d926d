/-
**Newlines at the end of an output.**

The end of a program leaves any number of newlines at the end of an output to nobody.  So an output
that matches still matches with more newlines at its end.  What the tags capture mostly stays the
same as well: a tag that takes as little as it can stops where it stopped before, by the crossing
argument.  But a tag that takes as much as it can may now take more, if the new newline can become part
of what stands in front of the last tag: then everything behind it moves.

Main definitions:

* `Transcript.Shape.isEager` — tags that take more where they can;
* `Transcript.Fragment.moved` — the names whose values such a tag may move;
* `Transcript.Fragment.Keeps` — the same is captured in the longer output.

Main results:

* `Transcript.Fragment.Orderly.keeps` — **the names that are not moved keep their values**.
-/

import Transcript.Matcher
import Transcript.Proofs.Markup.Delimited
import Transcript.Proofs.Match.Crossing

set_option relaxedAutoImplicit false
set_option autoImplicit false

namespace Transcript

/-! ### Names that may move -/

/-- The tag takes more where it can: white space in front of its value, or as much as it can. -/
def Shape.isEager : Shape → Bool
  | .tag _ .bothSpace _ => true
  | .tag _ _ greedy => greedy
  | _ => false

namespace Fragment

def names (fragments : List Fragment) : List Text := fragments.filterMap name?

theorem names_cons (f : Fragment) (fragments : List Fragment) :
    names (f :: fragments) = f.name?.toList ++ names fragments := by
  rw [names, List.filterMap_cons]
  cases f.name? <;> rfl

/-- The names that may capture something else in a longer output: those that are bound from the first
tag on that takes more where it can and has loose fragments behind it. -/
def moved : List Fragment → List Text
  | [] => []
  | f :: fragments =>
      if f.shape.isEager && loose fragments then names (f :: fragments) else moved fragments

theorem moved_subset_names (fragments : List Fragment) : moved fragments ⊆ names fragments := by
  induction fragments with
  | nil => exact fun name hname => hname
  | cons f fragments ih =>
      intro name hname
      unfold moved at hname
      by_cases hmoves : f.shape.isEager && loose fragments
      · rwa [if_pos hmoves] at hname
      · rw [if_neg hmoves] at hname
        rw [names_cons]
        exact List.mem_append_right _ (ih hname)

/-- A name that moves in what follows moves. -/
theorem moved_subset_cons (f : Fragment) (fragments : List Fragment) :
    moved fragments ⊆ moved (f :: fragments) := by
  intro name hname
  rw [moved]
  by_cases hmoves : f.shape.isEager && loose fragments
  · rw [if_pos hmoves, names_cons]
    exact List.mem_append_right _ (moved_subset_names fragments hname)
  · rwa [if_neg hmoves]

theorem groups_eq_names (fragments : List Fragment) :
    (fragments.flatMap fun f => f.shape.groups) = (names fragments).map groupName :=
  flatMap_groups fragments

end Fragment

/-! ### The groups of a way -/

theorem Shape.markless_items {shape : Shape} (h : shape.tag?.join = none) :
    (Regex.concat shape.items).markless = true := by
  cases shape with
  | literal text =>
      induction text with
      | nil => rfl
      | cons ch text ih => exact ih rfl
  | tag binding context greedy =>
      obtain rfl : binding = none := h
      cases context <;> rfl
  | finish anchor => cases anchor <;> rfl
  | _ => rfl

/-- The ways of a fragment pass the ends of its own group only. -/
theorem Shape.group_of_mem_ways {shape : Shape} {c : Cursor} {w : Way} (hw : w ∈ shape.ways c) :
    ∀ m ∈ w.marks, m.1.group ∈ shape.groups := by
  cases hname : shape.tag?.join with
  | none => simp [Regex.marks_of_mem_ways (markless_items hname) hw]
  | some name =>
      cases shape with
      | tag binding context greedy =>
          obtain rfl : binding = some name := hname
          rcases exists_of_mem_ways_tag hw with ⟨-, -, d, e, -, -, -, -, rfl⟩ | rfl
          · simp [taken, bind, Way.here, Mark.group, groups, tag?]
          · simp [Way.here]
      | _ => simp [tag?] at hname

namespace Fragment

/-- The ways of fragments pass the ends of their groups only. -/
theorem group_of_mem_ways {fragments : List Fragment} :
    ∀ {c : Cursor} {w : Way}, w ∈ ways fragments c →
      ∀ m ∈ w.marks, m.1.group ∈ (names fragments).map groupName := by
  intro c w hw
  rw [← groups_eq_names]
  induction fragments generalizing c w with
  | nil =>
      rw [List.mem_singleton.1 hw]
      simp [Way.here]
  | cons f fragments ih =>
      obtain ⟨u, hu, v, hv, rfl⟩ := Way.mem_chain.1 hw
      intro m hm
      rw [List.flatMap_cons]
      rcases List.mem_append.1 hm with hm | hm
      · exact List.mem_append_right _ (ih hv m hm)
      · exact List.mem_append_left _ (Shape.group_of_mem_ways hu m hm)

/-! ### The first way -/

/-- The same is captured in the longer output, but for the names that may move. -/
def Keeps (fragments : List Fragment) (c : Cursor) : Prop :=
  ∀ w, (ways fragments c).head? = some w →
    ∃ w', (ways fragments c.extend).head? = some w' ∧
      ∀ group, group ∉ (moved fragments).map groupName → Way.AgreesOn group w w'

theorem fits_of_head? {fragments : List Fragment} {c : Cursor} {w : Way}
    (h : (ways fragments c).head? = some w) : Fits fragments c :=
  ways_ne_nil_iff.1 fun hnil => by simp [hnil] at h

/-- The fragments keep what is captured if the first one goes on to where it went on to, and the
others keep it from there. -/
theorem Keeps.cons {f : Fragment} {fragments : List Fragment} {c : Cursor}
    (h : ∀ d, Keeps fragments d)
    (hf : ∀ before u after, f.shape.ways c = before ++ u :: after →
      (∀ x ∈ before, ¬Fits fragments x.stop) → Fits fragments u.stop →
      ∃ before' after', f.shape.ways c.extend = before' ++ u.extend :: after' ∧
        ∀ x ∈ before', ¬Fits fragments x.stop) :
    Keeps (f :: fragments) c := by
  intro w hw
  obtain ⟨before, u, after, v, hways, hbefore, hv, rfl⟩ := Way.head?_chain_eq_some.1 hw
  obtain ⟨before', after', hways', hbefore'⟩ := hf before u after hways
    (fun x hx => ways_eq_nil_iff.1 (hbefore x hx)) (fits_of_head? hv)
  obtain ⟨v', hv', hagrees⟩ := h u.stop v hv
  refine ⟨u.extend.join v', Way.head?_chain_eq_some.2 ⟨before', u.extend, after', v', hways',
    fun x hx => ways_eq_nil_iff.2 (hbefore' x hx), hv', rfl⟩, fun group hgroup => ?_⟩
  refine (Way.agreesOn_extend group u).join (hagrees group fun hmem => hgroup ?_)
  exact List.map_subset groupName (moved_subset_cons f fragments) hmem

/-- Where all names may move, nothing has to be kept. -/
theorem keeps_of_moved {fragments : List Fragment} (h : moved fragments = names fragments)
    (hextend : ∀ c, Fits fragments c → Fits fragments c.extend) (c : Cursor) :
    Keeps fragments c := by
  intro w hw
  have hne := ways_ne_nil_iff.2 (hextend c (fits_of_head? hw))
  obtain ⟨w', rest, hways⟩ := List.exists_cons_of_ne_nil hne
  refine ⟨w', by rw [hways]; rfl, fun group hgroup => Way.agreesOn_of_group ?_ ?_⟩
  · rintro m hm rfl
    rw [h] at hgroup
    exact hgroup (group_of_mem_ways (List.mem_of_mem_head? hw) m hm)
  · rintro m hm rfl
    rw [h] at hgroup
    exact hgroup (group_of_mem_ways (by rw [hways]; exact List.mem_cons_self ..) m hm)

theorem moved_of_loose {f : Fragment} {fragments : List Fragment} (heager : f.shape.isEager = true)
    (hloose : loose fragments = true) : moved (f :: fragments) = names (f :: fragments) := by
  rw [moved, heager, hloose]
  rfl

/-! ### Fragments with one way -/

/-- A fragment that goes through at most one part of a text. -/
theorem Keeps.cons_of_unique {f : Fragment} {fragments : List Fragment} {c : Cursor}
    (h : ∀ d, Keeps fragments d) (hname : f.shape.tag?.join = none)
    (hunique : ∀ {c d d' : Cursor} {s s' : Text}, c.Reads s d → c.Reads s' d' →
      f.shape.Admits c s d → f.shape.Admits c s' d' → s.length ≤ s'.length)
    (hextend : ∀ s d, f.shape.Admits c s d → Fits fragments d → f.shape.Admits c.extend s d.extend) :
    Keeps (f :: fragments) c := by
  refine Keeps.cons h fun before u after hways _ hfits => ?_
  have hmarks {c : Cursor} {x : Way} (hx : x ∈ f.shape.ways c) : x.marks = [] :=
    Regex.marks_of_mem_ways (Shape.markless_items hname) hx
  have hu : u ∈ f.shape.ways c := by simp [hways]
  obtain ⟨s, hs, hadmits⟩ := Shape.leads_iff.1 ⟨u, hu, rfl⟩
  have hadmits' := hextend s u.stop hadmits hfits
  have hall : ∀ x ∈ f.shape.ways c.extend, x = u.extend := by
    intro x hx
    obtain ⟨t, ht, hx'⟩ := Shape.leads_iff.1 ⟨x, hx, rfl⟩
    have hle := hunique hs.extend ht hadmits' hx'
    have hge := hunique ht hs.extend hx' hadmits'
    obtain ⟨v, rfl, hv⟩ := hs.extend.compare ht hle
    obtain rfl : v = [] := List.length_eq_zero_iff.1 (by rw [List.length_append] at hge; omega)
    rw [Way.eq_here (hmarks hx), hv.eq_of_nil, Way.eq_here (hmarks hu)]
    rfl
  obtain ⟨x, hx, -⟩ := Shape.leads_iff.2 ⟨s, hs.extend, hadmits'⟩
  obtain ⟨y, rest, hy⟩ := List.exists_cons_of_ne_nil (List.ne_nil_of_mem hx)
  have hfirst := hall y (by rw [hy]; exact List.mem_cons_self ..)
  exact ⟨[], rest, by rw [hy, hfirst]; rfl, by simp⟩

/-- A run of white space that cannot be longer goes as far as another. -/
theorem length_le_of_admits_spaces {c d d' : Cursor} {s s' : Text} (h : c.Reads s d)
    (h' : c.Reads s' d') (hs : Shape.Admits c s d .spaces) (hs' : Shape.Admits c s' d' .spaces) :
    s.length ≤ s'.length := by
  refine Nat.not_lt.1 fun hlt => ?_
  obtain ⟨v, rfl, hv⟩ := h'.compare h (by omega)
  have hnil := hv.eq_nil_of_blank hs'.2.2 fun b hb => hs.2.1 b (List.mem_append_right _ hb)
  simp [hnil] at hlt

/-! ### Tags -/

/-- A tag that does not stop behind a newline. -/
theorem Keeps.cons_guarded {fragments : List Fragment} {c : Cursor} (h : ∀ d, Keeps fragments d)
    (offset : Nat) (binding : Option Text) {context : TagContext}
    (hcontext : context = .rightSpace ∨ context = .bothSpace ∨ context = .lineEnd) (greedy : Bool)
    (hback : ∀ before u after, (Shape.tag binding context greedy).ways c = before ++ u :: after →
      Fits fragments u.stop → ∀ x ∈ before, Fits fragments x.stop.extend → Fits fragments x.stop) :
    Keeps (⟨offset, .tag binding context greedy⟩ :: fragments) c := by
  refine Keeps.cons h fun before u after hways hbefore hfits => ?_
  refine ⟨before.map Way.extend, after.map Way.extend, ?_, fun y hy hy' => ?_⟩
  · rw [Shape.ways_guarded_extend binding hcontext, hways, List.map_append, List.map_cons]
  · obtain ⟨x, hx, rfl⟩ := List.mem_map.1 hy
    exact hbefore x hx (hback before u after hways hfits x hx hy')

/-- A tag that may stop anywhere.  The end of the longer output is new; a tag that takes as much as it
can tries it first. -/
theorem Keeps.cons_bare {fragments : List Fragment} {c : Cursor} (h : ∀ d, Keeps fragments d)
    (offset : Nat) (binding : Option Text) {context : TagContext}
    (hcontext : context = .bare ∨ context = .leftSpace) (greedy : Bool)
    (hback : ∀ before u after, (Shape.tag binding context greedy).ways c = before ++ u :: after →
      Fits fragments u.stop → ∀ x ∈ before, Fits fragments x.stop.extend → Fits fragments x.stop)
    (hlast : greedy = true → ¬Fits fragments c.last) :
    Keeps (⟨offset, .tag binding context greedy⟩ :: fragments) c := by
  refine Keeps.cons h fun before u after hways hbefore hfits => ?_
  have hnew : ∀ y ∈ before.map Way.extend, ¬Fits fragments y.stop := by
    intro y hy hy'
    obtain ⟨x, hx, rfl⟩ := List.mem_map.1 hy
    exact hbefore x hx (hback before u after hways hfits x hx hy')
  rw [Shape.ways_bare_extend binding hcontext, hways, List.map_append, List.map_cons]
  cases greedy with
  | false => exact ⟨before.map Way.extend, _, by simp; rfl, hnew⟩
  | true =>
      refine ⟨Shape.taken binding c.extend c.last :: before.map Way.extend, _, by simp; rfl, ?_⟩
      intro y hy
      rcases List.mem_cons.1 hy with rfl | hy
      · rw [Shape.taken_stop]
        exact hlast rfl
      · exact hnew y hy

/-- Where the ways come in the order of the text, no position in front of the chosen one is won. -/
theorem Orderly.back_of_pairwise {fragments : List Fragment} (h : Orderly fragments)
    {ws : List Way} (hws : ws.Pairwise fun x y => ∃ s, x.stop.Reads s y.stop) :
    ∀ before u after, ws = before ++ u :: after → Fits fragments u.stop →
      ∀ x ∈ before, Fits fragments x.stop.extend → Fits fragments x.stop := by
  rintro before u after rfl hfits x hx hnew
  obtain ⟨s, hs⟩ := (List.pairwise_append.1 hws).2.2 x hx u (List.mem_cons_self ..)
  exact h.fits_of_later hs hnew hfits

/-- A tag that takes as little as it can tries the positions in the order of the text. -/
theorem pairwise_taken (binding : Option Text) (c : Cursor) {ds : List Cursor}
    (h : ds.Pairwise fun d e => ∃ s, d.Reads s e) :
    (ds.map (Shape.taken binding c)).Pairwise fun x y => ∃ s, x.stop.Reads s y.stop := by
  rw [List.pairwise_map]
  exact h.imp fun hreads => by simpa using hreads

/-- **Fragments capture the same in the longer output**, but for the names that may move. -/
theorem Orderly.keeps {fragments : List Fragment} (h : Orderly fragments) :
    ∀ c, Keeps fragments c := by
  induction h with
  | finish offset anchor => exact keeps_of_moved rfl (Orderly.finish offset anchor).extend
  | literal offset hne hlast h ih =>
      -- a literal has no choice, and neither has a run of white space
      intro c
      refine Keeps.cons_of_unique ih rfl ?_ fun s d hadmits _ => hadmits
      rintro c d d' s s' - - rfl rfl
      exact Nat.le_refl _
  | spaces offset hdemands h ih =>
      intro c
      exact Keeps.cons_of_unique ih rfl length_le_of_admits_spaces
        fun s d hadmits hrest => hadmits.extend (hdemands d hrest)
  | @bare fragments offset binding context greedy hcontext hdemands h ih =>
      intro c
      cases greedy with
      | false =>
          -- the nearest positions are tried first, and none of them is won
          refine Keeps.cons_bare ih offset binding hcontext false (h.back_of_pairwise ?_) (by simp)
          rw [Shape.ways_bare binding hcontext]
          exact pairwise_taken binding c c.pairwise_places
      | true =>
          -- the end is tried first: either nothing fits there, or all names may move from here on
          rcases h.closed_or_loose hdemands with hclosed | hloose
          · exact Keeps.cons_bare ih offset binding hcontext true
              (fun _ _ _ _ _ x _ => hclosed.settled x.stop)
              fun _ hlast => hclosed.not_last _ hlast c.last_after c.last_previous
          · have heager : (Shape.tag binding context true).isEager = true := by
              rcases hcontext with rfl | rfl <;> rfl
            exact keeps_of_moved (moved_of_loose heager hloose)
              (Orderly.bare offset binding true hcontext hdemands h).extend c
  | @rightSpace fragments offset binding greedy hblank h ih =>
      intro c
      cases greedy with
      | false =>
          refine Keeps.cons_guarded ih offset binding (Or.inl rfl) false (h.back_of_pairwise ?_)
          rw [Shape.ways_rightSpace]
          exact pairwise_taken binding c (c.pairwise_places.filter _)
      | true =>
          rcases h.settled_or_loose with hsettled | hloose
          · exact Keeps.cons_guarded ih offset binding (Or.inl rfl) true
              fun _ _ _ _ _ x _ => hsettled x.stop
          · exact keeps_of_moved (moved_of_loose rfl hloose)
              (Orderly.rightSpace offset binding true hblank h).extend c
  | @bothSpace fragments offset offset' binding greedy hblank h ih =>
      intro c
      have hextend (d : Cursor) (hfits : Fits (⟨offset', .tag binding .bothSpace greedy⟩ :: fragments) d) :
          Fits (⟨offset', .tag binding .bothSpace greedy⟩ :: fragments) d.extend :=
        fits_cons_extend (fun s e hadmits _ => hadmits) h.extend hfits
      -- the tag prefers to take part, so it may take what it did not take before
      have htag (d : Cursor) :
          Keeps (⟨offset', .tag binding .bothSpace greedy⟩ :: fragments) d := by
        rcases h.settled_or_loose with hsettled | hloose
        · exact Keeps.cons_guarded ih offset' binding (Or.inr (Or.inl rfl)) greedy
            fun _ _ _ _ _ x _ => hsettled x.stop
        · exact keeps_of_moved (moved_of_loose rfl hloose) hextend d
      refine Keeps.cons_of_unique htag rfl ?_ fun s d hadmits _ => hadmits
      rintro c d d' s s' - - ⟨b, -, rfl⟩ ⟨b', -, rfl⟩
      exact Nat.le_refl _
  | lineEnd offset offset' binding greedy =>
      intro c
      refine Keeps.cons_guarded (keeps_of_moved rfl (Orderly.finish offset' .newlines).extend)
        offset binding (Or.inr (Or.inr rfl)) greedy ?_
      exact fun _ _ _ _ _ x _ => (Ending.finish offset' .newlines).settled x.stop

end Fragment

end Transcript
