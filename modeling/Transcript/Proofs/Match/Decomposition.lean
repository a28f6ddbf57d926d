/-
**What is captured where spacing is kept.**

An output that a program matches may often be taken apart in several ways: the segments between the
tags may occur in more than one place.  Where spacing is matched as written, what is captured is the
preferred one of all decompositions of the output.  Two decompositions are compared at the first tag
to which they give different values.  There the shorter value is preferred, unless the tag is an
anonymous one in front of newlines, which takes as much as it can.  A tag at the end of the text has
no choice: its value is all that is left, without the newlines at the end.

Main definitions:

* `Transcript.Token.Decomposes` — values of the tags that make up an output;
* `Transcript.Token.Precedes` — the order in which decompositions are preferred;
* `Transcript.Token.Preferred` — the first decomposition in this order;
* `Transcript.Token.bindings` — what the names are bound to by a decomposition;
* `Transcript.Literal.Chooses` — the first way through fragments takes the preferred decomposition.

Main results:

* `Transcript.Token.Preferred.unique` — at most one decomposition is preferred;
* `Transcript.Token.decomposes_text`, `Transcript.Token.decomposes_tag`,
  `Transcript.Token.decomposes_lineEnd` — decompositions token by token;
* `Transcript.Literal.chooses_ofTokens` — the fragments of tokens choose the preferred decomposition;
* `Transcript.Matcher.pairwise_insertByName` — captures are in the order of their names;
* `Transcript.Compiler.captures?_preferred` — **what is captured is the preferred decomposition**.
-/

import Transcript.Proofs.Compile.Widening
import Transcript.Proofs.Match.Exact
import Transcript.Proofs.Match.Refill

set_option relaxedAutoImplicit false
set_option autoImplicit false

namespace Transcript

/-! ### Decompositions -/

namespace Token

open Literal (finishAhead)

def endsInTag : List Token → Bool
  | [] => false
  | t :: ahead => (t.kind == .tag && finishAhead ahead) || endsInTag ahead

/-- The values make up the output: there is one for each tag, and the output is the segments with the
values between them and newlines at the end.  Where the text ends in a tag, its value leaves all
newlines to the end. -/
structure Decomposes (tokens : List Token) (output : Text) (values : List Text) : Prop where
  length : values.length = (tokens.filter (·.kind = .tag)).length
  weave : ∃ k, output = weave (segments tokens) values ++ List.replicate k '\n'
  last : endsInTag tokens = true → ∀ value ∈ values.getLast?, value.getLast? ≠ some '\n'

/-- The first values come before the second ones: they do where they first differ. -/
inductive Precedes : List Bool → List Text → List Text → Prop
  | here {greedy : Bool} {eager : List Bool} {value other : Text} {values others : List Text} :
      Shape.Prefers greedy value other → Precedes (greedy :: eager) (value :: values) (other :: others)
  | there {greedy : Bool} {eager : List Bool} {value : Text} {values others : List Text} :
      Precedes eager values others → Precedes (greedy :: eager) (value :: values) (value :: others)

/-- The values come before all others that there are. -/
structure Preferred (eager : List Bool) (among : List Text → Prop) (values : List Text) : Prop where
  mem : among values
  precedes : ∀ others, among others → others = values ∨ Precedes eager values others

/-- Of two lists of values, at most one comes before the other. -/
theorem Precedes.asymm {eager : List Bool} {values others : List Text}
    (h : Precedes eager values others) : ¬Precedes eager others values := by
  have hvalue {greedy : Bool} {value other : Text} (h : Shape.Prefers greedy value other) :
      ¬Shape.Prefers greedy other value := by
    cases greedy <;> simp only [Shape.Prefers, Bool.false_eq_true, if_true, if_false] at h ⊢ <;> omega
  induction h with
  | here hprefers =>
      intro h
      cases h with
      | here hprefers' => exact hvalue hprefers hprefers'
      | there => exact hvalue hprefers hprefers
  | there _ ih =>
      intro h
      cases h with
      | here hprefers => exact hvalue hprefers hprefers
      | there h => exact ih h

/-- There is at most one preferred list of values. -/
theorem Preferred.unique {eager : List Bool} {among : List Text → Prop} {values others : List Text}
    (h : Preferred eager among values) (h' : Preferred eager among others) : others = values :=
  (h.precedes others h'.mem).elim id fun hbefore =>
    ((h'.precedes values h.mem).resolve_right hbefore.asymm).symm

/-- What each name is bound to when the tags have the given values.  A tag at the end of the text is
bound to nothing if its value is empty. -/
def bindings (config : Config) : List Token → List Text → List (Text × Option Text)
  | [], _ => []
  | t :: ahead, values =>
      if t.kind = .tag then
        match values with
        | [] => []
        | value :: values =>
            (t.binding config).toList.map (fun name =>
              (name, if finishAhead ahead && value.isEmpty then none else some value)) ++
            bindings config ahead values
      else bindings config ahead values

theorem bindings_text (config : Config) {t : Token} (ahead : List Token) (h : t.kind ≠ .tag)
    (values : List Text) : bindings config (t :: ahead) values = bindings config ahead values := by
  cases values <;> simp [bindings, h]

theorem bindings_tag (config : Config) {t : Token} (ahead : List Token) (h : t.kind = .tag)
    (value : Text) (values : List Text) :
    bindings config (t :: ahead) (value :: values) =
      (t.binding config).toList.map (fun name =>
        (name, if finishAhead ahead && value.isEmpty then none else some value)) ++
      bindings config ahead values := by
  simp [bindings, h]

/-! ### Decompositions token by token -/

variable {t f : Token} {ahead : List Token} {output : Text} {values : List Text}

theorem exists_tag_of_endsInTag (h : endsInTag ahead = true) : ∃ t ∈ ahead, t.kind = .tag := by
  induction ahead with
  | nil => simp [endsInTag] at h
  | cons t ahead ih =>
      rw [endsInTag, Bool.or_eq_true] at h
      rcases h with h | h
      · exact ⟨t, List.mem_cons_self .., by simpa using (Bool.and_eq_true_iff.1 h).1⟩
      · obtain ⟨u, hu, htag⟩ := ih h
        exact ⟨u, List.mem_cons_of_mem _ hu, htag⟩

theorem decomposes_finish (hkind : t.kind = .finish) (htext : t.text = []) :
    Decomposes [t] output values ↔ values = [] ∧ ∃ k, output = List.replicate k '\n' := by
  have hsegments : segments [t] = [[]] := by simp [segments, hkind, prependText, htext]
  constructor
  · rintro ⟨hlength, ⟨k, hk⟩, -⟩
    obtain rfl : values = [] := by simpa [hkind] using hlength
    exact ⟨rfl, k, by simpa [hsegments, Token.weave] using hk⟩
  · rintro ⟨rfl, k, rfl⟩
    exact ⟨by simp [hkind], ⟨k, by simp [hsegments, Token.weave]⟩, by simp⟩

theorem decomposes_text (hkind : t.kind ≠ .tag) :
    Decomposes (t :: ahead) output values ↔
      ∃ rest, output = t.text ++ rest ∧ Decomposes ahead rest values := by
  have hsegments : segments (t :: ahead) = prependText t.text (segments ahead) := if_neg hkind
  have htags : (t :: ahead).filter (·.kind = .tag) = ahead.filter (·.kind = .tag) :=
    List.filter_cons_of_neg (by simpa using hkind)
  have hends : endsInTag (t :: ahead) = endsInTag ahead := by simp [endsInTag, hkind]
  constructor
  · rintro ⟨hlength, ⟨k, hk⟩, hlast⟩
    rw [hsegments, weave_prependText _ (segments_ne_nil ahead), List.append_assoc] at hk
    exact ⟨_, hk, htags ▸ hlength, ⟨k, rfl⟩, hends ▸ hlast⟩
  · rintro ⟨rest, rfl, hlength, ⟨k, rfl⟩, hlast⟩
    refine ⟨htags ▸ hlength, ⟨k, ?_⟩, hends ▸ hlast⟩
    rw [hsegments, weave_prependText _ (segments_ne_nil ahead), List.append_assoc]

/-- The value of a tag stands in front of what is decomposed, if more than the end follows. -/
theorem decomposes_tag (hkind : t.kind = .tag) (hfinish : finishAhead ahead = false) :
    Decomposes (t :: ahead) output values ↔
      ∃ value others rest, values = value :: others ∧ output = value ++ rest ∧
        Decomposes ahead rest others := by
  have hsegments : segments (t :: ahead) = [] :: segments ahead := if_pos hkind
  have htags : (t :: ahead).filter (·.kind = .tag) = t :: ahead.filter (·.kind = .tag) :=
    List.filter_cons_of_pos (by simpa using hkind)
  have hends : endsInTag (t :: ahead) = endsInTag ahead := by simp [endsInTag, hfinish]
  constructor
  · rintro ⟨hlength, ⟨k, hk⟩, hlast⟩
    rw [htags, List.length_cons] at hlength
    obtain ⟨value, others, rfl⟩ := List.exists_cons_of_length_eq_add_one hlength
    rw [hsegments, Token.weave, List.nil_append, List.append_assoc] at hk
    refine ⟨value, others, _, rfl, hk, by simpa using hlength, ⟨k, rfl⟩, fun hend other hother => ?_⟩
    refine hlast (hends.trans hend) other ?_
    rw [List.getLast?_cons, Option.mem_def.1 hother]
    rfl
  · rintro ⟨value, others, rest, rfl, rfl, hlength, ⟨k, rfl⟩, hlast⟩
    refine ⟨by simp [htags, hlength], ⟨k, ?_⟩, fun hend other hother => ?_⟩
    · rw [hsegments, Token.weave, List.nil_append, List.append_assoc]
    · rw [hends] at hend
      cases others with
      | nil =>
          obtain ⟨u, hu, htag⟩ := exists_tag_of_endsInTag hend
          have hnil := List.length_eq_zero_iff.1 (hlength.symm.trans List.length_nil)
          exact absurd htag (by simpa using List.filter_eq_nil_iff.1 hnil u hu)
      | cons first others => exact hlast hend other (by simpa using hother)

/-- A tag at the end has what is left without the newlines at its end. -/
theorem decomposes_lineEnd (hkind : t.kind = .tag) (hfinish : f.kind = .finish) (htext : f.text = []) :
    Decomposes [t, f] output values ↔ values = [Text.trimNewlines output] := by
  have hsegments : segments [t, f] = [[], []] := by simp [segments, hkind, hfinish, prependText, htext]
  have hends : endsInTag [t, f] = true := by simp [endsInTag, hkind, finishAhead, hfinish]
  constructor
  · rintro ⟨hlength, ⟨k, hk⟩, hlast⟩
    obtain ⟨value, rfl⟩ : ∃ value, values = [value] :=
      List.length_eq_one_iff.1 (by simpa [hkind, hfinish] using hlength)
    have hvalue := hlast hends value rfl
    rw [hsegments, Token.weave, Token.weave, List.nil_append, List.append_nil] at hk
    rw [hk, Text.trimNewlines_append hvalue]
  · rintro rfl
    obtain ⟨k, hk⟩ := Text.exists_trimNewlines output
    refine ⟨by simp [hkind, hfinish], ⟨k, ?_⟩, fun _ value hvalue => ?_⟩
    · rw [hsegments, Token.weave, Token.weave, List.nil_append, List.append_nil]
      exact hk
    · obtain rfl : Text.trimNewlines output = value := by simpa using hvalue
      exact Text.getLast?_trimNewlines output

end Token

/-! ### The first way -/

/-- What a tag in front of the end takes, and what it captures: nothing if it takes nothing. -/
theorem Shape.exists_of_mem_ways_lineEnd {binding : Option Text} {greedy : Bool} {c : Cursor} {u : Way}
    (hu : u ∈ (tag binding .lineEnd greedy).ways c) :
    ∃ value, c.Reads value u.stop ∧ value.getLast? ≠ some '\n' ∧
      ∀ name ∈ binding, u.text? (groupName name) = if value.isEmpty then none else some value := by
  rw [ways_lineEnd, List.mem_append, List.mem_singleton] at hu
  rcases hu with hu | rfl
  · obtain ⟨d, hd, rfl⟩ := List.mem_map.1 hu
    obtain ⟨hd, hholds⟩ := List.mem_filter.1 hd
    obtain ⟨value, hne, hvalue⟩ := Cursor.exists_of_mem_tail_places (Regex.mem_inOrder.1 hd)
    refine ⟨value, by rwa [taken_stop], ?_, ?_⟩
    · have hprevious := hvalue.previous
      rw [List.getLast?_eq_some_getLast hne, Option.some_or] at hprevious
      rw [List.getLast?_eq_some_getLast hne, ← hprevious]
      exact holds_notPrevious_newline.1 hholds
    · rintro name rfl
      rw [text?_taken name hvalue, if_neg (by simpa using hne)]
  · exact ⟨[], .refl c, by simp, fun name _ => rfl⟩

namespace Literal

open Fragment Token

variable {config : Config} {t f : Token} {ahead : List Token}

/-- The first way through the fragments of the tokens takes the preferred one of all decompositions of
what is ahead, whatever was passed before. -/
def Chooses (config : Config) (tokens : List Token) : Prop :=
  ∀ (first w : Way) (c : Cursor), Fresh (ofTokens config tokens) first →
    (Fragment.ways (ofTokens config tokens) c).head? = some w →
    ∃ values, Preferred (eager config tokens) (Decomposes tokens c.after) values ∧
      bindings config tokens values = (names (ofTokens config tokens)).map fun name =>
        (name, (first.join w).text? (groupName name))

/-- Fragments fit where there is a decomposition. -/
theorem fits_of_decomposes (config : Config) (h : Lexed ahead) {c : Cursor} {values : List Text}
    (hvalues : Decomposes ahead c.after values) : Fits (ofTokens config ahead) c := by
  obtain ⟨hlength, ⟨k, hk⟩, -⟩ := hvalues
  exact (fits_iff_weave h).2 ⟨values, k, by rw [hlength, length_segments], hk⟩

theorem chooses_finish (hkind : t.kind = .finish) (htext : t.text = []) : Chooses config [t] := by
  intro first w c _ hw
  have hfragments : ofTokens config [t] = [⟨t.offset, .finish .newlines⟩] := by
    rw [ofTokens, ofTokens, ofToken_of_finish config [] hkind]
  rw [hfragments] at hw ⊢
  have hne := List.ne_nil_of_mem (List.mem_of_mem_head? hw)
  have hfits := (fits_finish_iff t.offset).1 (ways_ne_nil_iff.1 hne)
  refine ⟨[], ⟨(decomposes_finish hkind htext).2 ⟨rfl, hfits⟩, fun others hothers => ?_⟩, ?_⟩
  · exact Or.inl ((decomposes_finish hkind htext).1 hothers).1
  · simp [bindings, hkind, names, name?, Shape.tag?]

theorem Chooses.text (h : Chooses config ahead) (htag : t.kind ≠ .tag) (hfinish : t.kind ≠ .finish)
    (hnodup : ((ofTokens config (t :: ahead)).flatMap fun f => f.shape.groups).Nodup) :
    Chooses config (t :: ahead) := by
  intro first w c hfresh hw
  have hfragments : ofTokens config (t :: ahead) =
      ⟨t.offset, .literal t.text⟩ :: ofTokens config ahead := by
    rw [ofTokens, ofToken_of_text config ahead htag hfinish]
  rw [hfragments] at hfresh hw hnodup ⊢
  obtain ⟨before, u, after, v, hways, -, hv, rfl⟩ := Way.head?_chain_eq_some.1 hw
  have hu : u ∈ Shape.ways (.literal t.text) c := by
    rw [hways]
    simp
  obtain ⟨s, hs, hadmits⟩ := Shape.leads_iff.1 ⟨u, hu, rfl⟩
  obtain rfl : s = t.text := hadmits
  obtain ⟨values, ⟨hmem, hprecedes⟩, hbindings⟩ := h _ v u.stop (hfresh.join hnodup hu) hv
  have heager : eager config (t :: ahead) = eager config ahead := if_neg htag
  refine ⟨values, ⟨(decomposes_text htag).2 ⟨_, hs.after, hmem⟩, fun others hothers => ?_⟩, ?_⟩
  · obtain ⟨rest, hrest, hothers⟩ := (decomposes_text htag).1 hothers
    obtain rfl : rest = u.stop.after := List.append_cancel_left (hrest.symm.trans hs.after)
    rw [heager]
    exact hprecedes others hothers
  · rw [bindings_text config ahead htag, hbindings, Way.join_assoc]
    rfl

/-- What a tag captures is what its name is bound to. -/
theorem bindings_of_fresh {context : TagContext} {greedy : Bool} {fragments : List Fragment}
    {first u v : Way} {c : Cursor} {value : Text} {values : List Text} (hkind : t.kind = .tag)
    (hfresh : Fresh (⟨t.offset, .tag (t.binding config) context greedy⟩ :: fragments) first)
    (hnodup : ((⟨t.offset, .tag (t.binding config) context greedy⟩ :: fragments).flatMap
      fun f => f.shape.groups).Nodup)
    (hv : v ∈ Fragment.ways fragments c)
    (hvalue : ∀ name ∈ t.binding config, u.text? (groupName name) =
      if finishAhead ahead && value.isEmpty then none else some value)
    (hvalues : bindings config ahead values = (names fragments).map fun name =>
      (name, ((first.join u).join v).text? (groupName name))) :
    bindings config (t :: ahead) (value :: values) =
      (names (⟨t.offset, .tag (t.binding config) context greedy⟩ :: fragments)).map fun name =>
        (name, ((first.join u).join v).text? (groupName name)) := by
  rw [bindings_tag config ahead hkind, names_cons, List.map_append, hvalues]
  congr 1
  refine List.map_congr_left fun name hname => ?_
  have hname := Option.mem_toList.1 hname
  rw [hfresh.text?_join hname hnodup hv, hvalue name hname]

/-- A tag in front of more than the end takes the value that is preferred. -/
theorem Chooses.tag (h : Chooses config ahead) (hlexed : Lexed ahead) (hkind : t.kind = .tag)
    (hfinish : finishAhead ahead = false)
    (hnodup : ((ofTokens config (t :: ahead)).flatMap fun f => f.shape.groups).Nodup) :
    Chooses config (t :: ahead) := by
  intro first w c hfresh hw
  have hfragments : ofTokens config (t :: ahead) =
      ⟨t.offset, .tag (t.binding config) .bare
        (Spacing.lineEndAhead ahead && (t.binding config).isNone)⟩ :: ofTokens config ahead := by
    rw [ofTokens, ofToken_of_tag config ahead hkind, ofTag, if_neg (by simp [hfinish])]
  rw [hfragments] at hfresh hw hnodup ⊢
  obtain ⟨value, d, v, hvalue, hv, rfl, hfirst⟩ := Shape.exists_of_head?_bare hw
  have hfresh' := hfresh.join hnodup (Shape.taken_mem_ways_bare (t.binding config)
    (Spacing.lineEndAhead ahead && (t.binding config).isNone) hvalue)
  obtain ⟨values, ⟨hmem, hprecedes⟩, hbindings⟩ := h _ v d hfresh' hv
  have heager : eager config (t :: ahead) =
      (Spacing.lineEndAhead ahead && (t.binding config).isNone) :: eager config ahead := if_pos hkind
  refine ⟨value :: values, ⟨(decomposes_tag hkind hfinish).2 ⟨_, _, _, rfl, hvalue.after, hmem⟩,
    fun others hothers => ?_⟩, ?_⟩
  · obtain ⟨other, others, rest, rfl, hafter, hothers⟩ := (decomposes_tag hkind hfinish).1 hothers
    have hother := Cursor.reads_past hafter
    have hfits : Fits (ofTokens config ahead) (c.past other rest) :=
      fits_of_decomposes config hlexed hothers
    rw [heager]
    rcases hfirst other _ hother (ways_ne_nil_iff.2 hfits) with rfl | hprefers
    · -- the two take the same value, so they differ behind it if at all
      obtain rfl := hvalue.unique hother
      exact (hprecedes others hothers).imp (by rintro rfl; rfl) .there
    · exact Or.inr (.here hprefers)
  · rw [← Way.join_assoc]
    refine bindings_of_fresh hkind hfresh hnodup (List.mem_of_mem_head? hv) ?_ hbindings
    intro name hname
    rw [hname, Shape.text?_taken name hvalue, hfinish]
    rfl

/-- A tag in front of the end takes all but the newlines at the end. -/
theorem chooses_lineEnd (hkind : t.kind = .tag) (hfinish : f.kind = .finish) (htext : f.text = [])
    (hnodup : ((ofTokens config [t, f]).flatMap fun f => f.shape.groups).Nodup) :
    Chooses config [t, f] := by
  intro first w c hfresh hw
  have hahead : finishAhead [f] = true := by simp [finishAhead, hfinish]
  have hfragments : ofTokens config [t, f] =
      [⟨t.offset, .tag (t.binding config) .lineEnd
        (Spacing.lineEndAhead [f] && (t.binding config).isNone)⟩, ⟨f.offset, .finish .newlines⟩] := by
    rw [ofTokens, ofTokens, ofTokens, ofToken_of_tag config _ hkind, ofTag, if_pos hahead,
      ofToken_of_finish config [] hfinish]
  rw [hfragments] at hfresh hw hnodup ⊢
  obtain ⟨u, hu, v, hv, rfl⟩ := Way.mem_chain.1 (List.mem_of_mem_head? hw)
  obtain ⟨value, hvalue, hlast, hcaptured⟩ := Shape.exists_of_mem_ways_lineEnd hu
  obtain ⟨k, hk⟩ := (fits_finish_iff f.offset).1 (ways_ne_nil_iff.1 (List.ne_nil_of_mem hv))
  have htrim : Text.trimNewlines c.after = value := by
    rw [hvalue.after, hk, Text.trimNewlines_append hlast]
  refine ⟨[value], ⟨(decomposes_lineEnd hkind hfinish htext).2 (by rw [htrim]), fun others hothers => ?_⟩,
    ?_⟩
  · rw [(decomposes_lineEnd hkind hfinish htext).1 hothers, htrim]
    exact Or.inl rfl
  · rw [← Way.join_assoc]
    refine bindings_of_fresh hkind hfresh hnodup hv ?_ ?_
    · intro name hname
      rw [hcaptured name hname, hahead, Bool.true_and]
    · simp [bindings, hfinish, names, name?, Shape.tag?]

/-- **The fragments of tokens choose the preferred decomposition** of what is ahead. -/
theorem chooses_ofTokens {tokens : List Token} (h : Lexed tokens)
    (hnodup : ((ofTokens config tokens).flatMap fun f => f.shape.groups).Nodup) :
    Chooses config tokens := by
  induction h with
  | finish hkind hformed => exact chooses_finish hkind (hformed.of_finish hkind)
  | @cons t ahead hkind hformed hinput hahead ih =>
      have hrest : ((ofTokens config ahead).flatMap fun f => f.shape.groups).Nodup := by
        rw [ofTokens, List.flatMap_cons] at hnodup
        exact (List.nodup_append.1 hnodup).2.1
      by_cases htag : t.kind = .tag
      · cases hend : finishAhead ahead with
        | false => exact (ih hrest).tag hahead htag hend hnodup
        | true =>
            cases hahead with
            | finish hfinish hformed =>
                exact chooses_lineEnd htag hfinish (hformed.of_finish hfinish) hnodup
            | @cons f rest hfinish => simp [finishAhead, hfinish] at hend
      · exact (ih hrest).text htag hkind hnodup

end Literal

/-! ### The order of the names -/

namespace Matcher

theorem isSome_captures? (m : Matcher) (output : Text) :
    (m.captures? output).isSome = m.isMatch output := by
  rw [captures?, Option.isSome_map, isMatch, Regex.isMatch]

theorem perm_insertByName (entry : Text × Option Text) (entries : List (Text × Option Text)) :
    (insertByName entry entries).Perm (entry :: entries) := by
  induction entries with
  | nil => exact .refl _
  | cons first entries ih =>
      rw [insertByName]
      by_cases hlt : first.1 < entry.1
      · rw [if_pos hlt]
        exact (ih.cons first).trans (.swap entry first entries)
      · rw [if_neg hlt]

/-- Entries in the order of their names stay so when one with a new name is put in. -/
theorem pairwise_insertByName {entry : Text × Option Text} {entries : List (Text × Option Text)}
    (h : entries.Pairwise fun a b => a.1 < b.1) (hnew : ∀ other ∈ entries, other.1 ≠ entry.1) :
    (insertByName entry entries).Pairwise fun a b => a.1 < b.1 := by
  induction entries with
  | nil => exact List.pairwise_singleton _ _
  | cons first entries ih =>
      obtain ⟨hfirst, hrest⟩ := List.pairwise_cons.1 h
      rw [insertByName]
      by_cases hlt : first.1 < entry.1
      · rw [if_pos hlt, List.pairwise_cons]
        refine ⟨fun other hother => ?_, ih hrest fun other hother =>
          hnew other (List.mem_cons_of_mem _ hother)⟩
        rcases List.mem_cons.1 ((perm_insertByName _ _).subset hother) with rfl | hother
        · exact hlt
        · exact hfirst other hother
      · have hbefore : entry.1 < first.1 := Decidable.byContradiction fun hnot =>
          hnew first (List.mem_cons_self ..) (Std.Trichotomous.trichotomous _ _ hlt hnot)
        rw [if_neg hlt, List.pairwise_cons]
        refine ⟨fun other hother => ?_, h⟩
        rcases List.mem_cons.1 hother with rfl | hother
        · exact hbefore
        · exact List.lt_trans hbefore (hfirst other hother)

theorem perm_foldr_insertByName (entries : List (Text × Option Text)) :
    (entries.foldr insertByName []).Perm entries := by
  induction entries with
  | nil => exact .nil
  | cons entry entries ih =>
      rw [List.foldr_cons]
      exact (perm_insertByName entry _).trans (ih.cons entry)

/-- Entries with distinct names are put in the order of their names. -/
theorem pairwise_foldr_insertByName {entries : List (Text × Option Text)}
    (h : (entries.map Prod.fst).Nodup) :
    (entries.foldr insertByName []).Pairwise fun a b => a.1 < b.1 := by
  induction entries with
  | nil => exact .nil
  | cons entry entries ih =>
      obtain ⟨hnew, hrest⟩ := List.nodup_cons.1 h
      refine pairwise_insertByName (ih hrest) fun other hother heq => hnew ?_
      rw [← heq]
      exact List.mem_map_of_mem ((perm_foldr_insertByName entries).subset hother)

end Matcher

/-! ### Programs -/

namespace Compiler

open Fragment Token

/-- **What is captured is the preferred decomposition.**  The tokens make up the text without the
newlines at its end, and its program can be matched.  Of all decompositions of an output that is
matched, exactly one is preferred to all others; the names are bound as it says, in the order of the
names. -/
theorem captures?_preferred {config : Config} {opening closing : Char}
    (hconfig : config.Delimited opening closing) {switches : Switches} {text : Text} {p : Program}
    (h : compile .literal config switches text = .ok p) :
    (tokens .literal config switches text).flatMap (written opening closing) =
        Text.trimNewlines text ∧
      ∃ m, p.matcher? = some m ∧ ∀ output, m.isMatch output = true →
        (∃! values, Preferred (eager config (tokens .literal config switches text))
          (Decomposes (tokens .literal config switches text) output) values) ∧
        ∃ captured, m.captures? output = some captured ∧
          (captured.Pairwise fun a b => a.1 < b.1) ∧
          ∀ values, Preferred (eager config (tokens .literal config switches text))
              (Decomposes (tokens .literal config switches text) output) values →
            captured.Perm (bindings config (tokens .literal config switches text) values) := by
  have hlexed : Lexed (tokens .literal config switches text) :=
    Lexeme.lexed_ofText hconfig switches _
  have hfragments : p.fragments = Literal.table config (tokens .literal config switches text) :=
    fragments_of_compile h
  have hnodup := (distinct_of_compile h).1
  have hnames : p.names = names (Literal.ofTokens config (tokens .literal config switches text)) := by
    rw [Program.names, hfragments]
    rfl
  rw [hfragments, Literal.table] at hnodup
  refine ⟨Lexeme.written_ofText hconfig switches _, _,
    matcher?_of_compile (named_of_delimited hconfig) h, fun output hmatch => ?_⟩
  simp only [Matcher.isMatch, Regex.isMatch, hfragments, Literal.table, search_start,
    Option.isSome_map] at hmatch
  obtain ⟨w, hw⟩ := Option.isSome_iff_exists.1 hmatch
  obtain ⟨values, hvalues, hbindings⟩ := Literal.chooses_ofTokens hlexed hnodup
    (Way.here (Cursor.start output)) w _ (by simp [Fresh, Way.here]) hw
  rw [Way.here_join] at hbindings
  have hcaptured : (Matcher.mk p (regex p.fragments)).captures? output =
      some ((bindings config (tokens .literal config switches text) values).foldr
        Matcher.insertByName []) := by
    simp only [Matcher.captures?, hnames, hfragments, Literal.table, search_start, hw,
      Option.map_some, hbindings]
    rfl
  have hgroups : ((names (Literal.ofTokens config (tokens .literal config switches text))).map
      groupName).Nodup := by
    rw [← groups_eq_names]
    exact hnodup
  have hdistinct : ((bindings config (tokens .literal config switches text) values).map
      Prod.fst).Nodup := by
    rw [hbindings, List.map_map]
    change ((names _).map id).Nodup
    rw [List.map_id]
    exact hgroups.of_map
  refine ⟨⟨values, hvalues, fun others => hvalues.unique⟩, _, hcaptured,
    Matcher.pairwise_foldr_insertByName hdistinct, fun others hothers => ?_⟩
  rw [hvalues.unique hothers]
  exact Matcher.perm_foldr_insertByName _

/-- The tag in front of the newline takes the first of the two lines along, which leaves nothing to the
tag at the end. -/
theorem captures?_lines :
    ∃ p m values, compile .literal .standard ⟨true, true⟩ "<a> <...>\nx=<b>".toList = .ok p ∧
      p.matcher? = some m ∧
      Preferred (eager .standard (tokens .literal .standard ⟨true, true⟩ "<a> <...>\nx=<b>".toList))
        (Decomposes (tokens .literal .standard ⟨true, true⟩ "<a> <...>\nx=<b>".toList)
          "1 2\nx=4\nx=\n\n".toList) values ∧
      m.captures? "1 2\nx=4\nx=\n\n".toList =
        some [("a".toList, some "1".toList), ("b".toList, none)] := by
  have htokens : tokens .literal .standard ⟨true, true⟩ "<a> <...>\nx=<b>".toList =
      [⟨0, .tag, "<a>".toList⟩, ⟨3, .spaces, " ".toList⟩, ⟨4, .tag, "<...>".toList⟩,
        ⟨9, .newlines, "\n".toList⟩, ⟨10, .literal, "x=".toList⟩, ⟨12, .tag, "<b>".toList⟩,
        ⟨15, .finish, []⟩] := by decide +kernel
  obtain ⟨p, hp⟩ := exists_compile_eq_ok htokens (by decide +kernel) (by decide +kernel)
  have hfragments := fragments_of_compile hp
  rw [htokens] at hfragments
  obtain ⟨-, m, hm, hpreferred⟩ := captures?_preferred Config.delimited_standard hp
  have hmatcher := eq_of_matcher? TagRule.named_delimited hp hm
  have hcaptured : m.captures? "1 2\nx=4\nx=\n\n".toList =
      some [("a".toList, some "1".toList), ("b".toList, none)] := by
    rw [hmatcher, captures?_eq hfragments]
    decide +kernel
  have hmatch : m.isMatch "1 2\nx=4\nx=\n\n".toList = true := by
    rw [← Matcher.isSome_captures?, hcaptured]
    rfl
  obtain ⟨⟨values, hvalues, -⟩, -⟩ := hpreferred _ hmatch
  exact ⟨p, m, values, hp, hm, hvalues, hcaptured⟩

end Compiler

end Transcript
