/-
**Tags have names.**

The name of a tag is read by matching the text of the tag once more, on its own.  With tags between two
characters this cannot fail: the ways of such an expression come in the order of how far they go, so
what was found in the midst of a text is found again, from end to end, in the text of the tag.

Main definitions:

* `Transcript.Way.Falling` — ways that go further come first;
* `Transcript.Regex.Rigid` — expressions all ways of which go equally far.

Main results:

* `Transcript.TagRule.falling_delimited` — the ways of a tag between two characters;
* `Transcript.TagRule.nameOf?_delimited` — a name between the two characters is read back;
* `Transcript.TagRule.isSome_nameOf?` — a tag that is found has a name;
* `Transcript.Lexeme.isSome_nameOf?` — **the tags of a text have names**.
-/

import Transcript.Proofs.Markup.Tiling
import Transcript.Proofs.Regex.Preference

set_option relaxedAutoImplicit false
set_option autoImplicit false

namespace Transcript

/-! ### Ways in the order of how far they go -/

namespace Way

/-- Ways that go further come first. -/
def Falling (ws : List Way) : Prop := ws.Pairwise fun u v => v.stop.offset < u.stop.offset

/-- Going on keeps the order if each way goes on in order, and from where a way is ahead of another
one it stays ahead. -/
theorem Falling.chain {ws : List Way} {next : Cursor → List Way} (h : Falling ws)
    (hnext : ∀ c, Falling (next c))
    (hkeeps : ∀ u ∈ ws, ∀ v ∈ ws, v.stop.offset < u.stop.offset → ∀ x ∈ next u.stop,
      ∀ y ∈ next v.stop, y.stop.offset < x.stop.offset) : Falling (Way.chain ws next) := by
  refine List.pairwise_flatMap.2 ⟨fun u _ => List.pairwise_map.2 (hnext u.stop), ?_⟩
  refine h.imp_of_mem fun {u v} hu hv hlt w hw w' hw' => ?_
  obtain ⟨x, hx, rfl⟩ := List.mem_map.1 hw
  obtain ⟨y, hy, rfl⟩ := List.mem_map.1 hw'
  exact hkeeps u hu v hv hlt x hx y hy

/-- The first of such ways goes furthest. -/
theorem Falling.le_head {ws : List Way} (h : Falling ws) {w v : Way} (hw : ws.head? = some w)
    (hv : v ∈ ws) : v.stop.offset ≤ w.stop.offset := by
  obtain ⟨rest, rfl⟩ := List.head?_eq_some_iff.1 hw
  rcases List.mem_cons.1 hv with rfl | hv
  · exact Nat.le_refl _
  · exact Nat.le_of_lt ((List.pairwise_cons.1 h).1 v hv)

end Way

namespace Regex

open Way (Falling)

/-- There is at most one way, and it goes through `n` characters. -/
def Rigid (n : Nat) (r : Regex) : Prop :=
  ∀ c, (r.ways c).length ≤ 1 ∧ ∀ w ∈ r.ways c, w.stop.offset = c.offset + n

theorem rigid_char (cls : CharClass) : Rigid 1 (char cls) := by
  intro c
  rcases c.exists_reads with h | ⟨ch, d, h⟩
  · rw [ways_char_of_nil h]
    simp
  · rw [ways_char_of_reads h]
    by_cases hcls : cls.contains ch
    · simpa [hcls, Way.here] using h.offset
    · simp [hcls]

theorem rigid_mark (m : Mark) : Rigid 0 (mark m) := fun c => by simp [ways_mark]

theorem Rigid.falling {n : Nat} {r : Regex} (h : Rigid n r) (c : Cursor) : Falling (r.ways c) := by
  have hlength := (h c).1
  match hways : r.ways c with
  | [] => exact .nil
  | [w] => exact List.pairwise_singleton _ _
  | _ :: _ :: _ => simp [hways] at hlength

theorem Rigid.concat_singleton {n : Nat} {r : Regex} (h : Rigid n r) : Rigid n (concat [r]) := by
  intro c
  rw [ways_concat_singleton]
  exact h c

theorem Rigid.falling_seq {n : Nat} {a b : Regex} (ha : Rigid n a) (hb : ∀ c, Falling (b.ways c))
    (c : Cursor) : Falling ((seq a b).ways c) := by
  rw [ways_seq]
  refine (ha.falling c).chain hb fun u hu v hv hlt => ?_
  rw [(ha c).2 u hu, (ha c).2 v hv] at hlt
  exact absurd hlt (Nat.lt_irrefl _)

theorem Rigid.seq_falling {n : Nat} {a b : Regex} (hb : Rigid n b) (ha : ∀ c, Falling (a.ways c))
    (c : Cursor) : Falling ((seq a b).ways c) := by
  rw [ways_seq]
  refine (ha c).chain hb.falling fun u hu v hv hlt x hx y hy => ?_
  rw [(hb u.stop).2 x hx, (hb v.stop).2 y hy]
  omega

/-- A greedy repetition of a character goes as far as it can first. -/
theorem falling_star_char (cls : CharClass) (c : Cursor) :
    Falling ((star (char cls) true).ways c) := by
  induction c using Cursor.induction_ahead with
  | nil c h =>
      rw [ways_star rfl, ways_char_of_nil h]
      exact List.pairwise_singleton _ _
  | cons c ch d h ih =>
      rw [ways_star rfl, if_pos rfl, ways_char_of_reads h]
      by_cases hcls : cls.contains ch
      · rw [if_pos hcls, Way.here_chain]
        refine List.pairwise_append.2 ⟨ih, List.pairwise_singleton _ _, fun u hu v hv => ?_⟩
        obtain ⟨s, hs⟩ := reads_of_mem_ways hu
        obtain rfl := List.mem_singleton.1 hv
        have hoffset := (h.trans hs).offset
        simp only [Way.here, List.length_append, List.length_singleton] at hoffset ⊢
        omega
      · rw [if_neg hcls]
        exact List.pairwise_singleton _ _

theorem leads_single {ch : Char} {c d : Cursor} :
    Shape.Leads (single ch).ways c d ↔ c.Reads [ch] d := by
  simp [single, Shape.leads_char, CharClass.single_contains]

theorem leads_nil {c d : Cursor} : Shape.Leads (concat []).ways c d ↔ c = d := by
  simp [Shape.Leads, concat, Way.here]

theorem leads_group {name : Text} {body : Regex} {c d : Cursor} :
    Shape.Leads (group name body).ways c d ↔ Shape.Leads body.ways c d := by
  constructor
  · rintro ⟨w, hw, rfl⟩
    obtain ⟨u, hu, v, hv, rfl⟩ := Way.mem_chain.1 hw
    obtain ⟨x, hx, y, hy, rfl⟩ := Way.mem_chain.1 hv
    rw [ways_mark, List.mem_singleton] at hu hy
    subst hu
    rw [hy]
    exact ⟨x, hx, rfl⟩
  · rintro ⟨x, hx, rfl⟩
    exact ⟨_, Way.mem_chain.2 ⟨_, List.mem_singleton_self _, _,
      Way.mem_chain.2 ⟨x, hx, _, List.mem_singleton_self _, rfl⟩, rfl⟩, rfl⟩

theorem falling_group (name : Text) {body : Regex} (hbody : ∀ c, Falling (body.ways c)) (c : Cursor) :
    Falling ((group name body).ways c) :=
  (rigid_mark _).falling_seq ((rigid_mark _).seq_falling hbody) c

end Regex

/-! ### Tags between two characters -/

namespace TagRule

variable {opening closing : Char}

/-- The ways of a tag come in the order of how far they go. -/
theorem falling_delimited (c : Cursor) :
    Way.Falling ((delimited opening closing).regex.ways c) := by
  have htail (c : Cursor) : Way.Falling ((Regex.concat [.star (.char nameTail) true]).ways c) := by
    rw [Regex.ways_concat_singleton]
    exact Regex.falling_star_char nameTail c
  have hname (c : Cursor) : Way.Falling (name.ways c) := (Regex.rigid_char _).falling_seq htail c
  have hclosing : Regex.Rigid 1 (.concat [.single closing]) :=
    (Regex.rigid_char _).concat_singleton
  exact (Regex.rigid_char _).falling_seq (hclosing.seq_falling (Regex.falling_group nameGroup hname)) c

/-- What a tag goes through is said without the position where it begins. -/
theorem leads_delimited {c d : Cursor} :
    Shape.Leads (delimited opening closing).regex.ways c d ↔
      ∃ first rest, nameHead.contains first ∧ (∀ ch ∈ rest, nameTail.contains ch) ∧
        c.Reads (opening :: first :: rest ++ [closing]) d := by
  have hregex : (delimited opening closing).regex =
      .concat [.single opening, .group nameGroup name, .single closing] := rfl
  simp only [hregex, name, Shape.leads_cons, Regex.leads_nil, exists_eq_right, Regex.leads_group,
    Regex.leads_single, Shape.leads_char, Shape.leads_star_char]
  constructor
  · rintro ⟨e, hopening, e', ⟨f, ⟨first, hfirst, hf⟩, rest, hrest, htail⟩, hclosing⟩
    exact ⟨first, rest, hfirst, htail, ((hopening.trans hf).trans hrest).trans hclosing⟩
  · rintro ⟨first, rest, hfirst, htail, hreads⟩
    obtain ⟨e', hrest, hclosing⟩ := hreads.split
    obtain ⟨e, hopening, hrest⟩ := Cursor.Reads.split (s := [opening]) hrest
    obtain ⟨f, hf, hrest⟩ := Cursor.Reads.split (s := [first]) hrest
    exact ⟨e, hopening, e', ⟨f, ⟨first, hfirst, hf⟩, rest, hrest, htail⟩, hclosing⟩

/-- What a tag may go through from end to end, it does: no way goes further, and the way that goes
furthest is preferred. -/
theorem exists_search_delimited {tag : Text} (h : Shape.Leads (delimited opening closing).regex.ways
    (Cursor.start tag) ((Cursor.start tag).past tag [])) :
    ∃ u ∈ (delimited opening closing).regex.ways (Cursor.start tag),
      (delimited opening closing).regex.search tag = some (Trail.finish ⟨Cursor.start tag, []⟩ u) ∧
      u.stop.offset = tag.length := by
  obtain ⟨v, hv, hstop⟩ := h
  obtain ⟨u, hhead⟩ := Option.isSome_iff_exists.1 (List.isSome_head?.2 (List.ne_nil_of_mem hv))
  have hu := List.mem_of_head? hhead
  refine ⟨u, hu, ?_, ?_⟩
  · rw [Regex.search, Regex.searchFrom_eq steady_delimited, Regex.matchesAt, List.head?_append,
      List.head?_map, hhead]
    rfl
  · obtain ⟨s, hs⟩ := Regex.reads_of_mem_ways hu
    have hle := (falling_delimited _).le_head hhead hv
    have hlength := hs.length
    have hoffset := hs.offset
    rw [hstop] at hle
    simp only [Cursor.past, Cursor.start] at hle hlength hoffset
    omega

/-- Between two characters, a tag is written in one way only. -/
theorem eq_of_nameOf? {tag name : Text} (h : (delimited opening closing).nameOf? tag = some name) :
    tag = opening :: name ++ [closing] := by
  unfold nameOf? at h
  cases hfound : (delimited opening closing).regex.search tag with
  | none => simp [hfound] at h
  | some m =>
      rw [hfound] at h
      obtain ⟨s, start, hstart, w, hw, rfl⟩ := Regex.exists_of_searchFrom steady_delimited hfound
      obtain ⟨inner, d, e, -, hopening, hinner, hclosing, hmarks⟩ := exists_of_mem_ways hw
      have hgroup := Match.group?_of_marks (m := Trail.finish ⟨start, []⟩ w) (by
        simp only [Trail.finish, hmarks, List.append_nil]
        rfl)
      simp only [hgroup, Option.map_some, Span.text_of_reads hinner] at h
      split at h
      · rename_i hends
        obtain rfl := Option.some.inj h
        -- the match begins and ends where the text does
        have hwhole := hstart.trans ((hopening.trans hinner).trans hclosing)
        have hstartOffset : 0 = 0 + s.length := hends.1.symm.trans hstart.offset
        have hstopOffset := hends.2.symm.trans hwhole.offset
        obtain rfl : s = [] := List.length_eq_zero_iff.1 (by omega)
        have hafter : tag = opening :: inner ++ [closing] ++ w.stop.after := by
          simpa [Cursor.start] using hwhole.after
        have hnil : w.stop.after = [] := by
          have hlength := congrArg List.length hafter
          simp only [Cursor.start, List.length_append, List.length_cons, List.length_nil]
            at hlength hstopOffset
          exact List.length_eq_zero_iff.1 (by omega)
        rw [hafter, hnil, List.append_nil]
      · simp at h

/-- **A name between the two characters is read back.**  In the text of the tag it is found from end to
end. -/
theorem nameOf?_delimited {first : Char} {rest : Text} (hfirst : nameHead.contains first)
    (hrest : ∀ ch ∈ rest, nameTail.contains ch) :
    (delimited opening closing).nameOf? (opening :: first :: rest ++ [closing]) =
      some (first :: rest) := by
  obtain ⟨u, hu, hsearch, hstop⟩ := exists_search_delimited (leads_delimited.2 ⟨first, rest, hfirst,
    hrest, Cursor.reads_past (List.append_nil (opening :: first :: rest ++ [closing])).symm⟩)
  generalize htag : opening :: first :: rest ++ [closing] = tag at hu hsearch hstop ⊢
  obtain ⟨name, e, e', -, -, hinner, -, hmarks⟩ := exists_of_mem_ways hu
  have hmarks' : (Trail.finish ⟨Cursor.start tag, []⟩ u).marks =
      [(.closing nameGroup, e'), (.opening nameGroup, e)] := by
    simp [Trail.finish, hmarks]
  have hends : (Trail.finish ⟨Cursor.start tag, []⟩ u).span.start.offset = 0 ∧
      (Trail.finish ⟨Cursor.start tag, []⟩ u).span.stop.offset = tag.length := ⟨rfl, hstop⟩
  have hread : (delimited opening closing).nameOf? tag = some name := by
    simp only [nameOf?, hsearch, if_pos hends, Match.group?_of_marks hmarks', Option.map_some,
      Span.text_of_reads hinner]
  have hname : first :: rest = name :=
    List.append_cancel_right (List.cons.inj (htag.trans (eq_of_nameOf? hread))).2
  rw [hread, hname]

/-- A tag that is found is a name between the two characters. -/
theorem exists_of_mem_findAll {text : Text} {span : Span}
    (h : span ∈ (delimited opening closing).findAll text) :
    ∃ first rest, nameHead.contains first ∧ (∀ ch ∈ rest, nameTail.contains ch) ∧
      span.start.Reads (opening :: first :: rest ++ [closing]) span.stop := by
  obtain ⟨m, hm, rfl⟩ := List.mem_map.1 h
  obtain ⟨d, w, hw, rfl⟩ := Regex.exists_of_mem_findAll steady_delimited hm
  exact leads_delimited.1 ⟨w, hw, rfl⟩

/-- **A tag that is found has a name.** -/
theorem isSome_nameOf? {text : Text} {span : Span}
    (h : span ∈ (delimited opening closing).findAll text) :
    ((delimited opening closing).nameOf? span.text).isSome := by
  obtain ⟨first, rest, hfirst, hrest, hreads⟩ := exists_of_mem_findAll h
  rw [show span.text = _ from Span.text_of_reads hreads, nameOf?_delimited hfirst hrest]
  rfl

end TagRule

/-! ### The tags of a text -/

namespace Lexeme

variable {config : Config} {switches : Switches}

/-- A tag among the tokens of a line is one that is found in one of its words. -/
theorem exists_span_of_mem_ofLine {start : Nat} {line : Text} {t : Token}
    (ht : t ∈ tokens (ofLine config switches start line)) (hkind : t.kind = .tag) :
    ∃ word, ∃ span ∈ config.tags.findAll word, t.text = span.text := by
  have hbody {start : Nat} {body : Text} (ht : t ∈ tokens (ofBody config switches start body)) :
      ∃ word, ∃ span ∈ config.tags.findAll word, t.text = span.text := by
    rw [ofBody, tokens_map_token] at ht
    obtain ⟨p, hp, hpkind, htext⟩ := (place_spec _ _).2 t ht
    rw [hpkind] at hkind
    rw [htext]
    rcases Piece.of_mem_ofBody hp with hspaces | ⟨hliteral, -⟩ | ⟨-, word, hspan, -⟩
    · exact TokenKind.noConfusion (hspaces.symm.trans hkind)
    · exact TokenKind.noConfusion (hliteral.symm.trans hkind)
    · exact ⟨word, hspan⟩
  have hmarker {start stop : Nat} {marker : TrailingInput} :
      t ∉ tokens (ofMarker config start stop marker) := by
    intro ht
    rw [tokens_ofMarker] at ht
    by_cases hspacing : marker.spacing = []
    · rw [if_pos hspacing] at ht
      obtain rfl := List.mem_singleton.1 ht
      simp at hkind
    · rw [if_neg hspacing] at ht
      rcases List.mem_cons.1 ht with rfl | ht
      · simp at hkind
      · obtain rfl := List.mem_singleton.1 ht
        simp at hkind
  by_cases hswitch : switches.inputs
  · cases hfound : config.inputs.trailing? line with
    | none =>
        simp only [ofLine, hswitch, if_true, hfound, warnInput, tokens_append, tokens_warn,
          List.nil_append] at ht
        exact hbody ht
    | some marker =>
        simp only [ofLine, hswitch, if_true, hfound, warnInput, tokens_append, tokens_warn,
          List.nil_append, List.mem_append] at ht
        rcases ht with ht | ht
        · exact hbody ht
        · exact absurd ht hmarker
  · rw [ofLine, if_neg hswitch] at ht
    exact hbody ht

/-- A tag among the tokens of a text is one that is found in one of its words. -/
theorem exists_span_of_mem_ofText {text : Text} {t : Token}
    (ht : t ∈ tokens (ofText config switches text)) (hkind : t.kind = .tag) :
    ∃ word, ∃ span ∈ config.tags.findAll word, t.text = span.text := by
  have hlines (ls : List Text.Line) : ∀ start, t ∈ tokens (ofLines config switches start ls) →
      ∃ word, ∃ span ∈ config.tags.findAll word, t.text = span.text := by
    induction ls with
    | nil =>
        intro start ht
        obtain rfl := List.mem_singleton.1 ht
        simp at hkind
    | cons line rest ih =>
        intro start ht
        simp only [ofLines, tokens_append, List.mem_append] at ht
        rcases ht with (ht | ht) | ht
        · exact exists_span_of_mem_ofLine ht hkind
        · unfold ofNewlines at ht
          by_cases hcount : line.newlines = 0
          · simp [hcount, tokens] at ht
          · rw [if_neg hcount] at ht
            obtain rfl := List.mem_singleton.1 ht
            simp at hkind
        · exact ih _ ht
  exact hlines _ 0 ht

/-- **The tags of a text have names** if they are marked by two characters. -/
theorem isSome_nameOf? (htags : ∃ opening closing, config.tags = .delimited opening closing)
    {text : Text} {t : Token} (ht : t ∈ tokens (ofText config switches text))
    (hkind : t.kind = .tag) : (config.tags.nameOf? t.text).isSome := by
  obtain ⟨opening, closing, htags⟩ := htags
  obtain ⟨word, span, hspan, htext⟩ := exists_span_of_mem_ofText ht hkind
  rw [htags] at hspan ⊢
  rw [htext]
  exact TagRule.isSome_nameOf? hspan

end Lexeme

end Transcript
