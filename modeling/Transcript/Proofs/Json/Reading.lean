/-
**What JSON text spells.**

The reader of JSON is given a number of steps.  This module says what it reads without them: a grammar
whose rules are those of values, of the items of an array and of the members of an object, over what is
left of a text.  The number of steps is no restriction, because every rule uses up at least as many
characters as the reader takes steps for it.

Main definitions:

* `Transcript.Json.Part` — a value, or what stands between two brackets;
* `Transcript.Json.Reads` — **the grammar**: a part at the front of a text and what stands behind it.

Main results:

* `Transcript.Json.reads_of_readIn`, `Transcript.Json.Reads.settled` — the reader follows the grammar, and
  has steps enough to follow it;
* `Transcript.Json.parse?_eq_some_iff` — **a text is read as the value that it spells**.
-/

import Mathlib.Data.List.DropRight
import Transcript.Json.Reader

set_option relaxedAutoImplicit false
set_option autoImplicit false

namespace Transcript

namespace Json

/-! ### The grammar -/

/-- A part of a JSON text: a value, the items of an array up to its bracket, or the members of an object up
to its brace. -/
inductive Part
  | value (value : Json)
  | items (items : List Json)
  | members (members : List (JsonString × Json))

/-- A key stands at the front of a text, and the second text behind its colon. -/
inductive ReadsKey : JsonString → Text → Text → Prop
  | intro {text body behind start : Text} {key : JsonString} (h : skip text = '"' :: body)
      (hkey : string? body = some (key, behind)) (hcolon : skip behind = ':' :: start) :
      ReadsKey key text start

/-- A part stands at the front of a text, and the second text behind it. -/
inductive Reads : Part → Text → Text → Prop
  | null {text rest : Text} (h : skip text = 'n' :: 'u' :: 'l' :: 'l' :: rest) :
      Reads (.value null) text rest
  | true {text rest : Text} (h : skip text = 't' :: 'r' :: 'u' :: 'e' :: rest) :
      Reads (.value (bool true)) text rest
  | false {text rest : Text} (h : skip text = 'f' :: 'a' :: 'l' :: 's' :: 'e' :: rest) :
      Reads (.value (bool false)) text rest
  | str {text body rest : Text} {s : JsonString} (h : skip text = '"' :: body)
      (hstring : string? body = some (s, rest)) : Reads (.value (str s)) text rest
  | number {text rest : Text} {value : Json} (h : number? (skip text) = some (value, rest)) :
      Reads (.value value) text rest
  | emptyArr {text body rest : Text} (h : skip text = '[' :: body) (hclose : skip body = ']' :: rest) :
      Reads (.value (arr [])) text rest
  | arr {text body rest : Text} {items : List Json} (h : skip text = '[' :: body)
      (hitems : Reads (.items items) body rest) : Reads (.value (arr items)) text rest
  | emptyObj {text body rest : Text} (h : skip text = '{' :: body) (hclose : skip body = '}' :: rest) :
      Reads (.value (obj [])) text rest
  | obj {text body rest : Text} {members : List (JsonString × Json)} (h : skip text = '{' :: body)
      (hmembers : Reads (.members members) body rest) : Reads (.value (obj members)) text rest
  | lastItem {text tail rest : Text} {item : Json} (hitem : Reads (.value item) text tail)
      (hclose : skip tail = ']' :: rest) : Reads (.items [item]) text rest
  | item {text tail next rest : Text} {item : Json} {items : List Json}
      (hitem : Reads (.value item) text tail) (hcomma : skip tail = ',' :: next)
      (hitems : Reads (.items items) next rest) : Reads (.items (item :: items)) text rest
  | lastMember {text start tail rest : Text} {key : JsonString} {value : Json}
      (h : ReadsKey key text start) (hvalue : Reads (.value value) start tail)
      (hclose : skip tail = '}' :: rest) : Reads (.members [(key, value)]) text rest
  | member {text start tail next rest : Text} {key : JsonString} {value : Json}
      {members : List (JsonString × Json)} (h : ReadsKey key text start)
      (hvalue : Reads (.value value) start tail) (hcomma : skip tail = ',' :: next)
      (hmembers : Reads (.members members) next rest) :
      Reads (.members ((key, value) :: members)) text rest

/-! ### The reader follows the grammar -/

/-- The reader reads the part in a number of steps. -/
def Part.ReadIn (steps : Nat) (text rest : Text) : Part → Prop
  | .value v => readValue? steps text = some (v, rest)
  | .items vs => readItems? steps text = some (vs, rest)
  | .members ms => readMembers? steps text = some (ms, rest)

theorem skip_skip (text : Text) : skip (skip text) = skip text := List.dropWhile_idempotent isSpace text

/-- White space in front of a part makes no difference to the reader. -/
theorem Part.readIn_skip (part : Part) {steps : Nat} {text rest : Text} :
    part.ReadIn steps (skip text) rest ↔ part.ReadIn steps text rest := by
  have hvalue : ∀ steps, readValue? steps (skip text) = readValue? steps text := by
    rintro (_ | steps)
    · rfl
    · rw [readValue?, readValue?, skip_skip]
  cases part with
  | value value => rw [Part.ReadIn, Part.ReadIn, hvalue]
  | items items =>
      cases steps with
      | zero => rfl
      | succ steps => rw [Part.ReadIn, Part.ReadIn, readItems?, readItems?, hvalue]
  | members members =>
      cases steps with
      | zero => rfl
      | succ steps => rw [Part.ReadIn, Part.ReadIn, readMembers?, readMembers?, skip_skip]

/-- What is read goes into what is made of it, and what stands behind stays. -/
theorem exists_of_map_eq_some {α β : Type} {f : α → β} {o : Option (α × Text)} {b : β} {rest : Text}
    (h : o.map (fun (a, rest) => (f a, rest)) = some (b, rest)) : ∃ a, o = some (a, rest) ∧ f a = b := by
  obtain ⟨⟨a, tail⟩, ho, heq⟩ := Option.map_eq_some_iff.1 h
  cases heq
  exact ⟨a, ho, rfl⟩

/-- What is read stands in the grammar, by induction on the steps taken. -/
theorem reads_of_readIn (part : Part) {steps : Nat} {text rest : Text}
    (h : part.ReadIn steps text rest) : Reads part text rest := by
  induction steps generalizing part text rest with
  | zero => cases part <;> cases h
  | succ steps ih =>
      cases part with
      | value value =>
          rw [Part.ReadIn, readValue?] at h
          split at h
          · cases h
            exact .null ‹_›
          · cases h
            exact .true ‹_›
          · cases h
            exact .false ‹_›
          · obtain ⟨s, hs, rfl⟩ := exists_of_map_eq_some h
            exact .str ‹_› hs
          · split at h
            · cases h
              exact .emptyArr ‹_› ‹_›
            · obtain ⟨items, hitems, rfl⟩ := exists_of_map_eq_some h
              exact .arr ‹_› (ih _ ((Part.readIn_skip (.items items)).1 hitems))
          · split at h
            · cases h
              exact .emptyObj ‹_› ‹_›
            · obtain ⟨members, hmembers, rfl⟩ := exists_of_map_eq_some h
              exact .obj ‹_› (ih _ ((Part.readIn_skip (.members members)).1 hmembers))
          · exact .number h
      | items items =>
          rw [Part.ReadIn, readItems?] at h
          split at h
          · cases h
          · next item tail hitem =>
              split at h
              · obtain ⟨items, hitems, rfl⟩ := exists_of_map_eq_some h
                exact .item (ih (.value item) hitem) ‹_› (ih (.items items) hitems)
              · cases h
                exact .lastItem (ih (.value item) hitem) ‹_›
              · cases h
      | members members =>
          rw [Part.ReadIn, readMembers?] at h
          split at h
          case h_2 => cases h
          split at h
          · cases h
          · next key behind hkey =>
              split at h
              case h_2 => cases h
              split at h
              · cases h
              · next value tail hvalue =>
                  split at h
                  · obtain ⟨members, hmembers, rfl⟩ := exists_of_map_eq_some h
                    exact .member (.intro ‹_› hkey ‹_›) (ih (.value value) hvalue) ‹_›
                      (ih (.members members) hmembers)
                  · cases h
                    exact .lastMember (.intro ‹_› hkey ‹_›) (ih (.value value) hvalue) ‹_›
                  · cases h

/-! ### What the rules use up -/

theorem length_skip_le (text : Text) : (skip text).length ≤ text.length :=
  (List.dropWhile_suffix isSpace).length_le

theorem length_lt_of_skip {text rest : Text} {c : Char} (h : skip text = c :: rest) :
    rest.length < text.length := by
  have hle := length_skip_le text
  rw [h, List.length_cons] at hle
  exact hle

theorem length_lt_of_stringBody? {text rest : Text} {codes : List Nat}
    (h : stringBody? text = some (codes, rest)) : rest.length < text.length := by
  fun_induction stringBody? text generalizing codes with
  | case1 => cases h
  | case2 =>
      cases h
      exact Nat.lt_succ_self _
  | case3 => cases h
  | case4 a b c d text n hunit ih =>
      obtain ⟨codes, hrest, rfl⟩ := exists_of_map_eq_some h
      exact Nat.lt_of_lt_of_le (ih hrest) (by simp only [List.length_cons]; omega)
  | case5 => cases h
  | case6 e text _ c hshort ih =>
      obtain ⟨codes, hrest, rfl⟩ := exists_of_map_eq_some h
      exact Nat.lt_of_lt_of_le (ih hrest) (by simp only [List.length_cons]; omega)
  | case7 => cases h
  | case8 c text _ _ _ hplain ih =>
      obtain ⟨codes, hrest, rfl⟩ := exists_of_map_eq_some h
      exact Nat.lt_succ_of_lt (ih hrest)

theorem length_lt_of_string? {text rest : Text} {s : JsonString} (h : string? text = some (s, rest)) :
    rest.length < text.length := by
  obtain ⟨codes, hbody, rfl⟩ := exists_of_map_eq_some h
  exact length_lt_of_stringBody? hbody

theorem length_lt_of_digits? {text digits rest : Text} (h : digits? text = some (digits, rest)) :
    rest.length < text.length := by
  rw [digits?] at h
  split_ifs at h with hempty
  cases h
  have hsum := congrArg List.length (List.takeWhile_append_dropWhile (p := Char.isDigit) (l := text))
  rw [List.length_append] at hsum
  have hpos : 0 < (text.takeWhile Char.isDigit).length :=
    List.length_pos_of_ne_nil fun hnil => hempty (by rw [hnil]; rfl)
  omega

theorem length_lt_of_integral? {text digits rest : Text} (h : integral? text = some (digits, rest)) :
    rest.length < text.length := by
  rw [integral?] at h
  split at h
  · cases h
  · split_ifs at h
    cases h
    exact length_lt_of_digits? ‹_›

theorem length_le_of_fraction? {text fraction rest : Text} (h : fraction? text = some (fraction, rest)) :
    rest.length ≤ text.length := by
  unfold fraction? at h
  split at h
  · obtain ⟨digits, hdigits, rfl⟩ := exists_of_map_eq_some h
    exact Nat.le_succ_of_le (Nat.le_of_lt (length_lt_of_digits? hdigits))
  · cases h
    exact Nat.le_refl _

theorem length_exponentSign_le (text : Text) : (exponentSign text).2.length ≤ text.length := by
  unfold exponentSign
  split <;> simp

theorem length_le_of_exponent? {text exponent rest : Text} (h : exponent? text = some (exponent, rest)) :
    rest.length ≤ text.length := by
  cases text with
  | nil =>
      cases h
      exact Nat.le_refl _
  | cons e text =>
      rw [exponent?] at h
      split_ifs at h
      · obtain ⟨digits, hdigits, rfl⟩ := exists_of_map_eq_some h
        have hle := Nat.le_of_lt (length_lt_of_digits? hdigits)
        exact Nat.le_succ_of_le (Nat.le_trans hle (length_exponentSign_le text))
      · cases h
        exact Nat.le_refl _

theorem length_lt_of_unsigned? {text rest : Text} {value : Json} (h : unsigned? text = some (value, rest)) :
    rest.length < text.length := by
  simp only [unsigned?, Option.bind_eq_bind, Option.bind_eq_some_iff, Prod.exists] at h
  obtain ⟨digits, behind, hintegral, fraction, tail, hfraction, exponent, last, hexponent, hvalue⟩ := h
  have hlast : last = rest := by
    split_ifs at hvalue <;> cases hvalue <;> rfl
  subst hlast
  calc last.length ≤ tail.length := length_le_of_exponent? hexponent
    _ ≤ behind.length := length_le_of_fraction? hfraction
    _ < text.length := length_lt_of_integral? hintegral

theorem length_lt_of_number? {text rest : Text} {value : Json} (h : number? text = some (value, rest)) :
    rest.length < text.length := by
  unfold number? at h
  split at h
  · obtain ⟨value, hvalue, rfl⟩ := exists_of_map_eq_some h
    exact Nat.lt_succ_of_lt (length_lt_of_unsigned? hvalue)
  · exact length_lt_of_unsigned? h

theorem ReadsKey.length_lt {key : JsonString} {text start : Text} (h : ReadsKey key text start) :
    start.length < text.length := by
  obtain ⟨h, hkey, hcolon⟩ := h
  calc start.length < _ := length_lt_of_skip hcolon
    _ < _ := length_lt_of_string? hkey
    _ < text.length := length_lt_of_skip h

/-! ### One step of the reader -/

theorem readValue?_number {text rest : Text} {value : Json} (h : number? (skip text) = some (value, rest))
    (steps : Nat) : readValue? (steps + 1) text = some (value, rest) := by
  rw [readValue?]
  split
  case h_7 => exact h
  -- a number begins with none of the characters that open another value
  all_goals
    rename_i heq
    rw [heq] at h
    cases h

theorem readValue?_arr {text body rest : Text} {items : List Json} {steps : Nat}
    (h : skip text = '[' :: body) (hopen : ∀ behind, skip body ≠ ']' :: behind)
    (hitems : readItems? steps (skip body) = some (items, rest)) :
    readValue? (steps + 1) text = some (arr items, rest) := by
  rw [readValue?, h]
  simp only [hitems, Option.map_some]

theorem readValue?_obj {text body rest : Text} {members : List (JsonString × Json)} {steps : Nat}
    (h : skip text = '{' :: body) (hopen : ∀ behind, skip body ≠ '}' :: behind)
    (hmembers : readMembers? steps (skip body) = some (members, rest)) :
    readValue? (steps + 1) text = some (obj members, rest) := by
  rw [readValue?, h]
  simp only [hmembers, Option.map_some]

theorem readItems?_last {text tail rest : Text} {item : Json} {steps : Nat}
    (hitem : readValue? steps text = some (item, tail)) (hclose : skip tail = ']' :: rest) :
    readItems? (steps + 1) text = some ([item], rest) := by
  rw [readItems?, hitem]
  simp only [hclose]

theorem readItems?_more {text tail next rest : Text} {item : Json} {items : List Json} {steps : Nat}
    (hitem : readValue? steps text = some (item, tail)) (hcomma : skip tail = ',' :: next)
    (hitems : readItems? steps next = some (items, rest)) :
    readItems? (steps + 1) text = some (item :: items, rest) := by
  rw [readItems?, hitem]
  simp only [hcomma, hitems, Option.map_some]

theorem ReadsKey.readMembers?_last {key : JsonString} {text start tail rest : Text} {value : Json}
    {steps : Nat} (h : ReadsKey key text start) (hvalue : readValue? steps start = some (value, tail))
    (hclose : skip tail = '}' :: rest) :
    readMembers? (steps + 1) text = some ([(key, value)], rest) := by
  obtain ⟨h, hkey, hcolon⟩ := h
  rw [readMembers?, h]
  simp only [hkey, hcolon, hvalue, hclose]

theorem ReadsKey.readMembers?_more {key : JsonString} {text start tail next rest : Text} {value : Json}
    {members : List (JsonString × Json)} {steps : Nat} (h : ReadsKey key text start)
    (hvalue : readValue? steps start = some (value, tail)) (hcomma : skip tail = ',' :: next)
    (hmembers : readMembers? steps next = some (members, rest)) :
    readMembers? (steps + 1) text = some ((key, value) :: members, rest) := by
  obtain ⟨h, hkey, hcolon⟩ := h
  rw [readMembers?, h]
  simp only [hkey, hcolon, hvalue, hcomma, hmembers, Option.map_some]

/-! ### The reader has steps enough -/

/-- The reader reads the part in any number of steps that what the part takes up allows. -/
def Part.Settled (part : Part) (text rest : Text) : Prop :=
  rest.length < text.length ∧ ∀ steps, text.length ≤ steps + rest.length → part.ReadIn steps text rest

theorem Part.settled_of_steps {part : Part} {text rest : Text} (hlt : rest.length < text.length)
    (h : ∀ steps, text.length ≤ steps + 1 + rest.length → part.ReadIn (steps + 1) text rest) :
    part.Settled text rest := by
  refine ⟨hlt, fun steps hsteps => ?_⟩
  cases steps with
  | zero => omega
  | succ steps => exact h steps hsteps

theorem Reads.ne_close {part : Part} {text rest : Text} (h : Reads part text rest) {c : Char}
    (hc : c = ']' ∨ c = '}') (behind : Text) : skip text ≠ c :: behind := by
  have hnumber : number? (c :: behind) = none := by
    rcases hc with rfl | rfl <;> rfl
  have hopen : ∀ {d : Char} {text body : Text}, skip text = d :: body → d ≠ ']' ∧ d ≠ '}' →
      skip text ≠ c :: behind := by
    intro d text body h hd hskip
    rw [h] at hskip
    obtain ⟨rfl, -⟩ := List.cons.inj hskip
    exact hc.elim hd.1 hd.2
  induction h with
  | null h | true h | false h | str h | emptyArr h | arr h | emptyObj h | obj h =>
      exact hopen h (by decide)
  | number h =>
      intro hskip
      rw [hskip, hnumber] at h
      cases h
  | lastItem _ _ ih => exact ih
  | item _ _ _ ih => exact ih
  | lastMember h | member h =>
      obtain ⟨h, -, -⟩ := h
      exact hopen h (by decide)

theorem Part.settled_literal {part : Part} {c : Char} {text rest : Text} (front : Text)
    (h : skip text = c :: (front ++ rest)) (hread : ∀ steps, part.ReadIn (steps + 1) text rest) :
    part.Settled text rest := by
  have hlt := length_lt_of_skip h
  rw [List.length_append] at hlt
  exact Part.settled_of_steps (by omega) fun steps _ => hread steps

/-- **The reader has steps enough**: each rule uses up a character for every step it takes. -/
theorem Reads.settled {part : Part} {text rest : Text} (h : Reads part text rest) :
    part.Settled text rest := by
  induction h with
  | null h =>
      refine Part.settled_literal ['u', 'l', 'l'] h fun steps => ?_
      rw [Part.ReadIn, readValue?, h]
      rfl
  | true h =>
      refine Part.settled_literal ['r', 'u', 'e'] h fun steps => ?_
      rw [Part.ReadIn, readValue?, h]
      rfl
  | false h =>
      refine Part.settled_literal ['a', 'l', 's', 'e'] h fun steps => ?_
      rw [Part.ReadIn, readValue?, h]
      rfl
  | str h hstring =>
      have hlt := length_lt_of_skip h
      have hltbody := length_lt_of_string? hstring
      refine Part.settled_of_steps (by omega) fun steps _ => ?_
      rw [Part.ReadIn, readValue?, h]
      simp only [hstring, Option.map_some]
  | @number text rest value h =>
      have hlt := length_lt_of_number? h
      have hle := length_skip_le text
      exact Part.settled_of_steps (by omega) fun steps _ => readValue?_number h steps
  | emptyArr h hclose =>
      have hlt := length_lt_of_skip h
      have hltbody := length_lt_of_skip hclose
      refine Part.settled_of_steps (by omega) fun steps _ => ?_
      rw [Part.ReadIn, readValue?, h]
      simp only [hclose]
  | @arr text body rest items h hitems ih =>
      have hlt := length_lt_of_skip h
      obtain ⟨hltbody, hread⟩ := ih
      exact Part.settled_of_steps (by omega) fun steps _ =>
        readValue?_arr h (hitems.ne_close (Or.inl rfl)) ((Part.readIn_skip _).2 (hread steps (by omega)))
  | emptyObj h hclose =>
      have hlt := length_lt_of_skip h
      have hltbody := length_lt_of_skip hclose
      refine Part.settled_of_steps (by omega) fun steps _ => ?_
      rw [Part.ReadIn, readValue?, h]
      simp only [hclose]
  | @obj text body rest members h hmembers ih =>
      have hlt := length_lt_of_skip h
      obtain ⟨hltbody, hread⟩ := ih
      exact Part.settled_of_steps (by omega) fun steps _ =>
        readValue?_obj h (hmembers.ne_close (Or.inr rfl)) ((Part.readIn_skip _).2 (hread steps (by omega)))
  | @lastItem text tail rest item hitem hclose ih =>
      have hlt := length_lt_of_skip hclose
      obtain ⟨hltitem, hread⟩ := ih
      exact Part.settled_of_steps (by omega) fun steps _ => readItems?_last (hread steps (by omega)) hclose
  | @item text tail next rest item items hitem hcomma hitems ihitem ihitems =>
      have hlt := length_lt_of_skip hcomma
      obtain ⟨hltitem, hreaditem⟩ := ihitem
      obtain ⟨hltitems, hreaditems⟩ := ihitems
      exact Part.settled_of_steps (by omega) fun steps _ =>
        readItems?_more (hreaditem steps (by omega)) hcomma (hreaditems steps (by omega))
  | @lastMember text start tail rest key value h hvalue hclose ih =>
      have hltkey := h.length_lt
      have hltclose := length_lt_of_skip hclose
      obtain ⟨hltvalue, hread⟩ := ih
      exact Part.settled_of_steps (by omega) fun steps _ =>
        h.readMembers?_last (hread steps (by omega)) hclose
  | @member text start tail next rest key value members h hvalue hcomma hmembers ihvalue ihmembers =>
      have hltkey := h.length_lt
      have hltcomma := length_lt_of_skip hcomma
      obtain ⟨hltvalue, hreadvalue⟩ := ihvalue
      obtain ⟨hltmembers, hreadmembers⟩ := ihmembers
      exact Part.settled_of_steps (by omega) fun steps _ =>
        h.readMembers?_more (hreadvalue steps (by omega)) hcomma (hreadmembers steps (by omega))

/-- **A text is read as the value that it spells**, whatever number of steps that takes. -/
theorem parse?_eq_some_iff {text : Text} {value : Json} :
    parse? text = some value ↔ ∃ rest, Reads (.value value) text rest ∧ skip rest = [] := by
  constructor
  · intro h
    rw [parse?] at h
    split at h
    · cases h
    · next value rest hread =>
        split_ifs at h with hempty
        cases h
        exact ⟨rest, reads_of_readIn (.value value) hread, List.isEmpty_iff.1 hempty⟩
  · rintro ⟨rest, h, hskip⟩
    have hread : readValue? (text.length + 1) text = some (value, rest) :=
      h.settled.2 _ (Nat.le_add_right_of_le (Nat.le_succ _))
    rw [parse?, hread]
    simp [hskip]

end Json

end Transcript
