/-
**What is written is read back.**

A value is read back from its compact form, whatever its strings hold and whatever stands behind it, as
long as a number is not followed by more of a number.  Strings are the part with cases: a character is
written as itself, as a backslash and a letter, or as a code unit of four hexadecimal digits, and each of
the three is read as that character.

Values with a number that is not written in digits only, or with a string that no text represents, are
left out: options and ranges have none.

Main definitions:

* `Transcript.Json.Plain` — values made of texts and of numbers written with digits only;
* `Transcript.Json.ReadBack` — a value that is read back from its compact form.

Main results:

* `Transcript.Text.toNat_ofNat` — digits spell the number they are the digits of;
* `Transcript.Json.string?_escape` — **a text is read back from its string**;
* `Transcript.Json.parse?_compact` — **a plain value is read back from its compact form**.
-/

import Mathlib.Data.Nat.Digits.Defs
import Transcript.Json.Printer
import Transcript.Proofs.Json.Reading

set_option relaxedAutoImplicit false
set_option autoImplicit false

namespace Transcript

/-! ### Digits -/

namespace Text

/-- Digits spell the number they are the digits of. -/
theorem toNat_ofNat (n : Nat) : toNat (ofNat n) = n := Nat.ofDigitChars_ten_toDigits

theorem isDigit_of_mem_ofNat {n : Nat} {c : Char} (h : c ∈ ofNat n) : c.isDigit = true :=
  Nat.isDigit_of_mem_toDigits (by decide) (by decide) h

theorem ofNat_ne_nil (n : Nat) : ofNat n ≠ [] := Nat.toDigits_ne_nil

theorem exists_ofNat_eq_cons (n : Nat) : ∃ c digits, ofNat n = c :: digits ∧ c.isDigit = true := by
  obtain ⟨c, digits, hdigits⟩ := List.exists_cons_of_ne_nil (ofNat_ne_nil n)
  exact ⟨c, digits, hdigits, isDigit_of_mem_ofNat (hdigits ▸ List.mem_cons_self ..)⟩

/-- Only the number zero is written with a zero in front. -/
theorem head?_ofNat {n : Nat} (h : (ofNat n).head? = some '0') : n = 0 := by
  induction n using Nat.strong_induction_on with
  | _ n ih =>
      by_cases hn : n < 10
      · rw [ofNat, Nat.toDigits_of_lt_base hn, List.head?_cons, Option.some.injEq] at h
        exact Nat.digitChar_eq_zero.1 h
      · have hfront : (ofNat (n / 10)).head? = some '0' := by
          rw [ofNat, Nat.toDigits_of_base_le (by decide) (by omega)] at h
          rwa [List.head?_append, Option.or_of_isSome (List.isSome_head?.2 Nat.toDigits_ne_nil)] at h
        have := ih (n / 10) (by omega) hfront
        omega

end Text

namespace Json

/-! ### Characters inside a string -/

theorem hexDigit?_digitChar {d : Nat} (h : d < 16) : hexDigit? (Nat.digitChar d) = some d := by
  have hall : ∀ d < 16, hexDigit? (Nat.digitChar d) = some d := by decide
  exact hall d h

/-- A small code unit is written with two digits behind two zeros. -/
theorem escapeUnit_eq {n : Nat} (h : n < 0x100) :
    escapeUnit n = ['\\', 'u', '0', '0', Nat.digitChar (n / 16), Nat.digitChar (n % 16)] := by
  by_cases hn : n < 16
  · rw [escapeUnit, Nat.toDigits_of_lt_base hn, Nat.div_eq_of_lt hn, Nat.mod_eq_of_lt hn]
    rfl
  · have hdiv : n / 16 < 16 := by omega
    rw [escapeUnit, Nat.toDigits_of_base_le (by decide) (by omega), Nat.toDigits_of_lt_base hdiv]
    rfl

theorem hexUnit?_digits {n : Nat} (h : n < 0x100) :
    hexUnit? '0' '0' (Nat.digitChar (n / 16)) (Nat.digitChar (n % 16)) = some n := by
  have hzero : hexDigit? '0' = some 0 := by decide
  have hhigh : hexDigit? (Nat.digitChar (n / 16)) = some (n / 16) := hexDigit?_digitChar (by omega)
  have hlow : hexDigit? (Nat.digitChar (n % 16)) = some (n % 16) := hexDigit?_digitChar (by omega)
  simp only [hexUnit?, hzero, hhigh, hlow, Option.bind_eq_bind, Option.bind_some, Option.some.injEq]
  omega

theorem stringBody?_unit {a b c d : Char} {n : Nat} (h : hexUnit? a b c d = some n) (rest : Text) :
    stringBody? ('\\' :: 'u' :: a :: b :: c :: d :: rest) =
      (stringBody? rest).map fun (codes, rest) => (n :: codes, rest) := by
  rw [stringBody?, h]

theorem stringBody?_short {e c : Char} (h : shortEscape? e = some c) (rest : Text) :
    stringBody? ('\\' :: e :: rest) =
      (stringBody? rest).map fun (codes, rest) => (c.toNat :: codes, rest) := by
  have hne : e ≠ 'u' := by
    rintro rfl
    have hnone : shortEscape? 'u' = none := by decide
    rw [hnone] at h
    cases h
  rw [stringBody?, h]
  exact fun _ _ _ _ _ he _ => hne he

theorem stringBody?_plain {c : Char} (hquote : c ≠ '"') (hslash : c ≠ '\\') (h : 0x20 ≤ c.toNat)
    (rest : Text) :
    stringBody? (c :: rest) =
      (stringBody? rest).map fun (codes, rest) => (c.toNat :: codes, rest) := by
  have hplain : ¬(c.toNat < 0x20 ∨ c = '\\') := by
    rintro (hlt | heq)
    · omega
    · exact hslash heq
  rw [stringBody?, if_neg hplain]
  · exact fun h => hquote h
  · exact fun _ _ _ _ _ h _ => hslash h
  · exact fun _ _ h _ => hslash h

/-- A character is written as a backslash and a letter, as a code unit, or as itself. -/
theorem escapeChar_forms (c : Char) :
    (∃ e, escapeChar c = ['\\', e] ∧ shortEscape? e = some c) ∨
    (escapeChar c = escapeUnit c.toNat ∧ c.toNat < 0x20) ∨
    (escapeChar c = [c] ∧ c ≠ '"' ∧ c ≠ '\\' ∧ 0x20 ≤ c.toNat) := by
  rw [escapeChar]
  split_ifs with hquote hslash hbackspace hfeed hnewline hreturn htab hcontrol
  iterate 7 exact Or.inl ⟨_, rfl, by subst_vars; rfl⟩
  · exact Or.inr (Or.inl ⟨rfl, hcontrol⟩)
  · exact Or.inr (Or.inr ⟨rfl, hquote, hslash, Nat.le_of_not_lt hcontrol⟩)

/-- **A character is read back**, whatever its form. -/
theorem stringBody?_escapeChar (c : Char) (rest : Text) :
    stringBody? (escapeChar c ++ rest) =
      (stringBody? rest).map fun (codes, rest) => (c.toNat :: codes, rest) := by
  rcases escapeChar_forms c with ⟨e, heq, hshort⟩ | ⟨heq, hcontrol⟩ | ⟨heq, hquote, hslash, hle⟩
  · rw [heq]
    exact stringBody?_short hshort rest
  · have hsmall : c.toNat < 0x100 := by omega
    rw [heq, escapeUnit_eq hsmall]
    exact stringBody?_unit (hexUnit?_digits hsmall) rest
  · rw [heq]
    exact stringBody?_plain hquote hslash hle rest

theorem stringBody?_escape (text rest : Text) :
    stringBody? (escape (.text text) ++ '"' :: rest) = some (text.map Char.toNat, rest) := by
  rw [escape]
  induction text with
  | nil => rfl
  | cons c text ih =>
      rw [List.flatMap_cons, List.append_assoc, stringBody?_escapeChar, ih]
      rfl

/-! ### Strings -/

/-- A character is no half of a surrogate pair. -/
theorem not_surrogate (c : Char) : isHigh c.toNat = false ∧ isLow c.toNat = false := by
  have hvalid : c.toNat < 0xD800 ∨ 0xDFFF < c.toNat ∧ c.toNat < 0x110000 := c.valid
  simp only [isHigh, isLow, Bool.and_eq_false_iff, decide_eq_false_iff_not]
  omega

theorem foldr_joinPair (text : Text) :
    (text.map Char.toNat).foldr joinPair [] = text.map Char.toNat := by
  induction text with
  | nil => rfl
  | cons c text ih =>
      -- what is put in front is no first half of a pair, so nothing is joined
      rw [List.map_cons, List.foldr_cons, ih]
      cases text with
      | nil => rfl
      | cons d text => simp [joinPair, not_surrogate c]

theorem stringOf_toNat (text : Text) : stringOf (text.map Char.toNat) = .text text := by
  have hcodes : (text.map Char.toNat).all (fun n => !(isHigh n || isLow n)) = true := by
    simp [not_surrogate]
  have htext : (text.map Char.toNat).map Char.ofNat = text := by
    simp [Function.comp_def, Char.ofNat_toNat]
  rw [stringOf, foldr_joinPair, if_pos hcodes, htext]

/-- **A text is read back from its string.** -/
theorem string?_escape (text rest : Text) :
    string? (escape (.text text) ++ '"' :: rest) = some (.text text, rest) := by
  rw [string?, stringBody?_escape, Option.map_some]
  simp only [stringOf_toNat]

/-! ### Numbers -/

/-- The text does not go on with a number that ends in front of it. -/
def Ends (text : Text) : Prop :=
  ∀ c ∈ text.head?, c.isDigit = false ∧ c ≠ '.' ∧ c ≠ 'e' ∧ c ≠ 'E'

theorem ends_nil : Ends [] := by simp [Ends]

theorem ends_cons {c : Char} {text : Text}
    (h : c.isDigit = false ∧ c ≠ '.' ∧ c ≠ 'e' ∧ c ≠ 'E') : Ends (c :: text) := by
  intro d hd
  rw [List.head?_cons, Option.mem_some_iff] at hd
  exact hd ▸ h

theorem takeWhile_isDigit_of_ends {rest : Text} (h : Ends rest) :
    rest.takeWhile Char.isDigit = [] ∧ rest.dropWhile Char.isDigit = rest := by
  cases rest with
  | nil => exact ⟨rfl, rfl⟩
  | cons c rest => simp [(h c rfl).1]

theorem digits?_ofNat (n : Nat) {rest : Text} (h : Ends rest) :
    digits? (Text.ofNat n ++ rest) = some (Text.ofNat n, rest) := by
  have hdigits : ∀ c ∈ Text.ofNat n, c.isDigit = true := fun c => Text.isDigit_of_mem_ofNat
  obtain ⟨htake, hdrop⟩ := takeWhile_isDigit_of_ends h
  rw [digits?, List.takeWhile_append_of_pos hdigits, List.dropWhile_append_of_pos hdigits, htake, hdrop,
    List.append_nil]
  simp [Text.ofNat_ne_nil]

theorem integral?_ofNat (n : Nat) {rest : Text} (h : Ends rest) :
    integral? (Text.ofNat n ++ rest) = some (Text.ofNat n, rest) := by
  have hzero : ((Text.ofNat n).head? = some '0' && (Text.ofNat n).length != 1) = false := by
    by_cases hhead : (Text.ofNat n).head? = some '0'
    · rw [Text.head?_ofNat hhead]
      decide
    · simp [hhead]
  simp only [integral?, digits?_ofNat n h, hzero]
  rfl

theorem fraction?_of_ends {rest : Text} (h : Ends rest) : fraction? rest = some ([], rest) := by
  cases rest with
  | nil => rfl
  | cons c rest =>
      rw [fraction?]
      exact fun _ hc => (h c rfl).2.1 (List.cons.inj hc).1

theorem exponent?_of_ends {rest : Text} (h : Ends rest) : exponent? rest = some ([], rest) := by
  cases rest with
  | nil => rfl
  | cons c rest => simp [exponent?, (h c rfl).2.2]

theorem unsigned?_ofNat (n : Nat) {rest : Text} (h : Ends rest) :
    unsigned? (Text.ofNat n ++ rest) = some (nat n, rest) := by
  simp [unsigned?, integral?_ofNat n h, fraction?_of_ends h, exponent?_of_ends h, Text.toNat_ofNat]

/-- **A number is read back from its digits.** -/
theorem number?_ofNat (n : Nat) {rest : Text} (h : Ends rest) :
    number? (Text.ofNat n ++ rest) = some (nat n, rest) := by
  have hminus : ∀ tail, Text.ofNat n ++ rest ≠ '-' :: tail := by
    intro tail heq
    obtain ⟨c, digits, hdigits, hdigit⟩ := Text.exists_ofNat_eq_cons n
    rw [hdigits, List.cons_append, List.cons.injEq] at heq
    rw [heq.1] at hdigit
    exact absurd hdigit (by decide)
  rw [number?, unsigned?_ofNat n h]
  exact hminus

/-- A text that begins with the digits of a number begins with no white space. -/
theorem skip_ofNat (n : Nat) (rest : Text) : skip (Text.ofNat n ++ rest) = Text.ofNat n ++ rest := by
  obtain ⟨c, digits, hdigits, hdigit⟩ := Text.exists_ofNat_eq_cons n
  have hspace : ¬isSpace c = true := by
    simp only [isSpace, Bool.or_eq_true, decide_eq_true_eq]
    rintro (((rfl | rfl) | rfl) | rfl) <;> exact absurd hdigit (by decide)
  rw [hdigits, List.cons_append, skip, List.dropWhile_cons_of_neg hspace]

/-! ### Values -/

/-- A value without numbers but those in digits, and without strings but those that are texts. -/
inductive Plain : Json → Prop
  | null : Plain null
  | bool (value : Bool) : Plain (bool value)
  | nat (value : Nat) : Plain (nat value)
  | text (text : Text) : Plain (ofText text)
  | arr {items : List Json} (values : ∀ item ∈ items, Plain item) : Plain (arr items)
  | obj {members : List (JsonString × Json)} (keys : ∀ member ∈ members, ∃ key, member.1 = .text key)
      (values : ∀ member ∈ members, Plain member.2) : Plain (obj members)

def compactMember (member : JsonString × Json) : Text := quote member.1 ++ ':' :: compact member.2

theorem compactItems_eq (items : List Json) : compactItems items = items.map compact := by
  induction items with
  | nil => rfl
  | cons item items ih => rw [compactItems, ih, List.map_cons]

theorem compactMembers_eq (members : List (JsonString × Json)) :
    compactMembers members = members.map compactMember := by
  induction members with
  | nil => rfl
  | cons member members ih => rw [compactMembers, ih, List.map_cons, compactMember]

theorem commas_cons_append (part : Text) (parts : List Text) (behind : Text) :
    commas (part :: parts) ++ behind =
      part ++ if parts = [] then behind else ',' :: (commas parts ++ behind) := by
  cases parts <;> simp [commas]

/-- A value is read back from its compact form, in front of anything that does not go on with it. -/
def ReadBack (value : Json) : Prop :=
  ∀ rest : Text, Ends rest → Reads (.value value) (compact value ++ rest) rest

theorem reads_items {items : List Json} (hne : items ≠ []) (h : ∀ item ∈ items, ReadBack item)
    (rest : Text) : Reads (.items items) (commas (items.map compact) ++ ']' :: rest) rest := by
  induction items with
  | nil => exact absurd rfl hne
  | cons item items ih =>
      -- behind an item stands the bracket if it is the last one, and a comma otherwise
      have hitem := h item (List.mem_cons_self ..)
      rw [List.map_cons, commas_cons_append]
      by_cases hitems : items = []
      · subst hitems
        exact .lastItem (hitem _ (ends_cons (by decide))) rfl
      · rw [if_neg (by simpa using hitems)]
        exact .item (hitem _ (ends_cons (by decide))) rfl
          (ih hitems fun item hmem => h item (List.mem_cons_of_mem _ hmem))

theorem reads_members {members : List (JsonString × Json)} (hne : members ≠ [])
    (hkeys : ∀ member ∈ members, ∃ key, member.1 = .text key)
    (h : ∀ member ∈ members, ReadBack member.2) (rest : Text) :
    Reads (.members members) (commas (members.map compactMember) ++ '}' :: rest) rest := by
  induction members with
  | nil => exact absurd rfl hne
  | cons member members ih =>
      obtain ⟨name, value⟩ := member
      obtain ⟨key, rfl⟩ := hkeys _ (List.mem_cons_self ..)
      have hvalue : ReadBack value := h _ (List.mem_cons_self ..)
      have hmember : ∀ tail, compactMember (.text key, value) ++ tail =
          '"' :: (escape (.text key) ++ '"' :: ':' :: (compact value ++ tail)) := by
        intro tail
        simp [compactMember, quote]
      rw [List.map_cons, commas_cons_append, hmember]
      by_cases hmembers : members = []
      · subst hmembers
        exact .lastMember (.intro rfl (string?_escape _ _) rfl) (hvalue _ (ends_cons (by decide))) rfl
      · rw [if_neg (by simpa using hmembers)]
        exact .member (.intro rfl (string?_escape _ _) rfl) (hvalue _ (ends_cons (by decide))) rfl
          (ih hmembers (fun member hmem => hkeys member (List.mem_cons_of_mem _ hmem))
            fun member hmem => h member (List.mem_cons_of_mem _ hmem))

theorem readBack_arr {items : List Json} (h : ∀ item ∈ items, ReadBack item) : ReadBack (arr items) := by
  intro rest _
  rw [compact, compactItems_eq, List.cons_append, List.cons_append, List.append_assoc, List.singleton_append]
  by_cases hitems : items = []
  · subst hitems
    exact .emptyArr rfl rfl
  · exact .arr rfl (reads_items hitems h rest)

theorem readBack_obj {members : List (JsonString × Json)}
    (hkeys : ∀ member ∈ members, ∃ key, member.1 = .text key)
    (h : ∀ member ∈ members, ReadBack member.2) : ReadBack (obj members) := by
  intro rest _
  rw [compact, compactMembers_eq, List.cons_append, List.cons_append, List.append_assoc, List.singleton_append]
  by_cases hmembers : members = []
  · subst hmembers
    exact .emptyObj rfl rfl
  · exact .obj rfl (reads_members hmembers hkeys h rest)

/-- A plain value is read back, by induction on what it is made of. -/
theorem Plain.readBack {value : Json} (h : value.Plain) : ReadBack value := by
  induction h with
  | null => exact fun _ _ => .null rfl
  | bool value =>
      cases value with
      | true => exact fun _ _ => .true rfl
      | false => exact fun _ _ => .false rfl
  | nat value =>
      intro rest hrest
      refine .number ?_
      rw [compact, skip_ofNat, number?_ofNat value hrest]
  | text text =>
      intro rest _
      have hquote : compact (ofText text) ++ rest = '"' :: (escape (.text text) ++ '"' :: rest) := by
        simp [ofText, compact, quote]
      rw [hquote]
      exact .str rfl (string?_escape text rest)
  | arr _ ih => exact readBack_arr ih
  | obj keys _ ih => exact readBack_obj keys ih

/-- **A plain value is read back from its compact form.** -/
theorem parse?_compact {value : Json} (h : value.Plain) : parse? (compact value) = some value := by
  have hread := h.readBack [] ends_nil
  rw [List.append_nil] at hread
  exact parse?_eq_some_iff.2 ⟨[], hread, rfl⟩

end Json

end Transcript
