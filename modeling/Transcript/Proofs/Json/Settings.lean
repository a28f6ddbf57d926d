/-
**Options survive JSON.**

The text of options is read back as these options.  A text that somebody else wrote may put the fields in
another order, leave fields out and have fields that options know nothing of.  What such an object says
is fixed field by field: a known field stands in it at most once, with the value that the options have,
or it is missing and the options have the standard value.  So nothing but the known fields counts, and
their order does not.

Main definitions:

* `Transcript.Json.HasField` — the value of a field that may be missing;
* `Transcript.Options.SpelledBy` — what an object says about options;
* `Transcript.Options.known` — the members that options know.

Main results:

* `Transcript.Json.exists_field?_iff` — reading one field;
* `Transcript.Options.ofJson?_obj_iff` — **an object is read as the options it spells**;
* `Transcript.Options.fromText?_respelled` — **options survive JSON**, in every spelling;
* `Transcript.CueRange.fromText?_toText` — ranges survive it too.
-/

import Transcript.Json.Settings
import Transcript.Proofs.Json.Written

set_option relaxedAutoImplicit false
set_option autoImplicit false

namespace Transcript

namespace Json

/-! ### Values of a type -/

theorem bool?_eq_some_iff (value : Json) (b : Bool) : value.bool? = some b ↔ value = .bool b := by
  cases value <;> simp [bool?]

theorem text?_eq_some_iff {value : Json} {text : Text} : value.text? = some text ↔ value = ofText text := by
  constructor
  · intro h
    cases value with
    | str s =>
        cases s with
        | text => exact congrArg ofText (Option.some.inj h)
        | broken => cases h
    | _ => cases h
  · rintro rfl
    rfl

theorem mapM_text?_eq_some_iff {items : List Json} {texts : List Text} :
    items.mapM text? = some texts ↔ items = texts.map ofText := by
  induction items generalizing texts with
  | nil => cases texts <;> simp
  | cons item items ih =>
      simp only [List.mapM_cons, Option.bind_eq_bind, Option.bind_eq_some_iff, Option.pure_def,
        Option.some.injEq, text?_eq_some_iff, ih]
      cases texts with
      | nil => simp
      | cons text texts => simp [eq_comm]

theorem texts?_eq_some_iff (value : Json) (texts : List Text) :
    value.texts? = some texts ↔ value = ofList ofText texts := by
  cases value with
  | arr items => simp [texts?, ofList, mapM_text?_eq_some_iff]
  | _ => simp [texts?, ofList]

theorem plain_texts (texts : List Text) : (ofList ofText texts).Plain := by
  refine .arr fun item hitem => ?_
  obtain ⟨text, -, rfl⟩ := List.mem_map.1 hitem
  exact .text text

/-! ### Fields -/

section Fields

variable {members : List (JsonString × Json)} {key : Text}

theorem keysAreTexts_iff :
    keysAreTexts members = true ↔ ∀ member ∈ members, ∃ key, member.1 = .text key := by
  rw [keysAreTexts, List.all_eq_true]
  refine forall₂_congr fun member _ => ?_
  rcases member with ⟨_ | _, _⟩ <;> simp

theorem valuesAt_eq_nil_iff :
    valuesAt key members = [] ↔ ∀ member ∈ members, member.1 ≠ .text key := by
  simp [valuesAt, List.filterMap_eq_nil_iff]

theorem valuesAt_eq_singleton_iff {value : Json} :
    valuesAt key members = [value] ↔
      ∃ front back, members = front ++ (.text key, value) :: back ∧
        ∀ member ∈ front ++ back, member.1 ≠ .text key := by
  rw [valuesAt, List.filterMap_eq_cons_iff]
  constructor
  · rintro ⟨front, ⟨name, found⟩, back, rfl, hfront, hfound, hback⟩
    obtain ⟨rfl, rfl⟩ : name = .text key ∧ found = value := by simpa using hfound
    have hothers : valuesAt key (front ++ back) = [] := by
      rw [valuesAt, List.filterMap_append, List.filterMap_eq_nil_iff.2 hfront, hback, List.append_nil]
    exact ⟨front, back, rfl, valuesAt_eq_nil_iff.1 hothers⟩
  · rintro ⟨front, back, rfl, hothers⟩
    obtain ⟨hfront, hback⟩ := List.forall_mem_append.1 hothers
    exact ⟨front, (.text key, value), back, rfl, fun member hmem => if_neg (hfront member hmem),
      if_pos rfl, valuesAt_eq_nil_iff.2 hback⟩

/-- A field has a value: one member has its key, with that value, and no other member has the key; or no
member has it, and the value is the standard one. -/
def HasField (members : List (JsonString × Json)) (key : Text) (standard value : Json) : Prop :=
  (∃ front back, members = front ++ (.text key, value) :: back ∧
    ∀ member ∈ front ++ back, member.1 ≠ .text key) ∨
  (∀ member ∈ members, member.1 ≠ .text key) ∧ value = standard

theorem hasField_iff {standard value : Json} :
    HasField members key standard value ↔
      valuesAt key members = [value] ∨ valuesAt key members = [] ∧ value = standard := by
  rw [HasField, valuesAt_eq_singleton_iff, valuesAt_eq_nil_iff]

/-- **Reading a field** of a type whose values are spelled in one way each. -/
theorem exists_field?_iff {α : Type} {decode : Json → Option α} {encode : α → Json}
    (hdecode : ∀ value a, decode value = some a ↔ value = encode a) {standard a : α} :
    (∃ found, field? members key = some found ∧ orStandard decode standard found = some a) ↔
      HasField members key (encode standard) (encode a) := by
  have hinj : encode a = encode standard ↔ standard = a := by
    rw [← hdecode, (hdecode _ a).2 rfl, Option.some.injEq, eq_comm]
  rw [hasField_iff, field?]
  rcases valuesAt key members with - | ⟨value, - | ⟨next, rest⟩⟩
  · simp [orStandard, hinj]
  · simp [orStandard, hdecode]
  · simp

theorem exists_flag?_iff {standard b : Bool} :
    (∃ found, field? members key = some found ∧ orStandard bool? standard found = some b) ↔
      HasField members key (.bool standard) (.bool b) :=
  exists_field?_iff bool?_eq_some_iff

theorem exists_texts?_iff {standard texts : List Text} :
    (∃ found, field? members key = some found ∧ orStandard texts? standard found = some texts) ↔
      HasField members key (ofList ofText standard) (ofList ofText texts) :=
  exists_field?_iff texts?_eq_some_iff

/-- Other fields do not count, nor does the order of the members. -/
theorem HasField.of_perm {members' : List (JsonString × Json)} {standard value : Json}
    {known : JsonString × Json → Bool} (hknown : ∀ member, member.1 = .text key → known member = true)
    (hperm : (members'.filter known).Perm (members.filter known))
    (h : HasField members key standard value) : HasField members' key standard value := by
  have hvalues : ∀ ms : List (JsonString × Json), valuesAt key (ms.filter known) = valuesAt key ms := by
    intro ms
    rw [valuesAt, valuesAt, List.filterMap_filter]
    congr 1
    funext member
    by_cases hkey : member.1 = .text key
    · rw [if_pos (hknown member hkey)]
    · simp [hkey]
  have hsame : (valuesAt key members').Perm (valuesAt key members) := by
    rw [← hvalues members', ← hvalues members]
    exact hperm.filterMap _
  rw [hasField_iff] at h ⊢
  rcases h with hone | ⟨hnone, hstandard⟩
  · exact Or.inl (List.perm_singleton.1 (hone ▸ hsame))
  · exact Or.inr ⟨List.perm_nil.1 (hnone ▸ hsame), hstandard⟩

end Fields

end Json

/-! ### Options -/

namespace Options

/-- What the members of an object say about options: their keys are texts, and each field of the options
has its value. -/
structure SpelledBy (o : Options) (members : List (JsonString × Json)) : Prop where
  keys : ∀ member ∈ members, ∃ key, member.1 = .text key
  tags : Json.HasField members tagsKey (.bool standard.tags) (.bool o.tags)
  input : Json.HasField members inputKey (.bool standard.input) (.bool o.input)
  normalize : Json.HasField members normalizeKey (.bool standard.normalize) (.bool o.normalize)
  remove : Json.HasField members removeKey (.ofList .ofText standard.remove) (.ofList .ofText o.remove)

/-- **An object is read as the options it spells**, and as nothing else. -/
theorem ofJson?_obj_iff {members : List (JsonString × Json)} {o : Options} :
    ofJson? (.obj members) = some o ↔ o.SpelledBy members := by
  rw [ofJson?]
  by_cases hkeys : Json.keysAreTexts members = true
  · simp only [if_pos hkeys, ofFields?, Option.bind_eq_bind, Option.bind_eq_some_iff, Option.some.injEq]
    constructor
    · rintro ⟨tags, htags, input, hinput, normalize, hnormalize, remove, hremove,
        t, ht, i, hi, n, hn, r, hr, rfl⟩
      exact ⟨Json.keysAreTexts_iff.1 hkeys, Json.exists_flag?_iff.1 ⟨tags, htags, ht⟩,
        Json.exists_flag?_iff.1 ⟨input, hinput, hi⟩,
        Json.exists_flag?_iff.1 ⟨normalize, hnormalize, hn⟩,
        Json.exists_texts?_iff.1 ⟨remove, hremove, hr⟩⟩
    · rintro ⟨-, htags, hinput, hnormalize, hremove⟩
      obtain ⟨tags, htags, ht⟩ := Json.exists_flag?_iff.2 htags
      obtain ⟨input, hinput, hi⟩ := Json.exists_flag?_iff.2 hinput
      obtain ⟨normalize, hnormalize, hn⟩ := Json.exists_flag?_iff.2 hnormalize
      obtain ⟨remove, hremove, hr⟩ := Json.exists_texts?_iff.2 hremove
      exact ⟨tags, htags, input, hinput, normalize, hnormalize, remove, hremove,
        _, ht, _, hi, _, hn, _, hr, rfl⟩
  · rw [if_neg hkeys]
    exact ⟨nofun, fun h => absurd (Json.keysAreTexts_iff.2 h.keys) hkeys⟩

/-- The keys of the fields of options. -/
def fieldKeys : List Text := [tagsKey, inputKey, normalizeKey, removeKey]

/-- The members that options know. -/
def known (members : List (JsonString × Json)) : List (JsonString × Json) :=
  members.filter fun member => member.1 ∈ fieldKeys.map JsonString.text

/-- Options are spelled by the known fields, in any order. -/
theorem SpelledBy.of_perm {o : Options} {members members' : List (JsonString × Json)}
    (h : o.SpelledBy members) (hkeys : ∀ member ∈ members', ∃ key, member.1 = .text key)
    (hperm : (known members').Perm (known members)) : o.SpelledBy members' := by
  have hknown : ∀ key ∈ fieldKeys, ∀ member : JsonString × Json, member.1 = .text key →
      decide (member.1 ∈ fieldKeys.map JsonString.text) = true := by
    intro key hkey member hmember
    rw [hmember, decide_eq_true_eq]
    exact List.mem_map_of_mem hkey
  exact ⟨hkeys, h.tags.of_perm (hknown _ (by simp [fieldKeys])) hperm,
    h.input.of_perm (hknown _ (by simp [fieldKeys])) hperm,
    h.normalize.of_perm (hknown _ (by simp [fieldKeys])) hperm,
    h.remove.of_perm (hknown _ (by simp [fieldKeys])) hperm⟩

theorem ofJson?_toJson (o : Options) : ofJson? o.toJson = some o := by
  refine ofJson?_obj_iff.2 ⟨?_, ?_, ?_, ?_, ?_⟩
  · simp
  all_goals exact Json.hasField_iff.2 (Or.inl rfl)

theorem plain_toJson (o : Options) : o.toJson.Plain := by
  refine .obj (by simp) ?_
  simp only [List.forall_mem_cons]
  exact ⟨.bool _, .bool _, .bool _, Json.plain_texts _, nofun⟩

theorem parse?_toText (o : Options) : Json.parse? o.toText = some o.toJson :=
  Json.parse?_compact o.plain_toJson

theorem fromText?_of_parse? {text : Text} {value : Json} (h : Json.parse? text = some value) :
    fromText? text = ofJson? value := by
  rw [fromText?, h, Option.bind_some]

/-- **Options survive JSON.**

The text of options is read back as these options.  Any text of an object is read as the options that its
members spell, and as nothing else.  What it was read as survives being written and read once more, and it
is what every other object says that has the same known fields: in any order, and whatever else it has. -/
theorem fromText?_respelled :
    (∀ o : Options, fromText? o.toText = some o) ∧
    ∀ (text : Text) (members : List (JsonString × Json)) (o : Options),
      Json.parse? text = some (.obj members) →
        (fromText? text = some o ↔ o.SpelledBy members) ∧
        (fromText? text = some o →
          fromText? o.toText = some o ∧
          ∀ (text' : Text) (members' : List (JsonString × Json)),
            Json.parse? text' = some (.obj members') →
            (∀ member ∈ members', ∃ key, member.1 = .text key) →
            (known members').Perm (known members) → fromText? text' = some o) := by
  have hwritten : ∀ o : Options, fromText? o.toText = some o := by
    intro o
    rw [fromText?_of_parse? o.parse?_toText, ofJson?_toJson]
  refine ⟨hwritten, fun text members o htext => ?_⟩
  have hread : fromText? text = some o ↔ o.SpelledBy members := by
    rw [fromText?_of_parse? htext, ofJson?_obj_iff]
  refine ⟨hread, fun h => ⟨hwritten o, fun text' members' htext' hkeys hperm => ?_⟩⟩
  rw [fromText?_of_parse? htext', ofJson?_obj_iff]
  exact (hread.1 h).of_perm hkeys hperm

/-- An object that leaves two fields out, and another one with the same fields in another order and a field
that options do not know, which has a field of theirs inside. -/
theorem fromText?_respelled_tilde :
    let text := "\x7b\"norm_ws\": true, \"rm\": [\"~\"]\x7d".toList
    let text' := "\x7b\"rm\":[\"~\"],\"x\":\x7b\"tags\":0\x7d,\"norm_ws\":true\x7d".toList
    let normalize : JsonString × Json := (.text Options.normalizeKey, .bool true)
    let remove : JsonString × Json := (.text Options.removeKey, .arr [.ofText "~".toList])
    let other : JsonString × Json := (.text "x".toList, .obj [(.text Options.tagsKey, .nat 0)])
    let o : Options := ⟨true, false, true, ["~".toList]⟩
    Json.parse? text = some (.obj [normalize, remove]) ∧
    Json.parse? text' = some (.obj [remove, other, normalize]) ∧
    o.SpelledBy [normalize, remove] ∧
    fromText? o.toText = some o ∧ fromText? text' = some o := by
  intro text text' normalize remove other o
  have htext : Json.parse? text = some (.obj [normalize, remove]) :=
    Json.parse?_eq_some_iff.2 ⟨[], .obj rfl (.member (.intro rfl rfl rfl) (.true rfl) rfl
      (.lastMember (.intro rfl rfl rfl) (.arr rfl (.lastItem (.str rfl rfl) rfl)) rfl)), rfl⟩
  have htext' : Json.parse? text' = some (.obj [remove, other, normalize]) :=
    Json.parse?_eq_some_iff.2 ⟨[], .obj rfl
      (.member (.intro rfl rfl rfl) (.arr rfl (.lastItem (.str rfl rfl) rfl)) rfl
        (.member (.intro rfl rfl rfl) (.obj rfl (.lastMember (.intro rfl rfl rfl) (.number rfl) rfl)) rfl
          (.lastMember (.intro rfl rfl rfl) (.true rfl) rfl))), rfl⟩
  have hspelled : o.SpelledBy [normalize, remove] := by
    refine ⟨by simp [normalize, remove], ?_, ?_, ?_, ?_⟩
    · exact Json.hasField_iff.2 (Or.inr ⟨rfl, rfl⟩)
    · exact Json.hasField_iff.2 (Or.inr ⟨rfl, rfl⟩)
    · exact Json.hasField_iff.2 (Or.inl rfl)
    · exact Json.hasField_iff.2 (Or.inl rfl)
  obtain ⟨hread, hsurvives⟩ := fromText?_respelled.2 text [normalize, remove] o htext
  obtain ⟨hwritten, hothers⟩ := hsurvives (hread.2 hspelled)
  refine ⟨htext, htext', hspelled, hwritten, hothers text' _ htext' ?_ ?_⟩
  · simp [normalize, remove, other]
  · exact List.Perm.swap normalize remove []

end Options

/-! ### Ranges -/

namespace CueRange

theorem plain_toJson (range : CueRange) : range.toJson.Plain := by
  refine .obj (by simp) ?_
  simp only [List.forall_mem_cons]
  exact ⟨.nat _, .nat _, nofun⟩

/-- A range whose bounds fit into 64 bits is read back from its text, also one with its bounds the wrong
way round. -/
theorem fromText?_toText {range : CueRange} (hmin : range.min < Text.wordLimit)
    (hmax : range.max < Text.wordLimit) : fromText? range.toText = some range := by
  have hword : ∀ n < Text.wordLimit, Json.word? (.nat n) = some n := by
    intro n hn
    simp [Json.word?, Json.nat?, hn]
  have hfields : ofJson? range.toJson = ofFields? (some (.nat range.min)) (some (.nat range.max)) := rfl
  rw [fromText?, toText, Json.parse?_compact range.plain_toJson, Option.bind_some, hfields]
  simp [ofFields?, hword _ hmin, hword _ hmax]

end CueRange

end Transcript
