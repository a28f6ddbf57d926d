/-
**Options and ranges in JSON.**

An object names its fields in any order: unknown fields are passed over, a known one must not be
repeated, and a missing one has its standard value if it has one.  An array gives the fields by
position instead.

Main definitions:

* `Transcript.Json.field?` — a field of an object;
* `Transcript.Options.ofJson?`, `Transcript.Options.toJson` — options from and as JSON;
* `Transcript.Options.fromText?`, `Transcript.Options.toText` — options from and as JSON text;
* `Transcript.CueRange.ofJson?`, `Transcript.CueRange.toJson` — ranges from and as JSON.
-/

import Transcript.Json.Printer
import Transcript.Json.Reader
import Transcript.Options

set_option relaxedAutoImplicit false
set_option autoImplicit false

namespace Transcript

namespace Json

/-! ### Fields -/

/-- Every key is a text. -/
def keysAreTexts (members : List (JsonString × Json)) : Bool :=
  members.all fun (key, _) => match key with
    | .text _ => true
    | .broken _ => false

/-- A value that may be missing, read by `decode`. -/
def orStandard {α : Type} (decode : Json → Option α) (standard : α) : Option Json → Option α
  | none => some standard
  | some value => decode value

/-- The value under a key that must not be repeated: `none` if it is, and an inner `none` if the key
is missing. -/
def field? (members : List (JsonString × Json)) (key : Text) : Option (Option Json) :=
  match valuesAt key members with
  | [] => some none
  | [value] => some (some value)
  | _ => none

/-- The number, if it is written with digits only and fits into 64 bits. -/
def word? (value : Json) : Option Nat := value.nat?.filter (· < Text.wordLimit)

end Json

/-! ### Options -/

namespace Options

def tagsKey : Text := "tags".toList

def inputKey : Text := "input".toList

def normalizeKey : Text := "norm_ws".toList

def removeKey : Text := "rm".toList

/-- The options with the given fields, each of which may be missing. -/
def ofFields? (tags input normalize remove : Option Json) : Option Options := do
  let tags ← Json.orStandard Json.bool? standard.tags tags
  let input ← Json.orStandard Json.bool? standard.input input
  let normalize ← Json.orStandard Json.bool? standard.normalize normalize
  let remove ← Json.orStandard Json.texts? standard.remove remove
  some ⟨tags, input, normalize, remove⟩

/-- The options that an object or an array spells. -/
def ofJson? : Json → Option Options
  | .obj members =>
      if Json.keysAreTexts members then do
        let tags ← Json.field? members tagsKey
        let input ← Json.field? members inputKey
        let normalize ← Json.field? members normalizeKey
        let remove ← Json.field? members removeKey
        ofFields? tags input normalize remove
      else none
  | .arr items =>
      if items.length ≤ 4 then ofFields? items[0]? items[1]? items[2]? items[3]? else none
  | _ => none

def toJson (o : Options) : Json :=
  .obj [(.text tagsKey, .bool o.tags), (.text inputKey, .bool o.input),
    (.text normalizeKey, .bool o.normalize),
    (.text removeKey, .ofList Json.ofText o.remove)]

/-- The options that a JSON text spells. -/
def fromText? (text : Text) : Option Options := (Json.parse? text).bind ofJson?

def toText (o : Options) : Text := o.toJson.compact

end Options

/-! ### Ranges -/

namespace CueRange

def minKey : Text := "min".toList

def maxKey : Text := "max".toList

/-- The range with the given fields.  The order of the bounds is not checked. -/
def ofFields? (min max : Option Json) : Option CueRange := do
  let min ← min.bind Json.word?
  let max ← max.bind Json.word?
  some ⟨min, max⟩

/-- The range that an object or an array spells. -/
def ofJson? : Json → Option CueRange
  | .obj members =>
      if Json.keysAreTexts members then do
        let min ← Json.field? members minKey
        let max ← Json.field? members maxKey
        ofFields? min max
      else none
  | .arr items => if items.length = 2 then ofFields? items[0]? items[1]? else none
  | _ => none

def toJson (range : CueRange) : Json :=
  .obj [(.text minKey, .nat range.min), (.text maxKey, .nat range.max)]

/-- The range that a JSON text spells. -/
def fromText? (text : Text) : Option CueRange := (Json.parse? text).bind ofJson?

def toText (range : CueRange) : Text := range.toJson.compact

end CueRange

end Transcript
