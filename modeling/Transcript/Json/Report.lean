/-
**Programs and captures in JSON.**

Main definitions:

* `Transcript.Program.toJson` — a program with its fragments, tags, inputs and warnings;
* `Transcript.capturesToJson` — what the tags captured, by name.
-/

import Transcript.Json.Printer
import Transcript.Program

set_option relaxedAutoImplicit false
set_option autoImplicit false

namespace Transcript

/-- A fragment with what follows from its shape. -/
def Fragment.toJson (f : Fragment) : Json :=
  .record [("offset", .nat f.offset), ("pattern", .ofText f.pattern), ("weight", .nat f.weight),
    ("resets_prefix", .bool f.resetsCue)]

/-- An input, whose cue is called its prefix. -/
def InputRecord.toJson (r : InputRecord) : Json :=
  .record [("offset", .nat r.offset), ("prefix", .ofText r.cue), ("text", .ofText r.text)]

def Warning.toJson (w : Warning) : Json :=
  .record [("offset", .nat w.offset), ("kind", .ofText w.kind.name)]

namespace Program

/-- The names that tags bind, by the index of the tag. -/
def tagsToJson (p : Program) : Json :=
  .obj (p.tags.map fun (index, binding) =>
    (.text (Text.ofNat index), .ofOption Json.ofText binding))

def toJson (p : Program) : Json :=
  .record [("fragments", .ofList Fragment.toJson p.fragments), ("tags_by_idx", p.tagsToJson),
    ("inputs", .ofList InputRecord.toJson p.inputs),
    ("warnings", .ofList Warning.toJson p.warnings)]

end Program

/-- What the tags captured, by name. -/
def capturesToJson (captures : List (Text × Option Text)) : Json :=
  .obj (captures.map fun (name, value) => (.text name, .ofOption Json.ofText value))

end Transcript
