/-
**The arguments of the command.**

An option is written with two hyphens and its name, or with one hyphen and its letter.  Letters may
share a hyphen.  The value of a setting stands behind an equals sign, directly behind the letter, or
in the next argument; there it must not look like an option.  Every other argument is a file, and so
is each one behind an argument of two hyphens only.

Main definitions:

* `Transcript.Given` — a file or an option, as the arguments give it;
* `Transcript.Given.read?` — what a list of arguments gives;
* `Transcript.Invocation` — a command with the files it reads;
* `Transcript.Invocation.ofArgs?` — the invocation that a list of arguments asks for.
-/

import Transcript.Command

set_option relaxedAutoImplicit false
set_option autoImplicit false

namespace Transcript

/-! ### Options -/

/-- An option that takes no value. -/
inductive Flag
  | normalize
  | noTags
  | input
  deriving Repr, DecidableEq

/-- An option that takes a value. -/
inductive Setting
  | remove
  | cueMin
  | cueMax
  | against
  deriving Repr, DecidableEq

inductive Key
  | flag (flag : Flag)
  | setting (setting : Setting)
  deriving Repr, DecidableEq

namespace Key

def all : List Key :=
  [.flag .normalize, .flag .noTags, .flag .input, .setting .remove, .setting .cueMin,
    .setting .cueMax, .setting .against]

/-- The name of an option, behind two hyphens. -/
def long : Key → Text
  | .flag .normalize => "norm-ws".toList
  | .flag .noTags => "no-tags".toList
  | .flag .input => "input".toList
  | .setting .remove => "rm".toList
  | .setting .cueMin => "prefix-min".toList
  | .setting .cueMax => "prefix-max".toList
  | .setting .against => "against".toList

/-- The letter of an option, behind one hyphen. -/
def short? : Key → Option Char
  | .flag .normalize => some 'w'
  | .flag .input => some 'i'
  | .setting .against => some 'a'
  | _ => none

def ofLong? (name : Text) : Option Key := all.find? fun key => key.long == name

def ofShort? (letter : Char) : Option Key := all.find? fun key => key.short? == some letter

end Key

/-! ### Reading arguments -/

/-- What an argument looks like. -/
inductive Form
  | word
  | ending
  | long (body : Text)
  | shorts (letters : Text)
  deriving Repr, DecidableEq

/-- A hyphen alone is a word. -/
def Form.ofText : Text → Form
  | ['-', '-'] => .ending
  | '-' :: '-' :: body => .long body
  | ['-'] => .word
  | '-' :: letters => .shorts letters
  | _ => .word

/-- A file or an option with its value, as the arguments give it. -/
inductive Given
  | file (path : Text)
  | flag (flag : Flag)
  | setting (setting : Setting) (value : Text)
  deriving Repr, DecidableEq

namespace Given

/-- What a long option gives, and the setting that waits for its value. -/
def ofLong? (body : Text) : Option (List Given × Option Setting) :=
  let name := body.takeWhile (· ≠ '=')
  match Key.ofLong? name, body.drop name.length with
  | some (.flag f), [] => some ([.flag f], none)
  | some (.setting s), [] => some ([], some s)
  | some (.setting s), _ :: value => some ([.setting s value], none)
  | _, _ => none

/-- What letters behind one hyphen give.  A setting takes the rest of them as its value. -/
def ofShorts? : Text → Option (List Given × Option Setting)
  | [] => some ([], none)
  | letter :: rest =>
      match Key.ofShort? letter with
      | none => none
      | some (.flag f) => (ofShorts? rest).map fun (given, waiting) => (.flag f :: given, waiting)
      | some (.setting s) =>
          match rest with
          | [] => some ([], some s)
          | '=' :: value => some ([.setting s value], none)
          | value => some ([.setting s value], none)

/-- What arguments give, when the setting `waiting` takes the first of them as its value. -/
def read? : Option Setting → List Text → Option (List Given)
  | none, [] => some []
  | some _, [] => none
  | some s, arg :: rest =>
      match Form.ofText arg with
      | .word => (read? none rest).map (.setting s arg :: ·)
      | _ => none
  | none, arg :: rest =>
      match Form.ofText arg with
      | .word => (read? none rest).map (.file arg :: ·)
      | .ending => some (rest.map .file)
      | .long body =>
          (ofLong? body).bind fun (given, waiting) => (read? waiting rest).map (given ++ ·)
      | .shorts letters =>
          (ofShorts? letters).bind fun (given, waiting) => (read? waiting rest).map (given ++ ·)

def files (given : List Given) : List Text :=
  given.filterMap fun
    | .file path => some path
    | _ => none

/-- The values that a setting is given, in order. -/
def values (s : Setting) (given : List Given) : List Text :=
  given.filterMap fun
    | .setting t value => if t = s then some value else none
    | _ => none

/-- Whether a flag is given.  It must not be repeated. -/
def isOn? (f : Flag) (given : List Given) : Option Bool :=
  match given.count (.flag f) with
  | 0 => some false
  | 1 => some true
  | _ => none

end Given

/-! ### Invocations -/

/-- A command with the files it reads: the transcript, which otherwise comes from standard input,
and the output to match. -/
structure Invocation where
  command : Command
  expected : Option Text
  against : Option Text
  deriving Repr, DecidableEq

namespace Invocation

/-- The value of a list that has at most one. -/
def single? {α : Type} : List α → Option (Option α)
  | [] => some none
  | [a] => some (some a)
  | _ => none

/-- The bound of a cue that a setting is given, or else the standard one. -/
def bound? (s : Setting) (standard : Nat) (given : List Given) : Option Nat :=
  match single? (Given.values s given) with
  | none => none
  | some none => some standard
  | some (some value) => Text.toWord? value

/-- Only the texts to be taken out may be given more than once. -/
def ofGiven? (given : List Given) : Option Invocation := do
  let expected ← single? (Given.files given)
  let against ← single? (Given.values .against given)
  let normalize ← Given.isOn? .normalize given
  let noTags ← Given.isOn? .noTags given
  let input ← Given.isOn? .input given
  let cueMin ← bound? .cueMin CueRange.standard.min given
  let cueMax ← bound? .cueMax CueRange.standard.max given
  let options : Options := ⟨!noTags, input, normalize, Given.values .remove given⟩
  some ⟨⟨options, cueMin, cueMax⟩, expected, against⟩

def ofArgs? (args : List Text) : Option Invocation := (Given.read? none args).bind ofGiven?

end Invocation

end Transcript
