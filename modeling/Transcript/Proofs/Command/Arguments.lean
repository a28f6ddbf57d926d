/-
**Asking for an invocation.**

Every invocation with bounds of 64 bits can be asked for.  Its arguments name each option in full and put
the value of a setting behind an equals sign, where it may look like anything; the file of the
transcript stands behind an argument of two hyphens.  The other spellings come down to this one: a
letter stands for a name, letters that share a hyphen are options of their own, and a value may stand
behind its letter or be an argument of its own, unless it looks like an option there.

Main definitions:

* `Transcript.Given.written` — the argument that gives a file or an option;
* `Transcript.Invocation.toArgs` — the arguments that ask for an invocation.

Main results:

* `Transcript.Given.read?_written_append` — what is written is read in front of any arguments;
* `Transcript.Given.read?_letter`, `Transcript.Given.read?_letters`,
  `Transcript.Given.read?_attached`, `Transcript.Given.read?_separate` — the other spellings;
* `Transcript.Invocation.ofArgs?_toArgs` — **an invocation is what its arguments ask for**.
-/

import Mathlib.Data.List.Count
import Transcript.Arguments
import Transcript.Proofs.Json.Written

set_option relaxedAutoImplicit false
set_option autoImplicit false

namespace Transcript

namespace Text

theorem dropPlus_of_isDigit {c : Char} {text : Text} (h : c.isDigit = true) :
    dropPlus (c :: text) = c :: text := by
  have hplus : c ≠ '+' := by
    rintro rfl
    exact absurd h (by decide)
  simp [dropPlus, hplus]

theorem toWord?_ofNat {n : Nat} (h : n < wordLimit) : toWord? (ofNat n) = some n := by
  obtain ⟨c, digits, hdigits, hc⟩ := exists_ofNat_eq_cons n
  have hall : (ofNat n).all Char.isDigit = true :=
    List.all_eq_true.2 fun c => isDigit_of_mem_ofNat
  have hplus : dropPlus (ofNat n) = ofNat n := by rw [hdigits, dropPlus_of_isDigit hc]
  simp only [toWord?, hplus, toNat_ofNat]
  exact if_pos ⟨ofNat_ne_nil n, hall, h⟩

end Text

/-! ### Names of options -/

namespace Key

theorem ofLong?_long (key : Key) : ofLong? key.long = some key := by
  obtain (_ | _ | _) | (_ | _ | _ | _) := key <;> decide

theorem long_ne_nil (key : Key) : key.long ≠ [] := by
  obtain (_ | _ | _) | (_ | _ | _ | _) := key <;> decide

theorem equals_not_mem_long (key : Key) : '=' ∉ key.long := by
  obtain (_ | _ | _) | (_ | _ | _ | _) := key <;> decide

/-- An argument of two hyphens and more is no group of letters. -/
theorem ne_hyphen_of_ofShort? {letter : Char} {key : Key} (h : ofShort? letter = some key) :
    letter ≠ '-' := by
  rintro rfl
  have hnone : ofShort? '-' = none := by decide
  exact Option.some_ne_none _ (h.symm.trans hnone)

end Key

namespace Form

theorem ofText_long {body : Text} (h : body ≠ []) : ofText ('-' :: '-' :: body) = .long body := by
  cases body with
  | nil => exact absurd rfl h
  | cons c body => rfl

theorem ofText_shorts {c : Char} (h : c ≠ '-') (rest : Text) :
    ofText ('-' :: c :: rest) = .shorts (c :: rest) := by
  cases rest <;> simp [ofText, h]

end Form

/-! ### Reading back what is written -/

namespace Given

/-- The argument that gives a file or an option. -/
def written : Given → Text
  | .file path => path
  | .flag f => '-' :: '-' :: (Key.flag f).long
  | .setting s value => '-' :: '-' :: ((Key.setting s).long ++ '=' :: value)

theorem ofLong?_flag (f : Flag) : ofLong? (Key.flag f).long = some ([.flag f], none) := by
  cases f <;> decide

theorem ofLong?_setting_alone (s : Setting) : ofLong? (Key.setting s).long = some ([], some s) := by
  cases s <;> decide

theorem ofLong?_setting (s : Setting) (value : Text) :
    ofLong? ((Key.setting s).long ++ '=' :: value) = some ([.setting s value], none) := by
  have hlong : ∀ c ∈ (Key.setting s).long, decide (c ≠ '=') = true :=
    fun c hc => decide_eq_true fun heq => Key.equals_not_mem_long _ (heq ▸ hc)
  have hname : ((Key.setting s).long ++ '=' :: value).takeWhile (· ≠ '=') = (Key.setting s).long := by
    rw [List.takeWhile_append_of_pos hlong]
    simp
  simp only [ofLong?, hname, Key.ofLong?_long, List.drop_left]

theorem read?_written_cons {given : Given} (h : ∀ path, given = .file path → Form.ofText path = .word)
    (args : List Text) : read? none (given.written :: args) = (read? none args).map (given :: ·) := by
  cases given with
  | file path => simp only [written, read?, h path rfl]
  | flag f =>
      simp only [written, read?, Form.ofText_long (Key.long_ne_nil _), ofLong?_flag, Option.bind_some,
        List.singleton_append]
  | setting s value =>
      have hbody : (Key.setting s).long ++ '=' :: value ≠ [] := by simp
      simp only [written, read?, Form.ofText_long hbody, ofLong?_setting, Option.bind_some,
        List.singleton_append]

/-- What is written is read in front of any arguments. -/
theorem read?_written_append {given : List Given}
    (h : ∀ path, .file path ∈ given → Form.ofText path = .word) (args : List Text) :
    read? none (given.map written ++ args) = (read? none args).map (given ++ ·) := by
  induction given with
  | nil => simp
  | cons first rest ih =>
      have hfirst : ∀ path, first = .file path → Form.ofText path = .word := by
        rintro path rfl
        exact h path (List.mem_cons_self ..)
      rw [List.map_cons, List.cons_append, read?_written_cons hfirst,
        ih fun path hpath => h path (List.mem_cons_of_mem _ hpath), Option.map_map]
      rfl

/-! ### Other spellings -/

theorem ofShorts?_singleton {letter : Char} {key : Key} (h : Key.ofShort? letter = some key) :
    ofShorts? [letter] = ofLong? key.long := by
  cases key with
  | flag f => simp [ofShorts?, h, ofLong?_flag]
  | setting s => simp [ofShorts?, h, ofLong?_setting_alone]

/-- A letter stands for the name of its option. -/
theorem read?_letter {letter : Char} {key : Key} (h : Key.ofShort? letter = some key)
    (args : List Text) :
    read? none (['-', letter] :: args) = read? none (('-' :: '-' :: key.long) :: args) := by
  simp only [read?, Form.ofText_shorts (Key.ne_hyphen_of_ofShort? h),
    Form.ofText_long (Key.long_ne_nil key), ofShorts?_singleton h]

/-- A value may stand directly behind a letter, or behind an equals sign there. -/
theorem read?_attached {letter : Char} {s : Setting} (h : Key.ofShort? letter = some (.setting s))
    {rest value : Text}
    (hrest : rest = '=' :: value ∨ rest = value ∧ ∃ c ∈ value.head?, c ≠ '=') (args : List Text) :
    read? none (('-' :: letter :: rest) :: args) =
      read? none ((Given.setting s value).written :: args) := by
  have hvalue : ofShorts? (letter :: rest) = some ([.setting s value], none) := by
    obtain rfl | ⟨rfl, c, hc, hne⟩ := hrest
    · simp [ofShorts?, h]
    · obtain ⟨value, rfl⟩ := List.head?_eq_some_iff.1 hc
      simp [ofShorts?, h, hne]
  rw [read?_written_cons (by simp)]
  simp only [read?, Form.ofText_shorts (Key.ne_hyphen_of_ofShort? h), hvalue, Option.bind_some,
    List.singleton_append]

/-- Letters that share a hyphen are options of their own. -/
theorem read?_letters {letter next : Char} {f : Flag} (h : Key.ofShort? letter = some (.flag f))
    (hnext : next ≠ '-') (rest : Text) (args : List Text) :
    read? none (('-' :: letter :: next :: rest) :: args) =
      read? none (['-', letter] :: ('-' :: next :: rest) :: args) := by
  have hletter := Key.ne_hyphen_of_ofShort? h
  have hfront : ofShorts? (letter :: next :: rest) =
      (ofShorts? (next :: rest)).map fun front => (.flag f :: front.1, front.2) := by
    simp only [ofShorts?, h]
  have halone : ofShorts? [letter] = some ([.flag f], none) := by
    rw [ofShorts?_singleton h, ofLong?_flag]
  simp only [read?, Form.ofText_shorts hletter, Form.ofText_shorts hnext, hfront, halone,
    Option.bind_some, Option.map_bind, Option.bind_map]
  refine congrArg _ (funext fun front => ?_)
  simp [Function.comp_def]

example : read? none ["-wia".toList, "out".toList, "in".toList] =
    some [.flag .normalize, .flag .input, .setting .against "out".toList, .file "in".toList] := by
  decide

/-- A value may be an argument of its own unless it looks like an option. -/
theorem read?_separate (s : Setting) {value : Text} (h : Form.ofText value = .word) (args : List Text) :
    read? none (('-' :: '-' :: (Key.setting s).long) :: value :: args) =
      read? none ((Given.setting s value).written :: args) := by
  rw [read?_written_cons (by simp)]
  simp only [read?, Form.ofText_long (Key.long_ne_nil _), ofLong?_setting_alone, h, Option.bind_some]
  simp [Function.comp_def]

end Given

/-! ### Asking for an invocation -/

namespace Invocation

/-- Whether a flag has to be given. -/
def isOn (i : Invocation) : Flag → Bool
  | .normalize => i.command.options.normalize
  | .noTags => !i.command.options.tags
  | .input => i.command.options.input

/-- The values that a setting has to be given. -/
def values (i : Invocation) : Setting → List Text
  | .remove => i.command.options.remove
  | .cueMin => [Text.ofNat i.command.cueMin]
  | .cueMax => [Text.ofNat i.command.cueMax]
  | .against => i.against.toList

def options (i : Invocation) : List Given :=
  ([.normalize, .noTags, .input].filter i.isOn).map .flag ++
    [.remove, .cueMin, .cueMax, .against].flatMap fun s => (i.values s).map (.setting s)

/-- The arguments that ask for an invocation. -/
def toArgs (i : Invocation) : List Text :=
  i.options.map Given.written ++ "--".toList :: i.expected.toList

theorem read?_toArgs (i : Invocation) :
    Given.read? none i.toArgs = some (i.options ++ i.expected.toList.map .file) := by
  have hfile : ∀ path, .file path ∈ i.options → Form.ofText path = .word := by simp [options]
  rw [toArgs, Given.read?_written_append hfile]
  rfl

theorem isOn?_options (i : Invocation) (f : Flag) (paths : List Text) :
    Given.isOn? f (i.options ++ paths.map .file) = some (i.isOn f) := by
  have hfiles : (paths.map Given.file).count (.flag f) = 0 := by simp [List.count_eq_zero]
  have hsettings : ([.remove, .cueMin, .cueMax, .against].flatMap fun s =>
      (i.values s).map (Given.setting s)).count (.flag f) = 0 := by simp [List.count_eq_zero]
  have hflags : (([.normalize, .noTags, .input].filter i.isOn).map Given.flag).count (.flag f) =
      if i.isOn f then 1 else 0 := by
    rw [List.count_map_of_injective _ _ fun _ _ => Given.flag.inj]
    by_cases h : i.isOn f
    · rw [if_pos h, List.count_filter h]
      cases f <;> rfl
    · rw [if_neg h, List.count_eq_zero]
      exact fun hmem => h (List.mem_filter.1 hmem).2
  rw [Given.isOn?, List.count_append, options, List.count_append, hfiles, hsettings, hflags]
  cases i.isOn f <;> rfl

theorem values_options (i : Invocation) (s : Setting) (paths : List Text) :
    Given.values s (i.options ++ paths.map .file) = i.values s := by
  cases s <;> simp [Given.values, options]

theorem files_options (i : Invocation) (paths : List Text) :
    Given.files (i.options ++ paths.map .file) = paths := by
  simp [Given.files, options]

theorem single?_toList (o : Option Text) : single? o.toList = some o := by cases o <;> rfl

theorem bound?_options {i : Invocation} {s : Setting} {n : Nat} (standard : Nat) (paths : List Text)
    (hs : i.values s = [Text.ofNat n]) (hn : n < Text.wordLimit) :
    bound? s standard (i.options ++ paths.map .file) = some n := by
  rw [bound?, values_options, hs]
  exact Text.toWord?_ofNat hn

/-- An invocation is what its arguments ask for. -/
theorem ofArgs?_toArgs {i : Invocation} (hmin : i.command.cueMin < Text.wordLimit)
    (hmax : i.command.cueMax < Text.wordLimit) : ofArgs? i.toArgs = some i := by
  rw [ofArgs?, read?_toArgs, Option.bind_some, ofGiven?]
  rw [bound?_options _ _ rfl hmin, bound?_options _ _ rfl hmax]
  simp only [files_options, values_options, isOn?_options, values, isOn, single?_toList]
  simp

end Invocation

end Transcript
