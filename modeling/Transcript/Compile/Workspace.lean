/-
**The workspace of a compilation.**

A compilation keeps what it works on in one place, which serves for one text after the other: where it
stands, a small buffer of tokens that are not fragments yet, and what was built so far, with indexes of
the tags and their groups beside the fragments.  Nothing in the form of the workspace keeps these parts
in step.  Every operation takes what it needs from the buffer and stops if it finds nothing there, holds
no more tokens than the buffer has room for, and subtracts no weight from a smaller one.

`Transcript.Machine` does the same on a state that has no room for what must not happen.

Main definitions:

* `Transcript.Phase` — where a compilation stands;
* `Transcript.Halt` — why it stops: a text is refused, or an operation fails;
* `Transcript.Workspace` — the parts of the workspace;
* `Transcript.Workspace.Task` — operations on the workspace, which may stop;
* `Transcript.Workspace.feed`, `Transcript.Workspace.close` — what a token does, and the end of the
  tokens;
* `Transcript.Workspace.parse` — compiling a text in a workspace that an earlier text left;
* `Transcript.Workspace.session` — compiling many texts in one workspace.
-/

import Transcript.Compile.Compiler

set_option relaxedAutoImplicit false
set_option autoImplicit false

namespace Transcript

/-! ### Weights that may not go below zero -/

namespace CueWindow

/-- Drop the oldest entries as long as the others weigh at least `keep`; there is no result if an entry
is heavier than what the window is said to weigh. -/
def trim? (keep : Nat) : List CueEntry → (weight : Nat) → Option CueWindow
  | [], weight => some ⟨[], weight⟩
  | entry :: rest, weight =>
      if weight < entry.weight then none
      else if weight - entry.weight < keep then some ⟨entry :: rest, weight⟩
      else trim? keep rest (weight - entry.weight)

/-- Add a fragment and drop the oldest ones, if their weights can be subtracted. -/
def push? (range : CueRange) (window : CueWindow) (entry : CueEntry) : Option CueWindow :=
  trim? range.max (window.entries ++ [entry]) (window.weight + entry.weight)

end CueWindow

/-! ### The workspace -/

inductive Phase
  /-- before the first token -/
  | idle
  /-- behind white space -/
  | gap
  /-- behind text -/
  | text
  /-- behind a tag without white space on its left -/
  | tag
  /-- behind a tag with white space on its left -/
  | gapTag
  /-- behind the token of the end -/
  | finish
  /-- the program is complete -/
  | exhausted
  /-- the text was refused -/
  | failed
  deriving Repr, DecidableEq

/-- No more tokens are read. -/
def Phase.ended : Phase → Bool
  | exhausted => true
  | failed => true
  | _ => false

inductive Halt
  /-- the text is refused -/
  | refused (e : CompileError)
  /-- a token is taken from the buffer when there is none -/
  | nothingHeld
  /-- the tokens have run out, and the program is not complete -/
  | endedEarly
  /-- a token is added to a full buffer -/
  | bufferFull
  /-- a weight is subtracted from a smaller one -/
  | weightUnderflow
  /-- a token of no kind that a transition is made for -/
  | unexpected
  deriving Repr, DecidableEq

/-- What a compilation works on. -/
structure Workspace where
  phase : Phase
  /-- the tokens that are not fragments yet, the oldest first -/
  held : List Token
  fragments : Array Fragment
  /-- the index of each tag among the fragments, with the name that it binds -/
  tags : List (Nat × Option Text)
  /-- the groups of the names that were bound -/
  groups : List Text
  window : CueWindow
  inputs : Array InputRecord
  warnings : List Warning
  deriving Repr, DecidableEq

namespace Workspace

def empty : Workspace := ⟨.idle, [], #[], [], [], .empty, #[], []⟩

/-- Forget everything, and begin a program. -/
def reset (w : Workspace) : Workspace :=
  { w with
    phase := .idle
    held := []
    fragments := #[⟨0, .start⟩]
    tags := []
    groups := []
    window := .empty
    inputs := #[]
    warnings := [] }

/-- The workspace of a new compiler. -/
def fresh : Workspace := empty.reset

/-- An operation on the workspace, which may stop. -/
abbrev Task (α : Type) := EStateM Halt Workspace α

/-! ### The buffer -/

/-- The number of tokens that the buffer has room for. -/
def capacity : Nat := 3

def hold (t : Token) : Task Unit := fun w =>
  if w.held.length < capacity then .ok () { w with held := w.held ++ [t] }
  else .error .bufferFull w

def takeOldest : Task Token := fun w =>
  match w.held with
  | [] => .error .nothingHeld w
  | t :: held => .ok t { w with held }

def takeNewest : Task Token := fun w =>
  match w.held.getLast? with
  | none => .error .nothingHeld w
  | some t => .ok t { w with held := w.held.dropLast }

/-! ### Fragments -/

/-- Add a fragment.  The window forgets what is in front of a tag or an anchor. -/
def emit (config : Config) (f : Fragment) : Task Unit := fun w =>
  if f.resetsCue then .ok () { w with window := .empty, fragments := w.fragments.push f }
  else
    match w.window.push? config.cueRange f.entry with
    | none => .error .weightUnderflow w
    | some window => .ok () { w with window, fragments := w.fragments.push f }

def emitText (config : Config) : Task Unit := do
  let t ← takeOldest
  emit config ⟨t.offset, .literal t.text⟩

/-- Turn the oldest token into a matcher of white space, of one character or of a whole run. -/
def emitSpaces (config : Config) (justOne : Bool) : Task Unit := do
  let t ← takeOldest
  emit config ⟨t.offset, if justOne then .space else .spaces⟩

def openGroup (name : Text) (offset : Nat) : Task Unit := fun w =>
  if w.groups.contains (groupName name) then .error (.refused (.duplicateName name offset)) w
  else .ok () { w with groups := w.groups ++ [groupName name] }

/-- Record that the next fragment is a tag. -/
def recordTag (binding : Option Text) : Task Unit := fun w =>
  .ok () { w with tags := w.tags ++ [(w.fragments.size, binding)] }

def emitTag (config : Config) (context : TagContext) (endOfLine : Bool) : Task Unit := do
  let t ← takeOldest
  match config.tags.nameOf? t.text with
  | none => throw (.refused (.internal .namelessTag))
  | some name =>
      if name = config.ellipsis then
        recordTag none
        emit config ⟨t.offset, .tag none context endOfLine⟩
      else
        openGroup name t.offset
        recordTag (some name)
        emit config ⟨t.offset, .tag (some name) context false⟩

def emitFinish (config : Config) (anchor : EndAnchor) : Task Unit := do
  let t ← takeOldest
  emit config ⟨t.offset, .finish anchor⟩

def recordInput (input : InputRecord) : Task Unit := fun w =>
  .ok () { w with inputs := w.inputs.push input }

/-- Record the oldest token, an input, unless too little text precedes it, and hold its echo back as a
literal. -/
def schedule (config : Config) : Task Unit := do
  let t ← takeOldest
  let w ← get
  match w.window.cue? config.cueRange with
  | none => throw (.refused (.insufficientCue t.offset w.window.weight config.cueRange.min))
  | some cue =>
      recordInput ⟨t.offset, cue.pattern, t.text⟩
      hold ⟨t.offset, .literal, t.text⟩

/-- Refuse the second one of two tags; the first one is the oldest token. -/
def refusePair : Task Phase := fun w =>
  match w.held with
  | [] => .error .nothingHeld w
  | t :: _ => .error (.refused (.ambiguousTags t.offset)) { w with held := [] }

/-! ### Transitions -/

/-- Choose by the kind of a token: white space, text, a tag or the end. -/
def dispatch (kind : TokenKind) (onSpace onText onTag onFinish : Task Phase) : Task Phase :=
  if kind.isSpace then onSpace
  else if kind.isText then onText
  else if kind = .tag then onTag
  else if kind = .finish then onFinish
  else throw .unexpected

/-- Do something, and say where the compilation stands then. -/
def andThen (task : Task Unit) (next : Phase) : Task Phase := do
  task
  pure next

/-- What is done for a token of a kind when spacing is normalized, and where the compilation stands
then.  The token is the newest one of the buffer. -/
def normalize (config : Config) (kind : TokenKind) : Phase → Task Phase
  | .idle => dispatch kind (pure .gap) (pure .text) (pure .tag) (pure .finish)
  | .gap =>
      dispatch kind
        (do
          let _ ← takeNewest
          pure .gap)
        (andThen (emitSpaces config false) .text)
        (pure .gapTag)
        (do
          -- the anchor takes the place of the white space
          let space ← takeOldest
          let finish ← takeOldest
          hold { finish with offset := space.offset }
          pure .finish)
  | .text =>
      dispatch kind
        (andThen (emitText config) .gap)
        (andThen (emitText config) .text)
        (andThen (emitText config) .tag)
        (andThen (emitText config) .finish)
  | .tag =>
      dispatch kind
        (andThen (emitTag config .rightSpace (kind == .newlines)) .gap)
        (andThen (emitTag config .bare false) .text)
        refusePair
        (andThen (emitTag config .rightSpace true) .finish)
  | .gapTag =>
      dispatch kind
        (do
          emitSpaces config true
          andThen (emitTag config .bothSpace (kind == .newlines)) .gap)
        (do
          emitSpaces config false
          andThen (emitTag config .leftSpace false) .text)
        (do
          let _ ← takeOldest
          refusePair)
        (do
          emitSpaces config true
          andThen (emitTag config .bothSpace true) .finish)
  | .finish => throw (.refused (.internal .afterEnd))
  | .exhausted => throw (.refused (.internal .afterEnd))
  | .failed => throw (.refused (.internal .afterEnd))

/-- What is done for a token of a kind when spacing is matched as written, and where the compilation
stands then.  White space is text.  The token is the newest one of the buffer. -/
def verbatim (config : Config) (kind : TokenKind) : Phase → Task Phase
  | .idle => dispatch kind (pure .text) (pure .text) (pure .tag) (pure .finish)
  | .text =>
      dispatch kind
        (andThen (emitText config) .text)
        (andThen (emitText config) .text)
        (andThen (emitText config) .tag)
        (andThen (emitText config) .finish)
  | .tag =>
      dispatch kind
        (andThen (emitTag config .bare (kind == .newlines)) .text)
        (andThen (emitTag config .bare (kind == .newlines)) .text)
        refusePair
        (andThen (emitTag config .lineEnd true) .finish)
  | .gap => throw (.refused (.internal .spaceHeld))
  | .gapTag => throw (.refused (.internal .spaceHeld))
  | .finish => throw (.refused (.internal .afterEnd))
  | .exhausted => throw (.refused (.internal .afterEnd))
  | .failed => throw (.refused (.internal .afterEnd))

def transition (policy : Policy) (config : Config) (kind : TokenKind) (phase : Phase) : Task Phase :=
  match policy with
  | .normalize => normalize config kind phase
  | .literal => verbatim config kind phase

def goTo (phase : Phase) : Task Unit := modify fun w => { w with phase }

/-- Hold a token and take the transition for it. -/
def advance (policy : Policy) (config : Config) (t : Token) : Task Unit := do
  hold t
  let w ← get
  let next ← transition policy config t.kind w.phase
  goTo next

/-- What a token does. -/
def feed (policy : Policy) (config : Config) (t : Token) : Task Unit := do
  advance policy config t
  if t.kind = .input then schedule config

/-- What may follow the end under a policy. -/
def anchor : Policy → EndAnchor
  | .normalize => .blank
  | .literal => .newlines

/-- What the end of the tokens does. -/
def close (policy : Policy) (config : Config) : Task Unit := do
  let w ← get
  if w.phase = .finish then
    emitFinish config (anchor policy)
    goTo .exhausted
  else throw (.refused (.internal .noEnd))

/-! ### Texts -/

def read (policy : Policy) (config : Config) : Lexeme → Task Unit
  | .token t => feed policy config t
  | .warning warning => modify fun w => { w with warnings := w.warnings ++ [warning] }

/-- What lexemes do, as long as the compilation has not ended. -/
def readAll (policy : Policy) (config : Config) : List Lexeme → Task Unit
  | [] => pure ()
  | lexeme :: rest => do
      let w ← get
      if w.phase.ended then pure ()
      else
        read policy config lexeme
        readAll policy config rest

/-- What the lexemes of a text do, and the end of the tokens behind them. -/
def complete (policy : Policy) (config : Config) (lexemes : List Lexeme) : Task Unit := do
  readAll policy config lexemes
  let w ← get
  if w.phase.ended then pure ()
  else
    close policy config
    let w ← get
    if w.phase.ended then pure () else throw .endedEarly

/-- Take the program, with the indexes of its tags, out of the workspace. -/
def takeResult : Task (Program × List (Nat × Option Text)) := fun w =>
  .ok (⟨w.fragments.toList, w.inputs.toList, w.warnings⟩, w.tags)
    { w with fragments := #[], tags := [], inputs := #[], warnings := [] }

/-- Compile a text.  What an earlier text left in the workspace is forgotten first. -/
def parse (policy : Policy) (config : Config) (switches : Switches) (text : Text) :
    Task (Program × List (Nat × Option Text)) := fun w =>
  match (complete policy config (Lexeme.ofText config switches (policy.scope text))).run w.reset with
  | .ok () w => takeResult.run w
  | .error halt w => .error halt { w with phase := .failed }

/-! ### Sessions -/

abbrev Outcome := Except Halt (Program × List (Nat × Option Text))

/-- Use a workspace once; only a text has an outcome. -/
def step (policy : Policy) (config : Config) (w : Workspace) : Compiler.Step → Option Outcome × Workspace
  | .reset => (none, w.reset)
  | .parse switches text =>
      match (parse policy config switches text).run w with
      | .ok result w => (some (.ok result), w)
      | .error halt w => (some (.error halt), w)

def session (policy : Policy) (config : Config) : Workspace → List Compiler.Step → List (Option Outcome)
  | _, [] => []
  | w, s :: steps =>
      let (outcome, w) := w.step policy config s
      outcome :: session policy config w steps

end Workspace

end Transcript
