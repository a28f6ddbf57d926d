/-
**The program.**

Main definitions:

* `main` — read the files of a command, run it and print its outcome.
-/

import Transcript.Arguments

set_option relaxedAutoImplicit false
set_option autoImplicit false

namespace Transcript

/-- The rest of a stream. -/
partial def readAll (stream : IO.FS.Stream) (soFar : String) : IO String := do
  let line ← stream.getLine
  if line.isEmpty then return soFar else readAll stream (soFar ++ line)

def readFile (path : Text) : IO Text := do
  return (← IO.FS.readFile (String.ofList path)).toList

/-- The transcript of a command comes from standard input if no file is named. -/
def readExpected : Option Text → IO Text
  | some path => readFile path
  | none => do return (← readAll (← IO.getStdin) "").toList

def Outcome.print (outcome : Outcome) : IO UInt32 := do
  IO.print (String.ofList outcome.out)
  IO.eprint (String.ofList outcome.err)
  return outcome.exit.toUInt32

/-- Run a command, reading each of its files when it is needed: the transcript after the bounds of a
cue have been checked, and the output after the transcript has been compiled. -/
def Invocation.perform (i : Invocation) : IO UInt32 := do
  match i.command.config with
  | .error e => (Outcome.error e.message).print
  | .ok _ =>
      let expected ← readExpected i.expected
      let compiled := i.command.run expected none
      match i.against with
      | none => compiled.print
      | some path =>
          if compiled.exit ≠ 0 then compiled.print
          else (i.command.run expected (some (← readFile path))).print

end Transcript

/-- Compile an expected transcript, and match it against an output if one is given. -/
def main (args : List String) : IO UInt32 :=
  match Transcript.Invocation.ofArgs? (args.map String.toList) with
  | some invocation => invocation.perform
  | none => do
      IO.eprintln "Error: invalid arguments"
      return 2
