import Izmir.Command

/-!
# The command line

The command on the real file system. Input is read line by line when the program asks for
it, and values are printed as they come.
-/

namespace Izmir.Command

def fileErrorOf : IO.Error → FileError
  | .noFileOrDirectory .. => .missing
  | .alreadyExists .. => .alreadyExists
  | e => .other e.toString

def loadFile (o : Options) : IO (Except Failure Source) := do
  let fromStdin := o.file = Options.stdinPath
  let bytes : IO ByteArray :=
    if fromStdin then do (← IO.getStdin).readBinToEnd else IO.FS.readBinFile o.file
  match ← bytes.toBaseIO with
  | .error e => return .error (.load o.file (fileErrorOf e))
  | .ok bytes =>
    match decode bytes.toList with
    | .ok text => return .ok ⟨if fromStdin then stdinName else o.file, text⟩
    | .error e => return .error (.load o.file e)

/-- The path without what follows its last slash. -/
def parentOf (path : String) : String :=
  String.ofList (path.toList.reverse.dropWhile (· ≠ '/')).reverse

def saveFile (o : Options) (a : Assembly) : IO (Except Failure Unit) := do
  match o.output with
  | none => return .ok ()
  | some path =>
    let action : IO Unit := do
      if parentOf path ≠ "" then IO.FS.createDirAll (parentOf path)
      IO.FS.writeFile path a.listing
    match ← action.toBaseIO with
    | .ok () => return .ok ()
    | .error e => return .error (.save path (fileErrorOf e))

/-- The next value of the standard input, or nothing at its end. -/
partial def nextInput : IO (Option (Except InputFault Value)) := do
  match ← (do (← IO.getStdin).getLine : IO String).toBaseIO with
  | .error _ => return some (.error .unreadable)
  | .ok "" => return none
  | .ok line =>
    match Input.ofLine? line.toList with
    | some v => return some v
    | none => nextInput

def printText (s : String) : IO Unit := do
  let out ← IO.getStdout
  out.putStr s
  out.flush

/-- Step until the program ends. Where the input of the state is used up, a further value
is fetched and the step is taken again. -/
partial def drive (fetch : IO (Option (Except InputFault Value))) (x : Executable)
    (s : Machine.State) : IO (Option Failure) := do
  match Machine.step x .endless s with
  | .running t =>
    if t.printed.isEmpty then drive fetch x t
    else
      match ← (printText (Machine.text t.printed)).toBaseIO with
      | .ok () => drive fetch x { t with printed := #[] }
      | .error _ => return some (.run .output)
  | .halted _ => return none
  | .failed .inputExhausted _ =>
    match ← fetch with
    | some v => drive fetch x { s with input := .ofInput [v] }
    | none => return some (.run .inputExhausted)
  | .failed e _ => return some (.run e)
  | .stuck _ => return some .stuck
  | .crashed _ => return some .crash

def perform (o : Options) : IO (Option Failure) := do
  match ← loadFile o with
  | .error e => return some e
  | .ok source =>
    match assemble o source with
    | .error e => return some e
    | .ok a =>
      if o.has .print then printText a.listing
      match ← saveFile o a with
      | .error e => return some e
      | .ok () =>
        match link a with
        | .error e => return some e
        | .ok x =>
          if o.has .dryRun then return none
          if o.sourceFromStdin then IO.eprintln ("warning: " ++ stdinWarning)
          if x.main.Fits then
            drive (if o.sourceFromStdin then pure none else nextInput) x (.start x (.ofInput []))
          else return some .crash

end Izmir.Command

open Izmir.Command in
def main (words : List String) : IO UInt32 := do
  match Options.parse words with
  | .error e =>
    if e.exitCode = 0 then IO.print e.message else IO.eprint e.message
    return e.exitCode.toUInt32
  | .ok o =>
    match ← perform o with
    | none => return 0
    | some e =>
      IO.eprintln (if e.isCrash then e.message else "error: " ++ e.message)
      return e.exitCode.toUInt32
