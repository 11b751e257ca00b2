import Izmir.Assembly.Reader
import Izmir.Command.Options
import Izmir.Command.Volume
import Izmir.Compile
import Izmir.Executable.Link
import Izmir.Machine
import Izmir.Program.Parser

/-!
# The command

A program is loaded and compiled, or read from a listing. Its listing is printed and
written to a file if that is asked for, and then the program is linked and run. Each stage
that fails ends the command with one error and leaves the effects of the stages before it.
On a program whose frames are too large to be counted or allocated a command crashes instead,
and no error is reported.
-/

namespace Izmir.Command

/-- Why a command failed. -/
inductive Failure where
  | load (path : String) (error : FileError)
  | listing (error : Listing.Error)
  | parse (source : String)
  | compile (source : String) (error : CompileError)
  | save (path : String) (error : FileError)
  | link (error : LinkError)
  | run (error : RuntimeError)
  /-- The machine is stuck. No program that was linked comes to this. -/
  | stuck
  /-- The machine crashed. -/
  | crash
  deriving DecidableEq, Repr

def Failure.message : Failure → String
  | load path e => "unable to load `" ++ path ++ "`: " ++ e.message
  | listing e => e.message
  | parse source => "1 syntax error(s) in `" ++ source ++ "`"
  | compile source e => "unable to compile `" ++ source ++ "`: " ++ e.message
  | save path e => "unable to write `" ++ path ++ "`: " ++ e.message
  | link .overflow => LinkError.overflow.message
  | link e => "unable to prepare the program for execution: " ++ e.message
  | run (.input .unreadable) => "unable to read input: stream did not contain valid UTF-8"
  | run e => e.message
  | stuck => "the program left its frame"
  | crash => Machine.crashMessage

/-- Whether the command does not end by itself but is broken off. -/
def Failure.isCrash : Failure → Bool
  | link .overflow | stuck | crash => true
  | _ => false

def Failure.exitCode (e : Failure) : Nat :=
  if e.isCrash then 101 else 1

/-- What a command leaves behind. -/
structure Report where
  failure : Option Failure
  stdout : String
  warnings : List String
  volume : Volume

def Report.exitCode (r : Report) : Nat :=
  match r.failure with
  | none => 0
  | some e => e.exitCode

/-- A text and the name under which it is known. -/
structure Source where
  name : String
  content : String
  deriving DecidableEq, Repr

def stdinName : String :=
  "<stdin>"

/-- The text of some bytes. -/
def decode (bytes : List UInt8) : Except FileError String :=
  match Text.ofBytes? bytes with
  | some text => .ok text
  | none => .error .notText

/-- The content of a text file. -/
def Volume.readText (v : Volume) (path : String) : Except FileError String := do
  decode (← v.read path)

def load (o : Options) (v : Volume) (stdin : List UInt8) : Except Failure Source :=
  if o.file = Options.stdinPath then
    match decode stdin with
    | .ok content => .ok ⟨stdinName, content⟩
    | .error e => .error (.load o.file e)
  else
    match v.readText o.file with
    | .ok content => .ok ⟨o.file, content⟩
    | .error e => .error (.load o.file e)

/-- The labelled code of a source. -/
def assemble (o : Options) (s : Source) : Except Failure Assembly :=
  if o.has .routine then
    match Assembly.read s.name s.content with
    | .ok a => .ok a
    | .error e => .error (.listing e)
  else
    match Program.parse? s.name s.content with
    | none => .error (.parse s.name)
    | some p =>
      match p.compile o.config with
      | .ok a => .ok a
      | .error e => .error (.compile s.name e)

/-- Write the listing where it is asked for. A failure comes with the volume it leaves. -/
def save (o : Options) (v : Volume) (a : Assembly) : Except (Failure × Volume) Volume :=
  match o.output with
  | none => .ok v
  | some path =>
    match v.write path (Text.bytes a.listing.toList) with
    | .ok v => .ok v
    | .error e => .error (.save path e.error, e.volume)

def link (a : Assembly) : Except Failure Executable :=
  match a.link with
  | .ok x => .ok x
  | .error e => .error (.link e)

def stdinWarning : String :=
  "program was read from the standard input, `input` has nothing left to read"

/-- The failure that the end of a run amounts to. -/
def ofEnding : Machine.Ending → Option Failure
  | .halted => none
  | .failed e => some (.run e)
  | .stuck => some .stuck
  | .crashed => some .crash

/-- Run an executable. A program that was itself read from the standard input has nothing
to read there. -/
def run (fuel : Nat) (o : Options) (x : Executable) (stdin : List UInt8) : Option Machine.Run :=
  Machine.run x (.ofInput (if o.sourceFromStdin then [] else .ofBytes stdin)) .endless fuel

/-- Execute a command; none if its program still runs after the given number of steps. -/
def execute (fuel : Nat) (o : Options) (v : Volume) (stdin : List UInt8) : Option Report :=
  match load o v stdin with
  | .error e => some ⟨some e, "", [], v⟩
  | .ok source =>
    match assemble o source with
    | .error e => some ⟨some e, "", [], v⟩
    | .ok a =>
      let shown := if o.has .print then a.listing else ""
      match save o v a with
      | .error (e, v) => some ⟨some e, shown, [], v⟩
      | .ok v =>
        match link a with
        | .error e => some ⟨some e, shown, [], v⟩
        | .ok x =>
          if o.has .dryRun then some ⟨none, shown, [], v⟩
          else
            (run fuel o x stdin).map fun r =>
              ⟨ofEnding r.ending, shown ++ Machine.text r.printed,
                if o.sourceFromStdin then [stdinWarning] else [], v⟩

end Izmir.Command
