import Izmir.Command.Path
import Izmir.Compile.Config

/-!
# Command-line options

Words are taken from left to right. A value that was given, to `--output` or as the file,
is examined when the next known option or file comes, or at the end; an unknown option is
reported at once.
-/

namespace Izmir.Command

/-- Options that are on or off. -/
inductive Flag where
  | stack | register | noFolding | print | dryRun | routine | verbose
  deriving DecidableEq, Repr

structure Options where
  file : String
  flags : List Flag
  output : Option String
  deriving DecidableEq, Repr

namespace Options

def has (o : Options) (f : Flag) : Bool :=
  f ∈ o.flags

/-- Code for registers and with folding, unless something else is asked for. -/
def config (o : Options) : Config :=
  ⟨if o.has .stack then .stack else .register, !o.has .noFolding⟩

/-- The path that stands for the standard input. -/
def stdinPath : String :=
  "-"

/-- Whether the file is the standard input. Slashes and dots at the end of a path make no
difference. -/
def sourceFromStdin (o : Options) : Bool :=
  Path.components o.file == Path.components stdinPath

end Options

/-- Why a command line asks for no run. -/
inductive UsageError where
  | help
  | version
  | unknownArgument
  | unexpectedValue
  | invalidValue
  | conflict
  | missingFile
  deriving DecidableEq, Repr

namespace UsageError

def usage : String :=
  "Usage: izmirc [OPTIONS] <FILE>\n\n" ++
    "FILE is a program, or - for the standard input.\n\n" ++
    "  --stack                      emit code for the operand stack\n" ++
    "  --register                   emit code for registers (default)\n" ++
    "  --no-optimization-rewriting  always compute conditions as values\n" ++
    "  -p, --print                  print the listing\n" ++
    "  -o, --output <FILE>          write the listing to a file\n" ++
    "  --dry-run                    do not run the program\n" ++
    "  --routine                    FILE is a listing, to be run as it is\n" ++
    "  -v, --verbose                say more\n" ++
    "  -h, --help                   print this help\n" ++
    "  -V, --version                print the version\n"

def versionText : String :=
  "izmirc 0.1.0\n"

def message : UsageError → String
  | help => usage
  | version => versionText
  | unknownArgument => "error: unexpected argument\n\n" ++ usage
  | unexpectedValue => "error: unexpected value for an option that takes none\n\n" ++ usage
  | invalidValue => "error: a value is missing or empty\n\n" ++ usage
  | conflict => "error: an option is repeated, or excludes another one\n\n" ++ usage
  | missingFile => "error: FILE is missing\n\n" ++ usage

/-- To ask for help or for the version is no error. -/
def exitCode : UsageError → Nat
  | help | version => 0
  | _ => 2

end UsageError

/-- What the name of an option stands for. -/
inductive Switch where
  | flag (flag : Flag)
  | output
  | help
  | version
  deriving DecidableEq, Repr

namespace Switch

def ofLong? : String → Option Switch
  | "stack" => some (.flag .stack)
  | "register" => some (.flag .register)
  | "no-optimization-rewriting" => some (.flag .noFolding)
  | "print" => some (.flag .print)
  | "output" => some .output
  | "dry-run" => some (.flag .dryRun)
  | "routine" => some (.flag .routine)
  | "verbose" => some (.flag .verbose)
  | "help" => some .help
  | "version" => some .version
  | _ => none

def ofShort? : Char → Option Switch
  | 'p' => some (.flag .print)
  | 'o' => some .output
  | 'v' => some (.flag .verbose)
  | 'h' => some .help
  | 'V' => some .version
  | _ => none

end Switch

/-- A value that is still to be examined. -/
inductive Pending where
  /-- `--output`, before and after its value has come. -/
  | output (value : Option String)
  | file (value : String)
  deriving DecidableEq, Repr

/-- What the words so far have said. -/
structure Draft where
  flags : List Flag
  output : Option String
  file : Option String
  pending : Option Pending
  /-- Whether the file has come, examined or not. -/
  fileGiven : Bool
  /-- Whether only files can follow. -/
  filesOnly : Bool
  deriving DecidableEq, Repr

namespace Draft

def empty : Draft :=
  ⟨[], none, none, none, false, false⟩

def setOutput (d : Draft) (value : String) : Except UsageError Draft :=
  if d.output.isSome then .error .conflict
  else if value = "" then .error .invalidValue
  else .ok { d with output := some value }

/-- Examine the value that is pending. -/
def settle (d : Draft) : Except UsageError Draft :=
  let rest := { d with pending := none }
  match d.pending with
  | none => .ok rest
  | some (.output none) => .error .invalidValue
  | some (.output (some value)) => rest.setOutput value
  | some (.file value) =>
    if value = "" then .error .invalidValue else .ok { rest with file := some value }

/-- A switch without a value of its own. -/
def switch (d : Draft) (s : Switch) : Except UsageError Draft := do
  let d ← d.settle
  match s with
  | .flag f =>
    if f ∈ d.flags then .error .conflict else .ok { d with flags := d.flags ++ [f] }
  | .output => .ok { d with pending := some (.output none) }
  | .help => .error .help
  | .version => .error .version

/-- A switch with a value in the same word. -/
def switchWith (d : Draft) (s : Switch) (value : String) : Except UsageError Draft :=
  match s with
  | .output => do
    let d ← d.settle
    d.setOutput value
  | _ => .error .unexpectedValue

/-- A word that starts with two dashes, without these. -/
def long (d : Draft) (word : List Char) : Except UsageError Draft :=
  match Switch.ofLong? (String.ofList (word.takeWhile (· ≠ '='))) with
  | none => .error .unknownArgument
  | some s =>
    match word.dropWhile (· ≠ '=') with
    | [] => d.switch s
    | _ :: value => d.switchWith s (String.ofList value)

/-- A word that starts with one dash, without it. The value of `-o` may follow directly,
with or without an equals sign. -/
def short (d : Draft) : List Char → Except UsageError Draft
  | [] => .ok d
  | c :: cs =>
    match Switch.ofShort? c with
    | none => .error .unknownArgument
    | some .output =>
      match cs with
      | [] => d.switch .output
      | '=' :: value => d.switchWith .output (String.ofList value)
      | value => d.switchWith .output (String.ofList value)
    | some s => do
      let d ← d.switch s
      d.short cs

def positional (d : Draft) (word : String) : Except UsageError Draft :=
  if d.fileGiven then .error .unknownArgument
  else do
    let d ← d.settle
    .ok { d with pending := some (.file word), fileGiven := true }

def word (d : Draft) (w : String) : Except UsageError Draft :=
  if d.filesOnly then d.positional w
  else
    match w.toList with
    | ['-', '-'] => .ok { d with filesOnly := true }
    | '-' :: '-' :: cs => d.long cs
    | '-' :: c :: cs => d.short (c :: cs)
    | _ =>
      if d.pending = some (.output none) then .ok { d with pending := some (.output (some w)) }
      else d.positional w

/-- What is said when no word is left. -/
def finish (d : Draft) : Except UsageError Options := do
  let d ← d.settle
  if .stack ∈ d.flags ∧ .register ∈ d.flags then .error .conflict
  else
    match d.file with
    | none => .error .missingFile
    | some file => .ok ⟨file, d.flags, d.output⟩

end Draft

/-- The options of a command line. -/
def Options.parse (words : List String) : Except UsageError Options := do
  let d ← words.foldlM Draft.word .empty
  d.finish

end Izmir.Command
