import Izmir.Assembly
import Izmir.Text.Blank
import Izmir.Text.Lines
import Izmir.Text.Name

/-!
# Reading listings

A listing is read line by line. What follows a `#` is a comment, white space at the ends of
a line and empty lines do not matter. The two forms of an instruction share a mnemonic and
are told apart by the number and the kind of the parameters. The first line that cannot be
read is reported with the part of it that is to blame.
-/

namespace Izmir

open Text

namespace Listing

inductive Fault where
  | invalidInstruction
  | invalidParameter
  | invalidParameterKind
  | tooFewParameters
  | tooManyParameters
  | labelDefinedTwice
  | instructionOutsideRoutine
  | invalidRoutineHeader
  | mainDefinedTwice
  | missingMain
  deriving DecidableEq, Repr

def Fault.message : Fault → String
  | invalidInstruction => "invalid instruction"
  | invalidParameter => "invalid parameter"
  | invalidParameterKind => "invalid parameter kind"
  | tooFewParameters => "too few parameters"
  | tooManyParameters => "too many parameters"
  | labelDefinedTwice => "label defined twice"
  | instructionOutsideRoutine => "instruction outside a routine"
  | invalidRoutineHeader => "invalid routine header"
  | mainDefinedTwice => "main routine defined twice"
  | missingMain => "missing main routine"

/-- A fault and the part of the line to blame for it. -/
structure Blame where
  token : List Char
  fault : Fault
  deriving DecidableEq, Repr

/-- Why a listing was refused. -/
structure Error where
  file : String
  /-- Lines count from one. -/
  line : Nat
  token : String
  fault : Fault
  deriving DecidableEq, Repr

def Error.message (e : Error) : String :=
  e.file ++ ":" ++ String.ofList (Decimal.ofNat e.line) ++ " near \"" ++ e.token ++ "\": " ++
    e.fault.message

inductive Parameter where
  | integer (value : Value)
  | slot (index : Nat)
  | register (index : Nat)
  | label (name : String)
  | name (text : String)
  deriving DecidableEq, Repr

namespace Parameter

def ofText? : List Char → Option Parameter
  | '@' :: cs => (Decimal.index? cs).map slot
  | '%' :: 'r' :: cs => (Decimal.index? cs).map register
  | '$' :: cs => if isName cs then some (label (String.ofList cs)) else none
  | cs =>
    match Value.ofText? cs with
    | some v => some (integer v)
    | none => if isName cs then some (name (String.ofList cs)) else none

def register? : Parameter → Option Nat
  | register n => some n
  | _ => none

def operand? : Parameter → Option Operand
  | integer v => some (.literal v)
  | slot n => some (.slot n)
  | register n => some (.register n)
  | _ => none

/-- The registers, if all parameters are registers. -/
def registers? (ps : List Parameter) : Option (List Nat) :=
  ps.mapM register?

/-- A count of arguments cannot be negative. -/
def count? (v : Value) : Option Nat :=
  if 0 ≤ v then some v.toInt.toNat else none

end Parameter

/-- Mnemonics other than those of operations and conditional branches. -/
inductive Mnemonic where
  | branch | pushConstant | pushVariable | popVariable
  | input | print | drop | call | ret | move
  deriving DecidableEq, Repr

def Mnemonic.ofText? : String → Option Mnemonic
  | "b" => some branch
  | "pushconstant" => some pushConstant
  | "pushvariable" => some pushVariable
  | "popvariable" => some popVariable
  | "input" => some input
  | "print" => some print
  | "drop" => some drop
  | "call" => some call
  | "return" => some ret
  | "mov" => some move
  | _ => none

/-- The condition of a conditional branch. -/
def branchCondition? : List Char → Option Condition
  | 'b' :: cs => Condition.ofName? (String.ofList cs)
  | _ => none

/-- An instruction line cut into its mnemonic and its parameters. -/
structure Fields where
  mnemonic : List Char
  tokens : List (List Char)
  deriving DecidableEq, Repr

namespace Fields

def ofLine (line : List Char) : Fields :=
  let rest := trim (line.dropWhile fun c => !isBlank c)
  ⟨line.takeWhile fun c => !isBlank c,
    if rest = [] then [] else (pieces ',' rest).map trim⟩

/-- Blame the kind of the parameter at some position. -/
def kindError (f : Fields) (position : Nat) : Blame :=
  ⟨f.tokens[position]?.getD f.mnemonic, .invalidParameterKind⟩

/-- Blame the number of parameters, given the numbers that would do. -/
def countError (f : Fields) (expected : List Nat) : Blame :=
  ⟨f.mnemonic,
    if expected.all fun n => n < f.tokens.length then .tooManyParameters else .tooFewParameters⟩

/-- The parameters; the first one that is none is to blame. -/
def parameters (f : Fields) : Except Blame (List Parameter) :=
  f.tokens.mapM fun t =>
    match Parameter.ofText? t with
    | some p => .ok p
    | none => .error ⟨t, .invalidParameter⟩

/-- An operation on the stack, or on registers of which the last one is the
destination. -/
def operation (f : Fields) (o : Operation) (ps : List Parameter) : Except Blame SymbolicInstr :=
  match ps.getLast? with
  | none => .ok (.operate o)
  | some last =>
    match Parameter.registers? ps.dropLast, last with
    | none, _ => .error (f.kindError 0)
    | some rs, .register r => .ok (.operateRegisters o rs r)
    | some _, _ => .error (f.kindError (ps.length - 1))

/-- A conditional branch on the stack, or on registers; the label is the last parameter. -/
def conditionalBranch (f : Fields) (c : Condition) (ps : List Parameter) :
    Except Blame SymbolicInstr :=
  match ps.getLast? with
  | none => .error (f.countError [1])
  | some (.label l) =>
    match ps.dropLast with
    | [] => .ok (.branchIf c l)
    | operands =>
      match Parameter.registers? operands with
      | some rs => .ok (.branchIfRegisters c rs l)
      | none => .error (f.kindError 0)
  | some _ => .error (f.kindError (ps.length - 1))

/-- Blame the parameters of a mnemonic that takes one. -/
def unaryError (f : Fields) (ps : List Parameter) : Blame :=
  if ps.length = 1 then f.kindError 0 else f.countError [1]

def other (f : Fields) (m : Mnemonic) (ps : List Parameter) : Except Blame SymbolicInstr :=
  match m with
  | .branch =>
    match ps with
    | [.label l] => .ok (.branch l)
    | _ => .error (f.unaryError ps)
  | .pushConstant =>
    match ps with
    | [.integer v] => .ok (.pushConstant v)
    | _ => .error (f.unaryError ps)
  | .pushVariable =>
    match ps with
    | [.slot n] => .ok (.pushVariable n)
    | _ => .error (f.unaryError ps)
  | .popVariable =>
    match ps with
    | [.slot n] => .ok (.popVariable n)
    | _ => .error (f.unaryError ps)
  | .input =>
    match ps with
    | [] => .ok .input
    | [.register r] => .ok (.inputRegister r)
    | _ => .error (f.countError [0, 1])
  | .print =>
    match ps with
    | [] => .ok .print
    | [.register r] => .ok (.printRegister r)
    | _ => .error (f.countError [0, 1])
  | .drop =>
    match ps with
    | [] => .ok .drop
    | _ => .error (f.countError [0])
  | .ret =>
    match ps with
    | [] => .ok .ret
    | [.register r] => .ok (.retRegister r)
    | _ => .error (f.countError [0, 1])
  | .call =>
    match ps with
    | [.name g, .integer v] =>
      match Parameter.count? v with
      | some n => .ok (.call g n)
      | none => .error (f.kindError 1)
    | [.name g, .register first, .integer v, .register r] =>
      match Parameter.count? v with
      | some n => .ok (.callRegisters g first n r)
      | none => .error (f.kindError 2)
    | _ =>
      if ps.length = 2 ∨ ps.length = 4 then .error (f.kindError 0)
      else .error (f.countError [2, 4])
  | .move =>
    match ps with
    | [a, b] =>
      match a.operand?, b.operand? with
      | some a, some b => .ok (.move a b)
      | none, _ => .error (f.kindError 0)
      | some _, none => .error (f.kindError 1)
    | _ => .error (f.countError [2])

/-- The instruction of a line. Parameters are examined before the mnemonic. -/
def instr (f : Fields) : Except Blame SymbolicInstr := do
  let ps ← f.parameters
  let m := String.ofList f.mnemonic
  match Operation.ofName? m, branchCondition? f.mnemonic, Mnemonic.ofText? m with
  | some o, _, _ => f.operation o ps
  | none, some c, _ => f.conditionalBranch c ps
  | none, none, some m => f.other m ps
  | none, none, none => .error ⟨f.mnemonic, .invalidInstruction⟩

end Fields

/-- The header of a routine, without the dot. -/
inductive Header where
  | main
  | procedure (name : String) (arity : Nat)
  deriving DecidableEq, Repr

def Header.ofLine (line : List Char) : Except Blame Header :=
  match words line.tail with
  | [w] => if w = "main".toList then .ok .main else .error ⟨line, .invalidRoutineHeader⟩
  | [w, name, arity] =>
    if w = "procedure".toList ∧ isName name then
      match Decimal.index? arity with
      | some n => .ok (.procedure (String.ofList name) n)
      | none => .error ⟨arity, .invalidRoutineHeader⟩
    else .error ⟨line, .invalidRoutineHeader⟩
  | _ => .error ⟨line, .invalidRoutineHeader⟩

/-- The name in a line of the form `$name:`. -/
def labelName? : List Char → Option (List Char)
  | '$' :: cs => if cs.getLast? = some ':' then some cs.dropLast else none
  | _ => none

/-- What has been read so far: the procedures, main if its header was seen, and the
routine that takes the next line. -/
structure Draft where
  procedures : List Assembly.Routine
  main : Option Assembly.Routine
  current : Option RoutineRef

namespace Draft

def empty : Draft :=
  ⟨[], none, none⟩

/-- Start the routine of a header line. -/
def start (d : Draft) (line : List Char) : Header → Except Blame Draft
  | .main =>
    if d.main.isSome then .error ⟨line, .mainDefinedTwice⟩
    else .ok { d with main := some (.main []), current := some .main }
  | .procedure name arity =>
    .ok { d with
      procedures := d.procedures ++ [⟨.procedure name, arity, []⟩],
      current := some (.procedure d.procedures.length) }

/-- The code of the routine that is being read. -/
def currentCode? (d : Draft) : Option (List Line) :=
  d.current.bind fun
    | .main => d.main.map (·.code)
    | .procedure i => d.procedures[i]?.map (·.code)

/-- Append a line to the routine that is being read. -/
def append (d : Draft) (line : Line) : Draft :=
  match d.current with
  | none => d
  | some .main => { d with main := d.main.map (·.append [line]) }
  | some (.procedure i) =>
    { d with procedures := d.procedures.modify i (·.append [line]) }

/-- Read one line, which has neither comment nor outer white space and is not empty. -/
def readLine (d : Draft) (line : List Char) : Except Blame Draft :=
  if line.head? = some '.' then do
    let header ← Header.ofLine line
    d.start line header
  else
    match d.currentCode? with
    | none => .error ⟨line, .instructionOutsideRoutine⟩
    | some code =>
      match labelName? line with
      | some name =>
        if !isName name then .error ⟨line, .invalidParameter⟩
        else if Line.label (String.ofList name) ∈ code then .error ⟨line, .labelDefinedTwice⟩
        else .ok (d.append (.label (String.ofList name)))
      | none => do
        let i ← (Fields.ofLine line).instr
        .ok (d.append (.instr i))

end Draft

/-- The part of a line that counts. -/
def content (line : List Char) : List Char :=
  trim (line.takeWhile (· != '#'))

/-- Read lines from a given line number on. -/
def readLines (file : String) : Nat → Draft → List (List Char) → Except Error Draft
  | _, d, [] => .ok d
  | n, d, line :: rest =>
    match content line with
    | [] => readLines file (n + 1) d rest
    | c :: cs =>
      match d.readLine (c :: cs) with
      | .ok d => readLines file (n + 1) d rest
      | .error b => .error ⟨file, n, String.ofList b.token, b.fault⟩

end Listing

/-- The program of a listing. -/
def Assembly.read (file text : String) : Except Listing.Error Assembly := do
  let ls := lines '\n' text.toList
  let d ← Listing.readLines file 1 .empty ls
  match d.main with
  | some main => .ok ⟨file, d.procedures, main⟩
  | none => .error ⟨file, ls.length, "", .missingMain⟩

end Izmir
