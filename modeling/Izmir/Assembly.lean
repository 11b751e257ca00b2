import Izmir.Condition
import Izmir.Operation

/-!
# Labelled code

The machine has an operand stack, and in each frame numbered slots for variables and
numbered registers. Most instructions come in two forms, one that works on the stack and
one that names registers.

Instructions are taken over the way they name the target of a branch, a callee and the
destination of a move. In labelled code these are a label, a name and any operand; in an
executable they are positions and places.
-/

namespace Izmir

inductive Operand where
  | literal (value : Value)
  | slot (index : Nat)
  | register (index : Nat)
  deriving DecidableEq, Repr

inductive Instr (Target Callee Destination : Type) where
  | pushConstant (value : Value)
  | pushVariable (slot : Nat)
  | popVariable (slot : Nat)
  | operate (operation : Operation)
  | input
  | print
  | drop
  | branch (target : Target)
  | branchIf (condition : Condition) (target : Target)
  | call (callee : Callee) (arguments : Nat)
  | ret
  | move (source : Operand) (destination : Destination)
  | operateRegisters (operation : Operation) (sources : List Nat) (destination : Nat)
  | inputRegister (destination : Nat)
  | printRegister (source : Nat)
  | branchIfRegisters (condition : Condition) (sources : List Nat) (target : Target)
  /-- The arguments are in consecutive registers from the first one on. -/
  | callRegisters (callee : Callee) (first arguments destination : Nat)
  | retRegister (source : Nat)
  deriving DecidableEq, Repr

def Instr.isReturn {τ κ δ : Type} : Instr τ κ δ → Bool
  | .ret | .retRegister _ => true
  | _ => false

/-- An instruction of labelled code. -/
abbrev SymbolicInstr := Instr String String Operand

/-- A line of labelled code. -/
inductive Line where
  | label (name : String)
  | instr (instruction : SymbolicInstr)
  deriving DecidableEq, Repr

def Line.isReturn : Line → Bool
  | .label _ => false
  | .instr i => i.isReturn

inductive RoutineName where
  | main
  | procedure (name : String)
  deriving DecidableEq, Repr

/-- A name as calls and error messages show it. -/
def RoutineName.text : RoutineName → String
  | .main => "main"
  | .procedure name => name

namespace Assembly

structure Routine where
  name : RoutineName
  arity : Nat
  code : List Line
  deriving DecidableEq, Repr

/-- A main routine with some code. -/
def Routine.main (code : List Line) : Routine :=
  ⟨.main, 0, code⟩

def Routine.append (r : Routine) (lines : List Line) : Routine :=
  { r with code := r.code ++ lines }

/-- Whether the last line of some code is a return. -/
def endsInReturn (code : List Line) : Bool :=
  code.getLast?.any Line.isReturn

/-- The labels that some code defines, in order. -/
def labels (code : List Line) : List String :=
  code.filterMap fun
    | .label l => some l
    | .instr _ => none

/-- The instructions of some code, in order. -/
def instructions (code : List Line) : List SymbolicInstr :=
  code.filterMap fun
    | .label _ => none
    | .instr i => some i

end Assembly

/-- A program in labelled code. -/
structure Assembly where
  /-- Where the program was read from. -/
  source : String
  procedures : List Assembly.Routine
  main : Assembly.Routine
  deriving DecidableEq, Repr

/-- A routine of a program: main, or a procedure by its place. -/
inductive RoutineRef where
  | main
  | procedure (index : Nat)
  deriving DecidableEq, Repr

namespace Assembly

def empty (source : String) : Assembly :=
  ⟨source, [], .main []⟩

/-- Add a procedure without code. -/
def addProcedure (a : Assembly) (name : String) (arity : Nat) : Assembly :=
  { a with procedures := a.procedures ++ [⟨.procedure name, arity, []⟩] }

def routine? (a : Assembly) : RoutineRef → Option Assembly.Routine
  | .main => some a.main
  | .procedure i => a.procedures[i]?

/-- Append lines to a routine. -/
def append (a : Assembly) (r : RoutineRef) (lines : List Line) : Assembly :=
  match r with
  | .main => { a with main := a.main.append lines }
  | .procedure i => { a with procedures := a.procedures.modify i (·.append lines) }

end Assembly

end Izmir
