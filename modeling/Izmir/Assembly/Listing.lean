import Izmir.Assembly

/-!
# Listings

The text of labelled code. A listing opens with a comment that names the source; each
routine has a header line, its labels at the margin and its instructions indented.
-/

namespace Izmir

open Text

namespace Listing

def slot (n : Nat) : List Char :=
  '@' :: Decimal.ofNat n

def register (n : Nat) : List Char :=
  '%' :: 'r' :: Decimal.ofNat n

def label (l : String) : List Char :=
  '$' :: l.toList

def operand : Operand → List Char
  | .literal v => Value.text v
  | .slot n => slot n
  | .register n => register n

def separator : List Char :=
  [',', ' ']

/-- A mnemonic and its parameters. -/
def line (mnemonic : String) (parameters : List (List Char)) : List Char :=
  match parameters with
  | [] => mnemonic.toList
  | _ => mnemonic.toList ++ ' ' :: separator.intercalate parameters

/-- A row of registers, as one parameter. -/
def registers (rs : List Nat) : List Char :=
  separator.intercalate (rs.map register)

def instr : SymbolicInstr → List Char
  | .pushConstant v => line "pushconstant" [Value.text v]
  | .pushVariable n => line "pushvariable" [slot n]
  | .popVariable n => line "popvariable" [slot n]
  | .operate o => line o.name []
  | .input => line "input" []
  | .print => line "print" []
  | .drop => line "drop" []
  | .branch l => line "b" [label l]
  | .branchIf c l => line ("b" ++ c.name) [label l]
  | .call f n => line "call" [f.toList, Decimal.ofNat n]
  | .ret => line "return" []
  | .move a b => line "mov" [operand a, operand b]
  | .operateRegisters o rs r => line o.name [registers rs, register r]
  | .inputRegister r => line "input" [register r]
  | .printRegister r => line "print" [register r]
  | .branchIfRegisters c rs l => line ("b" ++ c.name) [registers rs, label l]
  | .callRegisters f first n r =>
    line "call" [f.toList, register first, Decimal.ofNat n, register r]
  | .retRegister r => line "return" [register r]

end Listing

/-- The text of a line, without indentation. -/
def Line.text : Line → List Char
  | .label l => Listing.label l ++ [':']
  | .instr i => Listing.instr i

namespace Listing

/-- A line as it stands in a listing. -/
def indented : Line → List Char
  | .label l => (Line.label l).text ++ ['\n']
  | .instr i => "    ".toList ++ (Line.instr i).text ++ ['\n']

def code (lines : List Line) : List Char :=
  lines.flatMap indented

/-- The header line of a routine. The arity of a main routine is not shown. -/
def header (arity : Nat) : RoutineName → List Char
  | .main => ".main\n".toList
  | .procedure name =>
    ".procedure ".toList ++ name.toList ++ ' ' :: Decimal.ofNat arity ++ ['\n']

def routine (r : Assembly.Routine) : List Char :=
  header r.arity r.name ++ code r.code

def title (source : String) : List Char :=
  "# compiled from ".toList ++ source.toList ++ ['\n']

end Listing

namespace Assembly

def listingChars (a : Assembly) : List Char :=
  Listing.title a.source ++ a.procedures.flatMap Listing.routine ++ Listing.routine a.main

def listing (a : Assembly) : String :=
  String.ofList a.listingChars

/-- The part of a listing that shows one routine. -/
def routineListing? (a : Assembly) (r : RoutineRef) : Option String :=
  (a.routine? r).map fun r => String.ofList (Listing.routine r)

/-- Lines of code one below the other, without header and indentation. -/
def block (code : List Line) : String :=
  String.ofList (List.intercalate ['\n'] (code.map Line.text))

end Assembly

end Izmir
