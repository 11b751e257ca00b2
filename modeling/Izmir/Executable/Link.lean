import Izmir.Assembly.Listing
import Izmir.Compile.Check
import Izmir.Executable

/-!
# Linking

Labelled code is linked routine by routine, the procedures in order and main last. In each
routine labels are examined first, and then the instructions one by one; the first thing
that is wrong is reported.

The sizes of frames are counted with 64 bits. A slot or register that is followed by no
number of 64 bits cannot be counted, and a program that names one is not refused: linking
breaks off there.
-/

namespace Izmir

inductive LinkError where
  | duplicateRoutine (name : String)
  | duplicateLabel (routine label : String)
  | undefinedLabel (routine label : String)
  | unknownCallee (routine callee : String)
  | arityMismatch (routine callee : String) (expected found : Nat)
  | operandCount (routine : String) (instruction : SymbolicInstr)
  | nonWritableDestination (routine : String) (instruction : SymbolicInstr)
  | registerRange (routine : String) (instruction : SymbolicInstr)
  /-- Not an error that is reported: the count of slots or registers overflows. -/
  | overflow
  deriving DecidableEq, Repr

namespace LinkError

def quoted (i : SymbolicInstr) : String :=
  "`" ++ String.ofList (Listing.instr i) ++ "`"

def message : LinkError → String
  | duplicateRoutine n => "routine `" ++ n ++ "` is defined more than once"
  | duplicateLabel r l => r ++ ": label `$" ++ l ++ "` is defined more than once"
  | undefinedLabel r l => r ++ ": label `$" ++ l ++ "` is not defined"
  | unknownCallee r f => r ++ ": call to unknown procedure `" ++ f ++ "`"
  | arityMismatch r f expected found =>
    r ++ ": `" ++ f ++ "` expects " ++ String.ofList (Text.Decimal.ofNat expected) ++
      " argument(s), called with " ++ String.ofList (Text.Decimal.ofNat found)
  | operandCount r i => r ++ ": " ++ quoted i ++ " does not name the expected number of operands"
  | nonWritableDestination r i => r ++ ": " ++ quoted i ++ " stores into a literal"
  | registerRange r i => r ++ ": " ++ quoted i ++ " names registers past the end of the frame"
  | overflow => "attempt to add with overflow"

end LinkError

namespace Link

/-- The labels of some code, each with the position of the instruction after it, when the
first instruction has a given position. -/
def targets : Nat → List Line → List (String × Nat)
  | _, [] => []
  | n, .label l :: code => (l, n) :: targets n code
  | n, .instr _ :: code => targets (n + 1) code

/-- A slot or register by its index, which is to have a number after it. -/
def index (n : Nat) : Except LinkError Nat :=
  if n + 1 < UInt64.size then .ok n else .error .overflow

def operand : Operand → Except LinkError Operand
  | .literal v => .ok (.literal v)
  | .slot n => do .ok (.slot (← index n))
  | .register n => do .ok (.register (← index n))

/-- What is known while a routine is linked. -/
structure Context where
  routine : String
  labels : List (String × Nat)
  /-- Name, index and arity of each procedure. -/
  procedures : List (String × Nat × Nat)

namespace Context

def target (c : Context) (label : String) : Except LinkError Nat :=
  match c.labels.lookup label with
  | some n => .ok n
  | none => .error (.undefinedLabel c.routine label)

/-- The index of a procedure that takes the given number of arguments. -/
def callee (c : Context) (name : String) (arguments : Nat) : Except LinkError Nat :=
  match c.procedures.lookup name with
  | some (i, arity) =>
    if arity = arguments then .ok i
    else .error (.arityMismatch c.routine name arity arguments)
  | none => .error (.unknownCallee c.routine name)

/-- The place that a move writes to. -/
def destination (c : Context) (i : SymbolicInstr) : Operand → Except LinkError Place
  | .literal _ => .error (.nonWritableDestination c.routine i)
  | .slot n => do .ok (.slot (← index n))
  | .register n => do .ok (.register (← index n))

/-- Link one instruction. Registers are numbered with 64 bits, and the window of the
arguments of a call has to end within them. -/
def instr (c : Context) (i : SymbolicInstr) : Except LinkError LinkedInstr :=
  match i with
  | .pushConstant v => .ok (.pushConstant v)
  | .pushVariable n => do .ok (.pushVariable (← index n))
  | .popVariable n => do .ok (.popVariable (← index n))
  | .operate o => .ok (.operate o)
  | .input => .ok .input
  | .print => .ok .print
  | .drop => .ok .drop
  | .branch l => do .ok (.branch (← c.target l))
  | .branchIf k l => do .ok (.branchIf k (← c.target l))
  | .call f n => do .ok (.call (← c.callee f n) n)
  | .ret => .ok .ret
  | .move a b => do
    let source ← operand a
    .ok (.move source (← c.destination i b))
  | .operateRegisters o rs r =>
    if rs.length = o.arity then do
      let sources ← rs.mapM index
      .ok (.operateRegisters o sources (← index r))
    else .error (.operandCount c.routine i)
  | .inputRegister r => do .ok (.inputRegister (← index r))
  | .printRegister r => do .ok (.printRegister (← index r))
  | .branchIfRegisters k rs l =>
    if rs.length = k.arity then do
      let sources ← rs.mapM index
      .ok (.branchIfRegisters k sources (← c.target l))
    else .error (.operandCount c.routine i)
  | .callRegisters f first n r =>
    if first + n < UInt64.size then do
      let callee ← c.callee f n
      .ok (.callRegisters callee first n (← index r))
    else .error (.registerRange c.routine i)
  | .retRegister r => do .ok (.retRegister (← index r))

end Context

/-- Link one routine. -/
def routine (procedures : List (String × Nat × Nat)) (r : Assembly.Routine) :
    Except LinkError Executable.Routine :=
  match firstRepeat? (Assembly.labels r.code) with
  | some l => .error (.duplicateLabel r.name.text l)
  | none => do
    let linked ← (Assembly.instructions r.code).mapM
      (Context.mk r.name.text (targets 0 r.code) procedures).instr
    .ok (.ofCode r.name r.arity linked)

end Link

/-- The executable of labelled code. -/
def Assembly.link (a : Assembly) : Except LinkError Executable :=
  match firstRepeat? (a.procedures.map (·.name.text)) with
  | some n => .error (.duplicateRoutine n)
  | none => do
    let table := a.procedures.zipIdx.map fun (p, i) => (p.name.text, i, p.arity)
    let procedures ← a.procedures.mapM (Link.routine table)
    let main ← Link.routine table a.main
    .ok ⟨procedures.toArray, main⟩

end Izmir
