import Izmir.Assembly

/-!
# Backends

The two kinds of code that a program can be compiled to. Intermediate values have numbered
locations: the register backend keeps location `n` in register `n`, and the stack backend
leaves the locations to the operand stack.
-/

namespace Izmir

inductive Backend where
  | stack
  | register
  deriving DecidableEq, Repr

namespace Backend

def all : List Backend :=
  [stack, register]

def name : Backend → String
  | stack => "stack"
  | register => "register"

def ofName? (s : String) : Option Backend :=
  all.find? fun b => b.name == s

def loadConstant (v : Value) (location : Nat) : Backend → SymbolicInstr
  | stack => .pushConstant v
  | register => .move (.literal v) (.register location)

def loadVariable (slot location : Nat) : Backend → SymbolicInstr
  | stack => .pushVariable slot
  | register => .move (.slot slot) (.register location)

def storeVariable (location slot : Nat) : Backend → SymbolicInstr
  | stack => .popVariable slot
  | register => .move (.register location) (.slot slot)

def operate (o : Operation) (operands : List Nat) (location : Nat) : Backend → SymbolicInstr
  | stack => .operate o
  | register => .operateRegisters o operands location

def input (location : Nat) : Backend → SymbolicInstr
  | stack => .input
  | register => .inputRegister location

def print (location : Nat) : Backend → SymbolicInstr
  | stack => .print
  | register => .printRegister location

def branchIf (c : Condition) (operands : List Nat) (label : String) : Backend → SymbolicInstr
  | stack => .branchIf c label
  | register => .branchIfRegisters c operands label

/-- A call with its arguments in consecutive locations from `first` on. A call without
arguments has no first one and names the location of its result. -/
def call (callee : String) (first arguments location : Nat) : Backend → SymbolicInstr
  | stack => .call callee arguments
  | register =>
    .callRegisters callee (if arguments = 0 then location else first) arguments location

def ret (location : Nat) : Backend → SymbolicInstr
  | stack => .ret
  | register => .retRegister location

/-- Forget a value. Only the operand stack has to be told. -/
def discard : Backend → List SymbolicInstr
  | stack => [.drop]
  | register => []

end Backend

structure Config where
  backend : Backend
  /-- Fold comparisons in conditions into the branch that tests them. -/
  folding : Bool
  deriving DecidableEq, Repr

def Config.default : Config :=
  ⟨.register, true⟩

end Izmir
