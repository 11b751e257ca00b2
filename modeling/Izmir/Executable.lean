import Izmir.Assembly

/-!
# Executables

A program with its labels and callees replaced by positions. Every routine knows how many
slots and registers its frames need, and by that whether they can be allocated.
-/

namespace Izmir

/-- A place that a move can write to. -/
inductive Place where
  | slot (index : Nat)
  | register (index : Nat)
  deriving DecidableEq, Repr

/-- An instruction of an executable. A branch names a position in the code of its routine,
a call names a procedure by its index. -/
abbrev LinkedInstr := Instr Nat Nat Place

namespace LinkedInstr

/-- The slots that an instruction uses lie below this number. -/
def slotBound : LinkedInstr → Nat
  | .pushVariable n | .popVariable n => n + 1
  | .move a b =>
    max
      (match a with | .slot n => n + 1 | _ => 0)
      (match b with | .slot n => n + 1 | _ => 0)
  | _ => 0

/-- The least number above all of a list. -/
def above (rs : List Nat) : Nat :=
  rs.foldl (fun m r => max m (r + 1)) 0

/-- The registers that an instruction uses lie below this number. The window of the
arguments of a call lies below it too, even if it is empty. -/
def registerBound : LinkedInstr → Nat
  | .move a b =>
    max
      (match a with | .register n => n + 1 | _ => 0)
      (match b with | .register n => n + 1 | _ => 0)
  | .operateRegisters _ rs r => max (above rs) (r + 1)
  | .inputRegister r | .printRegister r | .retRegister r => r + 1
  | .branchIfRegisters _ rs _ => above rs
  | .callRegisters _ first n r => max (first + n) (r + 1)
  | _ => 0

end LinkedInstr

namespace Executable

structure Routine where
  name : RoutineName
  arity : Nat
  slots : Nat
  registers : Nat
  code : Array LinkedInstr
  deriving DecidableEq, Repr

/-- The routine of some code, with frames as large as the code needs. -/
def Routine.ofCode (name : RoutineName) (arity : Nat) (code : List LinkedInstr) : Routine where
  name := name
  arity := arity
  slots := code.foldl (fun m i => max m (LinkedInstr.slotBound i)) arity
  registers := code.foldl (fun m i => max m (LinkedInstr.registerBound i)) 0
  code := code.toArray

/-- One more than the number of values that a vector can hold: with 8 bytes each they have to
take less than half of the address space. This is `2 ^ 60`. -/
def vectorLimit : Nat :=
  UInt64.size / 16

/-- Whether there can be a frame of a routine. Slots and registers are a vector each. -/
def Routine.Fits (r : Routine) : Prop :=
  r.slots < vectorLimit ∧ r.registers < vectorLimit

instance (r : Routine) : Decidable r.Fits :=
  inferInstanceAs (Decidable (_ ∧ _))

end Executable

structure Executable where
  procedures : Array Executable.Routine
  main : Executable.Routine
  deriving DecidableEq, Repr

def Executable.routine? (x : Executable) : RoutineRef → Option Executable.Routine
  | .main => some x.main
  | .procedure i => x.procedures[i]?

end Izmir
