import Izmir.Primitive
import Izmir.Value

/-!
# Conditions

What a conditional branch tests: a comparison of two values, or one value against zero.
-/

namespace Izmir

inductive Condition where
  | equal | different | less | lessOrEqual | greater | greaterOrEqual
  | zero | nonzero
  deriving DecidableEq, Repr

namespace Condition

def all : List Condition :=
  [equal, different, less, lessOrEqual, greater, greaterOrEqual, zero, nonzero]

/-- The mnemonic of a condition, which follows the `b` of a branch. -/
def name : Condition → String
  | equal => "equal"
  | different => "different"
  | less => "less"
  | lessOrEqual => "lessorequal"
  | greater => "greater"
  | greaterOrEqual => "greaterorequal"
  | zero => "z"
  | nonzero => "nz"

def ofName? (s : String) : Option Condition :=
  all.find? fun c => c.name == s

def arity : Condition → Nat
  | zero | nonzero => 1
  | _ => 2

/-- The condition that holds exactly when a comparison does. -/
def ofPrimitive? : Primitive → Option Condition
  | .equal => some equal
  | .different => some different
  | .less => some less
  | .lessOrEqual => some lessOrEqual
  | .greater => some greater
  | .greaterOrEqual => some greaterOrEqual
  | .logicalNot => some zero
  | .isNonzero => some nonzero
  | _ => none

def ofComparison (p : Primitive) : Except ComparisonError Condition :=
  match ofPrimitive? p with
  | some c => .ok c
  | none => .error (.noCondition p)

/-- Whether a condition holds of its operands; there is no answer for a wrong number of
them. -/
def holds? : Condition → List Value → Option Bool
  | zero, [a] => some (a == 0)
  | nonzero, [a] => some (a != 0)
  | equal, [a, b] => some (a == b)
  | different, [a, b] => some (a != b)
  | less, [a, b] => some (a < b)
  | lessOrEqual, [a, b] => some (a ≤ b)
  | greater, [a, b] => some (b < a)
  | greaterOrEqual, [a, b] => some (b ≤ a)
  | _, _ => none

end Condition

end Izmir
