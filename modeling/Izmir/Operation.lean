import Izmir.Primitive
import Izmir.Value

/-!
# Operations

What the machine computes: one operation for each primitive that takes its operands from
the program. Division truncates toward zero and fails on zero; everything else is total
on operands of the right number.
-/

namespace Izmir

inductive Operation where
  | plus | minus | times | divided | remainder | unaryMinus
  | equal | different | less | lessOrEqual | greater | greaterOrEqual
  | not | isNonzero
  deriving DecidableEq, Repr

namespace Operation

def all : List Operation :=
  [plus, minus, times, divided, remainder, unaryMinus, equal, different, less, lessOrEqual,
    greater, greaterOrEqual, not, isNonzero]

/-- The mnemonic of an operation. -/
def name : Operation → String
  | plus => "plus"
  | minus => "minus"
  | times => "times"
  | divided => "divided"
  | remainder => "remainder"
  | unaryMinus => "uminus"
  | equal => "equal"
  | different => "different"
  | less => "less"
  | lessOrEqual => "lessorequal"
  | greater => "greater"
  | greaterOrEqual => "greaterorequal"
  | not => "not"
  | isNonzero => "isnonzero"

def ofName? (s : String) : Option Operation :=
  all.find? fun o => o.name == s

def arity : Operation → Nat
  | unaryMinus | not | isNonzero => 1
  | _ => 2

/-- The operation of a primitive; `input` has none. -/
def ofPrimitive? : Primitive → Option Operation
  | .plus => some plus
  | .minus => some minus
  | .times => some times
  | .divided => some divided
  | .remainder => some remainder
  | .unaryMinus => some unaryMinus
  | .equal => some equal
  | .different => some different
  | .less => some less
  | .lessOrEqual => some lessOrEqual
  | .greater => some greater
  | .greaterOrEqual => some greaterOrEqual
  | .logicalNot => some not
  | .isNonzero => some isNonzero
  | .input => none

/-- Why an operation has no result. -/
inductive Fault where
  | divisionByZero
  | operandCount
  deriving DecidableEq, Repr

def apply : Operation → List Value → Except Fault Value
  | unaryMinus, [a] => .ok (-a)
  | not, [a] => .ok (Value.ofBool (a == 0))
  | isNonzero, [a] => .ok (Value.ofBool (a != 0))
  | plus, [a, b] => .ok (a + b)
  | minus, [a, b] => .ok (a - b)
  | times, [a, b] => .ok (a * b)
  | divided, [a, b] => if b = 0 then .error .divisionByZero else .ok (a / b)
  | remainder, [a, b] => if b = 0 then .error .divisionByZero else .ok (a % b)
  | equal, [a, b] => .ok (Value.ofBool (a == b))
  | different, [a, b] => .ok (Value.ofBool (a != b))
  | less, [a, b] => .ok (Value.ofBool (a < b))
  | lessOrEqual, [a, b] => .ok (Value.ofBool (a ≤ b))
  | greater, [a, b] => .ok (Value.ofBool (b < a))
  | greaterOrEqual, [a, b] => .ok (Value.ofBool (b ≤ a))
  | _, _ => .error .operandCount

end Operation

end Izmir
