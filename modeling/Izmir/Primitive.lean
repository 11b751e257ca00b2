/-!
# Primitives

The built-in operators of the language. Eight of them are comparisons: their result is a
truth value, and each has a reverse that holds exactly when it does not.
-/

namespace Izmir

inductive Primitive where
  | plus | minus | times | divided | remainder | unaryMinus
  | equal | different | less | lessOrEqual | greater | greaterOrEqual
  | logicalNot | isNonzero
  | input
  deriving DecidableEq, Repr

namespace Primitive

def all : List Primitive :=
  [plus, minus, times, divided, remainder, unaryMinus, equal, different, less, lessOrEqual,
    greater, greaterOrEqual, logicalNot, isNonzero, input]

def name : Primitive → String
  | plus => "plus"
  | minus => "minus"
  | times => "times"
  | divided => "divided"
  | remainder => "remainder"
  | unaryMinus => "unary_minus"
  | equal => "equal"
  | different => "different"
  | less => "less"
  | lessOrEqual => "less_or_equal"
  | greater => "greater"
  | greaterOrEqual => "greater_or_equal"
  | logicalNot => "logical_not"
  | isNonzero => "is_nonzero"
  | input => "input"

def ofName? (s : String) : Option Primitive :=
  all.find? fun p => p.name == s

/-- Number of operands. -/
def arity : Primitive → Nat
  | input => 0
  | unaryMinus | logicalNot | isNonzero => 1
  | _ => 2

/-- The comparison that holds exactly when the given one does not. -/
def reverse? : Primitive → Option Primitive
  | equal => some different
  | different => some equal
  | less => some greaterOrEqual
  | lessOrEqual => some greater
  | greater => some lessOrEqual
  | greaterOrEqual => some less
  | logicalNot => some isNonzero
  | isNonzero => some logicalNot
  | _ => none

def isComparison (p : Primitive) : Bool :=
  p.reverse?.isSome

end Primitive

/-- What only a comparison has, asked of another primitive. -/
inductive ComparisonError where
  | noReverse (p : Primitive)
  | noCondition (p : Primitive)
  deriving DecidableEq, Repr

def ComparisonError.message : ComparisonError → String
  | noReverse p => "cannot reverse non-comparison primitive `" ++ p.name ++ "`"
  | noCondition p => "`" ++ p.name ++ "` is not a comparison"

def Primitive.reverse (p : Primitive) : Except ComparisonError Primitive :=
  match p.reverse? with
  | some q => .ok q
  | none => .error (.noReverse p)

end Izmir
