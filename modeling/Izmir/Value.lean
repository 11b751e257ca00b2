import Izmir.Text.Decimal

/-!
# Values

The language knows one kind of value, the signed 64-bit integer. Arithmetic wraps around;
a value is true when it is not zero.
-/

namespace Izmir

abbrev Value := Int64

namespace Value

def ofBool (b : Bool) : Value :=
  if b then 1 else 0

/-- The value of an integer that fits in 64 bits. -/
def ofInt? (n : Int) : Option Value :=
  if Int64.minValue.toInt ≤ n ∧ n ≤ Int64.maxValue.toInt then some (Int64.ofInt n) else none

/-- The decimal form of a value. -/
def text (v : Value) : List Char :=
  Text.Decimal.ofInt v.toInt

/-- The value written by a text, if it is an integer in range. -/
def ofText? (cs : List Char) : Option Value :=
  (Text.Decimal.integer? cs).bind ofInt?

end Value

end Izmir
