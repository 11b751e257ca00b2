import Izmir.Text.Blank
import Izmir.Text.Bytes
import Izmir.Text.Lines
import Izmir.Value

/-!
# Input

The input of a program is a list of values, some of which may turn out unreadable. Such a
failure does no harm until the program reads it. A running program reads from a source,
which answers one request after the other and need not come to an end.
-/

namespace Izmir

inductive InputFault where
  /-- A line that is no integer in range. -/
  | invalid (line : String)
  /-- A line that is no text. -/
  | unreadable
  deriving DecidableEq, Repr

abbrev Input := List (Except InputFault Value)

namespace Input

def ofValues (vs : List Value) : Input :=
  vs.map .ok

/-- What a line gives: nothing if it is blank. -/
def ofLine? (line : List Char) : Option (Except InputFault Value) :=
  match Text.trim line with
  | [] => none
  | c :: cs =>
    match Value.ofText? (c :: cs) with
    | some v => some (.ok v)
    | none => some (.error (.invalid (String.ofList (c :: cs))))

/-- One value a line. -/
def ofText (text : String) : Input :=
  (Text.lines '\n' text.toList).filterMap ofLine?

/-- One value a line, from bytes that should be UTF-8. -/
def ofBytes (bytes : List UInt8) : Input :=
  (Text.lines 10 bytes).filterMap fun line =>
    match Text.ofBytes? line with
    | some s => ofLine? s.toList
    | none => some (.error .unreadable)

end Input

/-- What a running program reads from: what each request gets, counted from zero, and the
number of requests made so far. A request gets nothing at the end of the source. -/
structure InputSource where
  request : Nat → Option (Except InputFault Value)
  position : Nat := 0

namespace InputSource

/-- What the next request gets, and the source after it. -/
@[inline] def next? (s : InputSource) : Option (Except InputFault Value × InputSource) :=
  (s.request s.position).map fun v => (v, { s with position := s.position + 1 })

/-- The source of an input that is known as a whole. -/
def ofInput (i : Input) : InputSource :=
  let items := i.toArray
  { request := fun n => items[n]? }

instance : Coe Input InputSource :=
  ⟨ofInput⟩

end InputSource

end Izmir
