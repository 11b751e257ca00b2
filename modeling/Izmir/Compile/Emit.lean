import Izmir.Compile.Check
import Izmir.Program.Slots

/-!
# Emitting code

Expressions and statements become code by recursion on their form. An expression is
emitted for a purpose: to leave its value in a location, or to branch away unless it
holds. The number `next` is the first location that is free, and `label` is the number of
the first label that is free; an expression with `k` labels uses the numbers from `label`
up to `label + k`.
-/

namespace Izmir

mutual

/-- Number of labels in the code of an expression. -/
def Expr.labelCount {ν : Type} : Expr ν → Nat
  | .literal _ => 0
  | .var _ => 0
  | .ifElse c a b => 2 + c.labelCount + a.labelCount + b.labelCount
  | .apply _ es => Expr.labelCountAll es
  | .call _ es => Expr.labelCountAll es

def Expr.labelCountAll {ν : Type} : List (Expr ν) → Nat
  | [] => 0
  | e :: es => e.labelCount + Expr.labelCountAll es

end

def Stmt.labelCount {ν : Type} : Stmt ν → Nat
  | .skip => 0
  | .block _ a => a.labelCount
  | .assign _ e => e.labelCount
  | .print e => e.labelCount
  | .seq a b => a.labelCount + b.labelCount
  | .ifElse c a b => 2 + c.labelCount + a.labelCount + b.labelCount
  | .ifThen c a => 1 + c.labelCount + a.labelCount
  | .whileDo c a => 2 + c.labelCount + a.labelCount
  | .repeatUntil a c => 1 + a.labelCount + c.labelCount
  | .ret e => e.labelCount
  | .call _ es => Expr.labelCountAll es

/-- A label is a word for what it marks and a number of its own. -/
def numberedLabel (word : String) (number : Nat) : String :=
  String.ofList (word.toList ++ '_' :: Text.Decimal.ofNat number)

/-- What the code of an expression is for. -/
inductive Purpose where
  /-- Leave the value in a location. -/
  | value (location : Nat)
  /-- Branch to a label unless the value is true. -/
  | branchUnless (label : String)
  deriving DecidableEq, Repr

namespace Purpose

/-- Code for a purpose, given the code that leaves the value in a location when the free
locations start at a number. -/
def deliver (config : Config) (next : Nat) (value : Nat → Nat → List Line) : Purpose → List Line
  | .value location => value location next
  | .branchUnless label =>
    value next (next + 1) ++ [.instr (config.backend.branchIf .zero [next] label)]

/-- The condition and the label of the branch that a primitive is folded into. -/
def folded? (config : Config) (p : Primitive) : Purpose → Option (Condition × String)
  | .value _ => none
  | .branchUnless label =>
    if config.folding then
      (p.reverse?.bind Condition.ofPrimitive?).map fun c => (c, label)
    else none

end Purpose

/-- The instruction of a primitive. -/
def Backend.apply (b : Backend) (p : Primitive) (operands : List Nat) (location : Nat) :
    SymbolicInstr :=
  match Operation.ofPrimitive? p with
  | some o => b.operate o operands location
  | none => b.input location

mutual

def Expr.emit (config : Config) : Expr Nat → Purpose → (next label : Nat) → List Line
  | .literal v, purpose, next, _ =>
    purpose.deliver config next fun location _ =>
      [.instr (config.backend.loadConstant v location)]
  | .var n, purpose, next, _ =>
    purpose.deliver config next fun location _ =>
      [.instr (config.backend.loadVariable n location)]
  | .ifElse c a b, purpose, next, label =>
    purpose.deliver config next fun location next =>
      let otherwise := numberedLabel "else" label
      let done := numberedLabel "end" (label + 1)
      let label := label + 2
      c.emit config (.branchUnless otherwise) next label ++
        a.emit config (.value location) next (label + c.labelCount) ++
        [.instr (.branch done), .label otherwise] ++
        b.emit config (.value location) next (label + c.labelCount + a.labelCount) ++
        [.label done]
  | .apply p es, purpose, next, label =>
    match purpose.folded? config p with
    | some (c, target) =>
      Expr.emitAll config es next label ++
        [.instr (config.backend.branchIf c (List.range' next es.length) target)]
    | none =>
      purpose.deliver config next fun location next =>
        Expr.emitAll config es next label ++
          [.instr (config.backend.apply p (List.range' next es.length) location)]
  | .call f es, purpose, next, label =>
    purpose.deliver config next fun location next =>
      Expr.emitAll config es next label ++
        [.instr (config.backend.call f next es.length location)]

/-- Operands from left to right, each in a location of its own from `next` on. -/
def Expr.emitAll (config : Config) : List (Expr Nat) → (next label : Nat) → List Line
  | [], _, _ => []
  | e :: es, next, label =>
    e.emit config (.value next) (next + 1) label ++
      Expr.emitAll config es (next + 1) (label + e.labelCount)

end

/-- No location is in use between two statements, so that a statement starts at
location zero. -/
def Stmt.emit (config : Config) : Stmt Nat → (label : Nat) → List Line
  | .skip, _ => []
  | .block n a, label =>
    [.instr (config.backend.loadConstant 0 0), .instr (config.backend.storeVariable 0 n)] ++
      a.emit config label
  | .assign n e, label =>
    e.emit config (.value 0) 1 label ++ [.instr (config.backend.storeVariable 0 n)]
  | .print e, label =>
    e.emit config (.value 0) 1 label ++ [.instr (config.backend.print 0)]
  | .seq a b, label =>
    a.emit config label ++ b.emit config (label + a.labelCount)
  | .ifElse c a b, label =>
    let otherwise := numberedLabel "else" label
    let done := numberedLabel "end" (label + 1)
    let label := label + 2
    c.emit config (.branchUnless otherwise) 0 label ++
      a.emit config (label + c.labelCount) ++
      [.instr (.branch done), .label otherwise] ++
      b.emit config (label + c.labelCount + a.labelCount) ++
      [.label done]
  | .ifThen c a, label =>
    let done := numberedLabel "end" label
    let label := label + 1
    c.emit config (.branchUnless done) 0 label ++
      a.emit config (label + c.labelCount) ++
      [.label done]
  | .whileDo c a, label =>
    let again := numberedLabel "while" label
    let done := numberedLabel "done" (label + 1)
    let label := label + 2
    [.label again] ++
      c.emit config (.branchUnless done) 0 label ++
      a.emit config (label + c.labelCount) ++
      [.instr (.branch again), .label done]
  | .repeatUntil a c, label =>
    let again := numberedLabel "repeat" label
    let label := label + 1
    [.label again] ++
      a.emit config label ++
      c.emit config (.branchUnless again) 0 (label + a.labelCount)
  | .ret e, label =>
    e.emit config (.value 0) 1 label ++ [.instr (config.backend.ret 0)]
  | .call f es, label =>
    Expr.emitAll config es 1 label ++
      [.instr (config.backend.call f 1 es.length 0)] ++
      config.backend.discard.map .instr

end Izmir
