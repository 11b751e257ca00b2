import Izmir.Compile.Config
import Izmir.Program

/-!
# Which programs compile

A program compiles when no two procedures have the same name and every primitive is
applied to as many operands as it takes.
-/

namespace Izmir

inductive CompileError where
  | multipleDefinitions (procedure : String)
  | operandCount (primitive : Primitive) (found : Nat)
  deriving DecidableEq, Repr

def CompileError.message : CompileError → String
  | multipleDefinitions n => "procedure `" ++ n ++ "` is defined more than once"
  | operandCount p k =>
    "unsupported construct: `" ++ p.name ++ "` applied to " ++
      String.ofList (Text.Decimal.ofNat k) ++ " operand(s), expects " ++
      String.ofList (Text.Decimal.ofNat p.arity)

/-- The first element of a list that occurs earlier in it. -/
def firstRepeat? {α : Type} [DecidableEq α] : List α → Option α :=
  go []
where
  go (seen : List α) : List α → Option α
    | [] => none
    | a :: as => if a ∈ seen then some a else go (a :: seen) as

/-- The primitive whose operands are counted: the branch that tests a folded comparison is
taken on the reversed one. -/
def Primitive.counted (folding condition : Bool) (p : Primitive) : Primitive :=
  if folding && condition then p.reverse?.getD p else p

mutual

/-- Check an expression that is used as a condition or for its value. A primitive comes
before its operands, and operands come in order. -/
def Expr.check {ν : Type} (folding : Bool) (condition : Bool) :
    Expr ν → Except CompileError Unit
  | .literal _ => .ok ()
  | .var _ => .ok ()
  | .ifElse c a b => do
    c.check folding true
    a.check folding false
    b.check folding false
  | .apply p es => do
    let q := p.counted folding condition
    if es.length = q.arity then .ok () else .error (.operandCount q es.length)
    Expr.checkAll folding es
  | .call _ es => Expr.checkAll folding es

def Expr.checkAll {ν : Type} (folding : Bool) : List (Expr ν) → Except CompileError Unit
  | [] => .ok ()
  | e :: es => do
    e.check folding false
    Expr.checkAll folding es

end

def Stmt.check {ν : Type} (folding : Bool) : Stmt ν → Except CompileError Unit
  | .skip => .ok ()
  | .block _ a => a.check folding
  | .assign _ e => e.check folding false
  | .print e => e.check folding false
  | .seq a b => do
    a.check folding
    b.check folding
  | .ifElse c a b => do
    c.check folding true
    a.check folding
    b.check folding
  | .ifThen c a => do
    c.check folding true
    a.check folding
  | .whileDo c a => do
    c.check folding true
    a.check folding
  | .repeatUntil a c => do
    a.check folding
    c.check folding true
  | .ret e => e.check folding false
  | .call _ es => Expr.checkAll folding es

def Program.check (folding : Bool) (p : Program) : Except CompileError Unit := do
  match firstRepeat? (p.procedures.map (·.name)) with
  | some n => .error (.multipleDefinitions n)
  | none => .ok ()
  p.procedures.forM fun q => q.body.check folding
  p.main.check folding

end Izmir
