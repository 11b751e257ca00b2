import Izmir.Primitive
import Izmir.Value

/-!
# Programs

The tree of a program: procedures and a main statement. Expressions and statements are
taken over any way `ν` of naming variables, so that the same trees carry source names and,
later, the slots of a frame.
-/

namespace Izmir

inductive Expr (ν : Type) where
  | literal (value : Value)
  | var (name : ν)
  | ifElse (condition thenBranch elseBranch : Expr ν)
  | apply (primitive : Primitive) (operands : List (Expr ν))
  | call (callee : String) (actuals : List (Expr ν))

inductive Stmt (ν : Type) where
  | skip
  /-- A variable of its own for the body, set to zero on entry. -/
  | block (name : ν) (body : Stmt ν)
  | assign (name : ν) (expression : Expr ν)
  | print (expression : Expr ν)
  | seq (first second : Stmt ν)
  | ifElse (condition : Expr ν) (thenBranch elseBranch : Stmt ν)
  | ifThen (condition : Expr ν) (thenBranch : Stmt ν)
  /-- The guard is tested before each round. -/
  | whileDo (guard : Expr ν) (body : Stmt ν)
  /-- The guard is tested after each round, and ends the loop when it holds. -/
  | repeatUntil (body : Stmt ν) (guard : Expr ν)
  | ret (expression : Expr ν)
  | call (callee : String) (actuals : List (Expr ν))

/-- Statements one after the other, nested to the right. -/
def Stmt.ofList {ν : Type} : List (Stmt ν) → Stmt ν
  | [] => .skip
  | [s] => s
  | s :: t :: rest => .seq s (ofList (t :: rest))

/-- A body under one block for each variable, the first variable outermost. -/
def Stmt.withVariables {ν : Type} (names : List ν) (body : Stmt ν) : Stmt ν :=
  names.foldr .block body

structure Procedure where
  name : String
  formals : List String
  body : Stmt String

def Procedure.arity (p : Procedure) : Nat :=
  p.formals.length

structure Program where
  /-- Where the program was read from. -/
  source : String
  procedures : List Procedure
  main : Stmt String

end Izmir
