import Mathlib
import Izmir.Machine
import Izmir.Program

/-!
# The meaning of programs

A program is executed on variables that are known by their names. A block has a variable of
its own, which is zero on every entry; a name that no block around declares belongs to the
routine, whose variables are zero at the start of an activation except for its formals. Each
call has an activation of its own.

Every call and every round of a loop needs a unit of fuel. An execution that runs out of fuel
has not ended; one that ends does so in the same way with more fuel.
-/

namespace Izmir

/-- What an execution shares with its surroundings: the input that is left, the sink, and what
the sink has taken. -/
structure World where
  input : InputSource
  sink : Sink
  printed : Array Value

/-- How an execution ends that is to give a value. -/
inductive Result (α : Type) where
  | done (value : α) (world : World)
  | failed (error : RuntimeError) (world : World)
  /-- A call of nothing that is defined, or a primitive with too few or too many operands. -/
  | stuck (world : World)
  | outOfFuel (world : World)

def Action (α : Type) : Type :=
  World → Result α

namespace Action

variable {α β : Type}

def bind (m : Action α) (f : α → Action β) : Action β := fun w =>
  match m w with
  | .done a w => f a w
  | .failed e w => .failed e w
  | .stuck w => .stuck w
  | .outOfFuel w => .outOfFuel w

instance : Monad Action where
  pure a := fun w => .done a w
  bind := bind

def fail (e : RuntimeError) : Action α := fun w => .failed e w

def stuck : Action α := fun w => .stuck w

def outOfFuel : Action α := fun w => .outOfFuel w

/-- Take the next value of the input. -/
def read : Action Value := fun w =>
  match w.input.next? with
  | none => .failed .inputExhausted w
  | some (.ok v, rest) => .done v { w with input := rest }
  | some (.error e, rest) => .failed (.input e) { w with input := rest }

def print (v : Value) : Action Unit := fun w =>
  if w.sink.accepts w.printed v then .done () { w with printed := w.printed.push v }
  else .failed .output w

end Action

/-- The value that an integer wraps around to. -/
def Value.wrap (n : Int) : Value :=
  Int64.ofInt n

/-- What a primitive computes in a routine. Arithmetic is that of the integers, wrapped around
to 64 bits. -/
def Primitive.compute (routine : String) (p : Primitive) : List Value → Action Value
  | [] =>
    match p with
    | .input => .read
    | _ => .stuck
  | [a] =>
    match p with
    | .unaryMinus => pure (.wrap (-a.toInt))
    | .logicalNot => pure (.ofBool (a.toInt = 0))
    | .isNonzero => pure (.ofBool (a.toInt ≠ 0))
    | _ => .stuck
  | [a, b] =>
    match p with
    | .plus => pure (.wrap (a.toInt + b.toInt))
    | .minus => pure (.wrap (a.toInt - b.toInt))
    | .times => pure (.wrap (a.toInt * b.toInt))
    | .divided =>
      if b.toInt = 0 then .fail (.divisionByZero routine)
      else pure (.wrap (a.toInt.tdiv b.toInt))
    | .remainder =>
      if b.toInt = 0 then .fail (.divisionByZero routine)
      else pure (.wrap (a.toInt.tmod b.toInt))
    | .equal => pure (.ofBool (a.toInt = b.toInt))
    | .different => pure (.ofBool (a.toInt ≠ b.toInt))
    | .less => pure (.ofBool (a.toInt < b.toInt))
    | .lessOrEqual => pure (.ofBool (a.toInt ≤ b.toInt))
    | .greater => pure (.ofBool (a.toInt > b.toInt))
    | .greaterOrEqual => pure (.ofBool (a.toInt ≥ b.toInt))
    | _ => .stuck
  | _ => .stuck

/-- The variables of an activation, kept in `σ` and called by `ν`. -/
class Variables (σ : Type) (ν : outParam Type) where
  get : σ → ν → Value
  set : σ → ν → Value → σ
  /-- Enter a block with a variable of its own, which is zero. -/
  enter : σ → ν → σ
  /-- Leave the innermost block. -/
  leave : σ → σ

/-- Where control goes after a statement. -/
inductive Flow (σ : Type) where
  | next (vars : σ)
  | returned (value : Value)

/-- The result of a routine. One that ends without a result gives zero. -/
def Flow.result {σ : Type} : Flow σ → Value
  | .next _ => 0
  | .returned v => v

/-- What follows a round of a loop. -/
inductive Round (σ : Type) where
  | again (vars : σ)
  | over (flow : Flow σ)

/-- Rounds until one is the last, as many as there is fuel for. -/
def loop {σ : Type} (round : σ → Action (Round σ)) : Nat → σ → Action (Flow σ)
  | 0, _ => .outOfFuel
  | fuel + 1, vars => do
    match ← round vars with
    | .again vars => loop round fuel vars
    | .over flow => pure flow

section

variable {σ ν : Type} [Variables σ ν] (call : String → List Value → Action Value)
  (routine : String)

mutual

/-- The value of an expression. Operands and actuals are evaluated from left to right. -/
def Expr.eval (vars : σ) : Expr ν → Action Value
  | .literal v => pure v
  | .var x => pure (Variables.get vars x)
  | .ifElse c a b => do
    let v ← c.eval vars
    if v ≠ 0 then a.eval vars else b.eval vars
  | .apply p es => do
    let vs ← Expr.evalAll vars es
    p.compute routine vs
  | .call f es => do
    let vs ← Expr.evalAll vars es
    call f vs

def Expr.evalAll (vars : σ) : List (Expr ν) → Action (List Value)
  | [] => pure []
  | e :: es => do
    let v ← e.eval vars
    let vs ← Expr.evalAll vars es
    pure (v :: vs)

end

/-- Execute a statement. A loop makes at most as many rounds as there is fuel. -/
def Stmt.exec (fuel : Nat) : Stmt ν → σ → Action (Flow σ)
  | .skip, vars => pure (.next vars)
  | .block x a, vars => do
    match ← a.exec fuel (Variables.enter vars x) with
    | .next vars => pure (.next (Variables.leave vars))
    | .returned v => pure (.returned v)
  | .assign x e, vars => do
    let v ← e.eval call routine vars
    pure (.next (Variables.set vars x v))
  | .print e, vars => do
    let v ← e.eval call routine vars
    Action.print v
    pure (.next vars)
  | .seq a b, vars => do
    match ← a.exec fuel vars with
    | .next vars => b.exec fuel vars
    | .returned v => pure (.returned v)
  | .ifElse c a b, vars => do
    let v ← c.eval call routine vars
    if v ≠ 0 then a.exec fuel vars else b.exec fuel vars
  | .ifThen c a, vars => do
    let v ← c.eval call routine vars
    if v ≠ 0 then a.exec fuel vars else pure (.next vars)
  | .whileDo c a, vars =>
    loop (fun vars => do
      let v ← c.eval call routine vars
      if v ≠ 0 then
        match ← a.exec fuel vars with
        | .next vars => pure (.again vars)
        | .returned v => pure (.over (.returned v))
      else pure (.over (.next vars))) fuel vars
  | .repeatUntil a c, vars =>
    loop (fun vars => do
      match ← a.exec fuel vars with
      | .next vars =>
        let v ← c.eval call routine vars
        if v ≠ 0 then pure (.over (.next vars)) else pure (.again vars)
      | .returned v => pure (.over (.returned v))) fuel vars
  | .ret e, vars => do
    let v ← e.eval call routine vars
    pure (.returned v)
  | .call f es, vars => do
    let vs ← Expr.evalAll call routine vars es
    let _ ← call f vs
    pure (.next vars)

end

/-- An activation of a routine: its name, its variables at the start, and its body. -/
structure Activation (σ ν : Type) where
  routine : String
  vars : σ
  body : Stmt ν

/-- Call a routine with arguments. -/
def callWith {σ ν : Type} [Variables σ ν]
    (activate : String → List Value → Option (Activation σ ν)) :
    Nat → String → List Value → Action Value
  | 0, _, _ => .outOfFuel
  | fuel + 1, f, args =>
    match activate f args with
    | none => .stuck
    | some a => do
      let flow ← a.body.exec (callWith activate fuel) a.routine fuel a.vars
      pure flow.result

/-- The variables of an activation by their names. -/
structure Bindings where
  /-- The variables of the blocks around, the innermost first. -/
  blocks : List (String × Value)
  /-- The variables of the routine: its formals, and every name that is not declared. -/
  routine : String → Value

namespace Bindings

/-- Set the first variable of a name. -/
def setFirst (x : String) (v : Value) : List (String × Value) → List (String × Value)
  | [] => []
  | (y, u) :: bs => if y = x then (y, v) :: bs else (y, u) :: setFirst x v bs

/-- The bindings at the start of an activation. Of two formals with the same name the last one
counts. -/
def start (formals : List String) (args : List Value) : Bindings where
  blocks := []
  routine := (formals.zip args).foldl (fun vars (x, v) => Function.update vars x v) fun _ => 0

instance : Variables Bindings String where
  get vars x := (vars.blocks.lookup x).getD (vars.routine x)
  set vars x v :=
    if (vars.blocks.lookup x).isSome then { vars with blocks := setFirst x v vars.blocks }
    else { vars with routine := Function.update vars.routine x v }
  enter vars x := { vars with blocks := (x, 0) :: vars.blocks }
  leave vars := { vars with blocks := vars.blocks.tail }

end Bindings

/-- What is seen of an execution that has ended. -/
def Result.run? {α : Type} : Result α → Option Machine.Run
  | .done _ w => some (Machine.finish w.sink w.printed)
  | .failed e w => some ⟨.failed e, w.printed⟩
  | .stuck w => some ⟨.stuck, w.printed⟩
  | .outOfFuel _ => none

namespace Program

/-- The activation of a procedure, if it takes as many arguments. -/
def activate? (p : Program) (f : String) (args : List Value) :
    Option (Activation Bindings String) :=
  match p.procedures.find? (·.name == f) with
  | none => none
  | some q =>
    if q.arity = args.length then some ⟨q.name, .start q.formals args, q.body⟩ else none

/-- Execute the main statement. -/
def exec (p : Program) (fuel : Nat) : Action (Flow Bindings) :=
  p.main.exec (callWith p.activate? fuel) "main" fuel (.start [] [])

/-- Run a program; none if it has not ended within the fuel. A value that main returns is
forgotten. -/
def run (p : Program) (input : InputSource) (sink : Sink) (fuel : Nat) : Option Machine.Run :=
  (p.exec fuel ⟨input, sink, #[]⟩).run?

end Program

end Izmir
