import Mathlib
import Izmir.Machine

/-!
# Labelled code by itself

A machine that runs labelled code as it stands. A line that defines a label does nothing, a
branch continues right after the definition of its label in the same routine, and a call looks
for its callee by name. Frames have a slot and a register for every number, all of them zero
until they are written. There is no meaning, and the machine is stuck, where a label is not
defined, a procedure has no such name, a literal is to be written to or the operands have the
wrong number.

The machine has room for the frames of all routines, or only of some. It crashes when it enters
a routine that it has no room for, and does the same as with room for all until then.
-/

namespace Izmir

/-- What follows the definition of a label in some code. -/
def afterLabel? (l : String) : List Line → Option (List Line)
  | [] => none
  | .label m :: rest => if m = l then some rest else afterLabel? l rest
  | .instr _ :: rest => afterLabel? l rest

namespace Symbolic

open Machine (ReturnTo Run finish)

/-- The routines of which there can be frames. -/
abbrev Room := Assembly.Routine → Bool

def Room.unlimited : Room :=
  fun _ => true

structure Frame where
  /-- The running routine. -/
  routine : Assembly.Routine
  isMain : Bool
  /-- The lines that come next. -/
  rest : List Line
  slots : Nat → Value
  registers : Nat → Value
  returnTo : ReturnTo

namespace Frame

def name (f : Frame) : String :=
  f.routine.name.text

/-- The frame of main at its start. -/
def main (a : Assembly) : Frame :=
  ⟨a.main, true, a.main.code, fun _ => 0, fun _ => 0, .stack⟩

/-- The frame of a procedure at its start: the arguments are in the first slots. -/
def enter (p : Assembly.Routine) (arguments : List Value) (returnTo : ReturnTo) : Frame :=
  ⟨p, false, p.code, fun n => arguments.getD n 0, fun _ => 0, returnTo⟩

def setSlot (f : Frame) (n : Nat) (v : Value) : Frame :=
  { f with slots := Function.update f.slots n v }

def setRegister (f : Frame) (n : Nat) (v : Value) : Frame :=
  { f with registers := Function.update f.registers n v }

def operand (f : Frame) : Operand → Value
  | .literal v => v
  | .slot n => f.slots n
  | .register n => f.registers n

end Frame

structure State where
  frame : Frame
  /-- The frames of the callers, the immediate one first. -/
  callers : List Frame
  /-- The operand stack, from the top. -/
  stack : List Value
  input : InputSource
  printed : Array Value

inductive Outcome where
  | running (state : State)
  | halted (state : State)
  | failed (error : RuntimeError) (state : State)
  | stuck (state : State)
  /-- There is no room for the routine that was to be entered. -/
  | crashed (state : State)

namespace State

def start (a : Assembly) (input : InputSource) : State :=
  ⟨.main a, [], [], input, #[]⟩

def push (s : State) (v : Value) : State :=
  { s with stack := v :: s.stack }

/-- Continue with the given lines. -/
def goTo (s : State) (rest : List Line) : State :=
  { s with frame := { s.frame with rest := rest } }

def pop (s : State) (next : Value → State → Outcome) : Outcome :=
  match s.stack with
  | [] => .failed (.stackUnderflow s.frame.name) s
  | v :: rest => next v { s with stack := rest }

/-- Continue with the `n` topmost values, in the order in which they were pushed. -/
def popMany (s : State) (n : Nat) (next : List Value → State → Outcome) : Outcome :=
  if s.stack.length < n then .failed (.stackUnderflow s.frame.name) s
  else next (s.stack.take n).reverse { s with stack := s.stack.drop n }

def setSlot (s : State) (n : Nat) (v : Value) : State :=
  { s with frame := s.frame.setSlot n v }

def setRegister (s : State) (n : Nat) (v : Value) : State :=
  { s with frame := s.frame.setRegister n v }

def read (s : State) (next : Value → State → Outcome) : Outcome :=
  match s.input.next? with
  | none => .failed .inputExhausted s
  | some (.ok v, rest) => next v { s with input := rest }
  | some (.error e, rest) => .failed (.input e) { s with input := rest }

def print (s : State) (sink : Sink) (v : Value) : Outcome :=
  if sink.accepts s.printed v then .running { s with printed := s.printed.push v }
  else .failed .output s

def apply (s : State) (o : Operation) (operands : List Value) (next : Value → Outcome) : Outcome :=
  match o.apply operands with
  | .ok v => next v
  | .error .divisionByZero => .failed (.divisionByZero s.frame.name) s
  | .error .operandCount => .stuck s

/-- Continue right after the definition of a label. -/
def branch (s : State) (l : String) : Outcome :=
  match afterLabel? l s.frame.routine.code with
  | some rest => .running (s.goTo rest)
  | none => .stuck s

def branchIf (s : State) (c : Condition) (operands : List Value) (l : String) : Outcome :=
  match c.holds? operands with
  | some true => s.branch l
  | some false => .running s
  | none => .stuck s

/-- Enter the procedure of a name, if there is room for it. -/
def call (s : State) (room : Room) (a : Assembly) (callee : String) (arguments : List Value)
    (returnTo : ReturnTo) : Outcome :=
  match a.procedures.find? (·.name.text == callee) with
  | some p =>
    if room p then
      .running
        { s with frame := .enter p arguments returnTo, callers := s.frame :: s.callers }
    else .crashed s
  | none => .stuck s

/-- Leave the running routine with a result. Leaving main ends the program. -/
def ret (s : State) (v : Value) : Outcome :=
  match s.callers with
  | [] => .halted s
  | caller :: callers =>
    match s.frame.returnTo with
    | .stack => .running { s with frame := caller, callers := callers, stack := v :: s.stack }
    | .register r => .running { s with frame := caller.setRegister r v, callers := callers }

def execute (s : State) (room : Room) (a : Assembly) (sink : Sink) : SymbolicInstr → Outcome
  | .pushConstant v => .running (s.push v)
  | .pushVariable n => .running (s.push (s.frame.slots n))
  | .popVariable n => s.pop fun v s => .running (s.setSlot n v)
  | .operate o => s.popMany o.arity fun vs s => s.apply o vs fun v => .running (s.push v)
  | .input => s.read fun v s => .running (s.push v)
  | .print => s.pop fun v s => s.print sink v
  | .drop => s.pop fun _ s => .running s
  | .branch l => s.branch l
  | .branchIf c l => s.popMany c.arity fun vs s => s.branchIf c vs l
  | .call f n => s.popMany n fun vs s => s.call room a f vs .stack
  | .ret => s.pop fun v s => s.ret v
  | .move source (.slot n) => .running (s.setSlot n (s.frame.operand source))
  | .move source (.register n) => .running (s.setRegister n (s.frame.operand source))
  | .move _ (.literal _) => .stuck s
  | .operateRegisters o rs r =>
    s.apply o (rs.map s.frame.registers) fun v => .running (s.setRegister r v)
  | .inputRegister r => s.read fun v s => .running (s.setRegister r v)
  | .printRegister r => s.print sink (s.frame.registers r)
  | .branchIfRegisters c rs l => s.branchIf c (rs.map s.frame.registers) l
  | .callRegisters f first n r =>
    s.call room a f ((List.range' first n).map s.frame.registers) (.register r)
  | .retRegister r => s.ret (s.frame.registers r)

end State

/-- One line. Running off the end of main halts, running off the end of a procedure is an
error. -/
def step (room : Room) (a : Assembly) (sink : Sink) (s : State) : Outcome :=
  match s.frame.rest with
  | .instr i :: rest => (s.goTo rest).execute room a sink i
  | .label _ :: rest => .running (s.goTo rest)
  | [] => if s.frame.isMain then .halted s else .failed (.missingReturn s.frame.name) s

/-- The outcome with which a program starts: it runs, if there is room for main. -/
def start (room : Room) (a : Assembly) (input : InputSource) : Outcome :=
  if room a.main then .running (.start a input) else .crashed (.start a input)

/-- The outcome after a number of steps. -/
def after (room : Room) (a : Assembly) (sink : Sink) : Nat → Outcome → Outcome
  | 0, o => o
  | n + 1, .running s => after room a sink n (step room a sink s)
  | _ + 1, o => o

/-- The state in which an outcome leaves the machine. -/
def Outcome.state : Outcome → State
  | .running s | .halted s | .failed _ s | .stuck s | .crashed s => s

/-- What is seen of an outcome that is not running. -/
def Outcome.run? (sink : Sink) : Outcome → Option Run
  | .running _ => none
  | .halted s => some (finish sink s.printed)
  | .failed e s => some ⟨.failed e, s.printed⟩
  | .stuck s => some ⟨.stuck, s.printed⟩
  | .crashed s => some ⟨.crashed, s.printed⟩

/-- Run labelled code from the start of main for at most a number of steps; none if it is
still running then. -/
def run (room : Room) (a : Assembly) (input : InputSource) (sink : Sink) (fuel : Nat) :
    Option Run :=
  (after room a sink fuel (start room a input)).run? sink

/-- What has been printed after a number of steps. -/
def printedAfter (room : Room) (a : Assembly) (input : InputSource) (sink : Sink) (n : Nat) :
    List Value :=
  (after room a sink n (start room a input)).state.printed.toList

section

variable {room : Room} {a : Assembly} {sink : Sink}

@[simp] lemma after_zero (o : Outcome) : after room a sink 0 o = o := rfl

@[simp] lemma after_succ_running (n : Nat) (s : State) :
    after room a sink (n + 1) (.running s) = after room a sink n (step room a sink s) := rfl

@[simp] lemma after_halted (n : Nat) (s : State) :
    after room a sink n (.halted s) = .halted s := by
  cases n <;> rfl

@[simp] lemma after_failed (n : Nat) (e : RuntimeError) (s : State) :
    after room a sink n (.failed e s) = .failed e s := by
  cases n <;> rfl

@[simp] lemma after_stuck (n : Nat) (s : State) :
    after room a sink n (.stuck s) = .stuck s := by
  cases n <;> rfl

@[simp] lemma after_crashed (n : Nat) (s : State) :
    after room a sink n (.crashed s) = .crashed s := by
  cases n <;> rfl

lemma after_add (m n : Nat) (o : Outcome) :
    after room a sink (m + n) o = after room a sink n (after room a sink m o) := by
  induction m generalizing o with
  | zero => rw [Nat.zero_add, after_zero]
  | succ m ih =>
    rw [Nat.add_right_comm]
    cases o with
    | running s => rw [after_succ_running, after_succ_running, ih]
    | halted s => simp
    | failed e s => simp
    | stuck s => simp
    | crashed s => simp

/-! ### Room for all routines -/

lemma State.call_unlimited (room : Room) (a : Assembly) (s : State) (f : String)
    (vs : List Value) (place : ReturnTo) :
    s.call room a f vs place = s.call .unlimited a f vs place ∨
      ∃ t, s.call room a f vs place = .crashed t ∧ t.printed = s.printed := by
  unfold State.call
  split
  · rename_i p _
    cases room p with
    | true => exact .inl rfl
    | false => exact .inr ⟨s, rfl, rfl⟩
  · exact .inl rfl

/-- The machine does in each step what it does with room for all routines, or it crashes. -/
lemma step_unlimited (room : Room) (a : Assembly) (sink : Sink) (s : State) :
    step room a sink s = step .unlimited a sink s ∨
      ∃ t, step room a sink s = .crashed t ∧ t.printed = s.printed := by
  unfold step
  split
  · rename_i i rest _
    cases i with
    | call f n =>
      simp only [State.execute, State.popMany]
      split
      · exact .inl rfl
      · exact State.call_unlimited room a _ f _ .stack
    | callRegisters f first n r =>
      exact State.call_unlimited room a (s.goTo rest) f _ (.register r)
    | move b d => cases d <;> exact .inl rfl
    | _ => exact .inl rfl
  · exact .inl rfl
  · exact .inl rfl

lemma after_unlimited (room : Room) (a : Assembly) (sink : Sink) (n : Nat) (o : Outcome) :
    after room a sink n o = after .unlimited a sink n o ∨
      ∃ m t, m ≤ n ∧ after room a sink n o = .crashed t ∧
        t.printed = (after .unlimited a sink m o).state.printed := by
  induction n generalizing o with
  | zero => exact .inl rfl
  | succ n ih =>
    cases o with
    | running s =>
      rcases step_unlimited room a sink s with hstep | ⟨t, hstep, hprinted⟩
      · rw [after_succ_running, after_succ_running, hstep]
        refine (ih _).imp_right ?_
        rintro ⟨m, t, hm, ht, hprinted⟩
        exact ⟨m + 1, t, Nat.succ_le_succ hm, ht, hprinted⟩
      · exact .inr ⟨0, t, Nat.zero_le _, by rw [after_succ_running, hstep, after_crashed],
          hprinted⟩
    | halted s | failed e s | stuck s | crashed s => exact .inl rfl

/-- Up to any moment a program does what it does with room for all routines, or it has crashed
after printing what it prints then. -/
lemma run_unlimited (room : Room) (a : Assembly) (input : InputSource) (sink : Sink) (n : Nat) :
    run room a input sink n = run .unlimited a input sink n ∧
        printedAfter room a input sink n = printedAfter .unlimited a input sink n ∨
      ∃ m q, m ≤ n ∧ run room a input sink n = some ⟨.crashed, q⟩ ∧
        q.toList = printedAfter .unlimited a input sink m := by
  unfold run printedAfter
  cases hroom : room a.main with
  | false =>
    have hstart : start room a input = .crashed (.start a input) := by simp [start, hroom]
    rw [hstart, after_crashed]
    exact .inr ⟨0, _, Nat.zero_le n, rfl, rfl⟩
  | true =>
    have hstart : start room a input = start .unlimited a input := by
      simp [start, hroom, Room.unlimited]
    rw [hstart]
    rcases after_unlimited room a sink n (start .unlimited a input) with heq | ⟨m, t, hm, ht, hq⟩
    · rw [heq]
      exact .inl ⟨rfl, rfl⟩
    · rw [ht]
      exact .inr ⟨m, t.printed, hm, rfl, congrArg Array.toList hq⟩

section

variable (h : ∀ p ∈ a.main :: a.procedures, room p = true)
include h

lemma step_eq_of_room (s : State) : step room a sink s = step .unlimited a sink s := by
  have hcall (t : State) (f : String) (vs : List Value) (place : ReturnTo) :
      t.call room a f vs place = t.call .unlimited a f vs place := by
    unfold State.call
    split
    · rename_i p hp
      rw [h p (List.mem_cons_of_mem _ (List.mem_of_find?_eq_some hp))]
      rfl
    · rfl
  unfold step
  split
  · rename_i i rest _
    cases i with
    | call f n => simp only [State.execute, hcall]
    | callRegisters f first n r => exact hcall _ f _ _
    | move b d => cases d <;> rfl
    | _ => rfl
  · rfl
  · rfl

/-- A program with room for all its routines. -/
lemma run_eq_of_room (input : InputSource) (n : Nat) :
    run room a input sink n = run .unlimited a input sink n ∧
      printedAfter room a input sink n = printedAfter .unlimited a input sink n := by
  have hstart : start room a input = start .unlimited a input := by
    simp [start, h a.main List.mem_cons_self, Room.unlimited]
  have hafter (o : Outcome) : after room a sink n o = after .unlimited a sink n o := by
    induction n generalizing o with
    | zero => rfl
    | succ n ih =>
      cases o with
      | running s => rw [after_succ_running, after_succ_running, step_eq_of_room h, ih]
      | halted s | failed e s | stuck s | crashed s => rfl
  unfold run printedAfter
  rw [hstart, hafter]
  exact ⟨rfl, rfl⟩

end

end

end Symbolic

end Izmir
