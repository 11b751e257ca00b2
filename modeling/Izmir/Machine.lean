import Izmir.Executable
import Izmir.Machine.Input

/-!
# The machine

A state holds the frame of the running routine, the frames of its callers, one operand
stack for all of them, the input that is left and the values printed so far. `Machine.step`
executes one instruction. A step outside the frame, the code or the program has no meaning
and gets stuck; it never happens to an executable that was linked. A routine whose frame
cannot be allocated is not entered: the machine crashes.
-/

namespace Izmir

inductive RuntimeError where
  | divisionByZero (routine : String)
  | inputExhausted
  | input (fault : InputFault)
  | stackUnderflow (routine : String)
  | missingReturn (routine : String)
  | output
  deriving DecidableEq, Repr

def RuntimeError.message : RuntimeError → String
  | divisionByZero r => r ++ ": division by zero"
  | inputExhausted => "input exhausted"
  | input (.invalid line) => "input `" ++ line ++ "` is not an integer"
  | input .unreadable => "unable to read input"
  | stackUnderflow r => r ++ ": operand stack underflow"
  | missingReturn r => r ++ ": reached the end of the procedure without returning"
  | output => "unable to write output"

/-- Where printed values go. Depending on what it has taken, a sink may refuse the value that
comes next, or fail when it is flushed at the end. -/
structure Sink where
  accepts : Array Value → Value → Bool
  flushes : Array Value → Bool

/-- A sink that takes everything. -/
def Sink.endless : Sink :=
  ⟨fun _ _ => true, fun _ => true⟩

/-- A sink with room for a number of values. -/
def Sink.withRoom (n : Nat) : Sink :=
  { Sink.endless with accepts := fun printed _ => printed.size < n }

namespace Machine

/-- Where the caller of a routine wants its result. -/
inductive ReturnTo where
  | stack
  | register (index : Nat)
  deriving DecidableEq, Repr

structure Frame where
  routine : RoutineRef
  pc : Nat
  slots : Array Value
  registers : Array Value
  returnTo : ReturnTo
  deriving DecidableEq, Repr

/-- The frame of a routine at its start, if there can be one: the arguments are in the first
slots, all else is zero. -/
def Frame.start (routine : RoutineRef) (r : Executable.Routine) (arguments : List Value)
    (returnTo : ReturnTo) : Frame where
  routine := routine
  pc := 0
  slots := arguments.toArray ++ Array.replicate (r.slots - arguments.length) 0
  registers := Array.replicate r.registers 0
  returnTo := returnTo

structure State where
  frame : Frame
  /-- The frames of the callers, the immediate one first. -/
  callers : List Frame
  /-- The operand stack, from the top. -/
  stack : List Value
  input : InputSource
  printed : Array Value

def State.start (x : Executable) (input : InputSource) : State :=
  ⟨.start .main x.main [] .stack, [], [], input, #[]⟩

inductive Outcome where
  | running (state : State)
  | halted (state : State)
  | failed (error : RuntimeError) (state : State)
  | stuck (state : State)
  /-- There is no frame for the routine that was to be entered. -/
  | crashed (state : State)

namespace State

def push (s : State) (v : Value) : State :=
  { s with stack := v :: s.stack }

def goTo (s : State) (pc : Nat) : State :=
  { s with frame := { s.frame with pc := pc } }

/-- Continue with the top of the stack. -/
@[inline] def pop (s : State) (routine : String) (next : Value → State → Outcome) : Outcome :=
  match s.stack with
  | [] => .failed (.stackUnderflow routine) s
  | v :: rest => next v { s with stack := rest }

/-- Continue with the `n` topmost values, in the order in which they were pushed. -/
@[inline] def popMany (s : State) (routine : String) (n : Nat)
    (next : List Value → State → Outcome) : Outcome :=
  let top := s.stack.take n
  if top.length < n then .failed (.stackUnderflow routine) s
  else next top.reverse { s with stack := s.stack.drop n }

@[inline] def slot (s : State) (n : Nat) (next : Value → Outcome) : Outcome :=
  match s.frame.slots[n]? with
  | some v => next v
  | none => .stuck s

def setSlot (s : State) (n : Nat) (v : Value) : Outcome :=
  if n < s.frame.slots.size then
    .running { s with frame := { s.frame with slots := s.frame.slots.setIfInBounds n v } }
  else .stuck s

@[inline] def register (s : State) (n : Nat) (next : Value → Outcome) : Outcome :=
  match s.frame.registers[n]? with
  | some v => next v
  | none => .stuck s

def setRegister (s : State) (n : Nat) (v : Value) : Outcome :=
  if n < s.frame.registers.size then
    .running
      { s with frame := { s.frame with registers := s.frame.registers.setIfInBounds n v } }
  else .stuck s

/-- Continue with the values of some registers. -/
@[inline] def registers (s : State) (rs : List Nat) (next : List Value → Outcome) : Outcome :=
  match rs.mapM fun r => s.frame.registers[r]? with
  | some vs => next vs
  | none => .stuck s

/-- Continue with the next value of the input. -/
@[inline] def read (s : State) (next : Value → State → Outcome) : Outcome :=
  match s.input.next? with
  | none => .failed .inputExhausted s
  | some (.ok v, rest) => next v { s with input := rest }
  | some (.error e, rest) => .failed (.input e) { s with input := rest }

def print (s : State) (sink : Sink) (v : Value) : Outcome :=
  if sink.accepts s.printed v then .running { s with printed := s.printed.push v }
  else .failed .output s

/-- Apply an operation in a routine and continue with the result. -/
@[inline] def apply (s : State) (routine : String) (o : Operation) (operands : List Value)
    (next : Value → Outcome) : Outcome :=
  match o.apply operands with
  | .ok v => next v
  | .error .divisionByZero => .failed (.divisionByZero routine) s
  | .error .operandCount => .stuck s

/-- Go to a position if a condition holds. -/
def branchIf (s : State) (c : Condition) (operands : List Value) (target : Nat) : Outcome :=
  match c.holds? operands with
  | some true => .running (s.goTo target)
  | some false => .running s
  | none => .stuck s

/-- Enter a procedure. Its frame is allocated first, and the arguments have to fit into its
slots. -/
def call (s : State) (x : Executable) (callee : Nat) (arguments : List Value)
    (returnTo : ReturnTo) : Outcome :=
  match x.procedures[callee]? with
  | none => .stuck s
  | some r =>
    if ¬ r.Fits then .crashed s
    else if arguments.length ≤ r.slots then
      .running
        { s with
          frame := .start (.procedure callee) r arguments returnTo
          callers := s.frame :: s.callers }
    else .stuck s

/-- Leave the running routine with a result. Leaving the outermost one ends the
program. -/
def ret (s : State) (v : Value) : Outcome :=
  match s.callers with
  | [] => .halted s
  | caller :: callers =>
    let t : State := { s with frame := caller, callers := callers }
    match s.frame.returnTo with
    | .stack => .running (t.push v)
    | .register r => t.setRegister r v

/-- Continue with the value of an operand. -/
@[inline] def operand (s : State) (o : Operand) (next : Value → Outcome) : Outcome :=
  match o with
  | .literal v => next v
  | .slot n => s.slot n next
  | .register n => s.register n next

/-- Execute an instruction of the named routine; the position is already that of the
instruction after it. -/
def execute (s : State) (x : Executable) (sink : Sink) (routine : String) :
    LinkedInstr → Outcome
  | .pushConstant v => .running (s.push v)
  | .pushVariable n => s.slot n fun v => .running (s.push v)
  | .popVariable n => s.pop routine fun v s => s.setSlot n v
  | .operate o => s.popMany routine o.arity fun vs s =>
      s.apply routine o vs fun v => .running (s.push v)
  | .input => s.read fun v s => .running (s.push v)
  | .print => s.pop routine fun v s => s.print sink v
  | .drop => s.pop routine fun _ s => .running s
  | .branch target => .running (s.goTo target)
  | .branchIf c target => s.popMany routine c.arity fun vs s => s.branchIf c vs target
  | .call f n => s.popMany routine n fun vs s => s.call x f vs .stack
  | .ret => s.pop routine fun v s => s.ret v
  | .move source (.slot n) => s.operand source fun v => s.setSlot n v
  | .move source (.register n) => s.operand source fun v => s.setRegister n v
  | .operateRegisters o rs r => s.registers rs fun vs =>
      s.apply routine o vs fun v => s.setRegister r v
  | .inputRegister r => s.read fun v s => s.setRegister r v
  | .printRegister r => s.register r fun v => s.print sink v
  | .branchIfRegisters c rs target => s.registers rs fun vs => s.branchIf c vs target
  | .callRegisters f first n r => s.registers (List.range' first n) fun vs =>
      s.call x f vs (.register r)
  | .retRegister r => s.register r fun v => s.ret v

end State

/-- One step. Running off the end of main halts, running off the end of a procedure is an
error. -/
def step (x : Executable) (sink : Sink) (s : State) : Outcome :=
  match x.routine? s.frame.routine with
  | none => .stuck s
  | some r =>
    match r.code[s.frame.pc]? with
    | some i => (s.goTo (s.frame.pc + 1)).execute x sink r.name.text i
    | none =>
      if s.frame.routine = .main then .halted s else .failed (.missingReturn r.name.text) s

/-- How a run ended. -/
inductive Ending where
  | halted
  | failed (error : RuntimeError)
  | stuck
  | crashed
  deriving DecidableEq, Repr

/-- What the machine crashes with. -/
def crashMessage : String :=
  "capacity overflow"

structure Run where
  ending : Ending
  printed : Array Value
  deriving DecidableEq, Repr

/-- The end of a run that halts: the sink is flushed. -/
def finish (sink : Sink) (printed : Array Value) : Run :=
  ⟨if sink.flushes printed then .halted else .failed .output, printed⟩

/-- Run for at most a number of steps. -/
def runFrom (x : Executable) (sink : Sink) : Nat → State → Option Run
  | 0, _ => none
  | fuel + 1, s =>
    match step x sink s with
    | .running t => runFrom x sink fuel t
    | .halted t => some (finish sink t.printed)
    | .failed e t => some ⟨.failed e, t.printed⟩
    | .stuck t => some ⟨.stuck, t.printed⟩
    | .crashed t => some ⟨.crashed, t.printed⟩

/-- Run a program from its start for at most a number of steps; none if it is still running
then. -/
def run (x : Executable) (input : InputSource) (sink : Sink) (fuel : Nat) : Option Run :=
  if x.main.Fits then runFrom x sink fuel (.start x input) else some ⟨.crashed, #[]⟩

/-- The text of printed values, one a line. -/
def text (printed : Array Value) : String :=
  String.ofList (printed.toList.flatMap fun v => Value.text v ++ ['\n'])

end Machine

end Izmir
