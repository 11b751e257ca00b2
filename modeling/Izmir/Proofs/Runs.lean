import Mathlib
import Izmir.Machine

/-!
# Runs of the machine

`Machine.after n` is the outcome of `n` steps. A bounded run is what can be seen of that
outcome, so that facts about runs of any length are facts about `after`: it composes, an
outcome that has ended stays as it is, and what was printed is never taken back.
-/

namespace Izmir.Machine

variable {x : Executable} {sink : Sink}

/-- The outcome after a number of steps. -/
def after (x : Executable) (sink : Sink) : Nat → Outcome → Outcome
  | 0, o => o
  | n + 1, .running s => after x sink n (step x sink s)
  | _ + 1, o => o

/-- The state in which an outcome leaves the machine. -/
def Outcome.state : Outcome → State
  | .running s | .halted s | .failed _ s | .stuck s | .crashed s => s

/-- What is seen of an outcome that is not running. -/
def Outcome.run? (sink : Sink) : Outcome → Option Run
  | .running _ => none
  | .halted s => some (finish sink s.printed)
  | .failed e s => some ⟨.failed e, s.printed⟩
  | .stuck s => some ⟨.stuck, s.printed⟩
  | .crashed s => some ⟨.crashed, s.printed⟩

/-- The outcome with which a program starts: it runs, if there can be a frame of main. -/
def start (x : Executable) (input : InputSource) : Outcome :=
  if x.main.Fits then .running (.start x input) else .crashed (.start x input)

@[simp] lemma after_zero (o : Outcome) : after x sink 0 o = o := rfl

@[simp] lemma after_succ_running (n : Nat) (s : State) :
    after x sink (n + 1) (.running s) = after x sink n (step x sink s) := rfl

@[simp] lemma after_halted (n : Nat) (s : State) : after x sink n (.halted s) = .halted s := by
  cases n <;> rfl

@[simp] lemma after_failed (n : Nat) (e : RuntimeError) (s : State) :
    after x sink n (.failed e s) = .failed e s := by
  cases n <;> rfl

@[simp] lemma after_stuck (n : Nat) (s : State) : after x sink n (.stuck s) = .stuck s := by
  cases n <;> rfl

@[simp] lemma after_crashed (n : Nat) (s : State) :
    after x sink n (.crashed s) = .crashed s := by
  cases n <;> rfl

lemma after_add (m n : Nat) (o : Outcome) :
    after x sink (m + n) o = after x sink n (after x sink m o) := by
  induction m generalizing o with
  | zero => rw [Nat.zero_add, after_zero]
  | succ m ih =>
    rw [Nat.add_right_comm]
    cases o with
    | running s => rw [after_succ_running, after_succ_running, ih]
    | halted s => simp
    | failed e s => simp
    | stuck s => simp
    | crashed s => simp

lemma after_succ (n : Nat) (o : Outcome) :
    after x sink (n + 1) o = after x sink 1 (after x sink n o) :=
  after_add n 1 o

lemma runFrom_eq_run? (n : Nat) (s : State) :
    runFrom x sink n s = (after x sink n (.running s)).run? sink := by
  induction n generalizing s with
  | zero => rfl
  | succ n ih =>
    rw [runFrom, after_succ_running]
    cases step x sink s with
    | running t => exact ih t
    | halted t => rw [after_halted]; rfl
    | failed e t => rw [after_failed]; rfl
    | stuck t => rw [after_stuck]; rfl
    | crashed t => rw [after_crashed]; rfl

lemma run_eq_run? (input : InputSource) (n : Nat) :
    run x input sink n = (after x sink n (start x input)).run? sink := by
  unfold run start
  split
  · exact runFrom_eq_run? n _
  · rw [after_crashed]
    rfl

lemma start_state (x : Executable) (input : InputSource) :
    (start x input).state = .start x input := by
  unfold start
  split <;> rfl

/-- An outcome that has ended is the outcome from then on. -/
lemma after_eq_of_ended {m n : Nat} {o : Outcome} {r : Run} (hmn : m ≤ n)
    (h : (after x sink m o).run? sink = some r) : after x sink n o = after x sink m o := by
  obtain ⟨k, rfl⟩ := Nat.exists_eq_add_of_le hmn
  rw [after_add]
  cases ho : after x sink m o with
  | running s => rw [ho] at h; cases h
  | halted s => simp
  | failed e s => simp
  | stuck s => simp
  | crashed s => simp

/-- A run ends in one way only. -/
lemma run?_after_unique {m n : Nat} {o : Outcome} {q r : Run}
    (hq : (after x sink m o).run? sink = some q) (hr : (after x sink n o).run? sink = some r) :
    q = r := by
  rcases Nat.le_total m n with hmn | hnm
  · rw [after_eq_of_ended hmn hq, hq] at hr
    exact Option.some.inj hr
  · rw [after_eq_of_ended hnm hr, hr] at hq
    exact (Option.some.inj hq).symm

/-- A step where there is an instruction executes it. -/
lemma step_eq_execute {s : State} {r : Executable.Routine} {i : LinkedInstr}
    (hr : x.routine? s.frame.routine = some r) (hi : r.code[s.frame.pc]? = some i) :
    step x sink s = (s.goTo (s.frame.pc + 1)).execute x sink r.name.text i := by
  unfold step
  simp only [hr, hi]

/-- A step at the end of the code. -/
lemma step_eq_of_end {s : State} {r : Executable.Routine}
    (hr : x.routine? s.frame.routine = some r) (hi : r.code[s.frame.pc]? = none) :
    step x sink s =
      if s.frame.routine = .main then .halted s else .failed (.missingReturn r.name.text) s := by
  unfold step
  simp only [hr, hi]

/-! ### Output -/

/-- What has been printed after a number of steps. -/
def printedAfter (x : Executable) (input : InputSource) (sink : Sink) (n : Nat) : List Value :=
  (after x sink n (start x input)).state.printed.toList

/-- No instruction takes back what was printed. -/
lemma State.execute_printed (s : State) (routine : String) (i : LinkedInstr) :
    s.printed.toList <+: (s.execute x sink routine i).state.printed.toList := by
  cases i with
  | move a b =>
    cases a <;> cases b <;>
      simp only [execute, operand, slot, register, setSlot, setRegister] <;> repeat' split
    all_goals simp [Outcome.state]
  | _ =>
    simp only [execute, pop, popMany, slot, register, registers, read, State.apply, branchIf, call,
      ret, print, setSlot, setRegister]
    repeat' split
    all_goals simp [Outcome.state, push, goTo]

lemma step_printed (s : State) :
    s.printed.toList <+: (step x sink s).state.printed.toList := by
  unfold step
  split
  · exact List.prefix_rfl
  · split
    · exact State.execute_printed (s.goTo (s.frame.pc + 1)) _ _
    · split <;> exact List.prefix_rfl

/-- Later more has been printed, after the same beginning. -/
lemma after_printed {m n : Nat} (hmn : m ≤ n) (o : Outcome) :
    (after x sink m o).state.printed.toList <+: (after x sink n o).state.printed.toList := by
  obtain ⟨k, rfl⟩ := Nat.exists_eq_add_of_le hmn
  rw [after_add]
  generalize after x sink m o = o
  induction k generalizing o with
  | zero => exact List.prefix_rfl
  | succ k ih =>
    cases o with
    | running s => exact (step_printed s).trans (ih (Nat.le_add_right m k) (step x sink s))
    | halted s => exact List.prefix_rfl
    | failed e s => exact List.prefix_rfl
    | stuck s => exact List.prefix_rfl
    | crashed s => exact List.prefix_rfl

/-! ### Operands in place -/

/-- The registers that a list names are read when each of them is. -/
lemma mapM_getElem?_eq_some_iff {registers : Array Value} {rs : List Nat} {vs : List Value} :
    (rs.mapM fun r => registers[r]?) = some vs ↔
      List.Forall₂ (fun r v => registers[r]? = some v) rs vs := by
  induction rs generalizing vs with
  | nil =>
    rw [List.mapM_nil, List.forall₂_nil_left_iff]
    exact ⟨fun h => (Option.some.inj h).symm, fun h => congrArg some h.symm⟩
  | cons r rs ih =>
    simp only [List.mapM_cons, Option.bind_eq_bind, Option.bind_eq_some_iff, ih,
      List.forall₂_cons_left_iff]
    constructor
    · rintro ⟨v, hv, ws, hws, h⟩
      exact ⟨v, ws, hv, hws, (Option.some.inj h).symm⟩
    · rintro ⟨v, ws, hv, hws, rfl⟩
      exact ⟨v, hv, ws, hws, rfl⟩

namespace State

variable {s : State} {routine : String}

lemma pop_eq {v : Value} {rest : List Value} {next : Value → State → Outcome}
    (h : s.stack = v :: rest) : s.pop routine next = next v { s with stack := rest } := by
  unfold pop
  rw [h]

lemma popMany_eq {n : Nat} {vs rest : List Value} {next : List Value → State → Outcome}
    (h : s.stack = vs.reverse ++ rest) (hn : vs.length = n) :
    s.popMany routine n next = next vs { s with stack := rest } := by
  have htake : s.stack.take n = vs.reverse := by
    rw [h, ← hn, ← List.length_reverse, List.take_left]
  have hdrop : s.stack.drop n = rest := by
    rw [h, ← hn, ← List.length_reverse, List.drop_left]
  unfold popMany
  simp only [htake, hdrop, List.length_reverse, hn, lt_irrefl, if_false, List.reverse_reverse]

lemma slot_eq {n : Nat} {v : Value} {next : Value → Outcome} (h : s.frame.slots[n]? = some v) :
    s.slot n next = next v := by
  unfold slot
  rw [h]

lemma register_eq {n : Nat} {v : Value} {next : Value → Outcome}
    (h : s.frame.registers[n]? = some v) : s.register n next = next v := by
  unfold register
  rw [h]

lemma registers_eq {rs : List Nat} {vs : List Value} {next : List Value → Outcome}
    (h : List.Forall₂ (fun r v => s.frame.registers[r]? = some v) rs vs) :
    s.registers rs next = next vs := by
  unfold registers
  rw [mapM_getElem?_eq_some_iff.mpr h]

lemma setSlot_eq {n : Nat} {v : Value} (h : n < s.frame.slots.size) :
    s.setSlot n v =
      .running { s with frame := { s.frame with slots := s.frame.slots.setIfInBounds n v } } :=
  if_pos h

lemma setRegister_eq {n : Nat} {v : Value} (h : n < s.frame.registers.size) :
    s.setRegister n v = .running
      { s with frame := { s.frame with registers := s.frame.registers.setIfInBounds n v } } :=
  if_pos h

end State

end Izmir.Machine
