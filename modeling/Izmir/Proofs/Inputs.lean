import Izmir.Executable.Link
import Izmir.Proofs.Runs
import Izmir.Proofs.Texts

/-!
# The input that a run depends on

Two runs of a program on sources that answer the same requests are in lockstep until one of them
asks for what its source does not have. So a run that ends without having asked in vain does not
depend on what comes behind its input, and one that has asked in vain has printed the beginning
of what it prints on more input. A faulty item is like the end of the input: all that comes before
it is read is the same.
-/

namespace Izmir

/-- The instructions that take a value from the input. -/
def LinkedInstr.Reads : LinkedInstr → Prop
  | .input | .inputRegister _ => True
  | _ => False

/-- The second source is the first one after some further requests, all of which got something. -/
structure InputSource.Reaches (i j : InputSource) : Prop where
  request : j.request = i.request
  served : ∀ k < j.position, k < i.position ∨ (i.request k).isSome

namespace Machine

variable {x : Executable} {sink : Sink} {s t : State}
  {request : Nat → Option (Except InputFault Value)}

/-! ### Another source -/

/-- A state with a source that answers otherwise, after as many requests. -/
def State.withRequests (s : State) (request : Nat → Option (Except InputFault Value)) : State :=
  { s with input := { s.input with request := request } }

def Outcome.withRequests (request : Nat → Option (Except InputFault Value)) : Outcome → Outcome
  | .running s => .running (s.withRequests request)
  | .halted s => .halted (s.withRequests request)
  | .failed e s => .failed e (s.withRequests request)
  | .stuck s => .stuck (s.withRequests request)
  | .crashed s => .crashed (s.withRequests request)

@[simp] lemma State.withRequests_frame : (s.withRequests request).frame = s.frame := rfl

@[simp] lemma State.withRequests_callers : (s.withRequests request).callers = s.callers := rfl

@[simp] lemma State.withRequests_stack : (s.withRequests request).stack = s.stack := rfl

@[simp] lemma State.withRequests_printed : (s.withRequests request).printed = s.printed := rfl

lemma Outcome.state_withRequests (o : Outcome) :
    (o.withRequests request).state = o.state.withRequests request := by
  cases o <;> rfl

/-- The source does not show in what is seen of an outcome. -/
lemma Outcome.run?_withRequests (o : Outcome) :
    (o.withRequests request).run? sink = o.run? sink := by
  cases o <;> rfl

/-! ### One step

Each of the steps that an instruction is made of leaves the source alone, except that of
reading. -/

namespace State

section

variable {routine : String} {next : Value → State → Outcome} {next₁ next₂ : Value → Outcome}

lemma pop_withRequests
    (h : ∀ v t, next v (withRequests t request) = (next v t).withRequests request) :
    (s.withRequests request).pop routine next = (s.pop routine next).withRequests request := by
  unfold pop
  rw [withRequests_stack]
  cases s.stack with
  | nil => rfl
  | cons v rest => exact h v { s with stack := rest }

lemma popMany_withRequests {next : List Value → State → Outcome} (n : Nat)
    (h : ∀ vs t, next vs (withRequests t request) = (next vs t).withRequests request) :
    (s.withRequests request).popMany routine n next =
      (s.popMany routine n next).withRequests request := by
  unfold popMany
  by_cases hlength : (s.stack.take n).length < n
  · simp only [withRequests_stack, hlength, if_true]
    rfl
  · simp only [withRequests_stack, hlength, if_false]
    exact h _ { s with stack := s.stack.drop n }

lemma slot_withRequests (n : Nat) (h : ∀ v, next₁ v = (next₂ v).withRequests request) :
    (s.withRequests request).slot n next₁ = (s.slot n next₂).withRequests request := by
  unfold slot
  rw [withRequests_frame]
  cases s.frame.slots[n]? with
  | none => rfl
  | some v => exact h v

lemma register_withRequests (n : Nat) (h : ∀ v, next₁ v = (next₂ v).withRequests request) :
    (s.withRequests request).register n next₁ = (s.register n next₂).withRequests request := by
  unfold register
  rw [withRequests_frame]
  cases s.frame.registers[n]? with
  | none => rfl
  | some v => exact h v

lemma operand_withRequests (a : Operand) (h : ∀ v, next₁ v = (next₂ v).withRequests request) :
    (s.withRequests request).operand a next₁ = (s.operand a next₂).withRequests request := by
  cases a with
  | literal v => exact h v
  | slot n => exact slot_withRequests n h
  | register n => exact register_withRequests n h

lemma registers_withRequests (rs : List Nat) {next₁ next₂ : List Value → Outcome}
    (h : ∀ vs, next₁ vs = (next₂ vs).withRequests request) :
    (s.withRequests request).registers rs next₁ = (s.registers rs next₂).withRequests request := by
  unfold registers
  rw [withRequests_frame]
  cases rs.mapM fun r => s.frame.registers[r]? with
  | none => rfl
  | some vs => exact h vs

lemma apply_withRequests (o : Operation) (vs : List Value)
    (h : ∀ v, next₁ v = (next₂ v).withRequests request) :
    (s.withRequests request).apply routine o vs next₁ =
      (s.apply routine o vs next₂).withRequests request := by
  unfold State.apply
  split
  · exact h _
  · rfl
  · rfl

lemma setSlot_withRequests (n : Nat) (v : Value) :
    (s.withRequests request).setSlot n v = (s.setSlot n v).withRequests request := by
  unfold setSlot
  rw [apply_ite (Outcome.withRequests request)]
  rfl

lemma setRegister_withRequests (n : Nat) (v : Value) :
    (s.withRequests request).setRegister n v = (s.setRegister n v).withRequests request := by
  unfold setRegister
  rw [apply_ite (Outcome.withRequests request)]
  rfl

lemma print_withRequests (v : Value) :
    (s.withRequests request).print sink v = (s.print sink v).withRequests request := by
  unfold print
  rw [apply_ite (Outcome.withRequests request)]
  rfl

lemma branchIf_withRequests (c : Condition) (vs : List Value) (target : Nat) :
    (s.withRequests request).branchIf c vs target =
      (s.branchIf c vs target).withRequests request := by
  unfold branchIf
  cases c.holds? vs with
  | none => rfl
  | some holds => cases holds <;> rfl

lemma call_withRequests (callee : Nat) (vs : List Value) (place : ReturnTo) :
    (s.withRequests request).call x callee vs place =
      (s.call x callee vs place).withRequests request := by
  unfold call
  cases x.procedures[callee]? with
  | none => rfl
  | some r =>
    simp only [apply_ite (Outcome.withRequests request)]
    rfl

lemma ret_withRequests (v : Value) :
    (s.withRequests request).ret v = (s.ret v).withRequests request := by
  unfold ret
  rw [withRequests_callers]
  cases s.callers with
  | nil => rfl
  | cons caller callers =>
    simp only [withRequests_frame]
    cases s.frame.returnTo with
    | stack => rfl
    | register r =>
      exact setRegister_withRequests (s := { s with frame := caller, callers := callers }) r v

lemma read_withRequests
    (hnext : ∀ v t, next v (withRequests t request) = (next v t).withRequests request)
    (h : request s.input.position = s.input.request s.input.position) :
    (s.withRequests request).read next = (s.read next).withRequests request := by
  have hsource : (s.withRequests request).input.next? = s.input.next?.map fun a =>
      (a.1, { a.2 with request := request }) := by
    simp only [InputSource.next?, withRequests, h, Option.map_map]
    rfl
  unfold read
  rw [hsource]
  cases s.input.next? with
  | none => rfl
  | some a =>
    obtain ⟨item, rest⟩ := a
    cases item with
    | error e => rfl
    | ok v => exact hnext v { s with input := rest }

end

/-- An instruction does the same on two sources that give it the same answer, if it asks. -/
lemma execute_withRequests {i : LinkedInstr} (routine : String)
    (h : i.Reads → request s.input.position = s.input.request s.input.position) :
    (s.withRequests request).execute x sink routine i =
      (s.execute x sink routine i).withRequests request := by
  cases i with unfold execute
  | pushConstant v => rfl
  | pushVariable n => exact slot_withRequests n fun v => rfl
  | popVariable n => exact pop_withRequests fun v t => setSlot_withRequests n v
  | operate o => exact popMany_withRequests _ fun vs t => apply_withRequests o vs fun v => rfl
  | input => exact read_withRequests (fun v t => rfl) (h trivial)
  | print => exact pop_withRequests fun v t => print_withRequests v
  | drop => exact pop_withRequests fun v t => rfl
  | branch target => rfl
  | branchIf c target => exact popMany_withRequests _ fun vs t => branchIf_withRequests c vs target
  | call f n => exact popMany_withRequests n fun vs t => call_withRequests f vs .stack
  | ret => exact pop_withRequests fun v t => ret_withRequests v
  | move a b =>
    cases b with
    | slot n => exact operand_withRequests a fun v => setSlot_withRequests n v
    | register n => exact operand_withRequests a fun v => setRegister_withRequests n v
  | operateRegisters o rs r =>
    exact registers_withRequests rs fun vs =>
      apply_withRequests o vs fun v => setRegister_withRequests r v
  | inputRegister r => exact read_withRequests (fun v t => setRegister_withRequests r v) (h trivial)
  | printRegister r => exact register_withRequests r fun v => print_withRequests v
  | branchIfRegisters c rs target =>
    exact registers_withRequests rs fun vs => branchIf_withRequests c vs target
  | callRegisters f first n r =>
    exact registers_withRequests _ fun vs => call_withRequests f vs (.register r)
  | retRegister r => exact register_withRequests r fun v => ret_withRequests v

/-- An instruction that does not read leaves the source where it is and never finds it
exhausted. -/
lemma execute_of_not_reads {i : LinkedInstr} (routine : String) (h : ¬i.Reads) :
    (s.execute x sink routine i).state.input = s.input ∧
      ∀ t, s.execute x sink routine i ≠ .failed .inputExhausted t := by
  cases i with
  | input | inputRegister => exact absurd trivial h
  | move a b =>
    cases a <;> cases b <;>
      simp only [execute, operand, slot, register, setSlot, setRegister] <;> repeat' split
    all_goals simp [Outcome.state]
  | _ =>
    simp only [execute, pop, popMany, slot, register, registers, State.apply, branchIf, call, ret,
      print, setSlot, setRegister]
    repeat' split
    all_goals simp [Outcome.state, push, goTo]

/-- An instruction that reads puts the value somewhere and cannot fail then. -/
lemma exists_execute_eq_read {i : LinkedInstr} (routine : String) (h : i.Reads) :
    ∃ next, s.execute x sink routine i = s.read next ∧
      ∀ v t, (next v t).state.input = t.input ∧ ∀ e u, next v t ≠ .failed e u := by
  cases i with
  | input => exact ⟨fun v t => .running (t.push v), rfl, fun v t => by simp [Outcome.state, push]⟩
  | inputRegister r =>
    refine ⟨fun v t => t.setRegister r v, rfl, fun v t => ?_⟩
    simp only [setRegister]
    split <;> simp [Outcome.state]
  | _ => cases h

end State

/-- The next instruction reads. -/
def State.Asks (x : Executable) (s : State) : Prop :=
  ∃ r i, x.routine? s.frame.routine = some r ∧ r.code[s.frame.pc]? = some i ∧ i.Reads

lemma step_withRequests
    (h : s.Asks x → request s.input.position = s.input.request s.input.position) :
    step x sink (s.withRequests request) = (step x sink s).withRequests request := by
  cases hr : x.routine? s.frame.routine with
  | none =>
    unfold step
    simp only [State.withRequests_frame, hr]
    rfl
  | some r =>
    cases hi : r.code[s.frame.pc]? with
    | none =>
      rw [step_eq_of_end hr hi, step_eq_of_end (s := s.withRequests request) hr hi,
        apply_ite (Outcome.withRequests request)]
      rfl
    | some i =>
      rw [step_eq_execute hr hi, step_eq_execute (s := s.withRequests request) hr hi]
      exact State.execute_withRequests (s := s.goTo (s.frame.pc + 1)) r.name.text
        fun hreads => h ⟨r, i, hr, hi, hreads⟩

/-- A step that does not ask leaves the source where it is and never finds it exhausted. -/
lemma step_of_not_asks (sink : Sink) (h : ¬s.Asks x) :
    (step x sink s).state.input = s.input ∧ ∀ t, step x sink s ≠ .failed .inputExhausted t := by
  cases hr : x.routine? s.frame.routine with
  | none =>
    unfold step
    simp only [hr]
    exact ⟨rfl, fun t => by simp⟩
  | some r =>
    cases hi : r.code[s.frame.pc]? with
    | none =>
      rw [step_eq_of_end hr hi]
      split <;> simp [Outcome.state]
    | some i =>
      rw [step_eq_execute hr hi]
      exact State.execute_of_not_reads (s := s.goTo (s.frame.pc + 1)) r.name.text
        fun hreads => h ⟨r, i, hr, hi, hreads⟩

/-- What a step that asks makes of the answer. -/
lemma State.Asks.step_eq (sink : Sink) (h : s.Asks x) :
    ∃ next, step x sink s = (s.goTo (s.frame.pc + 1)).read next ∧
      ∀ v t, (next v t).state.input = t.input ∧ ∀ e u, next v t ≠ .failed e u := by
  obtain ⟨r, i, hr, hi, hreads⟩ := h
  rw [step_eq_execute hr hi]
  exact State.exists_execute_eq_read r.name.text hreads

/-! ### Asking in vain -/

/-- The next instruction reads, and the source has come to its end. -/
structure State.AsksInVain (x : Executable) (s : State) : Prop where
  asks : s.Asks x
  nothing : s.input.request s.input.position = none

lemma State.AsksInVain.step_eq (h : s.AsksInVain x) (sink : Sink) :
    ∃ t, step x sink s = .failed .inputExhausted t ∧ t.printed = s.printed := by
  obtain ⟨next, hstep, -⟩ := h.asks.step_eq sink
  refine ⟨s.goTo (s.frame.pc + 1), ?_, rfl⟩
  rw [hstep, State.read, InputSource.next?]
  simp only [State.goTo, h.nothing, Option.map_none]

/-- A step that asks and gets a fault fails with it. -/
lemma step_of_fault {e : InputFault} (hasks : s.Asks x)
    (h : s.input.request s.input.position = some (.error e)) (sink : Sink) :
    ∃ t, step x sink s = .failed (.input e) t ∧ t.printed = s.printed := by
  obtain ⟨next, hstep, -⟩ := hasks.step_eq sink
  rw [hstep, State.read, InputSource.next?]
  simp only [State.goTo, h, Option.map_some]
  exact ⟨_, rfl, rfl⟩

/-- A step that finds the source exhausted has asked in vain. -/
lemma asksInVain_of_step (h : step x sink s = .failed .inputExhausted t) : s.AsksInVain x := by
  by_cases hasks : s.Asks x
  · refine ⟨hasks, ?_⟩
    obtain ⟨next, hstep, hnext⟩ := hasks.step_eq sink
    cases hitem : s.input.request s.input.position with
    | none => rfl
    | some item =>
      rw [hstep, State.read, InputSource.next?] at h
      simp only [State.goTo, hitem, Option.map_some] at h
      cases item with
      | error e => cases h
      | ok v => exact absurd h ((hnext v _).2 _ _)
  · exact absurd h ((step_of_not_asks sink hasks).2 t)

/-! ### Sources along a run -/

lemma step_reaches (x : Executable) (sink : Sink) (s : State) :
    s.input.Reaches (step x sink s).state.input := by
  by_cases hasks : s.Asks x
  · obtain ⟨next, hstep, hnext⟩ := hasks.step_eq sink
    rw [hstep, State.read, InputSource.next?]
    simp only [State.goTo]
    cases hitem : s.input.request s.input.position with
    | none => exact ⟨rfl, fun k hk => .inl hk⟩
    | some item =>
      have hserved : s.input.Reaches { s.input with position := s.input.position + 1 } := by
        refine ⟨rfl, fun k hk => (Nat.lt_succ_iff_lt_or_eq.mp hk).imp_right ?_⟩
        rintro rfl
        rw [hitem, Option.isSome_some]
      cases item with
      | error e => exact hserved
      | ok v =>
        rw [Option.map_some]
        simp only [(hnext v _).1]
        exact hserved
  · rw [(step_of_not_asks sink hasks).1]
    exact ⟨rfl, fun k hk => .inl hk⟩

lemma after_reaches (x : Executable) (sink : Sink) (n : Nat) (o : Outcome) :
    o.state.input.Reaches (after x sink n o).state.input := by
  induction n generalizing o with
  | zero => exact ⟨rfl, fun k hk => .inl hk⟩
  | succ n ih =>
    cases o with
    | running s =>
      have hstep := step_reaches x sink s
      have hrest := ih (step x sink s)
      refine ⟨hrest.request.trans hstep.request, fun k hk => ?_⟩
      rcases hrest.served k hk with hk | hk
      · exact hstep.served k hk
      · rw [hstep.request] at hk
        exact .inr hk
    | halted s | failed e s | stuck s | crashed s => exact ⟨rfl, fun k hk => .inl hk⟩

/-! ### Runs in lockstep -/

/-- A run does not depend on what its source does not have, until it asks for it. -/
lemma after_withRequests {n : Nat}
    (hrequest : ∀ k item, s.input.request k = some item → request k = some item)
    (h : ∀ t, after x sink n (.running s) ≠ .failed .inputExhausted t) :
    after x sink n (.running (s.withRequests request)) =
      (after x sink n (.running s)).withRequests request := by
  induction n generalizing s with
  | zero => rfl
  | succ n ih =>
    have hagree : s.Asks x → request s.input.position = s.input.request s.input.position := by
      intro hasks
      cases hitem : s.input.request s.input.position with
      | some item => exact hrequest _ _ hitem
      | none =>
        obtain ⟨t, ht, -⟩ := State.AsksInVain.step_eq ⟨hasks, hitem⟩ sink
        refine absurd ?_ (h t)
        rw [after_succ_running, ht, after_failed]
    rw [after_succ_running, after_succ_running, step_withRequests hagree]
    rw [after_succ_running] at h
    have hsource := (step_reaches x sink s).request
    cases hs : step x sink s with
    | running t =>
      rw [hs] at h hsource
      refine ih (fun k item hitem => hrequest k item ?_) h
      rw [← hsource]
      exact hitem
    | halted t => rw [after_halted]; exact after_halted n _
    | failed e t => rw [after_failed]; exact after_failed n e _
    | stuck t => rw [after_stuck]; exact after_stuck n _
    | crashed t => rw [after_crashed]; exact after_crashed n _

/-- A run that found its source exhausted has asked in vain a step before. -/
lemma exists_asksInVain {n : Nat}
    (h : after x sink n (.running s) = .failed .inputExhausted t) :
    ∃ m u, m < n ∧ after x sink m (.running s) = .running u ∧ u.AsksInVain x ∧
      u.printed = t.printed := by
  induction n generalizing s with
  | zero => cases h
  | succ n ih =>
    rw [after_succ_running] at h
    cases hs : step x sink s with
    | running u =>
      rw [hs] at h
      obtain ⟨m, w, hm, hw, hvain, hprinted⟩ := ih h
      refine ⟨m + 1, w, Nat.succ_lt_succ hm, ?_, hvain, hprinted⟩
      rw [after_succ_running, hs, hw]
    | halted u => rw [hs, after_halted] at h; cases h
    | stuck u => rw [hs, after_stuck] at h; cases h
    | crashed u => rw [hs, after_crashed] at h; cases h
    | failed e u =>
      rw [hs, after_failed] at h
      cases h
      have hvain := asksInVain_of_step hs
      obtain ⟨w, hw, hprinted⟩ := hvain.step_eq sink
      rw [hw] at hs
      cases hs
      exact ⟨0, s, Nat.succ_pos n, rfl, hvain, hprinted.symm⟩

end Machine

/-! ### Inputs and their continuations -/

/-- A source that gives what is in an input, and then what another source has left. -/
def Input.followedBy (xs : Input) (ys : InputSource) : InputSource where
  request k := if k < xs.length then xs[k]? else ys.request (ys.position + (k - xs.length))

namespace Input

variable {xs : Input} {ys : InputSource}

lemma request_followedBy_of_some {k : Nat} {item : Except InputFault Value}
    (h : xs[k]? = some item) : (xs.followedBy ys).request k = some item :=
  (if_pos (List.getElem?_eq_some_iff.mp h).1).trans h

lemma followedBy_followedBy (xs zs : Input) (ys : InputSource) :
    (xs ++ zs).followedBy ys = xs.followedBy (zs.followedBy ys) := by
  have hrequest (k : Nat) :
      ((xs ++ zs).followedBy ys).request k = (xs.followedBy (zs.followedBy ys)).request k := by
    simp only [followedBy, List.length_append]
    by_cases hx : k < xs.length
    · rw [if_pos hx, if_pos (by omega), List.getElem?_append_left hx]
    · have hsub : k < xs.length + zs.length ↔ k - xs.length < zs.length := by omega
      rw [if_neg hx, List.getElem?_append_right (Nat.le_of_not_lt hx)]
      simp only [hsub, Nat.zero_add, Nat.sub_sub]
  exact congrArg (InputSource.mk · 0) (funext hrequest)

/-- A finite continuation makes a longer input. -/
lemma followedBy_ofInput (xs zs : Input) :
    xs.followedBy (.ofInput zs) = .ofInput (xs ++ zs) := by
  have hrequest (k : Nat) : (xs.followedBy (.ofInput zs)).request k =
      (InputSource.ofInput (xs ++ zs)).request k := by
    simp only [followedBy, InputSource.ofInput, List.getElem?_toArray, List.getElem?_append,
      Nat.zero_add]
  exact congrArg (InputSource.mk · 0) (funext hrequest)

end Input

namespace Machine

variable {x : Executable} {sink : Sink} {t : State}

section

variable {n : Nat} {xs : Input} (ys : InputSource)

lemma start_followedBy : start x (xs.followedBy ys) =
    (start x (.ofInput xs)).withRequests (xs.followedBy ys).request := by
  unfold start
  rw [apply_ite (Outcome.withRequests (xs.followedBy ys).request)]
  rfl

lemma after_followedBy (h : ∀ t, after x sink n (start x (.ofInput xs)) ≠
      .failed .inputExhausted t) :
    after x sink n (start x (xs.followedBy ys)) =
      (after x sink n (start x (.ofInput xs))).withRequests (xs.followedBy ys).request := by
  rw [start_followedBy]
  cases hs : start x (.ofInput xs) with
  | running s =>
    rw [hs] at h
    refine after_withRequests (fun k item hitem => ?_) h
    have hsource : s.input = .ofInput xs := by
      have hstate := start_state x (.ofInput xs)
      rw [hs] at hstate
      exact congrArg State.input hstate
    rw [hsource] at hitem
    exact Input.request_followedBy_of_some (by simpa [InputSource.ofInput] using hitem)
  | halted s => rw [after_halted]; exact after_halted n _
  | failed e s => rw [after_failed]; exact after_failed n e _
  | stuck s => rw [after_stuck]; exact after_stuck n _
  | crashed s => rw [after_crashed]; exact after_crashed n _

/-- A run that asks in vain has read its whole input, and so has the run on more input. -/
lemma exists_asks_of_exhausted
    (h : after x sink n (start x (.ofInput xs)) = .failed .inputExhausted t) :
    ∃ (m : Nat) (u : State), m < n ∧ u.Asks x ∧ u.input.position = xs.length ∧
      u.printed = t.printed ∧ after x sink m (start x (xs.followedBy ys)) =
        .running (u.withRequests (xs.followedBy ys).request) := by
  have hfits : x.main.Fits := by
    by_contra hfits
    rw [start, if_neg hfits, after_crashed] at h
    cases h
  have hstart : start x (.ofInput xs) = .running (.start x (.ofInput xs)) := if_pos hfits
  rw [hstart] at h
  obtain ⟨m, u, hm, hu, hvain, hprinted⟩ := exists_asksInVain h
  have hreaches := after_reaches x sink m (.running (.start x (.ofInput xs)))
  rw [hu] at hreaches
  have hrequest : ∀ k, u.input.request k = xs[k]? := by
    intro k
    rw [show u.input.request = _ from hreaches.request]
    simp [Outcome.state, State.start, InputSource.ofInput]
  have hle : xs.length ≤ u.input.position := by
    have hnothing := hvain.nothing
    rwa [hrequest, List.getElem?_eq_none_iff] at hnothing
  have hge : u.input.position ≤ xs.length := by
    by_contra hlt
    rcases hreaches.served xs.length (Nat.lt_of_not_le hlt) with hk | hk
    · exact Nat.not_lt_zero _ hk
    · simp [Outcome.state, State.start, InputSource.ofInput] at hk
  refine ⟨m, u, hm, hvain.asks, Nat.le_antisymm hge hle, hprinted, ?_⟩
  rw [after_followedBy ys (by simp [hstart, hu]), hstart, hu]
  rfl

/-- Up to any moment, a run on more input has printed what the run on less has printed. -/
lemma printedAfter_followedBy (n : Nat) :
    printedAfter x (.ofInput xs) sink n <+: printedAfter x (xs.followedBy ys) sink n := by
  by_cases h : ∀ t, after x sink n (start x (.ofInput xs)) ≠ .failed .inputExhausted t
  · rw [printedAfter, printedAfter, after_followedBy ys h, Outcome.state_withRequests]
    exact List.prefix_rfl
  · push Not at h
    obtain ⟨t, ht⟩ := h
    obtain ⟨m, u, hm, -, -, hprinted, hu⟩ := exists_asks_of_exhausted ys ht
    have hlater : _ <+: printedAfter x (xs.followedBy ys) sink n := after_printed hm.le _
    rw [hu] at hlater
    rw [printedAfter, ht]
    exact hprinted ▸ hlater

/-- A run that has not found its input exhausted is the same on every continuation. -/
lemma run_followedBy_of_settled
    (h : ∀ r ∈ run x (.ofInput xs) sink n, r.ending ≠ .failed .inputExhausted) :
    run x (xs.followedBy ys) sink n = run x (.ofInput xs) sink n ∧
      printedAfter x (xs.followedBy ys) sink n = printedAfter x (.ofInput xs) sink n := by
  simp only [run_eq_run?] at h ⊢
  have hsettled : ∀ t, after x sink n (start x (.ofInput xs)) ≠ .failed .inputExhausted t := by
    intro t ht
    rw [ht] at h
    exact h _ rfl rfl
  rw [printedAfter, after_followedBy ys hsettled, Outcome.run?_withRequests,
    Outcome.state_withRequests]
  exact ⟨rfl, rfl⟩

end

lemma run_of_le {input : InputSource} {m n : Nat} {r : Run} (hmn : m ≤ n)
    (h : run x input sink m = some r) : run x input sink n = some r := by
  rw [run_eq_run?] at h ⊢
  rw [after_eq_of_ended hmn h, h]

lemma printed_of_run {input : InputSource} {n : Nat} {r : Run}
    (h : run x input sink n = some r) : r.printed.toList = printedAfter x input sink n := by
  rw [run_eq_run?] at h
  rw [printedAfter]
  cases ho : after x sink n (start x input) with rw [ho] at h
  | running s => cases h
  | halted s | failed e s | stuck s | crashed s =>
    cases h
    rfl

/-- What is left of a run when a fault stands where its input would end: it fails if it reads
that far. -/
def Run.stoppedBy (e : InputFault) (r : Run) : Run :=
  if r.ending = .failed .inputExhausted then ⟨.failed (.input e), r.printed⟩ else r

/-- A fault ends the input. All that comes behind it is never read. -/
lemma run_fault (x : Executable) (sink : Sink) (n : Nat) (xs : Input) (e : InputFault)
    (ys : InputSource) :
    run x (Input.followedBy (xs ++ [.error e]) ys) sink n =
      (run x (.ofInput xs) sink n).map (Run.stoppedBy e) := by
  rw [Input.followedBy_followedBy, run_eq_run?, run_eq_run?]
  by_cases h : ∀ t, after x sink n (start x (.ofInput xs)) ≠ .failed .inputExhausted t
  · rw [after_followedBy _ h, Outcome.run?_withRequests]
    cases ho : after x sink n (start x (.ofInput xs)) with
    | running t => rfl
    | halted t =>
      simp only [Outcome.run?, finish, Option.map_some, Run.stoppedBy]
      split <;> simp
    | stuck t => rfl
    | crashed t => rfl
    | failed e' t =>
      have he : e' ≠ .inputExhausted := by
        rintro rfl
        exact h t ho
      simp [Outcome.run?, Run.stoppedBy, he]
  · push Not at h
    obtain ⟨t, ht⟩ := h
    let rest := Input.followedBy [.error e] ys
    obtain ⟨m, u, hm, hasks, hposition, hprinted, hu⟩ := exists_asks_of_exhausted rest ht
    have hfault : (xs.followedBy rest).request u.input.position = some (.error e) := by
      simp [rest, Input.followedBy, hposition]
    obtain ⟨w, hw, hsame⟩ := step_of_fault (s := u.withRequests (xs.followedBy rest).request) hasks
      hfault sink
    have hend : after x sink (m + 1) (start x (xs.followedBy rest)) = .failed (.input e) w := by
      rw [after_succ, hu, after_succ_running, hw, after_zero]
    rw [after_eq_of_ended (r := ⟨.failed (.input e), w.printed⟩) hm (by rw [hend]; rfl), hend, ht]
    simp [Outcome.run?, Run.stoppedBy, hsame, hprinted]

end Machine

namespace Input

/-- A line that reads as a fault gives that fault, wherever it stands. -/
lemma ofBytes_append_fault {before line after : List UInt8} {e : InputFault}
    (hbefore : ∀ b ∈ before.getLast?, b = 10) (hafter : ∀ b ∈ after.head?, b = 10)
    (hline : 10 ∉ line) (hfault : ofBytes line = [.error e]) :
    ofBytes (before ++ (line ++ after)) = ofBytes before ++ .error e :: ofBytes after.tail := by
  have hne : line ≠ [] := by
    rintro rfl
    cases hfault
  have hlines : Text.lines 10 (line ++ after) = [line] ++ Text.lines 10 after.tail := by
    cases after with
    | nil => rw [List.append_nil, Text.lines_eq_singleton hne hline]; rfl
    | cons b after =>
      rw [hafter b rfl]
      exact Text.lines_append_feed hline after
  rw [ofBytes, Text.lines_eq_singleton hne hline] at hfault
  rw [ofBytes, Text.lines_append hbefore, hlines, List.filterMap_append, List.filterMap_append,
    hfault]
  rfl

end Input

namespace Machine

/-- A run depends on the input that it reads and on no other. If it ends on some input, and not
because that is exhausted, it ends in the same way and with the same output whatever source
continues that input. If it ends because the input is exhausted, then what it has printed is the
beginning of what it prints with every continuation, whether or not it ends there. If it goes on,
it goes on there. A faulty item, whatever comes behind it, makes a difference only where the run
without it would have found the input exhausted, and so does a faulty line of a text. -/
theorem run_depends_on_input_read (x : Executable) (sink : Sink) (n : Nat) :
    (∀ (xs : Input) r, run x (.ofInput xs) sink n = some r →
      r.ending ≠ .failed .inputExhausted →
        ∀ ys, run x (xs.followedBy ys) sink n = some r) ∧
    (∀ (xs : Input) r, run x (.ofInput xs) sink n = some r →
      r.ending = .failed .inputExhausted → ∀ ys,
        (∀ m, n ≤ m → r.printed.toList <+: printedAfter x (xs.followedBy ys) sink m) ∧
        ∀ m r', run x (xs.followedBy ys) sink m = some r' →
          r.printed.toList <+: r'.printed.toList) ∧
    (∀ xs : Input, run x (.ofInput xs) sink n = none → ∀ ys,
      run x (xs.followedBy ys) sink n = none ∧
        printedAfter x (xs.followedBy ys) sink n = printedAfter x (.ofInput xs) sink n) ∧
    (∀ (xs : Input) e ys, run x (Input.followedBy (xs ++ [.error e]) ys) sink n =
      (run x (.ofInput xs) sink n).map (Run.stoppedBy e)) ∧
    ∀ before line after e, (∀ b ∈ before.getLast?, b = 10) → (∀ b ∈ after.head?, b = 10) →
      10 ∉ line → Input.ofBytes line = [.error e] →
        run x (.ofInput (.ofBytes (before ++ (line ++ after)))) sink n =
          (run x (.ofInput (.ofBytes before)) sink n).map (Run.stoppedBy e) := by
  refine ⟨fun xs r hr hne ys => ?_, fun xs r hr he ys => ?_, fun xs hr ys => ?_,
    fun xs e ys => run_fault x sink n xs e ys, ?_⟩
  · rw [← hr]
    exact (run_followedBy_of_settled ys (by simpa [hr] using hne)).1
  · have hstart : ∀ m, n ≤ m →
        r.printed.toList <+: printedAfter x (xs.followedBy ys) sink m := by
      intro m hm
      rw [printed_of_run hr]
      exact (printedAfter_followedBy ys n).trans (after_printed hm _)
    refine ⟨hstart, fun m r' hr' => ?_⟩
    rw [printed_of_run (run_of_le (le_max_right n m) hr')]
    exact hstart (max n m) (le_max_left n m)
  · rw [← hr]
    exact run_followedBy_of_settled ys (by simp [hr])
  · intro before line after e hbefore hafter hline hfault
    rw [Input.ofBytes_append_fault hbefore hafter hline hfault, List.append_cons,
      ← Input.followedBy_ofInput, run_fault]

/-- Print what is read, in main and then in a procedure. -/
def gather : Assembly where
  source := "gather"
  procedures := [⟨.procedure "next", 0, [.instr .input, .instr .ret]⟩]
  main :=
    .main [.instr (.inputRegister 0), .instr (.printRegister 0), .instr (.call "next" 0),
      .instr .print]

/-- With two values there is nothing more to ask for, with one the second request is in vain. A
line that is no number stops the run, and with it goes what follows. -/
theorem gather_depends_on_input_read :
    ∃ x, gather.link = .ok x ∧
      (∀ ys, run x (Input.followedBy [.ok 7, .ok 8] ys) .endless 7 = some ⟨.halted, #[7, 8]⟩) ∧
      (run x (.ofInput [.ok 7]) .endless 4 = some ⟨.failed .inputExhausted, #[7]⟩ ∧
        ∀ ys m, 4 ≤ m → [7] <+: printedAfter x (Input.followedBy [.ok 7] ys) .endless m) ∧
      run x (.ofInput (.ofBytes [55, 10, 255, 10, 56])) .endless 7 =
        some ⟨.failed (.input .unreadable), #[7]⟩ := by
  obtain ⟨x, hlink, htwo, hone, hline⟩ : ∃ x, gather.link = .ok x ∧
      run x (.ofInput [.ok 7, .ok 8]) .endless 7 = some ⟨.halted, #[7, 8]⟩ ∧
      run x (.ofInput [.ok 7]) .endless 4 = some ⟨.failed .inputExhausted, #[7]⟩ ∧
      run x (.ofInput (.ofBytes [55, 10])) .endless 7 = some ⟨.failed .inputExhausted, #[7]⟩ :=
    ⟨_, rfl, by decide +kernel, by decide +kernel, by decide +kernel⟩
  refine ⟨x, hlink, fun ys => ?_, ⟨hone, fun ys m hm => ?_⟩, ?_⟩
  · exact (run_depends_on_input_read x .endless 7).1 _ _ htwo (by decide) ys
  · exact ((run_depends_on_input_read x .endless 4).2.1 _ _ hone rfl ys).1 m hm
  · have hfault := (run_depends_on_input_read x .endless 7).2.2.2.2 [55, 10] [255] [10, 56]
      .unreadable (by simp) (by simp) (by decide) (by decide +kernel)
    exact hfault.trans (by rw [hline]; rfl)

end Machine

end Izmir
