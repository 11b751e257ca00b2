import Izmir.Proofs.Safety

/-!
# Frames across calls

A call puts a frame on top of those that are there, and only a return takes it away again. As an
instruction changes no frame but the running one, the frames below the callee stay as they were,
with the caller at the position behind the call, however many calls the callee makes itself. The
callee's frame keeps where its result is wanted, so that the call decides where the result goes
and the return instruction does not.
-/

namespace Izmir

/-- Where a call wants the result of its callee. -/
def LinkedInstr.resultPlace : LinkedInstr → Machine.ReturnTo
  | .callRegisters _ _ _ r => .register r
  | _ => .stack

namespace Machine

variable {x : Executable} {sink : Sink} {s t u w : State} {i : LinkedInstr} {routine : String}
  {v : Value} {rest : List Value}

/-- A state is about to return a value by some instruction, with the other values that are on
the operand stack then. -/
inductive State.Returns (s : State) (v : Value) (rest : List Value) : LinkedInstr → Prop
  | ret : s.stack = v :: rest → s.Returns v rest .ret
  | retRegister {r : Nat} : s.frame.registers[r]? = some v → s.stack = rest →
      s.Returns v rest (.retRegister r)

/-! ### What one step does to the frames -/

/-- An instruction that neither calls nor returns stays in its frame. -/
lemma State.execute_stay (hcall : i.call? = none) (hret : i.isReturn = false)
    (h : s.execute x sink routine i = .running t) :
    t.callers = s.callers ∧ t.frame.routine = s.frame.routine ∧
      t.frame.returnTo = s.frame.returnTo := by
  obtain rfl : (s.execute x sink routine i).state = t := by rw [h]; rfl
  clear h
  cases i with
  | call | callRegisters => cases hcall
  | ret | retRegister => cases hret
  | move a b =>
    cases a <;> cases b <;>
      simp only [execute, operand, slot, register, setSlot, setRegister] <;> repeat' split
    all_goals exact ⟨rfl, rfl, rfl⟩
  | _ =>
    simp only [execute, pop, popMany, slot, register, registers, read, State.apply, branchIf,
      print, setSlot, setRegister]
    repeat' split
    all_goals exact ⟨rfl, rfl, rfl⟩

lemma State.call_eq_running {callee : Nat} {vs : List Value} {place : ReturnTo}
    (h : s.call x callee vs place = .running t) :
    t.callers = s.frame :: s.callers ∧ t.frame.routine = .procedure callee ∧
      t.frame.returnTo = place := by
  unfold State.call at h
  split at h
  · cases h
  · split at h
    · cases h
    · split at h
      · cases h
        exact ⟨rfl, rfl, rfl⟩
      · cases h

/-- A call enters a frame of its callee, above that of the caller. -/
lemma State.execute_call {callee n : Nat} (hcall : i.call? = some (callee, n))
    (h : s.execute x sink routine i = .running t) :
    t.callers = s.frame :: s.callers ∧ t.frame.routine = .procedure callee ∧
      t.frame.returnTo = i.resultPlace := by
  cases i with
  | call f k =>
    cases hcall
    simp only [State.execute, State.popMany] at h
    split at h
    · cases h
    · obtain ⟨hcallers, hroutine, hplace⟩ := State.call_eq_running h
      exact ⟨hcallers, hroutine, hplace⟩
  | callRegisters f first k r =>
    cases hcall
    simp only [State.execute, State.registers] at h
    split at h
    · exact State.call_eq_running h
    · cases h
  | _ => cases hcall

/-- Both return instructions leave the routine in the same way. -/
lemma State.Returns.execute_eq (h : s.Returns v rest i) :
    s.execute x sink routine i = State.ret { s with stack := rest } v := by
  cases h with
  | ret hs => rw [State.execute, State.pop_eq hs]
  | retRegister hr hs =>
    subst hs
    rw [State.execute, State.register_eq hr]

lemma State.returns_of_execute (hret : i.isReturn = true)
    (h : s.execute x sink routine i = .running t) : ∃ v rest, s.Returns v rest i := by
  cases i with
  | ret =>
    simp only [State.execute, State.pop] at h
    split at h
    · cases h
    · next v rest hs => exact ⟨v, rest, .ret hs⟩
  | retRegister r =>
    simp only [State.execute, State.register] at h
    split at h
    · next v hv => exact ⟨v, s.stack, .retRegister hv rfl⟩
    · cases h
  | _ => cases hret

/-- A frame after a result has been put where it is wanted, if that is in a register. -/
def Frame.receive (f : Frame) (v : Value) : ReturnTo → Frame
  | .stack => f
  | .register r => { f with registers := f.registers.setIfInBounds r v }

/-- The state in which a caller goes on after its callee has left some values on the operand
stack and returned another one. -/
def State.resume (s : State) (caller : Frame) (callers : List Frame) (v : Value) : State :=
  { s with
    frame := caller.receive v s.frame.returnTo
    callers := callers
    stack := if s.frame.returnTo = .stack then v :: s.stack else s.stack }

lemma State.ret_eq {caller : Frame} {callers : List Frame} (hc : s.callers = caller :: callers)
    (h : s.frame.ReturnsTo caller) : s.ret v = .running (s.resume caller callers v) := by
  unfold State.ret State.resume
  rw [hc]
  cases hplace : s.frame.returnTo with
  | stack => rfl
  | register r => exact State.setRegister_eq (h r hplace)

/-- A routine that has left goes on in a caller, which has the register for the result. -/
lemma State.ret_eq_running (h : s.ret v = .running t) :
    ∃ caller, s.callers = caller :: t.callers ∧ s.frame.ReturnsTo caller ∧
      t = s.resume caller t.callers v := by
  obtain ⟨caller, callers, hc⟩ : ∃ caller callers, s.callers = caller :: callers := by
    cases hc : s.callers with
    | nil =>
      unfold State.ret at h
      rw [hc] at h
      cases h
    | cons caller callers => exact ⟨caller, callers, rfl⟩
  have hto : s.frame.ReturnsTo caller := by
    intro k hk
    by_contra hlt
    unfold State.ret State.setRegister at h
    simp only [hc, hk, if_neg hlt] at h
    cases h
  rw [State.ret_eq hc hto] at h
  cases h
  exact ⟨caller, hc, hto, rfl⟩

/-- The frames that wait while the call at which a state stands is carried out. -/
def State.waiting (s : State) : List Frame :=
  { s.frame with pc := s.frame.pc + 1 } :: s.callers

/-- What an instruction can do to the frames: it stays in the running one, calls or returns. -/
inductive FrameStep (s : State) (i : LinkedInstr) (t : State) : Prop
  | stay : i.call? = none → t.callers = s.callers → t.frame.routine = s.frame.routine →
      t.frame.returnTo = s.frame.returnTo → FrameStep s i t
  | enter {callee n : Nat} : i.call? = some (callee, n) → t.callers = s.waiting →
      t.frame.routine = .procedure callee → t.frame.returnTo = i.resultPlace → FrameStep s i t
  | leave {caller : Frame} {v : Value} {rest : List Value} : s.Returns v rest i →
      s.callers = caller :: t.callers → s.frame.ReturnsTo caller →
      t.frame = caller.receive v s.frame.returnTo →
      t.stack = (if s.frame.returnTo = .stack then v :: rest else rest) → FrameStep s i t

lemma State.returns_goTo_iff {n : Nat} :
    (s.goTo n).Returns v rest i ↔ s.Returns v rest i := by
  constructor
  all_goals
    intro h
    cases h with
    | ret hs => exact .ret hs
    | retRegister hr hs => exact .retRegister hr hs

lemma step_frames (h : step x sink s = .running t) :
    ∃ r i, x.routine? s.frame.routine = some r ∧ r.code[s.frame.pc]? = some i ∧
      FrameStep s i t := by
  obtain ⟨r, i, hr, hi, he⟩ : ∃ r i, x.routine? s.frame.routine = some r ∧
      r.code[s.frame.pc]? = some i ∧
        (s.goTo (s.frame.pc + 1)).execute x sink r.name.text i = .running t := by
    unfold step at h
    split at h
    · cases h
    · next r hr =>
      split at h
      · next i hi => exact ⟨r, i, hr, hi, h⟩
      · split at h <;> cases h
  refine ⟨r, i, hr, hi, ?_⟩
  cases hcall : i.call? with
  | some call =>
    obtain ⟨hcallers, hroutine, hplace⟩ := State.execute_call hcall he
    exact .enter hcall hcallers hroutine hplace
  | none =>
    cases hret : i.isReturn with
    | false =>
      obtain ⟨hcallers, hroutine, hplace⟩ := State.execute_stay hcall hret he
      exact .stay hcall hcallers hroutine hplace
    | true =>
      obtain ⟨v, rest, hv⟩ := State.returns_of_execute hret he
      rw [hv.execute_eq] at he
      obtain ⟨caller, hc, hto, ht⟩ := State.ret_eq_running he
      refine .leave (State.returns_goTo_iff.mp hv) hc hto ?_ ?_
      · rw [ht]; rfl
      · rw [ht]; rfl

/-! ### What a run does to the frames below a callee -/

/-- The caller goes on after a call, and finds all frames as they were: its own too, but for the
result in the register where it wanted it. A result wanted on the stack is on top of it. -/
structure State.Resumed (s : State) (place : ReturnTo) (v : Value) (rest : List Value)
    (u : State) : Prop where
  callers : u.callers = s.callers
  routine : u.frame.routine = s.frame.routine
  pc : u.frame.pc = s.frame.pc + 1
  slots : u.frame.slots = s.frame.slots
  returnTo : u.frame.returnTo = s.frame.returnTo
  registers : ∀ k, u.frame.registers[k]? =
    if place = .register k then some v else s.frame.registers[k]?
  stack : u.stack = if place = .stack then v :: rest else rest

@[simp] lemma Frame.receive_routine (f : Frame) (place : ReturnTo) :
    (f.receive v place).routine = f.routine := by
  cases place <;> rfl

@[simp] lemma Frame.receive_returnTo (f : Frame) (place : ReturnTo) :
    (f.receive v place).returnTo = f.returnTo := by
  cases place <;> rfl

lemma State.resumed_of_receive {place : ReturnTo}
    (hplace : ∀ k, place = .register k → k < s.frame.registers.size)
    (hcallers : u.callers = s.callers)
    (hframe : u.frame = Frame.receive { s.frame with pc := s.frame.pc + 1 } v place)
    (hstack : u.stack = if place = .stack then v :: rest else rest) :
    s.Resumed place v rest u := by
  cases place with
  | stack => exact ⟨hcallers, by rw [hframe]; rfl, by rw [hframe]; rfl, by rw [hframe]; rfl,
      by rw [hframe]; rfl, fun k => by rw [hframe]; rfl, hstack⟩
  | register r =>
    refine ⟨hcallers, by rw [hframe]; rfl, by rw [hframe]; rfl, by rw [hframe]; rfl,
      by rw [hframe]; rfl, ?_, hstack⟩
    intro k
    have hr := hplace r rfl
    simp [hframe, Frame.receive, Array.getElem?_setIfInBounds, hr]

/-- Above the frames that wait for a call there is that of the callee, and maybe more. -/
def State.Above (s : State) (callee : Nat) (place : ReturnTo) (t : State) : Prop :=
  ∃ (above : List Frame) (f : Frame), t.frame :: t.callers = above ++ f :: s.waiting ∧
    f.routine = .procedure callee ∧ f.returnTo = place

/-- The frame of a callee is the running one, and it is about to return to the frames that wait
for it. -/
structure State.Returning (s : State) (x : Executable) (callee : Nat) (v : Value)
    (rest : List Value) (w : State) : Prop where
  callers : w.callers = s.waiting
  routine : w.frame.routine = .procedure callee
  returns : ∃ q j, x.routine? w.frame.routine = some q ∧ q.code[w.frame.pc]? = some j ∧
    w.Returns v rest j

variable {callee : Nat} {place : ReturnTo}

lemma State.Above.lt_length (h : s.Above callee place t) :
    s.callers.length < t.callers.length := by
  obtain ⟨above, f, hframes, -, -⟩ := h
  have hlength := congrArg List.length hframes
  simp only [State.waiting, List.length_cons, List.length_append] at hlength
  omega

/-- The frame right above the waiting ones is that of the callee. -/
lemma State.Above.running (h : s.Above callee place w) (hw : w.callers = s.waiting) :
    w.frame.routine = .procedure callee ∧ w.frame.returnTo = place := by
  obtain ⟨above, f, hframes, hroutine, hplace⟩ := h
  rw [hw] at hframes
  cases above with
  | nil =>
    obtain ⟨rfl, -⟩ := List.cons.inj hframes
    exact ⟨hroutine, hplace⟩
  | cons g above =>
    have hlength := congrArg List.length hframes
    simp only [List.length_cons, List.length_append] at hlength
    omega

/-- A step above the waiting frames stays there, unless the callee itself returns. -/
lemma State.Above.step (h : s.Above callee place t) (hstep : step x sink t = .running u) :
    s.Above callee place u ∨
      ∃ v rest, s.Returning x callee v rest t ∧ s.Resumed place v rest u := by
  obtain ⟨above, f, hframes, hroutine, hplace⟩ := h
  obtain ⟨r, i, hr, hi, he⟩ := step_frames hstep
  cases he with
  | stay _ hc hr' hp =>
    left
    cases above with
    | nil =>
      obtain ⟨rfl, hcallers⟩ := List.cons.inj hframes
      exact ⟨[], u.frame, by rw [hc, hcallers]; rfl, hr'.trans hroutine, hp.trans hplace⟩
    | cons g above =>
      obtain ⟨rfl, hcallers⟩ := List.cons.inj hframes
      exact ⟨u.frame :: above, f, by rw [hc, hcallers]; rfl, hroutine, hplace⟩
  | enter _ hc _ _ =>
    left
    cases above with
    | nil =>
      obtain ⟨rfl, hcallers⟩ := List.cons.inj hframes
      refine ⟨[u.frame], { t.frame with pc := t.frame.pc + 1 }, ?_, hroutine, hplace⟩
      rw [hc, State.waiting, hcallers]
      rfl
    | cons g above =>
      obtain ⟨rfl, hcallers⟩ := List.cons.inj hframes
      refine ⟨u.frame :: { t.frame with pc := t.frame.pc + 1 } :: above, f, ?_, hroutine, hplace⟩
      rw [hc, State.waiting, hcallers]
      rfl
  | @leave caller v rest hv hc hto hframe hstack =>
    -- What returns is the callee itself, or what it has called, or a routine further up; only in
    -- the second case does the frame of the callee change, by the result that it receives.
    match above with
    | [] =>
      right
      obtain ⟨rfl, hcallers⟩ := List.cons.inj hframes
      obtain ⟨rfl, hu⟩ := List.cons.inj (hc.symm.trans hcallers)
      subst hplace
      exact ⟨v, rest, ⟨hcallers, hroutine, r, i, hr, hi, hv⟩,
        State.resumed_of_receive hto hu hframe hstack⟩
    | [g] =>
      left
      obtain ⟨rfl, hcallers⟩ := List.cons.inj hframes
      obtain ⟨rfl, hu⟩ := List.cons.inj (hc.symm.trans hcallers)
      refine ⟨[], u.frame, by rw [hu]; rfl, ?_, ?_⟩
      · rw [hframe, Frame.receive_routine, hroutine]
      · rw [hframe, Frame.receive_returnTo, hplace]
    | g :: g' :: above =>
      left
      obtain ⟨rfl, hcallers⟩ := List.cons.inj hframes
      obtain ⟨rfl, hu⟩ := List.cons.inj (hc.symm.trans hcallers)
      exact ⟨u.frame :: above, f, by rw [hu]; rfl, hroutine, hplace⟩

/-- A callee that returns leads to its caller, if that has a place for the result. -/
lemma State.Returning.step (h : s.Returning x callee v rest w) (hto : w.frame.ReturnsTo s.frame) :
    ∃ u, step x sink w = .running u ∧ s.Resumed w.frame.returnTo v rest u := by
  obtain ⟨hcallers, -, q, j, hq, hj, hv⟩ := h
  have hv' := (State.returns_goTo_iff (n := w.frame.pc + 1)).mpr hv
  refine ⟨State.resume { w.goTo (w.frame.pc + 1) with stack := rest }
    { s.frame with pc := s.frame.pc + 1 } s.callers v, ?_, ?_⟩
  · rw [step_eq_execute hq hj, hv'.execute_eq]
    exact State.ret_eq hcallers hto
  · exact State.resumed_of_receive hto rfl rfl rfl

/-- The callee of the call at which a state stands has not returned in the steps up to this
one. -/
structure InCall (x : Executable) (sink : Sink) (s : State) (n : Nat) (w : State) : Prop where
  reached : after x sink (n + 1) (.running s) = .running w
  deeper : ∀ k ≤ n, ∀ t, after x sink (k + 1) (.running s) = .running t →
    s.callers.length < t.callers.length

lemma Outcome.eq_running {o : Outcome} (h : o.run? sink = none) : o = .running o.state := by
  cases o with
  | running s => rfl
  | halted s | failed e s | stuck s | crashed s => cases h

lemma after_succ_eq_running {n : Nat} {o : Outcome} (h : after x sink (n + 1) o = .running u) :
    ∃ t, after x sink n o = .running t ∧ step x sink t = .running u := by
  rw [after_succ] at h
  cases ho : after x sink n o with
  | running t =>
    rw [ho] at h
    exact ⟨t, rfl, h⟩
  | halted t | failed e t | stuck t | crashed t =>
    rw [ho] at h
    cases h

section

variable {r : Executable.Routine} {arguments : Nat} (hr : x.routine? s.frame.routine = some r)
  (hi : r.code[s.frame.pc]? = some i) (hcall : i.call? = some (callee, arguments))
include hr hi hcall

lemma above_of_step (h : step x sink s = .running t) : s.Above callee i.resultPlace t := by
  obtain ⟨r', i', hr', hi', he⟩ := step_frames h
  obtain rfl : r = r' := Option.some.inj (hr.symm.trans hr')
  obtain rfl : i = i' := Option.some.inj (hi.symm.trans hi')
  cases he with
  | stay hnone _ _ _ =>
    rw [hcall] at hnone
    cases hnone
  | enter hcall' hc hroutine hplace =>
    rw [hcall] at hcall'
    cases hcall'
    exact ⟨[], t.frame, by rw [hc]; rfl, hroutine, hplace⟩
  | leave hv _ _ _ _ => cases hv <;> cases hcall

/-- As long as the callee has not returned, its frame is there, above those that wait for it. -/
lemma InCall.above {n : Nat} (h : InCall x sink s n w) : s.Above callee i.resultPlace w := by
  induction n generalizing w with
  | zero => exact above_of_step hr hi hcall h.reached
  | succ n ih =>
    obtain ⟨t, ht, hstep⟩ := after_succ_eq_running h.reached
    have hin : InCall x sink s n t := ⟨ht, fun k hk => h.deeper k (hk.trans n.le_succ)⟩
    rcases (ih hin).step hstep with habove | ⟨v, rest, -, hresumed⟩
    · exact habove
    · -- The callee would have returned in this step.
      have hlt := h.deeper (n + 1) le_rfl w h.reached
      rw [hresumed.callers] at hlt
      exact absurd hlt (lt_irrefl _)

end

/-- How a call leaves what belongs to the callers of its callee. -/
structure State.CallKept (s : State) (x : Executable) (sink : Sink) (callee : Nat)
    (place : ReturnTo) : Prop where
  /-- Until the callee returns, the frames that wait for it lie below its own as they were. -/
  above : ∀ n w, InCall x sink s n w → s.Above callee place w
  /-- When the callee returns, the caller goes on. -/
  returning : ∀ n w v rest, InCall x sink s n w → s.Returning x callee v rest w →
    ∃ u, step x sink w = .running u ∧ s.Resumed place v rest u
  /-- The caller goes on in no other way. -/
  returned : ∀ n w u, InCall x sink s n w → step x sink w = .running u →
    u.callers.length ≤ s.callers.length →
      ∃ v rest, s.Returning x callee v rest w ∧ s.Resumed place v rest u

/-- A call in a linked program touches nothing of its callers, whatever its callee does and
whichever instruction that returns by. -/
theorem call_keeps_callers {a : Assembly} (hlink : a.link = .ok x) (input : InputSource) {m : Nat}
    (hs : after x sink m (start x input) = .running s) {r : Executable.Routine}
    (hr : x.routine? s.frame.routine = some r) (hi : r.code[s.frame.pc]? = some i)
    {arguments : Nat} (hcall : i.call? = some (callee, arguments)) :
    s.CallKept x sink callee i.resultPlace where
  above _ _ h := h.above hr hi hcall
  returning n w v rest h hreturning := by
    have hsound : w.Sound x := by
      have hafter := after_sound hlink sink (m + (n + 1)) (start_sound x input)
      rw [after_add, hs, h.reached] at hafter
      exact hafter
    have hto : w.frame.ReturnsTo s.frame := by
      have hresults := hsound.results
      rw [hreturning.callers] at hresults
      exact (List.isChain_cons_cons.mp hresults).1
    rw [← ((h.above hr hi hcall).running hreturning.callers).2]
    exact hreturning.step hto
  returned n w u h hstep hle := by
    rcases (h.above hr hi hcall).step hstep with habove | hreturned
    · exact absurd habove.lt_length (Nat.not_lt.mpr hle)
    · exact hreturned

/-- A procedure on registers, called on the stack, that calls one on the stack with arguments
in registers. -/
def relay : Assembly where
  source := "relay"
  procedures :=
    [⟨.procedure "add", 2, [.instr (.pushVariable 0), .instr (.pushVariable 1),
      .instr (.operate .plus), .instr .ret]⟩,
    ⟨.procedure "twice", 1, [.instr (.move (.slot 0) (.register 1)),
      .instr (.move (.slot 0) (.register 2)), .instr (.callRegisters "add" 1 2 0),
      .instr (.retRegister 0)]⟩]
  main :=
    .main [.instr (.pushConstant 40), .instr (.pushConstant 21), .instr (.call "twice" 1),
      .instr (.operate .minus), .instr .print]

theorem relay_keeps_callers : ∃ x s w u, relay.link = .ok x ∧
    after x .endless 2 (start x (.ofInput [])) = .running s ∧
    InCall x .endless s 7 w ∧ step x .endless w = .running u ∧ s.stack = [21, 40] ∧
    u.stack = [42, 40] ∧ u.callers = s.callers ∧ s.CallKept x .endless 1 .stack := by
  obtain ⟨x, hlink, hcode, hcall, hframe, hstack, hcallers, hdeeper, hreturned, hstack',
      hcallers'⟩ : ∃ x, relay.link = .ok x ∧ x.main.code[2]? = some (.call 1 1) ∧
      let o := fun n => after x .endless n (start x (.ofInput []))
      (o 2).run? .endless = none ∧ (o 2).state.frame = ⟨.main, 2, #[], #[], .stack⟩ ∧
        (o 2).state.stack = [21, 40] ∧ (o 2).state.callers = [] ∧
        (∀ k ≤ 7, 0 < (o (2 + (k + 1))).state.callers.length) ∧
        (o 11).run? .endless = none ∧ (o 11).state.stack = [42, 40] ∧
        (o 11).state.callers = [] :=
    ⟨_, rfl, by decide +kernel, by decide +kernel⟩
  have hs := Outcome.eq_running hcall
  have hu := Outcome.eq_running hreturned
  dsimp only at hs hu hdeeper
  generalize (after x .endless 2 (start x (.ofInput []))).state = s at *
  generalize (after x .endless 11 (start x (.ofInput []))).state = u at *
  obtain ⟨w, hw, hstep⟩ := after_succ_eq_running hu
  have hlater : ∀ n, after x .endless (2 + n) (start x (.ofInput [])) =
      after x .endless n (.running s) := fun n => by rw [after_add, hs]
  refine ⟨x, s, w, u, hlink, hs, ⟨?_, ?_⟩, hstep, hstack, hstack', ?_, ?_⟩
  · rw [← hlater, ← hw]
  · intro k hk t ht
    have h := hdeeper k hk
    rw [hlater, ht] at h
    rw [hcallers]
    exact h
  · rw [hcallers, hcallers']
  · refine call_keeps_callers (i := .call 1 1) hlink _ hs (r := x.main) ?_ ?_ rfl
    · rw [hframe]; rfl
    · rw [hframe]; exact hcode

end Machine

end Izmir
