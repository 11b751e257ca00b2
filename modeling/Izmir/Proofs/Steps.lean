import Izmir.Proofs.Operations
import Izmir.Proofs.Simulation

/-!
# Steps of compiled code

What the machine does at each instruction that a backend emits. The operands that were
computed since a state `s` are used, and a result is put into its location; that is said once
for both backends.
-/

namespace Izmir

open Machine

variable {x : Executable} {sink : Sink} {table : List (String × Nat × Nat)} {ref : RoutineRef}
  {r : Executable.Routine} {code rest : List Line} {slots : Slots} {b : Backend}
  {fuel m n next l : Nat} {locations : List Nat} {v : Value} {vs : List Value} {s t : State}

namespace Computed

/-- What the machine continues with after popping the operands, or reading them. -/
lemma popMany_eq (h : Computed .stack ref r slots n m locations vs s t) {k : Nat}
    (hk : vs.length = k) {routine : String} {next : List Value → State → Outcome} :
    (t.goTo (n + 1)).popMany routine k next =
      next vs ((State.used .stack s t).goTo (n + 1)) :=
  State.popMany_eq h.values hk

lemma pop_eq (h : Computed .stack ref r slots n m locations [v] s t)
    {routine : String} {next : Value → State → Outcome} :
    (t.goTo (n + 1)).pop routine next = next v ((State.used .stack s t).goTo (n + 1)) :=
  State.pop_eq h.values

lemma registers_eq (h : Computed .register ref r slots n m locations vs s t)
    {next : List Value → Outcome} : (t.goTo (n + 1)).registers locations next = next vs :=
  State.registers_eq h.values.2.1

lemma register_eq (h : Computed .register ref r slots n m [l] [v] s t)
    {next : Value → Outcome} : (t.goTo (n + 1)).register l next = next v :=
  State.register_eq (List.forall₂_cons.mp h.values.2.1).1

end Computed

/-- Where a backend has the result of a call returned to. -/
def Backend.returnTo (l : Nat) : Backend → ReturnTo
  | .stack => .stack
  | .register => .register l

namespace Linked

lemma step_eq (h : Linked x table ref r code) (ht : t.At ref r slots n) {i : LinkedInstr}
    (hi : r.code[n]? = some i) :
    step x sink t = (t.goTo (n + 1)).execute x sink r.name.text i := by
  have hr : x.routine? t.frame.routine = some r := by
    rw [ht.routine]
    exact h.found
  rw [← ht.pc] at hi ⊢
  exact step_eq_execute hr hi

/-- Writing a register that the code mentions. -/
lemma setRegister_eq (ht : t.At ref r slots n) (hl : l < r.registers) (k : Nat) :
    (t.goTo k).setRegister l v = .running ((t.goTo k).put .register l v) :=
  State.setRegister_eq (by simpa [State.goTo, ht.registers_size] using hl)

lemma step_loadConstant (h : Linked x table ref r code) (ht : t.At ref r slots n)
    (he : Embeds code n (.instr (b.loadConstant v l) :: rest)) :
    step x sink t = .running ((t.goTo (n + 1)).put b l v) ∧
      (b = .register → l < r.registers) := by
  obtain ⟨j, hj, hok, -, hbound⟩ := h.fetch he
  rw [h.step_eq ht hj]
  cases b with
  | stack =>
    cases hok
    exact ⟨rfl, nofun⟩
  | register =>
    cases hok
    have hl : l < r.registers := by
      simpa [LinkedInstr.registerBound] using hbound
    exact ⟨setRegister_eq ht hl _, fun _ => hl⟩

lemma step_loadVariable (h : Linked x table ref r code) (ht : t.At ref r slots n) {k : Nat}
    (he : Embeds code n (.instr (b.loadVariable k l) :: rest)) :
    step x sink t = .running ((t.goTo (n + 1)).put b l (slots k)) ∧
      (b = .register → l < r.registers) := by
  obtain ⟨j, hj, hok, hslot, hbound⟩ := h.fetch he
  rw [h.step_eq ht hj]
  have hget (hk : k < r.slots) : (t.goTo (n + 1)).frame.slots[k]? = some (slots k) := by
    have hk' : k < t.frame.slots.size := by rwa [ht.slots_size]
    have hsome : t.frame.slots[k]? = some t.frame.slots[k] := Array.getElem?_eq_getElem hk'
    rw [ht.values k _ hsome]
    exact hsome
  cases b with
  | stack =>
    cases hok
    exact ⟨State.slot_eq (hget hslot), nofun⟩
  | register =>
    cases hok
    have hk : k < r.slots := by simpa [LinkedInstr.slotBound] using hslot
    have hl : l < r.registers := by simpa [LinkedInstr.registerBound] using hbound
    refine ⟨?_, fun _ => hl⟩
    rw [State.execute, State.operand, State.slot_eq (hget hk), setRegister_eq ht hl]

lemma step_operate (h : Linked x table ref r code) {o : Operation}
    (ht : Computed b ref r slots n m locations vs s t)
    (he : Embeds code n (.instr (b.operate o locations l) :: rest)) (hvs : vs.length = o.arity) :
    step x sink t = ((State.used b s t).goTo (n + 1)).apply r.name.text o vs (fun v =>
        .running (((State.used b s t).goTo (n + 1)).put b l v)) ∧
      (b = .register → l < r.registers) := by
  obtain ⟨j, hj, hok, -, hbound⟩ := h.fetch he
  rw [h.step_eq ht.here hj]
  cases b with
  | stack =>
    cases hok
    refine ⟨?_, nofun⟩
    rw [State.execute, ht.popMany_eq hvs]
    rfl
  | register =>
    simp only [Backend.operate, Link.Context.uncounted] at hok
    split at hok
    · cases hok
      have hl : l < r.registers := (le_max_right _ _).trans hbound
      refine ⟨?_, fun _ => hl⟩
      rw [State.execute, ht.registers_eq]
      simp only [setRegister_eq ht.here hl]
      rfl
    · cases hok

lemma step_input (h : Linked x table ref r code) (ht : t.At ref r slots n)
    (he : Embeds code n (.instr (b.input l) :: rest)) :
    step x sink t = (t.goTo (n + 1)).read (fun v t => .running (t.put b l v)) ∧
      (b = .register → l < r.registers) := by
  obtain ⟨j, hj, hok, -, hbound⟩ := h.fetch he
  rw [h.step_eq ht hj]
  cases b with
  | stack =>
    cases hok
    exact ⟨rfl, nofun⟩
  | register =>
    cases hok
    have hl : l < r.registers := hbound
    refine ⟨?_, fun _ => hl⟩
    have hset : ∀ (v : Value) (rest : InputSource),
        ({ t.goTo (n + 1) with input := rest } : State).setRegister l v =
          .running (({ t.goTo (n + 1) with input := rest } : State).put .register l v) := by
      intro v rest
      exact State.setRegister_eq (by simpa [State.goTo, ht.registers_size] using hl)
    simp only [State.execute, State.read, hset]

lemma step_print (h : Linked x table ref r code)
    (ht : Computed b ref r slots n m [l] [v] s t)
    (he : Embeds code n (.instr (b.print l) :: rest)) :
    step x sink t = ((State.used b s t).goTo (n + 1)).print sink v := by
  obtain ⟨j, hj, hok, -, -⟩ := h.fetch he
  rw [h.step_eq ht.here hj]
  cases b with
  | stack =>
    cases hok
    rw [State.execute, ht.pop_eq]
  | register =>
    cases hok
    rw [State.execute, ht.register_eq]
    rfl

lemma step_ret (h : Linked x table ref r code) (ht : Computed b ref r slots n m [l] [v] s t)
    (he : Embeds code n (.instr (b.ret l) :: rest)) :
    step x sink t = ((State.used b s t).goTo (n + 1)).ret v := by
  obtain ⟨j, hj, hok, -, -⟩ := h.fetch he
  rw [h.step_eq ht.here hj]
  cases b with
  | stack =>
    cases hok
    rw [State.execute, ht.pop_eq]
  | register =>
    cases hok
    rw [State.execute, ht.register_eq]
    rfl

lemma step_branch (h : Linked x table ref r code) (ht : t.At ref r slots n) {label : String}
    (he : Embeds code n (.instr (.branch label) :: rest)) {k : Nat}
    (hk : (Link.contextOf table r.name code).target label = .ok k) :
    step x sink t = .running (t.goTo k) := by
  obtain ⟨j, hj, hok, -, -⟩ := h.fetch he
  rw [h.step_eq ht hj]
  simp only [Link.Context.uncounted, hk] at hok
  cases hok
  rfl

lemma step_branchIf (h : Linked x table ref r code) {c : Condition}
    (ht : Computed b ref r slots n m locations vs s t) {label : String}
    (he : Embeds code n (.instr (b.branchIf c locations label) :: rest))
    (hvs : vs.length = c.arity) {k : Nat}
    (hk : (Link.contextOf table r.name code).target label = .ok k) :
    step x sink t = ((State.used b s t).goTo (n + 1)).branchIf c vs k := by
  obtain ⟨j, hj, hok, -, -⟩ := h.fetch he
  rw [h.step_eq ht.here hj]
  cases b with
  | stack =>
    simp only [Backend.branchIf, Link.Context.uncounted, hk] at hok
    cases hok
    rw [State.execute, ht.popMany_eq hvs]
  | register =>
    simp only [Backend.branchIf, Link.Context.uncounted, hk] at hok
    split at hok
    · cases hok
      rw [State.execute, ht.registers_eq]
      rfl
    · cases hok

/-- The callee of a call that was linked. -/
lemma callee (h : Linked x table ref r code) {f : String} {first k : Nat}
    (he : Embeds code n (.instr (b.call f first k l) :: rest)) :
    ∃ i, table.lookup f = some (i, k) := by
  obtain ⟨j, -, hok, -, -⟩ := h.fetch he
  obtain ⟨i, hi⟩ : ∃ i, (Link.contextOf table r.name code).callee f k = .ok i := by
    cases b with
    | stack =>
      simp only [Backend.call, Link.Context.uncounted, bind_eq_ok_iff] at hok
      exact ⟨_, hok.choose_spec.1⟩
    | register =>
      rw [Backend.call] at hok
      generalize (if k = 0 then l else first) = start at hok
      simp only [Link.Context.uncounted] at hok
      split at hok
      · exact ⟨_, (bind_eq_ok_iff.mp hok).choose_spec.1⟩
      · cases hok
  exact ⟨i, Link.callee_eq_ok_iff.mp hi⟩

lemma step_call (h : Linked x table ref r code) {f : String} {first i : Nat}
    (ht : Computed b ref r slots n m (List.range' first vs.length) vs s t)
    (he : Embeds code n (.instr (b.call f first vs.length l) :: rest))
    (hf : table.lookup f = some (i, vs.length)) :
    step x sink t = ((State.used b s t).goTo (n + 1)).call x i vs (b.returnTo l) ∧
      (b = .register → l < r.registers) := by
  obtain ⟨j, hj, hok, -, hbound⟩ := h.fetch he
  rw [h.step_eq ht.here hj]
  have hcallee : (Link.contextOf table r.name code).callee f vs.length = .ok i :=
    Link.callee_eq_ok_iff.mpr hf
  cases b with
  | stack =>
    simp only [Backend.call, Link.Context.uncounted, hcallee] at hok
    cases hok
    refine ⟨?_, fun hb => by cases hb⟩
    rw [State.execute, ht.popMany_eq rfl]
    rfl
  | register =>
    have hwindow : List.range' (if vs.length = 0 then l else first) vs.length =
        List.range' first vs.length := by
      split <;> simp_all
    rw [Backend.call] at hok
    generalize (if vs.length = 0 then l else first) = start at hok hwindow
    simp only [Link.Context.uncounted, hcallee] at hok
    split at hok
    · cases hok
      have hl : l < r.registers := (le_max_right _ _).trans hbound
      refine ⟨?_, fun _ => hl⟩
      rw [State.execute, hwindow, ht.registers_eq]
      rfl
    · cases hok

/-- Store a value in the slot of a variable. -/
lemma step_storeVariable (h : Linked x table ref r code) {k : Nat}
    (ht : Computed b ref r slots n m [l] [v] s t)
    (he : Embeds code n (.instr (b.storeVariable l k) :: rest)) :
    step x sink t = .running { (State.used b s t).goTo (n + 1) with
      frame := { ((State.used b s t).goTo (n + 1)).frame with
        slots := t.frame.slots.setIfInBounds k v } } := by
  obtain ⟨j, hj, hok, hslot, -⟩ := h.fetch he
  rw [h.step_eq ht.here hj]
  have hset (hk : k < r.slots) (u : State) (hu : u.frame.slots = t.frame.slots) :
      u.setSlot k v = .running
        { u with frame := { u.frame with slots := t.frame.slots.setIfInBounds k v } } := by
    rw [State.setSlot_eq (by rwa [hu, ht.here.slots_size]), hu]
  cases b with
  | stack =>
    cases hok
    rw [State.execute, ht.pop_eq]
    exact hset hslot _ rfl
  | register =>
    cases hok
    have hk : k < r.slots := by simpa [LinkedInstr.slotBound] using hslot
    rw [State.execute, State.operand, ht.register_eq]
    exact hset hk _ rfl

lemma step_drop (h : Linked x table ref r code)
    (ht : Computed .stack ref r slots n m [l] [v] s t)
    (he : Embeds code n (.instr .drop :: rest)) :
    step x sink t = .running ((State.used .stack s t).goTo (n + 1)) := by
  obtain ⟨j, hj, hok, -, -⟩ := h.fetch he
  rw [h.step_eq ht.here hj]
  cases hok
  rw [State.execute, ht.pop_eq]

end Linked

/-! ### What instructions carry out -/

namespace Carries

lemma of_step {α : Type} {a : α} {u : State} {post : α → State → Prop}
    (hst : Machine.step x sink s = .running u) (hw : u.world sink = s.world sink)
    (h : post a u) : Carries x sink fuel s ((Pure.pure a : Action α) (s.world sink)) post := by
  rw [← hw]
  exact step' hst (pure h)

end Carries

lemma Computed.goTo (h : Computed b ref r slots n next locations vs s t) (k : Nat) :
    Computed b ref r slots k next locations vs s (t.goTo k) := by
  obtain ⟨⟨hroutine, -, hslots, hregisters, hvalues⟩, hcallers, hto, hdelivered⟩ := h
  refine ⟨⟨hroutine, rfl, hslots, hregisters, hvalues⟩, hcallers, hto, ?_⟩
  cases b <;> exact hdelivered

lemma Computed.lower (h : Computed b ref r slots n m locations vs s t) (hm : next ≤ m) :
    Computed b ref r slots n next locations vs s t := by
  refine ⟨h.here, h.callers, h.returnTo, ?_⟩
  cases b with
  | stack => exact h.values
  | register =>
    obtain ⟨hstack, hvs, hkeep⟩ := h.values
    exact ⟨hstack, hvs, fun k hk => hkeep k (hk.trans_le hm)⟩

/-- Input and output make no difference to what was computed. -/
lemma Computed.withWorld (h : Computed b ref r slots n next locations vs s t)
    (input : InputSource) (printed : Array Value) :
    Computed b ref r slots n next locations vs s
      { t with input := input, printed := printed } := by
  obtain ⟨⟨hroutine, hpc, hslots, hregisters, hvalues⟩, hcallers, hto, hdelivered⟩ := h
  refine ⟨⟨hroutine, hpc, hslots, hregisters, hvalues⟩, hcallers, hto, ?_⟩
  cases b <;> exact hdelivered

namespace Linked

lemma loadVariable_carries (h : Linked x table ref r code) (hs : s.At ref r slots n) {k : Nat}
    (he : Embeds code n (.instr (b.loadVariable k l) :: rest)) :
    Carries x sink fuel s ((pure (slots k) : Action Value) (s.world sink)) fun v t =>
      Computed b ref r slots (n + 1) next [l] [v] s t := by
  obtain ⟨hstep, hl⟩ := h.step_loadVariable hs he
  exact .of_step hstep (by simp) (((Computed.refl hs).goTo (n + 1)).put (slots k) hl)

lemma input_carries (h : Linked x table ref r code)
    (ht : Computed b ref r slots n next [] [] s t)
    (he : Embeds code n (.instr (b.input l) :: rest)) :
    Carries x sink fuel t (Action.read (t.world sink)) fun v u =>
      Computed b ref r slots (n + 1) next [l] [v] s u := by
  obtain ⟨hstep, hl⟩ : step x sink t = _ ∧ _ := h.step_input ht.here he
  have hhere := ht.goTo (n + 1)
  have hinput : (t.goTo (n + 1)).input = (t.world sink).input := rfl
  unfold State.read at hstep
  rw [hinput] at hstep
  unfold Action.read
  cases hnext : (t.world sink).input.next? with
  | none =>
    rw [hnext] at hstep
    exact .step_failed hstep rfl
  | some p =>
    obtain ⟨q, rest⟩ := p
    rw [hnext] at hstep
    cases q with
    | error e => exact .step_failed hstep rfl
    | ok v =>
      refine ⟨1, _, hstep, State.world_put l v, ?_⟩
      exact (hhere.withWorld rest t.printed).put v hl

lemma operate_carries (h : Linked x table ref r code) {o : Operation}
    (ht : Computed b ref r slots n m locations vs s t)
    (he : Embeds code n (.instr (b.operate o locations l) :: rest)) (hvs : vs.length = o.arity)
    (hm : next ≤ m) (hlocations : ∀ l ∈ locations, next ≤ l) :
    Carries x sink fuel t (o.compute r.name.text vs (t.world sink)) fun v u =>
      Computed b ref r slots (n + 1) next [l] [v] s u := by
  obtain ⟨hstep, hl⟩ : step x sink t = _ ∧ _ := h.step_operate ht he hvs
  unfold Operation.compute
  unfold State.apply at hstep
  cases ho : o.apply vs with
  | ok v =>
    rw [ho] at hstep
    exact .of_step hstep (by simp) ((ht.used hm hlocations (n + 1)).put v hl)
  | error e =>
    rw [ho] at hstep
    cases e with
    | divisionByZero => exact .step_failed hstep (by simp)
    | operandCount => exact absurd ho (Operation.apply_ne_operandCount hvs)

lemma apply_carries (h : Linked x table ref r code) {p : Primitive}
    (ht : Computed b ref r slots n m locations vs s t)
    (he : Embeds code n (.instr (b.apply p locations l) :: rest)) (hvs : vs.length = p.arity)
    (hlen : locations.length = vs.length) (hm : next ≤ m)
    (hlocations : ∀ l ∈ locations, next ≤ l) :
    Carries x sink fuel t (p.compute r.name.text vs (t.world sink)) fun v u =>
      Computed b ref r slots (n + 1) next [l] [v] s u := by
  unfold Backend.apply at he
  cases ho : Operation.ofPrimitive? p with
  | some o =>
    have harity : p.arity = o.arity := by cases p <;> cases ho <;> rfl
    rw [ho] at he
    rw [Primitive.compute_eq_operation ho]
    exact h.operate_carries ht he (hvs.trans harity) hm hlocations
  | none =>
    rw [ho] at he
    obtain rfl : p = .input := by cases p <;> first | rfl | cases ho
    obtain rfl : vs = [] := List.length_eq_zero_iff.mp hvs
    obtain rfl : locations = [] := List.length_eq_zero_iff.mp hlen
    exact h.input_carries (ht.lower hm) he

lemma print_carries (h : Linked x table ref r code)
    (ht : Computed b ref r slots n m [l] [v] s t)
    (he : Embeds code n (.instr (b.print l) :: rest)) (hm : next ≤ m) (hl : next ≤ l) :
    Carries x sink fuel t (Action.print v (t.world sink)) fun _ u =>
      Computed b ref r slots (n + 1) next [] [] s u := by
  have hstep : step x sink t = _ := h.step_print ht he
  have hused := ht.used hm (by simpa using hl) (n + 1)
  have hprinted : ((State.used b s t).goTo (n + 1)).printed = (t.world sink).printed := by
    cases b <;> rfl
  unfold State.print at hstep
  rw [hprinted] at hstep
  change Carries x sink fuel t (if sink.accepts (t.world sink).printed v then _ else _) _
  split_ifs at hstep ⊢ with haccepts
  · refine ⟨1, _, hstep, ?_, hused.withWorld _ _⟩
    cases b <;> rfl
  · exact .step_failed hstep (by simp)

end Linked

/-- The next step leads to a state with a property and does not touch the surroundings. -/
def StepsTo (x : Executable) (sink : Sink) (t : State) (P : State → Prop) : Prop :=
  ∃ u, step x sink t = .running u ∧ u.world sink = t.world sink ∧ P u

/-- The next step leaves the routine with a value, in the frame and on the stack of `s`. -/
def Returns (x : Executable) (sink : Sink) (s : State) (v : Value) (t : State) : Prop :=
  ∃ u : State, step x sink t = u.ret v ∧ u.world sink = t.world sink ∧ u.callers = s.callers ∧
    u.frame.returnTo = s.frame.returnTo ∧ u.stack = s.stack

/-- The machine carries out calls. A step that enters a procedure is the first of steps that
come back with the result, to the state in which the caller was left but for input and
output. -/
def CallsCarried (x : Executable) (sink : Sink) (table : List (String × Nat × Nat)) (b : Backend)
    (fuel : Nat) (call : String → List Value → Action Value) : Prop :=
  ∀ ⦃f : String⦄ ⦃i : Nat⦄ ⦃vs : List Value⦄ ⦃l : Nat⦄ ⦃s t : State⦄,
    table.lookup f = some (i, vs.length) → step x sink t = s.call x i vs (b.returnTo l) →
    s.world sink = t.world sink → (b = .register → l < s.frame.registers.size) →
    Carries x sink fuel t (call f vs (t.world sink)) fun v u =>
      u = ({ s with input := u.input, printed := u.printed } : State).put b l v

namespace Linked

lemma loadConstant_stepsTo (h : Linked x table ref r code) (next : Nat)
    (hs : s.At ref r slots n) (he : Embeds code n (.instr (b.loadConstant v l) :: rest)) :
    StepsTo x sink s (Computed b ref r slots (n + 1) next [l] [v] s) := by
  obtain ⟨hstep, hl⟩ : step x sink s = _ ∧ _ := h.step_loadConstant hs he
  exact ⟨_, hstep, by simp, ((Computed.refl hs).goTo (n + 1)).put v hl⟩

lemma branch_stepsTo (h : Linked x table ref r code)
    (ht : Computed b ref r slots n next locations vs s t) {label : String}
    (he : Embeds code n (.instr (.branch label) :: rest)) {k : Nat}
    (hk : (Link.contextOf table r.name code).target label = .ok k) :
    StepsTo x sink t (Computed b ref r slots k next locations vs s) :=
  ⟨_, h.step_branch ht.here he hk, rfl, ht.goTo k⟩

lemma branchIf_stepsTo (h : Linked x table ref r code) {c : Condition}
    (ht : Computed b ref r slots n m locations vs s t) {label : String}
    (he : Embeds code n (.instr (b.branchIf c locations label) :: rest))
    (hvs : vs.length = c.arity) (hm : next ≤ m) (hlocations : ∀ l ∈ locations, next ≤ l) {k : Nat}
    (hk : (Link.contextOf table r.name code).target label = .ok k) {taken : Bool}
    (hc : c.holds? vs = some taken) :
    StepsTo x sink t (Computed b ref r slots (if taken then k else n + 1) next [] [] s) := by
  have hstep : step x sink t = _ := h.step_branchIf ht he hvs hk
  have hused := ht.used hm hlocations
  unfold State.branchIf at hstep
  rw [hc] at hstep
  cases taken with
  | true => exact ⟨_, hstep, by simp, hused k⟩
  | false => exact ⟨_, hstep, by simp, hused (n + 1)⟩

lemma storeVariable_stepsTo (h : Linked x table ref r code) {k : Nat}
    (ht : Computed b ref r slots n m [l] [v] s t)
    (he : Embeds code n (.instr (b.storeVariable l k) :: rest)) (hm : next ≤ m) (hl : next ≤ l) :
    StepsTo x sink t (Computed b ref r (Function.update slots k v) (n + 1) next [] [] s) := by
  obtain ⟨⟨hroutine, hpc, hslots, hregisters, -⟩, hcallers, hto, hdelivered⟩ :=
    ht.used hm (by simpa using hl) (n + 1)
  refine ⟨_, h.step_storeVariable ht he, by cases b <;> rfl, ?_⟩
  refine ⟨⟨hroutine, hpc, ?_, hregisters, ?_⟩, hcallers, hto, ?_⟩
  · simpa using ht.here.slots_size
  · intro j w hw
    by_cases hj : j = k
    · subst hj
      rw [Array.getElem?_setIfInBounds_self] at hw
      split at hw
      · simpa using hw
      · cases hw
    · rw [Array.getElem?_setIfInBounds_ne (Ne.symm hj)] at hw
      rw [Function.update_of_ne hj]
      exact ht.here.values j w hw
  · cases b <;> exact hdelivered

lemma ret_returns (h : Linked x table ref r code)
    (ht : Computed b ref r slots n m [l] [v] s t)
    (he : Embeds code n (.instr (b.ret l) :: rest)) : Returns x sink s v t := by
  refine ⟨_, h.step_ret ht he, by simp, ?_⟩
  obtain ⟨-, hcallers, hto, hdelivered⟩ := ht
  cases b with
  | stack => exact ⟨hcallers, hto, rfl⟩
  | register => exact ⟨hcallers, hto, hdelivered.1⟩

lemma call_carries (h : Linked x table ref r code)
    {call : String → List Value → Action Value}
    (hcalls : CallsCarried x sink table b fuel call) {f : String} {first : Nat}
    (ht : Computed b ref r slots n m (List.range' first vs.length) vs s t)
    (he : Embeds code n (.instr (b.call f first vs.length l) :: rest)) (hm : next ≤ m)
    (hfirst : next ≤ first) :
    Carries x sink fuel t (call f vs (t.world sink)) fun v u =>
      Computed b ref r slots (n + 1) next [l] [v] s u := by
  obtain ⟨i, hf⟩ := h.callee he
  obtain ⟨hstep, hl⟩ : step x sink t = _ ∧ _ := h.step_call ht he hf
  have hused := ht.used hm (fun l hmem => by simp at hmem; omega) (n + 1)
  refine (hcalls hf hstep (by simp) ?_).mono ?_
  · rw [hused.here.registers_size]
    exact hl
  · intro v u hu
    have hput := (hused.withWorld u.input u.printed).put v hl
    rwa [← hu] at hput

lemma discard_carries (h : Linked x table ref r code)
    (ht : Computed b ref r slots n m [l] [v] s t)
    (he : Embeds code n (b.discard.map .instr)) {α : Type} {a : α} {post : α → State → Prop}
    (hpost : ∀ u, Computed b ref r slots (n + codeSize (b.discard.map .instr)) 0 [] [] s u →
      post a u) :
    Carries x sink fuel t ((pure a : Action α) (t.world sink)) post := by
  cases b with
  | stack =>
    refine .of_step (h.step_drop ht he) (by simp) (hpost _ ?_)
    exact ht.used (Nat.zero_le _) (by simp) (n + 1)
  | register =>
    obtain ⟨hhere, hcallers, hto, hstack, -, -⟩ := ht
    exact .pure (hpost _ ⟨hhere, hcallers, hto, hstack, .nil, nofun⟩)

end Linked

end Izmir
