import Izmir.Proofs.Linking

/-!
# Linked programs do not get stuck

An executable that comes from a link is sound: what an instruction names lies in the frames of
its routine, in its code or among the procedures. A machine on such an executable keeps every
frame as large as its routine asks for, and keeps a place for every result that is awaited.
From that follows that no step is stuck, whatever the input and the sink are. What is left is a
crash, and it comes exactly where a routine is entered whose frame cannot be allocated.
-/

namespace Izmir

/-- Where a branch goes. -/
def Instr.target? {τ κ δ : Type} : Instr τ κ δ → Option τ
  | .branch t | .branchIf _ t | .branchIfRegisters _ _ t => some t
  | _ => none

/-- What a call enters, and with how many arguments. -/
def Instr.call? {τ κ δ : Type} : Instr τ κ δ → Option (κ × Nat)
  | .call f n | .callRegisters f _ n _ => some (f, n)
  | _ => none

/-- An operation or a condition names as many registers as it takes operands. -/
def Instr.OperandsFit {τ κ δ : Type} : Instr τ κ δ → Prop
  | .operateRegisters o rs _ => rs.length = o.arity
  | .branchIfRegisters c rs _ => rs.length = c.arity
  | _ => True

namespace LinkedInstr

/-- The slots that an instruction reads or writes. -/
def slots : LinkedInstr → List Nat
  | .pushVariable n | .popVariable n => [n]
  | .move a b =>
    (match a with | .slot n => [n] | _ => []) ++ (match b with | .slot n => [n] | _ => [])
  | _ => []

/-- The registers of its frame that an instruction reads, writes or wants a result in. -/
def registers : LinkedInstr → List Nat
  | .move a b =>
    (match a with | .register n => [n] | _ => []) ++ (match b with | .register n => [n] | _ => [])
  | .operateRegisters _ rs r => rs ++ [r]
  | .inputRegister r | .printRegister r | .retRegister r => [r]
  | .branchIfRegisters _ rs _ => rs
  | .callRegisters _ first n r => List.range' first n ++ [r]
  | _ => []

/-- The registers that hold the arguments of a call: the first one, and how many. -/
def window? : LinkedInstr → Option (Nat × Nat)
  | .callRegisters _ first n _ => some (first, n)
  | _ => none

lemma lt_slotBound {i : LinkedInstr} {n : Nat} (h : n ∈ slots i) : n < slotBound i := by
  cases i with
  | move a b =>
    cases a <;> cases b <;> simp_all [slots, slotBound]
    omega
  | _ => simp_all [slots, slotBound]

lemma le_foldl_above (rs : List Nat) (m : Nat) :
    ∀ r ∈ rs, r < rs.foldl (fun m r => max m (r + 1)) m := by
  intro r hr
  exact (le_foldl_max (· + 1) rs m).2 r hr

lemma lt_registerBound {i : LinkedInstr} {n : Nat} (h : n ∈ registers i) :
    n < registerBound i := by
  cases i with
  | move a b =>
    cases a <;> cases b <;> simp_all [registers, registerBound]
    omega
  | operateRegisters o rs r =>
    simp only [registers, registerBound, List.mem_append, List.mem_singleton] at h ⊢
    rcases h with h | rfl
    · exact (le_foldl_above rs 0 n h).trans_le (Nat.le_max_left _ _)
    · omega
  | branchIfRegisters c rs t => exact le_foldl_above rs 0 n h
  | callRegisters f first k r =>
    simp only [registers, registerBound, List.mem_append, List.mem_range'_1,
      List.mem_singleton] at h ⊢
    omega
  | _ => simp_all [registers, registerBound]

lemma window_le_registerBound {i : LinkedInstr} {first n : Nat} (h : window? i = some (first, n)) :
    first + n ≤ registerBound i := by
  cases i with
  | callRegisters f m k r =>
    simp only [window?, Option.some.injEq, Prod.mk.injEq] at h
    obtain ⟨rfl, rfl⟩ := h
    exact Nat.le_max_left _ _
  | _ => simp [window?] at h

/-- What a routine of an executable grants its instructions. -/
structure Sound (x : Executable) (r : Executable.Routine) (i : LinkedInstr) : Prop where
  slots : ∀ n ∈ slots i, n < r.slots
  registers : ∀ n ∈ registers i, n < r.registers
  window : ∀ first n, window? i = some (first, n) → first + n ≤ r.registers
  target : ∀ t, i.target? = some t → t ≤ r.code.size
  callee : ∀ f n, i.call? = some (f, n) →
    ∃ q, x.procedures[f]? = some q ∧ n = q.arity ∧ n ≤ q.slots
  operands : i.OperandsFit

end LinkedInstr

namespace Link

/-- Linking an instruction resolves its label and its callee, and counts its operands. -/
lemma instr_eq_ok {c : Context} {i : SymbolicInstr} {j : LinkedInstr} (h : c.instr i = .ok j) :
    (∀ t, j.target? = some t → ∃ l, i.target? = some l ∧ c.target l = .ok t) ∧
      (∀ k n, j.call? = some (k, n) → ∃ f, i.call? = some (f, n) ∧ c.callee f n = .ok k) ∧
      j.OperandsFit := by
  obtain ⟨-, h⟩ := instr_eq_ok_iff.mp h
  cases i with
  | move a b =>
    cases b <;> cases h <;> simp [Instr.target?, Instr.call?, Instr.OperandsFit]
  | operateRegisters o rs r =>
    simp only [Context.uncounted] at h
    split at h <;> cases h
    simpa [Instr.target?, Instr.call?, Instr.OperandsFit]
  | branch l | branchIf k l | call f n =>
    simp only [Context.uncounted, bind_eq_ok_iff] at h
    obtain ⟨u, hu, hj⟩ := h
    cases hj
    simp [Instr.target?, Instr.call?, Instr.OperandsFit, hu]
  | branchIfRegisters k rs l =>
    simp only [Context.uncounted] at h
    split at h
    · rw [bind_eq_ok_iff] at h
      obtain ⟨u, hu, hj⟩ := h
      cases hj
      simpa [Instr.target?, Instr.call?, Instr.OperandsFit, hu]
    · cases h
  | callRegisters f first n r =>
    simp only [Context.uncounted] at h
    split at h
    · rw [bind_eq_ok_iff] at h
      obtain ⟨u, hu, hj⟩ := h
      cases hj
      simp [Instr.target?, Instr.call?, Instr.OperandsFit, hu]
    · cases h
  | _ =>
    cases h
    simp [Instr.target?, Instr.call?, Instr.OperandsFit]

end Link

/-- Every instruction of a linked program is sound. -/
lemma link_sound {a : Assembly} {x : Executable} (h : a.link = .ok x) {ref : RoutineRef}
    {r : Executable.Routine} (hr : x.routine? ref = some r) {n : Nat} {j : LinkedInstr}
    (hj : r.code[n]? = some j) : LinkedInstr.Sound x r j := by
  obtain ⟨p, -, hp⟩ := link_routine h hr
  have hl := Linked.of_routine hr hp
  obtain ⟨⟨i, -, hi⟩, hslots, hregisters⟩ := hl.get hj
  obtain ⟨htarget, hcall, hoperands⟩ := Link.instr_eq_ok hi
  refine ⟨?_, ?_, ?_, ?_, ?_, hoperands⟩
  · exact fun n hn => (LinkedInstr.lt_slotBound hn).trans_le hslots
  · exact fun n hn => (LinkedInstr.lt_registerBound hn).trans_le hregisters
  · exact fun first n hn => (LinkedInstr.window_le_registerBound hn).trans hregisters
  · intro t ht
    obtain ⟨l, -, hl'⟩ := htarget t ht
    have hle := Link.targets_le 0 p.code (l, t) (Link.mem_targets_of_target hl')
    rw [hl.code_size]
    simpa using hle
  · intro k n hk
    obtain ⟨f, -, hf⟩ := hcall k n hk
    obtain ⟨p, hp, -, harity⟩ := lookup_table (Link.callee_eq_ok_iff.mp hf)
    obtain ⟨q, hq, -, hqa, hql⟩ := link_procedure h hp
    refine ⟨q, hq, by rw [hqa, harity], ?_⟩
    rw [← harity, ← hqa]
    exact hql.arity_le_slots

lemma Operation.apply_ne_operandCount {o : Operation} {vs : List Value}
    (h : vs.length = o.arity) : o.apply vs ≠ .error .operandCount := by
  match vs, h with
  | [], h => cases o <;> simp [arity] at h
  | [a], h => cases o <;> simp_all [arity, apply]
  | [a, b], h => cases o <;> simp_all [arity, apply] <;> split <;> simp
  | _ :: _ :: _ :: _, h => cases o <;> simp [arity] at h

lemma Condition.holds?_isSome {c : Condition} {vs : List Value} (h : vs.length = c.arity) :
    ∃ b, c.holds? vs = some b := by
  match vs, h with
  | [], h => cases c <;> simp [arity] at h
  | [a], h => cases c <;> simp_all [arity, holds?]
  | [a, b], h => cases c <;> simp_all [arity, holds?]
  | _ :: _ :: _ :: _, h => cases c <;> simp [arity] at h

/-- All frames of an executable can be allocated. -/
def Executable.Fits (x : Executable) : Prop :=
  ∀ ref r, x.routine? ref = some r → r.Fits

namespace Machine

/-- A frame is as large as its routine asks for, and its position lies in the code or at its
end. -/
def Frame.Sound (x : Executable) (f : Frame) : Prop :=
  ∃ r, x.routine? f.routine = some r ∧ f.slots.size = r.slots ∧
    f.registers.size = r.registers ∧ f.pc ≤ r.code.size

/-- The caller has the register in which the callee is to leave its result. -/
def Frame.ReturnsTo (callee caller : Frame) : Prop :=
  ∀ k, callee.returnTo = .register k → k < caller.registers.size

structure State.Sound (x : Executable) (s : State) : Prop where
  frames : ∀ f ∈ s.frame :: s.callers, f.Sound x
  results : List.IsChain Frame.ReturnsTo (s.frame :: s.callers)

/-- An outcome after which the machine goes on soundly or has ended, but not by being stuck. -/
def Outcome.Sound (x : Executable) : Outcome → Prop
  | .running s => s.Sound x
  | .halted _ => True
  | .failed _ _ => True
  | .stuck _ => False
  | .crashed _ => True

section

variable {x : Executable} {sink : Sink} {s : State} {routine : String}

/-- Only the size of the current frame and where it stands matter. -/
lemma State.Sound.keep {t : State} (h : s.Sound x) (hcallers : t.callers = s.callers)
    (hroutine : t.frame.routine = s.frame.routine)
    (hslots : t.frame.slots.size = s.frame.slots.size)
    (hregisters : t.frame.registers.size = s.frame.registers.size)
    (hto : t.frame.returnTo = s.frame.returnTo)
    (hpc : ∀ r, x.routine? s.frame.routine = some r → t.frame.pc ≤ r.code.size) : t.Sound x := by
  obtain ⟨hframes, hresults⟩ := h
  simp only [List.mem_cons, forall_eq_or_imp] at hframes
  obtain ⟨⟨r, hr, hs, hg, -⟩, hframes⟩ := hframes
  constructor
  · simp only [hcallers, List.mem_cons, forall_eq_or_imp]
    refine ⟨⟨r, ?_, ?_, ?_, hpc r hr⟩, hframes⟩
    · rw [hroutine, hr]
    · rw [hslots, hs]
    · rw [hregisters, hg]
  · rw [hcallers]
    cases hc : s.callers with
    | nil => exact List.isChain_singleton _
    | cons caller callers =>
      rw [hc, List.isChain_cons_cons] at hresults
      refine List.isChain_cons_cons.mpr ⟨?_, hresults.2⟩
      intro k hk
      exact hresults.1 k (hto ▸ hk)

lemma State.Sound.pc_le (h : s.Sound x) {r : Executable.Routine}
    (hr : x.routine? s.frame.routine = some r) : s.frame.pc ≤ r.code.size := by
  obtain ⟨q, hq, -, -, hpc⟩ := h.frames s.frame (by simp)
  rw [hr] at hq
  cases hq
  exact hpc

/-- A state that differs from a sound one in the operand stack, the input and the output only. -/
lemma State.Sound.same_frames {t : State} (h : s.Sound x) (hframe : t.frame = s.frame)
    (hcallers : t.callers = s.callers) : t.Sound x :=
  h.keep hcallers (by rw [hframe]) (by rw [hframe]) (by rw [hframe]) (by rw [hframe])
    fun r hr => by rw [hframe]; exact h.pc_le hr

lemma State.Sound.goTo (h : s.Sound x) {r : Executable.Routine}
    (hr : x.routine? s.frame.routine = some r) {pc : Nat} (hpc : pc ≤ r.code.size) :
    (s.goTo pc).Sound x := by
  refine h.keep rfl rfl rfl rfl rfl ?_
  intro q hq
  rw [hr] at hq
  cases hq
  exact hpc

lemma pop_sound {next : Value → State → Outcome}
    (h : ∀ v rest, (next v { s with stack := rest }).Sound x) : (s.pop routine next).Sound x := by
  unfold State.pop
  cases s.stack with
  | nil => trivial
  | cons v rest => exact h v rest

lemma popMany_sound {n : Nat} {next : List Value → State → Outcome}
    (h : ∀ vs rest, vs.length = n → (next vs { s with stack := rest }).Sound x) :
    (s.popMany routine n next).Sound x := by
  unfold State.popMany
  by_cases hn : (s.stack.take n).length < n
  · simp only [hn, if_true]
    trivial
  · simp only [hn, if_false]
    apply h
    rw [List.length_reverse]
    have := List.length_take_le n s.stack
    omega

lemma slot_sound {n : Nat} {next : Value → Outcome} (hn : n < s.frame.slots.size)
    (h : ∀ v, (next v).Sound x) : (s.slot n next).Sound x := by
  unfold State.slot
  rw [Array.getElem?_eq_getElem hn]
  exact h _

lemma register_sound {n : Nat} {next : Value → Outcome} (hn : n < s.frame.registers.size)
    (h : ∀ v, (next v).Sound x) : (s.register n next).Sound x := by
  unfold State.register
  rw [Array.getElem?_eq_getElem hn]
  exact h _

lemma registers_sound {rs : List Nat} {next : List Value → Outcome}
    (hrs : ∀ r ∈ rs, r < s.frame.registers.size)
    (h : ∀ vs, vs.length = rs.length → (next vs).Sound x) : (s.registers rs next).Sound x := by
  have hread : List.Forall₂ (fun r v => s.frame.registers[r]? = some v) rs
      (rs.map fun r => s.frame.registers.getD r 0) := by
    rw [List.forall₂_map_right_iff, List.forall₂_same]
    intro r hr
    simp [hrs r hr]
  unfold State.registers
  rw [mapM_getElem?_eq_some_iff.mpr hread]
  exact h _ (List.length_map ..)

lemma setSlot_sound {n : Nat} {v : Value} (h : s.Sound x) (hn : n < s.frame.slots.size) :
    (s.setSlot n v).Sound x := by
  unfold State.setSlot
  rw [if_pos hn]
  exact h.keep rfl rfl (Array.size_setIfInBounds ..) rfl rfl fun r hr => h.pc_le hr

lemma setRegister_sound {n : Nat} {v : Value} (h : s.Sound x) (hn : n < s.frame.registers.size) :
    (s.setRegister n v).Sound x := by
  unfold State.setRegister
  rw [if_pos hn]
  exact h.keep rfl rfl rfl (Array.size_setIfInBounds ..) rfl fun r hr => h.pc_le hr

lemma read_sound {next : Value → State → Outcome}
    (h : ∀ v rest, (next v { s with input := rest }).Sound x) : (s.read next).Sound x := by
  unfold State.read
  split
  · trivial
  · exact h _ _
  · trivial

lemma print_sound {v : Value} (h : s.Sound x) : (s.print sink v).Sound x := by
  unfold State.print
  split
  · exact h.same_frames rfl rfl
  · trivial

lemma apply_sound {o : Operation} {vs : List Value} {next : Value → Outcome}
    (hvs : vs.length = o.arity) (h : ∀ v, (next v).Sound x) :
    (s.apply routine o vs next).Sound x := by
  have hne := Operation.apply_ne_operandCount hvs
  unfold State.apply
  split
  · exact h _
  · trivial
  · contradiction

lemma branchIf_sound {c : Condition} {vs : List Value} {t : Nat} {r : Executable.Routine}
    (h : s.Sound x) (hvs : vs.length = c.arity) (hr : x.routine? s.frame.routine = some r)
    (ht : t ≤ r.code.size) : (s.branchIf c vs t).Sound x := by
  obtain ⟨b, hb⟩ := Condition.holds?_isSome hvs
  unfold State.branchIf
  rw [hb]
  cases b with
  | true => exact h.goTo hr ht
  | false => exact h

lemma call_sound {f : Nat} {vs : List Value} {place : ReturnTo} {q : Executable.Routine}
    (h : s.Sound x) (hq : x.procedures[f]? = some q) (hvs : vs.length ≤ q.slots)
    (hplace : ∀ k, place = .register k → k < s.frame.registers.size) :
    (s.call x f vs place).Sound x := by
  unfold State.call
  simp only [hq, hvs, if_true]
  by_cases hfits : q.Fits
  swap
  · rw [if_pos hfits]
    trivial
  rw [if_neg (not_not.mpr hfits)]
  constructor
  · simp only [List.mem_cons, forall_eq_or_imp]
    refine ⟨⟨q, hq, ?_, ?_, Nat.zero_le _⟩, ?_⟩
    · simp [Frame.start, hvs]
    · simp [Frame.start]
    · simpa using h.frames
  · exact List.isChain_cons_cons.mpr ⟨hplace, h.results⟩

lemma ret_sound {v : Value} (h : s.Sound x) : (s.ret v).Sound x := by
  obtain ⟨hframes, hresults⟩ := h
  unfold State.ret
  cases hc : s.callers with
  | nil => trivial
  | cons caller callers =>
    rw [hc] at hframes hresults
    have hcaller : State.Sound x { s with frame := caller, callers := callers } :=
      ⟨fun f hf => hframes f (List.mem_cons_of_mem _ hf), (List.isChain_cons_cons.mp hresults).2⟩
    cases hto : s.frame.returnTo with
    | stack => exact hcaller.same_frames rfl rfl
    | register k =>
      exact setRegister_sound hcaller ((List.isChain_cons_cons.mp hresults).1 k hto)

lemma operand_sound {o : Operand} {next : Value → Outcome}
    (hslot : ∀ n, o = .slot n → n < s.frame.slots.size)
    (hregister : ∀ n, o = .register n → n < s.frame.registers.size)
    (h : ∀ v, (next v).Sound x) : (s.operand o next).Sound x := by
  cases o with
  | literal v => exact h v
  | slot n => exact slot_sound (hslot n rfl) h
  | register n => exact register_sound (hregister n rfl) h

/-- A sound instruction takes a sound state to a sound outcome. -/
lemma execute_sound {r : Executable.Routine} {i : LinkedInstr} (h : s.Sound x)
    (hr : x.routine? s.frame.routine = some r) (hi : LinkedInstr.Sound x r i) :
    (s.execute x sink routine i).Sound x := by
  obtain ⟨q, hq, hslots, hregisters, -⟩ := h.frames s.frame (by simp)
  obtain rfl : q = r := Option.some.inj (hq.symm.trans hr)
  have hs := hi.slots
  have hg := hi.registers
  rw [← hslots] at hs
  rw [← hregisters] at hg
  have hdrop : ∀ rest, State.Sound x { s with stack := rest } := fun _ => h.same_frames rfl rfl
  have hread : ∀ rest, State.Sound x { s with input := rest } := fun _ => h.same_frames rfl rfl
  cases i with
  | pushConstant v => exact h.same_frames rfl rfl
  | pushVariable n =>
    exact slot_sound (hs n (by simp [LinkedInstr.slots])) fun v => h.same_frames rfl rfl
  | popVariable n =>
    rw [State.execute]
    refine pop_sound fun v rest => ?_
    exact setSlot_sound (hdrop rest) (hs n (by simp [LinkedInstr.slots]))
  | operate o =>
    rw [State.execute]
    refine popMany_sound fun vs rest hvs => ?_
    exact apply_sound hvs fun v => h.same_frames rfl rfl
  | input =>
    rw [State.execute]
    refine read_sound fun v rest => ?_
    exact h.same_frames rfl rfl
  | print =>
    rw [State.execute]
    refine pop_sound fun v rest => ?_
    exact print_sound (hdrop rest)
  | drop => exact pop_sound fun v rest => hdrop rest
  | branch t => exact h.goTo hr (hi.target t rfl)
  | branchIf c t =>
    rw [State.execute]
    refine popMany_sound fun vs rest hvs => ?_
    exact branchIf_sound (hdrop rest) hvs hr (hi.target t rfl)
  | call f n =>
    obtain ⟨q, hq, hn, hle⟩ := hi.callee f n rfl
    rw [State.execute]
    refine popMany_sound fun vs rest hvs => ?_
    exact call_sound (hdrop rest) hq (hvs ▸ hle) fun k hk => by cases hk
  | ret =>
    rw [State.execute]
    refine pop_sound fun v rest => ?_
    exact ret_sound (hdrop rest)
  | move a b =>
    have ha : ∀ next : Value → Outcome, (∀ v, (next v).Sound x) → (s.operand a next).Sound x := by
      intro next hnext
      refine operand_sound ?_ ?_ hnext
      · rintro n rfl
        exact hs n (by simp [LinkedInstr.slots])
      · rintro n rfl
        exact hg n (by simp [LinkedInstr.registers])
    cases b with
    | slot n => exact ha _ fun v => setSlot_sound h (hs n (by simp [LinkedInstr.slots]))
    | register n =>
      exact ha _ fun v => setRegister_sound h (hg n (by simp [LinkedInstr.registers]))
  | operateRegisters o rs k =>
    refine registers_sound (fun n hn => hg n (by simp [LinkedInstr.registers, hn])) ?_
    exact fun vs hvs => apply_sound (hvs.trans hi.operands) fun v =>
      setRegister_sound h (hg k (by simp [LinkedInstr.registers]))
  | inputRegister k =>
    rw [State.execute]
    refine read_sound fun v rest => ?_
    exact setRegister_sound (hread rest) (hg k (by simp [LinkedInstr.registers]))
  | printRegister k =>
    exact register_sound (hg k (by simp [LinkedInstr.registers])) fun v => print_sound h
  | branchIfRegisters c rs t =>
    refine registers_sound (fun n hn => hg n hn) ?_
    exact fun vs hvs => branchIf_sound h (hvs.trans hi.operands) hr (hi.target t rfl)
  | callRegisters f first n k =>
    obtain ⟨q, hq, hn, hle⟩ := hi.callee f n rfl
    refine registers_sound (fun m hm => hg m (by simp [LinkedInstr.registers, hm])) ?_
    intro vs hvs
    rw [List.length_range'] at hvs
    refine call_sound h hq (hvs ▸ hle) ?_
    rintro _ ⟨rfl⟩
    exact hg k (by simp [LinkedInstr.registers])
  | retRegister k =>
    exact register_sound (hg k (by simp [LinkedInstr.registers])) fun v => ret_sound h

end

section

variable {a : Assembly} {x : Executable} (hlink : a.link = .ok x) (sink : Sink)
include hlink

/-- One step of a linked program is never stuck, and leads to sound states only. -/
lemma step_sound {s : State} (h : s.Sound x) : (step x sink s).Sound x := by
  obtain ⟨r, hr, -, -, hpc⟩ := h.frames s.frame (by simp)
  cases hi : r.code[s.frame.pc]? with
  | none =>
    rw [step_eq_of_end hr hi]
    split <;> trivial
  | some i =>
    have hlt : s.frame.pc < r.code.size := (Array.getElem?_eq_some_iff.mp hi).1
    rw [step_eq_execute hr hi]
    exact execute_sound (h.goTo hr hlt) hr (link_sound hlink hr hi)

lemma after_sound (n : Nat) {o : Outcome} (h : o.Sound x) : (after x sink n o).Sound x := by
  induction n generalizing o with
  | zero => exact h
  | succ n ih =>
    cases o with
    | running s => exact ih (step_sound hlink sink h)
    | halted s => trivial
    | failed e s => trivial
    | stuck s => exact h.elim
    | crashed s => trivial

end

lemma start_sound (x : Executable) (input : InputSource) : (start x input).Sound x := by
  unfold start
  split
  swap
  · trivial
  constructor
  · simp only [State.start, List.mem_cons, List.not_mem_nil, or_false, forall_eq]
    exact ⟨x.main, rfl, by simp [Frame.start], by simp [Frame.start], Nat.zero_le _⟩
  · exact List.isChain_singleton _

/-- All that an instruction touches in a state is there: slots and registers of the running
frame, the window of its arguments, the position it branches to, the procedure it calls with
as many arguments as that takes, and the register in which a caller awaits its result. -/
structure State.Permits (x : Executable) (s : State) (r : Executable.Routine)
    (i : LinkedInstr) : Prop where
  slots : ∀ n ∈ LinkedInstr.slots i, n < s.frame.slots.size
  registers : ∀ n ∈ LinkedInstr.registers i, n < s.frame.registers.size
  window : ∀ first n, LinkedInstr.window? i = some (first, n) →
    first + n ≤ s.frame.registers.size
  target : ∀ t, i.target? = some t → t ≤ r.code.size
  callee : ∀ f n, i.call? = some (f, n) →
    ∃ q, x.procedures[f]? = some q ∧ n = q.arity ∧ n ≤ q.slots
  operands : i.OperandsFit
  result : i.isReturn = true → ∀ k, s.frame.returnTo = .register k →
    ∀ caller ∈ s.callers.head?, k < caller.registers.size

lemma State.Sound.permits {a : Assembly} {x : Executable} (hlink : a.link = .ok x) {s : State}
    (h : s.Sound x) {r : Executable.Routine} (hr : x.routine? s.frame.routine = some r)
    {i : LinkedInstr} (hi : r.code[s.frame.pc]? = some i) : s.Permits x r i := by
  obtain ⟨q, hq, hslots, hregisters, -⟩ := h.frames s.frame (by simp)
  obtain rfl : q = r := Option.some.inj (hq.symm.trans hr)
  have hsound := link_sound hlink hr hi
  refine ⟨?_, ?_, ?_, hsound.target, hsound.callee, hsound.operands, ?_⟩
  · rw [hslots]
    exact hsound.slots
  · rw [hregisters]
    exact hsound.registers
  · rw [hregisters]
    exact hsound.window
  · intro _ k hk caller hcaller
    obtain ⟨callers, hc⟩ := List.head?_eq_some_iff.mp hcaller
    have hresults := h.results
    rw [hc] at hresults
    exact (List.isChain_cons_cons.mp hresults).1 k hk

/-- An outcome that no access outside of the program, its code or its frames has led to or is
about to follow. -/
def Outcome.Safe (x : Executable) : Outcome → Prop
  | .running s => ∃ r, x.routine? s.frame.routine = some r ∧ s.frame.pc ≤ r.code.size ∧
      ∀ i, r.code[s.frame.pc]? = some i → s.Permits x r i
  | .halted _ => True
  | .failed _ _ => True
  | .stuck _ => False
  | .crashed _ => True

/-! ### Crashes -/

/-- The procedure that the next step enters: there is one if it is a call that finds its
arguments. -/
def State.entered? (x : Executable) (s : State) : Option Executable.Routine := do
  let r ← x.routine? s.frame.routine
  match r.code[s.frame.pc]? with
  | some (.call f n) => if n ≤ s.stack.length then x.procedures[f]? else none
  | some (.callRegisters f _ _ _) => x.procedures[f]?
  | _ => none

/-- The machine crashes on a procedure whose frame cannot be allocated, and only there. -/
lemma call_eq_crashed_iff {x : Executable} {s t : State} {f : Nat} {vs : List Value}
    {place : ReturnTo} :
    s.call x f vs place = .crashed t ↔
      (∃ q, x.procedures[f]? = some q ∧ ¬ q.Fits) ∧ t = s := by
  unfold State.call
  cases x.procedures[f]? with
  | none => simp
  | some q =>
    by_cases hfits : q.Fits
    · simp only [hfits, not_true, if_false, Option.some.injEq, exists_eq_left', false_and,
        iff_false]
      split <;> simp
    · simp [hfits, eq_comm]

/-- No instruction but a call crashes. -/
lemma execute_ne_crashed {x : Executable} {sink : Sink} {s t : State} {routine : String}
    {i : LinkedInstr} (hi : i.call? = none) : s.execute x sink routine i ≠ .crashed t := by
  cases i with
  | call f n => simp [Instr.call?] at hi
  | callRegisters f first n r => simp [Instr.call?] at hi
  | move a b =>
    cases a <;> cases b <;>
      simp only [State.execute, State.operand, State.slot, State.register, State.setSlot,
        State.setRegister] <;> repeat' split
    all_goals simp
  | _ =>
    simp only [State.execute, State.pop, State.popMany, State.slot, State.register,
      State.registers, State.read, State.apply, State.branchIf, State.ret, State.print,
      State.setSlot, State.setRegister]
    repeat' split
    all_goals simp

section

variable {a : Assembly} {x : Executable} (hlink : a.link = .ok x) (sink : Sink)
include hlink

/-- A step crashes exactly if it enters a procedure whose frame cannot be allocated. -/
lemma step_crashes_iff {s : State} (h : s.Sound x) :
    (∃ t, step x sink s = .crashed t) ↔ ∃ q, s.entered? x = some q ∧ ¬ q.Fits := by
  obtain ⟨r, hr, -, hregisters, -⟩ := h.frames s.frame (by simp)
  cases hi : r.code[s.frame.pc]? with
  | none =>
    rw [step_eq_of_end hr hi]
    split <;> simp [State.entered?, hr, hi]
  | some i =>
    rw [step_eq_execute hr hi]
    cases i with
    | call f n =>
      by_cases hn : n ≤ s.stack.length
      · have hpop : s.stack = (s.stack.take n).reverse.reverse ++ s.stack.drop n := by simp
        rw [State.execute,
          State.popMany_eq (s := s.goTo (s.frame.pc + 1)) hpop (by simpa using hn)]
        simp [call_eq_crashed_iff, State.entered?, hr, hi, hn]
      · have hlength : (s.stack.take n).length < n := by
          rw [List.length_take]
          omega
        simp only [State.execute, State.popMany, State.goTo, hlength, if_true]
        simp [State.entered?, hr, hi, hn]
    | callRegisters f first n k =>
      have hread : List.Forall₂ (fun r v => s.frame.registers[r]? = some v) (List.range' first n)
          ((List.range' first n).map fun r => s.frame.registers.getD r 0) := by
        rw [List.forall₂_map_right_iff, List.forall₂_same]
        intro m hm
        have hlt : m < s.frame.registers.size := by
          rw [hregisters]
          exact (link_sound hlink hr hi).registers m (by simp [LinkedInstr.registers, hm])
        simp [hlt]
      rw [State.execute, State.registers_eq (s := s.goTo (s.frame.pc + 1)) hread]
      simp [call_eq_crashed_iff, State.entered?, hr, hi]
    | _ =>
      refine iff_of_false (not_exists.mpr fun t => execute_ne_crashed rfl) ?_
      simp [State.entered?, hr, hi]

/-- A program crashes where it enters a routine whose frame cannot be allocated: main at its
start, or a procedure that is called. -/
lemma after_crashes_iff (input : InputSource) (n : Nat) :
    (∃ t, after x sink n (start x input) = .crashed t) ↔
      ¬ x.main.Fits ∨ ∃ m < n, ∃ s q, after x sink m (start x input) = .running s ∧
        s.entered? x = some q ∧ ¬ q.Fits := by
  induction n with
  | zero =>
    unfold start
    split <;> simp [*]
  | succ n ih =>
    have hsound := after_sound hlink sink n (start_sound x input)
    -- What happened within `n` steps, and what the step after them adds to it.
    have hsplit : (∃ m < n + 1, ∃ s q, after x sink m (start x input) = .running s ∧
        s.entered? x = some q ∧ ¬ q.Fits) ↔
        (∃ m < n, ∃ s q, after x sink m (start x input) = .running s ∧
          s.entered? x = some q ∧ ¬ q.Fits) ∨
        ∃ s q, after x sink n (start x input) = .running s ∧ s.entered? x = some q ∧ ¬ q.Fits := by
      simp only [Nat.lt_succ_iff_lt_or_eq, or_and_right, exists_or, exists_eq_left]
    rw [hsplit, ← or_assoc, ← ih, after_succ]
    cases ho : after x sink n (start x input) with
    | running s =>
      rw [ho] at hsound
      simpa using step_crashes_iff hlink sink hsound
    | halted s => simp
    | failed e s => simp
    | stuck s => simp
    | crashed s => simp

end

/-- A linked program is safe after any number of steps, on every input and into every sink: it
goes on with an instruction that finds all it touches, halts, ends in a runtime error, or has
crashed. It has crashed exactly if it has entered a routine with a frame of `2 ^ 60` slots or
registers or more. -/
theorem linked_run_safe {a : Assembly} {x : Executable} (hlink : a.link = .ok x)
    (input : InputSource) (sink : Sink) (n : Nat) :
    (after x sink n (start x input)).Safe x ∧
      ((∃ t, after x sink n (start x input) = .crashed t) ↔
        ¬ x.main.Fits ∨ ∃ m < n, ∃ s q, after x sink m (start x input) = .running s ∧
          s.entered? x = some q ∧ ¬ q.Fits) := by
  refine ⟨?_, after_crashes_iff hlink sink input n⟩
  have hsound := after_sound hlink sink n (start_sound x input)
  cases h : after x sink n (start x input) with
  | running s =>
    rw [h] at hsound
    obtain ⟨r, hr, -, -, hpc⟩ := State.Sound.frames hsound s.frame (by simp)
    exact ⟨r, hr, hpc, fun i hi => State.Sound.permits hlink hsound hr hi⟩
  | halted s => trivial
  | failed e s => trivial
  | stuck s =>
    rw [h] at hsound
    exact hsound
  | crashed s => trivial

/-- A procedure on the stack, called with arguments in registers. -/
def adder : Assembly where
  source := "adder"
  procedures :=
    [⟨.procedure "add", 2, [.instr (.pushVariable 0), .instr (.pushVariable 1),
      .instr (.operate .plus), .instr .ret]⟩]
  main := .main
    [.instr (.inputRegister 3), .instr (.inputRegister 4), .instr (.callRegisters "add" 3 2 0),
      .instr (.printRegister 0)]

theorem adder_run_safe : ∃ x, adder.link = .ok x ∧
    (after x .endless 4 (start x (.ofInput [.ok 3, .ok 4]))).Safe x := by
  obtain ⟨x, hlink⟩ : ∃ x, adder.link = .ok x := ⟨_, rfl⟩
  exact ⟨x, hlink, (linked_run_safe hlink _ _ _).1⟩

/-- A register that can be counted, in a frame that cannot be allocated. -/
def vast : Assembly where
  source := "vast"
  procedures := []
  main := .main [.instr (.printRegister 9223372036854775807)]

/-- It links, and then it crashes. -/
theorem vast_run_crashes : ∃ x, vast.link = .ok x ∧
    run x (.ofInput []) .endless 0 = some ⟨.crashed, #[]⟩ :=
  ⟨_, rfl, by decide +kernel⟩

end Machine

end Izmir
