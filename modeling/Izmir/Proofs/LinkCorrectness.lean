import Izmir.Proofs.Safety
import Izmir.Proofs.Symbolic

/-!
# Linking keeps the meaning

The executable of labelled code behaves as the labelled code does by itself. A frame of the
machine stands for a symbolic frame when its position counts the instructions before the lines
that come next, whatever labels stand among them, and when the slots and registers it has hold
what the symbolic ones do. A line that defines a label leaves the machine where it is; every
other step is made by both.

The machine cannot allocate every frame. With room for those that it can, the labelled code
crashes where the machine does.
-/

namespace Izmir

/-- A label is linked to the position of what follows its definition. -/
lemma Link.lookup_targets {l : String} {n k : Nat} {code : List Line}
    (h : (Link.targets n code).lookup l = some k) :
    ∃ before rest, code = before ++ rest ∧ n + codeSize before = k ∧
      afterLabel? l code = some rest := by
  induction code generalizing n with
  | nil => simp [Link.targets] at h
  | cons line code ih =>
    cases line with
    | label m =>
      rw [Link.targets, List.lookup_cons] at h
      by_cases hm : l = m
      · simp only [hm, beq_self_eq_true, Option.some.injEq] at h
        exact ⟨[.label m], code, rfl, by simpa using h, by simp [afterLabel?, hm]⟩
      · simp only [beq_eq_false_iff_ne.mpr hm] at h
        obtain ⟨before, rest, rfl, hk, hafter⟩ := ih h
        refine ⟨.label m :: before, rest, rfl, by simpa using hk, ?_⟩
        rw [afterLabel?, if_neg fun he => hm he.symm, hafter]
    | instr i =>
      rw [Link.targets] at h
      obtain ⟨before, rest, rfl, hk, hafter⟩ := ih h
      exact ⟨.instr i :: before, rest, rfl, by simp; omega, hafter⟩

namespace Symbolic

/-- Room for the frames that the machine can allocate. -/
def Room.machine : Room :=
  fun p => decide p.bare.Fits

/-- The machine's frame of a symbolic frame. -/
structure Frame.Matches (a : Assembly) (f : Frame) (g : Machine.Frame) : Prop where
  routine : a.routine? g.routine = some f.routine
  isMain : f.isMain = true ↔ g.routine = .main
  position : ∃ before, f.routine.code = before ++ f.rest ∧ codeSize before = g.pc
  slots : ∀ n v, g.slots[n]? = some v → f.slots n = v
  registers : ∀ n v, g.registers[n]? = some v → f.registers n = v
  returnTo : g.returnTo = f.returnTo

structure State.Matches (a : Assembly) (s : State) (t : Machine.State) : Prop where
  frame : s.frame.Matches a t.frame
  callers : List.Forall₂ (Frame.Matches a) s.callers t.callers
  stack : t.stack = s.stack
  input : t.input = s.input
  printed : t.printed = s.printed

/-- Both go on in states that match, or both end in the same way. No outcome matches one that
is stuck. -/
def Outcome.Matches (a : Assembly) : Outcome → Machine.Outcome → Prop
  | .running s, .running t => s.Matches a t
  | .halted s, .halted t => t.printed = s.printed
  | .failed e s, .failed e' t => e' = e ∧ t.printed = s.printed
  | .crashed s, .crashed t => t.printed = s.printed
  | _, _ => False

section

variable {a : Assembly} {s : State} {t : Machine.State}

lemma Outcome.Matches.run?_eq {o : Outcome} {o' : Machine.Outcome} (h : o.Matches a o')
    (sink : Sink) : o'.run? sink = o.run? sink := by
  cases o <;> cases o' <;> simp_all [Matches, run?, Machine.Outcome.run?]

lemma Outcome.Matches.ending_ne_stuck {o : Outcome} {o' : Machine.Outcome} (h : o.Matches a o')
    {sink : Sink} {r : Machine.Run} (hr : o.run? sink = some r) : r.ending ≠ .stuck := by
  cases o with
  | running s => cases hr
  | halted s =>
    cases hr
    rw [Machine.finish]
    split <;> simp
  | failed e s =>
    cases hr
    simp
  | crashed s =>
    cases hr
    simp
  | stuck s => cases o' <;> exact h.elim

lemma Outcome.Matches.printed_eq {o : Outcome} {o' : Machine.Outcome} (h : o.Matches a o') :
    o'.state.printed = o.state.printed := by
  cases o <;> cases o'
  case running.running => exact State.Matches.printed h
  all_goals simp_all [Matches, state, Machine.Outcome.state]

/-! ### What the states offer -/

lemma Frame.Matches.setSlot {f : Frame} {g : Machine.Frame} (h : f.Matches a g) (n : Nat)
    (v : Value) :
    (f.setSlot n v).Matches a { g with slots := g.slots.setIfInBounds n v } := by
  refine ⟨h.routine, h.isMain, h.position, ?_, h.registers, h.returnTo⟩
  intro m w hw
  rw [Array.getElem?_setIfInBounds] at hw
  by_cases hm : n = m
  · subst hm
    simp_all [Frame.setSlot]
  · rw [if_neg hm] at hw
    exact (Function.update_of_ne (Ne.symm hm) v f.slots).trans (h.slots m w hw)

lemma Frame.Matches.setRegister {f : Frame} {g : Machine.Frame} (h : f.Matches a g) (n : Nat)
    (v : Value) :
    (f.setRegister n v).Matches a { g with registers := g.registers.setIfInBounds n v } := by
  refine ⟨h.routine, h.isMain, h.position, h.slots, ?_, h.returnTo⟩
  intro m w hw
  rw [Array.getElem?_setIfInBounds] at hw
  by_cases hm : n = m
  · subst hm
    simp_all [Frame.setRegister]
  · rw [if_neg hm] at hw
    exact (Function.update_of_ne (Ne.symm hm) v f.registers).trans (h.registers m w hw)

lemma Frame.Matches.register_eq {f : Frame} {g : Machine.Frame} (h : f.Matches a g) {n : Nat}
    (hn : n < g.registers.size) : g.registers[n]? = some (f.registers n) := by
  rw [Array.getElem?_eq_getElem hn, h.registers n _ (Array.getElem?_eq_getElem hn)]

lemma Frame.Matches.slot_eq {f : Frame} {g : Machine.Frame} (h : f.Matches a g) {n : Nat}
    (hn : n < g.slots.size) : g.slots[n]? = some (f.slots n) := by
  rw [Array.getElem?_eq_getElem hn, h.slots n _ (Array.getElem?_eq_getElem hn)]

/-- At the start of a routine the slots hold the arguments, and all else is zero. -/
lemma start_slots {ref : RoutineRef} {r : Executable.Routine} {vs : List Value}
    {returnTo : Machine.ReturnTo} {n : Nat} {v : Value}
    (h : (Machine.Frame.start ref r vs returnTo).slots[n]? = some v) : vs.getD n 0 = v := by
  rw [Machine.Frame.start, Array.getElem?_append] at h
  by_cases hn : n < vs.length
  · simp_all
  · simp_all [Array.getElem?_replicate]

lemma start_registers {ref : RoutineRef} {r : Executable.Routine} {vs : List Value}
    {returnTo : Machine.ReturnTo} {n : Nat} {v : Value}
    (h : (Machine.Frame.start ref r vs returnTo).registers[n]? = some v) : 0 = v := by
  rw [Machine.Frame.start, Array.getElem?_replicate] at h
  simp_all

lemma Frame.Matches.enter {p : Assembly.Routine} {k : Nat} (hp : a.procedures[k]? = some p)
    (r : Executable.Routine) (vs : List Value) (returnTo : Machine.ReturnTo) :
    (Frame.enter p vs returnTo).Matches a (.start (.procedure k) r vs returnTo) where
  routine := hp
  isMain := iff_of_false Bool.false_ne_true RoutineRef.noConfusion
  position := ⟨[], rfl, rfl⟩
  slots _ _ := start_slots
  registers _ _ := start_registers
  returnTo := rfl

lemma Frame.Matches.main (x : Executable) :
    (Frame.main a).Matches a (.start .main x.main [] .stack) where
  routine := rfl
  isMain := iff_of_true rfl rfl
  position := ⟨[], rfl, rfl⟩
  slots _ _ := start_slots
  registers _ _ := start_registers
  returnTo := rfl

namespace State.Matches

lemma withStack (h : s.Matches a t) (stack : List Value) :
    Matches a { s with stack := stack } { t with stack := stack } :=
  { h with stack := rfl }

lemma withInput (h : s.Matches a t) (input : InputSource) :
    Matches a { s with input := input } { t with input := input } :=
  { h with input := rfl }

lemma push (h : s.Matches a t) (v : Value) : (s.push v).Matches a (t.push v) :=
  { h with stack := congrArg (v :: ·) h.stack }

lemma setSlot (h : s.Matches a t) {n : Nat} (hn : n < t.frame.slots.size) (v : Value) :
    (Outcome.running (s.setSlot n v)).Matches a (t.setSlot n v) := by
  rw [Machine.State.setSlot_eq hn]
  exact { h with frame := h.frame.setSlot n v }

lemma setRegister (h : s.Matches a t) {n : Nat} (hn : n < t.frame.registers.size) (v : Value) :
    (Outcome.running (s.setRegister n v)).Matches a (t.setRegister n v) := by
  rw [Machine.State.setRegister_eq hn]
  exact { h with frame := h.frame.setRegister n v }

/-- A branch goes on at the position of what follows the label. -/
lemma branch (h : s.Matches a t) {l : String} {k : Nat}
    (hl : (Link.targets 0 s.frame.routine.code).lookup l = some k) :
    (s.branch l).Matches a (.running (t.goTo k)) := by
  obtain ⟨before, rest, hcode, hk, hafter⟩ := Link.lookup_targets hl
  rw [Nat.zero_add] at hk
  rw [State.branch, hafter]
  exact { h with frame := { h.frame with position := ⟨before, hcode, hk⟩ } }

lemma branchIf (h : s.Matches a t) {c : Condition} {vs : List Value} {l : String} {k : Nat}
    (hl : (Link.targets 0 s.frame.routine.code).lookup l = some k) (hvs : vs.length = c.arity) :
    (s.branchIf c vs l).Matches a (t.branchIf c vs k) := by
  obtain ⟨b, hb⟩ := Condition.holds?_isSome hvs
  rw [State.branchIf, Machine.State.branchIf, hb]
  cases b with
  | true => exact h.branch hl
  | false => exact h

lemma pop (h : s.Matches a t) {next : Value → State → Outcome}
    {next' : Value → Machine.State → Machine.Outcome}
    (hnext : ∀ v rest, (next v { s with stack := rest }).Matches a
      (next' v { t with stack := rest })) :
    (s.pop next).Matches a (t.pop s.frame.name next') := by
  unfold State.pop Machine.State.pop
  rw [h.stack]
  cases s.stack with
  | nil => exact ⟨rfl, h.printed⟩
  | cons v rest => exact hnext v rest

lemma popMany (h : s.Matches a t) {n : Nat} {next : List Value → State → Outcome}
    {next' : List Value → Machine.State → Machine.Outcome}
    (hnext : ∀ vs rest, vs.length = n → (next vs { s with stack := rest }).Matches a
      (next' vs { t with stack := rest })) :
    (s.popMany n next).Matches a (t.popMany s.frame.name n next') := by
  unfold State.popMany Machine.State.popMany
  rw [h.stack]
  by_cases hn : s.stack.length < n
  · have htop : (s.stack.take n).length < n := by rw [List.length_take]; omega
    simp only [hn, htop, if_true]
    exact ⟨rfl, h.printed⟩
  · have htop : (s.stack.take n).length = n := by rw [List.length_take]; omega
    simp only [hn, htop, lt_irrefl, if_false]
    exact hnext _ _ (by rw [List.length_reverse, htop])

lemma read (h : s.Matches a t) {next : Value → State → Outcome}
    {next' : Value → Machine.State → Machine.Outcome}
    (hnext : ∀ v rest, (next v { s with input := rest }).Matches a
      (next' v { t with input := rest })) :
    (s.read next).Matches a (t.read next') := by
  unfold State.read Machine.State.read
  rw [h.input]
  match s.input.next? with
  | none => exact ⟨rfl, h.printed⟩
  | some (.ok v, rest) => exact hnext v rest
  | some (.error e, rest) => exact ⟨rfl, h.printed⟩

lemma print (h : s.Matches a t) (sink : Sink) (v : Value) :
    (s.print sink v).Matches a (t.print sink v) := by
  unfold State.print Machine.State.print
  rw [h.printed]
  by_cases hv : sink.accepts s.printed v
  · simp only [hv, if_true]
    exact { h with printed := rfl }
  · simp only [hv]
    exact ⟨rfl, h.printed⟩

lemma apply (h : s.Matches a t) {o : Operation} {vs : List Value} (hvs : vs.length = o.arity)
    {next : Value → Outcome} {next' : Value → Machine.Outcome}
    (hnext : ∀ v, (next v).Matches a (next' v)) :
    (s.apply o vs next).Matches a (t.apply s.frame.name o vs next') := by
  unfold State.apply Machine.State.apply
  match hv : o.apply vs with
  | .ok v => exact hnext v
  | .error .divisionByZero => exact ⟨rfl, h.printed⟩
  | .error .operandCount => exact (Operation.apply_ne_operandCount hvs hv).elim

lemma slot (h : s.Matches a t) {n : Nat} (hn : n < t.frame.slots.size) {o : Outcome}
    {next : Value → Machine.Outcome} (hnext : o.Matches a (next (s.frame.slots n))) :
    o.Matches a (t.slot n next) := by
  rwa [Machine.State.slot_eq (h.frame.slot_eq hn)]

lemma register (h : s.Matches a t) {n : Nat} (hn : n < t.frame.registers.size) {o : Outcome}
    {next : Value → Machine.Outcome} (hnext : o.Matches a (next (s.frame.registers n))) :
    o.Matches a (t.register n next) := by
  rwa [Machine.State.register_eq (h.frame.register_eq hn)]

lemma registers (h : s.Matches a t) {rs : List Nat}
    (hrs : ∀ r ∈ rs, r < t.frame.registers.size) {o : Outcome}
    {next : List Value → Machine.Outcome}
    (hnext : o.Matches a (next (rs.map s.frame.registers))) :
    o.Matches a (t.registers rs next) := by
  have hread : List.Forall₂ (fun r v => t.frame.registers[r]? = some v) rs
      (rs.map s.frame.registers) := by
    rw [List.forall₂_map_right_iff, List.forall₂_same]
    exact fun r hr => h.frame.register_eq (hrs r hr)
  rw [Machine.State.registers_eq hread]
  exact hnext

lemma operand (h : s.Matches a t) {b : Operand}
    (hslot : ∀ n, b = .slot n → n < t.frame.slots.size)
    (hregister : ∀ n, b = .register n → n < t.frame.registers.size) {o : Outcome}
    {next : Value → Machine.Outcome} (hnext : o.Matches a (next (s.frame.operand b))) :
    o.Matches a (t.operand b next) := by
  cases b with
  | literal v => exact hnext
  | slot n => exact h.slot (hslot n rfl) hnext
  | register n => exact h.register (hregister n rfl) hnext

end State.Matches

/-- A result goes where the caller wants it. -/
lemma State.Matches.ret {x : Executable} (h : s.Matches a t) (hsound : t.Sound x) (v : Value) :
    (s.ret v).Matches a (t.ret v) := by
  have hcallers := h.callers
  have hresults := hsound.results
  unfold State.ret Machine.State.ret
  cases hs : s.callers with
  | nil =>
    rw [hs, List.forall₂_nil_left_iff] at hcallers
    rw [hcallers]
    exact h.printed
  | cons caller callers =>
    rw [hs] at hcallers
    obtain ⟨caller', callers', hcaller, hrest, ht⟩ := List.forall₂_cons_left_iff.mp hcallers
    rw [ht] at hresults ⊢
    rw [h.frame.returnTo]
    have hmatches : Matches a { s with frame := caller, callers := callers }
        { t with frame := caller', callers := callers' } :=
      { h with frame := hcaller, callers := hrest }
    cases hto : s.frame.returnTo with
    | stack => exact hmatches.push v
    | register k =>
      refine hmatches.setRegister ?_ v
      exact (List.isChain_cons_cons.mp hresults).1 k (h.frame.returnTo.trans hto)

/-- At a line that defines a label the machine already is behind it. -/
lemma step_label (room : Room) (sink : Sink) (h : s.Matches a t) {l : String} {rest : List Line}
    (hl : s.frame.rest = .label l :: rest) : (step room a sink s).Matches a (.running t) := by
  obtain ⟨before, hcode, hpc⟩ := h.frame.position
  rw [hl, List.append_cons] at hcode
  simp only [step, hl]
  exact { h with frame := { h.frame with position := ⟨_, hcode, by simpa using hpc⟩ } }

end

section

variable {a : Assembly} {x : Executable} (hlink : a.link = .ok x) {s : State} {t : Machine.State}
include hlink

/-- Both start, or there can be no frame of main. -/
lemma start_matches (input : InputSource) :
    (start .machine a input).Matches a (Machine.start x input) := by
  have hfits := Link.fits_of_routine (link_eq_ok hlink).2.2
  unfold start Machine.start
  by_cases hmain : x.main.Fits
  · have hroom : Room.machine a.main = true := decide_eq_true (hfits.mp hmain)
    rw [if_pos hroom, if_pos hmain]
    exact ⟨.main x, .nil, rfl, rfl, rfl⟩
  · have hroom : ¬Room.machine a.main = true := fun h => hmain (hfits.mpr (of_decide_eq_true h))
    rw [if_neg hroom, if_neg hmain]
    rfl

lemma State.Matches.call (h : s.Matches a t) {f : String} {vs : List Value} {k : Nat}
    (hf : a.table.lookup f = some (k, vs.length)) (returnTo : Machine.ReturnTo) :
    (s.call .machine a f vs returnTo).Matches a (t.call x k vs returnTo) := by
  obtain ⟨p, hp, hfind, harity⟩ := lookup_table hf
  have hp' : a.routine? (.procedure k) = some p := hp
  obtain ⟨q, href, hroutine⟩ := exists_linked_routine hlink hp'
  have hq : x.procedures[k]? = some q := href
  have hlinked := Linked.of_routine href hroutine
  have hlength : vs.length ≤ q.slots := by
    rw [← harity, ← (Link.routine_named hroutine).2]
    exact hlinked.arity_le_slots
  have hfits := Link.fits_of_routine hroutine
  simp only [State.call, hfind, Machine.State.call, hq]
  by_cases hfit : q.Fits
  · have hroom : Room.machine p = true := decide_eq_true (hfits.mp hfit)
    rw [if_pos hroom, if_neg (not_not.mpr hfit), if_pos hlength]
    exact { h with frame := .enter hp q vs returnTo, callers := .cons h.frame h.callers }
  · have hroom : ¬Room.machine p = true := fun h => hfit (hfits.mpr (of_decide_eq_true h))
    rw [if_neg hroom, if_pos hfit]
    exact h.printed

/-- An instruction and what it was linked to do the same. -/
lemma execute_matches (sink : Sink) {r : Executable.Routine} {i : SymbolicInstr} {j : LinkedInstr}
    (h : s.Matches a t) (hsound : t.Sound x) (hr : x.routine? t.frame.routine = some r)
    (hname : r.name = s.frame.routine.name) (hj : LinkedInstr.Sound x r j)
    (hi : (Link.contextOf a.table r.name s.frame.routine.code).uncounted i = .ok j) :
    (s.execute .machine a sink i).Matches a (t.execute x sink r.name.text j) := by
  obtain ⟨q, hq, hslots, hregisters, -⟩ := hsound.frames t.frame (by simp)
  obtain rfl : q = r := Option.some.inj (hq.symm.trans hr)
  have hs := hj.slots
  have hg := hj.registers
  rw [← hslots] at hs
  rw [← hregisters] at hg
  rw [show q.name.text = s.frame.name from congrArg RoutineName.text hname]
  cases i with
  | pushConstant v =>
    cases hi
    exact h.push v
  | pushVariable n =>
    cases hi
    exact h.slot (hs n (by simp [LinkedInstr.slots])) (h.push _)
  | popVariable n =>
    cases hi
    rw [State.execute, Machine.State.execute]
    refine h.pop fun v rest => ?_
    exact (h.withStack rest).setSlot (hs n (by simp [LinkedInstr.slots])) v
  | operate o =>
    cases hi
    rw [State.execute, Machine.State.execute]
    refine h.popMany fun vs rest hvs => ?_
    exact (h.withStack rest).apply hvs fun v => (h.withStack rest).push v
  | input =>
    cases hi
    rw [State.execute, Machine.State.execute]
    exact h.read fun v rest => (h.withInput rest).push v
  | print =>
    cases hi
    rw [State.execute, Machine.State.execute]
    exact h.pop fun v rest => (h.withStack rest).print sink v
  | drop =>
    cases hi
    exact h.pop fun v rest => h.withStack rest
  | branch l =>
    obtain ⟨k, hk, hj⟩ := bind_eq_ok_iff.mp hi
    cases hj
    exact h.branch (Link.target_eq_ok_iff.mp hk)
  | branchIf c l =>
    obtain ⟨k, hk, hj⟩ := bind_eq_ok_iff.mp hi
    cases hj
    rw [State.execute, Machine.State.execute]
    refine h.popMany fun vs rest hvs => ?_
    exact (h.withStack rest).branchIf (Link.target_eq_ok_iff.mp hk) hvs
  | call f n =>
    obtain ⟨k, hk, hj⟩ := bind_eq_ok_iff.mp hi
    cases hj
    rw [State.execute, Machine.State.execute]
    refine h.popMany fun vs rest hvs => ?_
    subst hvs
    exact (h.withStack rest).call hlink (Link.callee_eq_ok_iff.mp hk) .stack
  | ret =>
    cases hi
    rw [State.execute, Machine.State.execute]
    exact h.pop fun v rest => (h.withStack rest).ret (hsound.same_frames rfl rfl) v
  | move b d =>
    obtain ⟨place, rfl⟩ : ∃ place, j = .move b place := by
      cases d <;> cases hi <;> exact ⟨_, rfl⟩
    have hb {o : Outcome} {next : Value → Machine.Outcome}
        (hnext : o.Matches a (next (s.frame.operand b))) : o.Matches a (t.operand b next) := by
      refine h.operand ?_ ?_ hnext
      · rintro n rfl
        exact hs n (by simp [LinkedInstr.slots])
      · rintro n rfl
        exact hg n (by simp [LinkedInstr.registers])
    cases d with
    | literal v => cases hi
    | slot n =>
      cases hi
      exact hb (h.setSlot (hs n (by simp [LinkedInstr.slots])) _)
    | register n =>
      cases hi
      exact hb (h.setRegister (hg n (by simp [LinkedInstr.registers])) _)
  | operateRegisters o rs k =>
    rw [Link.Context.uncounted] at hi
    split at hi <;> cases hi
    rename_i hlength
    refine h.registers (fun n hn => hg n (by simp [LinkedInstr.registers, hn])) ?_
    refine h.apply (by rw [List.length_map, hlength]) fun v => ?_
    exact h.setRegister (hg k (by simp [LinkedInstr.registers])) v
  | inputRegister k =>
    cases hi
    rw [State.execute, Machine.State.execute]
    refine h.read fun v rest => ?_
    exact (h.withInput rest).setRegister (hg k (by simp [LinkedInstr.registers])) v
  | printRegister k =>
    cases hi
    exact h.register (hg k (by simp [LinkedInstr.registers])) (h.print sink _)
  | branchIfRegisters c rs l =>
    rw [Link.Context.uncounted] at hi
    split at hi
    · rename_i hlength
      obtain ⟨k, hk, hj⟩ := bind_eq_ok_iff.mp hi
      cases hj
      refine h.registers (fun n hn => hg n hn) ?_
      exact h.branchIf (Link.target_eq_ok_iff.mp hk) (by rw [List.length_map, hlength])
    · cases hi
  | callRegisters f first n k =>
    rw [Link.Context.uncounted] at hi
    split at hi
    · obtain ⟨callee, hcallee, hj⟩ := bind_eq_ok_iff.mp hi
      cases hj
      refine h.registers (fun m hm => hg m (by simp [LinkedInstr.registers, hm])) ?_
      refine h.call hlink ?_ (.register k)
      rw [List.length_map, List.length_range']
      exact Link.callee_eq_ok_iff.mp hcallee
    · cases hi
  | retRegister k =>
    cases hi
    exact h.register (hg k (by simp [LinkedInstr.registers])) (h.ret hsound _)

/-- The routine of the machine's frame was linked from that of the symbolic one. -/
lemma Frame.Matches.linked {f : Frame} {g : Machine.Frame} (h : f.Matches a g) :
    ∃ r, r.name = f.routine.name ∧ Linked x a.table g.routine r f.routine.code := by
  obtain ⟨r, hr, hroutine⟩ := exists_linked_routine hlink h.routine
  exact ⟨r, (Link.routine_named hroutine).1, .of_routine hr hroutine⟩

/-- At every other line, and at the end, both make a step. -/
lemma step_matches (sink : Sink) (h : s.Matches a t) (hsound : t.Sound x)
    (hl : ∀ l rest, s.frame.rest ≠ Line.label l :: rest) :
    (step .machine a sink s).Matches a (Machine.step x sink t) := by
  obtain ⟨r, hname, hlinked⟩ := h.frame.linked hlink
  obtain ⟨before, hcode, hpc⟩ := h.frame.position
  match hrest : s.frame.rest with
  | .label l :: rest => exact (hl l rest hrest).elim
  | .instr i :: rest =>
    rw [hrest] at hcode
    have hembeds : Embeds s.frame.routine.code t.frame.pc (.instr i :: rest) :=
      ⟨before, [], by simpa using hcode, hpc⟩
    obtain ⟨j, hfetch, hi, -, -⟩ := hlinked.fetch hembeds
    have hlt : t.frame.pc < r.code.size := (Array.getElem?_eq_some_iff.mp hfetch).1
    have hnext : (s.goTo rest).Matches a (t.goTo (t.frame.pc + 1)) := by
      rw [List.append_cons] at hcode
      have hnext : codeSize (before ++ [Line.instr i]) = t.frame.pc + 1 := by simp [hpc]
      exact { h with frame := { h.frame with position := ⟨_, hcode, hnext⟩ } }
    rw [Machine.step_eq_execute hlinked.found hfetch]
    simp only [step, hrest]
    exact execute_matches hlink sink hnext (hsound.goTo hlinked.found hlt) hlinked.found hname
      (link_sound hlink hlinked.found hfetch) hi
  | [] =>
    rw [hrest, List.append_nil] at hcode
    have hend : r.code[t.frame.pc]? = none := by
      rw [Array.getElem?_eq_none_iff, hlinked.code_size, hcode, hpc]
    rw [Machine.step_eq_of_end hlinked.found hend]
    simp only [step, hrest]
    by_cases hmain : t.frame.routine = .main
    · rw [if_pos hmain, if_pos (h.frame.isMain.mpr hmain)]
      exact h.printed
    · rw [if_neg hmain, if_neg (mt h.frame.isMain.mp hmain), hname]
      exact ⟨rfl, h.printed⟩

/-! ### Runs -/

omit hlink in
/-- The labels at which a run stands are behind it after as many steps, whatever the program. -/
lemma exists_after_labels (room : Room) (sink : Sink) (s : State) :
    ∃ k u, (∀ a, after room a sink k (.running s) = .running u) ∧
      (∀ a t, s.Matches a t → u.Matches a t) ∧ ∀ l rest, u.frame.rest ≠ Line.label l :: rest := by
  generalize hrest : s.frame.rest = rest
  induction rest generalizing s with
  | nil => exact ⟨0, s, fun _ => rfl, fun _ _ => id, by simp [hrest]⟩
  | cons line rest ih =>
    cases line with
    | instr i => exact ⟨0, s, fun _ => rfl, fun _ _ => id, by simp [hrest]⟩
    | label l =>
      have hstep (a : Assembly) : step room a sink s = .running (s.goTo rest) := by
        simp only [step, hrest]
      obtain ⟨k, u, hk, hu, hl⟩ := ih (s.goTo rest) rfl
      refine ⟨k + 1, u, fun a => by rw [after_succ_running, hstep, hk], fun a t h => hu a t ?_, hl⟩
      have hmatches := step_label room sink h hrest
      rwa [hstep] at hmatches

/-- Whatever the symbolic machine comes to, the machine comes to it. -/
lemma after_matches (sink : Sink) (n : Nat) {o : Outcome} {o' : Machine.Outcome}
    (h : o.Matches a o') (hsound : o'.Sound x) :
    ∃ m, (after .machine a sink n o).Matches a (Machine.after x sink m o') := by
  induction n generalizing o o' with
  | zero => exact ⟨0, h⟩
  | succ n ih =>
    cases o with
    | running s =>
      cases o' with
      | running t =>
        by_cases hl : ∃ l rest, s.frame.rest = Line.label l :: rest
        · -- Labels are no code, so the machine waits.
          obtain ⟨l, rest, hl⟩ := hl
          exact ih (step_label .machine sink h hl) hsound
        · have hstep := step_matches hlink sink h hsound fun l rest he => hl ⟨l, rest, he⟩
          obtain ⟨m, hm⟩ := ih hstep (Machine.step_sound hlink sink hsound)
          exact ⟨m + 1, hm⟩
      | _ => exact h.elim
    | _ => exact ⟨0, h⟩

/-- Whatever the machine comes to, the symbolic machine comes to it. -/
lemma exists_after_matches (sink : Sink) (n : Nat) {o : Outcome} {o' : Machine.Outcome}
    (h : o.Matches a o') (hsound : o'.Sound x) :
    ∃ m, (after .machine a sink m o).Matches a (Machine.after x sink n o') := by
  induction n generalizing o o' with
  | zero => exact ⟨0, h⟩
  | succ n ih =>
    cases o' with
    | running t =>
      cases o with
      | running s =>
        -- The other way round, one step of the machine is a step past all labels before it.
        obtain ⟨k, u, hk, hu, hl⟩ := exists_after_labels .machine sink s
        have hstep := step_matches hlink sink (hu a t h) hsound hl
        obtain ⟨m, hm⟩ := ih hstep (Machine.step_sound hlink sink hsound)
        refine ⟨k + (m + 1), ?_⟩
        rwa [after_add, hk]
      | _ => exact h.elim
    | _ => exact ⟨0, h⟩

end

/-- A linked program does what its labelled code does by itself, on every input and into every
sink. With room for the frames that the machine can allocate both end with the same results and
the same output; none of them is stuck, and whether or not they end, what one has printed at any
moment the other has printed at some moment. That is also what the labelled code does with room
for all frames, until it crashes. It crashes only if it has a routine whose frames cannot be
allocated. -/
theorem linked_run_iff_symbolic_run {a : Assembly} {x : Executable} (hlink : a.link = .ok x)
    (input : InputSource) (sink : Sink) :
    (∀ r, (∃ k, Machine.run x input sink k = some r) ↔
        ∃ k, run .machine a input sink k = some r) ∧
      (∀ k r, run .machine a input sink k = some r → r.ending ≠ .stuck) ∧
      (∀ n, ∃ m, Machine.printedAfter x input sink n = printedAfter .machine a input sink m) ∧
      (∀ n, ∃ m, printedAfter .machine a input sink n = Machine.printedAfter x input sink m) ∧
      (∀ n, run .machine a input sink n = run .unlimited a input sink n ∧
          printedAfter .machine a input sink n = printedAfter .unlimited a input sink n ∨
        ∃ m q, m ≤ n ∧ run .machine a input sink n = some ⟨.crashed, q⟩ ∧
          q.toList = printedAfter .unlimited a input sink m) ∧
      ((∀ p ∈ a.main :: a.procedures, p.bare.Fits) →
        ∀ n, run .machine a input sink n = run .unlimited a input sink n ∧
          printedAfter .machine a input sink n = printedAfter .unlimited a input sink n) := by
  have hstart := start_matches hlink input
  have hsound := Machine.start_sound x input
  refine ⟨fun r => ⟨?_, ?_⟩, ?_, ?_, ?_, run_unlimited .machine a input sink, ?_⟩
  · rintro ⟨k, hk⟩
    obtain ⟨m, hm⟩ := exists_after_matches hlink sink k hstart hsound
    refine ⟨m, ?_⟩
    rw [run, ← hm.run?_eq, ← Machine.run_eq_run?]
    exact hk
  · rintro ⟨k, hk⟩
    obtain ⟨m, hm⟩ := after_matches hlink sink k hstart hsound
    refine ⟨m, ?_⟩
    rw [Machine.run_eq_run?, hm.run?_eq]
    exact hk
  · intro k r hk
    obtain ⟨m, hm⟩ := after_matches hlink sink k hstart hsound
    exact hm.ending_ne_stuck hk
  · intro n
    obtain ⟨m, hm⟩ := exists_after_matches hlink sink n hstart hsound
    exact ⟨m, congrArg Array.toList hm.printed_eq⟩
  · intro n
    obtain ⟨m, hm⟩ := after_matches hlink sink n hstart hsound
    exact ⟨m, congrArg Array.toList hm.printed_eq.symm⟩
  · intro hfits n
    exact run_eq_of_room (fun p hp => decide_eq_true (hfits p hp)) input n

/-- Count down to zero. Two labels stand at one position, one at the end of main, and a label
of main is a label of the procedure too. -/
def tally : Assembly where
  source := "tally"
  procedures :=
    [⟨.procedure "show", 1, [.instr (.pushVariable 0), .instr .print, .instr (.branch "end"),
      .label "end", .instr (.pushConstant 0), .instr .ret]⟩]
  main := .main
    [.instr .input, .instr (.popVariable 0), .label "again", .label "loop",
      .instr (.move (.slot 0) (.register 0)), .instr (.branchIfRegisters .zero [0] "end"),
      .instr (.callRegisters "show" 0 1 1), .instr (.pushVariable 0), .instr (.pushConstant 1),
      .instr (.operate .minus), .instr (.popVariable 0), .instr (.branch "loop"), .label "end"]

theorem tally_run_iff_symbolic_run : ∃ x, tally.link = .ok x ∧
    (∀ p ∈ tally.main :: tally.procedures, p.bare.Fits) ∧
    run .unlimited tally (.ofInput [.ok 2]) .endless 60 = some ⟨.halted, #[2, 1]⟩ ∧
    ∃ k, Machine.run x (.ofInput [.ok 2]) .endless k = some ⟨.halted, #[2, 1]⟩ := by
  obtain ⟨x, hlink⟩ : ∃ x, tally.link = .ok x := ⟨_, rfl⟩
  have hfits : ∀ p ∈ tally.main :: tally.procedures, p.bare.Fits := by decide +kernel
  have hrun : run .unlimited tally (.ofInput [.ok 2]) .endless 60 = some ⟨.halted, #[2, 1]⟩ := by
    decide +kernel
  obtain ⟨hiff, -, -, -, -, hroom⟩ :=
    linked_run_iff_symbolic_run hlink (.ofInput [.ok 2]) .endless
  exact ⟨x, hlink, hfits, hrun, (hiff _).mpr ⟨60, (hroom hfits 60).1.trans hrun⟩⟩

/-- With room for all frames the code prints a zero, but the machine crashes. -/
theorem vast_prints_with_room : ∃ x, Machine.vast.link = .ok x ∧
    run .unlimited Machine.vast (.ofInput []) .endless 2 = some ⟨.halted, #[0]⟩ ∧
    ∀ k, Machine.run x (.ofInput []) .endless k = some ⟨.crashed, #[]⟩ := by
  refine ⟨_, rfl, by decide +kernel, fun k => ?_⟩
  exact if_neg (by decide +kernel)

end Symbolic

end Izmir
