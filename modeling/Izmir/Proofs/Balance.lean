import Izmir.Proofs.Runs
import Izmir.Proofs.Safety

/-!
# A discipline for the operand stack

All frames share one operand stack. A height for every position of the code is balanced if
each instruction finds its operands below that height, and if the heights before and after it
differ by what it pops and pushes. Where heights are balanced, a frame holds as many values on
the stack as the height of its position says, wherever the program has come from; no
instruction reaches below the base of its frame, and no procedure ends without returning.
-/

namespace Izmir

namespace Instr

variable {τ κ δ : Type}

/-- How many values an instruction takes from the stack. -/
def pops : Instr τ κ δ → Nat
  | .popVariable _ | .print | .drop | .ret => 1
  | .operate o => o.arity
  | .branchIf c _ => c.arity
  | .call _ n => n
  | _ => 0

/-- How many values are on the stack in their place when the next instruction begins. For a
call that is the result. -/
def pushes : Instr τ κ δ → Nat
  | .pushConstant _ | .pushVariable _ | .operate _ | .input | .call _ _ => 1
  | _ => 0

/-- Whether control may go on to the next instruction. -/
def falls : Instr τ κ δ → Bool
  | .branch _ | .ret | .retRegister _ => false
  | _ => true

/-- The heights around an instruction differ by what it does to the stack. The result of a call
takes `unit` values on it, and a return leaves nothing behind. -/
structure BalancedAt (unit : Nat) (goes : τ → Nat → Prop) (height : Nat → Nat) (n : Nat)
    (i : Instr τ κ δ) : Prop where
  pops : i.pops ≤ height n
  next : i.falls = true → height (n + 1) + i.pops = height n + i.pushes
  jump : ∀ t m, i.target? = some t → goes t m → height m + i.pops = height n
  call : ∀ c, i.call? = some c → i.pushes = unit
  ret : i.isReturn = true → height n = i.pops

end Instr

/-- Control does not run off the end of a routine. -/
structure Executable.Routine.Closed (r : Executable.Routine) : Prop where
  nonempty : 0 < r.code.size
  next : ∀ (n : Nat) (i : LinkedInstr), r.code[n]? = some i → i.falls = true → n + 1 < r.code.size
  jump : ∀ (n : Nat) (i : LinkedInstr) (t : Nat), r.code[n]? = some i → i.target? = some t →
    t < r.code.size

/-- Heights are balanced at each instruction, routines begin with nothing on the stack, and
procedures end in returns. -/
structure Executable.Balanced (x : Executable) (unit : Nat) (height : RoutineRef → Nat → Nat) :
    Prop where
  start : ∀ ref, height ref 0 = 0
  instr : ∀ (ref : RoutineRef) (r : Executable.Routine) (n : Nat) (i : LinkedInstr),
    x.routine? ref = some r → r.code[n]? = some i → i.BalancedAt unit Eq (height ref) n
  closed : ∀ (k : Nat) (r : Executable.Routine), x.procedures[k]? = some r → r.Closed

namespace Machine

variable {x : Executable} {sink : Sink}

/-- How many values a result takes on the stack. -/
def ReturnTo.values : ReturnTo → Nat
  | .stack => 1
  | .register _ => 0

/-- A frame that has moved to a position. -/
structure Frame.MovedTo (f : Frame) (pc : Nat) (g : Frame) : Prop where
  routine : g.routine = f.routine
  returnTo : g.returnTo = f.returnTo
  pc : g.pc = pc

/-- What an instruction can do, as far as control and the stack go. It takes its operands from
the top of the stack and leaves what lies below. -/
inductive Effect (x : Executable) (s : State) (i : LinkedInstr) : Outcome → Prop
  | next {t : State} (pushed : List Value) : i.falls = true →
      s.frame.MovedTo (s.frame.pc + 1) t.frame → t.callers = s.callers →
      t.stack = pushed ++ s.stack.drop i.pops → pushed.length = i.pushes → Effect x s i (.running t)
  | jump {t : State} {pc : Nat} : i.target? = some pc → s.frame.MovedTo pc t.frame →
      t.callers = s.callers → t.stack = s.stack.drop i.pops → Effect x s i (.running t)
  | call {t : State} {f n : Nat} {r : Executable.Routine} {caller : Frame} :
      i.call? = some (f, n) → i.falls = true → x.procedures[f]? = some r →
      t.frame.routine = .procedure f → t.frame.pc = 0 → t.frame.returnTo.values = i.pushes →
      s.frame.MovedTo (s.frame.pc + 1) caller → t.callers = caller :: s.callers →
      t.stack = s.stack.drop i.pops → Effect x s i (.running t)
  | ret {t : State} {caller : Frame} (pushed : List Value) : i.isReturn = true →
      s.callers = caller :: t.callers → caller.MovedTo caller.pc t.frame →
      t.stack = pushed ++ s.stack.drop i.pops → pushed.length = s.frame.returnTo.values →
      Effect x s i (.running t)
  | halted (t : State) : Effect x s i (.halted t)
  | failed {e : RuntimeError} (t : State) : (∀ r, e ≠ .stackUnderflow r) →
      (∀ r, e ≠ .missingReturn r) → Effect x s i (.failed e t)
  | stuck (t : State) : Effect x s i (.stuck t)
  | crashed (t : State) : Effect x s i (.crashed t)

namespace Effect

variable {s t : State} {i : LinkedInstr} {routine : String}

lemma pop {next : Value → State → Outcome} (hpops : 1 ≤ t.stack.length)
    (h : ∀ v, Effect x s i (next v { t with stack := t.stack.drop 1 })) :
    Effect x s i (t.pop routine next) := by
  cases hs : t.stack with
  | nil => simp [hs] at hpops
  | cons v rest =>
    rw [State.pop_eq hs]
    simpa [hs] using h v

lemma popMany {n : Nat} {next : List Value → State → Outcome} (hpops : n ≤ t.stack.length)
    (h : ∀ vs : List Value, vs.length = n →
      Effect x s i (next vs { t with stack := t.stack.drop n })) :
    Effect x s i (t.popMany routine n next) := by
  have hlen : (t.stack.take n).reverse.length = n := by simpa using hpops
  have hstack : t.stack = (t.stack.take n).reverse.reverse ++ t.stack.drop n := by simp
  rw [State.popMany_eq hstack hlen]
  exact h _ hlen

lemma slot {n : Nat} {next : Value → Outcome} (h : ∀ v, Effect x s i (next v)) :
    Effect x s i (t.slot n next) := by
  unfold State.slot
  split
  · exact h _
  · exact .stuck t

lemma register {n : Nat} {next : Value → Outcome} (h : ∀ v, Effect x s i (next v)) :
    Effect x s i (t.register n next) := by
  unfold State.register
  split
  · exact h _
  · exact .stuck t

lemma registers {rs : List Nat} {next : List Value → Outcome}
    (h : ∀ vs, Effect x s i (next vs)) : Effect x s i (t.registers rs next) := by
  unfold State.registers
  split
  · exact h _
  · exact .stuck t

lemma operand {o : Operand} {next : Value → Outcome} (h : ∀ v, Effect x s i (next v)) :
    Effect x s i (t.operand o next) := by
  cases o with
  | literal v => exact h v
  | slot n => exact .slot h
  | register n => exact .register h

lemma setSlot {n : Nat} {v : Value} (hfalls : i.falls = true) (hpushes : i.pushes = 0)
    (hframe : s.frame.MovedTo (s.frame.pc + 1) t.frame) (hcallers : t.callers = s.callers)
    (hstack : t.stack = s.stack.drop i.pops) : Effect x s i (t.setSlot n v) := by
  unfold State.setSlot
  split
  · exact .next [] hfalls ⟨hframe.routine, hframe.returnTo, hframe.pc⟩ hcallers hstack hpushes.symm
  · exact .stuck t

lemma setRegister {n : Nat} {v : Value} (hfalls : i.falls = true) (hpushes : i.pushes = 0)
    (hframe : s.frame.MovedTo (s.frame.pc + 1) t.frame) (hcallers : t.callers = s.callers)
    (hstack : t.stack = s.stack.drop i.pops) : Effect x s i (t.setRegister n v) := by
  unfold State.setRegister
  split
  · exact .next [] hfalls ⟨hframe.routine, hframe.returnTo, hframe.pc⟩ hcallers hstack hpushes.symm
  · exact .stuck t

lemma print {v : Value} (hfalls : i.falls = true) (hpushes : i.pushes = 0)
    (hframe : s.frame.MovedTo (s.frame.pc + 1) t.frame) (hcallers : t.callers = s.callers)
    (hstack : t.stack = s.stack.drop i.pops) : Effect x s i (t.print sink v) := by
  unfold State.print
  split
  · exact .next [] hfalls hframe hcallers hstack hpushes.symm
  · exact .failed t nofun nofun

lemma branchIf {c : Condition} {vs : List Value} {pc : Nat} (hfalls : i.falls = true)
    (hpushes : i.pushes = 0) (htarget : i.target? = some pc)
    (hframe : s.frame.MovedTo (s.frame.pc + 1) t.frame) (hcallers : t.callers = s.callers)
    (hstack : t.stack = s.stack.drop i.pops) : Effect x s i (t.branchIf c vs pc) := by
  unfold State.branchIf
  split
  · exact .jump htarget ⟨hframe.routine, hframe.returnTo, rfl⟩ hcallers hstack
  · exact .next [] hfalls hframe hcallers hstack hpushes.symm
  · exact .stuck t

lemma apply {o : Operation} {vs : List Value} {next : Value → Outcome}
    (h : ∀ v, Effect x s i (next v)) : Effect x s i (t.apply routine o vs next) := by
  unfold State.apply
  split
  · exact h _
  · exact .failed t nofun nofun
  · exact .stuck t

lemma read {next : Value → State → Outcome}
    (h : ∀ v rest, Effect x s i (next v { t with input := rest })) :
    Effect x s i (t.read next) := by
  unfold State.read
  split
  · exact .failed t nofun nofun
  · exact h _ _
  · exact .failed _ nofun nofun

lemma enter {f n : Nat} {vs : List Value} {place : ReturnTo} (hcall : i.call? = some (f, n))
    (hfalls : i.falls = true) (hplace : place.values = i.pushes)
    (hframe : s.frame.MovedTo (s.frame.pc + 1) t.frame) (hcallers : t.callers = s.callers)
    (hstack : t.stack = s.stack.drop i.pops) : Effect x s i (t.call x f vs place) := by
  unfold State.call
  split
  · exact .stuck t
  · rename_i r hr
    split
    · exact .crashed t
    split
    · exact .call hcall hfalls hr rfl rfl hplace hframe (congrArg (t.frame :: ·) hcallers) hstack
    · exact .stuck t

lemma leave {v : Value} (hret : i.isReturn = true)
    (hframe : s.frame.MovedTo (s.frame.pc + 1) t.frame) (hcallers : t.callers = s.callers)
    (hstack : t.stack = s.stack.drop i.pops) : Effect x s i (t.ret v) := by
  unfold State.ret
  split
  · exact .halted t
  · rename_i caller callers hc
    rw [hcallers] at hc
    have hto := hframe.returnTo
    split
    · rename_i hplace
      refine .ret [v] hret hc ⟨rfl, rfl, rfl⟩ (congrArg (v :: ·) hstack) ?_
      rw [← hto, hplace]
      rfl
    · rename_i k hplace
      unfold State.setRegister
      dsimp only
      split
      · refine .ret [] hret hc ⟨rfl, rfl, rfl⟩ hstack ?_
        rw [← hto, hplace]
        rfl
      · exact .stuck _

end Effect

/-- What a step does when its instruction finds its operands on the stack. -/
lemma step_effect {s : State} {r : Executable.Routine} {i : LinkedInstr}
    (hr : x.routine? s.frame.routine = some r) (hi : r.code[s.frame.pc]? = some i)
    (hpops : i.pops ≤ s.stack.length) : Effect x s i (step x sink s) := by
  rw [step_eq_execute hr hi]
  have hmoved : s.frame.MovedTo (s.frame.pc + 1) (s.goTo (s.frame.pc + 1)).frame := ⟨rfl, rfl, rfl⟩
  have hpops' : i.pops ≤ (s.goTo (s.frame.pc + 1)).stack.length := hpops
  cases i with
  | pushConstant v => exact .next [v] rfl hmoved rfl rfl rfl
  | pushVariable n => exact .slot fun v => .next [v] rfl hmoved rfl rfl rfl
  | popVariable n =>
    rw [State.execute]
    refine .pop hpops' fun v => ?_
    exact .setSlot rfl rfl hmoved rfl rfl
  | operate o =>
    rw [State.execute]
    refine .popMany hpops' fun vs _ => .apply fun v => ?_
    exact .next [v] rfl hmoved rfl rfl rfl
  | input =>
    rw [State.execute]
    refine .read fun v rest => ?_
    exact .next [v] rfl hmoved rfl rfl rfl
  | print =>
    rw [State.execute]
    refine .pop hpops' fun v => ?_
    exact .print rfl rfl hmoved rfl rfl
  | drop =>
    rw [State.execute]
    refine .pop hpops' fun v => ?_
    exact .next [] rfl hmoved rfl rfl rfl
  | branch pc => exact .jump rfl ⟨rfl, rfl, rfl⟩ rfl rfl
  | branchIf c pc =>
    rw [State.execute]
    refine .popMany hpops' fun vs _ => ?_
    exact .branchIf rfl rfl rfl hmoved rfl rfl
  | call f n =>
    rw [State.execute]
    refine .popMany hpops' fun vs _ => ?_
    exact .enter rfl rfl rfl hmoved rfl rfl
  | ret =>
    rw [State.execute]
    refine .pop hpops' fun v => ?_
    exact .leave rfl hmoved rfl rfl
  | move source place =>
    cases place with
    | slot n => exact .operand fun v => .setSlot rfl rfl hmoved rfl rfl
    | register n => exact .operand fun v => .setRegister rfl rfl hmoved rfl rfl
  | operateRegisters o rs n =>
    exact .registers fun vs => .apply fun v => .setRegister rfl rfl hmoved rfl rfl
  | inputRegister n =>
    rw [State.execute]
    refine .read fun v rest => ?_
    exact .setRegister rfl rfl hmoved rfl rfl
  | printRegister n => exact .register fun v => .print rfl rfl hmoved rfl rfl
  | branchIfRegisters c rs pc => exact .registers fun vs => .branchIf rfl rfl rfl hmoved rfl rfl
  | callRegisters f first n k => exact .registers fun vs => .enter rfl rfl rfl hmoved rfl rfl
  | retRegister n => exact .register fun v => .leave rfl hmoved rfl rfl

/-! ### Bases -/

/-- The bases of the frames after a step. A frame that is entered has its base at the top of the
stack, below which its arguments were. -/
def nextBases (s t : State) (bases : List Nat) : List Nat :=
  if s.callers.length < t.callers.length then t.stack.length :: bases
  else if t.callers.length < s.callers.length then bases.tail
  else bases

/-- The height that the stack had when each frame was entered, the running one first, after a
number of steps. -/
def basesAfter (x : Executable) (input : InputSource) (sink : Sink) : Nat → List Nat
  | 0 => [0]
  | n + 1 => nextBases (after x sink n (start x input)).state
      (after x sink (n + 1) (start x input)).state (basesAfter x input sink n)

/-- Each frame holds on the stack, between its base and the next, as many values as the height
of its position says. A frame that has called another one waits for a result of `unit` values. -/
def Layered (unit : Nat) (height : RoutineRef → Nat → Nat) :
    (top awaited : Nat) → List Frame → List Nat → Prop
  | top, awaited, f :: fs, base :: bases =>
    base ≤ top ∧ top + awaited = base + height f.routine f.pc ∧
      (fs ≠ [] → f.returnTo.values = unit) ∧ Layered unit height base unit fs bases
  | top, _, [], [] => top = 0
  | _, _, _, _ => False

/-- A frame of a procedure is at one of its instructions. -/
def Frame.Inside (x : Executable) (f : Frame) : Prop :=
  ∀ k, f.routine = .procedure k → ∃ r, x.procedures[k]? = some r ∧ f.pc < r.code.size

structure State.Balanced (x : Executable) (unit : Nat) (height : RoutineRef → Nat → Nat)
    (bases : List Nat) (s : State) : Prop where
  layers : Layered unit height s.stack.length 0 (s.frame :: s.callers) bases
  inside : ∀ f ∈ s.frame :: s.callers, f.Inside x

variable {unit : Nat} {height : RoutineRef → Nat → Nat} {s t : State} {bases : List Nat}

lemma State.Balanced.pops (h : s.Balanced x unit height bases) (hx : x.Balanced unit height)
    {r : Executable.Routine} {i : LinkedInstr} (hr : x.routine? s.frame.routine = some r)
    (hi : r.code[s.frame.pc]? = some i) : i.pops ≤ s.stack.length := by
  obtain ⟨hlayers, -⟩ := h
  cases bases with
  | nil => exact hlayers.elim
  | cons base bases =>
    obtain ⟨-, htop, -, -⟩ := hlayers
    have := (hx.instr _ _ _ _ hr hi).pops
    omega

lemma Frame.MovedTo.inside {f g : Frame} {pc : Nat} {r : Executable.Routine}
    (hmoved : f.MovedTo pc g) (hx : x.Balanced unit height) (hr : x.routine? f.routine = some r)
    (hpc : r.Closed → pc < r.code.size) : g.Inside x := by
  intro k hk
  rw [hmoved.routine] at hk
  rw [hk] at hr
  rw [hmoved.pc]
  exact ⟨r, hr, hpc (hx.closed k r hr)⟩

namespace State.Balanced

/-- The running frame has moved, and the stack with it. -/
lemma moved (h : s.Balanced x unit height bases) {pc pops pushes : Nat}
    (hmoved : s.frame.MovedTo pc t.frame) (hcallers : t.callers = s.callers)
    (hinside : t.frame.Inside x)
    (hstack : t.stack.length + pops = s.stack.length + pushes)
    (hheight : height s.frame.routine pc + pops =
      height s.frame.routine s.frame.pc + pushes) :
    t.Balanced x unit height bases := by
  obtain ⟨hlayers, hframes⟩ := h
  cases bases with
  | nil => exact hlayers.elim
  | cons base bases =>
    obtain ⟨hbase, htop, hto, hrest⟩ := hlayers
    have htop' : t.stack.length + 0 = base + height t.frame.routine t.frame.pc := by
      rw [hmoved.routine, hmoved.pc]
      omega
    constructor
    · rw [hcallers]
      exact ⟨by omega, htop', hmoved.returnTo ▸ hto, hrest⟩
    · rw [hcallers]
      exact List.forall_mem_cons.mpr ⟨hinside, (List.forall_mem_cons.mp hframes).2⟩

/-- A procedure has been entered, and has nothing on the stack. The caller has given its operands
and awaits a result. -/
lemma entered (h : s.Balanced x unit height bases) {caller : Frame} {pc pops : Nat}
    (hmoved : s.frame.MovedTo pc caller) (hcallers : t.callers = caller :: s.callers)
    (hinside : t.frame.Inside x) (hcaller : caller.Inside x)
    (hpops : pops ≤ height s.frame.routine s.frame.pc)
    (hstack : t.stack.length + pops = s.stack.length)
    (hheight : height s.frame.routine pc + pops = height s.frame.routine s.frame.pc + unit)
    (hstart : height t.frame.routine t.frame.pc = 0) (hto : t.frame.returnTo.values = unit) :
    t.Balanced x unit height (t.stack.length :: bases) := by
  obtain ⟨hlayers, hframes⟩ := h
  cases bases with
  | nil => exact hlayers.elim
  | cons base bases =>
    obtain ⟨hbase, htop, hto', hrest⟩ := hlayers
    have htop' : t.stack.length + unit = base + height caller.routine caller.pc := by
      rw [hmoved.routine, hmoved.pc]
      omega
    constructor
    · rw [hcallers]
      exact ⟨le_rfl, by rw [hstart], fun _ => hto, by omega, htop', hmoved.returnTo ▸ hto', hrest⟩
    · rw [hcallers]
      refine List.forall_mem_cons.mpr ⟨hinside, List.forall_mem_cons.mpr ⟨hcaller, ?_⟩⟩
      exact (List.forall_mem_cons.mp hframes).2

/-- The running frame has been left with nothing but its operands on the stack, and its caller
has the result. -/
lemma left (h : s.Balanced x unit height bases) {caller : Frame}
    (hcallers : s.callers = caller :: t.callers) (hmoved : caller.MovedTo caller.pc t.frame)
    {pops : Nat} (hheight : height s.frame.routine s.frame.pc = pops)
    (hstack : t.stack.length + pops = s.stack.length + s.frame.returnTo.values) :
    t.Balanced x unit height bases.tail := by
  obtain ⟨hlayers, hframes⟩ := h
  rw [hcallers] at hlayers hframes
  match bases, hlayers with
  | [base], hlayers => exact hlayers.2.2.2.elim
  | base :: base' :: bases, ⟨hbase, htop, hto, hbase', htop', hto', hrest⟩ =>
    have hunit := hto (List.cons_ne_nil _ _)
    have htop'' : t.stack.length + 0 = base' + height t.frame.routine t.frame.pc := by
      rw [hmoved.routine, hmoved.pc]
      omega
    obtain ⟨-, hcaller, hframes'⟩ := List.forall_mem_cons.mp hframes |>.imp_right
      List.forall_mem_cons.mp
    refine ⟨⟨by omega, htop'', hmoved.returnTo ▸ hto', hrest⟩, ?_⟩
    refine List.forall_mem_cons.mpr ⟨?_, hframes'⟩
    intro k hk
    rw [hmoved.routine] at hk
    rw [hmoved.pc]
    exact hcaller k hk

end State.Balanced

/-- What an instruction does keeps the stack balanced. -/
lemma Effect.balanced (hx : x.Balanced unit height) (h : s.Balanced x unit height bases)
    {r : Executable.Routine} {i : LinkedInstr} (hr : x.routine? s.frame.routine = some r)
    (hi : r.code[s.frame.pc]? = some i) (he : Effect x s i (.running t)) :
    t.Balanced x unit height (nextBases s t bases) := by
  have hi' := hx.instr _ _ _ _ hr hi
  have hdrop : (s.stack.drop i.pops).length + i.pops = s.stack.length := by
    rw [List.length_drop]
    exact Nat.sub_add_cancel (h.pops hx hr hi)
  cases he with
  | next pushed hfalls hmoved hc hs hlen =>
    have hbases : nextBases s t bases = bases := by simp [nextBases, hc]
    have hinside := hmoved.inside hx hr fun hclosed => hclosed.next _ _ hi hfalls
    rw [hbases]
    refine h.moved hmoved hc hinside ?_ (hi'.next hfalls)
    rw [hs, List.length_append]
    omega
  | jump htarget hmoved hc hs =>
    have hbases : nextBases s t bases = bases := by simp [nextBases, hc]
    have hinside := hmoved.inside hx hr fun hclosed => hclosed.jump _ _ _ hi htarget
    have hstack : t.stack.length + i.pops = s.stack.length + 0 := by
      rw [hs, hdrop]
      rfl
    rw [hbases]
    exact h.moved hmoved hc hinside hstack (hi'.jump _ _ htarget rfl)
  | call hcall hfalls hf hroutine hpc hplace hmoved hc hs =>
    have hbases : nextBases s t bases = t.stack.length :: bases := by simp [nextBases, hc]
    have hunit := hi'.call _ hcall
    have hinside : t.frame.Inside x := by
      intro k hk
      rw [hroutine] at hk
      cases hk
      rw [hpc]
      exact ⟨_, hf, (hx.closed _ _ hf).nonempty⟩
    have hcaller := hmoved.inside hx hr fun hclosed => hclosed.next _ _ hi hfalls
    rw [hbases]
    refine h.entered hmoved hc hinside hcaller hi'.pops ?_ ?_ ?_ (hplace.trans hunit)
    · rw [hs, hdrop]
    · rw [hi'.next hfalls, hunit]
    · rw [hpc, hx.start]
  | ret pushed hreturn hc hmoved hs hlen =>
    have hbases : nextBases s t bases = bases.tail := by simp [nextBases, hc]
    rw [hbases]
    refine h.left hc hmoved (hi'.ret hreturn) ?_
    rw [hs, List.length_append]
    omega

def Outcome.Balanced (x : Executable) (unit : Nat) (height : RoutineRef → Nat → Nat)
    (bases : List Nat) : Outcome → Prop
  | .running s => s.Balanced x unit height bases
  | .failed e _ => (∀ r, e ≠ .stackUnderflow r) ∧ ∀ r, e ≠ .missingReturn r
  | .halted _ => True
  | .stuck _ => True
  | .crashed _ => True

/-- A step keeps the stack balanced, and does not fail for want of an operand or a return. -/
lemma step_balanced (hx : x.Balanced unit height) (h : s.Balanced x unit height bases) :
    (step x sink s).Balanced x unit height (nextBases s (step x sink s).state bases) := by
  cases hr : x.routine? s.frame.routine with
  | none =>
    unfold step
    simp only [hr]
    trivial
  | some r =>
    cases hi : r.code[s.frame.pc]? with
    | some i =>
      have he : Effect x s i (step x sink s) := step_effect hr hi (h.pops hx hr hi)
      generalize step x sink s = o at he
      cases o with
      | running t => exact Effect.balanced hx h hr hi he
      | halted t => trivial
      | failed e t =>
        cases he with
        | failed _ hunderflow hmissing => exact ⟨hunderflow, hmissing⟩
      | stuck t => trivial
      | crashed t => trivial
    | none =>
      rw [step_eq_of_end hr hi]
      cases hroutine : s.frame.routine with
      | main => trivial
      | procedure k =>
        obtain ⟨r', hr', hlt⟩ := h.inside s.frame (by simp) k hroutine
        rw [hroutine] at hr
        obtain rfl : r' = r := Option.some.inj (hr'.symm.trans hr)
        rw [Array.getElem?_eq_none_iff] at hi
        omega

lemma Effect.suffix {i : LinkedInstr} (he : Effect x s i (.running t)) {h : Nat}
    (hpops : i.pops ≤ h) : s.stack.drop h <:+ t.stack := by
  have hdrop : s.stack.drop h <:+ s.stack.drop i.pops := by
    obtain ⟨k, rfl⟩ := Nat.exists_eq_add_of_le hpops
    rw [← List.drop_drop]
    exact List.drop_suffix _ _
  cases he with
  | next pushed _ _ _ hs => exact hs ▸ hdrop.trans (List.suffix_append _ _)
  | jump _ _ _ hs => exact hs ▸ hdrop
  | call _ _ _ _ _ _ _ _ hs => exact hs ▸ hdrop
  | ret pushed _ _ _ hs => exact hs ▸ hdrop.trans (List.suffix_append _ _)

/-- A step leaves the values of the callers where they are. -/
lemma step_suffix (hx : x.Balanced unit height) (h : s.Balanced x unit height bases)
    (hstep : step x sink s = .running t) :
    s.stack.drop (height s.frame.routine s.frame.pc) <:+ t.stack := by
  cases hr : x.routine? s.frame.routine with
  | none =>
    unfold step at hstep
    simp only [hr] at hstep
    cases hstep
  | some r =>
    cases hi : r.code[s.frame.pc]? with
    | some i =>
      have he : Effect x s i (step x sink s) := step_effect hr hi (h.pops hx hr hi)
      rw [hstep] at he
      exact he.suffix (hx.instr _ _ _ _ hr hi).pops
    | none =>
      rw [step_eq_of_end hr hi] at hstep
      split at hstep <;> cases hstep

/-- A program with balanced heights keeps them on every run. -/
lemma after_balanced (hx : x.Balanced unit height) (input : InputSource) (sink : Sink) (n : Nat) :
    (after x sink n (start x input)).Balanced x unit height
      (basesAfter x input sink n) := by
  induction n with
  | zero =>
    rw [after_zero, start]
    split
    · refine ⟨⟨le_rfl, ?_, fun h => (h rfl).elim, rfl⟩, ?_⟩
      · exact ((Nat.zero_add _).trans (hx.start .main)).symm
      · intro f hf k hk
        obtain rfl := List.mem_singleton.mp hf
        cases hk
    · trivial
  | succ n ih =>
    rw [basesAfter, after_succ]
    generalize after x sink n (start x input) = o at ih
    cases o with
    | running s => exact step_balanced hx ih
    | halted s => trivial
    | failed e s => exact ih
    | stuck s => trivial
    | crashed s => trivial

/-- How many values each frame holds on a stack of some height, by the bases of the frames. -/
def owned (top : Nat) : List Nat → List Nat
  | [] => []
  | base :: bases => (top - base) :: owned base bases

lemma Layered.owned_eq {top awaited : Nat} {f : Frame} {fs : List Frame}
    (h : Layered unit height top awaited (f :: fs) bases) :
    owned top bases =
      (height f.routine f.pc - awaited) :: fs.map fun f => height f.routine f.pc - unit := by
  induction fs generalizing top awaited f bases with
  | nil =>
    match bases, h with
    | [base], ⟨hbase, htop, _, hrest⟩ =>
      simp only [owned, List.map_nil, List.cons.injEq, and_true]
      omega
  | cons g fs ih =>
    match bases, h with
    | base :: bases, ⟨hbase, htop, _, hrest⟩ =>
      rw [owned, ih hrest, List.map_cons]
      congr 1
      omega

/-- The base of a frame lies at or above that of its caller. -/
lemma Layered.isChain {top awaited : Nat} {frames : List Frame}
    (h : Layered unit height top awaited frames bases) :
    (top :: bases).IsChain (· ≥ ·) := by
  induction frames generalizing top awaited bases with
  | nil =>
    match bases, h with
    | [], _ => exact .singleton _
  | cons f fs ih =>
    match bases, h with
    | base :: bases, ⟨hbase, _, _, hrest⟩ => exact .cons_cons hbase (ih hrest)

/-- Where results are not on the stack and all heights are zero, the stack is empty. -/
lemma Layered.top_eq_zero {top : Nat} {frames : List Frame} (hheight : ∀ ref n, height ref n = 0)
    (h : Layered 0 height top 0 frames bases) : top = 0 := by
  induction frames generalizing top bases with
  | nil =>
    match bases, h with
    | [], h => exact h
  | cons f fs ih =>
    match bases, h with
    | base :: bases, ⟨_, htop, _, hrest⟩ =>
      have hbase := ih hrest
      rw [hheight] at htop
      omega

/-- An instruction that ends the run pushes nothing. -/
lemma State.execute_ended (s : State) (routine : String) (i : LinkedInstr) :
    (∃ t, s.execute x sink routine i = .running t) ∨
      (s.execute x sink routine i).state.stack <:+ s.stack := by
  cases i with
  | move a b =>
    cases a <;> cases b <;>
      simp only [execute, operand, slot, register, setSlot, setRegister] <;> repeat' split
    all_goals simp [Outcome.state]
  | _ =>
    simp only [execute, pop, popMany, slot, register, registers, read, State.apply, branchIf, call,
      ret, print, setSlot, setRegister]
    repeat' split
    all_goals simp [Outcome.state, push, goTo, List.drop_suffix, *]

lemma step_ended (x : Executable) (sink : Sink) (s : State) :
    (∃ t, step x sink s = .running t) ∨ (step x sink s).state.stack <:+ s.stack := by
  unfold step
  split
  · exact .inr List.suffix_rfl
  · split
    · exact State.execute_ended (s.goTo (s.frame.pc + 1)) _ _
    · split <;> exact .inr List.suffix_rfl

/-- Where results are not on the stack and all heights are zero, nothing is ever on it. -/
lemma after_stack_eq_nil (hx : x.Balanced 0 height) (hheight : ∀ ref n, height ref n = 0)
    (input : InputSource) (sink : Sink) (n : Nat) :
    (after x sink n (start x input)).state.stack = [] := by
  induction n with
  | zero =>
    rw [after_zero, start_state]
    rfl
  | succ n ih =>
    have hbalanced := after_balanced hx input sink (n + 1)
    rw [after_succ] at hbalanced ⊢
    generalize after x sink n (start x input) = o at ih hbalanced
    cases o with
    | running s =>
      rw [after_succ_running, after_zero] at hbalanced ⊢
      rcases step_ended x sink s with ⟨t, ht⟩ | hended
      · rw [ht] at hbalanced ⊢
        exact List.eq_nil_of_length_eq_zero (hbalanced.layers.top_eq_zero hheight)
      · rw [show s.stack = [] from ih] at hended
        exact List.suffix_nil.mp hended
    | halted s => exact ih
    | failed e s => exact ih
    | stuck s => exact ih
    | crashed s => exact ih

end Machine

end Izmir
