import Izmir.Proofs.Heights

/-!
# The operand stack of compiled programs

The heights of the statements of a program are balanced in its executable. So the number of
values that a frame holds on the operand stack is known from the position of the frame, it is
zero between statements, and no run fails for want of an operand or of a return.
-/

namespace Izmir

open Assembly Machine

/-! ### Heights in linked code -/

/-- Linking does not change what an instruction does to the stack. -/
lemma Link.instr_stack {c : Context} {i : SymbolicInstr} {j : LinkedInstr}
    (h : c.instr i = .ok j) :
    j.pops = i.pops ∧ j.pushes = i.pushes ∧ j.falls = i.falls ∧ j.isReturn = i.isReturn := by
  rw [Link.instr_eq_ok_iff] at h
  obtain ⟨-, h⟩ := h
  cases i with
  | move a b => cases b <;> cases h <;> exact ⟨rfl, rfl, rfl, rfl⟩
  | operateRegisters o rs r =>
    simp only [Context.uncounted] at h
    split at h <;> cases h
    exact ⟨rfl, rfl, rfl, rfl⟩
  | branch l | branchIf k l | call f n =>
    simp only [Context.uncounted, bind_eq_ok_iff] at h
    obtain ⟨u, hu, hj⟩ := h
    cases hj
    exact ⟨rfl, rfl, rfl, rfl⟩
  | branchIfRegisters k rs l | callRegisters f first n r =>
    simp only [Context.uncounted] at h
    split at h
    · rw [bind_eq_ok_iff] at h
      obtain ⟨u, hu, hj⟩ := h
      cases hj
      exact ⟨rfl, rfl, rfl, rfl⟩
    · cases h
  | _ =>
    cases h
    exact ⟨rfl, rfl, rfl, rfl⟩

lemma Instr.BalancedAt.linked {c : Link.Context} {i : SymbolicInstr} {j : LinkedInstr}
    {unit : Nat} {height : Nat → Nat} {n : Nat}
    (h : i.BalancedAt unit (fun l m => c.target l = .ok m) height n) (hij : c.instr i = .ok j) :
    j.BalancedAt unit Eq height n := by
  obtain ⟨hpops, hpushes, hfalls, hreturn⟩ := Link.instr_stack hij
  obtain ⟨htarget, hcall, -⟩ := Link.instr_eq_ok hij
  refine ⟨?_, ?_, ?_, ?_, ?_⟩
  · rw [hpops]
    exact h.pops
  · rw [hpops, hpushes, hfalls]
    exact h.next
  · rintro t _ ht rfl
    obtain ⟨l, hl, hlt⟩ := htarget t ht
    rw [hpops]
    exact h.jump l t hl hlt
  · rintro ⟨k, m⟩ hk
    obtain ⟨f, hf, -⟩ := hcall k m hk
    rw [hpushes]
    exact h.call (f, m) hf
  · rw [hpops, hreturn]
    exact h.ret

lemma BalancedCode.get {unit : Nat} {goes : String → Nat → Prop} {height : Nat → Nat}
    {code : List Line} {n k : Nat} {i : SymbolicInstr} (h : BalancedCode unit goes height n code)
    (hi : (instructions code)[k]? = some i) : i.BalancedAt unit goes height (n + k) := by
  induction code generalizing n k with
  | nil => cases hi
  | cons line code ih =>
    cases line with
    | label l => exact ih h hi
    | instr j =>
      cases k with
      | zero =>
        cases hi
        exact h.1
      | succ k =>
        rw [← Nat.add_assoc, Nat.add_right_comm]
        exact ih h.2 hi

section

variable {x : Executable} {table : List (String × Nat × Nat)} {ref : RoutineRef}
  {r : Executable.Routine} {code : List Line}

lemma Linked.labelsFixed (h : Linked x table ref r code) :
    LabelsFixed (fun l m => (Link.contextOf table r.name code).target l = .ok m) code :=
  fun _ _ _ _ he hm => Except.ok.inj (hm.symm.trans (h.target he))

lemma Linked.balancedAt (h : Linked x table ref r code) {unit : Nat} {height : Nat → Nat}
    (hcode : BalancedCode unit (fun l m => (Link.contextOf table r.name code).target l = .ok m)
      height 0 code) {n : Nat} {j : LinkedInstr} (hj : r.code[n]? = some j) :
    j.BalancedAt unit Eq height n := by
  obtain ⟨⟨i, hi, hij⟩, -⟩ := h.get hj
  have hi' := hcode.get hi
  rw [Nat.zero_add] at hi'
  exact hi'.linked hij

lemma exists_return_of_endsInReturn (h : endsInReturn code = true) :
    ∃ before i, code = before ++ [Line.instr i] ∧ i.isReturn = true := by
  unfold endsInReturn at h
  cases hlast : code.getLast? with
  | none =>
    rw [hlast] at h
    cases h
  | some line =>
    obtain ⟨before, rfl⟩ := List.getLast?_eq_some_iff.mp hlast
    rw [hlast] at h
    cases line with
    | label l => cases h
    | instr i => exact ⟨before, i, rfl, h⟩

lemma Instr.falls_eq_false {τ κ δ : Type} {i : Instr τ κ δ} (h : i.isReturn = true) :
    i.falls = false := by
  cases i <;> first | rfl | cases h

/-- Code that ends in a return does not run off its end. -/
lemma Linked.closed (h : Linked x table ref r code) (hend : endsInReturn code = true) :
    r.Closed := by
  obtain ⟨before, last, hcode, hlast⟩ := exists_return_of_endsInReturn hend
  have hsize : r.code.size = codeSize before + 1 := by
    rw [h.code_size, hcode, codeSize_append]
    rfl
  refine ⟨by omega, ?_, ?_⟩
  · intro n j hj hfalls
    obtain ⟨⟨i, hi, hij⟩, -⟩ := h.get hj
    have hn : n < r.code.size := (Array.getElem?_eq_some_iff.mp hj).1
    have hne : n ≠ codeSize before := by
      rintro rfl
      rw [hcode, instructions_append, codeSize, List.getElem?_append_right le_rfl,
        Nat.sub_self] at hi
      obtain rfl : last = i := Option.some.inj hi
      rw [(Link.instr_stack hij).2.2.1, Instr.falls_eq_false hlast] at hfalls
      cases hfalls
    omega
  · intro n j t hj ht
    obtain ⟨⟨i, -, hij⟩, -⟩ := h.get hj
    obtain ⟨l, -, hl⟩ := (Link.instr_eq_ok hij).1 t ht
    have hmem := Link.mem_targets_of_target hl
    rw [hcode, Link.targets_append] at hmem
    have hmem' : (l, t) ∈ Link.targets 0 before := by simpa [Link.targets] using hmem
    have hle := Link.targets_le 0 before _ hmem'
    omega

end

/-! ### Heights of a routine -/

/-- The height at a position of the code of a routine with a body. A return follows the body of
a procedure that may fall off its end. -/
def Stmt.height (config : Config) (body : Stmt Nat) (n : Nat) : Nat :=
  (body.heights config ++ [0, config.backend.unit])[n]?.getD 0

lemma follows_getD (hs : List Nat) : Follows (fun n => hs[n]?.getD 0) 0 hs := by
  have hgen (before : List Nat) :
      Follows (fun n => (before ++ hs)[n]?.getD 0) before.length hs := by
    induction hs generalizing before with
    | nil => trivial
    | cons h hs ih =>
      refine ⟨by simp, ?_⟩
      have hrest := ih (before ++ [h])
      rwa [List.append_assoc, List.length_append] at hrest
  exact hgen []

section

variable {config : Config} {code : List Line} {goes : String → Nat → Prop}

lemma Stmt.mem_boundaries (config : Config) (st : Stmt Nat) (label n : Nat) :
    n ∈ st.boundaries config label n := by
  unfold Stmt.boundaries
  exact List.mem_append_left _ List.mem_cons_self

lemma Stmt.height_after (config : Config) (body : Stmt Nat) (label : Nat) :
    body.height config (codeSize (body.emit config label)) = 0 ∧
      body.height config (codeSize (body.emit config label) + 1) = config.backend.unit := by
  have h := (follows_append.mp (follows_getD (body.heights config ++ [0, config.backend.unit]))).2
  rw [body.length_heights label, Nat.zero_add] at h
  exact ⟨h.1, h.2.1⟩

lemma Stmt.balanced_height (hgoes : LabelsFixed goes code) (body : Stmt Nat)
    (hw : body.WellApplied) (he : Embeds code 0 (body.emit config 0)) :
    BalancedFrom config.backend.unit goes (body.height config) 0 0 (body.emit config 0) ∧
      ∀ m ∈ body.boundaries config 0 0, body.height config m = 0 := by
  refine body.balanced hgoes hw he (follows_append.mp (follows_getD _)).1 ?_
  rw [Nat.zero_add]
  exact (body.height_after config 0).1

lemma embeds_withReturn (config : Config) (code : List Line) :
    Embeds (withReturn config code) 0 code := by
  unfold withReturn
  split
  · exact .self code
  · exact (Embeds.self _).left

lemma endsInReturn_withReturn (config : Config) (code : List Line) :
    endsInReturn (withReturn config code) = true := by
  unfold withReturn
  split
  · assumption
  · rw [endsInReturn_append, if_neg (List.cons_ne_nil _ _)]
    cases config.backend <;> rfl

lemma BalancedFrom.withReturn {height : Nat → Nat}
    (h : BalancedFrom config.backend.unit goes height 0 0 code)
    (hend : height (codeSize code) = 0)
    (hreturn : height (codeSize code + 1) = config.backend.unit) :
    BalancedCode config.backend.unit goes height 0 (withReturn config code) := by
  unfold Izmir.withReturn
  split
  · exact h.code
  · refine balancedCode_append.mpr ⟨h.code, ?_⟩
    rw [Nat.zero_add]
    refine ⟨Backend.balanced_loadConstant hend ?_, Backend.balanced_ret hreturn, trivial⟩
    rw [hreturn, Nat.zero_add]

end

/-! ### Registers -/

section

variable {config : Config} (hunit : config.backend.unit = 0)

include hunit

lemma Config.mem_testHeights {condition : Bool} {h m : Nat}
    (hm : m ∈ config.testHeights condition h) : m = h := by
  unfold testHeights at hm
  split at hm
  · rw [hunit] at hm
    exact List.mem_singleton.mp hm
  · cases hm

lemma Expr.eq_of_mem_heightsAll {es : List (Expr Nat)} {h m : Nat}
    (hes : ∀ e ∈ es, ∀ condition h m, m ∈ e.heights config condition h → m = h)
    (hm : m ∈ Expr.heightsAll config es h) : m = h := by
  induction es generalizing h with
  | nil => cases hm
  | cons e es ih =>
    obtain ⟨he, hes⟩ := List.forall_mem_cons.mp hes
    rw [Expr.heightsAll, hunit] at hm
    rcases List.mem_append.mp hm with hm | hm
    · exact he _ _ _ hm
    · exact ih hes hm

/-- Code that keeps its values in registers stays at one height. -/
lemma Expr.eq_of_mem_heights (e : Expr Nat) (condition : Bool) (h m : Nat)
    (hm : m ∈ e.heights config condition h) : m = h := by
  induction e generalizing condition h m with
  | literal v | var n =>
    simp only [Expr.heights, List.mem_append, List.mem_singleton] at hm
    exact hm.elim id (Config.mem_testHeights hunit)
  | ifElse c a b hc ha hb =>
    simp only [Expr.heights, List.mem_append, List.mem_singleton, hunit] at hm
    rcases hm with (((hm | hm) | hm) | hm) | hm
    · exact hc _ _ _ hm
    · exact ha _ _ _ hm
    · exact hm
    · exact hb _ _ _ hm
    · exact Config.mem_testHeights hunit hm
  | apply p es hes | call f es hes =>
    simp only [Expr.heights, List.mem_append, List.mem_singleton, hunit, Nat.zero_mul,
      Nat.add_zero] at hm
    rcases hm with (hm | hm) | hm
    · exact Expr.eq_of_mem_heightsAll hunit hes hm
    · exact hm
    · exact Config.mem_testHeights hunit hm

lemma Stmt.eq_zero_of_mem_heights (st : Stmt Nat) (m : Nat) (hm : m ∈ st.heights config) :
    m = 0 := by
  have hexpr {e : Expr Nat} {condition : Bool} (hm : m ∈ e.heights config condition 0) : m = 0 :=
    e.eq_of_mem_heights hunit condition 0 m hm
  induction st with
  | skip => cases hm
  | call f es =>
    simp only [Stmt.heights, List.mem_append, List.mem_singleton, List.mem_map, hunit,
      Nat.zero_mul] at hm
    rcases hm with (hm | hm) | ⟨_, _, hm⟩
    · exact Expr.eq_of_mem_heightsAll hunit (fun e _ => e.eq_of_mem_heights hunit) hm
    · exact hm
    · exact hm.symm
  | _ =>
    simp only [Stmt.heights, List.mem_append, List.mem_cons, List.not_mem_nil, hunit] at hm
    grind

lemma Stmt.height_eq_zero (body : Stmt Nat) (n : Nat) : body.height config n = 0 := by
  unfold Stmt.height
  rw [hunit]
  cases h : (body.heights config ++ [0, 0])[n]? with
  | none => rfl
  | some m =>
    rcases List.mem_append.mp (List.mem_of_getElem? h) with hm | hm
    · exact body.eq_zero_of_mem_heights hunit m hm
    · simpa using hm

end

/-! ### Programs -/

/-- The body of a routine, with slots for its variables. -/
def Program.body? (p : Program) : RoutineRef → Option (Stmt Nat)
  | .main => some (p.main.withSlots .empty).1
  | .procedure k => p.procedures[k]?.map fun q => (q.body.withSlots (.ofFormals q.formals)).1

/-- The height of the operand stack above the base of a frame at a position. -/
def Program.height (p : Program) (config : Config) (ref : RoutineRef) (pc : Nat) : Nat :=
  (p.body? ref).elim 0 fun body => body.height config pc

/-- The positions between the statements of a routine. -/
def Program.boundaries (p : Program) (config : Config) (ref : RoutineRef) : List Nat :=
  (p.body? ref).elim [] fun body => body.boundaries config 0 0

section

variable {p : Program} {config : Config} {a : Assembly} {x : Executable} {ref : RoutineRef}
  {body : Stmt Nat} {code : List Line}

lemma Program.wellApplied_body (hc : p.compile config = .ok a) (hbody : p.body? ref = some body) :
    body.WellApplied := by
  obtain ⟨⟨-, hprocedures, hmain⟩, -⟩ := compile_eq_ok_iff.mp hc
  cases ref with
  | main =>
    cases hbody
    exact (Stmt.wellApplied_withSlots _ _).mpr hmain
  | procedure k =>
    obtain ⟨q, hq, rfl⟩ := Option.map_eq_some_iff.mp hbody
    exact (Stmt.wellApplied_withSlots _ _).mpr (hprocedures q (List.mem_of_getElem? hq))

/-- Nothing is on the stack between statements. -/
lemma Program.height_boundary (hc : p.compile config = .ok a) (ref : RoutineRef) :
    ∀ m ∈ p.boundaries config ref, p.height config ref m = 0 := by
  intro m hm
  unfold boundaries at hm
  unfold height
  cases hbody : p.body? ref with
  | none => rfl
  | some body =>
    rw [hbody] at hm
    have hgoes : LabelsFixed (fun _ _ => False) (body.emit config 0) := fun _ _ _ _ _ => False.elim
    exact (body.balanced_height hgoes (wellApplied_body hc hbody) (.self _)).2 m hm

/-- The code of a routine and its body. -/
lemma Program.code_eq (hc : p.compile config = .ok a) {r : Assembly.Routine}
    (hr : a.routine? ref = some r) :
    ∃ body, p.body? ref = some body ∧
      r.code = if ref = .main then body.emit config 0
        else withReturn config (body.emit config 0) := by
  obtain ⟨-, rfl⟩ := compile_eq_ok_iff.mp hc
  cases ref with
  | main =>
    cases hr
    exact ⟨_, rfl, rfl⟩
  | procedure k =>
    have hr : (p.procedures.map (·.compile config))[k]? = some r := hr
    rw [List.getElem?_map] at hr
    obtain ⟨q, hq, rfl⟩ := Option.map_eq_some_iff.mp hr
    exact ⟨_, by rw [body?, hq]; rfl, rfl⟩

lemma Linked.balancedAt_body {table : List (String × Nat × Nat)} {r : Executable.Routine}
    (hl : Linked x table ref r
      (if ref = .main then body.emit config 0 else withReturn config (body.emit config 0)))
    (hw : body.WellApplied) {n : Nat} {i : LinkedInstr} (hi : r.code[n]? = some i) :
    i.BalancedAt config.backend.unit Eq (body.height config) n := by
  by_cases hmain : ref = .main
  · rw [if_pos hmain] at hl
    have hcode := (body.balanced_height hl.labelsFixed hw (.self _)).1.code
    exact hl.balancedAt hcode hi
  · rw [if_neg hmain] at hl
    have hcode := (body.balanced_height hl.labelsFixed hw (embeds_withReturn config _)).1
    obtain ⟨hend, hreturn⟩ := body.height_after config 0
    exact hl.balancedAt (hcode.withReturn hend hreturn) hi

/-- The heights of a program are balanced in its executable. -/
lemma Program.executable_balanced (hc : p.compile config = .ok a) (hlink : a.link = .ok x) :
    x.Balanced config.backend.unit (p.height config) where
  start ref := by
    cases hbody : p.body? ref with
    | none =>
      rw [height, hbody]
      rfl
    | some body =>
      refine height_boundary hc ref 0 ?_
      rw [boundaries, hbody]
      exact body.mem_boundaries config 0 0
  instr ref r n i hr hi := by
    obtain ⟨q, hq, hroutine⟩ := link_routine hlink hr
    have hl := Linked.of_routine hr hroutine
    obtain ⟨body, hbody, hcode⟩ := code_eq hc hq
    rw [hcode] at hl
    have hheight : p.height config ref = body.height config := by
      funext n
      rw [height, hbody]
      rfl
    rw [hheight]
    exact hl.balancedAt_body (wellApplied_body hc hbody) hi
  closed k r hr := by
    have hr' : x.routine? (.procedure k) = some r := hr
    obtain ⟨q, hq, hroutine⟩ := link_routine hlink hr'
    have hl := Linked.of_routine hr' hroutine
    obtain ⟨body, -, hcode⟩ := code_eq hc hq
    rw [hcode] at hl
    exact hl.closed (endsInReturn_withReturn _ _)

/-- What is on the operand stack in a state of a compiled program. The stack had the heights
`bases` when the frames of the state were entered, the running one first. -/
structure Program.StackInOrder (p : Program) (config : Config) (x : Executable) (sink : Sink)
    (bases : List Nat) (s : State) : Prop where
  /-- Each frame holds what its position says. Callers wait for a result. -/
  owned : owned s.stack.length bases = p.height config s.frame.routine s.frame.pc ::
    s.callers.map fun f => p.height config f.routine f.pc - config.backend.unit
  bases : (s.stack.length :: bases).IsChain (· ≥ ·)
  /-- The next instruction finds its operands above the base of the running frame, -/
  pops : ∀ r i, x.routine? s.frame.routine = some r → r.code[s.frame.pc]? = some i →
    i.pops ≤ p.height config s.frame.routine s.frame.pc
  /-- and leaves what lies below the base. -/
  below : ∀ t, step x sink s = .running t →
    s.stack.drop (p.height config s.frame.routine s.frame.pc) <:+ t.stack

lemma Program.height_register (hregister : config.backend = .register) (ref : RoutineRef)
    (n : Nat) : p.height config ref n = 0 := by
  unfold height
  cases p.body? ref with
  | none => rfl
  | some body =>
    refine body.height_eq_zero ?_ n
    rw [hregister]
    rfl

lemma Program.stackInOrder_of_balanced {sink : Sink} {bases : List Nat} {s : State}
    (hx : x.Balanced config.backend.unit (p.height config))
    (h : s.Balanced x config.backend.unit (p.height config) bases) :
    p.StackInOrder config x sink bases s where
  owned := h.layers.owned_eq
  bases := h.layers.isChain
  pops _ _ hr hi := (hx.instr _ _ _ _ hr hi).pops
  below _ hstep := step_suffix hx h hstep

/-- Whatever a compiled program has done, the number of values that a frame holds on the operand
stack is given by its routine and position, and is zero between statements. With registers the
stack is empty. No run fails for want of an operand or of a return. -/
theorem Program.compiled_stack_in_order (hc : p.compile config = .ok a) (hlink : a.link = .ok x)
    (input : InputSource) (sink : Sink) (n : Nat) :
    (∀ ref, ∀ m ∈ p.boundaries config ref, p.height config ref m = 0) ∧
      (∀ s, after x sink n (start x input) = .running s →
        p.StackInOrder config x sink (basesAfter x input sink n) s) ∧
      (config.backend = .register →
        (after x sink n (start x input)).state.stack = []) ∧
      ∀ e s, after x sink n (start x input) = .failed e s →
        (∀ r, e ≠ .stackUnderflow r) ∧ ∀ r, e ≠ .missingReturn r := by
  have hx := executable_balanced hc hlink
  have hafter := after_balanced hx input sink n
  refine ⟨height_boundary hc, ?_, ?_, ?_⟩
  · intro s hs
    rw [hs] at hafter
    exact stackInOrder_of_balanced hx hafter
  · intro hregister
    rw [hregister] at hx
    exact after_stack_eq_nil hx (height_register hregister) input sink n
  · intro e s hs
    rw [hs] at hafter
    exact hafter

/-- Sums the numbers up to the one that it reads, with an operand waiting in each frame. -/
def Program.triangle : Program where
  source := "triangle"
  procedures :=
    [⟨"sum", ["n"], .ret (.ifElse (.apply .greater [.var "n", .literal 0])
      (.apply .plus [.var "n", .call "sum" [.apply .minus [.var "n", .literal 1]]])
      (.literal 0))⟩]
  main := .print (.call "sum" [.apply .input []])

theorem Program.triangle_stack_in_order :
    ∃ a x s, Program.triangle.compile ⟨.stack, true⟩ = .ok a ∧ a.link = .ok x ∧
      after x .endless 18 (start x (.ofInput [.ok 2])) = .running s ∧
      s.stack = [1, 2] ∧
      Program.triangle.StackInOrder ⟨.stack, true⟩ x .endless [2, 1, 0, 0] s := by
  obtain ⟨a, x, hc, hlink, hrun, hstack, hbases⟩ : ∃ a x,
      Program.triangle.compile ⟨.stack, true⟩ = .ok a ∧ a.link = .ok x ∧
        (after x .endless 18 (start x (.ofInput [.ok 2]))).run? .endless = none ∧
        (after x .endless 18 (start x (.ofInput [.ok 2]))).state.stack = [1, 2] ∧
        basesAfter x (.ofInput [.ok 2]) .endless 18 = [2, 1, 0, 0] :=
    ⟨_, _, rfl, rfl, by decide +kernel, by decide +kernel, by decide +kernel⟩
  have horder := (Program.compiled_stack_in_order hc hlink (.ofInput [.ok 2]) .endless 18).2.1
  rw [hbases] at horder
  cases ho : after x .endless 18 (start x (.ofInput [.ok 2])) with
  | running s =>
    rw [ho] at hstack
    exact ⟨a, x, s, hc, hlink, ho, hstack, horder s ho⟩
  | halted s | failed e s | stuck s | crashed s =>
    rw [ho] at hrun
    cases hrun

end

end Izmir
