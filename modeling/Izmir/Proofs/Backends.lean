import Izmir.Proofs.Correctness

/-!
# The two backends

Code on registers and code on the stack are emitted by one recursion, so that they differ in
the form of their instructions only. The one instruction more is that which drops the result of
a call made as a statement, since a register is just written over. `SameCode` says so line by
line; what becomes of the register code when its registers are erased follows from it.
-/

namespace Izmir

/-- Instructions that push to the operand stack or pop from it. -/
def Instr.isStack {τ κ δ : Type} : Instr τ κ δ → Bool
  | .pushConstant _ | .pushVariable _ | .popVariable _ | .operate _ | .input | .print | .drop
  | .branchIf _ _ | .call _ _ | .ret => true
  | _ => false

/-- Instructions that name registers, and moves. -/
def Instr.isRegister {τ κ δ : Type} : Instr τ κ δ → Bool
  | .move _ _ | .operateRegisters _ _ _ | .inputRegister _ | .printRegister _
  | .branchIfRegisters _ _ _ | .callRegisters _ _ _ _ | .retRegister _ => true
  | _ => false

/-- An instruction with its registers erased, which takes its operands from the stack and leaves
its result there. An instruction of the stack has no registers to erase. -/
def SymbolicInstr.onStack? : SymbolicInstr → Option SymbolicInstr
  | .move (.literal v) (.register _) => some (.pushConstant v)
  | .move (.slot n) (.register _) => some (.pushVariable n)
  | .move (.register _) (.slot n) => some (.popVariable n)
  | .operateRegisters o _ _ => some (.operate o)
  | .inputRegister _ => some .input
  | .printRegister _ => some .print
  | .branch l => some (.branch l)
  | .branchIfRegisters c _ l => some (.branchIf c l)
  | .callRegisters f _ n _ => some (.call f n)
  | .retRegister _ => some .ret
  | _ => none

def Line.onStack? : Line → Option Line
  | .label l => some (.label l)
  | .instr i => i.onStack?.map .instr

/-- Code with its registers erased. -/
def eraseRegisters? (code : List Line) : Option (List Line) :=
  code.mapM Line.onStack?

def withoutDrops (code : List Line) : List Line :=
  code.filter (· ≠ .instr .drop)

/-- Register code and stack code that do the same, line by line. -/
inductive SameCode : List Line → List Line → Prop
  | nil : SameCode [] []
  | line {a b : Line} {r s : List Line} : a.onStack? = some b → SameCode r s →
      SameCode (a :: r) (b :: s)
  | drop {f : String} {first n d : Nat} {r s : List Line} : SameCode r s →
      SameCode (.instr (.callRegisters f first n d) :: r)
        (.instr (.call f n) :: .instr .drop :: s)

/-- What is erased was on registers, and what comes out is on the stack and drops nothing. -/
lemma SymbolicInstr.onStack?_eq_some {i j : SymbolicInstr} (h : i.onStack? = some j) :
    i.isStack = false ∧ j.isRegister = false ∧ j ≠ .drop ∧ i.isReturn = j.isReturn := by
  unfold SymbolicInstr.onStack? at h
  split at h
  all_goals cases h
  all_goals exact ⟨rfl, rfl, by simp, rfl⟩

lemma Line.onStack?_eq_some {a b : Line} (h : a.onStack? = some b) :
    (∃ l, a = .label l ∧ b = .label l) ∨
      ∃ i j, a = .instr i ∧ b = .instr j ∧ i.onStack? = some j := by
  cases a with
  | label l =>
    cases h
    exact .inl ⟨l, rfl, rfl⟩
  | instr i =>
    obtain ⟨j, hj, rfl⟩ := Option.map_eq_some_iff.mp h
    exact .inr ⟨i, j, rfl, rfl, hj⟩

lemma Line.ne_drop_of_onStack? {a b : Line} (h : a.onStack? = some b) : b ≠ .instr .drop := by
  rcases Line.onStack?_eq_some h with ⟨l, -, rfl⟩ | ⟨i, j, -, rfl, hj⟩
  · simp
  · rw [Ne, Line.instr.injEq]
    exact (SymbolicInstr.onStack?_eq_some hj).2.2.1

namespace SameCode

variable {r s r' s' : List Line}

lemma append (h : SameCode r s) (h' : SameCode r' s') : SameCode (r ++ r') (s ++ s') := by
  induction h with
  | nil => exact h'
  | line hab _ ih => exact .line hab ih
  | drop _ ih => exact .drop ih

/-- Erasing the registers of the one gives the other, less what it drops. -/
lemma eraseRegisters?_eq (h : SameCode r s) : eraseRegisters? r = some (withoutDrops s) := by
  unfold eraseRegisters? withoutDrops
  induction h with
  | nil => rfl
  | line hab _ ih =>
    have hb := Line.ne_drop_of_onStack? hab
    rw [List.mapM_cons, hab, ih, List.filter_cons_of_pos (by simpa using hb)]
    rfl
  | drop _ ih =>
    rw [List.mapM_cons, ih, List.filter_cons_of_pos (by simp), List.filter_cons_of_neg (by simp)]
    rfl

lemma not_isStack (h : SameCode r s) : ∀ i ∈ Assembly.instructions r, i.isStack = false := by
  induction h with
  | nil => exact List.forall_mem_nil _
  | line hab _ ih =>
    rcases Line.onStack?_eq_some hab with ⟨l, rfl, -⟩ | ⟨i, j, rfl, -, hj⟩
    · exact ih
    · exact List.forall_mem_cons.mpr ⟨(SymbolicInstr.onStack?_eq_some hj).1, ih⟩
  | drop _ ih => exact List.forall_mem_cons.mpr ⟨rfl, ih⟩

lemma not_isRegister (h : SameCode r s) :
    ∀ i ∈ Assembly.instructions s, i.isRegister = false := by
  induction h with
  | nil => exact List.forall_mem_nil _
  | line hab _ ih =>
    rcases Line.onStack?_eq_some hab with ⟨l, -, rfl⟩ | ⟨i, j, -, rfl, hj⟩
    · exact ih
    · exact List.forall_mem_cons.mpr ⟨(SymbolicInstr.onStack?_eq_some hj).2.1, ih⟩
  | drop _ ih => exact List.forall_mem_cons.mpr ⟨rfl, List.forall_mem_cons.mpr ⟨rfl, ih⟩⟩

/-- What is dropped is the result of the call right before. -/
lemma exists_call_of_drop (h : SameCode r s) {before after : List Line}
    (hs : s = before ++ Line.instr .drop :: after) :
    ∃ (earlier : List Line) (f : String) (n : Nat),
      before = earlier ++ [Line.instr (.call f n)] := by
  induction h generalizing before with
  | nil => simp at hs
  | line hab _ ih =>
    cases before with
    | nil =>
      obtain ⟨rfl, -⟩ := List.cons.inj hs
      exact absurd rfl (Line.ne_drop_of_onStack? hab)
    | cons b before =>
      obtain ⟨earlier, f, n, rfl⟩ := ih (List.cons.inj hs).2
      exact ⟨b :: earlier, f, n, rfl⟩
  | @drop g first k d r s _ ih =>
    match before with
    | [] => cases hs
    | [b] =>
      obtain ⟨rfl, -⟩ := List.cons.inj hs
      exact ⟨[], g, k, rfl⟩
    | b :: b' :: before =>
      obtain ⟨earlier, f, n, rfl⟩ := ih (List.cons.inj (List.cons.inj hs).2).2
      exact ⟨b :: b' :: earlier, f, n, rfl⟩

end SameCode

section

variable {folding : Bool}

/-- The register form of each instruction, and its form on the stack. -/
lemma Backend.sameCode_apply (p : Primitive) (ls : List Nat) (l : Nat) :
    SameCode [Line.instr (Backend.register.apply p ls l)]
      [Line.instr (Backend.stack.apply p ls l)] := by
  unfold Backend.apply
  cases Operation.ofPrimitive? p with
  | none => exact .line rfl .nil
  | some o => exact .line rfl .nil

lemma Purpose.sameCode_deliver {purpose : Purpose} {next : Nat}
    {value value' : Nat → Nat → List Line}
    (h : ∀ l next, SameCode (value l next) (value' l next)) :
    SameCode (purpose.deliver ⟨.register, folding⟩ next value)
      (purpose.deliver ⟨.stack, folding⟩ next value') := by
  cases purpose with
  | value l => exact h l next
  | branchUnless label => exact (h next (next + 1)).append (.line rfl .nil)

lemma Expr.sameCode_emitAll {es : List (Expr Nat)} {next label : Nat}
    (h : ∀ e ∈ es, ∀ purpose next label,
      SameCode (e.emit ⟨.register, folding⟩ purpose next label)
        (e.emit ⟨.stack, folding⟩ purpose next label)) :
    SameCode (Expr.emitAll ⟨.register, folding⟩ es next label)
      (Expr.emitAll ⟨.stack, folding⟩ es next label) := by
  induction es generalizing next label with
  | nil => exact .nil
  | cons e es ih =>
    obtain ⟨he, hes⟩ := List.forall_mem_cons.mp h
    rw [Expr.emitAll, Expr.emitAll]
    exact (he _ _ _).append (ih hes)

lemma Expr.sameCode_emit (e : Expr Nat) (purpose : Purpose) (next label : Nat) :
    SameCode (e.emit ⟨.register, folding⟩ purpose next label)
      (e.emit ⟨.stack, folding⟩ purpose next label) := by
  induction e generalizing purpose next label with
  | literal v =>
    rw [Expr.emit, Expr.emit]
    exact Purpose.sameCode_deliver fun l next => .line rfl .nil
  | var n =>
    rw [Expr.emit, Expr.emit]
    exact Purpose.sameCode_deliver fun l next => .line rfl .nil
  | ifElse c a b hc ha hb =>
    rw [Expr.emit, Expr.emit]
    refine Purpose.sameCode_deliver fun l next => ?_
    exact ((((hc _ _ _).append (ha _ _ _)).append (.line rfl (.line rfl .nil))).append
      (hb _ _ _)).append (.line rfl .nil)
  | apply p es hes =>
    rw [Expr.emit, Expr.emit]
    have hfold : purpose.folded? ⟨.register, folding⟩ p = purpose.folded? ⟨.stack, folding⟩ p :=
      rfl
    rw [hfold]
    cases purpose.folded? ⟨.stack, folding⟩ p with
    | none =>
      refine Purpose.sameCode_deliver fun l next => ?_
      exact (Expr.sameCode_emitAll hes).append (Backend.sameCode_apply _ _ _)
    | some folded => exact (Expr.sameCode_emitAll hes).append (.line rfl .nil)
  | call f es hes =>
    rw [Expr.emit, Expr.emit]
    refine Purpose.sameCode_deliver fun l next => ?_
    exact (Expr.sameCode_emitAll hes).append (.line rfl .nil)

lemma Stmt.sameCode_emit (st : Stmt Nat) (label : Nat) :
    SameCode (st.emit ⟨.register, folding⟩ label) (st.emit ⟨.stack, folding⟩ label) := by
  induction st generalizing label with
  | skip => exact .nil
  | block n a ha =>
    rw [Stmt.emit, Stmt.emit]
    exact .line rfl (.line rfl (ha _))
  | assign n e | print e | ret e =>
    rw [Stmt.emit, Stmt.emit]
    exact (e.sameCode_emit _ _ _).append (.line rfl .nil)
  | seq a b ha hb =>
    rw [Stmt.emit, Stmt.emit]
    exact (ha _).append (hb _)
  | ifElse c a b ha hb =>
    rw [Stmt.emit, Stmt.emit]
    exact ((((c.sameCode_emit _ _ _).append (ha _)).append (.line rfl (.line rfl .nil))).append
      (hb _)).append (.line rfl .nil)
  | ifThen c a ha =>
    rw [Stmt.emit, Stmt.emit]
    exact ((c.sameCode_emit _ _ _).append (ha _)).append (.line rfl .nil)
  | whileDo c a ha =>
    rw [Stmt.emit, Stmt.emit]
    exact .line rfl (((c.sameCode_emit _ _ _).append (ha _)).append (.line rfl (.line rfl .nil)))
  | repeatUntil a c ha =>
    rw [Stmt.emit, Stmt.emit]
    exact .line rfl ((ha _).append (c.sameCode_emit _ _ _))
  | call f es =>
    rw [Stmt.emit, Stmt.emit, List.append_assoc, List.append_assoc]
    exact (Expr.sameCode_emitAll fun e _ => e.sameCode_emit).append (.drop .nil)

/-! ### The end of a body -/

/-- A statement without code. -/
def Stmt.isEmpty {ν : Type} : Stmt ν → Bool
  | .skip => true
  | .seq a b => a.isEmpty && b.isEmpty
  | _ => false

/-- A return is the last thing in a statement. -/
def Stmt.endsInReturn {ν : Type} : Stmt ν → Bool
  | .block _ a => a.endsInReturn
  | .seq a b => if b.isEmpty then a.endsInReturn else b.endsInReturn
  | .ret _ => true
  | _ => false

variable {config : Config}

lemma Stmt.emit_eq_nil_iff (st : Stmt Nat) (label : Nat) :
    st.emit config label = [] ↔ st.isEmpty = true := by
  induction st generalizing label with
  | skip => simp [Stmt.emit, Stmt.isEmpty]
  | seq a b ha hb => simp [Stmt.emit, Stmt.isEmpty, ha, hb]
  | _ => simp [Stmt.emit, Stmt.isEmpty]

/-- Whether the code of a statement ends in a return does not depend on the configuration. -/
lemma Stmt.endsInReturn_emit (st : Stmt Nat) (label : Nat) :
    Assembly.endsInReturn (st.emit config label) = st.endsInReturn := by
  induction st generalizing label with
  | skip => rfl
  | block n a ha =>
    rw [Stmt.emit, Assembly.endsInReturn_append, Stmt.endsInReturn, ← ha label]
    split
    · next hnil =>
      rw [hnil]
      cases config.backend <;> rfl
    · rfl
  | seq a b ha hb =>
    rw [Stmt.emit, Assembly.endsInReturn_append, Stmt.endsInReturn, ha, hb]
    simp only [Stmt.emit_eq_nil_iff]
  | repeatUntil a c ha =>
    obtain ⟨before, k, locations, hc⟩ := c.emit_branchUnless config
      (numberedLabel "repeat" label) 0 (label + 1 + a.labelCount)
    rw [Stmt.emit, hc, ← List.append_assoc, Assembly.endsInReturn_append]
    cases config.backend <;> rfl
  | call f es =>
    rw [Stmt.emit, List.append_assoc, Assembly.endsInReturn_append]
    cases config.backend <;> rfl
  | _ =>
    rw [Stmt.emit, Assembly.endsInReturn_append]
    cases config.backend <;> rfl

lemma Stmt.sameCode_withReturn (st : Stmt Nat) (label : Nat) :
    SameCode (withReturn ⟨.register, folding⟩ (st.emit ⟨.register, folding⟩ label))
      (withReturn ⟨.stack, folding⟩ (st.emit ⟨.stack, folding⟩ label)) := by
  unfold withReturn
  rw [st.endsInReturn_emit, st.endsInReturn_emit]
  split
  · exact st.sameCode_emit label
  · exact (st.sameCode_emit label).append (.line rfl (.line rfl .nil))

end

/-- Register code is stack code with operands named: its registers can be erased, which leaves
the stack code but for what that drops. Neither has an instruction of the other, and the stack
code drops nothing but the results of calls. -/
structure EmittedAlike (r s : List Line) : Prop where
  erased : eraseRegisters? r = some (withoutDrops s)
  register : ∀ i ∈ Assembly.instructions r, i.isStack = false
  stack : ∀ i ∈ Assembly.instructions s, i.isRegister = false
  drops : ∀ before after : List Line, s = before ++ Line.instr .drop :: after →
    ∃ (earlier : List Line) (f : String) (n : Nat), before = earlier ++ [Line.instr (.call f n)]

lemma SameCode.emittedAlike {r s : List Line} (h : SameCode r s) : EmittedAlike r s :=
  ⟨h.eraseRegisters?_eq, h.not_isStack, h.not_isRegister, fun _ _ => h.exists_call_of_drop⟩

structure Assembly.Routine.EmittedAlike (r s : Assembly.Routine) : Prop where
  name : r.name = s.name
  arity : r.arity = s.arity
  code : Izmir.EmittedAlike r.code s.code

/-- The routines of two programs are emitted alike, one by one. -/
structure Assembly.EmittedAlike (a b : Assembly) : Prop where
  source : a.source = b.source
  procedures : List.Forall₂ Routine.EmittedAlike a.procedures b.procedures
  main : a.main.EmittedAlike b.main

/-- The backends emit the same code up to the names of operands, or refuse a program with the
same error. -/
theorem Program.backends_emit_alike (p : Program) (folding : Bool) :
    (∃ a b, p.compile ⟨.register, folding⟩ = .ok a ∧ p.compile ⟨.stack, folding⟩ = .ok b ∧
        a.EmittedAlike b) ∨
      ∃ e, p.compile ⟨.register, folding⟩ = .error e ∧ p.compile ⟨.stack, folding⟩ = .error e := by
  unfold Program.compile
  cases p.check folding with
  | error e => exact .inr ⟨e, rfl, rfl⟩
  | ok u =>
    refine .inl ⟨_, _, rfl, rfl, rfl, ?_, ?_⟩
    · rw [List.forall₂_map_left_iff, List.forall₂_map_right_iff, List.forall₂_same]
      intro q _
      exact ⟨rfl, rfl, (Stmt.sameCode_withReturn _ 0).emittedAlike⟩
    · exact ⟨rfl, rfl, (Stmt.sameCode_emit _ 0).emittedAlike⟩

end Izmir
