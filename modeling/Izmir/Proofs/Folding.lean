import Izmir.Proofs.Accesses
import Izmir.Proofs.Applications
import Izmir.Proofs.Backends

/-!
# What folding saves

A condition that is a comparison is folded into the branch that tests it, so that its value is
not computed. That saves one instruction for each such condition, wherever it stands, and changes
neither the labels of a routine nor its slots.
-/

namespace Izmir

section

variable {ν : Type}

/-- An application of a comparison. -/
def Expr.isComparison : Expr ν → Bool
  | .apply p _ => p.isComparison
  | _ => false

mutual

/-- What the conditionals in an expression test. -/
def Expr.conditions : Expr ν → List (Expr ν)
  | .literal _ => []
  | .var _ => []
  | .ifElse c a b => c :: (c.conditions ++ a.conditions ++ b.conditions)
  | .apply _ es => Expr.conditionsAll es
  | .call _ es => Expr.conditionsAll es

def Expr.conditionsAll : List (Expr ν) → List (Expr ν)
  | [] => []
  | e :: es => e.conditions ++ Expr.conditionsAll es

end

/-- What the conditionals and loops in a statement test, those in its expressions included. -/
def Stmt.conditions : Stmt ν → List (Expr ν)
  | .skip => []
  | .block _ a => a.conditions
  | .assign _ e => e.conditions
  | .print e => e.conditions
  | .seq a b => a.conditions ++ b.conditions
  | .ifElse c a b => c :: (c.conditions ++ a.conditions ++ b.conditions)
  | .ifThen c a => c :: (c.conditions ++ a.conditions)
  | .whileDo c a => c :: (c.conditions ++ a.conditions)
  | .repeatUntil a c => c :: (a.conditions ++ c.conditions)
  | .ret e => e.conditions
  | .call _ es => Expr.conditionsAll es

end

namespace Application

/-- A comparison that a conditional or a loop tests. -/
def isFoldable (a : Application) : Bool :=
  a.condition && a.primitive.isComparison

/-- The operation that computes the value of an application. -/
def operation? (a : Application) : Option Operation :=
  Operation.ofPrimitive? a.primitive

end Application

/-! ### Foldable applications are conditions -/

lemma Expr.countP_applicationsAll {ν : Type} {es : List (Expr ν)}
    (h : ∀ e ∈ es, ∀ condition, (e.applications condition).countP (·.isFoldable) =
      e.conditions.countP (·.isComparison) + if condition && e.isComparison then 1 else 0) :
    (Expr.applicationsAll es).countP (·.isFoldable) =
      (Expr.conditionsAll es).countP (·.isComparison) := by
  induction es with
  | nil => rfl
  | cons e es ih =>
    obtain ⟨he, hes⟩ := List.forall_mem_cons.mp h
    simp [Expr.applicationsAll, Expr.conditionsAll, he, ih hes]

lemma Expr.countP_applications {ν : Type} (e : Expr ν) (condition : Bool) :
    (e.applications condition).countP (·.isFoldable) =
      e.conditions.countP (·.isComparison) + if condition && e.isComparison then 1 else 0 := by
  induction e generalizing condition with
  | literal v => simp [Expr.applications, Expr.conditions, Expr.isComparison]
  | var x => simp [Expr.applications, Expr.conditions, Expr.isComparison]
  | ifElse c a b hc ha hb =>
    simp [Expr.applications, Expr.conditions, Expr.isComparison, hc, ha, hb, List.countP_cons]
    omega
  | apply p es hes =>
    rw [Expr.applications, Expr.conditions, List.countP_cons, Expr.countP_applicationsAll hes]
    rfl
  | call f es hes =>
    simp [Expr.applications, Expr.conditions, Expr.isComparison, Expr.countP_applicationsAll hes]

lemma Stmt.countP_applications {ν : Type} (st : Stmt ν) :
    st.applications.countP (·.isFoldable) = st.conditions.countP (·.isComparison) := by
  induction st with
  | skip => rfl
  | block x a ha => exact ha
  | seq a b ha hb => simp [Stmt.applications, Stmt.conditions, ha, hb]
  | ifElse c a b ha hb =>
    simp [Stmt.applications, Stmt.conditions, ha, hb, Expr.countP_applications, List.countP_cons]
    omega
  | ifThen c a ha | whileDo c a ha | repeatUntil a c ha =>
    simp [Stmt.applications, Stmt.conditions, ha, Expr.countP_applications, List.countP_cons]
    omega
  | assign x e | print e | ret e =>
    simp [Stmt.applications, Stmt.conditions, Expr.countP_applications]
  | call f es => exact Expr.countP_applicationsAll fun e _ => e.countP_applications

/-! ### Names do not matter -/

lemma Expr.applicationsAll_listWithSlots {es : List (Expr String)} {s : Scope}
    (h : ∀ e ∈ es, ∀ s condition,
      (e.withSlots s).1.applications condition = e.applications condition) :
    Expr.applicationsAll (Expr.listWithSlots es s).1 = Expr.applicationsAll es := by
  induction es generalizing s with
  | nil => rfl
  | cons e es ih =>
    obtain ⟨he, hes⟩ := List.forall_mem_cons.mp h
    simp only [Expr.listWithSlots, Expr.applicationsAll, he, ih hes]

lemma Expr.applications_withSlots (e : Expr String) (s : Scope) (condition : Bool) :
    (e.withSlots s).1.applications condition = e.applications condition := by
  induction e generalizing s condition with
  | literal v => rfl
  | var x => rfl
  | ifElse c a b hc ha hb => simp only [Expr.withSlots, Expr.applications, hc, ha, hb]
  | apply p es hes =>
    simp only [Expr.withSlots, Expr.applications, Expr.listWithSlots_length,
      Expr.applicationsAll_listWithSlots hes]
  | call f es hes => exact Expr.applicationsAll_listWithSlots hes

lemma Stmt.applications_withSlots (st : Stmt String) (s : Scope) :
    (st.withSlots s).1.applications = st.applications := by
  induction st generalizing s with
  | skip => rfl
  | block x a ha => exact ha _
  | seq a b ha hb => simp only [Stmt.withSlots, Stmt.applications, ha, hb]
  | ifElse c a b ha hb =>
    simp only [Stmt.withSlots, Stmt.applications, Expr.applications_withSlots, ha, hb]
  | ifThen c a ha | whileDo c a ha | repeatUntil a c ha =>
    simp only [Stmt.withSlots, Stmt.applications, Expr.applications_withSlots, ha]
  | assign x e | print e | ret e =>
    simp only [Stmt.withSlots, Stmt.applications, Expr.applications_withSlots]
  | call f es => exact Expr.applicationsAll_listWithSlots fun e _ => e.applications_withSlots

/-! ### The operations in code -/

/-- The operation that an instruction computes a value with. -/
def Instr.operation? {τ κ δ : Type} : Instr τ κ δ → Option Operation
  | .operate o | .operateRegisters o _ _ => some o
  | _ => none

/-- The operations that some code computes values with, in order. -/
def operations (code : List Line) : List Operation :=
  (Assembly.instructions code).filterMap Instr.operation?

@[simp] lemma operations_nil : operations [] = [] := rfl

@[simp] lemma operations_label (l : String) (code : List Line) :
    operations (.label l :: code) = operations code := rfl

@[simp] lemma operations_instr (i : SymbolicInstr) (code : List Line) :
    operations (.instr i :: code) = i.operation?.toList ++ operations code := by
  rw [operations, Assembly.instructions_instr, List.filterMap_cons]
  cases i.operation? <;> rfl

@[simp] lemma operations_append (a b : List Line) :
    operations (a ++ b) = operations a ++ operations b := by
  simp [operations]

/-- The operations that compute the values of some applications, less those that are folded. -/
def computed (folding : Bool) (as : List Application) : List Operation :=
  (as.filter fun a => !(folding && a.isFoldable)).filterMap (·.operation?)

@[simp] lemma computed_nil (folding : Bool) : computed folding [] = [] := rfl

@[simp] lemma computed_append (folding : Bool) (as bs : List Application) :
    computed folding (as ++ bs) = computed folding as ++ computed folding bs := by
  simp [computed]

lemma computed_false (as : List Application) :
    computed false as = as.filterMap (·.operation?) := by
  simp [computed]

lemma computed_cons (folding : Bool) (a : Application) (as : List Application) :
    computed folding (a :: as) =
      (if folding && a.isFoldable then [] else a.operation?.toList) ++ computed folding as := by
  unfold computed
  cases h : folding && a.isFoldable with
  | true =>
    rw [List.filter_cons_of_neg (by simp [h])]
    rfl
  | false =>
    rw [List.filter_cons_of_pos (by simp [h]), List.filterMap_cons]
    cases a.operation? <;> rfl

section

variable {config : Config} {b : Backend}

@[simp] lemma Backend.operation?_loadConstant {v : Value} {l : Nat} :
    (b.loadConstant v l).operation? = none := by cases b <;> rfl

@[simp] lemma Backend.operation?_loadVariable {n l : Nat} :
    (b.loadVariable n l).operation? = none := by cases b <;> rfl

@[simp] lemma Backend.operation?_storeVariable {l n : Nat} :
    (b.storeVariable l n).operation? = none := by cases b <;> rfl

@[simp] lemma Backend.operation?_print {l : Nat} : (b.print l).operation? = none := by
  cases b <;> rfl

@[simp] lemma Backend.operation?_ret {l : Nat} : (b.ret l).operation? = none := by
  cases b <;> rfl

@[simp] lemma Backend.operation?_apply {p : Primitive} {ls : List Nat} {l : Nat} :
    (b.apply p ls l).operation? = Operation.ofPrimitive? p := by
  unfold Backend.apply
  cases Operation.ofPrimitive? p <;> cases b <;> rfl

@[simp] lemma Backend.operation?_branchIf {c : Condition} {ls : List Nat} {label : String} :
    (b.branchIf c ls label).operation? = none := by cases b <;> rfl

@[simp] lemma Backend.operation?_call {f : String} {first n l : Nat} :
    (b.call f first n l).operation? = none := by cases b <;> rfl

@[simp] lemma Backend.operations_discard : operations (b.discard.map .instr) = [] := by
  cases b <;> rfl

@[simp] lemma Instr.operation?_branch {label : String} :
    (Instr.branch label : SymbolicInstr).operation? = none := rfl

/-- A primitive is folded if it is a comparison that is tested. -/
lemma Purpose.foldable_eq (config : Config) (p : Primitive) (n : Nat) (purpose : Purpose) :
    (config.folding && Application.isFoldable ⟨p, n, purpose.isCondition⟩) =
      (purpose.folded? config p).isSome := by
  cases purpose with
  | value l => simp [Purpose.folded?, Purpose.isCondition, Application.isFoldable]
  | branchUnless label =>
    cases hf : config.folding with
    | false => simp [Purpose.folded?, hf]
    | true =>
      rw [Purpose.folded?, hf]
      cases p <;> rfl

lemma Purpose.operations_deliver {purpose : Purpose} {next : Nat}
    {value : Nat → Nat → List Line} {os : List Operation}
    (h : ∀ l next, (operations (value l next)).Perm os) :
    (operations (purpose.deliver config next value)).Perm os := by
  cases purpose with
  | value l => exact h l next
  | branchUnless label => simpa [deliver] using h next (next + 1)

lemma Expr.operations_emitAll {es : List (Expr Nat)} {next label : Nat}
    (h : ∀ e ∈ es, ∀ purpose next label,
      (operations (e.emit config purpose next label)).Perm
        (computed config.folding (e.applications purpose.isCondition))) :
    (operations (Expr.emitAll config es next label)).Perm
      (computed config.folding (Expr.applicationsAll es)) := by
  induction es generalizing next label with
  | nil => exact .nil
  | cons e es ih =>
    obtain ⟨he, hes⟩ := List.forall_mem_cons.mp h
    rw [Expr.emitAll, Expr.applicationsAll, operations_append, computed_append]
    exact (he (.value next) _ _).append (ih hes)

/-- The code of an expression computes the values of its applications, but for the comparisons
that are folded. -/
lemma Expr.operations_emit (e : Expr Nat) (purpose : Purpose) (next label : Nat) :
    (operations (e.emit config purpose next label)).Perm
      (computed config.folding (e.applications purpose.isCondition)) := by
  induction e generalizing purpose next label with
  | literal v =>
    rw [Expr.emit]
    exact Purpose.operations_deliver fun l next => by simp [Expr.applications]
  | var n =>
    rw [Expr.emit]
    exact Purpose.operations_deliver fun l next => by simp [Expr.applications]
  | ifElse c a b hc ha hb =>
    rw [Expr.emit]
    refine Purpose.operations_deliver fun l next => ?_
    simp only [operations_append, operations_instr, operations_label, operations_nil,
      Instr.operation?_branch, Option.toList_none, List.append_nil, Expr.applications,
      computed_append]
    exact ((hc _ _ _).append (ha (.value l) _ _)).append (hb (.value l) _ _)
  | apply p es hes =>
    rw [Expr.emit, Expr.applications, computed_cons, Purpose.foldable_eq]
    cases purpose.folded? config p with
    | none =>
      -- The operation comes after those of its operands in the code, and before them in the text.
      refine Purpose.operations_deliver fun l next => ?_
      simp only [operations_append, operations_instr, operations_nil, Backend.operation?_apply,
        List.append_nil]
      exact ((Expr.operations_emitAll hes).append_right _).trans List.perm_append_comm
    | some folded => simpa using Expr.operations_emitAll hes
  | call f es hes =>
    rw [Expr.emit]
    refine Purpose.operations_deliver fun l next => ?_
    simpa [Expr.applications] using Expr.operations_emitAll hes

/-- The code of a statement computes the values of its applications, but for the comparisons that
are folded. -/
lemma Stmt.operations_emit (st : Stmt Nat) (label : Nat) :
    (operations (st.emit config label)).Perm (computed config.folding st.applications) := by
  have hvalue (e : Expr Nat) (l next label : Nat) :
      (operations (e.emit config (.value l) next label)).Perm
        (computed config.folding (e.applications false)) := e.operations_emit _ _ _
  have htest (e : Expr Nat) (target : String) (next label : Nat) :
      (operations (e.emit config (.branchUnless target) next label)).Perm
        (computed config.folding (e.applications true)) := e.operations_emit _ _ _
  induction st generalizing label with
  | skip => exact .nil
  | block n a ha => simpa [Stmt.emit, Stmt.applications] using ha label
  | assign n e | print e | ret e =>
    simpa [Stmt.emit, Stmt.applications] using hvalue e 0 1 label
  | seq a b ha hb =>
    simpa [Stmt.emit, Stmt.applications] using (ha label).append (hb _)
  | ifElse c a b ha hb =>
    simpa [Stmt.emit, Stmt.applications] using (htest c _ _ _).append ((ha _).append (hb _))
  | ifThen c a ha | whileDo c a ha =>
    simpa [Stmt.emit, Stmt.applications] using (htest c _ _ _).append (ha _)
  | repeatUntil a c ha =>
    simpa [Stmt.emit, Stmt.applications] using (ha _).append (htest c _ _ _)
  | call f es =>
    have hall : (operations (Expr.emitAll config es 1 label)).Perm
        (computed config.folding (Expr.applicationsAll es)) :=
      Expr.operations_emitAll fun e _ => e.operations_emit
    simpa [Stmt.emit, Stmt.applications] using hall

/-! ### The number of instructions -/

mutual

/-- The number of instructions that compute an expression when nothing is folded. -/
def Expr.codeLength {ν : Type} : Expr ν → Nat
  | .literal _ => 1
  | .var _ => 1
  | .ifElse c a b => c.codeLength + a.codeLength + b.codeLength + 2
  | .apply _ es => Expr.codeLengthAll es + 1
  | .call _ es => Expr.codeLengthAll es + 1

def Expr.codeLengthAll {ν : Type} : List (Expr ν) → Nat
  | [] => 0
  | e :: es => e.codeLength + Expr.codeLengthAll es

end

/-- The number of instructions of a statement when nothing is folded. -/
def Stmt.codeLength {ν : Type} (b : Backend) : Stmt ν → Nat
  | .skip => 0
  | .block _ a => a.codeLength b + 2
  | .assign _ e => e.codeLength + 1
  | .print e => e.codeLength + 1
  | .seq a c => a.codeLength b + c.codeLength b
  | .ifElse c a d => c.codeLength + a.codeLength b + d.codeLength b + 2
  | .ifThen c a => c.codeLength + a.codeLength b + 1
  | .whileDo c a => c.codeLength + a.codeLength b + 2
  | .repeatUntil a c => a.codeLength b + c.codeLength + 1
  | .ret e => e.codeLength + 1
  | .call _ es => Expr.codeLengthAll es + 1 + b.discard.length

/-- The number of applications that are folded. -/
def foldedCount (folding : Bool) (as : List Application) : Nat :=
  as.countP fun a => folding && a.isFoldable

lemma foldedCount_append (folding : Bool) (as bs : List Application) :
    foldedCount folding (as ++ bs) = foldedCount folding as + foldedCount folding bs :=
  List.countP_append

lemma foldedCount_false (as : List Application) : foldedCount false as = 0 := by
  simp [foldedCount]

lemma foldedCount_cons (folding : Bool) (a : Application) (as : List Application) :
    foldedCount folding (a :: as) =
      foldedCount folding as + if folding && a.isFoldable then 1 else 0 :=
  List.countP_cons

lemma Purpose.codeSize_deliver {purpose : Purpose} {next m n : Nat}
    {value : Nat → Nat → List Line} (h : ∀ l next, codeSize (value l next) + m = n) :
    codeSize (purpose.deliver config next value) + m = n + purpose.isCondition.toNat := by
  cases purpose with
  | value l => exact h l next
  | branchUnless label =>
    have hvalue := h next (next + 1)
    simp only [deliver, codeSize_append, codeSize_instr, codeSize_nil, Purpose.isCondition,
      Bool.toNat_true]
    omega

lemma Expr.codeSize_emitAll {es : List (Expr Nat)} {next label : Nat}
    (h : ∀ e ∈ es, ∀ purpose next label, codeSize (e.emit config purpose next label) +
      foldedCount config.folding (e.applications purpose.isCondition) =
        e.codeLength + purpose.isCondition.toNat) :
    codeSize (Expr.emitAll config es next label) +
      foldedCount config.folding (Expr.applicationsAll es) = Expr.codeLengthAll es := by
  induction es generalizing next label with
  | nil => rfl
  | cons e es ih =>
    obtain ⟨he, hes⟩ := List.forall_mem_cons.mp h
    have hfirst := he (.value next) (next + 1) label
    have hrest := @ih (next + 1) (label + e.labelCount) hes
    simp only [Purpose.isCondition, Bool.toNat_false] at hfirst
    simp only [Expr.emitAll, Expr.applicationsAll, Expr.codeLengthAll, codeSize_append,
      foldedCount_append]
    omega

/-- Each comparison that is folded saves one instruction in the code of an expression. -/
lemma Expr.codeSize_emit (e : Expr Nat) (purpose : Purpose) (next label : Nat) :
    codeSize (e.emit config purpose next label) +
      foldedCount config.folding (e.applications purpose.isCondition) =
        e.codeLength + purpose.isCondition.toNat := by
  induction e generalizing purpose next label with
  | literal v | var n =>
    rw [Expr.emit]
    exact Purpose.codeSize_deliver fun l next => rfl
  | ifElse c a b hc ha hb =>
    rw [Expr.emit]
    refine Purpose.codeSize_deliver fun l next => ?_
    have htest := hc (.branchUnless (numberedLabel "else" label)) next (label + 2)
    have hthen := ha (.value l) next (label + 2 + c.labelCount)
    have helse := hb (.value l) next (label + 2 + c.labelCount + a.labelCount)
    simp only [Purpose.isCondition, Bool.toNat_false, Bool.toNat_true] at htest hthen helse
    simp only [Expr.applications, Expr.codeLength, codeSize_append, codeSize_instr, codeSize_label,
      codeSize_nil, foldedCount_append]
    omega
  | apply p es hes =>
    rw [Expr.emit, Expr.applications, foldedCount_cons, Purpose.foldable_eq]
    cases hfold : purpose.folded? config p with
    | none =>
      refine Purpose.codeSize_deliver fun l next => ?_
      have hall := @Expr.codeSize_emitAll config es next label hes
      simp only [Option.isSome_none, Bool.false_eq_true, if_false, codeSize_append, codeSize_instr,
        codeSize_nil, Expr.codeLength]
      omega
    | some folded =>
      obtain ⟨rfl, -⟩ := Purpose.folded?_eq_some hfold
      have hall := @Expr.codeSize_emitAll config es next label hes
      simp only [Option.isSome_some, if_true, codeSize_append, codeSize_instr, codeSize_nil,
        Expr.codeLength, Purpose.isCondition, Bool.toNat_true]
      omega
  | call f es hes =>
    rw [Expr.emit]
    refine Purpose.codeSize_deliver fun l next => ?_
    have hall := @Expr.codeSize_emitAll config es next label hes
    simp only [Expr.applications, Expr.codeLength, codeSize_append, codeSize_instr, codeSize_nil]
    omega

lemma Stmt.codeSize_emit (st : Stmt Nat) (label : Nat) :
    codeSize (st.emit config label) + foldedCount config.folding st.applications =
      st.codeLength config.backend := by
  have hvalue (e : Expr Nat) (l next label : Nat) :
      codeSize (e.emit config (.value l) next label) +
        foldedCount config.folding (e.applications false) = e.codeLength :=
    e.codeSize_emit (.value l) next label
  have htest (e : Expr Nat) (target : String) (next label : Nat) :
      codeSize (e.emit config (.branchUnless target) next label) +
        foldedCount config.folding (e.applications true) = e.codeLength + 1 :=
    e.codeSize_emit (.branchUnless target) next label
  induction st generalizing label with
  | skip => rfl
  | block n a ha =>
    have hbody := ha label
    simp only [Stmt.emit, Stmt.applications, Stmt.codeLength, codeSize_append, codeSize_instr,
      codeSize_nil]
    omega
  | assign n e | print e | ret e =>
    have he := hvalue e 0 1 label
    simp only [Stmt.emit, Stmt.applications, Stmt.codeLength, codeSize_append, codeSize_instr,
      codeSize_nil]
    omega
  | seq a b ha hb =>
    have hfirst := ha label
    have hsecond := hb (label + a.labelCount)
    simp only [Stmt.emit, Stmt.applications, Stmt.codeLength, codeSize_append, foldedCount_append]
    omega
  | ifElse c a b ha hb =>
    have hcond := htest c (numberedLabel "else" label) 0 (label + 2)
    have hthen := ha (label + 2 + c.labelCount)
    have helse := hb (label + 2 + c.labelCount + a.labelCount)
    simp only [Stmt.emit, Stmt.applications, Stmt.codeLength, codeSize_append, codeSize_instr,
      codeSize_label, codeSize_nil, foldedCount_append]
    omega
  | ifThen c a ha =>
    have hcond := htest c (numberedLabel "end" label) 0 (label + 1)
    have hbody := ha (label + 1 + c.labelCount)
    simp only [Stmt.emit, Stmt.applications, Stmt.codeLength, codeSize_append, codeSize_label,
      codeSize_nil, foldedCount_append]
    omega
  | whileDo c a ha =>
    have hcond := htest c (numberedLabel "done" (label + 1)) 0 (label + 2)
    have hbody := ha (label + 2 + c.labelCount)
    simp only [Stmt.emit, Stmt.applications, Stmt.codeLength, codeSize_append, codeSize_instr,
      codeSize_label, codeSize_nil, foldedCount_append]
    omega
  | repeatUntil a c ha =>
    have hbody := ha (label + 1)
    have hcond := htest c (numberedLabel "repeat" label) 0 (label + 1 + a.labelCount)
    simp only [Stmt.emit, Stmt.applications, Stmt.codeLength, codeSize_append, codeSize_label,
      codeSize_nil, foldedCount_append]
    omega
  | call f es =>
    have hall := @Expr.codeSize_emitAll config es 1 label fun e _ => e.codeSize_emit
    have hdiscard : codeSize (config.backend.discard.map .instr) =
        config.backend.discard.length := by
      cases config.backend <;> rfl
    simp only [Stmt.emit, Stmt.applications, Stmt.codeLength, codeSize_append, codeSize_instr,
      codeSize_nil, hdiscard]
    omega

end

/-! ### Routines -/

lemma operations_withReturn {config : Config} (code : List Line) :
    operations (withReturn config code) = operations code := by
  unfold withReturn
  split <;> simp

/-- What folding does to the code of a routine. -/
structure Stmt.FoldingSaves {ν : Type} (st : Stmt ν) (folded unfolded : List Line) : Prop where
  labels : Assembly.labels folded = Assembly.labels unfolded
  slots : slotAccesses folded = slotAccesses unfolded
  /-- One instruction is saved for each condition that is a comparison. -/
  saved : (Assembly.instructions unfolded).length =
    (Assembly.instructions folded).length + st.conditions.countP (·.isComparison)
  /-- The value of such a condition is not computed, and every other value still is. -/
  computed : (operations folded).Perm
    ((st.applications.filter fun a => !a.isFoldable).filterMap (·.operation?))
  /-- Without folding all values are computed. -/
  unfolded_computed : (operations unfolded).Perm (st.applications.filterMap (·.operation?))

lemma Stmt.foldingSaves_emit (b : Backend) (st : Stmt String) (s : Scope) :
    st.FoldingSaves ((st.withSlots s).1.emit ⟨b, true⟩ 0)
      ((st.withSlots s).1.emit ⟨b, false⟩ 0) where
  labels := by simp only [labels_eq_definedLabels, Stmt.outline_emit]
  slots := by rw [Stmt.slotAccesses_emit, Stmt.slotAccesses_emit]
  saved := by
    have hfolded := @Stmt.codeSize_emit ⟨b, true⟩ (st.withSlots s).1 0
    have hunfolded := @Stmt.codeSize_emit ⟨b, false⟩ (st.withSlots s).1 0
    rw [Stmt.applications_withSlots] at hfolded hunfolded
    rw [foldedCount_false, ← hfolded] at hunfolded
    rw [← Stmt.countP_applications]
    exact hunfolded
  computed := by
    have h := @Stmt.operations_emit ⟨b, true⟩ (st.withSlots s).1 0
    rw [Stmt.applications_withSlots] at h
    exact h
  unfolded_computed := by
    have h := @Stmt.operations_emit ⟨b, false⟩ (st.withSlots s).1 0
    rw [Stmt.applications_withSlots, computed_false] at h
    exact h

/-- A return is added to both codes of a body, or to none. -/
lemma Stmt.foldingSaves_withReturn (b : Backend) (st : Stmt String) (s : Scope) :
    st.FoldingSaves (withReturn ⟨b, true⟩ ((st.withSlots s).1.emit ⟨b, true⟩ 0))
      (withReturn ⟨b, false⟩ ((st.withSlots s).1.emit ⟨b, false⟩ 0)) := by
  obtain ⟨hlabels, hslots, hsaved, hcomputed, hunfolded⟩ := st.foldingSaves_emit b s
  constructor
  · rw [labels_eq_definedLabels, labels_eq_definedLabels] at hlabels ⊢
    rwa [outline_withReturn, outline_withReturn]
  · rwa [slotAccesses_withReturn, slotAccesses_withReturn]
  · unfold withReturn
    rw [Stmt.endsInReturn_emit, Stmt.endsInReturn_emit]
    split
    · exact hsaved
    · simp only [Assembly.instructions_append, List.length_append, hsaved,
        Assembly.instructions_instr, Assembly.instructions_nil, List.length_cons, List.length_nil]
      omega
  · rwa [operations_withReturn]
  · rwa [operations_withReturn]

/-- What folding does to the code of a program, routine by routine. -/
structure Program.FoldingSaves (p : Program) (folded unfolded : Assembly) : Prop where
  folded_length : folded.procedures.length = p.procedures.length
  unfolded_length : unfolded.procedures.length = p.procedures.length
  procedures : ∀ (i : Nat) (q : Procedure) (r r' : Assembly.Routine),
    p.procedures[i]? = some q → folded.procedures[i]? = some r →
      unfolded.procedures[i]? = some r' →
        r.name = .procedure q.name ∧ r'.name = .procedure q.name ∧
          q.body.FoldingSaves r.code r'.code
  main : p.main.FoldingSaves folded.main.code unfolded.main.code

/-- A program that compiles does so with folding and without. Folding saves exactly one
instruction for each comparison that is a condition, whose value is then never computed; labels
and slots are the same. -/
theorem Program.folding_saves (p : Program) (b : Backend) :
    (∃ folded unfolded, p.compile ⟨b, true⟩ = .ok folded ∧
        p.compile ⟨b, false⟩ = .ok unfolded ∧ p.FoldingSaves folded unfolded) ∨
      ∃ e e', p.compile ⟨b, true⟩ = .error e ∧ p.compile ⟨b, false⟩ = .error e' := by
  cases hfolded : p.compile ⟨b, true⟩ with
  | error e =>
    cases hunfolded : p.compile ⟨b, false⟩ with
    | error e' => exact .inr ⟨e, e', rfl, rfl⟩
    | ok unfolded =>
      obtain ⟨hp, -⟩ := compile_eq_ok_iff.mp hunfolded
      rw [compile_eq_ok_iff.mpr ⟨hp, rfl⟩] at hfolded
      cases hfolded
  | ok folded =>
    obtain ⟨hp, rfl⟩ := compile_eq_ok_iff.mp hfolded
    refine .inl ⟨_, _, rfl, compile_eq_ok_iff.mpr ⟨hp, rfl⟩, ?_⟩
    refine ⟨List.length_map _, List.length_map _, ?_, p.main.foldingSaves_emit b .empty⟩
    intro i q r r' hq hr hr'
    rw [List.getElem?_map, hq] at hr hr'
    cases hr
    cases hr'
    exact ⟨rfl, rfl, q.body.foldingSaves_withReturn b (.ofFormals q.formals)⟩

/-- A comparison in an operand of a folded one is folded too. -/
example : let st : Stmt String := .whileDo (.apply .less [.var "a", .ifElse
      (.apply .equal [.var "a", .var "b"]) (.literal 1) (.literal 2)]) .skip
    (Assembly.instructions (st.compileMain ⟨.register, false⟩)).length =
      (Assembly.instructions (st.compileMain ⟨.register, true⟩)).length + 2 := rfl

end Izmir
