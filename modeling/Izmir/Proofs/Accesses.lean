import Izmir.Proofs.Outline

/-!
# Accesses to variables

The code of a tree reads and writes slots in the order in which the tree mentions its variables:
there is one access for each mention, and no other, in every configuration.
-/

namespace Izmir

/-- A mention of a variable. -/
inductive Access (ν : Type) where
  | read (name : ν)
  | write (name : ν)
  deriving DecidableEq

namespace Access

variable {ν μ : Type}

def name : Access ν → ν
  | .read x | .write x => x

def map (f : ν → μ) : Access ν → Access μ
  | .read x => .read (f x)
  | .write x => .write (f x)

@[simp] lemma map_read (f : ν → μ) (x : ν) : (read x).map f = .read (f x) := rfl

@[simp] lemma map_write (f : ν → μ) (x : ν) : (write x).map f = .write (f x) := rfl

@[simp] lemma name_map (f : ν → μ) (m : Access ν) : (m.map f).name = f m.name := by
  cases m <;> rfl

end Access

/-- The variables that an expression reads, in the order of evaluation. -/
def Expr.reads {ν : Type} (e : Expr ν) : List (Access ν) :=
  e.vars.map .read

/-- The variables that a statement mentions, in the order in which they are accessed. A block
writes its variable on entry, and an assignment writes after it has read. -/
def Stmt.accesses {ν : Type} : Stmt ν → List (Access ν)
  | .skip => []
  | .block x a => .write x :: a.accesses
  | .assign x e => e.reads ++ [.write x]
  | .print e => e.reads
  | .seq a b => a.accesses ++ b.accesses
  | .ifElse c a b => c.reads ++ a.accesses ++ b.accesses
  | .ifThen c a => c.reads ++ a.accesses
  | .whileDo c a => c.reads ++ a.accesses
  | .repeatUntil a c => a.accesses ++ c.reads
  | .ret e => e.reads
  | .call _ es => (Expr.varsAll es).map .read

def Operand.slot? : Operand → Option Nat
  | .slot n => some n
  | _ => none

/-- The slots that an instruction reads and writes. -/
def Instr.accesses {τ κ : Type} : Instr τ κ Operand → List (Access Nat)
  | .pushVariable n => [.read n]
  | .popVariable n => [.write n]
  | .move a b => a.slot?.toList.map .read ++ b.slot?.toList.map .write
  | _ => []

def Line.accesses : Line → List (Access Nat)
  | .label _ => []
  | .instr i => i.accesses

/-- The slots that some code reads and writes, in order. -/
def slotAccesses (code : List Line) : List (Access Nat) :=
  code.flatMap Line.accesses

@[simp] lemma slotAccesses_nil : slotAccesses [] = [] := rfl

@[simp] lemma slotAccesses_label (l : String) (code : List Line) :
    slotAccesses (.label l :: code) = slotAccesses code := rfl

@[simp] lemma slotAccesses_instr (i : SymbolicInstr) (code : List Line) :
    slotAccesses (.instr i :: code) = i.accesses ++ slotAccesses code := rfl

@[simp] lemma slotAccesses_append (a b : List Line) :
    slotAccesses (a ++ b) = slotAccesses a ++ slotAccesses b := by
  simp [slotAccesses]

section

variable {config : Config} {b : Backend}

@[simp] lemma Backend.accesses_loadConstant {v : Value} {l : Nat} :
    (b.loadConstant v l).accesses = [] := by cases b <;> rfl

@[simp] lemma Backend.accesses_loadVariable {n l : Nat} :
    (b.loadVariable n l).accesses = [.read n] := by cases b <;> rfl

@[simp] lemma Backend.accesses_storeVariable {l n : Nat} :
    (b.storeVariable l n).accesses = [.write n] := by cases b <;> rfl

@[simp] lemma Backend.accesses_print {l : Nat} : (b.print l).accesses = [] := by cases b <;> rfl

@[simp] lemma Backend.accesses_ret {l : Nat} : (b.ret l).accesses = [] := by cases b <;> rfl

@[simp] lemma Backend.accesses_apply {p : Primitive} {ls : List Nat} {l : Nat} :
    (b.apply p ls l).accesses = [] := by
  unfold Backend.apply
  cases Operation.ofPrimitive? p <;> cases b <;> rfl

@[simp] lemma Backend.accesses_branchIf {c : Condition} {ls : List Nat} {label : String} :
    (b.branchIf c ls label).accesses = [] := by cases b <;> rfl

@[simp] lemma Backend.accesses_call {f : String} {first n l : Nat} :
    (b.call f first n l).accesses = [] := by cases b <;> rfl

@[simp] lemma Backend.slotAccesses_discard : slotAccesses (b.discard.map .instr) = [] := by
  cases b <;> rfl

@[simp] lemma Instr.accesses_branch {label : String} :
    (Instr.branch label : SymbolicInstr).accesses = [] := rfl

lemma Purpose.slotAccesses_deliver {purpose : Purpose} {next : Nat} {value : Nat → Nat → List Line}
    {as : List (Access Nat)} (h : ∀ l next, slotAccesses (value l next) = as) :
    slotAccesses (purpose.deliver config next value) = as := by
  cases purpose with
  | value l => exact h l next
  | branchUnless label => simp [deliver, h]

lemma Expr.slotAccesses_emitAll {es : List (Expr Nat)} {next label : Nat}
    (h : ∀ e ∈ es, ∀ purpose next label,
      slotAccesses (e.emit config purpose next label) = e.reads) :
    slotAccesses (Expr.emitAll config es next label) = (Expr.varsAll es).map .read := by
  induction es generalizing next label with
  | nil => rfl
  | cons e es ih =>
    obtain ⟨he, hes⟩ := List.forall_mem_cons.mp h
    rw [Expr.emitAll, slotAccesses_append, he, ih hes, Expr.varsAll, List.map_append, Expr.reads]

/-- The code of an expression reads its variables, for whatever purpose it was emitted. -/
lemma Expr.slotAccesses_emit (e : Expr Nat) (purpose : Purpose) (next label : Nat) :
    slotAccesses (e.emit config purpose next label) = e.reads := by
  induction e generalizing purpose next label with
  | literal v =>
    rw [Expr.emit]
    exact Purpose.slotAccesses_deliver fun l next => by simp [Expr.reads, Expr.vars]
  | var n =>
    rw [Expr.emit]
    exact Purpose.slotAccesses_deliver fun l next => by simp [Expr.reads, Expr.vars]
  | ifElse c a b hc ha hb =>
    rw [Expr.emit]
    refine Purpose.slotAccesses_deliver fun l next => ?_
    simp [hc, ha, hb, Expr.reads, Expr.vars]
  | apply p es hes =>
    rw [Expr.emit]
    cases purpose.folded? config p with
    | none =>
      refine Purpose.slotAccesses_deliver fun l next => ?_
      simp [Expr.slotAccesses_emitAll hes, Expr.reads, Expr.vars]
    | some folded => simp [Expr.slotAccesses_emitAll hes, Expr.reads, Expr.vars]
  | call f es hes =>
    rw [Expr.emit]
    refine Purpose.slotAccesses_deliver fun l next => ?_
    simp [Expr.slotAccesses_emitAll hes, Expr.reads, Expr.vars]

/-- The code of a statement accesses its variables in order. -/
lemma Stmt.slotAccesses_emit (st : Stmt Nat) (label : Nat) :
    slotAccesses (st.emit config label) = st.accesses := by
  induction st generalizing label with
  | skip => rfl
  | block n a ha => simp [Stmt.emit, Stmt.accesses, ha]
  | assign n e => simp [Stmt.emit, Stmt.accesses, Expr.slotAccesses_emit]
  | print e => simp [Stmt.emit, Stmt.accesses, Expr.slotAccesses_emit]
  | seq a b ha hb => simp [Stmt.emit, Stmt.accesses, ha, hb]
  | ifElse c a b ha hb => simp [Stmt.emit, Stmt.accesses, Expr.slotAccesses_emit, ha, hb]
  | ifThen c a ha => simp [Stmt.emit, Stmt.accesses, Expr.slotAccesses_emit, ha]
  | whileDo c a ha => simp [Stmt.emit, Stmt.accesses, Expr.slotAccesses_emit, ha]
  | repeatUntil a c ha => simp [Stmt.emit, Stmt.accesses, Expr.slotAccesses_emit, ha]
  | ret e => simp [Stmt.emit, Stmt.accesses, Expr.slotAccesses_emit]
  | call f es =>
    simp [Stmt.emit, Stmt.accesses, Expr.slotAccesses_emitAll fun e _ => e.slotAccesses_emit]

lemma slotAccesses_withReturn (code : List Line) :
    slotAccesses (withReturn config code) = slotAccesses code := by
  unfold withReturn
  split <;> simp

end

end Izmir
