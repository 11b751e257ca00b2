import Izmir.Proofs.Safety
import Izmir.Proofs.Trees

/-!
# What linking sees of code

Whether a routine links, and with which error it does not, is a matter of its outline: the
labels that its code defines, the labels it branches to and the calls it makes, in order. For
that the instructions have to be well formed in themselves, which compiled code is unless it
needs more slots or registers than can be counted. The outline of compiled code is the same in
every configuration.
-/

namespace Izmir

/-- Two computations that succeed together and fail together, with related errors. -/
inductive FailsLike {ε α β : Type} (R : ε → ε → Prop) : Except ε α → Except ε β → Prop
  | ok (a : α) (b : β) : FailsLike R (.ok a) (.ok b)
  | error {e e' : ε} : R e e' → FailsLike R (.error e) (.error e')

namespace FailsLike

variable {ε α β γ δ : Type} {R : ε → ε → Prop}

lemma bind {m : Except ε α} {n : Except ε β} {f : α → Except ε γ} {g : β → Except ε δ}
    (h : FailsLike R m n) (hfg : ∀ a b, FailsLike R (f a) (g b)) :
    FailsLike R (m >>= f) (n >>= g) := by
  cases h with
  | ok a b => exact hfg a b
  | error he => exact .error he

lemma bind_pure {m : Except ε α} {n : Except ε β} (h : FailsLike R m n) (f : α → γ) :
    FailsLike R (m >>= fun a => pure (f a)) n := by
  cases h with
  | ok a b => exact .ok (f a) b
  | error he => exact .error he

lemma mapM {f : α → Except ε γ} {g : β → Except ε δ} {as : List α} {bs : List β}
    (h : List.Forall₂ (fun a b => FailsLike R (f a) (g b)) as bs) :
    FailsLike R (as.mapM f) (bs.mapM g) := by
  induction h with
  | nil => exact .ok _ _
  | cons h _ ih =>
    rw [List.mapM_cons, List.mapM_cons]
    exact h.bind fun _ _ => ih.bind fun _ _ => .ok _ _

lemma trans_eq {l : Except ε α} {m : Except ε β} {n : Except ε γ} (h : FailsLike Eq l m)
    (h' : FailsLike Eq m n) : FailsLike Eq l n := by
  cases h with
  | ok a b =>
    cases h' with
    | ok _ c => exact .ok a c
  | error he =>
    cases h' with
    | error he' => exact .error (he.trans he')

lemma symm_eq {m : Except ε α} {n : Except ε β} (h : FailsLike Eq m n) : FailsLike Eq n m := by
  cases h with
  | ok a b => exact .ok b a
  | error he => exact .error he.symm

end FailsLike

/-- What linking takes note of. -/
inductive Mark where
  | label (name : String)
  | target (label : String)
  | call (callee : String) (arguments : Nat)

def Instr.marks {δ : Type} (i : Instr String String δ) : List Mark :=
  i.target?.toList.map .target ++ i.call?.toList.map fun (f, n) => .call f n

def Line.marks : Line → List Mark
  | .label l => [.label l]
  | .instr i => i.marks

/-- The labels that some code defines and names, and its calls, in order. -/
def outline (code : List Line) : List Mark :=
  code.flatMap Line.marks

@[simp] lemma outline_nil : outline [] = [] := rfl

@[simp] lemma outline_label (l : String) (code : List Line) :
    outline (.label l :: code) = .label l :: outline code := rfl

@[simp] lemma outline_instr (i : SymbolicInstr) (code : List Line) :
    outline (.instr i :: code) = i.marks ++ outline code := rfl

@[simp] lemma outline_append (a b : List Line) : outline (a ++ b) = outline a ++ outline b := by
  simp [outline]

/-- An instruction of a proper form: it names the right number of operands, stores into a place,
and has the window of its arguments among the registers there can be. -/
def SymbolicInstr.Formed : SymbolicInstr → Prop
  | .move _ (.literal _) => False
  | .callRegisters _ first n _ => first + n < UInt64.size
  | i => i.OperandsFit

/-- An instruction that is well formed in itself: its indices can be counted, too. -/
def SymbolicInstr.WellFormed (i : SymbolicInstr) : Prop :=
  i.Formed ∧ i.IndicesFit

def Line.WellFormed : Line → Prop
  | .label _ => True
  | .instr i => SymbolicInstr.WellFormed i

namespace Link.Context

/-- Look up what a mark names. -/
def resolve (c : Context) : Mark → Except LinkError Unit
  | .label _ => .ok ()
  | .target l => do
    let _ ← c.target l
    .ok ()
  | .call f n => do
    let _ ← c.callee f n
    .ok ()

/-- A well-formed instruction fails to link only if what it names is not found. -/
lemma instr_failsLike (c : Context) {i : SymbolicInstr} (h : SymbolicInstr.WellFormed i) :
    FailsLike Eq (c.instr i) (forM i.marks c.resolve) := by
  obtain ⟨h, hfit⟩ := h
  rw [instr_eq_uncounted hfit]
  have htarget (l : String) (f : Nat → LinkedInstr) :
      FailsLike Eq (do .ok (f (← c.target l))) (forM [Mark.target l] c.resolve) := by
    change FailsLike Eq _ ((c.target l >>= fun _ => .ok ()) >>= fun _ => .ok ())
    cases c.target l with
    | ok t => exact .ok _ _
    | error e => exact .error rfl
  have hcallee (f : String) (n : Nat) (g : Nat → LinkedInstr) :
      FailsLike Eq (do .ok (g (← c.callee f n))) (forM [Mark.call f n] c.resolve) := by
    change FailsLike Eq _ ((c.callee f n >>= fun _ => .ok ()) >>= fun _ => .ok ())
    cases c.callee f n with
    | ok k => exact .ok _ _
    | error e => exact .error rfl
  cases i with
  | branch l => exact htarget l .branch
  | branchIf k l => exact htarget l (.branchIf k)
  | call f n => exact hcallee f n (.call · n)
  | move a b =>
    cases b with
    | literal v => exact h.elim
    | slot k => exact .ok _ _
    | register k => exact .ok _ _
  | operateRegisters o rs r =>
    have hlen : rs.length = o.arity := h
    rw [uncounted, if_pos hlen]
    exact .ok _ _
  | branchIfRegisters k rs l =>
    have hlen : rs.length = k.arity := h
    rw [uncounted, if_pos hlen]
    exact htarget l (.branchIfRegisters k rs)
  | callRegisters f first n r =>
    have hwindow : first + n < UInt64.size := h
    rw [uncounted, if_pos hwindow]
    exact hcallee f n (.callRegisters · first n r)
  | _ => exact .ok _ _

/-- The first error of some code is that of its outline. -/
lemma mapM_instr_failsLike (c : Context) {code : List Line} (h : ∀ line ∈ code, line.WellFormed) :
    FailsLike Eq ((Assembly.instructions code).mapM c.instr) (forM (outline code) c.resolve) := by
  induction code with
  | nil => exact .ok _ _
  | cons line code ih =>
    obtain ⟨hline, hcode⟩ := List.forall_mem_cons.mp h
    cases line with
    | label l => exact ih hcode
    | instr i =>
      rw [Assembly.instructions_instr, List.mapM_cons, outline_instr, List.forM_append]
      exact (c.instr_failsLike hline).bind fun j _ => (ih hcode).bind_pure (j :: ·)

end Link.Context

def Mark.label? : Mark → Option String
  | .label l => some l
  | _ => none

/-- The labels that some marks define. -/
def definedLabels (ms : List Mark) : List String :=
  ms.filterMap Mark.label?

@[simp] lemma definedLabels_nil : definedLabels [] = [] := rfl

@[simp] lemma definedLabels_append (ms ns : List Mark) :
    definedLabels (ms ++ ns) = definedLabels ms ++ definedLabels ns :=
  List.filterMap_append

@[simp] lemma definedLabels_label (l : String) (ms : List Mark) :
    definedLabels (.label l :: ms) = l :: definedLabels ms := rfl

@[simp] lemma definedLabels_target (l : String) (ms : List Mark) :
    definedLabels (.target l :: ms) = definedLabels ms := rfl

@[simp] lemma definedLabels_call (f : String) (n : Nat) (ms : List Mark) :
    definedLabels (.call f n :: ms) = definedLabels ms := rfl

lemma mem_definedLabels {l : String} {ms : List Mark} :
    l ∈ definedLabels ms ↔ Mark.label l ∈ ms := by
  rw [definedLabels, List.mem_filterMap]
  constructor
  · rintro ⟨m, hm, h⟩
    cases m <;> cases h
    exact hm
  · exact fun h => ⟨_, h, rfl⟩

lemma labels_eq_definedLabels (code : List Line) :
    Assembly.labels code = definedLabels (outline code) := by
  induction code with
  | nil => rfl
  | cons line code ih =>
    cases line with
    | label l => simpa using ih
    | instr i => cases i <;> simpa [Instr.marks, Instr.target?, Instr.call?] using ih

lemma Link.resolve_target {table : List (String × Nat × Nat)} {name : RoutineName} {l : String}
    {code : List Line} :
    (contextOf table name code).resolve (.target l) =
      if l ∈ Assembly.labels code then .ok () else .error (.undefinedLabel name.text l) := by
  have hmem : (contextOf table name code).labels.lookup l = none ↔ l ∉ Assembly.labels code := by
    rw [← targets_keys 0 code, contextOf, lookup_eq_none_iff_keys]
  rw [Context.resolve, Context.target]
  cases hl : (contextOf table name code).labels.lookup l with
  | none =>
    rw [if_neg (hmem.mp hl)]
    rfl
  | some n =>
    have hmem' : l ∈ Assembly.labels code := by
      by_contra hl'
      rw [hmem.mpr hl'] at hl
      cases hl
    rw [if_pos hmem']
    rfl

/-- Routines with the same outline link alike. -/
lemma Link.routine_failsLike {table : List (String × Nat × Nat)} {name : RoutineName} {arity : Nat}
    {code code' : List Line} (h : outline code = outline code')
    (hcode : ∀ line ∈ code, line.WellFormed) (hcode' : ∀ line ∈ code', line.WellFormed) :
    FailsLike Eq (Link.routine table ⟨name, arity, code⟩)
      (Link.routine table ⟨name, arity, code'⟩) := by
  have hlabels : Assembly.labels code = Assembly.labels code' := by
    rw [labels_eq_definedLabels, labels_eq_definedLabels, h]
  have hresolve : (contextOf table name code).resolve = (contextOf table name code').resolve := by
    funext m
    cases m with
    | label l => rfl
    | target l => rw [resolve_target, resolve_target, hlabels]
    | call f n => rfl
  have hinstrs := (contextOf table name code).mapM_instr_failsLike hcode
  have hinstrs' := (contextOf table name code').mapM_instr_failsLike hcode'
  rw [h, hresolve] at hinstrs
  unfold routine
  simp only [← hlabels]
  cases firstRepeat? (Assembly.labels code) with
  | some l => exact .error rfl
  | none => exact (hinstrs.trans_eq hinstrs'.symm_eq).bind fun _ _ => .ok _ _

/-! ### The outline of a tree -/

mutual

/-- The outline of the code that computes an expression, when its labels are numbered from
`label` on. -/
def Expr.marks : Expr Nat → (label : Nat) → List Mark
  | .literal _, _ => []
  | .var _, _ => []
  | .ifElse c a b, label =>
    let otherwise := numberedLabel "else" label
    let done := numberedLabel "end" (label + 1)
    let label := label + 2
    c.marks label ++ [.target otherwise] ++ a.marks (label + c.labelCount) ++
      [.target done, .label otherwise] ++ b.marks (label + c.labelCount + a.labelCount) ++
      [.label done]
  | .apply _ es, label => Expr.marksAll es label
  | .call f es, label => Expr.marksAll es label ++ [.call f es.length]

def Expr.marksAll : List (Expr Nat) → (label : Nat) → List Mark
  | [], _ => []
  | e :: es, label => e.marks label ++ Expr.marksAll es (label + e.labelCount)

end

/-- The outline of the code of a statement. -/
def Stmt.marks : Stmt Nat → (label : Nat) → List Mark
  | .skip, _ => []
  | .block _ a, label => a.marks label
  | .assign _ e, label => e.marks label
  | .print e, label => e.marks label
  | .seq a b, label => a.marks label ++ b.marks (label + a.labelCount)
  | .ifElse c a b, label =>
    let otherwise := numberedLabel "else" label
    let done := numberedLabel "end" (label + 1)
    let label := label + 2
    c.marks label ++ [.target otherwise] ++ a.marks (label + c.labelCount) ++
      [.target done, .label otherwise] ++ b.marks (label + c.labelCount + a.labelCount) ++
      [.label done]
  | .ifThen c a, label =>
    let done := numberedLabel "end" label
    let label := label + 1
    c.marks label ++ [.target done] ++ a.marks (label + c.labelCount) ++ [.label done]
  | .whileDo c a, label =>
    let again := numberedLabel "while" label
    let done := numberedLabel "done" (label + 1)
    let label := label + 2
    [.label again] ++ c.marks label ++ [.target done] ++ a.marks (label + c.labelCount) ++
      [.target again, .label done]
  | .repeatUntil a c, label =>
    let again := numberedLabel "repeat" label
    let label := label + 1
    [.label again] ++ a.marks label ++ c.marks (label + a.labelCount) ++ [.target again]
  | .ret e, label => e.marks label
  | .call f es, label => Expr.marksAll es label ++ [.call f es.length]

/-- The value is tested, and not used otherwise. -/
def Purpose.isCondition : Purpose → Bool
  | .value _ => false
  | .branchUnless _ => true

def Purpose.marks : Purpose → List Mark
  | .value _ => []
  | .branchUnless label => [.target label]

section

variable {config : Config} {b : Backend}

/-! What linking sees of the instructions of a backend. -/

@[simp] lemma Backend.marks_loadConstant {v : Value} {l : Nat} :
    (b.loadConstant v l).marks = [] := by cases b <;> rfl

@[simp] lemma Backend.marks_loadVariable {n l : Nat} :
    (b.loadVariable n l).marks = [] := by cases b <;> rfl

@[simp] lemma Backend.marks_storeVariable {l n : Nat} :
    (b.storeVariable l n).marks = [] := by cases b <;> rfl

@[simp] lemma Backend.marks_print {l : Nat} : (b.print l).marks = [] := by cases b <;> rfl

@[simp] lemma Backend.marks_ret {l : Nat} : (b.ret l).marks = [] := by cases b <;> rfl

@[simp] lemma Backend.marks_apply {p : Primitive} {ls : List Nat} {l : Nat} :
    (b.apply p ls l).marks = [] := by
  unfold Backend.apply
  cases Operation.ofPrimitive? p <;> cases b <;> rfl

@[simp] lemma Backend.marks_branchIf {c : Condition} {ls : List Nat} {label : String} :
    (b.branchIf c ls label).marks = [.target label] := by cases b <;> rfl

@[simp] lemma Backend.marks_call {f : String} {first n l : Nat} :
    (b.call f first n l).marks = [.call f n] := by cases b <;> rfl

@[simp] lemma Backend.outline_discard : outline (b.discard.map .instr) = [] := by
  cases b <;> rfl

@[simp] lemma Instr.marks_branch {label : String} :
    (Instr.branch label : SymbolicInstr).marks = [.target label] := rfl

lemma Purpose.outline_deliver {purpose : Purpose} {next : Nat} {value : Nat → Nat → List Line}
    {marks : List Mark} (h : ∀ l next, outline (value l next) = marks) :
    outline (purpose.deliver config next value) = marks ++ purpose.marks := by
  cases purpose with
  | value l => simp [deliver, Purpose.marks, h]
  | branchUnless label => simp [deliver, Purpose.marks, h]

lemma Expr.outline_emitAll {es : List (Expr Nat)} {next label : Nat}
    (h : ∀ e ∈ es, ∀ purpose next label,
      outline (e.emit config purpose next label) = e.marks label ++ purpose.marks) :
    outline (Expr.emitAll config es next label) = Expr.marksAll es label := by
  induction es generalizing next label with
  | nil => rfl
  | cons e es ih =>
    obtain ⟨he, hes⟩ := List.forall_mem_cons.mp h
    simp [Expr.emitAll, Expr.marksAll, he, ih hes, Purpose.marks]

lemma Expr.outline_emit (e : Expr Nat) (purpose : Purpose) (next label : Nat) :
    outline (e.emit config purpose next label) = e.marks label ++ purpose.marks := by
  induction e generalizing purpose next label with
  | literal v =>
    rw [Expr.emit, Expr.marks]
    exact Purpose.outline_deliver fun l next => by simp
  | var n =>
    rw [Expr.emit, Expr.marks]
    exact Purpose.outline_deliver fun l next => by simp
  | ifElse c a b hc ha hb =>
    rw [Expr.emit, Expr.marks]
    refine Purpose.outline_deliver fun l next => ?_
    simp [hc, ha, hb, Purpose.marks]
  | apply p es hes =>
    rw [Expr.emit, Expr.marks]
    cases hfold : purpose.folded? config p with
    | none =>
      refine Purpose.outline_deliver fun l next => ?_
      simp [Expr.outline_emitAll hes]
    | some folded =>
      obtain ⟨rfl, -⟩ := Purpose.folded?_eq_some hfold
      simp [Expr.outline_emitAll hes, Purpose.marks]
  | call f es hes =>
    rw [Expr.emit, Expr.marks]
    refine Purpose.outline_deliver fun l next => ?_
    simp [Expr.outline_emitAll hes]

lemma Stmt.outline_emit (st : Stmt Nat) (label : Nat) :
    outline (st.emit config label) = st.marks label := by
  have hall (es : List (Expr Nat)) (next label : Nat) :
      outline (Expr.emitAll config es next label) = Expr.marksAll es label :=
    Expr.outline_emitAll fun e _ => e.outline_emit
  induction st generalizing label with
  | skip => rfl
  | block n a ha => simp [Stmt.emit, Stmt.marks, ha]
  | assign n e => simp [Stmt.emit, Stmt.marks, Expr.outline_emit, Purpose.marks]
  | print e => simp [Stmt.emit, Stmt.marks, Expr.outline_emit, Purpose.marks]
  | seq a b ha hb => simp [Stmt.emit, Stmt.marks, ha, hb]
  | ifElse c a b ha hb =>
    simp [Stmt.emit, Stmt.marks, Expr.outline_emit, Purpose.marks, ha, hb]
  | ifThen c a ha => simp [Stmt.emit, Stmt.marks, Expr.outline_emit, Purpose.marks, ha]
  | whileDo c a ha => simp [Stmt.emit, Stmt.marks, Expr.outline_emit, Purpose.marks, ha]
  | repeatUntil a c ha => simp [Stmt.emit, Stmt.marks, Expr.outline_emit, Purpose.marks, ha]
  | ret e => simp [Stmt.emit, Stmt.marks, Expr.outline_emit, Purpose.marks]
  | call f es => simp [Stmt.emit, Stmt.marks, hall]

lemma outline_withReturn (code : List Line) : outline (withReturn config code) = outline code := by
  unfold withReturn
  split <;> simp

end

/-! ### Compiled code is well formed -/

mutual

/-- The number of nodes of an expression. The name of a callee is one. -/
def Expr.size {ν : Type} : Expr ν → Nat
  | .literal _ => 1
  | .var _ => 1
  | .ifElse c a b => 1 + c.size + a.size + b.size
  | .apply _ es => 1 + Expr.sizeAll es
  | .call _ es => 2 + Expr.sizeAll es

def Expr.sizeAll {ν : Type} : List (Expr ν) → Nat
  | [] => 0
  | e :: es => e.size + Expr.sizeAll es

end

/-- The number of nodes of a statement. -/
def Stmt.size {ν : Type} : Stmt ν → Nat
  | .skip => 1
  | .block _ a => 1 + a.size
  | .assign _ e => 1 + e.size
  | .print e => 1 + e.size
  | .seq a b => 1 + a.size + b.size
  | .ifElse c a b => 1 + c.size + a.size + b.size
  | .ifThen c a => 1 + c.size + a.size
  | .whileDo c a => 1 + c.size + a.size
  | .repeatUntil a c => 1 + a.size + c.size
  | .ret e => 1 + e.size
  | .call _ es => 2 + Expr.sizeAll es

/-- The number of nodes of a program. Formal parameters are nodes. -/
def Program.size (p : Program) : Nat :=
  (p.procedures.map fun q => q.formals.length + q.body.size).sum + p.main.size

lemma Program.procedure_size_le {p : Program} {q : Procedure} (hq : q ∈ p.procedures) :
    q.formals.length + q.body.size ≤ p.size :=
  (List.le_sum_of_mem
    (List.mem_map_of_mem (f := fun q : Procedure => q.formals.length + q.body.size) hq)).trans
    (Nat.le_add_right _ _)

lemma Program.main_size_le (p : Program) : p.main.size ≤ p.size :=
  Nat.le_add_left _ _

lemma Expr.size_pos {ν : Type} (e : Expr ν) : 0 < e.size := by
  cases e <;> simp only [Expr.size] <;> omega

lemma Stmt.size_pos {ν : Type} (st : Stmt ν) : 0 < st.size := by
  cases st <;> simp only [Stmt.size] <;> omega

lemma Expr.length_le_sizeAll {ν : Type} (es : List (Expr ν)) : es.length ≤ Expr.sizeAll es := by
  induction es with
  | nil => exact le_rfl
  | cons e es ih =>
    have := e.size_pos
    simp only [List.length_cons, Expr.sizeAll]
    omega

/-- There are enough registers below a bound for the code of an expression of some size. -/
def Purpose.Fits (N next size : Nat) : Purpose → Prop
  | .value l => l < N ∧ next + size ≤ N
  | .branchUnless _ => next + 1 + size ≤ N

mutual

/-- The variables that an expression reads. -/
def Expr.vars {ν : Type} : Expr ν → List ν
  | .literal _ => []
  | .var x => [x]
  | .ifElse c a b => c.vars ++ a.vars ++ b.vars
  | .apply _ es => Expr.varsAll es
  | .call _ es => Expr.varsAll es

def Expr.varsAll {ν : Type} : List (Expr ν) → List ν
  | [] => []
  | e :: es => e.vars ++ Expr.varsAll es

end

/-- The variables that a statement declares, reads or writes. -/
def Stmt.vars {ν : Type} : Stmt ν → List ν
  | .skip => []
  | .block x a => x :: a.vars
  | .assign x e => e.vars ++ [x]
  | .print e => e.vars
  | .seq a b => a.vars ++ b.vars
  | .ifElse c a b => c.vars ++ a.vars ++ b.vars
  | .ifThen c a => c.vars ++ a.vars
  | .whileDo c a => c.vars ++ a.vars
  | .repeatUntil a c => a.vars ++ c.vars
  | .ret e => e.vars
  | .call _ es => Expr.varsAll es

/-- The instructions that a backend emits for variables in some slots: operands are in
consecutive locations, as many as are needed, and every location lies below a bound. -/
inductive Backend.Emits (b : Backend) (N : Nat) (S : Nat → Prop) : SymbolicInstr → Prop where
  | loadConstant (v : Value) {l : Nat} (hl : l < N) : b.Emits N S (b.loadConstant v l)
  | loadVariable {n l : Nat} (hn : S n) (hl : l < N) : b.Emits N S (b.loadVariable n l)
  | storeVariable {l n : Nat} (hl : l < N) (hn : S n) : b.Emits N S (b.storeVariable l n)
  | apply (p : Primitive) {first l : Nat} (hl : l < N)
      (hwindow : first + p.arity ≤ N) :
      b.Emits N S (b.apply p (List.range' first p.arity) l)
  | print {l : Nat} (hl : l < N) : b.Emits N S (b.print l)
  | branch (label : String) : b.Emits N S (.branch label)
  | branchIf (c : Condition) {first : Nat} (label : String)
      (hwindow : first + c.arity ≤ N) :
      b.Emits N S (b.branchIf c (List.range' first c.arity) label)
  | call (f : String) {first n l : Nat} (hl : l < N)
      (hwindow : first + n ≤ N) : b.Emits N S (b.call f first n l)
  | discard {i : SymbolicInstr} (hi : i ∈ b.discard) : b.Emits N S i
  | ret {l : Nat} (hl : l < N) : b.Emits N S (b.ret l)

def Line.Emitted (b : Backend) (N : Nat) (S : Nat → Prop) : Line → Prop
  | .label _ => True
  | .instr i => b.Emits N S i

section

variable {config : Config} {N : Nat} {S : Nat → Prop}

lemma Purpose.emitted_deliver {purpose : Purpose} {next size : Nat}
    {value : Nat → Nat → List Line} (hfits : purpose.Fits N next size)
    (h : ∀ l next, l < N → next + size ≤ N →
      ∀ line ∈ value l next, line.Emitted config.backend N S) :
    ∀ line ∈ purpose.deliver config next value, line.Emitted config.backend N S := by
  cases purpose with
  | value l => exact h l next hfits.1 hfits.2
  | branchUnless label =>
    have hfits : next + 1 + size ≤ N := hfits
    rw [deliver, List.forall_mem_append, List.forall_mem_singleton]
    have hwindow : next + Condition.zero.arity ≤ N := by
      change next + 1 ≤ N
      omega
    exact ⟨h next (next + 1) (by omega) hfits, .branchIf .zero label hwindow⟩

lemma Expr.emitted_emitAll {es : List (Expr Nat)} {next label : Nat}
    (h : ∀ e ∈ es, ∀ purpose next label, purpose.Fits N next e.size →
      ∀ line ∈ e.emit config purpose next label, line.Emitted config.backend N S)
    (hnext : next + 1 + Expr.sizeAll es ≤ N) :
    ∀ line ∈ Expr.emitAll config es next label, line.Emitted config.backend N S := by
  induction es generalizing next label with
  | nil => simp [Expr.emitAll]
  | cons e es ih =>
    obtain ⟨he, hes⟩ := List.forall_mem_cons.mp h
    have := e.size_pos
    simp only [Expr.sizeAll] at hnext
    rw [Expr.emitAll, List.forall_mem_append]
    exact ⟨he (.value next) _ _ ⟨by omega, by omega⟩, ih hes (by omega)⟩

lemma Expr.forall_vars_of_mem {es : List (Expr Nat)} (h : ∀ n ∈ Expr.varsAll es, S n)
    {e : Expr Nat} (he : e ∈ es) : ∀ n ∈ e.vars, S n := by
  induction es with
  | nil => cases he
  | cons e' es ih =>
    rw [Expr.varsAll, List.forall_mem_append] at h
    rcases List.mem_cons.mp he with rfl | he
    · exact h.1
    · exact ih h.2 he

lemma Expr.emitted_emit (e : Expr Nat) (hw : e.WellApplied) (hS : ∀ n ∈ e.vars, S n)
    (purpose : Purpose) (next label : Nat) (hfits : purpose.Fits N next e.size) :
    ∀ line ∈ e.emit config purpose next label, line.Emitted config.backend N S := by
  have hnil : ∀ line ∈ ([] : List Line), line.Emitted config.backend N S := List.forall_mem_nil _
  induction e generalizing purpose next label with
  | literal v =>
    rw [Expr.emit]
    refine Purpose.emitted_deliver hfits fun l next hl _ => ?_
    exact List.forall_mem_singleton.mpr (.loadConstant v hl)
  | var n =>
    rw [Expr.emit]
    refine Purpose.emitted_deliver hfits fun l next hl _ => ?_
    exact List.forall_mem_singleton.mpr (.loadVariable (hS n List.mem_cons_self) hl)
  | ifElse c a b hc ha hb =>
    obtain ⟨hwc, hwa, hwb⟩ := hw
    simp only [Expr.vars, List.forall_mem_append] at hS
    obtain ⟨⟨hSc, hSa⟩, hSb⟩ := hS
    rw [Expr.emit]
    refine Purpose.emitted_deliver hfits fun l next hl hnext => ?_
    simp only [Expr.size] at hnext
    simp only [List.forall_mem_append, List.forall_mem_cons]
    refine ⟨⟨⟨⟨hc hwc hSc _ _ _ ?_, ha hwa hSa _ _ _ ⟨hl, by omega⟩⟩, .branch _, trivial, hnil⟩,
      hb hwb hSb _ _ _ ⟨hl, by omega⟩⟩, trivial, hnil⟩
    change next + 1 + c.size ≤ N
    omega
  | apply p es hes =>
    obtain ⟨hlength, hall⟩ := hw
    have hes' : ∀ e ∈ es, ∀ purpose next label, purpose.Fits N next e.size →
        ∀ line ∈ e.emit config purpose next label, line.Emitted config.backend N S :=
      fun e he => hes e he (hall.of_mem he) (Expr.forall_vars_of_mem hS he)
    have hle := Expr.length_le_sizeAll es
    rw [Expr.emit]
    cases hfold : purpose.folded? config p with
    | none =>
      refine Purpose.emitted_deliver hfits fun l next hl hnext => ?_
      simp only [Expr.size] at hnext
      rw [List.forall_mem_append, List.forall_mem_singleton, hlength]
      exact ⟨Expr.emitted_emitAll hes' (by omega), .apply p hl (by omega)⟩
    | some folded =>
      obtain ⟨rfl, q, hq, hc⟩ := Purpose.folded?_eq_some hfold
      have hfits : next + 1 + (1 + Expr.sizeAll es) ≤ N := hfits
      have harity : p.arity = folded.1.arity := by
        rw [← Primitive.arity_of_reverse? hq]
        exact Condition.arity_of_primitive? hc
      rw [List.forall_mem_append, List.forall_mem_singleton, hlength, harity]
      exact ⟨Expr.emitted_emitAll hes' (by omega), .branchIf folded.1 folded.2 (by omega)⟩
  | call f es hes =>
    have hes' : ∀ e ∈ es, ∀ purpose next label, purpose.Fits N next e.size →
        ∀ line ∈ e.emit config purpose next label, line.Emitted config.backend N S :=
      fun e he => hes e he (Expr.AllWellApplied.of_mem hw he) (Expr.forall_vars_of_mem hS he)
    have hle := Expr.length_le_sizeAll es
    rw [Expr.emit]
    refine Purpose.emitted_deliver hfits fun l next hl hnext => ?_
    simp only [Expr.size] at hnext
    rw [List.forall_mem_append, List.forall_mem_singleton]
    exact ⟨Expr.emitted_emitAll hes' (by omega), .call f hl (by omega)⟩

lemma Stmt.emitted_emit (st : Stmt Nat) (hw : st.WellApplied) (hS : ∀ n ∈ st.vars, S n)
    (hsize : st.size ≤ N) (label : Nat) :
    ∀ line ∈ st.emit config label, line.Emitted config.backend N S := by
  have hnil : ∀ line ∈ ([] : List Line), line.Emitted config.backend N S := List.forall_mem_nil _
  have hzero : 0 < N := st.size_pos.trans_le hsize
  have hvalue {e : Expr Nat} (hw : e.WellApplied) (hS : ∀ n ∈ e.vars, S n)
      (hsize : 1 + e.size ≤ N) (label : Nat) :
      ∀ line ∈ e.emit config (.value 0) 1 label, line.Emitted config.backend N S :=
    e.emitted_emit hw hS _ _ _ ⟨by omega, hsize⟩
  have hcond {e : Expr Nat} (hw : e.WellApplied) (hS : ∀ n ∈ e.vars, S n)
      (hsize : 1 + e.size ≤ N) (target : String) (label : Nat) :
      ∀ line ∈ e.emit config (.branchUnless target) 0 label, line.Emitted config.backend N S :=
    e.emitted_emit hw hS _ _ _ (by change 0 + 1 + e.size ≤ N; omega)
  induction st generalizing label with
  | skip => simp [Stmt.emit]
  | block n a ha =>
    obtain ⟨hn, hSa⟩ := List.forall_mem_cons.mp hS
    simp only [Stmt.size] at hsize
    simp only [Stmt.emit, List.forall_mem_append, List.forall_mem_cons]
    exact ⟨⟨.loadConstant 0 hzero, .storeVariable hzero hn, hnil⟩, ha hw hSa (by omega) label⟩
  | assign n e =>
    simp only [Stmt.vars, List.forall_mem_append, List.forall_mem_singleton] at hS
    simp only [Stmt.emit, List.forall_mem_append, List.forall_mem_singleton]
    exact ⟨hvalue hw hS.1 hsize label, .storeVariable hzero hS.2⟩
  | print e =>
    simp only [Stmt.emit, List.forall_mem_append, List.forall_mem_singleton]
    exact ⟨hvalue hw hS hsize label, .print hzero⟩
  | seq a b ha hb =>
    simp only [Stmt.vars, List.forall_mem_append] at hS
    simp only [Stmt.size] at hsize
    simp only [Stmt.emit, List.forall_mem_append]
    exact ⟨ha hw.1 hS.1 (by omega) _, hb hw.2 hS.2 (by omega) _⟩
  | ifElse c a b ha hb =>
    obtain ⟨hwc, hwa, hwb⟩ := hw
    simp only [Stmt.vars, List.forall_mem_append] at hS
    obtain ⟨⟨hSc, hSa⟩, hSb⟩ := hS
    simp only [Stmt.size] at hsize
    simp only [Stmt.emit, List.forall_mem_append, List.forall_mem_cons]
    exact ⟨⟨⟨⟨hcond hwc hSc (by omega) _ _, ha hwa hSa (by omega) _⟩, .branch _, trivial, hnil⟩,
      hb hwb hSb (by omega) _⟩, trivial, hnil⟩
  | ifThen c a ha =>
    simp only [Stmt.vars, List.forall_mem_append] at hS
    simp only [Stmt.size] at hsize
    simp only [Stmt.emit, List.forall_mem_append, List.forall_mem_singleton]
    exact ⟨⟨hcond hw.1 hS.1 (by omega) _ _, ha hw.2 hS.2 (by omega) _⟩, trivial⟩
  | whileDo c a ha =>
    simp only [Stmt.vars, List.forall_mem_append] at hS
    simp only [Stmt.size] at hsize
    simp only [Stmt.emit, List.forall_mem_append, List.forall_mem_cons]
    exact ⟨⟨⟨⟨trivial, hnil⟩, hcond hw.1 hS.1 (by omega) _ _⟩, ha hw.2 hS.2 (by omega) _⟩,
      .branch _, trivial, hnil⟩
  | repeatUntil a c ha =>
    simp only [Stmt.vars, List.forall_mem_append] at hS
    simp only [Stmt.size] at hsize
    simp only [Stmt.emit, List.forall_mem_append, List.forall_mem_singleton]
    exact ⟨⟨trivial, ha hw.1 hS.1 (by omega) _⟩, hcond hw.2 hS.2 (by omega) _ _⟩
  | ret e =>
    simp only [Stmt.emit, List.forall_mem_append, List.forall_mem_singleton]
    exact ⟨hvalue hw hS hsize label, .ret hzero⟩
  | call f es =>
    have hle := Expr.length_le_sizeAll es
    simp only [Stmt.size] at hsize
    simp only [Stmt.emit, List.forall_mem_append, List.forall_mem_singleton, List.forall_mem_map]
    refine ⟨⟨Expr.emitted_emitAll (fun e he => ?_) (by omega), .call f hzero (by omega)⟩,
      fun i hi => .discard hi⟩
    exact e.emitted_emit (Expr.AllWellApplied.of_mem hw he) (Expr.forall_vars_of_mem hS he)

/-- What a backend emits is well formed in itself, if it can be counted. -/
lemma Line.Emitted.wellFormed {b : Backend} {line : Line} (h : line.Emitted b N S)
    (hN : N < UInt64.size) (hS : ∀ n, S n → n + 1 < UInt64.size) : line.WellFormed := by
  have hrange {first n : Nat} (hwindow : first + n ≤ N) :
      ∀ m ∈ List.range' first n, m + 1 < UInt64.size := by
    intro m hm
    rw [List.mem_range'_1] at hm
    omega
  cases line with
  | label l => trivial
  | instr i =>
    cases h with
    | apply p hl hwindow =>
      change SymbolicInstr.WellFormed _
      unfold Backend.apply
      cases ho : Operation.ofPrimitive? p with
      | none =>
        cases b with
        | stack => exact ⟨trivial, List.forall_mem_nil _⟩
        | register => exact ⟨trivial, List.forall_mem_singleton.mpr (by omega)⟩
      | some o =>
        have harity : p.arity = o.arity := by cases p <;> cases ho <;> rfl
        cases b with
        | stack => exact ⟨trivial, List.forall_mem_nil _⟩
        | register =>
          refine ⟨List.length_range'.trans harity, List.forall_mem_append.mpr ⟨hrange hwindow, ?_⟩⟩
          exact List.forall_mem_singleton.mpr (by omega)
    | branchIf c label hwindow =>
      cases b with
      | stack => exact ⟨trivial, List.forall_mem_nil _⟩
      | register => exact ⟨List.length_range', hrange hwindow⟩
    | @call f first n l hl hwindow =>
      cases b with
      | stack => exact ⟨trivial, List.forall_mem_nil _⟩
      | register =>
        refine ⟨?_, List.forall_mem_singleton.mpr (by omega)⟩
        change (if n = 0 then l else first) + n < UInt64.size
        split <;> omega
    | discard hi =>
      cases b with
      | stack =>
        cases List.mem_singleton.mp hi
        exact ⟨trivial, List.forall_mem_nil _⟩
      | register => cases hi
    | loadConstant v hl | print hl | ret hl =>
      cases b with
      | stack => exact ⟨trivial, List.forall_mem_nil _⟩
      | register => exact ⟨trivial, List.forall_mem_singleton.mpr (by omega)⟩
    | loadVariable hn hl =>
      have hslot := hS _ hn
      cases b with
      | stack => exact ⟨trivial, List.forall_mem_singleton.mpr hslot⟩
      | register =>
        exact ⟨trivial, List.forall_mem_cons.mpr
          ⟨hslot, List.forall_mem_singleton.mpr (by omega)⟩⟩
    | storeVariable hl hn =>
      have hslot := hS _ hn
      cases b with
      | stack => exact ⟨trivial, List.forall_mem_singleton.mpr hslot⟩
      | register =>
        exact ⟨trivial, List.forall_mem_cons.mpr
          ⟨by omega, List.forall_mem_singleton.mpr hslot⟩⟩
    | branch label => exact ⟨trivial, List.forall_mem_nil _⟩

/-- The code of a statement has its outline and consists of what the backend emits. -/
structure EmittedFor (b : Backend) (N : Nat) (S : Nat → Prop) (st : Stmt Nat) (code : List Line) :
    Prop where
  outline_eq : outline code = st.marks 0
  lines : ∀ line ∈ code, line.Emitted b N S

lemma Stmt.emittedFor_emit {st : Stmt Nat} (hw : st.WellApplied) (hS : ∀ n ∈ st.vars, S n)
    (hsize : st.size ≤ N) : EmittedFor config.backend N S st (st.emit config 0) :=
  ⟨st.outline_emit 0, st.emitted_emit hw hS hsize 0⟩

lemma EmittedFor.withReturn {st : Stmt Nat} {code : List Line}
    (h : EmittedFor config.backend N S st code) (hzero : 0 < N) :
    EmittedFor config.backend N S st (withReturn config code) := by
  refine ⟨(outline_withReturn code).trans h.outline_eq, ?_⟩
  unfold Izmir.withReturn
  split
  · exact h.lines
  · simp only [List.forall_mem_append, List.forall_mem_cons]
    exact ⟨h.lines, .loadConstant 0 hzero, .ret hzero, List.forall_mem_nil _⟩

lemma EmittedFor.wellFormed {b : Backend} {st : Stmt Nat} {code : List Line}
    (h : EmittedFor b N S st code) (hN : N < UInt64.size) (hS : ∀ n, S n → n + 1 < UInt64.size) :
    ∀ line ∈ code, line.WellFormed :=
  fun line hline => (h.lines line hline).wellFormed hN hS

end

lemma Expr.sizeAll_listWithSlots {es : List (Expr String)} {s : Scope}
    (h : ∀ e ∈ es, ∀ s : Scope, (e.withSlots s).1.size = e.size) :
    Expr.sizeAll (Expr.listWithSlots es s).1 = Expr.sizeAll es := by
  induction es generalizing s with
  | nil => rfl
  | cons e es ih =>
    obtain ⟨he, hes⟩ := List.forall_mem_cons.mp h
    simp only [Expr.listWithSlots, Expr.sizeAll, he, ih hes]

lemma Expr.size_withSlots (e : Expr String) (s : Scope) : (e.withSlots s).1.size = e.size := by
  induction e generalizing s with
  | literal v => rfl
  | var x => rfl
  | ifElse c a b hc ha hb => simp only [Expr.withSlots, Expr.size, hc, ha, hb]
  | apply p es hes => simp only [Expr.withSlots, Expr.size, Expr.sizeAll_listWithSlots hes]
  | call f es hes => simp only [Expr.withSlots, Expr.size, Expr.sizeAll_listWithSlots hes]

lemma Stmt.size_withSlots (st : Stmt String) (s : Scope) : (st.withSlots s).1.size = st.size := by
  induction st generalizing s with
  | skip => rfl
  | block x a ha => simp only [Stmt.withSlots, Stmt.size, ha]
  | assign x e => simp only [Stmt.withSlots, Stmt.size, Expr.size_withSlots]
  | print e => simp only [Stmt.withSlots, Stmt.size, Expr.size_withSlots]
  | seq a b ha hb => simp only [Stmt.withSlots, Stmt.size, ha, hb]
  | ifElse c a b ha hb => simp only [Stmt.withSlots, Stmt.size, Expr.size_withSlots, ha, hb]
  | ifThen c a ha => simp only [Stmt.withSlots, Stmt.size, Expr.size_withSlots, ha]
  | whileDo c a ha => simp only [Stmt.withSlots, Stmt.size, Expr.size_withSlots, ha]
  | repeatUntil a c ha => simp only [Stmt.withSlots, Stmt.size, Expr.size_withSlots, ha]
  | ret e => simp only [Stmt.withSlots, Stmt.size, Expr.size_withSlots]
  | call f es =>
    simp only [Stmt.withSlots, Stmt.size]
    rw [Expr.sizeAll_listWithSlots fun e _ => e.size_withSlots]

end Izmir
