import Izmir.Proofs.Registers

/-!
# Taking and giving back locations

Emission names the first location that is free by a number that it hands down the tree. The same
code comes out if every location is taken from an allocator when it is needed and given back when
its value has been used, and then every location that is given back is the one that was taken
last. Taken together with what the code does to registers: no two values that are needed at the
same time share a register.
-/

namespace Izmir

/-- The locations in use, the latest one first, and the first one that is free. -/
structure Allocator where
  next : Nat
  live : List Nat
  /-- Each location in use lies above those taken before it and below the free ones. -/
  descending : (next :: live).Pairwise (· > ·)

namespace Allocator

/-- No location is in use. -/
def empty : Allocator :=
  ⟨0, [], List.pairwise_singleton _ _⟩

/-- The first free location comes into use. -/
def push (s : Allocator) : Allocator where
  next := s.next + 1
  live := s.next :: s.live
  descending := by
    refine List.pairwise_cons.mpr ⟨fun r hr => ?_, s.descending⟩
    rcases List.mem_cons.mp hr with rfl | hr
    · exact Nat.lt_succ_self _
    · exact (List.rel_of_pairwise_cons s.descending hr).trans (Nat.lt_succ_self _)

@[simp] lemma push_next (s : Allocator) : s.push.next = s.next + 1 := rfl

def pushMany : Nat → Allocator → Allocator
  | 0, s => s
  | n + 1, s => pushMany n s.push

end Allocator

/-- Computations that take and give back locations. They fail if a location is given back that is
not the one taken last. -/
abbrev Allocating := StateT Allocator Option

namespace Allocating

def allocate : Allocating Nat :=
  fun s => some (s.next, s.push)

def release (location : Nat) : Allocating Unit
  | ⟨_, [], _⟩ => none
  | ⟨next, latest :: live, h⟩ =>
    if location = latest ∧ location + 1 = next then some ((), ⟨latest, live, h.of_cons⟩) else none

/-- Give back locations, the last one first. -/
def releaseAll : List Nat → Allocating Unit
  | [] => pure ()
  | location :: locations => do
    releaseAll locations
    release location

/-- Have a location for the time of a computation. -/
def withLocation {α : Type} (m : Nat → Allocating α) : Allocating α := do
  let location ← allocate
  let a ← m location
  release location
  pure a

/-- Let an instruction use operands, and give their locations back. -/
def consume (operands : Allocating (List Line × List Nat)) (i : List Nat → SymbolicInstr) :
    Allocating (List Line) := do
  let operands ← operands
  releaseAll operands.2
  pure (operands.1 ++ [.instr (i operands.2)])

variable {α β : Type} {s t : Allocator}

lemma bind_eq {m : Allocating α} {f : α → Allocating β} {a : α} (h : m s = some (a, t)) :
    (m >>= f) s = f a t := by
  change (m s).bind (fun p => f p.1 p.2) = f a t
  rw [h]
  rfl

@[simp] lemma pure_eq (a : α) : (pure a : Allocating α) s = some (a, s) := rfl

lemma release_push : release s.next s.push = some ((), s) := if_pos ⟨rfl, rfl⟩

lemma releaseAll_pushMany (n : Nat) (s : Allocator) :
    releaseAll (List.range' s.next n) (s.pushMany n) = some ((), s) := by
  induction n generalizing s with
  | zero => rfl
  | succ n ih =>
    rw [List.range'_succ, releaseAll, Allocator.pushMany, ← s.push_next, bind_eq (ih s.push)]
    exact release_push

lemma withLocation_eq {m : Nat → Allocating α} {a : α} (h : m s.next s.push = some (a, s.push)) :
    withLocation m s = some (a, s) := by
  rw [withLocation, bind_eq (rfl : allocate s = some (s.next, s.push)), bind_eq h,
    bind_eq release_push, pure_eq]

lemma consume_eq {operands : Allocating (List Line × List Nat)} {i : List Nat → SymbolicInstr}
    {code : List Line} {n : Nat}
    (h : operands s = some ((code, List.range' s.next n), s.pushMany n)) :
    consume operands i s = some (code ++ [.instr (i (List.range' s.next n))], s) := by
  rw [consume, bind_eq h, bind_eq (releaseAll_pushMany n s), pure_eq]

end Allocating

open Allocating

/-! ### Emission with an allocator -/

/-- Code for a purpose, given how the value gets into a location. -/
def Purpose.deliverM (config : Config) (value : Nat → Allocating (List Line)) :
    Purpose → Allocating (List Line)
  | .value location => value location
  | .branchUnless label =>
    withLocation fun location => do
      let code ← value location
      pure (code ++ [.instr (config.backend.branchIf .zero [location] label)])

/-- A call with its arguments in some locations. -/
def Backend.callWith (b : Backend) (callee : String) (arguments : List Nat) (location : Nat) :
    SymbolicInstr :=
  b.call callee (arguments.headD location) arguments.length location

mutual

def Expr.emitM (config : Config) : Expr Nat → Purpose → (label : Nat) → Allocating (List Line)
  | .literal v, purpose, _ =>
    purpose.deliverM config fun location => pure [.instr (config.backend.loadConstant v location)]
  | .var n, purpose, _ =>
    purpose.deliverM config fun location => pure [.instr (config.backend.loadVariable n location)]
  | .ifElse c a b, purpose, label =>
    purpose.deliverM config fun location => do
      let otherwise := numberedLabel "else" label
      let done := numberedLabel "end" (label + 1)
      let label := label + 2
      let cond ← c.emitM config (.branchUnless otherwise) label
      let first ← a.emitM config (.value location) (label + c.labelCount)
      let second ← b.emitM config (.value location) (label + c.labelCount + a.labelCount)
      pure (cond ++ first ++ [.instr (.branch done), .label otherwise] ++ second ++ [.label done])
  | .apply p es, purpose, label =>
    match purpose.folded? config p with
    | some (c, target) =>
      consume (Expr.emitAllM config es label) fun locations =>
        config.backend.branchIf c locations target
    | none =>
      purpose.deliverM config fun location =>
        consume (Expr.emitAllM config es label) fun locations =>
          config.backend.apply p locations location
  | .call f es, purpose, label =>
    purpose.deliverM config fun location =>
      consume (Expr.emitAllM config es label) fun locations =>
        config.backend.callWith f locations location

/-- Operands from left to right, each in a location that is taken for it. The locations stay in
use. -/
def Expr.emitAllM (config : Config) :
    List (Expr Nat) → (label : Nat) → Allocating (List Line × List Nat)
  | [], _ => pure ([], [])
  | e :: es, label => do
    let location ← allocate
    let code ← e.emitM config (.value location) label
    let rest ← Expr.emitAllM config es (label + e.labelCount)
    pure (code ++ rest.1, location :: rest.2)

end

/-- Use the value of an expression in a location of its own. -/
def Expr.consumeM (config : Config) (e : Expr Nat) (label : Nat) (i : Nat → SymbolicInstr) :
    Allocating (List Line) :=
  withLocation fun location => do
    let code ← e.emitM config (.value location) label
    pure (code ++ [.instr (i location)])

def Stmt.emitM (config : Config) : Stmt Nat → (label : Nat) → Allocating (List Line)
  | .skip, _ => pure []
  | .block n a, label => do
    let start ← withLocation fun location =>
      pure [.instr (config.backend.loadConstant 0 location),
        .instr (config.backend.storeVariable location n)]
    let body ← a.emitM config label
    pure (start ++ body)
  | .assign n e, label => e.consumeM config label fun location =>
      config.backend.storeVariable location n
  | .print e, label => e.consumeM config label fun location => config.backend.print location
  | .seq a b, label => do
    let first ← a.emitM config label
    let second ← b.emitM config (label + a.labelCount)
    pure (first ++ second)
  | .ifElse c a b, label => do
    let otherwise := numberedLabel "else" label
    let done := numberedLabel "end" (label + 1)
    let label := label + 2
    let cond ← c.emitM config (.branchUnless otherwise) label
    let first ← a.emitM config (label + c.labelCount)
    let second ← b.emitM config (label + c.labelCount + a.labelCount)
    pure (cond ++ first ++ [.instr (.branch done), .label otherwise] ++ second ++ [.label done])
  | .ifThen c a, label => do
    let done := numberedLabel "end" label
    let label := label + 1
    let cond ← c.emitM config (.branchUnless done) label
    let body ← a.emitM config (label + c.labelCount)
    pure (cond ++ body ++ [.label done])
  | .whileDo c a, label => do
    let again := numberedLabel "while" label
    let done := numberedLabel "done" (label + 1)
    let label := label + 2
    let cond ← c.emitM config (.branchUnless done) label
    let body ← a.emitM config (label + c.labelCount)
    pure ([.label again] ++ cond ++ body ++ [.instr (.branch again), .label done])
  | .repeatUntil a c, label => do
    let again := numberedLabel "repeat" label
    let label := label + 1
    let body ← a.emitM config label
    let cond ← c.emitM config (.branchUnless again) (label + a.labelCount)
    pure ([.label again] ++ body ++ cond)
  | .ret e, label => e.consumeM config label fun location => config.backend.ret location
  | .call f es, label =>
    withLocation fun location => do
      let code ← consume (Expr.emitAllM config es label) fun locations =>
        config.backend.callWith f locations location
      pure (code ++ config.backend.discard.map .instr)

/-- Falling off the end of a procedure returns zero. -/
def withReturnM (config : Config) (code : List Line) : Allocating (List Line) :=
  if Assembly.endsInReturn code then pure code
  else
    withLocation fun location =>
      pure (code ++
        [.instr (config.backend.loadConstant 0 location), .instr (config.backend.ret location)])

def Procedure.codeM (config : Config) (p : Procedure) : Allocating (List Line) := do
  let code ← (p.body.withSlots (.ofFormals p.formals)).1.emitM config 0
  withReturnM config code

section

variable {config : Config} {s : Allocator}

lemma Purpose.deliverM_eq {purpose : Purpose} {m : Nat → Allocating (List Line)}
    {value : Nat → Nat → List Line}
    (h : ∀ location s, m location s = some (value location s.next, s)) :
    purpose.deliverM config m s = some (purpose.deliver config s.next value, s) := by
  cases purpose with
  | value l => exact h l s
  | branchUnless label =>
    refine withLocation_eq ?_
    rw [bind_eq (h s.next s.push), pure_eq, s.push_next, deliver]

lemma Backend.callWith_range' {b : Backend} {f : String} {first n l : Nat} :
    b.callWith f (List.range' first n) l = b.call f first n l := by
  rw [callWith, List.length_range']
  cases n with
  | zero => cases b <;> rfl
  | succ n => rw [List.range'_succ, List.headD_cons]

lemma Expr.emitAllM_eq {es : List (Expr Nat)}
    (h : ∀ e ∈ es, ∀ purpose label (s : Allocator),
      e.emitM config purpose label s = some (e.emit config purpose s.next label, s))
    (label : Nat) (s : Allocator) :
    Expr.emitAllM config es label s =
      some ((Expr.emitAll config es s.next label, List.range' s.next es.length),
        s.pushMany es.length) := by
  induction es generalizing label s with
  | nil => rfl
  | cons e es ih =>
    obtain ⟨he, hes⟩ := List.forall_mem_cons.mp h
    rw [Expr.emitAllM, bind_eq (rfl : allocate s = some (s.next, s.push)), bind_eq (he _ _ s.push),
      bind_eq (ih hes _ s.push), pure_eq]
    rfl

/-- The code of an expression is what its location in the tree says, and all locations that were
taken for it have been given back in turn. -/
lemma Expr.emitM_eq (e : Expr Nat) (purpose : Purpose) (label : Nat) (s : Allocator) :
    e.emitM config purpose label s = some (e.emit config purpose s.next label, s) := by
  induction e generalizing purpose label s with
  | literal v =>
    rw [Expr.emitM, Expr.emit]
    exact Purpose.deliverM_eq fun location s => rfl
  | var n =>
    rw [Expr.emitM, Expr.emit]
    exact Purpose.deliverM_eq fun location s => rfl
  | ifElse c a b hc ha hb =>
    rw [Expr.emitM, Expr.emit]
    refine Purpose.deliverM_eq fun location s => ?_
    rw [bind_eq (hc _ _ s), bind_eq (ha _ _ s), bind_eq (hb _ _ s), pure_eq]
  | apply p es hes =>
    rw [Expr.emitM, Expr.emit]
    cases purpose.folded? config p with
    | none => exact Purpose.deliverM_eq fun location s => consume_eq (Expr.emitAllM_eq hes label s)
    | some folded => exact consume_eq (Expr.emitAllM_eq hes label s)
  | call f es hes =>
    rw [Expr.emitM, Expr.emit]
    refine Purpose.deliverM_eq fun location s => ?_
    rw [consume_eq (Expr.emitAllM_eq hes label s), Backend.callWith_range']

lemma Expr.consumeM_eq {e : Expr Nat} {label : Nat} {i : Nat → SymbolicInstr} :
    e.consumeM config label i .empty =
      some (e.emit config (.value 0) 1 label ++ [.instr (i 0)], .empty) := by
  refine withLocation_eq ?_
  rw [bind_eq (e.emitM_eq _ _ _), pure_eq]
  rfl

/-- No location is in use after a statement if none was before it. -/
lemma Stmt.emitM_eq (st : Stmt Nat) (label : Nat) :
    st.emitM config label .empty = some (st.emit config label, .empty) := by
  induction st generalizing label with
  | skip => rfl
  | block n a ha =>
    rw [Stmt.emitM, bind_eq (withLocation_eq rfl), bind_eq (ha label), pure_eq]
    rfl
  | assign n e => exact Expr.consumeM_eq
  | print e => exact Expr.consumeM_eq
  | seq a b ha hb => rw [Stmt.emitM, bind_eq (ha _), bind_eq (hb _), pure_eq, Stmt.emit]
  | ifElse c a b ha hb =>
    rw [Stmt.emitM, bind_eq (c.emitM_eq _ _ _), bind_eq (ha _), bind_eq (hb _), pure_eq]
    rfl
  | ifThen c a ha =>
    rw [Stmt.emitM, bind_eq (c.emitM_eq _ _ _), bind_eq (ha _), pure_eq]
    rfl
  | whileDo c a ha =>
    rw [Stmt.emitM, bind_eq (c.emitM_eq _ _ _), bind_eq (ha _), pure_eq]
    rfl
  | repeatUntil a c ha =>
    rw [Stmt.emitM, bind_eq (ha _), bind_eq (c.emitM_eq _ _ _), pure_eq]
    rfl
  | ret e => exact Expr.consumeM_eq
  | call f es =>
    rw [Stmt.emitM, Stmt.emit]
    refine withLocation_eq ?_
    rw [bind_eq (consume_eq (Expr.emitAllM_eq (fun e _ => e.emitM_eq) _ _)), pure_eq,
      Backend.callWith_range']
    rfl

lemma withReturnM_eq (code : List Line) :
    withReturnM config code .empty = some (withReturn config code, .empty) := by
  unfold withReturnM withReturn
  split
  · rfl
  · exact withLocation_eq rfl

lemma Procedure.codeM_eq (p : Procedure) :
    p.codeM config .empty = some ((p.compile config).code, .empty) := by
  rw [Procedure.codeM, bind_eq (Stmt.emitM_eq _ _), withReturnM_eq]
  rfl

end

/-- Registers never alias. The code of an expression has the registers that are free for itself,
and of the others it touches only its target; it reads what it has written before, whatever way
control takes, and passes arguments in order. No register is ever given back that is not the one
taken last, so that what was in use before is in use after, also by statements and by the return at
the end of a procedure. -/
theorem registers_never_alias (folding : Bool) :
    (∀ (e : Expr Nat) (target label : Nat) (s : Allocator),
      let code := e.emit ⟨.register, folding⟩ (.value target) s.next label
      e.emitM ⟨.register, folding⟩ (.value target) label s = some (code, s) ∧
        e.ComputedBy folding target s.next code) ∧
      (∀ (st : Stmt Nat) (label : Nat),
        st.emitM ⟨.register, folding⟩ label .empty =
          some (st.emit ⟨.register, folding⟩ label, .empty)) ∧
      ∀ p : Procedure,
        p.codeM ⟨.register, folding⟩ .empty =
          some ((p.compile ⟨.register, folding⟩).code, .empty) := by
  refine ⟨fun e target label s => ⟨?_, ?_⟩, fun st label => ?_, fun p => ?_⟩
  · exact e.emitM_eq (.value target) label s
  · exact e.computedBy_emit folding target s.next label
  · exact st.emitM_eq label
  · exact p.codeM_eq

end Izmir
