import Izmir.Program

/-!
# Slots

Every variable of a routine lives in a slot of its frame. Formals take the first slots, a
block takes a new slot on entry, and a name that is bound nowhere takes a new slot of the
routine where it first occurs, in the order of evaluation. No slot is used twice.
-/

namespace Izmir

structure Scope where
  /-- The blocks around the current position, the innermost first. -/
  blocks : List (String × Nat)
  /-- Formals and names bound on first use, the latest first. -/
  routine : List (String × Nat)
  /-- Number of slots in use. -/
  size : Nat

namespace Scope

def empty : Scope :=
  ⟨[], [], 0⟩

/-- Bind a name for the whole routine. -/
def bind (s : Scope) (x : String) : Scope :=
  { s with routine := (x, s.size) :: s.routine, size := s.size + 1 }

def ofFormals (formals : List String) : Scope :=
  formals.foldl bind empty

def find? (s : Scope) (x : String) : Option Nat :=
  (s.blocks ++ s.routine).lookup x

/-- The slot of a name, which is bound now if it was not. -/
def slot (s : Scope) (x : String) : Nat × Scope :=
  match s.find? x with
  | some n => (n, s)
  | none => (s.size, s.bind x)

/-- Enter a block, whose variable has the next slot. -/
def enter (s : Scope) (x : String) : Scope :=
  { s with blocks := (x, s.size) :: s.blocks, size := s.size + 1 }

/-- Leave the innermost block. -/
def leave (s : Scope) : Scope :=
  { s with blocks := s.blocks.tail }

end Scope

mutual

/-- The expression with slots for names, and the scope after it. -/
def Expr.withSlots : Expr String → Scope → Expr Nat × Scope
  | .literal v, s => (.literal v, s)
  | .var x, s =>
    let (n, s) := s.slot x
    (.var n, s)
  | .ifElse c a b, s =>
    let (c, s) := c.withSlots s
    let (a, s) := a.withSlots s
    let (b, s) := b.withSlots s
    (.ifElse c a b, s)
  | .apply p es, s =>
    let (es, s) := Expr.listWithSlots es s
    (.apply p es, s)
  | .call f es, s =>
    let (es, s) := Expr.listWithSlots es s
    (.call f es, s)

def Expr.listWithSlots : List (Expr String) → Scope → List (Expr Nat) × Scope
  | [], s => ([], s)
  | e :: es, s =>
    let (e, s) := e.withSlots s
    let (es, s) := Expr.listWithSlots es s
    (e :: es, s)

end

/-- The statement with slots for names, and the scope after it. An assignment evaluates
its expression first. -/
def Stmt.withSlots : Stmt String → Scope → Stmt Nat × Scope
  | .skip, s => (.skip, s)
  | .block x body, s =>
    let (body, t) := body.withSlots (s.enter x)
    (.block s.size body, t.leave)
  | .assign x e, s =>
    let (e, s) := e.withSlots s
    let (n, s) := s.slot x
    (.assign n e, s)
  | .print e, s =>
    let (e, s) := e.withSlots s
    (.print e, s)
  | .seq a b, s =>
    let (a, s) := a.withSlots s
    let (b, s) := b.withSlots s
    (.seq a b, s)
  | .ifElse c a b, s =>
    let (c, s) := c.withSlots s
    let (a, s) := a.withSlots s
    let (b, s) := b.withSlots s
    (.ifElse c a b, s)
  | .ifThen c a, s =>
    let (c, s) := c.withSlots s
    let (a, s) := a.withSlots s
    (.ifThen c a, s)
  | .whileDo c a, s =>
    let (c, s) := c.withSlots s
    let (a, s) := a.withSlots s
    (.whileDo c a, s)
  | .repeatUntil a c, s =>
    let (a, s) := a.withSlots s
    let (c, s) := c.withSlots s
    (.repeatUntil a c, s)
  | .ret e, s =>
    let (e, s) := e.withSlots s
    (.ret e, s)
  | .call f es, s =>
    let (es, s) := Expr.listWithSlots es s
    (.call f es, s)

end Izmir
