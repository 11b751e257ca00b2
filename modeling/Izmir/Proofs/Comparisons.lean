import Izmir.Proofs.Operations
import Izmir.Proofs.Runs

/-!
# The algebra of comparisons

A comparison is known in several tables: it has a reverse, an operation that computes its truth
value, and a condition that a branch can test. On operands of the right number these agree: the
operation gives one where the condition holds and zero where it does not, and the condition of the
reverse holds exactly where that of the comparison does not. So the machine does the same when it
branches on the condition of the reverse and when it computes the value first and then branches
on zero.
-/

namespace Izmir

/-! ### One truth value -/

lemma Primitive.exists_reverse {p : Primitive} (h : p.isComparison = true) :
    ∃ q, p.reverse? = some q ∧ q.reverse? = some p ∧ q.arity = p.arity := by
  cases p <;> first | exact ⟨_, rfl, rfl, rfl⟩ | cases h

/-- A comparison has a condition and an operation, which take the operands of the comparison. -/
lemma Primitive.exists_condition {p : Primitive} (h : p.isComparison = true) :
    ∃ c o, Condition.ofPrimitive? p = some c ∧ Operation.ofPrimitive? p = some o ∧
      c.arity = p.arity ∧ o.arity = p.arity := by
  cases p <;> first | exact ⟨_, _, rfl, rfl, rfl, rfl⟩ | cases h

/-- The operation of a comparison computes whether its condition holds. -/
lemma Condition.exists_holds?_eq {p : Primitive} {c : Condition} {o : Operation} {vs : List Value}
    (hc : ofPrimitive? p = some c) (ho : Operation.ofPrimitive? p = some o)
    (hlen : vs.length = p.arity) :
    ∃ b, c.holds? vs = some b ∧ o.apply vs = .ok (.ofBool b) := by
  rcases vs with _ | ⟨a, _ | ⟨b, _ | ⟨_, _⟩⟩⟩ <;> cases p <;> cases hc <;> cases hlen <;>
    cases ho <;> exact ⟨_, rfl, rfl⟩

lemma Value.decide_le_eq_not_lt (a b : Value) : decide (a ≤ b) = !decide (b < a) := by
  rw [← decide_not, decide_eq_decide]
  exact Int64.not_lt.symm

/-- The condition of the reverse holds where that of the comparison does not. -/
lemma Condition.holds?_reverse {p q : Primitive} {c d : Condition} {vs : List Value} {b : Bool}
    (hq : p.reverse? = some q) (hc : ofPrimitive? p = some c) (hd : ofPrimitive? q = some d)
    (h : c.holds? vs = some b) : d.holds? vs = some (!b) := by
  -- By the number of operands: none, one, two, or more than any condition takes.
  rcases vs with _ | ⟨v, _ | ⟨w, _ | ⟨_, _⟩⟩⟩
  · cases p <;> cases hc <;> cases h
  · cases p <;> cases hq <;> cases hc <;> cases hd <;> cases h <;> simp [holds?, bne]
  · cases p <;> cases hq <;> cases hc <;> cases hd <;> cases h <;>
      simp [holds?, bne, Value.decide_le_eq_not_lt]
  · cases p <;> cases hc <;> cases h

lemma Condition.holds?_zero_ofBool (b : Bool) : zero.holds? [.ofBool b] = some (!b) := by
  cases b <;> rfl

/-! ### One branch instead of two instructions -/

namespace Machine.State

variable {x : Executable} {sink : Sink} {routine : String} {s : State} {o : Operation}
  {c d : Condition} {vs rest : List Value} {v : Value} {target : Nat} {taken : Bool}

lemma branchIf_eq (s : State) (target : Nat) (h : c.holds? vs = some taken) :
    s.branchIf c vs target = .running (if taken then s.goTo target else s) := by
  unfold branchIf
  rw [h]
  cases taken <;> rfl

lemma execute_operate (hs : s.stack = vs.reverse ++ rest) (hvs : vs.length = o.arity)
    (h : o.apply vs = .ok v) :
    s.execute x sink routine (.operate o) = .running { s with stack := v :: rest } := by
  rw [execute, popMany_eq hs hvs, apply, h]
  rfl

lemma execute_branchIf (hs : s.stack = vs.reverse ++ rest) (h : c.holds? vs = some taken) :
    s.execute x sink routine (.branchIf c target) =
      .running
        (if taken then { s with stack := rest }.goTo target else { s with stack := rest }) := by
  rw [execute, popMany_eq hs (Condition.length_of_holds? h), branchIf_eq _ _ h]

/-- On the stack, computing a value and branching on zero does what a branch does on a condition
that holds where the value is zero. -/
lemma execute_fold_stack (hs : s.stack = vs.reverse ++ rest) (hvs : vs.length = o.arity)
    (ho : o.apply vs = .ok v) (hd : d.holds? vs = some taken)
    (hzero : Condition.zero.holds? [v] = some taken) :
    ∃ t, s.execute x sink routine (.operate o) = .running t ∧
      t.execute x sink routine (.branchIf .zero target) =
        s.execute x sink routine (.branchIf d target) := by
  refine ⟨_, execute_operate hs hvs ho, ?_⟩
  have hpushed : ({ s with stack := v :: rest } : State).stack = [v].reverse ++ rest := rfl
  rw [execute_branchIf hpushed hzero, execute_branchIf hs hd]

/-- With registers it does so too, and leaves the value in its register besides. -/
lemma execute_fold_registers {rs : List Nat} {r : Nat}
    (hrs : List.Forall₂ (fun r v => s.frame.registers[r]? = some v) rs vs)
    (hr : r < s.frame.registers.size) (ho : o.apply vs = .ok v) (hd : d.holds? vs = some taken)
    (hzero : Condition.zero.holds? [v] = some taken) :
    ∃ t, s.execute x sink routine (.operateRegisters o rs r) = .running t ∧
      s.setRegister r v = .running t ∧
      t.execute x sink routine (.branchIfRegisters .zero [r] target) =
        .running (if taken then t.goTo target else t) ∧
      s.execute x sink routine (.branchIfRegisters d rs target) =
        .running (if taken then s.goTo target else s) := by
  refine ⟨_, ?_, setRegister_eq hr, ?_, ?_⟩
  · rw [execute, registers_eq hrs, apply, ho]
    exact setRegister_eq hr
  · have hset :
        List.Forall₂ (fun k w => (s.frame.registers.setIfInBounds r v)[k]? = some w) [r] [v] :=
      .cons (Array.getElem?_setIfInBounds_self_of_lt hr) .nil
    rw [execute, registers_eq hset, branchIf_eq _ _ hzero]
  · rw [execute, registers_eq hrs, branchIf_eq _ _ hd]

end Machine.State

open Machine

/-- A comparison, its reverse, its operation and the conditions of the two belong together. -/
structure Primitive.Consistent (p q : Primitive) (o : Operation) (c d : Condition) : Prop where
  arities : q.arity = p.arity ∧ o.arity = p.arity ∧ c.arity = p.arity ∧ d.arity = p.arity
  /-- On all operands there is one truth value. It is that of the comparison of integers, the
  operation computes it as one or zero, the condition holds if it is true, and the condition of
  the reverse holds if it is not. -/
  truth : ∀ vs : List Value, vs.length = p.arity → ∃ b : Bool,
    (∀ routine, p.compute routine vs = pure (if b then 1 else 0)) ∧
      o.apply vs = .ok (if b then 1 else 0) ∧ c.holds? vs = some b ∧ d.holds? vs = some (!b)
  /-- With the operands on the stack, the operation and a branch on zero after it end where a
  branch on the condition of the reverse ends. -/
  stack : ∀ (x : Executable) (sink : Sink) (routine : String) (s : State) (vs rest : List Value)
    (target : Nat), vs.length = p.arity → s.stack = vs.reverse ++ rest →
      ∃ t, s.execute x sink routine (.operate o) = .running t ∧
        t.execute x sink routine (.branchIf .zero target) =
          s.execute x sink routine (.branchIf d target)
  /-- With the operands in registers and a register for the value, both branches are taken or
  neither is, and only this register differs. -/
  registers : ∀ (x : Executable) (sink : Sink) (routine : String) (s : State) (rs : List Nat)
    (vs : List Value) (r target : Nat), vs.length = p.arity →
      List.Forall₂ (fun r v => s.frame.registers[r]? = some v) rs vs →
      r < s.frame.registers.size →
      ∃ (v : Value) (t : State) (taken : Bool),
        s.execute x sink routine (.operateRegisters o rs r) = .running t ∧
        s.setRegister r v = .running t ∧
        t.execute x sink routine (.branchIfRegisters .zero [r] target) =
          .running (if taken then t.goTo target else t) ∧
        s.execute x sink routine (.branchIfRegisters d rs target) =
          .running (if taken then s.goTo target else s)

namespace Primitive

/-- The tables of comparisons are consistent: every comparison has a reverse, an operation and a
condition, and its reverse has one too; these take the same number of operands and agree on all
operands of that number. So a branch on the condition of the reverse does what computing the
comparison and branching on zero does. -/
theorem comparison_consistent {p : Primitive} (hp : p.isComparison = true) :
    ∃ (q : Primitive) (o : Operation) (c d : Condition),
      p.reverse = .ok q ∧ q.isComparison = true ∧ Operation.ofPrimitive? p = some o ∧
        Condition.ofComparison p = .ok c ∧ Condition.ofComparison q = .ok d ∧
        p.Consistent q o c d := by
  obtain ⟨q, hq, hqp, hqarity⟩ := exists_reverse hp
  have hqcomparison : q.isComparison = true := by simp [isComparison, hqp]
  obtain ⟨c, o, hc, ho, hcarity, hoarity⟩ := exists_condition hp
  obtain ⟨d, -, hd, -, hdarity, -⟩ := exists_condition hqcomparison
  have htruth (vs : List Value) (hvs : vs.length = p.arity) : ∃ b : Bool,
      o.apply vs = .ok (.ofBool b) ∧ c.holds? vs = some b ∧ d.holds? vs = some (!b) := by
    obtain ⟨b, hholds, happly⟩ := Condition.exists_holds?_eq hc ho hvs
    exact ⟨b, happly, hholds, Condition.holds?_reverse hq hc hd hholds⟩
  refine ⟨q, o, c, d, by simp [reverse, hq], hqcomparison, ho, by simp [Condition.ofComparison, hc],
    by simp [Condition.ofComparison, hd], ⟨hqarity, hoarity, hcarity, hdarity.trans hqarity⟩,
    fun vs hvs => ?_, fun x sink routine s vs rest target hvs hs => ?_,
    fun x sink routine s rs vs r target hvs hrs hr => ?_⟩
  · obtain ⟨b, happly, hholds, hreversed⟩ := htruth vs hvs
    refine ⟨b, fun routine => ?_, happly, hholds, hreversed⟩
    rw [compute_eq_operation ho, Operation.compute, happly]
    rfl
  · obtain ⟨b, happly, -, hreversed⟩ := htruth vs hvs
    exact State.execute_fold_stack hs (hvs.trans hoarity.symm) happly hreversed
      (Condition.holds?_zero_ofBool b)
  · obtain ⟨b, happly, -, hreversed⟩ := htruth vs hvs
    obtain ⟨t, ht⟩ := State.execute_fold_registers hrs hr happly hreversed
      (Condition.holds?_zero_ofBool b)
    exact ⟨_, t, _, ht⟩

/-- The least value is less than one although their difference wraps around to a positive one. -/
theorem less_consistent :
    isComparison .less = true ∧ Consistent .less .greaterOrEqual .less .less .greaterOrEqual ∧
      Operation.less.apply [Int64.minValue, 1] = .ok 1 ∧
      Operation.minus.apply [Int64.minValue, 1] = .ok Int64.maxValue ∧
      Condition.greaterOrEqual.holds? [Int64.minValue, 1] = some false := by
  obtain ⟨q, o, c, d, hq, -, ho, hc, hd, h⟩ := comparison_consistent (p := .less) rfl
  cases hq
  cases ho
  cases hc
  cases hd
  exact ⟨rfl, h, by decide, by decide, by decide⟩

end Primitive

end Izmir
