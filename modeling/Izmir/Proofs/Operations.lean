import Izmir.Proofs.Semantics

/-!
# Primitives, operations and conditions

What a primitive computes on the integers is what the operation of the machine computes on
words, and a condition that a comparison is folded into holds exactly when the comparison
does not.
-/

namespace Izmir

namespace Value

lemma toInt_inj {a b : Value} : a.toInt = b.toInt ↔ a = b :=
  Int64.toInt_inj

lemma toInt_eq_zero {a : Value} : a.toInt = 0 ↔ a = 0 :=
  toInt_inj (b := 0)

lemma wrap_add (a b : Value) : wrap (a.toInt + b.toInt) = a + b := by
  rw [wrap, Int64.ofInt_add, Int64.ofInt_toInt, Int64.ofInt_toInt]

lemma wrap_sub (a b : Value) : wrap (a.toInt - b.toInt) = a - b := by
  rw [wrap, Int64.ofInt_sub, Int64.ofInt_toInt, Int64.ofInt_toInt]

lemma wrap_mul (a b : Value) : wrap (a.toInt * b.toInt) = a * b := by
  rw [wrap, Int64.ofInt_mul, Int64.ofInt_toInt, Int64.ofInt_toInt]

lemma wrap_neg (a : Value) : wrap (-a.toInt) = -a := by
  rw [wrap, Int64.ofInt_neg, Int64.ofInt_toInt]

lemma wrap_tdiv (a b : Value) : wrap (a.toInt.tdiv b.toInt) = a / b := by
  refine Int64.toInt_inj.mp ?_
  rw [wrap, Int64.toInt_ofInt, Int64.toInt_div]

lemma wrap_tmod (a b : Value) : wrap (a.toInt.tmod b.toInt) = a % b := by
  rw [wrap, ← Int64.toInt_mod, Int64.ofInt_toInt]

@[simp] lemma ofBool_eq_zero {b : Bool} : ofBool b = 0 ↔ b = false := by
  cases b <;> decide

end Value

/-- What an operation computes in a routine. -/
def Operation.compute (routine : String) (o : Operation) (vs : List Value) : Action Value :=
  match o.apply vs with
  | .ok v => pure v
  | .error .divisionByZero => .fail (.divisionByZero routine)
  | .error .operandCount => .stuck

/-- Operations compute with words what primitives compute with integers. -/
lemma Primitive.compute_eq_operation {routine : String} {p : Primitive} {o : Operation}
    {vs : List Value} (ho : Operation.ofPrimitive? p = some o) :
    p.compute routine vs = o.compute routine vs := by
  -- By the number of operands: none, one, two, or more than any primitive takes.
  rcases vs with _ | ⟨a, _ | ⟨b, _ | ⟨c, vs⟩⟩⟩
  · cases p <;> cases ho <;> rfl
  · cases p <;> cases ho <;>
      simp only [Primitive.compute, Operation.compute, Operation.apply, Value.toInt_eq_zero,
        Value.wrap_neg, ne_eq, decide_not] <;> rfl
  · cases p <;> cases ho <;>
      simp only [Primitive.compute, Operation.compute, Operation.apply, Value.toInt_eq_zero,
        Value.toInt_inj, Value.wrap_add, Value.wrap_sub, Value.wrap_mul, Value.wrap_tdiv,
        Value.wrap_tmod, Int64.lt_iff_toInt_lt, Int64.le_iff_toInt_le, ne_eq, decide_not] <;>
      (try split) <;> rfl
  · cases p <;> cases ho <;> rfl

/-- The condition that a comparison is folded into holds when the comparison is false. -/
lemma Condition.holds?_of_reverse (routine : String) {p q : Primitive} {c : Condition}
    {vs : List Value} (hq : p.reverse? = some q) (hc : ofPrimitive? q = some c)
    (hlen : vs.length = p.arity) :
    ∃ v, p.compute routine vs = pure v ∧ c.holds? vs = some (decide (v = 0)) := by
  rcases vs with _ | ⟨a, _ | ⟨b, _ | ⟨_, _⟩⟩⟩
  · cases p <;> cases hq <;> cases hlen
  · cases p <;> cases hq <;> cases hlen <;> cases hc <;> refine ⟨_, rfl, ?_⟩ <;>
      simp [holds?, Value.toInt_eq_zero] <;> rfl
  · cases p <;> cases hq <;> cases hlen <;> cases hc <;> refine ⟨_, rfl, ?_⟩ <;>
      simp [holds?, Value.toInt_inj, Int64.lt_iff_toInt_lt, Int64.le_iff_toInt_le] <;> rfl
  · cases p <;> cases hq <;> cases hlen

lemma Condition.length_of_holds? {c : Condition} {vs : List Value} {taken : Bool}
    (h : c.holds? vs = some taken) : vs.length = c.arity := by
  rcases vs with _ | ⟨a, _ | ⟨b, _ | ⟨_, _⟩⟩⟩ <;> cases c <;> first | rfl | cases h

end Izmir
