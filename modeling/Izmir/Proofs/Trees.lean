import Mathlib
import Izmir.Compile

/-!
# Trees

Induction on expressions, whose operands come in lists, and the trees that the compiler
accepts: those in which every primitive has as many operands as it takes. Folding changes the
primitive that an error names, and never whether there is one.
-/

namespace Izmir

/-- Induction on an expression: in the case of operands or actuals, what is to be shown holds
of each of them. -/
@[elab_as_elim, induction_eliminator]
theorem Expr.inductionOn {ν : Type} {motive : Expr ν → Prop}
    (literal : ∀ v, motive (.literal v)) (var : ∀ x, motive (.var x))
    (ifElse : ∀ c a b, motive c → motive a → motive b → motive (.ifElse c a b))
    (apply : ∀ p es, (∀ e ∈ es, motive e) → motive (.apply p es))
    (call : ∀ f es, (∀ e ∈ es, motive e) → motive (.call f es)) (e : Expr ν) : motive e := by
  refine @Expr.rec ν motive (fun es => ∀ e ∈ es, motive e) literal var ifElse apply call ?_ ?_ e
  · intro e he
    cases he
  · intro e es he hes e' he'
    rcases List.mem_cons.mp he' with rfl | he'
    · exact he
    · exact hes e' he'

mutual

/-- Every primitive has as many operands as it takes. -/
def Expr.WellApplied {ν : Type} : Expr ν → Prop
  | .literal _ => True
  | .var _ => True
  | .ifElse c a b => c.WellApplied ∧ a.WellApplied ∧ b.WellApplied
  | .apply p es => es.length = p.arity ∧ Expr.AllWellApplied es
  | .call _ es => Expr.AllWellApplied es

def Expr.AllWellApplied {ν : Type} : List (Expr ν) → Prop
  | [] => True
  | e :: es => e.WellApplied ∧ Expr.AllWellApplied es

end

lemma Expr.AllWellApplied.of_mem {ν : Type} {e : Expr ν} {es : List (Expr ν)}
    (h : Expr.AllWellApplied es) (he : e ∈ es) : e.WellApplied := by
  induction es with
  | nil => cases he
  | cons e' es ih =>
    rcases List.mem_cons.mp he with rfl | he
    · exact h.1
    · exact ih h.2 he

def Stmt.WellApplied {ν : Type} : Stmt ν → Prop
  | .skip => True
  | .block _ a => a.WellApplied
  | .assign _ e => e.WellApplied
  | .print e => e.WellApplied
  | .seq a b => a.WellApplied ∧ b.WellApplied
  | .ifElse c a b => c.WellApplied ∧ a.WellApplied ∧ b.WellApplied
  | .ifThen c a => c.WellApplied ∧ a.WellApplied
  | .whileDo c a => c.WellApplied ∧ a.WellApplied
  | .repeatUntil a c => a.WellApplied ∧ c.WellApplied
  | .ret e => e.WellApplied
  | .call _ es => Expr.AllWellApplied es

lemma Primitive.arity_of_reverse? {p q : Primitive} (h : p.reverse? = some q) :
    q.arity = p.arity := by
  cases p <;> cases h <;> rfl

lemma Condition.arity_of_primitive? {p : Primitive} {c : Condition}
    (h : Condition.ofPrimitive? p = some c) : p.arity = c.arity := by
  cases p <;> cases h <;> rfl

lemma Primitive.arity_counted (folding condition : Bool) (p : Primitive) :
    (p.counted folding condition).arity = p.arity := by
  unfold counted
  split
  · cases h : p.reverse? with
    | none => rfl
    | some q => exact arity_of_reverse? h
  · rfl

/-- A folded comparison is the condition of a branch. -/
lemma Purpose.folded?_eq_some {config : Config} {purpose : Purpose} {p : Primitive} {c : Condition}
    {label : String} (h : purpose.folded? config p = some (c, label)) :
    purpose = .branchUnless label ∧
      ∃ q, p.reverse? = some q ∧ Condition.ofPrimitive? q = some c := by
  cases purpose with
  | value l => cases h
  | branchUnless label' =>
    rw [folded?] at h
    split at h
    · obtain ⟨c', hc, heq⟩ := Option.map_eq_some_iff.mp h
      cases heq
      exact ⟨rfl, Option.bind_eq_some_iff.mp hc⟩
    · cases h

lemma bind_unit_eq_ok_iff {ε : Type} {a b : Except ε Unit} :
    (a >>= fun _ => b) = .ok () ↔ a = .ok () ∧ b = .ok () := by
  cases a <;> simp [bind, Except.bind]

lemma Expr.checkAll_eq_ok_iff {ν : Type} {folding : Bool} {es : List (Expr ν)}
    (h : ∀ e ∈ es, ∀ condition, e.check folding condition = .ok () ↔ e.WellApplied) :
    Expr.checkAll folding es = .ok () ↔ Expr.AllWellApplied es := by
  induction es with
  | nil => simp [Expr.checkAll, Expr.AllWellApplied]
  | cons e es ih =>
    rw [Expr.checkAll, Expr.AllWellApplied, bind_unit_eq_ok_iff, h e (by simp),
      ih fun e' he' => h e' (List.mem_cons_of_mem e he')]

lemma Expr.check_eq_ok_iff {ν : Type} (folding condition : Bool) (e : Expr ν) :
    e.check folding condition = .ok () ↔ e.WellApplied := by
  induction e generalizing condition with
  | literal v => simp [Expr.check, Expr.WellApplied]
  | var x => simp [Expr.check, Expr.WellApplied]
  | ifElse c a b hc ha hb =>
    simp only [Expr.check, Expr.WellApplied, bind_unit_eq_ok_iff, hc, ha, hb]
  | apply p es hes =>
    rw [Expr.check, Expr.WellApplied, Primitive.arity_counted, ← Expr.checkAll_eq_ok_iff hes]
    by_cases hlen : es.length = p.arity
    · simp [hlen, bind, Except.bind]
    · simp [hlen, bind, Except.bind]
  | call f es hes => exact Expr.checkAll_eq_ok_iff hes

lemma Stmt.check_eq_ok_iff {ν : Type} (folding : Bool) (s : Stmt ν) :
    s.check folding = .ok () ↔ s.WellApplied := by
  have hall : ∀ es : List (Expr ν), Expr.checkAll folding es = .ok () ↔ Expr.AllWellApplied es :=
    fun es => Expr.checkAll_eq_ok_iff fun e _ condition => Expr.check_eq_ok_iff folding condition e
  induction s with
  | skip => simp [Stmt.check, Stmt.WellApplied]
  | block x a ha => exact ha
  | assign x e => exact Expr.check_eq_ok_iff folding false e
  | print e => exact Expr.check_eq_ok_iff folding false e
  | seq a b ha hb => simp only [Stmt.check, Stmt.WellApplied, bind_unit_eq_ok_iff, ha, hb]
  | ifElse c a b ha hb =>
    simp only [Stmt.check, Stmt.WellApplied, bind_unit_eq_ok_iff, Expr.check_eq_ok_iff, ha, hb]
  | ifThen c a ha =>
    simp only [Stmt.check, Stmt.WellApplied, bind_unit_eq_ok_iff, Expr.check_eq_ok_iff, ha]
  | whileDo c a ha =>
    simp only [Stmt.check, Stmt.WellApplied, bind_unit_eq_ok_iff, Expr.check_eq_ok_iff, ha]
  | repeatUntil a c ha =>
    simp only [Stmt.check, Stmt.WellApplied, bind_unit_eq_ok_iff, Expr.check_eq_ok_iff, ha]
  | ret e => exact Expr.check_eq_ok_iff folding false e
  | call f es => exact hall es

/-! ### Slots for names -/

lemma Expr.listWithSlots_length (es : List (Expr String)) (s : Scope) :
    (Expr.listWithSlots es s).1.length = es.length := by
  induction es generalizing s with
  | nil => rfl
  | cons e es ih => simp [Expr.listWithSlots, ih]

lemma Expr.allWellApplied_listWithSlots {es : List (Expr String)} {s : Scope}
    (h : ∀ e ∈ es, ∀ s : Scope, (e.withSlots s).1.WellApplied ↔ e.WellApplied) :
    Expr.AllWellApplied (Expr.listWithSlots es s).1 ↔ Expr.AllWellApplied es := by
  induction es generalizing s with
  | nil => rfl
  | cons e es ih =>
    simp only [Expr.listWithSlots, Expr.AllWellApplied]
    rw [h e (by simp), ih fun e' he' => h e' (List.mem_cons_of_mem e he')]

lemma Expr.wellApplied_withSlots (e : Expr String) (s : Scope) :
    (e.withSlots s).1.WellApplied ↔ e.WellApplied := by
  induction e generalizing s with
  | literal v => rfl
  | var x => rfl
  | ifElse c a b hc ha hb => simp only [Expr.withSlots, Expr.WellApplied, hc, ha, hb]
  | apply p es hes =>
    simp only [Expr.withSlots, Expr.WellApplied, Expr.listWithSlots_length]
    rw [Expr.allWellApplied_listWithSlots hes]
  | call f es hes => exact Expr.allWellApplied_listWithSlots hes

lemma Stmt.wellApplied_withSlots (st : Stmt String) (s : Scope) :
    (st.withSlots s).1.WellApplied ↔ st.WellApplied := by
  induction st generalizing s with
  | skip => rfl
  | block x a ha => exact ha _
  | assign x e => exact Expr.wellApplied_withSlots e s
  | print e => exact Expr.wellApplied_withSlots e s
  | seq a b ha hb => simp only [Stmt.withSlots, Stmt.WellApplied, ha, hb]
  | ifElse c a b ha hb =>
    simp only [Stmt.withSlots, Stmt.WellApplied, Expr.wellApplied_withSlots, ha, hb]
  | ifThen c a ha => simp only [Stmt.withSlots, Stmt.WellApplied, Expr.wellApplied_withSlots, ha]
  | whileDo c a ha => simp only [Stmt.withSlots, Stmt.WellApplied, Expr.wellApplied_withSlots, ha]
  | repeatUntil a c ha =>
    simp only [Stmt.withSlots, Stmt.WellApplied, Expr.wellApplied_withSlots, ha]
  | ret e => exact Expr.wellApplied_withSlots e s
  | call f es =>
    exact Expr.allWellApplied_listWithSlots fun e _ s => Expr.wellApplied_withSlots e s

end Izmir
