import Izmir.Proofs.Semantics
import Izmir.Proofs.Trees

/-!
# Fuel

More fuel lets an execution go on where it would have run out, and changes nothing else.
-/

namespace Izmir

/-- An action that does the same as another one unless that runs out of fuel. -/
def Action.Refines {α : Type} (m n : Action α) : Prop :=
  ∀ w, (∃ w', m w = .outOfFuel w') ∨ m w = n w

namespace Action.Refines

variable {α β : Type}

lemma refl (m : Action α) : Refines m m :=
  fun _ => .inr rfl

lemma outOfFuel (n : Action α) : Refines .outOfFuel n :=
  fun w => .inl ⟨w, rfl⟩

lemma bind {m n : Action α} {f g : α → Action β} (h : Refines m n)
    (hfg : ∀ a, Refines (f a) (g a)) : Refines (m >>= f) (n >>= g) := by
  intro w
  change (∃ w', Action.bind m f w = .outOfFuel w') ∨ Action.bind m f w = Action.bind n g w
  unfold Action.bind
  rcases h w with ⟨w', hw⟩ | hw
  · rw [hw]
    exact .inl ⟨w', rfl⟩
  · rw [← hw]
    cases m w with
    | done a w => exact hfg a w
    | failed e w => exact .inr rfl
    | stuck w => exact .inr rfl
    | outOfFuel w => exact .inr rfl

lemma ite {c : Prop} [Decidable c] {m n m' n' : Action α} (h : Refines m n)
    (h' : Refines m' n') : Refines (if c then m else m') (if c then n else n') := by
  split
  · exact h
  · exact h'

end Action.Refines

lemma loop_refines {σ : Type} {round round' : σ → Action (Round σ)} {fuel fuel' : Nat}
    (hround : ∀ vars, (round vars).Refines (round' vars)) (hfuel : fuel ≤ fuel') (vars : σ) :
    (loop round fuel vars).Refines (loop round' fuel' vars) := by
  induction fuel generalizing fuel' vars with
  | zero => exact .outOfFuel _
  | succ fuel ih =>
    obtain ⟨fuel', rfl⟩ : ∃ k, fuel' = k + 1 := ⟨fuel' - 1, by omega⟩
    rw [loop, loop]
    refine .bind (hround vars) ?_
    rintro (vars | flow)
    · exact ih (by omega) vars
    · exact .refl _

section

variable {σ ν : Type} [Variables σ ν] {call call' : String → List Value → Action Value}
  {routine : String}

lemma Expr.evalAll_refines {vars : σ} {es : List (Expr ν)}
    (hes : ∀ e ∈ es, (e.eval call routine vars).Refines (e.eval call' routine vars)) :
    (Expr.evalAll call routine vars es).Refines (Expr.evalAll call' routine vars es) := by
  induction es with
  | nil => exact .refl _
  | cons e es ih =>
    obtain ⟨he, hes⟩ := List.forall_mem_cons.mp hes
    rw [Expr.evalAll, Expr.evalAll]
    exact .bind he fun v => .bind (ih hes) fun vs => .refl _

lemma Expr.eval_refines (hcall : ∀ f vs, (call f vs).Refines (call' f vs)) (e : Expr ν)
    (vars : σ) : (e.eval call routine vars).Refines (e.eval call' routine vars) := by
  induction e with
  | literal v => exact .refl _
  | var x => exact .refl _
  | ifElse c a b hc ha hb =>
    rw [Expr.eval, Expr.eval]
    exact .bind hc fun v => .ite ha hb
  | apply p es hes =>
    rw [Expr.eval, Expr.eval]
    exact .bind (Expr.evalAll_refines hes) fun vs => .refl _
  | call f es hes =>
    rw [Expr.eval, Expr.eval]
    exact .bind (Expr.evalAll_refines hes) fun vs => hcall f vs

lemma Stmt.exec_refines (hcall : ∀ f vs, (call f vs).Refines (call' f vs)) {fuel fuel' : Nat}
    (hfuel : fuel ≤ fuel') (st : Stmt ν) (vars : σ) :
    (st.exec call routine fuel vars).Refines (st.exec call' routine fuel' vars) := by
  have hexpr (e : Expr ν) (vars : σ) :
      (e.eval call routine vars).Refines (e.eval call' routine vars) := e.eval_refines hcall vars
  induction st generalizing vars with
  | skip => exact .refl _
  | block x a ha =>
    rw [Stmt.exec, Stmt.exec]
    exact .bind (ha _) fun flow => .refl _
  | assign x e =>
    rw [Stmt.exec, Stmt.exec]
    exact .bind (hexpr e vars) fun v => .refl _
  | print e =>
    rw [Stmt.exec, Stmt.exec]
    exact .bind (hexpr e vars) fun v => .refl _
  | seq a b ha hb =>
    rw [Stmt.exec, Stmt.exec]
    refine .bind (ha vars) ?_
    rintro (vars | v)
    · exact hb vars
    · exact .refl _
  | ifElse c a b ha hb =>
    rw [Stmt.exec, Stmt.exec]
    exact .bind (hexpr c vars) fun v => .ite (ha vars) (hb vars)
  | ifThen c a ha =>
    rw [Stmt.exec, Stmt.exec]
    exact .bind (hexpr c vars) fun v => .ite (ha vars) (.refl _)
  | whileDo c a ha =>
    rw [Stmt.exec, Stmt.exec]
    refine loop_refines (fun vars => ?_) hfuel vars
    exact .bind (hexpr c vars) fun v => .ite (.bind (ha vars) fun flow => .refl _) (.refl _)
  | repeatUntil a c ha =>
    rw [Stmt.exec, Stmt.exec]
    refine loop_refines (fun vars => ?_) hfuel vars
    refine .bind (ha vars) ?_
    rintro (vars | v)
    · exact .bind (hexpr c vars) fun v => .refl _
    · exact .refl _
  | ret e =>
    rw [Stmt.exec, Stmt.exec]
    exact .bind (hexpr e vars) fun v => .refl _
  | call f es =>
    rw [Stmt.exec, Stmt.exec]
    refine .bind (Expr.evalAll_refines fun e _ => hexpr e vars) fun vs => ?_
    exact .bind (hcall f vs) fun _ => .refl _

lemma callWith_refines (activate : String → List Value → Option (Activation σ ν))
    {fuel fuel' : Nat} (hfuel : fuel ≤ fuel') (f : String) (args : List Value) :
    (callWith activate fuel f args).Refines (callWith activate fuel' f args) := by
  induction fuel generalizing fuel' f args with
  | zero => exact .outOfFuel _
  | succ fuel ih =>
    obtain ⟨fuel', rfl⟩ : ∃ k, fuel' = k + 1 := ⟨fuel' - 1, by omega⟩
    have hle : fuel ≤ fuel' := by omega
    rw [callWith, callWith]
    cases activate f args with
    | none => exact .refl _
    | some a => exact .bind (a.body.exec_refines (ih hle) hle a.vars) fun flow => .refl _

end

/-- With more fuel a program that has ended ends in the same way. -/
theorem Program.run_of_le {p : Program} {input : InputSource} {sink : Sink} {fuel fuel' : Nat}
    {r : Machine.Run} (hfuel : fuel ≤ fuel') (h : p.run input sink fuel = some r) :
    p.run input sink fuel' = some r := by
  unfold run at h ⊢
  have hexec : (p.exec fuel).Refines (p.exec fuel') :=
    p.main.exec_refines (callWith_refines p.activate? hfuel) hfuel _
  rcases hexec ⟨input, sink, #[]⟩ with ⟨w, hw⟩ | heq
  · rw [hw] at h
    cases h
  · rwa [← heq]

end Izmir
