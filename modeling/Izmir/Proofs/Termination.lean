import Izmir.Proofs.Calls
import Izmir.Proofs.Fuel

/-!
# Programs without loops end

An execution takes fuel only for calls and for the rounds of loops. Where there are no loops,
and no procedure calls itself, be it through others, there is an order of the procedures in
which every call goes down, and some amount of fuel is enough for all calls of a procedure.
The machine then ends as well, on every input and into every sink.
-/

namespace Izmir

/-! ### Actions that end -/

/-- An action that does not run out of fuel, whatever its surroundings. -/
def Action.Ends {α : Type} (m : Action α) : Prop :=
  ∀ w w', m w ≠ .outOfFuel w'

namespace Action.Ends

variable {α β : Type}

lemma pure (a : α) : Ends (Pure.pure a : Action α) := by
  intro w w' h
  cases h

lemma bind {m : Action α} {f : α → Action β} (hm : m.Ends) (hf : ∀ a, (f a).Ends) :
    (m >>= f).Ends := by
  intro w w' h
  change Action.bind m f w = _ at h
  unfold Action.bind at h
  cases hw : m w with
  | done a w₁ =>
    rw [hw] at h
    exact hf a w₁ w' h
  | failed e w₁ => rw [hw] at h; cases h
  | stuck w₁ => rw [hw] at h; cases h
  | outOfFuel w₁ => exact hm w w₁ hw

lemma ite {c : Prop} [Decidable c] {m n : Action α} (hm : m.Ends) (hn : n.Ends) :
    Ends (if c then m else n) := by
  split
  · exact hm
  · exact hn

/-- More fuel does not keep an action from ending. -/
lemma of_refines {m n : Action α} (hm : m.Ends) (h : m.Refines n) : n.Ends := by
  intro w w' hw
  rcases h w with ⟨w₁, hw₁⟩ | heq
  · exact hm w w₁ hw₁
  · exact hm w w' (heq.trans hw)

lemma read : Ends Action.read := by
  intro w w' h
  unfold Action.read at h
  split at h <;> cases h

lemma print (v : Value) : Ends (Action.print v) := by
  intro w w' h
  unfold Action.print at h
  split at h <;> cases h

lemma fail (e : RuntimeError) : Ends (Action.fail e : Action α) := by
  intro w w' h
  cases h

lemma stuck : Ends (Action.stuck : Action α) := by
  intro w w' h
  cases h

end Action.Ends

lemma Primitive.compute_ends (routine : String) (p : Primitive) (vs : List Value) :
    (p.compute routine vs).Ends := by
  match vs with
  | [] =>
    cases p with
    | input => exact .read
    | _ => exact .stuck
  | [a] =>
    cases p with
    | unaryMinus | logicalNot | isNonzero => exact .pure _
    | _ => exact .stuck
  | [a, b] =>
    cases p with
    | divided | remainder => exact .ite (.fail _) (.pure _)
    | unaryMinus | logicalNot | isNonzero | input => exact .stuck
    | _ => exact .pure _
  | _ :: _ :: _ :: _ => exact .stuck

/-! ### Statements without loops -/

/-- Neither the statement nor a part of it is a loop. -/
def Stmt.LoopFree {ν : Type} : Stmt ν → Prop
  | .whileDo _ _ | .repeatUntil _ _ => False
  | .block _ a | .ifThen _ a => a.LoopFree
  | .seq a b | .ifElse _ a b => a.LoopFree ∧ b.LoopFree
  | .skip | .assign _ _ | .print _ | .ret _ | .call _ _ => True

section

variable {σ ν : Type} [Variables σ ν] {call : String → List Value → Action Value}
  {routine : String}

lemma Expr.evalAll_ends {vars : σ} {es : List (Expr ν)}
    (hes : ∀ e ∈ es, (∀ c ∈ e.calls, ∀ vs, (call c.1 vs).Ends) → (e.eval call routine vars).Ends)
    (hcall : ∀ c ∈ Expr.callsAll es, ∀ vs, (call c.1 vs).Ends) :
    (Expr.evalAll call routine vars es).Ends := by
  induction es with
  | nil => exact .pure _
  | cons e es ih =>
    obtain ⟨he, hes⟩ := List.forall_mem_cons.mp hes
    obtain ⟨hcall, hcalls⟩ := List.forall_mem_append.mp hcall
    rw [Expr.evalAll]
    exact .bind (he hcall) fun v => .bind (ih hes hcalls) fun vs => .pure _

/-- An expression ends when all the calls in it do. -/
lemma Expr.eval_ends (e : Expr ν) (hcall : ∀ c ∈ e.calls, ∀ vs, (call c.1 vs).Ends) (vars : σ) :
    (e.eval call routine vars).Ends := by
  induction e with
  | literal v => exact .pure _
  | var x => exact .pure _
  | ifElse c a b hc ha hb =>
    simp only [Expr.calls, List.forall_mem_append] at hcall
    rw [Expr.eval]
    exact .bind (hc hcall.1.1) fun v => .ite (ha hcall.1.2) (hb hcall.2)
  | apply p es hes =>
    rw [Expr.eval]
    exact .bind (Expr.evalAll_ends hes hcall) fun vs => p.compute_ends routine vs
  | call f es hes =>
    rw [Expr.calls, List.forall_mem_append, List.forall_mem_singleton] at hcall
    rw [Expr.eval]
    exact .bind (Expr.evalAll_ends hes hcall.1) fun vs => hcall.2 vs

/-- A statement without loops ends when all the calls in it do, with any fuel for loops. -/
lemma Stmt.exec_ends (st : Stmt ν) (hloop : st.LoopFree)
    (hcall : ∀ c ∈ st.calls, ∀ vs, (call c.1 vs).Ends) (fuel : Nat) (vars : σ) :
    (st.exec call routine fuel vars).Ends := by
  induction st generalizing vars with
  | skip => exact .pure _
  | block x a ha =>
    rw [Stmt.exec]
    refine .bind (ha hloop hcall _) ?_
    rintro (vars | v)
    · exact .pure _
    · exact .pure _
  | assign x e =>
    rw [Stmt.exec]
    exact .bind (e.eval_ends hcall vars) fun v => .pure _
  | print e =>
    rw [Stmt.exec]
    exact .bind (e.eval_ends hcall vars) fun v => .bind (.print v) fun _ => .pure _
  | seq a b ha hb =>
    obtain ⟨hcallA, hcallB⟩ := List.forall_mem_append.mp hcall
    rw [Stmt.exec]
    refine .bind (ha hloop.1 hcallA vars) ?_
    rintro (vars | v)
    · exact hb hloop.2 hcallB vars
    · exact .pure _
  | ifElse c a b ha hb =>
    simp only [Stmt.calls, List.forall_mem_append] at hcall
    obtain ⟨⟨hcallC, hcallA⟩, hcallB⟩ := hcall
    rw [Stmt.exec]
    refine .bind (c.eval_ends hcallC vars) fun v => ?_
    exact .ite (ha hloop.1 hcallA vars) (hb hloop.2 hcallB vars)
  | ifThen c a ha =>
    obtain ⟨hcallC, hcallA⟩ := List.forall_mem_append.mp hcall
    rw [Stmt.exec]
    exact .bind (c.eval_ends hcallC vars) fun v => .ite (ha hloop hcallA vars) (.pure _)
  | whileDo c a => exact hloop.elim
  | repeatUntil a c => exact hloop.elim
  | ret e =>
    rw [Stmt.exec]
    exact .bind (e.eval_ends hcall vars) fun v => .pure _
  | call f es =>
    rw [Stmt.calls, List.forall_mem_append, List.forall_mem_singleton] at hcall
    rw [Stmt.exec]
    refine .bind (Expr.evalAll_ends (fun e _ he => e.eval_ends he vars) hcall.1) fun vs => ?_
    exact .bind (hcall.2 vs) fun _ => .pure _

end

/-! ### The call graph -/

namespace Program

variable {p : Program}

/-- The first procedure has a call of the second name somewhere in its body. -/
def Calls (p : Program) (f g : String) : Prop :=
  ∃ q ∈ p.procedures, q.name = f ∧ ∃ n, (g, n) ∈ q.body.calls

/-- No procedure calls itself, directly or through others. Main is called by nobody, so it is on
no cycle. -/
def Acyclic (p : Program) : Prop :=
  ∀ f, ¬Relation.TransGen p.Calls f f

def LoopFree (p : Program) : Prop :=
  (∀ q ∈ p.procedures, q.body.LoopFree) ∧ p.main.LoopFree

/-- Among finitely many procedures, calls that never come round go down. -/
lemma Acyclic.wellFounded (h : p.Acyclic) : WellFounded fun g f => p.Calls f g := by
  let names : Set String := {f | f ∈ p.procedures.map (·.name)}
  -- Only procedures call, so that calls can go on only among finitely many names.
  have hleaf (f : String) (hf : f ∉ names) : Acc (fun g f => p.Calls f g) f :=
    ⟨f, fun _ ⟨_, hq, hname, _⟩ => (hf (hname ▸ List.mem_map_of_mem hq)).elim⟩
  let below (g f : names) : Prop := Relation.TransGen p.Calls f.1 g.1
  have hfinite : Finite names := List.finite_toSet _
  have htrans : IsTrans names below := ⟨fun _ _ _ hgf hfe => Relation.TransGen.trans hfe hgf⟩
  have hirrefl : Std.Irrefl below := ⟨fun f hf => h f.1 hf⟩
  have hbelow : WellFounded below := Finite.wellFounded_of_trans_of_irrefl below
  have hacc (f : names) : Acc (fun g f => p.Calls f g) f.1 := by
    induction f using hbelow.induction with
    | _ f ih =>
      refine ⟨_, fun g hg => ?_⟩
      by_cases hmem : g ∈ names
      · exact ih ⟨g, hmem⟩ (.single hg)
      · exact hleaf g hmem
  refine ⟨fun f => ?_⟩
  by_cases hmem : f ∈ names
  · exact hacc ⟨f, hmem⟩
  · exact hleaf f hmem

/-- The fuel is enough for all calls of a procedure. -/
def EnoughFor (p : Program) (fuel : Nat) (f : String) : Prop :=
  ∀ args, (callWith p.activate? fuel f args).Ends

lemma EnoughFor.mono {fuel fuel' : Nat} {f : String} (h : p.EnoughFor fuel f)
    (hle : fuel ≤ fuel') : p.EnoughFor fuel' f :=
  fun args => (h args).of_refines (callWith_refines p.activate? hle f args)

/-- What is enough for each of some callees is together enough for all of them. -/
lemma exists_enoughFor_all {calls : List (String × Nat)}
    (h : ∀ c ∈ calls, ∃ fuel, p.EnoughFor fuel c.1) :
    ∃ fuel, ∀ c ∈ calls, p.EnoughFor fuel c.1 := by
  induction calls with
  | nil => exact ⟨0, List.forall_mem_nil _⟩
  | cons c calls ih =>
    obtain ⟨⟨m, hm⟩, hcalls⟩ := List.forall_mem_cons.mp h
    obtain ⟨n, hn⟩ := ih hcalls
    refine ⟨max m n, List.forall_mem_cons.mpr ⟨hm.mono (Nat.le_max_left m n), fun d hd => ?_⟩⟩
    exact (hn d hd).mono (Nat.le_max_right m n)

/-- For each procedure some fuel is enough. -/
lemma exists_enoughFor (hloop : p.LoopFree) (hacyclic : p.Acyclic) (f : String) :
    ∃ fuel, p.EnoughFor fuel f := by
  induction f using hacyclic.wellFounded.induction with
  | _ f ih =>
    cases hf : p.procedures.find? (·.name == f) with
    | none =>
      refine ⟨1, fun args => ?_⟩
      have hactivate : p.activate? f args = none := by
        unfold activate?
        rw [hf]
      rw [callWith, hactivate]
      exact .stuck
    | some q =>
      have hq : q ∈ p.procedures := List.mem_of_find?_eq_some hf
      have hname : q.name = f := beq_iff_eq.mp
        (List.find?_some (p := fun q : Procedure => q.name == f) hf)
      obtain ⟨fuel, hfuel⟩ := exists_enoughFor_all fun c hc => ih c.1 ⟨q, hq, hname, c.2, hc⟩
      refine ⟨fuel + 1, fun args => ?_⟩
      rw [callWith]
      cases hactivate : p.activate? f args with
      | none => exact .stuck
      | some activation =>
        have hbody : activation.body = q.body := by
          unfold activate? at hactivate
          rw [hf] at hactivate
          obtain ⟨-, hsome⟩ := Option.ite_none_right_eq_some.mp hactivate
          cases hsome
          rfl
        refine .bind ?_ fun flow => .pure _
        rw [hbody]
        exact q.body.exec_ends (hloop.1 q hq) hfuel fuel activation.vars

/-- An amount of fuel with which the program ends on every input and into every sink. -/
lemma exists_run_ne_none (hloop : p.LoopFree) (hacyclic : p.Acyclic) :
    ∃ fuel, ∀ input sink, p.run input sink fuel ≠ none := by
  obtain ⟨fuel, hfuel⟩ : ∃ fuel, ∀ c ∈ p.main.calls, p.EnoughFor fuel c.1 :=
    exists_enoughFor_all fun c _ => exists_enoughFor hloop hacyclic c.1
  refine ⟨fuel, fun input sink h => ?_⟩
  have hends : (p.exec fuel).Ends := p.main.exec_ends hloop.2 hfuel fuel _
  unfold run at h
  cases hw : p.exec fuel ⟨input, sink, #[]⟩ with
  | done flow w => rw [hw] at h; cases h
  | failed e w => rw [hw] at h; cases h
  | stuck w => rw [hw] at h; cases h
  | outOfFuel w => exact hends _ w hw

end Program

/-- A program that ends has not crashed. -/
lemma Program.ending_ne_crashed {p : Program} {input : InputSource} {sink : Sink} {fuel : Nat}
    {r : Machine.Run} (h : p.run input sink fuel = some r) : r.ending ≠ .crashed := by
  unfold run at h
  cases hw : p.exec fuel ⟨input, sink, #[]⟩ with rw [hw] at h
  | done flow w =>
    cases h
    unfold Machine.finish
    split <;> simp
  | failed e w => cases h; simp
  | stuck w => cases h; simp
  | outOfFuel w => cases h

/-- A linked program that ends has halted, failed or crashed. -/
lemma Machine.ending_of_run {a : Assembly} {x : Executable} (hlink : a.link = .ok x)
    {input : InputSource} {sink : Sink} {k : Nat} {r : Run} (h : run x input sink k = some r) :
    r.ending = .halted ∨ (∃ e, r.ending = .failed e) ∨ r.ending = .crashed := by
  have hsound := after_sound hlink sink k (start_sound x input)
  rw [run_eq_run?] at h
  cases ho : after x sink k (start x input) with
  | running s => rw [ho] at h; cases h
  | halted s =>
    rw [ho] at h
    cases h
    unfold finish
    split
    · exact .inl rfl
    · exact .inr (.inl ⟨_, rfl⟩)
  | failed e s =>
    rw [ho] at h
    cases h
    exact .inr (.inl ⟨e, rfl⟩)
  | stuck s =>
    rw [ho] at hsound
    exact hsound.elim
  | crashed s =>
    rw [ho] at h
    cases h
    exact .inr (.inr rfl)

namespace Program

/-- A program without loops in which no procedure calls itself through others halts or fails
after a number of steps, under every configuration, on every input and into every sink. Its frames
can be allocated, as every program in memory has fewer than `2 ^ 60` nodes. -/
theorem loopFree_run_ends {p : Program} {config : Config} {a : Assembly} {x : Executable}
    (hc : p.compile config = .ok a) (hlink : a.link = .ok x)
    (hsize : p.size < Executable.vectorLimit) (hloop : p.LoopFree) (hacyclic : p.Acyclic)
    (input : InputSource) (sink : Sink) :
    ∃ k r, Machine.run x input sink k = some r ∧
      (r.ending = .halted ∨ ∃ e, r.ending = .failed e) := by
  obtain ⟨fuel, hfuel⟩ := exists_run_ne_none hloop hacyclic
  obtain ⟨r, hr⟩ := Option.ne_none_iff_exists'.mp (hfuel input sink)
  obtain ⟨k, hk⟩ := exists_compiled_run hc hlink (fits_of_compile hc hlink hsize) hr
  refine ⟨k, r, hk, ?_⟩
  rcases Machine.ending_of_run hlink hk with hhalted | hfailed | hcrashed
  · exact .inl hhalted
  · exact .inr hfailed
  · exact absurd hcrashed (ending_ne_crashed hr)

/-- It is enough to number the names so that every call goes down. -/
lemma Acyclic.of_rank {p : Program} (rank : String → Nat)
    (h : ∀ q ∈ p.procedures, ∀ c ∈ q.body.calls, rank c.1 < rank q.name) : p.Acyclic := by
  have hstep {f g : String} : p.Calls f g → rank g < rank f := by
    rintro ⟨q, hq, rfl, n, hmem⟩
    exact h q hq (g, n) hmem
  have hlt {f g : String} (hfg : Relation.TransGen p.Calls f g) : rank g < rank f := by
    induction hfg with
    | single hfg => exact hstep hfg
    | tail _ hgk ih => exact (hstep hgk).trans ih
  exact fun f hf => (hlt hf).false

/-- Two procedures that share a third one, which divides by its argument. -/
def shares : Program where
  source := "shares"
  procedures :=
    [⟨"share", ["n"], .ret (.apply .divided [.literal 60, .var "n"])⟩,
      ⟨"halve", ["n"], .seq (.ifThen (.var "n") (.ret (.call "share" [.var "n"])))
        (.print (.call "share" [.literal 2]))⟩,
      ⟨"top", [], .ret (.apply .plus [.call "halve" [.apply .input []],
        .call "share" [.apply .input []]])⟩]
  main := .ifElse (.call "top" []) (.call "halve" [.literal 0]) (.print (.call "top" []))

theorem shares_run_ends :
    ∃ a x, shares.compile .default = .ok a ∧ a.link = .ok x ∧
      shares.size < Executable.vectorLimit ∧ shares.LoopFree ∧ shares.Acyclic ∧
      ∃ k r, Machine.run x (.ofInput [.ok 3, .ok 0]) .endless k = some r ∧
        (r.ending = .halted ∨ ∃ e, r.ending = .failed e) := by
  obtain ⟨a, x, hc, hlink⟩ : ∃ a x, shares.compile .default = .ok a ∧ a.link = .ok x :=
    ⟨_, _, rfl, rfl⟩
  have hsize : shares.size < Executable.vectorLimit := by decide
  have hloop : shares.LoopFree := by simp [LoopFree, Stmt.LoopFree, shares]
  have hacyclic : shares.Acyclic :=
    .of_rank (fun f => if f = "top" then 2 else if f = "halve" then 1 else 0) (by decide)
  exact ⟨a, x, hc, hlink, hsize, hloop, hacyclic,
    loopFree_run_ends hc hlink hsize hloop hacyclic _ _⟩

end Program

end Izmir
