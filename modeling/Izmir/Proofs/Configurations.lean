import Izmir.Proofs.Correctness
import Izmir.Proofs.Outline

/-!
# Configurations do not matter

Compiled for either backend, with or without folding, a program compiles or fails with the same
kind of error, links or fails with the same error, and behaves the same when it runs. For runs
that do not end this is said of what has been printed so far.
-/

namespace Izmir

open Machine

/-! ### Compiling -/

/-- Errors of one kind for one cause. Which of two opposite comparisons is named depends on
whether it was to be folded. -/
def CompileError.Alike : CompileError → CompileError → Prop
  | .multipleDefinitions f, .multipleDefinitions g => f = g
  | .operandCount p m, .operandCount q n =>
    m = n ∧ (p = q ∨ p.reverse? = some q ∨ q.reverse? = some p)
  | _, _ => False

lemma Primitive.counted_eq (folding condition : Bool) (p : Primitive) :
    p.counted folding condition = p ∨ p.reverse? = some (p.counted folding condition) := by
  unfold counted
  split
  · cases p <;> simp [reverse?]
  · exact .inl rfl

lemma Primitive.counted_alike (folding folding' condition condition' : Bool) (p : Primitive)
    (n : Nat) :
    (CompileError.operandCount (p.counted folding condition) n).Alike
      (.operandCount (p.counted folding' condition') n) := by
  refine ⟨rfl, ?_⟩
  rcases p.counted_eq folding condition with h | h <;>
    rcases p.counted_eq folding' condition' with h' | h'
  · exact .inl (h.trans h'.symm)
  · rw [h]
    exact .inr (.inl h')
  · rw [h']
    exact .inr (.inr h)
  · exact .inl (Option.some.inj (h.symm.trans h'))

lemma FailsLike.forM {ε α : Type} {R : ε → ε → Prop} {f g : α → Except ε Unit} {as : List α}
    (h : ∀ a ∈ as, FailsLike R (f a) (g a)) : FailsLike R (forM as f) (forM as g) := by
  induction as with
  | nil => exact .ok _ _
  | cons a as ih =>
    obtain ⟨ha, has⟩ := List.forall_mem_cons.mp h
    exact FailsLike.bind ha fun _ _ => ih has

section

variable {ν : Type} (folding folding' : Bool)

lemma Expr.checkAll_failsLike {es : List (Expr ν)}
    (h : ∀ e ∈ es, ∀ condition condition',
      FailsLike CompileError.Alike (e.check folding condition) (e.check folding' condition')) :
    FailsLike CompileError.Alike (Expr.checkAll folding es) (Expr.checkAll folding' es) := by
  induction es with
  | nil => exact .ok _ _
  | cons e es ih =>
    obtain ⟨he, hes⟩ := List.forall_mem_cons.mp h
    exact (he false false).bind fun _ _ => ih hes

lemma Expr.check_failsLike (e : Expr ν) (condition condition' : Bool) :
    FailsLike CompileError.Alike (e.check folding condition) (e.check folding' condition') := by
  induction e generalizing condition condition' with
  | literal v => exact .ok _ _
  | var x => exact .ok _ _
  | ifElse c a b hc ha hb =>
    rw [Expr.check, Expr.check]
    exact (hc true true).bind fun _ _ => (ha false false).bind fun _ _ => hb false false
  | apply p es hes =>
    rw [Expr.check, Expr.check, Primitive.arity_counted, Primitive.arity_counted]
    split
    · exact Expr.checkAll_failsLike folding folding' hes
    · exact .error (p.counted_alike folding folding' condition condition' es.length)
  | call f es hes => exact Expr.checkAll_failsLike folding folding' hes

lemma Stmt.check_failsLike (st : Stmt ν) :
    FailsLike CompileError.Alike (st.check folding) (st.check folding') := by
  have hexpr (e : Expr ν) (condition : Bool) :=
    e.check_failsLike folding folding' condition condition
  induction st with
  | skip => exact .ok _ _
  | block x a ha => exact ha
  | assign x e => exact hexpr e false
  | print e => exact hexpr e false
  | seq a b ha hb => exact ha.bind fun _ _ => hb
  | ifElse c a b ha hb => exact (hexpr c true).bind fun _ _ => ha.bind fun _ _ => hb
  | ifThen c a ha => exact (hexpr c true).bind fun _ _ => ha
  | whileDo c a ha => exact (hexpr c true).bind fun _ _ => ha
  | repeatUntil a c ha => exact ha.bind fun _ _ => hexpr c true
  | ret e => exact hexpr e false
  | call f es => exact Expr.checkAll_failsLike folding folding' fun e _ => e.check_failsLike _ _

end

lemma Program.compile_failsLike (p : Program) (config config' : Config) :
    FailsLike CompileError.Alike (p.compile config) (p.compile config') := by
  refine FailsLike.bind ?_ fun _ _ => .ok _ _
  rw [check_eq, check_eq]
  cases firstRepeat? (p.procedures.map (·.name)) with
  | some f => exact .error rfl
  | none =>
    exact (FailsLike.forM fun q _ => q.body.check_failsLike _ _).bind fun _ _ =>
      p.main.check_failsLike _ _

/-! ### Linking -/

/-- Name, index and arity of each procedure of a program. -/
def Program.table (p : Program) : List (String × Nat × Nat) :=
  p.procedures.zipIdx.map fun (q, i) => (q.name, i, q.arity)

lemma Program.table_compile {p : Program} {config : Config} {a : Assembly}
    (hc : p.compile config = .ok a) : a.table = p.table := by
  obtain ⟨-, rfl⟩ := compile_eq_ok_iff.mp hc
  simp only [Assembly.table, Program.table, List.zipIdx_map, List.map_map]
  rfl

lemma Program.map_name_compile (p : Program) (config : Config) :
    (p.procedures.map (·.compile config)).map (·.name.text) = p.procedures.map (·.name) := by
  rw [List.map_map]
  rfl

/-- What linking sees of a routine does not depend on the configuration. -/
lemma EmittedFor.routine_failsLike {b b' : Backend} {N : Nat} {st : Stmt Nat}
    {code code' : List Line} (h : EmittedFor b N (· < N) st code)
    (h' : EmittedFor b' N (· < N) st code') (hN : N < UInt64.size)
    (table : List (String × Nat × Nat)) (name : RoutineName) (arity : Nat) :
    FailsLike Eq (Link.routine table ⟨name, arity, code⟩)
      (Link.routine table ⟨name, arity, code'⟩) := by
  have hS : ∀ n, n < N → n + 1 < UInt64.size := fun n hn => by omega
  exact Link.routine_failsLike (h.outline_eq.trans h'.outline_eq.symm) (h.wellFormed hN hS)
    (h'.wellFormed hN hS)

lemma Program.link_failsLike {p : Program} {config config' : Config} {a a' : Assembly}
    (hc : p.compile config = .ok a) (hc' : p.compile config' = .ok a')
    (hsize : p.size < UInt64.size) : FailsLike Eq a.link a'.link := by
  have htable := table_compile hc
  have htable' := table_compile hc'
  obtain ⟨⟨hnames, -⟩, rfl⟩ := compile_eq_ok_iff.mp hc
  obtain ⟨-, rfl⟩ := compile_eq_ok_iff.mp hc'
  rw [Assembly.link_eq, Assembly.link_eq, htable, htable', map_name_compile, map_name_compile,
    (firstRepeat?_eq_none_iff _).mpr hnames]
  refine FailsLike.bind (.mapM ?_) fun _ _ => .bind ?_ fun _ _ => .ok _ _
  · rw [List.forall₂_map_left_iff, List.forall₂_map_right_iff, List.forall₂_same]
    intro q hq
    exact (emittedFor_procedure hc hq).routine_failsLike (emittedFor_procedure hc' hq) hsize
      p.table (.procedure q.name) q.arity
  · exact (emittedFor_main hc).routine_failsLike (emittedFor_main hc') hsize p.table .main 0

/-! ### Running -/

section

variable {p : Program} {config config' : Config} {a a' : Assembly} {x x' : Executable}

/-- What ends in one configuration ends in the same way in another. -/
lemma Program.run_of_run (hc : p.compile config = .ok a) (hc' : p.compile config' = .ok a')
    (hlink : a.link = .ok x) (hlink' : a'.link = .ok x')
    (hsize : p.size < Executable.vectorLimit) {input : InputSource} {sink : Sink}
    {r : Machine.Run} (h : ∃ k, Machine.run x input sink k = some r) :
    ∃ k, Machine.run x' input sink k = some r := by
  obtain ⟨k, hk⟩ := h
  exact exists_compiled_run hc' hlink' (fits_of_compile hc' hlink' hsize)
    (run_eq_of_compiled_run hc hlink (fits_of_compile hc hlink hsize) hk)

/-- What is printed in one configuration is printed in another. -/
lemma Program.printedAfter_prefix (hc : p.compile config = .ok a)
    (hc' : p.compile config' = .ok a') (hlink : a.link = .ok x) (hlink' : a'.link = .ok x')
    (hsize : p.size < Executable.vectorLimit) (input : InputSource) (sink : Sink) (n : Nat) :
    ∃ m, printedAfter x input sink n <+: printedAfter x' input sink m := by
  obtain ⟨k, hk, hrun, hle⟩ :=
    p.after_exec hc hlink (fits_of_compile hc hlink hsize) input sink n
  obtain ⟨m, hm, -, -⟩ := p.after_exec hc' hlink' (fits_of_compile hc' hlink' hsize) input sink n
  have hprinted : printedAfter x input sink k = printedAfter x' input sink m :=
    congrArg (fun w : World => w.printed.toList) (hk.trans hm.symm)
  refine ⟨m, hprinted ▸ ?_⟩
  rcases Nat.le_total n k with hnk | hkn
  · exact after_printed hnk _
  · cases hr : p.run input sink n with
    | none => exact after_printed (hle hr) _
    | some r =>
      rw [hr] at hrun
      unfold printedAfter
      rw [after_eq_of_ended hkn hrun]

end

/-- Two configurations of one program fail to compile together and alike. If it compiles, they
fail to link together and with the same error. If it links, they end together, with the same
result and the same output, on every input and into every sink, and whether or not they end
each prints what the other has printed up to any moment. Slots and registers are counted with
64 bits and frames of fewer than `2 ^ 60` of them can be allocated; every program in memory has
fewer nodes than that. -/
theorem Program.configurations_agree (p : Program) (config config' : Config) :
    FailsLike CompileError.Alike (p.compile config) (p.compile config') ∧
      ∀ a a', p.compile config = .ok a → p.compile config' = .ok a' →
        (p.size < UInt64.size → FailsLike Eq a.link a'.link) ∧
          ∀ x x', a.link = .ok x → a'.link = .ok x' → p.size < Executable.vectorLimit →
            ∀ (input : InputSource) (sink : Sink),
            (∀ r, (∃ k, Machine.run x input sink k = some r) ↔
              ∃ k, Machine.run x' input sink k = some r) ∧
            ∀ n, ∃ m, printedAfter x input sink n <+: printedAfter x' input sink m := by
  refine ⟨p.compile_failsLike config config', fun a a' hc hc' => ⟨link_failsLike hc hc', ?_⟩⟩
  intro x x' hlink hlink' hsize input sink
  refine ⟨fun r => ⟨?_, ?_⟩, printedAfter_prefix hc hc' hlink hlink' hsize input sink⟩
  · exact run_of_run hc hc' hlink hlink' hsize
  · exact run_of_run hc' hc hlink' hlink hsize

theorem Program.countdown_configurations_agree :
    ∃ a a' x x', Program.countdown.compile .default = .ok a ∧
      Program.countdown.compile ⟨.stack, false⟩ = .ok a' ∧ Program.countdown.size < UInt64.size ∧
      a.link = .ok x ∧ a'.link = .ok x' ∧ FailsLike Eq a.link a'.link ∧
      ∀ n, ∃ m, printedAfter x (.ofInput [.ok 2]) .endless n <+:
        printedAfter x' (.ofInput [.ok 2]) .endless m := by
  obtain ⟨a, x, hc, hlink⟩ : ∃ a x,
      Program.countdown.compile .default = .ok a ∧ a.link = .ok x := ⟨_, _, rfl, rfl⟩
  obtain ⟨a', x', hc', hlink'⟩ : ∃ a x,
      Program.countdown.compile ⟨.stack, false⟩ = .ok a ∧ a.link = .ok x := ⟨_, _, rfl, rfl⟩
  have hsize : Program.countdown.size < UInt64.size := by decide
  have hfits : Program.countdown.size < Executable.vectorLimit := by decide
  obtain ⟨-, h⟩ := Program.configurations_agree Program.countdown .default ⟨.stack, false⟩
  obtain ⟨hfails, hruns⟩ := h a a' hc hc'
  exact ⟨a, a', x, x', hc, hc', hsize, hlink, hlink', hfails hsize,
    (hruns x x' hlink hlink' hfits _ _).2⟩

end Izmir
