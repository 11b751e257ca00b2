import Izmir.Proofs.Correctness
import Izmir.Proofs.LinkCorrectness

/-!
# The order of the procedures

Names tell the procedures of a program apart, so the order in which they stand does not matter.
Labelled code by itself looks for its callees by name and makes the same steps in whatever order
they stand. Linking turns names into positions; the linked programs of two orders call the same
procedures at different positions, and one symbolic state stands for both all along.
-/

namespace Izmir

namespace Assembly

/-- Two programs have the same main, and every name stands for the same procedure in both. -/
structure SameRoutines (a b : Assembly) : Prop where
  main : b.main = a.main
  find : ∀ f, b.procedures.find? (·.name.text == f) = a.procedures.find? (·.name.text == f)

/-- Procedures of different names are found in whatever order they stand. -/
lemma find?_eq_of_perm {ps qs : List Routine} (h : ps.Perm qs)
    (hnd : (ps.map (·.name.text)).Nodup) (f : String) :
    qs.find? (·.name.text == f) = ps.find? (·.name.text == f) := by
  cases hp : ps.find? (·.name.text == f) with
  | none =>
    rw [List.find?_eq_none] at hp ⊢
    exact fun q hq => hp q (h.mem_iff.mpr hq)
  | some p =>
    have hpmem := List.mem_of_find?_eq_some hp
    have hpname : p.name.text = f := by simpa using List.find?_some hp
    cases hq : qs.find? (·.name.text == f) with
    | none => exact absurd (by simpa using hpname) (List.find?_eq_none.mp hq p (h.mem_iff.mp hpmem))
    | some q =>
      have hqmem := h.mem_iff.mpr (List.mem_of_find?_eq_some hq)
      have hqname : q.name.text = f := by simpa using List.find?_some hq
      rw [List.inj_on_of_nodup_map hnd hqmem hpmem (hqname.trans hpname.symm)]

lemma SameRoutines.of_perm {a : Assembly} {ps : List Routine} (h : a.procedures.Perm ps)
    (hnd : (a.procedures.map (·.name.text)).Nodup) : a.SameRoutines { a with procedures := ps } :=
  ⟨rfl, find?_eq_of_perm h hnd⟩

end Assembly

/-! ### Linking in another order -/

/-- A procedure that is found by its name stands in the table with its arity. -/
lemma exists_lookup_table {a : Assembly} {f : String} {p : Assembly.Routine}
    (h : a.procedures.find? (·.name.text == f) = some p) :
    ∃ i, a.table.lookup f = some (i, p.arity) := by
  cases hf : a.table.lookup f with
  | none =>
    have hname : p.name.text = f := by simpa using List.find?_some h
    have hne : ∀ q ∈ a.procedures, q.name.text ≠ f := lookup_zipIdx_eq_none_iff.mp hf
    exact absurd hname (hne p (List.mem_of_find?_eq_some h))
  | some entry =>
    obtain ⟨i, n⟩ := entry
    obtain ⟨q, -, hq, rfl⟩ := lookup_table hf
    obtain rfl : q = p := Option.some.inj (hq.symm.trans h)
    exact ⟨i, rfl⟩

/-- What can be called in one program with a number of arguments can in the other. -/
lemma Assembly.SameRoutines.lookup_table {a b : Assembly} (h : a.SameRoutines b) {f : String}
    {i n : Nat} (hf : a.table.lookup f = some (i, n)) : ∃ j, b.table.lookup f = some (j, n) := by
  obtain ⟨p, -, hp, rfl⟩ := Izmir.lookup_table hf
  exact exists_lookup_table ((h.find f).trans hp)

namespace Link

variable {table table' : List (String × Nat × Nat)}
  (htable : ∀ f i n, table.lookup f = some (i, n) → ∃ j, table'.lookup f = some (j, n))
include htable

/-- Only calls depend on where the procedures stand. -/
lemma instr_ok_of_table {name : RoutineName} {code : List Line} {i : SymbolicInstr}
    {j : LinkedInstr} (h : (contextOf table name code).instr i = .ok j) :
    ∃ j', (contextOf table' name code).instr i = .ok j' := by
  have hcallee {f : String} {n k : Nat} (hk : (contextOf table name code).callee f n = .ok k) :
      ∃ k', (contextOf table' name code).callee f n = .ok k' := by
    obtain ⟨k', hk'⟩ := htable f k n (callee_eq_ok_iff.mp hk)
    exact ⟨k', callee_eq_ok_iff.mpr hk'⟩
  simp only [instr_eq_ok_iff, exists_and_left] at h ⊢
  refine ⟨h.1, ?_⟩
  obtain ⟨-, h⟩ := h
  cases i with
  | call f n =>
    obtain ⟨k, hk, -⟩ := bind_eq_ok_iff.mp h
    obtain ⟨k', hk'⟩ := hcallee hk
    exact ⟨_, bind_eq_ok_iff.mpr ⟨k', hk', rfl⟩⟩
  | callRegisters f first n r =>
    rw [Context.uncounted] at h ⊢
    split at h
    · obtain ⟨k, hk, -⟩ := bind_eq_ok_iff.mp h
      obtain ⟨k', hk'⟩ := hcallee hk
      rw [if_pos ‹_›]
      exact ⟨_, bind_eq_ok_iff.mpr ⟨k', hk', rfl⟩⟩
    · cases h
  | move b d => cases d <;> exact ⟨_, h⟩
  | _ => exact ⟨_, h⟩

lemma routine_ok_of_table {p : Assembly.Routine} (h : ∃ r, routine table p = .ok r) :
    ∃ r, routine table' p = .ok r := by
  obtain ⟨hnd, hlinks⟩ := exists_routine_eq_ok_iff.mp h
  refine exists_routine_eq_ok_iff.mpr ⟨hnd, fun i hi => ?_⟩
  obtain ⟨j, hj⟩ := hlinks i hi
  exact instr_ok_of_table htable hj

end Link

lemma Assembly.exists_link_of_perm {a : Assembly} {ps : List Routine} (h : a.procedures.Perm ps)
    (hlink : ∃ x, a.link = .ok x) : ∃ x, { a with procedures := ps }.link = .ok x := by
  obtain ⟨hnd, hprocedures, hmain⟩ := exists_link_eq_ok_iff.mp hlink
  have htable := fun f i n => (SameRoutines.of_perm h hnd).lookup_table (f := f) (i := i) (n := n)
  refine exists_link_eq_ok_iff.mpr ⟨(h.map _).nodup_iff.mp hnd, fun p hp => ?_, ?_⟩
  · exact Link.routine_ok_of_table htable (hprocedures p (h.mem_iff.mpr hp))
  · exact Link.routine_ok_of_table htable hmain

/-! ### Runs in another order -/

namespace Symbolic

variable {a b : Assembly}

lemma step_eq_of_sameRoutines (h : a.SameRoutines b) (room : Room) (sink : Sink) (s : State) :
    step room b sink s = step room a sink s := by
  have hcall (s : State) (f : String) (vs : List Value) (returnTo : Machine.ReturnTo) :
      s.call room b f vs returnTo = s.call room a f vs returnTo := by
    rw [State.call, State.call, h.find]
  rw [step, step]
  split
  · rename_i i rest _
    cases i with
    | call f n => simp only [State.execute, hcall]
    | callRegisters f first n r => exact hcall _ f _ _
    | move c d => cases d <;> rfl
    | _ => rfl
  · rfl
  · rfl

/-- The machines of two programs with the same routines go on together: some outcome of the
labelled code stands for both after any number of steps. -/
lemma exists_matches_both (h : a.SameRoutines b) {x y : Executable} (hx : a.link = .ok x)
    (hy : b.link = .ok y) (sink : Sink) (n : Nat) {o : Outcome} {o₁ o₂ : Machine.Outcome}
    (h₁ : o.Matches a o₁) (h₂ : o.Matches b o₂) (hsound₁ : o₁.Sound x) (hsound₂ : o₂.Sound y) :
    ∃ o' : Outcome, o'.Matches a (Machine.after x sink n o₁) ∧
      o'.Matches b (Machine.after y sink n o₂) := by
  induction n generalizing o o₁ o₂ with
  | zero => exact ⟨o, h₁, h₂⟩
  | succ n ih =>
    cases o₁ with
    | running t₁ =>
      cases o₂ with
      | running t₂ =>
        cases o with
        | running s =>
          obtain ⟨-, u, -, hu, hl⟩ := exists_after_labels .machine sink s
          have hstep₁ := step_matches hx sink (hu a t₁ h₁) hsound₁ hl
          have hstep₂ := step_matches hy sink (hu b t₂ h₂) hsound₂ hl
          rw [step_eq_of_sameRoutines h] at hstep₂
          exact ih hstep₁ hstep₂ (Machine.step_sound hx sink hsound₁)
            (Machine.step_sound hy sink hsound₂)
        | _ => exact h₁.elim
      | _ => cases o <;> first | exact h₁.elim | exact h₂.elim
    | _ =>
      cases o₂ with
      | running t₂ => cases o <;> first | exact h₁.elim | exact h₂.elim
      | _ => exact ⟨o, h₁, h₂⟩

lemma exists_matches_both_of_start (h : a.SameRoutines b) {x y : Executable} (hx : a.link = .ok x)
    (hy : b.link = .ok y) (input : InputSource) (sink : Sink) (n : Nat) :
    ∃ o : Outcome, o.Matches a (Machine.after x sink n (Machine.start x input)) ∧
      o.Matches b (Machine.after y sink n (Machine.start y input)) := by
  have hstart : start .machine b input = start .machine a input := by
    unfold start State.start Frame.main
    rw [h.main]
  have hy' := start_matches hy input
  rw [hstart] at hy'
  exact exists_matches_both h hx hy sink n (start_matches hx input) hy'
    (Machine.start_sound x input) (Machine.start_sound y input)

end Symbolic

/-- Linked programs with the same routines do the same on every input and into every sink, step
for step. -/
lemma Assembly.SameRoutines.runs_eq {a b : Assembly} (h : a.SameRoutines b) {x y : Executable}
    (hx : a.link = .ok x) (hy : b.link = .ok y) (input : InputSource) (sink : Sink) (n : Nat) :
    Machine.run y input sink n = Machine.run x input sink n ∧
      Machine.printedAfter y input sink n = Machine.printedAfter x input sink n := by
  obtain ⟨o, h₁, h₂⟩ := Symbolic.exists_matches_both_of_start h hx hy input sink n
  constructor
  · rw [Machine.run_eq_run?, Machine.run_eq_run?, h₁.run?_eq, h₂.run?_eq]
  · exact congrArg Array.toList (h₂.printed_eq.trans h₁.printed_eq.symm)

lemma Program.compile_of_perm {p : Program} {config : Config} {a : Assembly}
    {ps : List Procedure} (h : p.procedures.Perm ps) (hc : p.compile config = .ok a) :
    { p with procedures := ps }.compile config =
      .ok { a with procedures := ps.map (·.compile config) } := by
  obtain ⟨⟨hnd, hbodies, hmain⟩, rfl⟩ := compile_eq_ok_iff.mp hc
  refine compile_eq_ok_iff.mpr ⟨⟨(h.map _).nodup_iff.mp hnd, fun q hq => ?_, hmain⟩, rfl⟩
  exact hbodies q (h.mem_iff.mpr hq)

/-- The order of the procedures does not matter. Labelled code that can be linked can be linked
with its procedures in any order, and the executables have the same runs: on every input and
into every sink, after each number of steps, both are still running or have ended in the same
way, with the same output. A program whose procedures are put in another order is compiled to
the same routines, in that order, and to the same main. -/
theorem procedure_order_irrelevant :
    (∀ (a : Assembly) (x : Executable) (ps : List Assembly.Routine),
      a.link = .ok x → a.procedures.Perm ps →
        ∃ y, { a with procedures := ps }.link = .ok y ∧
          ∀ input sink n, Machine.run y input sink n = Machine.run x input sink n ∧
            Machine.printedAfter y input sink n = Machine.printedAfter x input sink n) ∧
      ∀ (p : Program) (config : Config) (a : Assembly) (ps : List Procedure),
        p.compile config = .ok a → p.procedures.Perm ps →
          ∃ b, { p with procedures := ps }.compile config = .ok b ∧ b.main = a.main ∧
            a.procedures.Perm b.procedures ∧
              ∀ i j : Nat, ps[i]? = p.procedures[j]? → b.procedures[i]? = a.procedures[j]? := by
  constructor
  · intro a x ps hx hperm
    obtain ⟨y, hy⟩ := Assembly.exists_link_of_perm hperm ⟨x, hx⟩
    have hsame := Assembly.SameRoutines.of_perm hperm (link_eq_ok hx).1
    exact ⟨y, hy, hsame.runs_eq hx hy⟩
  · intro p config a ps hc hperm
    refine ⟨_, Program.compile_of_perm hperm hc, rfl, ?_⟩
    obtain ⟨-, rfl⟩ := Program.compile_eq_ok_iff.mp hc
    refine ⟨hperm.map _, fun i j hij => ?_⟩
    rw [List.getElem?_map, List.getElem?_map, hij]

/-- Whether a number is even, by two procedures that call each other. -/
def Program.parity : Program where
  source := "parity"
  procedures :=
    [⟨"even", ["n"], .ifElse (.apply .equal [.var "n", .literal 0]) (.ret (.literal 1))
        (.ret (.call "odd" [.apply .minus [.var "n", .literal 1]]))⟩,
      ⟨"odd", ["n"], .ifElse (.apply .equal [.var "n", .literal 0]) (.ret (.literal 0))
        (.ret (.call "even" [.apply .minus [.var "n", .literal 1]]))⟩]
  main := .print (.call "even" [.apply .input []])

theorem Program.parity_order_irrelevant :
    ∃ a b x y, Program.parity.compile .default = .ok a ∧ a.link = .ok x ∧
      { Program.parity with procedures := Program.parity.procedures.reverse }.compile .default =
        .ok b ∧ b.main = a.main ∧ b.procedures[0]? = a.procedures[1]? ∧
      { a with procedures := a.procedures.reverse }.link = .ok y ∧
      Machine.run x (.ofInput [.ok 3]) .endless 60 = some ⟨.halted, #[0]⟩ ∧
      Machine.run y (.ofInput [.ok 3]) .endless 60 = some ⟨.halted, #[0]⟩ := by
  obtain ⟨a, x, hc, hx, hrun⟩ : ∃ a x, Program.parity.compile .default = .ok a ∧ a.link = .ok x ∧
      Machine.run x (.ofInput [.ok 3]) .endless 60 = some ⟨.halted, #[0]⟩ :=
    ⟨_, _, rfl, rfl, by decide +kernel⟩
  obtain ⟨b, hb, hmain, -, hat⟩ := procedure_order_irrelevant.2 _ _ _ _ hc
    (List.reverse_perm Program.parity.procedures).symm
  obtain ⟨y, hy, hruns⟩ := procedure_order_irrelevant.1 _ _ _ hx
    (List.reverse_perm a.procedures).symm
  exact ⟨a, b, x, y, hc, hx, hb, hmain, hat 0 1 rfl, hy, hrun, (hruns _ _ _).1.trans hrun⟩

end Izmir
