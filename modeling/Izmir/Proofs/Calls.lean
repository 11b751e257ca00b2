import Izmir.Proofs.Configurations
import Izmir.Proofs.Labels

/-!
# Calls decide whether a program links

A program that compiles has nothing in it that could keep it from being linked, except its calls.
Linking comes upon them in the order of evaluation, the procedures first and main last, and
reports the first one that names no procedure or passes the wrong number of actuals.
-/

namespace Izmir

/-! ### The calls of a program -/

mutual

/-- The callee and the number of actuals of each call, in the order of evaluation. A call comes
after the calls in its own actuals. -/
def Expr.calls {ν : Type} : Expr ν → List (String × Nat)
  | .literal _ => []
  | .var _ => []
  | .ifElse c a b => c.calls ++ a.calls ++ b.calls
  | .apply _ es => Expr.callsAll es
  | .call f es => Expr.callsAll es ++ [(f, es.length)]

def Expr.callsAll {ν : Type} : List (Expr ν) → List (String × Nat)
  | [] => []
  | e :: es => e.calls ++ Expr.callsAll es

end

def Stmt.calls {ν : Type} : Stmt ν → List (String × Nat)
  | .skip => []
  | .block _ a => a.calls
  | .assign _ e => e.calls
  | .print e => e.calls
  | .seq a b => a.calls ++ b.calls
  | .ifElse c a b => c.calls ++ a.calls ++ b.calls
  | .ifThen c a => c.calls ++ a.calls
  | .whileDo c a => c.calls ++ a.calls
  | .repeatUntil a c => a.calls ++ c.calls
  | .ret e => e.calls
  | .call f es => Expr.callsAll es ++ [(f, es.length)]

/-- A call and the routine it stands in. -/
structure Call where
  routine : String
  callee : String
  actuals : Nat

def Stmt.callsIn {ν : Type} (routine : String) (st : Stmt ν) : List Call :=
  st.calls.map fun (f, n) => ⟨routine, f, n⟩

/-- The calls of the procedures in order, then those of main. -/
def Program.calls (p : Program) : List Call :=
  (p.procedures.flatMap fun q => q.body.callsIn q.name) ++ p.main.callsIn "main"

namespace Call

/-- The callee is a procedure with as many formals as there are actuals. -/
def Allowed (p : Program) (c : Call) : Prop :=
  ∃ q ∈ p.procedures, q.name = c.callee ∧ q.formals.length = c.actuals

/-- What is wrong with a call. -/
inductive Offends (p : Program) (c : Call) : LinkError → Prop where
  | unknownCallee (h : ∀ q ∈ p.procedures, q.name ≠ c.callee) :
      Offends p c (.unknownCallee c.routine c.callee)
  | arityMismatch {q : Procedure} (hq : q ∈ p.procedures) (hname : q.name = c.callee)
      (hcount : q.formals.length ≠ c.actuals) :
      Offends p c (.arityMismatch c.routine c.callee q.formals.length c.actuals)

end Call

lemma Expr.callsAll_listWithSlots {es : List (Expr String)} {s : Scope}
    (h : ∀ e ∈ es, ∀ s : Scope, (e.withSlots s).1.calls = e.calls) :
    Expr.callsAll (Expr.listWithSlots es s).1 = Expr.callsAll es := by
  induction es generalizing s with
  | nil => rfl
  | cons e es ih =>
    obtain ⟨he, hes⟩ := List.forall_mem_cons.mp h
    simp only [Expr.listWithSlots, Expr.callsAll, he, ih hes]

lemma Expr.calls_withSlots (e : Expr String) (s : Scope) : (e.withSlots s).1.calls = e.calls := by
  induction e generalizing s with
  | literal v => rfl
  | var x => rfl
  | ifElse c a b hc ha hb => simp only [Expr.withSlots, Expr.calls, hc, ha, hb]
  | apply p es hes => exact Expr.callsAll_listWithSlots hes
  | call f es hes =>
    simp only [Expr.withSlots, Expr.calls, Expr.callsAll_listWithSlots hes,
      Expr.listWithSlots_length]

lemma Stmt.calls_withSlots (st : Stmt String) (s : Scope) :
    (st.withSlots s).1.calls = st.calls := by
  induction st generalizing s with
  | skip => rfl
  | block x a ha => exact ha _
  | assign x e => exact e.calls_withSlots s
  | print e => exact e.calls_withSlots s
  | seq a b ha hb => simp only [Stmt.withSlots, Stmt.calls, ha, hb]
  | ifElse c a b ha hb => simp only [Stmt.withSlots, Stmt.calls, Expr.calls_withSlots, ha, hb]
  | ifThen c a ha => simp only [Stmt.withSlots, Stmt.calls, Expr.calls_withSlots, ha]
  | whileDo c a ha => simp only [Stmt.withSlots, Stmt.calls, Expr.calls_withSlots, ha]
  | repeatUntil a c ha => simp only [Stmt.withSlots, Stmt.calls, Expr.calls_withSlots, ha]
  | ret e => exact e.calls_withSlots s
  | call f es =>
    simp only [Stmt.withSlots, Stmt.calls, Expr.listWithSlots_length]
    rw [Expr.callsAll_listWithSlots fun e _ => e.calls_withSlots]

/-! ### Calls in the order of the code -/

def Mark.call? : Mark → Option (String × Nat)
  | .call f n => some (f, n)
  | _ => none

/-- The calls among some marks. -/
def markedCalls (ms : List Mark) : List (String × Nat) :=
  ms.filterMap Mark.call?

@[simp] lemma markedCalls_nil : markedCalls [] = [] := rfl

@[simp] lemma markedCalls_append (ms ns : List Mark) :
    markedCalls (ms ++ ns) = markedCalls ms ++ markedCalls ns :=
  List.filterMap_append

@[simp] lemma markedCalls_label (l : String) (ms : List Mark) :
    markedCalls (.label l :: ms) = markedCalls ms := rfl

@[simp] lemma markedCalls_target (l : String) (ms : List Mark) :
    markedCalls (.target l :: ms) = markedCalls ms := rfl

@[simp] lemma markedCalls_call (f : String) (n : Nat) (ms : List Mark) :
    markedCalls (.call f n :: ms) = (f, n) :: markedCalls ms := rfl

lemma Expr.markedCalls_marksAll {es : List (Expr Nat)} {label : Nat}
    (h : ∀ e ∈ es, ∀ label, markedCalls (e.marks label) = e.calls) :
    markedCalls (Expr.marksAll es label) = Expr.callsAll es := by
  induction es generalizing label with
  | nil => rfl
  | cons e es ih =>
    obtain ⟨he, hes⟩ := List.forall_mem_cons.mp h
    rw [Expr.marksAll, markedCalls_append, he, ih hes, Expr.callsAll]

lemma Expr.markedCalls_marks (e : Expr Nat) (label : Nat) :
    markedCalls (e.marks label) = e.calls := by
  induction e generalizing label with
  | literal v => rfl
  | var n => rfl
  | ifElse c a b hc ha hb => simp [Expr.marks, Expr.calls, hc, ha, hb]
  | apply p es hes => exact Expr.markedCalls_marksAll hes
  | call f es hes => simp [Expr.marks, Expr.calls, Expr.markedCalls_marksAll hes]

lemma Stmt.markedCalls_marks (st : Stmt Nat) (label : Nat) :
    markedCalls (st.marks label) = st.calls := by
  induction st generalizing label with
  | skip => rfl
  | block n a ha => exact ha label
  | assign n e => exact e.markedCalls_marks label
  | print e => exact e.markedCalls_marks label
  | seq a b ha hb => simp [Stmt.marks, Stmt.calls, ha, hb]
  | ifElse c a b ha hb => simp [Stmt.marks, Stmt.calls, Expr.markedCalls_marks, ha, hb]
  | ifThen c a ha => simp [Stmt.marks, Stmt.calls, Expr.markedCalls_marks, ha]
  | whileDo c a ha => simp [Stmt.marks, Stmt.calls, Expr.markedCalls_marks, ha]
  | repeatUntil a c ha => simp [Stmt.marks, Stmt.calls, Expr.markedCalls_marks, ha]
  | ret e => exact e.markedCalls_marks label
  | call f es =>
    simp [Stmt.marks, Stmt.calls, Expr.markedCalls_marksAll fun e _ => e.markedCalls_marks]

/-! ### Linking a routine -/

/-- A row of checks fails with the error of the first check that fails. -/
lemma forM_eq_error_iff {ε α : Type} {f : α → Except ε Unit} {as : List α} {e : ε} :
    forM as f = .error e ↔
      ∃ before a after, as = before ++ a :: after ∧ (∀ b ∈ before, f b = .ok ()) ∧
        f a = .error e := by
  constructor
  · intro h
    induction as with
    | nil => cases h
    | cons a as ih =>
      rw [List.forM_cons] at h
      cases ha : f a with
      | error e' =>
        rw [ha] at h
        cases h
        exact ⟨[], a, as, rfl, List.forall_mem_nil _, ha⟩
      | ok _ =>
        rw [ha] at h
        obtain ⟨before, b, after, rfl, hbefore, hb⟩ := ih h
        exact ⟨a :: before, b, after, rfl, List.forall_mem_cons.mpr ⟨ha, hbefore⟩, hb⟩
  · rintro ⟨before, a, after, rfl, hbefore, ha⟩
    rw [List.forM_append, forM_eq_ok_iff.mpr hbefore, List.forM_cons, ha]
    rfl

lemma forM_flatMap {ε α β : Type} (f : β → Except ε Unit) (g : α → List β) (as : List α) :
    forM (as.flatMap g) f = forM as fun a => forM (g a) f := by
  induction as with
  | nil => rfl
  | cons a as ih => rw [List.flatMap_cons, List.forM_append, ih, List.forM_cons]

namespace FailsLike

variable {ε α β : Type} {m : Except ε α} {n : Except ε β}

lemma ok_iff {R : ε → ε → Prop} (h : FailsLike R m n) : (∃ a, m = .ok a) ↔ ∃ b, n = .ok b := by
  cases h with
  | ok a b => exact ⟨fun _ => ⟨b, rfl⟩, fun _ => ⟨a, rfl⟩⟩
  | error _ => simp

lemma error_iff (h : FailsLike Eq m n) (e : ε) : m = .error e ↔ n = .error e := by
  cases h with
  | ok a b => simp
  | error he => simp [he]

end FailsLike

lemma mapM_failsLike_forM {ε α β : Type} {as : List α} {f : α → Except ε β}
    {g : α → Except ε Unit} {R : ε → ε → Prop}
    (h : ∀ a ∈ as, FailsLike R (f a) (g a)) : FailsLike R (as.mapM f) (forM as g) := by
  induction as with
  | nil => exact .ok _ _
  | cons a as ih =>
    obtain ⟨ha, has⟩ := List.forall_mem_cons.mp h
    rw [List.mapM_cons]
    exact ha.bind fun b _ => (ih has).bind_pure (b :: ·)

namespace Link

/-- Look up the callee of a call. -/
def checkCall (table : List (String × Nat × Nat)) (c : Call) : Except LinkError Unit :=
  (Context.mk c.routine [] table).resolve (.call c.callee c.actuals)

lemma checkCall_of_lookup_none {table : List (String × Nat × Nat)} {c : Call}
    (h : table.lookup c.callee = none) :
    checkCall table c = .error (.unknownCallee c.routine c.callee) := by
  simp only [checkCall, Context.resolve, Context.callee, h]
  rfl

lemma checkCall_of_lookup_some {table : List (String × Nat × Nat)} {c : Call} {i n : Nat}
    (h : table.lookup c.callee = some (i, n)) :
    checkCall table c =
      if n = c.actuals then .ok ()
      else .error (.arityMismatch c.routine c.callee n c.actuals) := by
  simp only [checkCall, Context.resolve, Context.callee, h]
  split <;> rfl

/-- When every label is found, only calls remain to be looked up. -/
lemma Context.forM_resolve {c : Context} {ms : List Mark}
    (h : ∀ l, .target l ∈ ms → c.resolve (.target l) = .ok ()) :
    forM ms c.resolve = forM (markedCalls ms) fun (f, n) => c.resolve (.call f n) := by
  induction ms with
  | nil => rfl
  | cons m ms ih =>
    have ih := ih fun l hl => h l (List.mem_cons_of_mem m hl)
    rw [List.forM_cons, ih]
    cases m with
    | label l => rfl
    | target l =>
      rw [h l List.mem_cons_self]
      rfl
    | call f n => rfl

/-- A routine whose code is well formed and defines its labels links unless one of its calls is
wrong. -/
lemma routine_failsLike_calls {code : List Line} (hlabels : (Assembly.labels code).Nodup)
    (hclosed : ClosedMarks (outline code)) (hcode : ∀ line ∈ code, line.WellFormed)
    (table : List (String × Nat × Nat)) (name : RoutineName) (arity : Nat) :
    FailsLike Eq (routine table ⟨name, arity, code⟩)
      (forM (markedCalls (outline code)) fun (f, n) => checkCall table ⟨name.text, f, n⟩) := by
  have htargets (l : String) (hl : Mark.target l ∈ outline code) :
      (contextOf table name code).resolve (.target l) = .ok () := by
    have hmem : l ∈ Assembly.labels code := by
      rw [labels_eq_definedLabels, mem_definedLabels]
      exact hclosed l hl
    rw [resolve_target, if_pos hmem]
  have hinstrs := (contextOf table name code).mapM_instr_failsLike hcode
  rw [Context.forM_resolve htargets] at hinstrs
  unfold routine
  simp only [(firstRepeat?_eq_none_iff _).mpr hlabels]
  exact hinstrs.bind_pure _

end Link

/-! ### Linking a program -/

/-- The code of a body links unless one of its calls is wrong. -/
lemma EmittedFor.routine_failsLike_calls {b : Backend} {N : Nat} {body : Stmt String}
    {scope : Scope} {code : List Line} (h : EmittedFor b N (· < N) (body.withSlots scope).1 code)
    (hN : N < UInt64.size) (table : List (String × Nat × Nat)) (name : RoutineName)
    (arity : Nat) :
    FailsLike Eq (Link.routine table ⟨name, arity, code⟩)
      (forM (body.callsIn name.text) (Link.checkCall table)) := by
  have hlabels : (Assembly.labels code).Nodup := by
    rw [labels_eq_definedLabels, h.outline_eq]
    exact (Stmt.numbered_marks _ 0).distinct
  have hclosed : ClosedMarks (outline code) := by
    rw [h.outline_eq]
    exact Stmt.closed_marks _ 0
  have hcode := h.wellFormed hN fun n hn => by omega
  have hcalls := Link.routine_failsLike_calls hlabels hclosed hcode table name arity
  rw [h.outline_eq, Stmt.markedCalls_marks, Stmt.calls_withSlots] at hcalls
  rwa [Stmt.callsIn, List.forM_map]

namespace Program

variable {p : Program} {config : Config} {a : Assembly}

lemma link_failsLike_calls (hc : p.compile config = .ok a) (hsize : p.size < UInt64.size) :
    FailsLike Eq a.link (forM p.calls (Link.checkCall p.table)) := by
  have htable := table_compile hc
  obtain ⟨⟨hnames, -⟩, rfl⟩ := compile_eq_ok_iff.mp hc
  rw [Assembly.link_eq, htable, map_name_compile, (firstRepeat?_eq_none_iff _).mpr hnames, calls,
    List.forM_append, forM_flatMap]
  refine FailsLike.bind ?_ fun _ _ => ?_
  · rw [List.mapM_map]
    refine mapM_failsLike_forM fun q hq => ?_
    exact (emittedFor_procedure hc hq).routine_failsLike_calls hsize p.table (.procedure q.name)
      q.arity
  · exact ((emittedFor_main hc).routine_failsLike_calls hsize p.table .main 0).bind_pure _

lemma exists_of_lookup_table {f : String} {i n : Nat} (h : p.table.lookup f = some (i, n)) :
    ∃ q ∈ p.procedures, q.name = f ∧ q.formals.length = n := by
  obtain ⟨before, after, htable, -⟩ := List.lookup_eq_some_iff.mp h
  have hmem : (f, i, n) ∈ p.table := by simp [htable]
  obtain ⟨⟨q, j⟩, hq, heq⟩ := List.mem_map.mp hmem
  cases heq
  exact ⟨q, List.fst_mem_of_mem_zipIdx hq, rfl, rfl⟩

/-- Looking up a call finds out what is wrong with it. -/
lemma checkCall_spec (hnames : (p.procedures.map (·.name)).Nodup) (c : Call) :
    (Link.checkCall p.table c = .ok () ↔ c.Allowed p) ∧
      ∀ e, Link.checkCall p.table c = .error e ↔ c.Offends p e := by
  -- No two procedures share a name, so the one that is found is the one that is meant.
  have hunique {q q' : Procedure} (hq : q ∈ p.procedures) (hq' : q' ∈ p.procedures)
      (h : q.name = q'.name) : q = q' := List.inj_on_of_nodup_map hnames hq hq' h
  cases hf : p.table.lookup c.callee with
  | none =>
    have hunknown : ∀ q ∈ p.procedures, q.name ≠ c.callee := lookup_zipIdx_eq_none_iff.mp hf
    rw [Link.checkCall_of_lookup_none hf]
    simp only [reduceCtorEq, false_iff]
    refine ⟨?_, fun e => ⟨?_, ?_⟩⟩
    · rintro ⟨q, hq, hname, -⟩
      exact hunknown q hq hname
    · rintro ⟨⟩
      exact .unknownCallee hunknown
    · rintro (_ | ⟨hq, hname, -⟩)
      · rfl
      · exact absurd hname (hunknown _ hq)
  | some entry =>
    obtain ⟨i, n⟩ := entry
    obtain ⟨q, hq, hname, rfl⟩ := exists_of_lookup_table hf
    have hoffends {e : LinkError} (he : c.Offends p e) : q.formals.length ≠ c.actuals ∧
        e = .arityMismatch c.routine c.callee q.formals.length c.actuals := by
      rcases he with hunknown | ⟨hq', hname', hcount⟩
      · exact absurd hname (hunknown q hq)
      · obtain rfl := hunique hq hq' (hname.trans hname'.symm)
        exact ⟨hcount, rfl⟩
    rw [Link.checkCall_of_lookup_some hf]
    by_cases hcount : q.formals.length = c.actuals
    · simp only [if_pos hcount, true_iff, reduceCtorEq, false_iff]
      exact ⟨⟨q, hq, hname, hcount⟩, fun e he => (hoffends he).1 hcount⟩
    · simp only [if_neg hcount, reduceCtorEq, false_iff]
      refine ⟨?_, fun e => ⟨?_, fun he => congrArg Except.error (hoffends he).2.symm⟩⟩
      · rintro ⟨q', hq', hname', hcount'⟩
        obtain rfl := hunique hq hq' (hname.trans hname'.symm)
        exact hcount hcount'
      · rintro ⟨⟩
        exact .arityMismatch hq hname hcount

/-- A program that compiles links exactly if all its calls are allowed, and otherwise fails with
what is wrong with the first call that is not. There is no other reason to fail; slots and
registers are counted with 64 bits, and every program in memory has fewer nodes than that. -/
theorem link_compiled_iff_calls_allowed (hc : p.compile config = .ok a)
    (hsize : p.size < UInt64.size) :
    ((∃ x, a.link = .ok x) ↔ ∀ c ∈ p.calls, c.Allowed p) ∧
      ∀ e, a.link = .error e ↔
        ∃ before c after, p.calls = before ++ c :: after ∧ (∀ b ∈ before, b.Allowed p) ∧
          c.Offends p e := by
  obtain ⟨⟨hnames, -⟩, -⟩ := compile_eq_ok_iff.mp hc
  have hlink := link_failsLike_calls hc hsize
  have hspec := checkCall_spec hnames
  constructor
  · rw [hlink.ok_iff]
    constructor
    · rintro ⟨_, h⟩ c hmem
      exact (hspec c).1.mp (forM_eq_ok_iff.mp h c hmem)
    · intro h
      exact ⟨(), forM_eq_ok_iff.mpr fun c hmem => (hspec c).1.mpr (h c hmem)⟩
  · intro e
    rw [hlink.error_iff, forM_eq_error_iff]
    simp only [(hspec _).1, (hspec _).2]

/-- A procedure whose calls are in order, some of them never reached, and a main with two wrong
calls, one of them among the actuals of the other. -/
def tangle : Program where
  source := "tangle"
  procedures :=
    [⟨"f", ["x"], .seq (.ret (.call "f" [.var "x"])) (.call "f" [.call "f" [.literal 0]])⟩]
  main := .whileDo (.literal 0) (.print (.call "g" [.call "f" [], .literal 1]))

theorem tangle_link_iff_calls_allowed :
    ∃ a, tangle.compile .default = .ok a ∧ tangle.size < UInt64.size ∧
      (¬∃ x, a.link = .ok x) ∧ a.link = .error (.arityMismatch "main" "f" 1 0) := by
  obtain ⟨a, hc⟩ : ∃ a, tangle.compile .default = .ok a := ⟨_, rfl⟩
  have hsize : tangle.size < UInt64.size := by decide
  obtain ⟨hok, herror⟩ := link_compiled_iff_calls_allowed hc hsize
  have hallowed : Call.Allowed tangle ⟨"f", "f", 1⟩ := ⟨_, List.mem_cons_self, rfl, rfl⟩
  have hoffends : Call.Offends tangle ⟨"main", "f", 0⟩ (.arityMismatch "main" "f" 1 0) :=
    have hmem : tangle.procedures.head (List.cons_ne_nil _ _) ∈ tangle.procedures := List.head_mem _
    .arityMismatch hmem rfl (Nat.succ_ne_zero 0)
  refine ⟨a, hc, hsize, ?_, (herror _).mpr ?_⟩
  · rw [hok]
    intro h
    obtain ⟨q, hq, hname, -⟩ := h ⟨"main", "g", 2⟩ (by
      simp [calls, tangle, Stmt.callsIn, Stmt.calls, Expr.calls, Expr.callsAll])
    rw [List.mem_singleton.mp hq] at hname
    exact absurd hname (by decide)
  · refine ⟨[⟨"f", "f", 1⟩, ⟨"f", "f", 1⟩, ⟨"f", "f", 1⟩], ⟨"main", "f", 0⟩, [⟨"main", "g", 2⟩],
      rfl, ?_, hoffends⟩
    simpa using hallowed

end Program

end Izmir
