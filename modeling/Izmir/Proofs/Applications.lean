import Izmir.Proofs.Calls

/-!
# Which programs compile

A program compiles unless two of its procedures share a name, or a primitive stands somewhere in
it with the wrong number of operands. Applications are counted in the order of the text and the
first wrong one is reported. An error names the primitive that was counted: of a comparison that
is folded into a branch this is the reverse, which the program does not contain.
-/

namespace Izmir

/-! ### Expressions inside programs -/

/-- An expression is another one or stands somewhere in it. -/
inductive Expr.OccursIn {ν : Type} (x : Expr ν) : Expr ν → Prop where
  | self : x.OccursIn x
  | condition {c a b : Expr ν} : x.OccursIn c → x.OccursIn (.ifElse c a b)
  | thenBranch {c a b : Expr ν} : x.OccursIn a → x.OccursIn (.ifElse c a b)
  | elseBranch {c a b : Expr ν} : x.OccursIn b → x.OccursIn (.ifElse c a b)
  | operand {p : Primitive} {es : List (Expr ν)} {e : Expr ν} :
      e ∈ es → x.OccursIn e → x.OccursIn (.apply p es)
  | actual {f : String} {es : List (Expr ν)} {e : Expr ν} :
      e ∈ es → x.OccursIn e → x.OccursIn (.call f es)

/-- An expression stands somewhere in a statement. -/
def Stmt.Contains {ν : Type} (x : Expr ν) : Stmt ν → Prop
  | .skip => False
  | .block _ a => a.Contains x
  | .assign _ e => x.OccursIn e
  | .print e => x.OccursIn e
  | .seq a b => a.Contains x ∨ b.Contains x
  | .ifElse c a b => x.OccursIn c ∨ a.Contains x ∨ b.Contains x
  | .ifThen c a => x.OccursIn c ∨ a.Contains x
  | .whileDo c a => x.OccursIn c ∨ a.Contains x
  | .repeatUntil a c => a.Contains x ∨ x.OccursIn c
  | .ret e => x.OccursIn e
  | .call _ es => ∃ e ∈ es, x.OccursIn e

/-- An expression stands somewhere in the body of a procedure or in main. -/
def Program.Contains (p : Program) (x : Expr String) : Prop :=
  (∃ q ∈ p.procedures, q.body.Contains x) ∨ p.main.Contains x

/-- Somewhere in a program, a primitive is applied to more or fewer operands than it takes. -/
def Program.Misapplies (p : Program) : Prop :=
  ∃ q es, p.Contains (.apply q es) ∧ es.length ≠ q.arity

/-! ### Applications in the order of the text -/

/-- A primitive in a program. -/
structure Application where
  primitive : Primitive
  /-- The number of its operands. -/
  operands : Nat
  /-- Whether its value is what a conditional or a loop tests. -/
  condition : Bool

namespace Application

def Fits (a : Application) : Prop :=
  a.operands = a.primitive.arity

/-- The error for an application that does not fit, by its own name. -/
def complaint (a : Application) : String :=
  "unsupported construct: `" ++ a.primitive.name ++ "` applied to " ++
    String.ofList (Text.Decimal.ofNat a.operands) ++ " operand(s), expects " ++
    String.ofList (Text.Decimal.ofNat a.primitive.arity)

/-- The application that is counted: a comparison that is folded has been reversed. -/
def counted (folding : Bool) (a : Application) : Application :=
  { a with primitive := a.primitive.counted folding a.condition }

/-- Count the operands of one application. -/
def check (folding : Bool) (a : Application) : Except CompileError Unit :=
  if a.operands = a.primitive.arity then .ok ()
  else .error (.operandCount (a.counted folding).primitive a.operands)

end Application

mutual

/-- The applications in an expression that is used as a condition or for its value. An
application comes before those in its operands. -/
def Expr.applications {ν : Type} (condition : Bool) : Expr ν → List Application
  | .literal _ => []
  | .var _ => []
  | .ifElse c a b => c.applications true ++ a.applications false ++ b.applications false
  | .apply p es => ⟨p, es.length, condition⟩ :: Expr.applicationsAll es
  | .call _ es => Expr.applicationsAll es

def Expr.applicationsAll {ν : Type} : List (Expr ν) → List Application
  | [] => []
  | e :: es => e.applications false ++ Expr.applicationsAll es

end

def Stmt.applications {ν : Type} : Stmt ν → List Application
  | .skip => []
  | .block _ a => a.applications
  | .assign _ e => e.applications false
  | .print e => e.applications false
  | .seq a b => a.applications ++ b.applications
  | .ifElse c a b => c.applications true ++ a.applications ++ b.applications
  | .ifThen c a => c.applications true ++ a.applications
  | .whileDo c a => c.applications true ++ a.applications
  | .repeatUntil a c => a.applications ++ c.applications true
  | .ret e => e.applications false
  | .call _ es => Expr.applicationsAll es

/-- The applications in the procedures in order, then those in main. -/
def Program.applications (p : Program) : List Application :=
  (p.procedures.flatMap (·.body.applications)) ++ p.main.applications

/-! ### Applications are the occurrences of primitives -/

section

variable {ν : Type} {a : Application} {p : Primitive} {es : List (Expr ν)}

lemma Expr.mem_applicationsAll :
    a ∈ Expr.applicationsAll es ↔ ∃ e ∈ es, a ∈ e.applications false := by
  induction es with
  | nil => simp [Expr.applicationsAll]
  | cons e es ih => simp [Expr.applicationsAll, ih]

lemma Expr.OccursIn.exists_application {e : Expr ν} (h : (Expr.apply p es).OccursIn e)
    (condition : Bool) : ∃ c, ⟨p, es.length, c⟩ ∈ e.applications condition := by
  induction h generalizing condition with
  | self => exact ⟨condition, List.mem_cons_self⟩
  | condition _ ih =>
    obtain ⟨c, hc⟩ := ih true
    exact ⟨c, by simp [Expr.applications, hc]⟩
  | thenBranch _ ih =>
    obtain ⟨c, hc⟩ := ih false
    exact ⟨c, by simp [Expr.applications, hc]⟩
  | elseBranch _ ih =>
    obtain ⟨c, hc⟩ := ih false
    exact ⟨c, by simp [Expr.applications, hc]⟩
  | operand he _ ih =>
    obtain ⟨c, hc⟩ := ih false
    exact ⟨c, List.mem_cons_of_mem _ (Expr.mem_applicationsAll.mpr ⟨_, he, hc⟩)⟩
  | actual he _ ih =>
    obtain ⟨c, hc⟩ := ih false
    exact ⟨c, Expr.mem_applicationsAll.mpr ⟨_, he, hc⟩⟩

lemma Expr.occursIn_of_mem_applications {e : Expr ν} {condition : Bool}
    (h : a ∈ e.applications condition) :
    ∃ es, (Expr.apply a.primitive es).OccursIn e ∧ es.length = a.operands := by
  induction e generalizing condition with
  | literal v => cases h
  | var x => cases h
  | ifElse c a b hc ha hb =>
    simp only [Expr.applications, List.mem_append] at h
    rcases h with (h | h) | h
    · obtain ⟨es, hes, hlen⟩ := hc h
      exact ⟨es, .condition hes, hlen⟩
    · obtain ⟨es, hes, hlen⟩ := ha h
      exact ⟨es, .thenBranch hes, hlen⟩
    · obtain ⟨es, hes, hlen⟩ := hb h
      exact ⟨es, .elseBranch hes, hlen⟩
  | apply q fs hfs =>
    rcases List.mem_cons.mp h with rfl | h
    · exact ⟨fs, .self, rfl⟩
    · obtain ⟨e, he, h⟩ := Expr.mem_applicationsAll.mp h
      obtain ⟨es, hes, hlen⟩ := hfs e he h
      exact ⟨es, .operand he hes, hlen⟩
  | call f fs hfs =>
    obtain ⟨e, he, h⟩ := Expr.mem_applicationsAll.mp h
    obtain ⟨es, hes, hlen⟩ := hfs e he h
    exact ⟨es, .actual he hes, hlen⟩

/-- The application of a primitive to some number of operands stands in an expression if and only
if it is among its applications. -/
lemma Expr.exists_application_iff {k : Nat} (e : Expr ν) (condition : Bool) :
    (∃ c, ⟨p, k, c⟩ ∈ e.applications condition) ↔
      ∃ es, (Expr.apply p es).OccursIn e ∧ es.length = k := by
  constructor
  · rintro ⟨c, hc⟩
    exact Expr.occursIn_of_mem_applications hc
  · rintro ⟨es, hes, rfl⟩
    exact hes.exists_application condition

lemma Stmt.exists_application_iff {k : Nat} (st : Stmt ν) :
    (∃ c, ⟨p, k, c⟩ ∈ st.applications) ↔
      ∃ es, st.Contains (.apply p es) ∧ es.length = k := by
  induction st with
  | skip => simp [Stmt.applications, Stmt.Contains]
  | block x a ha => exact ha
  | assign x e => exact e.exists_application_iff false
  | print e => exact e.exists_application_iff false
  | seq a b ha hb =>
    simp only [Stmt.applications, Stmt.Contains, List.mem_append, exists_or, or_and_right, ha, hb]
  | ifElse c a b ha hb =>
    simp only [Stmt.applications, Stmt.Contains, List.mem_append, exists_or, or_and_right,
      Expr.exists_application_iff, ha, hb, or_assoc]
  | ifThen c a ha =>
    simp only [Stmt.applications, Stmt.Contains, List.mem_append, exists_or, or_and_right,
      Expr.exists_application_iff, ha]
  | whileDo c a ha =>
    simp only [Stmt.applications, Stmt.Contains, List.mem_append, exists_or, or_and_right,
      Expr.exists_application_iff, ha]
  | repeatUntil a c ha =>
    simp only [Stmt.applications, Stmt.Contains, List.mem_append, exists_or, or_and_right,
      Expr.exists_application_iff, ha]
  | ret e => exact e.exists_application_iff false
  | call f fs =>
    simp only [Stmt.applications, Stmt.Contains, Expr.mem_applicationsAll]
    constructor
    · rintro ⟨c, e, he, hc⟩
      obtain ⟨es, hes, hlen⟩ := Expr.occursIn_of_mem_applications hc
      exact ⟨es, ⟨e, he, hes⟩, hlen⟩
    · rintro ⟨es, ⟨e, he, hes⟩, rfl⟩
      obtain ⟨c, hc⟩ := hes.exists_application false
      exact ⟨c, e, he, hc⟩

end

lemma Program.exists_application_iff {p : Program} {q : Primitive} {k : Nat} :
    (∃ c, ⟨q, k, c⟩ ∈ p.applications) ↔ ∃ es, p.Contains (.apply q es) ∧ es.length = k := by
  simp only [applications, Contains, List.mem_append, List.mem_flatMap, exists_or, or_and_right,
    Stmt.exists_application_iff]
  refine or_congr ?_ Iff.rfl
  constructor
  · rintro ⟨c, r, hr, hc⟩
    obtain ⟨es, hes, hlen⟩ := (Stmt.exists_application_iff r.body).mp ⟨c, hc⟩
    exact ⟨es, ⟨r, hr, hes⟩, hlen⟩
  · rintro ⟨es, ⟨r, hr, hes⟩, hlen⟩
    obtain ⟨c, hc⟩ := (Stmt.exists_application_iff r.body).mpr ⟨es, hes, hlen⟩
    exact ⟨c, r, hr, hc⟩

lemma Program.misapplies_iff {p : Program} : p.Misapplies ↔ ∃ a ∈ p.applications, ¬a.Fits := by
  constructor
  · rintro ⟨q, es, hes, hlen⟩
    obtain ⟨c, hc⟩ := exists_application_iff.mpr ⟨es, hes, rfl⟩
    exact ⟨⟨q, es.length, c⟩, hc, hlen⟩
  · rintro ⟨⟨q, k, c⟩, hc, hfits⟩
    obtain ⟨es, hes, rfl⟩ := exists_application_iff.mp ⟨c, hc⟩
    exact ⟨q, es, hes, hfits⟩

/-! ### Checking counts the applications one by one -/

section

variable {ν : Type} (folding : Bool)

lemma Expr.checkAll_eq_forM {es : List (Expr ν)}
    (h : ∀ e ∈ es, ∀ condition,
      e.check folding condition = forM (e.applications condition) (Application.check folding)) :
    Expr.checkAll folding es = forM (Expr.applicationsAll es) (Application.check folding) := by
  induction es with
  | nil => rfl
  | cons e es ih =>
    obtain ⟨he, hes⟩ := List.forall_mem_cons.mp h
    rw [Expr.checkAll, Expr.applicationsAll, List.forM_append, he false, ih hes]

lemma Expr.check_eq_forM (e : Expr ν) (condition : Bool) :
    e.check folding condition = forM (e.applications condition) (Application.check folding) := by
  induction e generalizing condition with
  | literal v => rfl
  | var x => rfl
  | ifElse c a b hc ha hb =>
    rw [Expr.check, Expr.applications, List.append_assoc, List.forM_append, List.forM_append, hc,
      ha, hb]
  | apply p es hes =>
    rw [Expr.check, Primitive.arity_counted, Expr.checkAll_eq_forM folding hes]
    change _ = (Application.check folding ⟨p, es.length, condition⟩ >>= fun _ =>
      forM (Expr.applicationsAll es) (Application.check folding))
    unfold Application.check
    split <;> rfl
  | call f es hes => exact Expr.checkAll_eq_forM folding hes

lemma Stmt.check_eq_forM (st : Stmt ν) :
    st.check folding = forM st.applications (Application.check folding) := by
  induction st with
  | skip => rfl
  | block x a ha => exact ha
  | assign x e => exact e.check_eq_forM folding false
  | print e => exact e.check_eq_forM folding false
  | seq a b ha hb => rw [Stmt.check, Stmt.applications, List.forM_append, ha, hb]
  | ifElse c a b ha hb =>
    rw [Stmt.check, Stmt.applications, List.append_assoc, List.forM_append, List.forM_append,
      Expr.check_eq_forM, ha, hb]
  | ifThen c a ha => rw [Stmt.check, Stmt.applications, List.forM_append, Expr.check_eq_forM, ha]
  | whileDo c a ha => rw [Stmt.check, Stmt.applications, List.forM_append, Expr.check_eq_forM, ha]
  | repeatUntil a c ha =>
    rw [Stmt.check, Stmt.applications, List.forM_append, Expr.check_eq_forM, ha]
  | ret e => exact e.check_eq_forM folding false
  | call f es => exact Expr.checkAll_eq_forM folding fun e _ => e.check_eq_forM folding

end

namespace Application

variable {folding : Bool} {a : Application}

lemma check_eq_ok_iff : a.check folding = .ok () ↔ a.Fits := by
  unfold check Fits
  split <;> simp_all

lemma check_eq_error_iff {e : CompileError} :
    a.check folding = .error e ↔
      ¬a.Fits ∧ e = .operandCount (a.counted folding).primitive a.operands := by
  unfold check Fits
  split
  · simp_all
  · simp_all [eq_comm]

end Application

namespace Program

variable {p : Program} {config : Config}

lemma check_eq_forM (p : Program) (folding : Bool) :
    p.check folding =
      match firstRepeat? (p.procedures.map (·.name)) with
      | some n => .error (.multipleDefinitions n)
      | none => forM p.applications (Application.check folding) := by
  rw [check_eq]
  cases firstRepeat? (p.procedures.map (·.name)) with
  | some n => rfl
  | none =>
    simp only [applications, List.forM_append, forM_flatMap, Stmt.check_eq_forM]

lemma compile_eq_error_iff {e : CompileError} :
    p.compile config = .error e ↔ p.check config.folding = .error e := by
  unfold compile
  cases p.check config.folding <;> simp [bind, Except.bind]

lemma compile_eq_multipleDefinitions_iff {n : String} :
    p.compile config = .error (.multipleDefinitions n) ↔
      firstRepeat? (p.procedures.map (·.name)) = some n := by
  rw [compile_eq_error_iff, check_eq_forM]
  cases firstRepeat? (p.procedures.map (·.name)) with
  | some m => simp
  | none =>
    simp only [forM_eq_error_iff, Application.check_eq_error_iff, reduceCtorEq, and_false,
      exists_false]

/-- A primitive is named by the error for the first application that does not fit. -/
lemma compile_eq_operandCount_iff {q : Primitive} {k : Nat} :
    p.compile config = .error (.operandCount q k) ↔
      (p.procedures.map (·.name)).Nodup ∧
        ∃ (before : List Application) (a : Application) (after : List Application),
          p.applications = before ++ a :: after ∧ (∀ b ∈ before, b.Fits) ∧ ¬a.Fits ∧
            q = (a.counted config.folding).primitive ∧ k = a.operands := by
  rw [compile_eq_error_iff, check_eq_forM, ← firstRepeat?_eq_none_iff]
  cases firstRepeat? (p.procedures.map (·.name)) with
  | some m => simp
  | none =>
    simp only [forM_eq_error_iff, Application.check_eq_ok_iff, Application.check_eq_error_iff,
      CompileError.operandCount.injEq, true_and]

/-- Where something does not fit there is a first application that does not. -/
lemma exists_first_misfit (h : p.Misapplies) :
    ∃ (before : List Application) (a : Application) (after : List Application),
      p.applications = before ++ a :: after ∧ (∀ b ∈ before, b.Fits) ∧ ¬a.Fits := by
  obtain ⟨a, hmem, ha⟩ := misapplies_iff.mp h
  cases hcheck : forM p.applications (Application.check false) with
  | ok _ => exact absurd (Application.check_eq_ok_iff.mp (forM_eq_ok_iff.mp hcheck a hmem)) ha
  | error e =>
    obtain ⟨before, b, after, happ, hbefore, hb⟩ := forM_eq_error_iff.mp hcheck
    exact ⟨before, b, after, happ, fun c hc => Application.check_eq_ok_iff.mp (hbefore c hc),
      (Application.check_eq_error_iff.mp hb).1⟩

lemma exists_compile_eq_operandCount_iff :
    (∃ q k, p.compile config = .error (.operandCount q k)) ↔
      (p.procedures.map (·.name)).Nodup ∧ p.Misapplies := by
  simp only [compile_eq_operandCount_iff]
  constructor
  · rintro ⟨q, k, hnames, before, a, after, happ, -, ha, -, -⟩
    exact ⟨hnames, misapplies_iff.mpr ⟨a, by simp [happ], ha⟩⟩
  · rintro ⟨hnames, hwrong⟩
    obtain ⟨before, a, after, happ, hbefore, ha⟩ := exists_first_misfit hwrong
    exact ⟨_, _, hnames, before, a, after, happ, hbefore, ha, rfl, rfl⟩

lemma exists_compile_eq_multipleDefinitions_iff :
    (∃ n, p.compile config = .error (.multipleDefinitions n)) ↔
      ¬(p.procedures.map (·.name)).Nodup := by
  simp only [compile_eq_multipleDefinitions_iff, ← firstRepeat?_eq_none_iff,
    ← Option.isSome_iff_exists, ← Option.isSome_iff_ne_none]

/-- There is no third reason to be refused. -/
lemma exists_compile_eq_ok_iff :
    (∃ a, p.compile config = .ok a) ↔ (p.procedures.map (·.name)).Nodup ∧ ¬p.Misapplies := by
  constructor
  · rintro ⟨a, ha⟩
    have hnames := (compile_eq_ok_iff.mp ha).1.1
    refine ⟨hnames, fun hwrong => ?_⟩
    obtain ⟨q, k, herror⟩ := exists_compile_eq_operandCount_iff.mpr ⟨hnames, hwrong⟩
    rw [ha] at herror
    cases herror
  · rintro ⟨hnames, hfits⟩
    cases hc : p.compile config with
    | ok a => exact ⟨a, rfl⟩
    | error e =>
      cases e with
      | multipleDefinitions n =>
        exact absurd hnames (exists_compile_eq_multipleDefinitions_iff.mp ⟨n, hc⟩)
      | operandCount q k =>
        exact absurd (exists_compile_eq_operandCount_iff.mp ⟨q, k, hc⟩).2 hfits

/-- Every program has one of three outcomes, the same in every configuration. It is refused for
the first procedure that has the name of an earlier one; if there is none, it is refused exactly
if some primitive in it, wherever it stands, has the wrong number of operands; and otherwise it
becomes one routine for each procedure, in order and with as many arguments as there are formals,
and main. -/
theorem compile_outcome (p : Program) (config : Config) :
    (∀ n, p.compile config = .error (.multipleDefinitions n) ↔
        ∃ (before : List Procedure) (q : Procedure) (after : List Procedure),
          p.procedures = before ++ q :: after ∧ q.name = n ∧
            (before.map (·.name)).Nodup ∧ n ∈ before.map (·.name)) ∧
      ((∃ n, p.compile config = .error (.multipleDefinitions n)) ↔
        ¬(p.procedures.map (·.name)).Nodup) ∧
      ((∃ q k, p.compile config = .error (.operandCount q k)) ↔
        (p.procedures.map (·.name)).Nodup ∧ p.Misapplies) ∧
      ((∃ a, p.compile config = .ok a ∧ a.source = p.source ∧
          List.Forall₂ (fun q r => r.name = .procedure q.name ∧ r.arity = q.formals.length ∧
            r.code = (q.compile config).code) p.procedures a.procedures ∧
          a.main = .main (p.main.compileMain config)) ↔
        (p.procedures.map (·.name)).Nodup ∧ ¬p.Misapplies) := by
  refine ⟨fun n => ?_, exists_compile_eq_multipleDefinitions_iff,
    exists_compile_eq_operandCount_iff, ?_⟩
  · rw [compile_eq_multipleDefinitions_iff, firstRepeat?_eq_some_iff]
    constructor
    · rintro ⟨before, after, heq, hnodup, hmem⟩
      obtain ⟨qs, rest, hqs, rfl, hrest⟩ := List.map_eq_append_iff.mp heq
      obtain ⟨q, rest, rfl, hq, -⟩ := List.map_eq_cons_iff.mp hrest
      exact ⟨qs, q, rest, hqs, hq, hnodup, hmem⟩
    · rintro ⟨qs, q, rest, hqs, rfl, hnodup, hmem⟩
      exact ⟨qs.map (·.name), rest.map (·.name), by simp [hqs], hnodup, hmem⟩
  · rw [← @exists_compile_eq_ok_iff p config]
    constructor
    · rintro ⟨a, ha, -⟩
      exact ⟨a, ha⟩
    · rintro ⟨a, ha⟩
      refine ⟨a, ha, ?_⟩
      obtain ⟨-, rfl⟩ := compile_eq_ok_iff.mp ha
      refine ⟨rfl, ?_, rfl⟩
      rw [List.forall₂_map_right_iff, List.forall₂_same]
      exact fun q _ => ⟨rfl, rfl, rfl⟩

end Program

/-! ### What an error says -/

lemma Primitive.ofName?_name (p : Primitive) : ofName? p.name = some p := by
  cases p <;> decide +kernel

lemma Primitive.eq_of_name_eq {p q : Primitive} (h : p.name = q.name) : p = q := by
  rw [← Option.some_inj, ← ofName?_name p, ← ofName?_name q, h]

lemma Primitive.counted_eq_self_iff {folding condition : Bool} {p : Primitive} :
    p.counted folding condition = p ↔
      ¬(folding = true ∧ condition = true ∧ p.isComparison = true) := by
  unfold counted isComparison
  cases p <;> simp [reverse?]

namespace Application

lemma text_eq_iff_name_eq (a b c d e m n : String) :
    a ++ m ++ b ++ c ++ d ++ e = a ++ n ++ b ++ c ++ d ++ e ↔ m = n := by
  simp only [String.append_left_inj, String.append_right_inj]

lemma message_operandCount (folding : Bool) (a : Application) :
    (CompileError.operandCount (a.counted folding).primitive a.operands).message =
      (a.counted folding).complaint :=
  rfl

/-- Folding changes what an error says exactly if the wrong application is a comparison and is
tested as a condition. -/
lemma complaint_counted_eq_iff (folding : Bool) (a : Application) :
    (a.counted folding).complaint = a.complaint ↔
      ¬(folding = true ∧ a.condition = true ∧ a.primitive.isComparison = true) := by
  have harity : (a.counted folding).primitive.arity = a.primitive.arity :=
    a.primitive.arity_counted folding a.condition
  have hname : (a.counted folding).complaint = a.complaint ↔
      (a.counted folding).primitive.name = a.primitive.name := by
    unfold complaint
    rw [harity]
    exact text_eq_iff_name_eq _ _ _ _ _ _ _
  rw [hname, ← Primitive.counted_eq_self_iff]
  exact ⟨Primitive.eq_of_name_eq, congrArg Primitive.name⟩

end Application

namespace Program

/-- In a program whose procedures have different names, the first wrong application in the order
of the text is the one that is reported, with its number of operands and the number it takes, in
every configuration. It is reported by its own name unless it is a comparison that is folded into
the branch of a conditional or a loop, which is reported as its reverse. -/
theorem first_misapplication_reported {p : Program}
    (hnames : (p.procedures.map (·.name)).Nodup) (hwrong : p.Misapplies) :
    ∃ (before : List Application) (a : Application) (after : List Application),
      p.applications = before ++ a :: after ∧ (∀ b ∈ before, b.Fits) ∧ ¬a.Fits ∧
        ∀ config : Config, ∃ e : CompileError, p.compile config = .error e ∧
          e.message = (a.counted config.folding).complaint ∧
          (e.message = a.complaint ↔
            ¬(config.folding = true ∧ a.condition = true ∧ a.primitive.isComparison = true)) := by
  obtain ⟨before, a, after, happ, hbefore, ha⟩ := exists_first_misfit hwrong
  refine ⟨before, a, after, happ, hbefore, ha, fun config => ?_⟩
  have herror : p.compile config =
      .error (.operandCount (a.counted config.folding).primitive a.operands) :=
    compile_eq_operandCount_iff.mpr ⟨hnames, before, a, after, happ, hbefore, ha, rfl, rfl⟩
  refine ⟨_, herror, Application.message_operandCount config.folding a, ?_⟩
  rw [Application.message_operandCount]
  exact Application.complaint_counted_eq_iff config.folding a

/-- A loop that tests a comparison with one operand, behind an addition that is right and before
another that is wrong. -/
def lopsided : Program where
  source := "lopsided"
  procedures := [⟨"f", ["x"], .ret (.apply .plus [.var "x", .literal 1])⟩]
  main := .whileDo (.apply .less [.call "f" [.literal 0]]) (.print (.apply .plus []))

lemma lopsided_misapplies : lopsided.Misapplies :=
  ⟨.less, [.call "f" [.literal 0]], .inr (.inl .self), by decide⟩

lemma lopsided_names : (lopsided.procedures.map (·.name)).Nodup := by
  decide

theorem lopsided_first_misapplication :
    (lopsided.procedures.map (·.name)).Nodup ∧ lopsided.Misapplies ∧
      ∃ (before : List Application) (a : Application) (after : List Application),
        lopsided.applications = before ++ a :: after ∧ (∀ b ∈ before, b.Fits) ∧ ¬a.Fits ∧
          ∃ e : CompileError, lopsided.compile ⟨.stack, false⟩ = .error e ∧
            e.message = a.complaint := by
  obtain ⟨before, a, after, happ, hbefore, ha, hconfig⟩ :=
    first_misapplication_reported lopsided_names lopsided_misapplies
  obtain ⟨e, he, -, htext⟩ := hconfig ⟨.stack, false⟩
  exact ⟨lopsided_names, lopsided_misapplies, before, a, after, happ, hbefore, ha, e, he,
    htext.mpr fun h => Bool.false_ne_true h.1⟩

/-- With folding, the comparison in the guard is reported as one that the program does not
contain. -/
theorem lopsided_misnamed :
    (lopsided.procedures.map (·.name)).Nodup ∧ lopsided.Misapplies ∧
      lopsided.applications = [⟨.plus, 2, false⟩, ⟨.less, 1, true⟩, ⟨.plus, 0, false⟩] ∧
      (∃ e : CompileError, lopsided.compile ⟨.stack, false⟩ = .error e ∧
        e.message = "unsupported construct: `less` applied to 1 operand(s), expects 2") ∧
      ∃ e : CompileError, lopsided.compile .default = .error e ∧ e.message =
        "unsupported construct: `greater_or_equal` applied to 1 operand(s), expects 2" :=
  ⟨lopsided_names, lopsided_misapplies, rfl, ⟨_, rfl, by decide +kernel⟩,
    ⟨_, rfl, by decide +kernel⟩⟩

end Program

end Izmir
