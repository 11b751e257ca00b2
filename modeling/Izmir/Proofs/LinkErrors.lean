import Izmir.Proofs.Calls

/-!
# What keeps labelled code from being linked

Labelled code links exactly if it obeys a few rules, each of them about one procedure, one label or
one instruction. Code that breaks several of them is refused for the first one that comes up:
names of procedures are compared first, then routines are examined in order and main last, the
labels of a routine before its instructions, and an instruction by itself before what it names.
Linking breaks off where an index cannot be counted; that is one of the breaches here, with a
place of its own in the order.
-/

namespace Izmir

/-! ### Computations that decide -/

lemma FailsLike.refl_eq {ε α : Type} (m : Except ε α) : FailsLike Eq m m := by
  cases m with
  | ok a => exact .ok a a
  | error e => exact .error rfl

/-- A computation succeeds exactly if something holds, and fails exactly with the errors of some
relation. -/
structure Decides {ε α : Type} (m : Except ε α) (P : Prop) (R : ε → Prop) : Prop where
  ok : (∃ a, m = .ok a) ↔ P
  error : ∀ e, m = .error e ↔ R e

namespace Decides

variable {ε α β : Type} {m : Except ε α} {P : Prop} {R : ε → Prop}

/-- To see what a computation decides, it is enough to know that each of its results is right and
that errors come up only where it has to fail. -/
lemma of_cases (hcases : (∃ a, m = .ok a ∧ P) ∨ ∃ e, m = .error e ∧ R e)
    (hfails : ∀ e, R e → ¬P) (herror : ∀ e, R e → m = .error e) : Decides m P R := by
  rcases hcases with ⟨a, ha, hP⟩ | ⟨e, he, hR⟩
  · refine ⟨iff_of_true ⟨a, ha⟩ hP, fun e => ⟨fun he => ?_, herror e⟩⟩
    rw [ha] at he
    cases he
  · refine ⟨iff_of_false ?_ (hfails e hR), fun e' => ⟨fun he' => ?_, herror e'⟩⟩
    · rintro ⟨a, ha⟩
      rw [he] at ha
      cases ha
    · rw [he] at he'
      cases he'
      exact hR

/-- What decides stays the same under whatever succeeds and fails alike. -/
lemma of_failsLike {n : Except ε β} (h : FailsLike Eq m n) (hn : Decides n P R) :
    Decides m P R :=
  ⟨h.ok_iff.trans hn.ok, fun e => (h.error_iff e).trans (hn.error e)⟩

/-- A row of computations fails with the error of the first one that fails. -/
lemma mapM {f : α → Except ε β} {as : List α} {P : α → Prop} {R : α → ε → Prop}
    (h : ∀ a ∈ as, Decides (f a) (P a) (R a)) :
    Decides (as.mapM f) (∀ a ∈ as, P a) fun e =>
      ∃ before a after, as = before ++ a :: after ∧ (∀ b ∈ before, P b) ∧ R a e := by
  have hforM : FailsLike Eq (as.mapM f) (forM as fun a => (f a).map fun _ => ()) := by
    refine mapM_failsLike_forM fun a _ => ?_
    cases f a with
    | ok b => exact .ok _ _
    | error e => exact .error rfl
  have hok (a : α) : (f a).map (fun _ => ()) = .ok () ↔ ∃ b, f a = .ok b := by
    cases f a <;> simp [Except.map]
  have herror (a : α) (e : ε) : (f a).map (fun _ => ()) = .error e ↔ f a = .error e := by
    cases f a <;> simp [Except.map]
  refine of_failsLike hforM ⟨?_, fun e => ?_⟩
  · have hunit : (∃ u, (forM as fun a => (f a).map fun _ => ()) = .ok u) ↔
        (forM as fun a => (f a).map fun _ => ()) = .ok () :=
      ⟨fun ⟨_, h⟩ => h, fun h => ⟨(), h⟩⟩
    rw [hunit, forM_eq_ok_iff]
    exact forall₂_congr fun a ha => (hok a).trans (h a ha).ok
  · rw [forM_eq_error_iff]
    constructor
    · rintro ⟨before, a, after, rfl, hbefore, ha⟩
      refine ⟨before, a, after, rfl, fun b hb => ?_, ?_⟩
      · exact (h b (List.mem_append_left _ hb)).ok.mp ((hok b).mp (hbefore b hb))
      · exact ((h a (by simp)).error e).mp ((herror a e).mp ha)
    · rintro ⟨before, a, after, rfl, hbefore, ha⟩
      refine ⟨before, a, after, rfl, fun b hb => ?_, ?_⟩
      · exact (hok b).mpr ((h b (List.mem_append_left _ hb)).ok.mpr (hbefore b hb))
      · exact (herror a e).mpr (((h a (by simp)).error e).mpr ha)

/-- A computation that refuses a repeated element before it begins. -/
lemma of_repeat [DecidableEq β] {bs : List β} {err : β → ε}
    (hsome : ∀ b, firstRepeat? bs = some b → m = .error (err b))
    (hnone : bs.Nodup → Decides m P R) :
    Decides m (bs.Nodup ∧ P) fun e =>
      (∃ before b after, bs = before ++ b :: after ∧ before.Nodup ∧ b ∈ before ∧ e = err b) ∨
        bs.Nodup ∧ R e := by
  cases hrepeat : firstRepeat? bs with
  | some b =>
    have hnot : ¬bs.Nodup := by
      rw [← firstRepeat?_eq_none_iff, hrepeat]
      exact Option.some_ne_none b
    obtain ⟨before, after, hbs, hnodup, hmem⟩ := firstRepeat?_eq_some_iff.mp hrepeat
    refine ⟨iff_of_false ?_ fun h => hnot h.1, fun e => ?_⟩
    · rintro ⟨a, ha⟩
      rw [hsome b hrepeat] at ha
      cases ha
    · rw [hsome b hrepeat, Except.error.injEq]
      constructor
      · rintro rfl
        exact .inl ⟨before, b, after, hbs, hnodup, hmem, rfl⟩
      · rintro (⟨before', c, after', hbs', hnodup', hmem', rfl⟩ | ⟨h, -⟩)
        · have hc := firstRepeat?_eq_some_iff.mpr ⟨before', after', hbs', hnodup', hmem'⟩
          rw [hrepeat] at hc
          rw [Option.some.inj hc]
        · exact absurd h hnot
  | none =>
    have hnodup := (firstRepeat?_eq_none_iff bs).mp hrepeat
    have hm := hnone hnodup
    refine ⟨hm.ok.trans (by simp [hnodup]), fun e => (hm.error e).trans ?_⟩
    constructor
    · exact fun h => .inr ⟨hnodup, h⟩
    · rintro (⟨before, b, after, hbs, hbefore, hmem, -⟩ | ⟨-, h⟩)
      · have hb := firstRepeat?_eq_some_iff.mpr ⟨before, after, hbs, hbefore, hmem⟩
        rw [hrepeat] at hb
        cases hb
      · exact h

end Decides

/-! ### The rules -/

/-- The routines of a program in the order in which they are examined. -/
def Assembly.routines (a : Assembly) : List Assembly.Routine :=
  a.procedures ++ [a.main]

/-- What an instruction of a routine has to obey. -/
structure SymbolicInstr.Obeys (a : Assembly) (code : List Line) (i : SymbolicInstr) : Prop where
  /-- A branch goes to a label of the same routine. -/
  target : ∀ l, i.target? = some l → l ∈ Assembly.labels code
  /-- A call names a procedure and passes as many arguments as it takes. -/
  callee : ∀ f n, i.call? = some (f, n) → ∃ p ∈ a.procedures, p.name.text = f ∧ p.arity = n
  /-- A move writes to a slot or a register. -/
  destination : ∀ s v, i ≠ .move s (.literal v)
  /-- An operation or a condition names as many registers as it takes operands. -/
  operands : i.OperandsFit
  /-- The window of the arguments ends among the numbers of 64 bits. -/
  window : ∀ f first n r, i = .callRegisters f first n r → first + n < UInt64.size
  /-- No slot or register is the last one. -/
  indices : i.IndicesFit

/-- What a routine has to obey. -/
structure Assembly.Routine.Obeys (a : Assembly) (r : Assembly.Routine) : Prop where
  labels : (Assembly.labels r.code).Nodup
  instructions : ∀ i ∈ Assembly.instructions r.code, SymbolicInstr.Obeys a r.code i

/-- What a program has to obey. -/
structure Assembly.Obeys (a : Assembly) : Prop where
  names : (a.procedures.map (·.name.text)).Nodup
  routines : ∀ r ∈ a.routines, r.Obeys a

/-- The error of an instruction. Only if it names the right number of operands are they counted,
and only then are a place to store into and a label looked up. For a call the window comes first,
then the callee, its arguments, and the count of the register for the result. -/
inductive SymbolicInstr.Offends (a : Assembly) (r : Assembly.Routine) (i : SymbolicInstr) :
    LinkError → Prop where
  | operandCount (h : ¬i.OperandsFit) : Offends a r i (.operandCount r.name.text i)
  | overflow {n : Nat} (h : i.OperandsFit) (hn : n ∈ i.indices) (hlast : UInt64.size ≤ n + 1)
      (hcall : ∀ f first count k, i = .callRegisters f first count k →
        first + count < UInt64.size ∧
          ∃ p ∈ a.procedures, p.name.text = f ∧ p.arity = count) : Offends a r i .overflow
  | destination {s : Operand} {v : Value} (h : i = .move s (.literal v)) (hfit : i.IndicesFit) :
      Offends a r i (.nonWritableDestination r.name.text i)
  | window {f : String} {first n k : Nat} (h : i = .callRegisters f first n k)
      (hwindow : UInt64.size ≤ first + n) : Offends a r i (.registerRange r.name.text i)
  | target {l : String} (hi : SymbolicInstr.WellFormed i) (h : i.target? = some l)
      (hundefined : l ∉ Assembly.labels r.code) : Offends a r i (.undefinedLabel r.name.text l)
  | callee {f : String} {n : Nat} (hi : i.Formed) (h : i.call? = some (f, n))
      (hunknown : ∀ p ∈ a.procedures, p.name.text ≠ f) :
      Offends a r i (.unknownCallee r.name.text f)
  | arity {f : String} {n : Nat} {p : Assembly.Routine} (hi : i.Formed)
      (h : i.call? = some (f, n)) (hp : p ∈ a.procedures) (hname : p.name.text = f)
      (harity : p.arity ≠ n) : Offends a r i (.arityMismatch r.name.text f p.arity n)

/-- The error of a routine: that of the first label which is defined twice, or else that of the
first instruction which breaks a rule. -/
inductive Assembly.Routine.Offends (a : Assembly) (r : Assembly.Routine) :
    LinkError → Prop where
  | label {before after : List String} {l : String}
      (h : Assembly.labels r.code = before ++ l :: after) (hbefore : before.Nodup)
      (hl : l ∈ before) : Offends a r (.duplicateLabel r.name.text l)
  | instr (hlabels : (Assembly.labels r.code).Nodup) {before after : List SymbolicInstr}
      {i : SymbolicInstr} (h : Assembly.instructions r.code = before ++ i :: after)
      (hbefore : ∀ j ∈ before, SymbolicInstr.Obeys a r.code j) {e : LinkError}
      (hi : SymbolicInstr.Offends a r i e) : Offends a r e

/-- The error of a program: that of the first procedure which has the name of an earlier one, or
else that of the first routine which breaks a rule. -/
inductive Assembly.Offends (a : Assembly) : LinkError → Prop where
  | name {before after : List String} {n : String}
      (h : a.procedures.map (·.name.text) = before ++ n :: after) (hbefore : before.Nodup)
      (hn : n ∈ before) : Offends a (.duplicateRoutine n)
  | routine (hnames : (a.procedures.map (·.name.text)).Nodup)
      {before after : List Assembly.Routine} {r : Assembly.Routine}
      (h : a.routines = before ++ r :: after) (hbefore : ∀ s ∈ before, s.Obeys a)
      {e : LinkError} (hr : r.Offends a e) : Offends a e

/-! ### Instructions -/

lemma SymbolicInstr.formed_iff {i : SymbolicInstr} :
    i.Formed ↔
      i.OperandsFit ∧ (∀ s v, i ≠ .move s (.literal v)) ∧
        ∀ f first n k, i = .callRegisters f first n k → first + n < UInt64.size := by
  cases i with
  | move s d => cases d <;> simp [Formed, Instr.OperandsFit]
  | operateRegisters o rs k => simp [Formed]
  | branchIfRegisters c rs l => simp [Formed]
  | callRegisters f first n k =>
    simp only [Formed, Instr.OperandsFit, true_and, reduceCtorEq, ne_eq, not_false_eq_true,
      implies_true, Instr.callRegisters.injEq]
    constructor
    · rintro h _ _ _ _ ⟨-, rfl, rfl, -⟩
      exact h
    · exact fun h => h f first n k ⟨rfl, rfl, rfl, rfl⟩
  | _ => simp [Formed, Instr.OperandsFit]

lemma SymbolicInstr.obeys_iff {a : Assembly} {code : List Line} {i : SymbolicInstr} :
    SymbolicInstr.Obeys a code i ↔
      SymbolicInstr.WellFormed i ∧ (∀ l, i.target? = some l → l ∈ Assembly.labels code) ∧
        ∀ f n, i.call? = some (f, n) →
          ∃ p ∈ a.procedures, p.name.text = f ∧ p.arity = n := by
  rw [WellFormed, formed_iff]
  constructor
  · exact fun h => ⟨⟨⟨h.operands, h.destination, h.window⟩, h.indices⟩, h.target, h.callee⟩
  · exact fun ⟨⟨⟨hoperands, hdestination, hwindow⟩, hindices⟩, htarget, hcallee⟩ =>
      ⟨htarget, hcallee, hdestination, hoperands, hwindow, hindices⟩

namespace Instr

variable {δ : Type} {i : Instr String String δ}

lemma marks_of_target {l : String} (h : i.target? = some l) : i.marks = [.target l] := by
  cases i <;> cases h <;> rfl

lemma marks_of_call {f : String} {n : Nat} (h : i.call? = some (f, n)) : i.marks = [.call f n] := by
  cases i <;> cases h <;> rfl

end Instr

namespace Link

lemma forM_singleton (c : Context) (m : Mark) : forM [m] c.resolve = c.resolve m := by
  change (c.resolve m >>= fun _ => .ok ()) = c.resolve m
  cases c.resolve m <;> rfl

/-! Counting never fails but by an overflow. -/

lemma mapM_index_eq (rs : List Nat) :
    rs.mapM index = if ∀ n ∈ rs, n + 1 < UInt64.size then .ok rs else .error .overflow := by
  split
  case isTrue h => exact mapM_index_eq_ok_iff.mpr ⟨h, rfl⟩
  case isFalse h =>
    cases hm : rs.mapM index with
    | ok sources => exact absurd (mapM_index_eq_ok_iff.mp hm).1 h
    | error e =>
      obtain ⟨m, -, hm⟩ := exists_of_mapM_eq_error hm
      unfold index at hm
      split at hm <;> cases hm
      rfl

lemma operand_eq (a : Operand) :
    operand a = if ∀ n ∈ a.indices, n + 1 < UInt64.size then .ok a else .error .overflow := by
  cases a with
  | literal v => simp [operand, Operand.indices]
  | slot n | register n =>
    simp only [operand, index, Operand.indices, List.forall_mem_singleton]
    split <;> rfl

section

variable {c : Context} {i : SymbolicInstr} {n : Nat}

lemma index_of_last (hlast : UInt64.size ≤ n + 1) : index n = .error .overflow :=
  if_neg (Nat.not_lt.mpr hlast)

/-- Counting the last index overflows, unless something else has come up before. -/
lemma instr_of_last (hoperands : i.OperandsFit) (hn : n ∈ i.indices) (hlast : UInt64.size ≤ n + 1)
    (hcall : ∀ f first count k, i = .callRegisters f first count k →
      first + count < UInt64.size ∧ ∃ j, c.callee f count = .ok j) :
    c.instr i = .error .overflow := by
  have hnot {ns : List Nat} (hns : ∀ m ∈ ns, m + 1 < UInt64.size) : n ∉ ns :=
    fun hn => absurd (hns n hn) (Nat.not_lt.mpr hlast)
  cases i with
  | pushVariable m | popVariable m | inputRegister m | printRegister m | retRegister m =>
    obtain rfl := List.mem_singleton.mp hn
    exact bind_eq_error_iff.mpr (.inl (index_of_last hlast))
  | move a b =>
    rw [Context.instr, operand_eq]
    split
    case isFalse => rfl
    case isTrue ha =>
      have hb : n ∈ b.indices := (List.mem_append.mp hn).resolve_left (hnot ha)
      cases b with
      | literal v => cases hb
      | slot m | register m =>
        obtain rfl := List.mem_singleton.mp hb
        refine bind_eq_error_iff.mpr (.inr ⟨a, rfl, bind_eq_error_iff.mpr (.inl ?_)⟩)
        exact bind_eq_error_iff.mpr (.inl (index_of_last hlast))
  | operateRegisters o rs k =>
    have hcount : rs.length = o.arity := hoperands
    rw [Context.instr, if_pos hcount, mapM_index_eq]
    split
    case isFalse => rfl
    case isTrue hrs =>
      obtain rfl := List.mem_singleton.mp ((List.mem_append.mp hn).resolve_left (hnot hrs))
      refine bind_eq_error_iff.mpr (.inr ⟨rs, rfl, ?_⟩)
      exact bind_eq_error_iff.mpr (.inl (index_of_last hlast))
  | branchIfRegisters o rs l =>
    have hcount : rs.length = o.arity := hoperands
    have hrs : ¬∀ m ∈ rs, m + 1 < UInt64.size := fun hrs => hnot hrs hn
    rw [Context.instr, if_pos hcount, mapM_index_eq, if_neg hrs]
    rfl
  | callRegisters f first count k =>
    obtain ⟨hwindow, j, hj⟩ := hcall f first count k rfl
    obtain rfl := List.mem_singleton.mp hn
    rw [Context.instr, if_pos hwindow]
    refine bind_eq_error_iff.mpr (.inr ⟨j, hj, ?_⟩)
    exact bind_eq_error_iff.mpr (.inl (index_of_last hlast))
  | _ => cases hn

/-- A callee is looked up before the register for the result is counted. -/
lemma instr_of_callee_error {f : String} {e : LinkError} (hi : i.Formed)
    (hc : i.call? = some (f, n)) (h : c.resolve (.call f n) = .error e) :
    c.instr i = .error e := by
  have hcallee : c.callee f n = .error e := by
    rcases bind_eq_error_iff.mp h with h | ⟨_, -, h⟩
    · exact h
    · cases h
  cases i with
  | call g m =>
    cases hc
    exact bind_eq_error_iff.mpr (.inl hcallee)
  | callRegisters g first m k =>
    cases hc
    have hwindow : first + n < UInt64.size := hi
    rw [Context.instr, if_pos hwindow]
    exact bind_eq_error_iff.mpr (.inl hcallee)
  | _ => cases hc

end

section

variable (a : Assembly) (r : Assembly.Routine)

lemma resolve_call_cases (f : String) (n : Nat) :
    ((contextOf a.table r.name r.code).resolve (.call f n) = .ok () ∧
        ∃ p ∈ a.procedures, p.name.text = f ∧ p.arity = n) ∨
      ((contextOf a.table r.name r.code).resolve (.call f n) =
          .error (.unknownCallee r.name.text f) ∧
        ∀ p ∈ a.procedures, p.name.text ≠ f) ∨
      ∃ p ∈ a.procedures, p.name.text = f ∧ p.arity ≠ n ∧
        (contextOf a.table r.name r.code).resolve (.call f n) =
          .error (.arityMismatch r.name.text f p.arity n) := by
  -- Labels play no part in looking up a call.
  have hcheck : (contextOf a.table r.name r.code).resolve (.call f n) =
      checkCall a.table ⟨r.name.text, f, n⟩ := rfl
  rw [hcheck]
  cases hf : a.table.lookup f with
  | none => exact .inr (.inl ⟨checkCall_of_lookup_none hf, lookup_zipIdx_eq_none_iff.mp hf⟩)
  | some entry =>
    obtain ⟨k, m⟩ := entry
    obtain ⟨p, -, hfind, rfl⟩ := lookup_table hf
    have hname : p.name.text = f := by simpa using List.find?_some hfind
    have hmem := List.mem_of_find?_eq_some hfind
    have hcall : checkCall a.table ⟨r.name.text, f, n⟩ =
        if p.arity = n then .ok () else .error (.arityMismatch r.name.text f p.arity n) :=
      checkCall_of_lookup_some hf
    rw [hcall]
    by_cases harity : p.arity = n
    · exact .inl ⟨if_pos harity, p, hmem, hname, harity⟩
    · exact .inr (.inr ⟨p, hmem, hname, harity, if_neg harity⟩)

/-- A well-formed instruction is linked exactly if what it names is found. -/
lemma wellFormed_cases {i : SymbolicInstr} (hi : SymbolicInstr.WellFormed i) :
    (∃ j, (contextOf a.table r.name r.code).instr i = .ok j ∧ SymbolicInstr.Obeys a r.code i) ∨
      ∃ e, (contextOf a.table r.name r.code).instr i = .error e ∧
        SymbolicInstr.Offends a r i e := by
  have hlike := (contextOf a.table r.name r.code).instr_failsLike hi
  cases ht : i.target? with
  | some l =>
    have hcall : i.call? = none := by cases i <;> cases ht <;> rfl
    rw [Instr.marks_of_target ht, forM_singleton, resolve_target] at hlike
    by_cases hl : l ∈ Assembly.labels r.code
    · rw [if_pos hl] at hlike
      obtain ⟨j, hj⟩ := hlike.ok_iff.mpr ⟨(), rfl⟩
      refine .inl ⟨j, hj, SymbolicInstr.obeys_iff.mpr ⟨hi, ?_, by simp [hcall]⟩⟩
      rw [ht]
      rintro _ ⟨⟩
      exact hl
    · rw [if_neg hl] at hlike
      exact .inr ⟨_, (hlike.error_iff _).mpr rfl, .target hi ht hl⟩
  | none =>
    cases hc : i.call? with
    | none =>
      have hmarks : i.marks = [] := by simp [Instr.marks, ht, hc]
      rw [hmarks] at hlike
      obtain ⟨j, hj⟩ := hlike.ok_iff.mpr ⟨(), rfl⟩
      exact .inl ⟨j, hj, SymbolicInstr.obeys_iff.mpr ⟨hi, by simp [ht], by simp [hc]⟩⟩
    | some call =>
      obtain ⟨f, n⟩ := call
      rcases resolve_call_cases a r f n with
        ⟨hok, hp⟩ | ⟨herror, hf⟩ | ⟨p, hp, hname, harity, herror⟩
      · rw [Instr.marks_of_call hc, forM_singleton] at hlike
        obtain ⟨j, hj⟩ := hlike.ok_iff.mpr ⟨(), hok⟩
        refine .inl ⟨j, hj, SymbolicInstr.obeys_iff.mpr ⟨hi, by simp [ht], ?_⟩⟩
        rw [hc]
        rintro _ _ ⟨⟩
        exact hp
      · exact .inr ⟨_, instr_of_callee_error hi.1 hc herror, .callee hi.1 hc hf⟩
      · exact .inr ⟨_, instr_of_callee_error hi.1 hc herror, .arity hi.1 hc hp hname harity⟩

/-- The last index overflows the count, unless a call is refused before. -/
lemma formed_last_cases {i : SymbolicInstr} (hi : i.Formed) {n : Nat} (hn : n ∈ i.indices)
    (hlast : UInt64.size ≤ n + 1) :
    ∃ e, (contextOf a.table r.name r.code).instr i = .error e ∧
      SymbolicInstr.Offends a r i e := by
  obtain ⟨hoperands, -, hwindow⟩ := SymbolicInstr.formed_iff.mp hi
  cases hc : i.call? with
  | none =>
    have hcall (f : String) (first count k : Nat) : i ≠ .callRegisters f first count k := by
      rintro rfl
      cases hc
    refine ⟨_, instr_of_last hoperands hn hlast ?_, .overflow hoperands hn hlast ?_⟩
    · exact fun f first count k h => absurd h (hcall f first count k)
    · exact fun f first count k h => absurd h (hcall f first count k)
  | some call =>
    obtain ⟨f, m⟩ := call
    rcases resolve_call_cases a r f m with
      ⟨hok, hp⟩ | ⟨herror, hf⟩ | ⟨p, hp, hname, harity, herror⟩
    · obtain ⟨j, hj, -⟩ := bind_eq_ok_iff.mp hok
      refine ⟨_, instr_of_last hoperands hn hlast ?_, .overflow hoperands hn hlast ?_⟩
      · rintro g first count k rfl
        cases hc
        exact ⟨hwindow _ _ _ _ rfl, j, hj⟩
      · rintro g first count k rfl
        cases hc
        exact ⟨hwindow _ _ _ _ rfl, hp⟩
    · exact ⟨_, instr_of_callee_error hi hc herror, .callee hi hc hf⟩
    · exact ⟨_, instr_of_callee_error hi hc herror, .arity hi hc hp hname harity⟩

/-- Every instruction is linked and obeys, or is refused for what it offends against. -/
lemma instr_cases (i : SymbolicInstr) :
    (∃ j, (contextOf a.table r.name r.code).instr i = .ok j ∧ SymbolicInstr.Obeys a r.code i) ∨
      ∃ e, (contextOf a.table r.name r.code).instr i = .error e ∧
        SymbolicInstr.Offends a r i e := by
  by_cases hi : i.Formed
  · by_cases hfit : i.IndicesFit
    · exact wellFormed_cases a r ⟨hi, hfit⟩
    · simp only [SymbolicInstr.IndicesFit, not_forall, Nat.not_lt] at hfit
      obtain ⟨n, hn, hlast⟩ := hfit
      exact .inr (formed_last_cases a r hi hn hlast)
  · -- Only four kinds of instructions can be of a wrong form.
    right
    cases i with
    | move s d =>
      cases d with
      | literal v =>
        by_cases hfit : SymbolicInstr.IndicesFit (.move s (.literal v))
        · refine ⟨_, ?_, .destination rfl hfit⟩
          rw [instr_eq_uncounted hfit]
          rfl
        · simp only [SymbolicInstr.IndicesFit, not_forall, Nat.not_lt] at hfit
          obtain ⟨n, hn, hlast⟩ := hfit
          refine ⟨_, instr_of_last trivial hn hlast ?_, .overflow trivial hn hlast ?_⟩
          · rintro _ _ _ _ ⟨⟩
          · rintro _ _ _ _ ⟨⟩
      | slot n => exact absurd trivial hi
      | register n => exact absurd trivial hi
    | operateRegisters o rs k => exact ⟨_, if_neg hi, .operandCount hi⟩
    | branchIfRegisters c rs l => exact ⟨_, if_neg hi, .operandCount hi⟩
    | callRegisters f first n k => exact ⟨_, if_neg hi, .window rfl (Nat.le_of_not_lt hi)⟩
    | _ => exact absurd trivial hi

end

variable {a : Assembly} {r : Assembly.Routine} {i : SymbolicInstr} {e : LinkError}

lemma not_obeys_of_offends (hnames : (a.procedures.map (·.name.text)).Nodup)
    (h : SymbolicInstr.Offends a r i e) : ¬SymbolicInstr.Obeys a r.code i := by
  intro hobeys
  cases h with
  | operandCount hi => exact hi hobeys.operands
  | overflow _ hn hlast => exact absurd (hobeys.indices _ hn) (Nat.not_lt.mpr hlast)
  | destination hi => exact hobeys.destination _ _ hi
  | window hi hwindow => exact absurd (hobeys.window _ _ _ _ hi) (Nat.not_lt.mpr hwindow)
  | target _ hl hundefined => exact hundefined (hobeys.target _ hl)
  | callee _ hc hunknown =>
    obtain ⟨p, hp, hname, -⟩ := hobeys.callee _ _ hc
    exact hunknown p hp hname
  | arity _ hc hp hname harity =>
    obtain ⟨q, hq, hname', harity'⟩ := hobeys.callee _ _ hc
    obtain rfl := List.inj_on_of_nodup_map hnames hp hq (hname.trans hname'.symm)
    exact harity harity'

/-- Only one procedure has the name of a call, and it decides what becomes of the call. -/
lemma resolve_call (hnames : (a.procedures.map (·.name.text)).Nodup) {p : Assembly.Routine}
    (hp : p ∈ a.procedures) (n : Nat) :
    (contextOf a.table r.name r.code).resolve (.call p.name.text n) =
      if p.arity = n then .ok ()
      else .error (.arityMismatch r.name.text p.name.text p.arity n) := by
  have hunique {q : Assembly.Routine} (hq : q ∈ a.procedures)
      (hqname : q.name.text = p.name.text) : q = p :=
    List.inj_on_of_nodup_map hnames hq hp hqname
  rcases resolve_call_cases a r p.name.text n with
    ⟨hok, q, hq, hqname, hqarity⟩ | ⟨-, hunknown⟩ | ⟨q, hq, hqname, hqarity, herror⟩
  · rw [hok, if_pos (hunique hq hqname ▸ hqarity)]
  · exact absurd rfl (hunknown p hp)
  · obtain rfl := hunique hq hqname
    rw [herror, if_neg hqarity]

lemma instr_of_offends (hnames : (a.procedures.map (·.name.text)).Nodup)
    (h : SymbolicInstr.Offends a r i e) :
    (contextOf a.table r.name r.code).instr i = .error e := by
  cases h with
  | operandCount hi =>
    cases i with
    | operateRegisters o rs k => exact if_neg hi
    | branchIfRegisters c rs l => exact if_neg hi
    | _ => exact absurd trivial hi
  | overflow hoperands hn hlast hcall =>
    refine instr_of_last hoperands hn hlast fun f first count k hi => ?_
    obtain ⟨hwindow, p, hp, rfl, rfl⟩ := hcall f first count k hi
    have hresolve := resolve_call (r := r) hnames hp p.arity
    rw [if_pos rfl] at hresolve
    obtain ⟨j, hj, -⟩ := bind_eq_ok_iff.mp hresolve
    exact ⟨hwindow, j, hj⟩
  | destination hi hfit =>
    rw [instr_eq_uncounted hfit]
    subst hi
    rfl
  | window hi hwindow =>
    subst hi
    exact if_neg (Nat.not_lt.mpr hwindow)
  | target hi hl hundefined =>
    refine ((Context.instr_failsLike _ hi).error_iff _).mpr ?_
    rw [Instr.marks_of_target hl, forM_singleton, resolve_target, if_neg hundefined]
  | @callee f n hi hc hunknown =>
    refine instr_of_callee_error hi hc ?_
    rcases resolve_call_cases a r f n with ⟨-, q, hq, hname, -⟩ | ⟨herror, -⟩ | ⟨q, hq, hname, -, -⟩
    · exact absurd hname (hunknown q hq)
    · exact herror
    · exact absurd hname (hunknown q hq)
  | arity hi hc hp hname harity =>
    subst hname
    refine instr_of_callee_error hi hc ?_
    rw [resolve_call hnames hp, if_neg harity]

lemma decides_instr (hnames : (a.procedures.map (·.name.text)).Nodup) (r : Assembly.Routine)
    (i : SymbolicInstr) :
    Decides ((contextOf a.table r.name r.code).instr i) (SymbolicInstr.Obeys a r.code i)
      (SymbolicInstr.Offends a r i) :=
  .of_cases (instr_cases a r i) (fun _ => not_obeys_of_offends hnames)
    fun _ => instr_of_offends hnames

/-! ### Routines and programs -/

lemma decides_routine (hnames : (a.procedures.map (·.name.text)).Nodup) (r : Assembly.Routine) :
    Decides (routine a.table r) (r.Obeys a) (r.Offends a) := by
  have hcode (hlabels : (Assembly.labels r.code).Nodup) :
      FailsLike Eq (routine a.table r)
        ((Assembly.instructions r.code).mapM (contextOf a.table r.name r.code).instr) := by
    unfold routine
    rw [(firstRepeat?_eq_none_iff _).mpr hlabels]
    exact (FailsLike.refl_eq _).bind_pure _
  have hrepeat (l : String) (hl : firstRepeat? (Assembly.labels r.code) = some l) :
      routine a.table r = .error (.duplicateLabel r.name.text l) := by
    unfold routine
    rw [hl]
  obtain ⟨hok, herror⟩ := Decides.of_repeat hrepeat fun hlabels =>
    .of_failsLike (hcode hlabels) (.mapM fun i _ => decides_instr hnames r i)
  refine ⟨hok.trans ⟨fun h => ⟨h.1, h.2⟩, fun h => ⟨h.labels, h.instructions⟩⟩, fun e => ?_⟩
  rw [herror]
  constructor
  · rintro (⟨before, l, after, h, hbefore, hl, rfl⟩ | ⟨hlabels, before, i, after, h, hbefore, hi⟩)
    · exact .label h hbefore hl
    · exact .instr hlabels h hbefore hi
  · rintro (⟨h, hbefore, hl⟩ | ⟨hlabels, h, hbefore, hi⟩)
    · exact .inl ⟨_, _, _, h, hbefore, hl, rfl⟩
    · exact .inr ⟨hlabels, _, _, _, h, hbefore, hi⟩

end Link

namespace Assembly

/-- Labelled code links exactly if it obeys the rules: different names for procedures, in each
routine different labels, branches to labels of that routine, calls of procedures with as many
arguments as they take, moves into slots or registers, as many operand registers as are needed,
windows of arguments within the numbers of registers and no use of the last of these. If several
rules are broken, the error is that of the first breach in the order of examination. -/
theorem link_iff_obeys (a : Assembly) :
    ((∃ x, a.link = .ok x) ↔ a.Obeys) ∧ ∀ e, a.link = .error e ↔ a.Offends e := by
  have hroutines (hnames : (a.procedures.map (·.name.text)).Nodup) :
      FailsLike Eq a.link
        (a.routines.mapM (Link.routine a.table)) := by
    rw [link_eq, (firstRepeat?_eq_none_iff _).mpr hnames, routines, List.mapM_append]
    refine (FailsLike.refl_eq _).bind fun rs rs' => ?_
    rw [List.mapM_cons, List.mapM_nil]
    cases Link.routine a.table a.main with
    | ok main => exact .ok _ _
    | error e => exact .error rfl
  have hrepeat (n : String) (hn : firstRepeat? (a.procedures.map (·.name.text)) = some n) :
      a.link = .error (.duplicateRoutine n) := by
    rw [link_eq, hn]
  obtain ⟨hok, herror⟩ := Decides.of_repeat hrepeat fun hnames =>
    .of_failsLike (hroutines hnames) (.mapM fun r _ => Link.decides_routine hnames r)
  refine ⟨hok.trans ⟨fun h => ⟨h.1, h.2⟩, fun h => ⟨h.names, h.routines⟩⟩, fun e => ?_⟩
  rw [herror]
  constructor
  · rintro (⟨before, n, after, h, hbefore, hn, rfl⟩ | ⟨hnames, before, r, after, h, hbefore, hr⟩)
    · exact .name h hbefore hn
    · exact .routine hnames h hbefore hr
  · rintro (⟨h, hbefore, hn⟩ | ⟨hnames, h, hbefore, hr⟩)
    · exact .inl ⟨_, _, _, h, hbefore, hn, rfl⟩
    · exact .inr ⟨hnames, _, _, _, h, hbefore, hr⟩

end Assembly

end Izmir
