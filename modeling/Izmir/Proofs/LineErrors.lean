import Izmir.Proofs.ListingForms

/-!
# Refused instruction lines

Each mnemonic has forms, which say what may stand at each place behind it. A line is read
exactly if its parameters fit a form. Otherwise either their number or the kind of one of them
is reported. The report has two flaws: a single parameter of the wrong kind is called one too
few where a single register would do, and the first parameter can get the blame for a later
one.
-/

namespace Izmir.Listing

/-! ### Forms -/

/-- What a form has at one of its places. -/
inductive Kind where
  | integer
  /-- An integer that is not negative. -/
  | count
  | slot
  | register
  | label
  | name
  /-- An integer, a slot or a register. -/
  | operand
  deriving DecidableEq, Repr

def Kind.admits : Kind → Parameter → Bool
  | integer, .integer _ => true
  | count, .integer v => 0 ≤ v
  | slot, .slot _ => true
  | register, .register _ => true
  | label, .label _ => true
  | name, .name _ => true
  | operand, .integer _ | operand, .slot _ | operand, .register _ => true
  | _, _ => false

def Mnemonic.forms : Mnemonic → List (List Kind)
  | branch => [[.label]]
  | pushConstant => [[.integer]]
  | pushVariable | popVariable => [[.slot]]
  | input | print | ret => [[], [.register]]
  | drop => [[]]
  | call => [[.name, .count], [.name, .register, .count, .register]]
  | move => [[.operand, .operand]]

namespace Opcode

/-- The forms of an opcode. Operations and conditional branches take registers in any number. -/
inductive Form : Opcode → List Kind → Prop where
  | operation (o : Operation) (n : Nat) : Form (.operation o) (List.replicate n .register)
  | branchIf (c : Condition) (n : Nat) :
      Form (.branchIf c) (List.replicate n .register ++ [.label])
  | other {m : Mnemonic} {row : List Kind} (h : row ∈ m.forms) : Form (.other m) row

/-- Some form has this number of places. -/
def Takes (k : Opcode) (n : Nat) : Prop :=
  ∃ row, k.Form row ∧ row.length = n

/-- Some form admits the parameters. -/
def Accepts (k : Opcode) (ps : List Parameter) : Prop :=
  ∃ row, k.Form row ∧ List.Forall₂ (fun kind p => kind.admits p = true) row ps

/-- No form with as many places admits the parameter at this position. -/
def Refuses (k : Opcode) (ps : List Parameter) (i : Nat) : Prop :=
  ∀ row, k.Form row → row.length = ps.length →
    ∀ kind ∈ row[i]?, ∀ p ∈ ps[i]?, kind.admits p = false

variable {k : Opcode} {ps : List Parameter} {row : List Kind} {i : Nat}

/-- Forms of an opcode differ in their length. -/
lemma Form.eq_of_length {row' : List Kind} (h : k.Form row) (h' : k.Form row')
    (hlen : row.length = row'.length) : row = row' := by
  cases h with
  | operation o n =>
    cases h' with
    | operation _ n' => simp_all
  | branchIf c n =>
    cases h' with
    | branchIf _ n' => simp_all
  | @other m _ hrow =>
    cases h' with
    | other hrow' =>
      have hdistinct : (m.forms.map List.length).Nodup := by cases m <;> decide
      exact List.inj_on_of_nodup_map hdistinct hrow hrow' hlen

/-- There is at most one form with as many places, so that it alone decides. -/
lemma refuses_iff {kind : Kind} {p : Parameter} (hrow : k.Form row)
    (hlen : row.length = ps.length) (hkind : row[i]? = some kind) (hp : ps[i]? = some p) :
    k.Refuses ps i ↔ kind.admits p = false := by
  constructor
  · intro h
    exact h row hrow hlen kind hkind p hp
  · intro h row' hrow' hlen' kind' hkind' p' hp'
    obtain rfl := hrow'.eq_of_length hrow (hlen'.trans hlen.symm)
    cases hkind.symm.trans hkind'
    cases hp.symm.trans hp'
    exact h

lemma not_accepts_of_refuses (hi : i < ps.length) (h : k.Refuses ps i) : ¬k.Accepts ps := by
  rintro ⟨row, hrow, hfit⟩
  have hlen := hfit.length_eq
  have hrefused := h row hrow hlen row[i] (List.getElem?_eq_getElem _) ps[i]
    (List.getElem?_eq_getElem _)
  have hadmitted := hfit.get (hlen ▸ hi) hi
  simp only [List.get_eq_getElem] at hadmitted
  rw [hrefused] at hadmitted
  cases hadmitted

lemma takes_other {m : Mnemonic} {n : Nat} :
    (Opcode.other m).Takes n ↔ n ∈ m.forms.map List.length := by
  rw [List.mem_map]
  constructor
  · rintro ⟨row, hrow, hlen⟩
    cases hrow with
    | other hrow => exact ⟨row, hrow, hlen⟩
  · rintro ⟨row, hrow, hlen⟩
    exact ⟨row, .other hrow, hlen⟩

end Opcode

/-! ### Lines that are read -/

lemma Kind.admits_register {p : Parameter} :
    Kind.register.admits p = true ↔ ∃ r, p = .register r := by
  cases p <;> simp [admits]

lemma Kind.admits_operand (p : Parameter) : Kind.operand.admits p = p.operand?.isSome := by
  cases p <;> rfl

lemma Kind.admits_count_eq_false {v : Value} (h : Parameter.count? v = none) :
    Kind.count.admits (.integer v) = false := by
  unfold Parameter.count? at h
  split at h
  · cases h
  · rename_i hv
    exact decide_eq_false hv

lemma forall₂_replicate {kind : Kind} {n : Nat} {ps : List Parameter} (hn : ps.length = n)
    (h : ∀ p ∈ ps, kind.admits p = true) :
    List.Forall₂ (fun kind p => kind.admits p = true) (List.replicate n kind) ps := by
  subst hn
  induction ps with
  | nil => exact .nil
  | cons p ps ih =>
    obtain ⟨hp, hps⟩ := List.forall_mem_cons.mp h
    exact .cons hp (ih hps)

/-- The parameters of an instruction fit a form of its opcode. -/
lemma accepts_parameters {i : SymbolicInstr} (h : i.CountFits) :
    i.opcode.Accepts i.parameters := by
  have hregisters (rs : List Nat) : ∀ p ∈ rs.map Parameter.register,
      Kind.register.admits p = true := by
    simp [Kind.admits]
  have hcount {n : Nat} (hn : n < 2 ^ 63) :
      Kind.count.admits (.integer (Int64.ofNat n)) = true := by
    have hread := (Parameter.count?_eq_some_iff (n := n)).mpr ⟨rfl, hn⟩
    unfold Parameter.count? at hread
    exact decide_eq_true (Option.ite_none_right_eq_some.mp hread).1
  cases i with
  | operate o => exact ⟨_, .operation o 0, .nil⟩
  | operateRegisters o rs r =>
    refine ⟨_, .operation o (rs.length + 1), forall₂_replicate ?_ ?_⟩
    · simp [SymbolicInstr.parameters]
    · simpa [SymbolicInstr.parameters] using hregisters (rs ++ [r])
  | branchIf c l => exact ⟨_, .branchIf c 0, .cons rfl .nil⟩
  | branchIfRegisters c rs l =>
    exact ⟨_, .branchIf c rs.length,
      List.rel_append (forall₂_replicate (List.length_map _) (hregisters rs)) (.cons rfl .nil)⟩
  | call g n => exact ⟨_, .other List.mem_cons_self, .cons rfl (.cons (hcount h) .nil)⟩
  | callRegisters g first n r =>
    exact ⟨_, .other (List.mem_cons_of_mem _ List.mem_cons_self),
      .cons rfl (.cons rfl (.cons (hcount h) (.cons rfl .nil)))⟩
  | move a b =>
    have hoperand (a : Operand) : Kind.operand.admits (.ofOperand a) = true := by cases a <;> rfl
    exact ⟨_, .other List.mem_cons_self, .cons (hoperand a) (.cons (hoperand b) .nil)⟩
  | input | print | ret | drop => exact ⟨_, .other List.mem_cons_self, .nil⟩
  | inputRegister r | printRegister r | retRegister r =>
    exact ⟨_, .other (List.mem_cons_of_mem _ List.mem_cons_self), .cons rfl .nil⟩
  | pushConstant _ | pushVariable _ | popVariable _ | branch _ =>
    exact ⟨_, .other List.mem_cons_self, .cons rfl .nil⟩

/-! ### What a refusal says -/

namespace Opcode

/-- The first parameter is as it should be and gets the blame for a later one: for a source that
is no register, in front of the last parameter, or for a wrong kind anywhere after a callee. -/
def Misled : Opcode → List Parameter → Prop
  | .operation _, ps =>
    ∃ r qs last, ps = .register r :: qs ++ [last] ∧ ∃ q ∈ qs, Kind.register.admits q = false
  | .branchIf _, ps =>
    ∃ r qs l, ps = .register r :: qs ++ [.label l] ∧ ∃ q ∈ qs, Kind.register.admits q = false
  | .other .call, ps =>
    ∃ g qs, ps = .name g :: qs ∧ (∀ v, qs ≠ [.integer v]) ∧
      ∀ first v r, qs ≠ [.register first, .integer v, .register r]
  | .other _, _ => False

/-- A single parameter that is no register, where a single register would do. -/
def Miscounted : Opcode → List Parameter → Prop
  | .other m, [p] => m.forms = [[], [.register]] ∧ Kind.register.admits p = false
  | _, _ => False

/-- The position that is blamed for the kind of its parameter. -/
structure Blames (k : Opcode) (ps : List Parameter) (i : Nat) : Prop where
  lt : i < ps.length
  takes : k.Takes ps.length
  refuses : ¬k.Misled ps → k.Refuses ps i
  misled : k.Misled ps → i = 0 ∧ ¬k.Refuses ps 0 ∧ ∃ j, 0 < j ∧ j < ps.length ∧ k.Refuses ps j

/-- What is said of a line whose parameters fit no form. -/
inductive Rejects (k : Opcode) (f : Fields) (ps : List Parameter) : Blame → Prop where
  | kind {i : Nat} (h : k.Blames ps i) (hcount : ¬k.Miscounted ps) : Rejects k f ps (f.kindError i)
  | tooMany (h : ∀ n, k.Takes n → n < ps.length) :
      Rejects k f ps ⟨f.mnemonic, .tooManyParameters⟩
  | tooFew (h : ¬k.Takes ps.length ∧ (∃ n, k.Takes n ∧ ps.length < n) ∨ k.Miscounted ps) :
      Rejects k f ps ⟨f.mnemonic, .tooFewParameters⟩

variable {k : Opcode} {ps qs : List Parameter} {p last : Parameter} {row : List Kind}
  {kind : Kind} {i : Nat}

lemma not_miscounted {m : Mnemonic} (hm : m.forms ≠ [[], [.register]]) :
    ¬(Opcode.other m).Miscounted ps := by
  unfold Miscounted
  split
  · rename_i heq
    cases heq
    exact fun h => hm h.1
  · exact id

lemma Miscounted.takes (h : k.Miscounted ps) : k.Takes ps.length := by
  unfold Miscounted at h
  split at h
  · exact takes_other.mpr (by simp [h.1])
  · cases h

lemma Miscounted.not_accepts (h : k.Miscounted ps) : ¬k.Accepts ps := by
  unfold Miscounted at h
  split at h
  · rename_i m p
    obtain ⟨hforms, hp⟩ := h
    have hrow : (Opcode.other m).Form [.register] := .other (by simp [hforms])
    exact not_accepts_of_refuses Nat.zero_lt_one ((refuses_iff hrow rfl rfl rfl).mpr hp)
  · cases h

lemma Rejects.not_accepts {f : Fields} {b : Blame} (h : k.Rejects f ps b) : ¬k.Accepts ps := by
  cases h with
  | @kind i h _ =>
    by_cases hmisled : k.Misled ps
    · obtain ⟨-, -, j, -, hj, hrefused⟩ := h.misled hmisled
      exact not_accepts_of_refuses hj hrefused
    · exact not_accepts_of_refuses h.lt (h.refuses hmisled)
  | tooMany h =>
    rintro ⟨row, hrow, hfit⟩
    exact (h _ ⟨row, hrow, hfit.length_eq⟩).false
  | tooFew h =>
    rcases h with ⟨htakes, -⟩ | hmiscounted
    · rintro ⟨row, hrow, hfit⟩
      exact htakes ⟨row, hrow, hfit.length_eq⟩
    · exact hmiscounted.not_accepts

/-- The three faults tell apart what is wrong. -/
lemma Rejects.fault {f : Fields} {b : Blame} (h : k.Rejects f ps b) :
    (b.fault = .invalidParameterKind ↔ k.Takes ps.length ∧ ¬k.Miscounted ps) ∧
      (b.fault = .tooManyParameters ↔ ∀ n, k.Takes n → n < ps.length) ∧
      (b.fault = .tooFewParameters ↔
        ¬k.Takes ps.length ∧ (∃ n, k.Takes n ∧ ps.length < n) ∨ k.Miscounted ps) := by
  cases h with
  | @kind i h hcount =>
    have hlong : ¬∀ n, k.Takes n → n < ps.length := fun hlt => (hlt _ h.takes).false
    simp [Fields.kindError, h.takes, hcount, hlong]
  | tooMany h =>
    have htakes : ¬k.Takes ps.length := fun htakes => (h _ htakes).false
    have hcount : ¬k.Miscounted ps := fun hcount => htakes hcount.takes
    have hlonger : ¬∃ n, k.Takes n ∧ ps.length < n := fun ⟨n, hn, hlt⟩ => (hlt.trans (h n hn)).false
    simpa [htakes, hcount, hlonger] using h
  | tooFew h =>
    have hkind : ¬(k.Takes ps.length ∧ ¬k.Miscounted ps) := fun ⟨htakes, hcount⟩ =>
      h.elim (fun h => h.1 htakes) hcount
    have hlong : ¬∀ n, k.Takes n → n < ps.length := by
      intro hlt
      rcases h with ⟨-, n, hn, hlonger⟩ | hcount
      · exact (hlonger.trans (hlt n hn)).false
      · exact (hlt _ hcount.takes).false
    simp [hkind, hlong, h]

lemma Blames.of_refused (hrow : k.Form row) (hlen : row.length = ps.length)
    (hkind : row[i]? = some kind) (hp : ps[i]? = some p) (h : kind.admits p = false)
    (hmisled : ¬k.Misled ps) : k.Blames ps i where
  lt := (List.getElem?_eq_some_iff.mp hp).1
  takes := ⟨row, hrow, hlen⟩
  refuses _ := (refuses_iff hrow hlen hkind hp).mpr h
  misled hm := (hmisled hm).elim

lemma Blames.of_misled {j : Nat} {first : Kind} {p₀ : Parameter} (hrow : k.Form row)
    (hlen : row.length = ps.length) (hfirst : row[0]? = some first) (hp₀ : ps[0]? = some p₀)
    (h₀ : first.admits p₀ = true) (hj : 0 < j) (hkind : row[j]? = some kind)
    (hp : ps[j]? = some p) (h : kind.admits p = false) (hmisled : k.Misled ps) :
    k.Blames ps 0 where
  lt := (List.getElem?_eq_some_iff.mp hp₀).1
  takes := ⟨row, hrow, hlen⟩
  refuses hm := (hm hmisled).elim
  misled _ := by
    refine ⟨rfl, ?_, j, hj, (List.getElem?_eq_some_iff.mp hp).1,
      (refuses_iff hrow hlen hkind hp).mpr h⟩
    rw [refuses_iff hrow hlen hfirst hp₀, h₀]
    exact Bool.noConfusion

/-- A bad source is blamed on the first one. -/
lemma Blames.of_sources (hrow : ∀ n, k.Form (List.replicate n .register ++ [kind]))
    (hmisled : k.Misled (qs ++ [last]) ↔
      ∃ r rest, qs = .register r :: rest ∧ ∃ q ∈ rest, Kind.register.admits q = false)
    (hbad : ∃ q ∈ qs, Kind.register.admits q = false) : k.Blames (qs ++ [last]) 0 := by
  have hlen : (List.replicate qs.length Kind.register ++ [kind]).length =
      (qs ++ [last]).length := by simp
  have hkind {j : Nat} {q : Parameter} (hq : qs[j]? = some q) :
      (List.replicate qs.length Kind.register ++ [kind])[j]? = some .register ∧
        (qs ++ [last])[j]? = some q := by
    have hj := (List.getElem?_eq_some_iff.mp hq).1
    rw [List.getElem?_append_left (by simpa using hj), List.getElem?_append_left hj,
      List.getElem?_replicate_of_lt hj]
    exact ⟨rfl, hq⟩
  obtain ⟨q, hq, hbad⟩ := hbad
  cases qs with
  | nil => cases hq
  | cons p rest =>
    have hfirst := hkind (j := 0) rfl
    cases hp : Kind.register.admits p with
    | false =>
      refine .of_refused (hrow _) hlen hfirst.1 hfirst.2 hp fun hm => ?_
      obtain ⟨r, _, heq, -⟩ := hmisled.mp hm
      cases heq
      cases hp
    | true =>
      obtain ⟨r, rfl⟩ := Kind.admits_register.mp hp
      have hmem : q ∈ rest := by
        rcases List.mem_cons.mp hq with rfl | hmem
        · cases hbad
        · exact hmem
      obtain ⟨j, hj⟩ := List.getElem?_of_mem hmem
      have hkind := hkind (j := j + 1) hj
      exact .of_misled (hrow _) hlen hfirst.1 hfirst.2 hp j.succ_pos hkind.1 hkind.2 hbad
        (hmisled.mpr ⟨r, rest, rfl, q, hmem, hbad⟩)

end Opcode

/-! ### Refusals -/

lemma Parameter.exists_of_registers?_eq_none {ps : List Parameter}
    (h : Parameter.registers? ps = none) : ∃ p ∈ ps, Kind.register.admits p = false := by
  by_contra hall
  have hregister : ∀ p ∈ ps, p ∈ Set.range Parameter.register := by
    intro p hp
    cases hadmits : Kind.register.admits p with
    | false => exact (hall ⟨p, hp, hadmits⟩).elim
    | true =>
      obtain ⟨r, rfl⟩ := Kind.admits_register.mp hadmits
      exact ⟨r, rfl⟩
  obtain ⟨rs, rfl⟩ : ps ∈ Set.range (List.map Parameter.register) := by
    rwa [Set.range_list_map]
  rw [Parameter.registers?_eq_some_iff.mpr rfl] at h
  cases h

namespace Fields

open Opcode

variable {f : Fields} {ps : List Parameter} {b : Blame}

lemma operation_rejects {o : Operation} (h : f.operation o ps = .error b) :
    (Opcode.operation o).Rejects f ps b := by
  have hrow (n : Nat) : (Opcode.operation o).Form (List.replicate n .register ++ [.register]) := by
    rw [← List.replicate_succ']
    exact .operation o (n + 1)
  have hcount : ¬(Opcode.operation o).Miscounted ps := by simp [Miscounted]
  rcases List.eq_nil_or_concat' ps with rfl | ⟨qs, last, rfl⟩
  · cases h
  have hmisled : (Opcode.operation o).Misled (qs ++ [last]) ↔
      ∃ r rest, qs = .register r :: rest ∧ ∃ q ∈ rest, Kind.register.admits q = false := by
    constructor
    · rintro ⟨r, rest, last', heq, hbad⟩
      exact ⟨r, rest, (List.append_inj' heq rfl).1, hbad⟩
    · rintro ⟨r, rest, rfl, hbad⟩
      exact ⟨r, rest, last, rfl, hbad⟩
  simp only [operation, List.getLast?_concat, List.dropLast_concat] at h
  cases hsources : Parameter.registers? qs with
  | none =>
    rw [hsources] at h
    cases h
    exact .kind (.of_sources hrow hmisled (Parameter.exists_of_registers?_eq_none hsources)) hcount
  | some rs =>
    have hlast (hbad : Kind.register.admits last = false) : (Opcode.operation o).Rejects f
        (qs ++ [last]) (f.kindError ((qs ++ [last]).length - 1)) := by
      refine .kind (.of_refused (hrow qs.length) (by simp) (by simp) (by simp) hbad ?_) hcount
      rw [hmisled, Parameter.registers?_eq_some_iff.mp hsources]
      rintro ⟨r, rest, heq, q, hq, hbad⟩
      obtain ⟨k, -, rfl⟩ := List.mem_map.mp (heq ▸ List.mem_cons_of_mem _ hq)
      cases hbad
    rw [hsources] at h
    cases last <;> cases h
    all_goals exact hlast rfl

lemma conditionalBranch_rejects {c : Condition} (hlen : f.tokens.length = ps.length)
    (h : f.conditionalBranch c ps = .error b) : (Opcode.branchIf c).Rejects f ps b := by
  have hrow := Form.branchIf c
  have hcount : ¬(Opcode.branchIf c).Miscounted ps := by simp [Miscounted]
  rcases List.eq_nil_or_concat' ps with rfl | ⟨qs, last, rfl⟩
  · have htakes {n : Nat} (hn : (Opcode.branchIf c).Takes n) : 0 < n := by
      obtain ⟨_, ⟨⟩, rfl⟩ := hn
      simp
    have hb : b = ⟨f.mnemonic, .tooFewParameters⟩ := by
      cases h
      simp [countError, hlen]
    rw [hb]
    exact .tooFew (.inl ⟨fun hn => (htakes hn).false, 1, ⟨_, hrow 0, rfl⟩, Nat.zero_lt_one⟩)
  have hlast (hbad : Kind.label.admits last = false) : (Opcode.branchIf c).Rejects f
      (qs ++ [last]) (f.kindError ((qs ++ [last]).length - 1)) := by
    refine .kind (.of_refused (hrow qs.length) (by simp) (by simp) (by simp) hbad ?_) hcount
    rintro ⟨r, rest, l, heq, -⟩
    cases (List.append_inj' heq rfl).2
    cases hbad
  simp only [conditionalBranch, List.getLast?_concat, List.dropLast_concat] at h
  cases last with
  | label l =>
    have hmisled : (Opcode.branchIf c).Misled (qs ++ [.label l]) ↔
        ∃ r rest, qs = .register r :: rest ∧ ∃ q ∈ rest, Kind.register.admits q = false := by
      constructor
      · rintro ⟨r, rest, l', heq, hbad⟩
        exact ⟨r, rest, (List.append_inj' heq rfl).1, hbad⟩
      · rintro ⟨r, rest, rfl, hbad⟩
        exact ⟨r, rest, l, rfl, hbad⟩
    cases qs with
    | nil => cases h
    | cons p rest =>
      cases hsources : Parameter.registers? (p :: rest) with
      | some rs =>
        simp only [hsources] at h
        cases h
      | none =>
        simp only [hsources] at h
        cases h
        exact .kind (.of_sources hrow hmisled (Parameter.exists_of_registers?_eq_none hsources))
          hcount
  | integer _ | slot _ | register _ | name _ =>
    cases h
    exact hlast rfl

lemma countError_rejects {m : Mnemonic} (hlen : f.tokens.length = ps.length)
    (h : ¬(Opcode.other m).Takes ps.length ∨ (Opcode.other m).Miscounted ps) :
    (Opcode.other m).Rejects f ps (f.countError (m.forms.map List.length)) := by
  unfold countError
  split
  · rename_i hall
    refine .tooMany fun n hn => ?_
    have hlt := List.all_eq_true.mp hall n (takes_other.mp hn)
    rwa [decide_eq_true_eq, hlen] at hlt
  · rename_i hall
    refine .tooFew (h.imp_left fun htakes => ⟨htakes, ?_⟩)
    simp only [List.all_eq_true, decide_eq_true_eq, not_forall, hlen] at hall
    obtain ⟨n, hn, hle⟩ := hall
    have htakes' := takes_other.mpr hn
    refine ⟨n, htakes', lt_of_le_of_ne (Nat.le_of_not_lt hle) ?_⟩
    rintro rfl
    exact htakes htakes'

lemma unary_rejects {m : Mnemonic} (kind : Kind) (hm : m.forms = [[kind]])
    (hmisled : ¬(Opcode.other m).Misled ps) (hlen : f.tokens.length = ps.length)
    (hp : ∀ p, ps = [p] → kind.admits p = false) :
    (Opcode.other m).Rejects f ps (f.unaryError ps) := by
  have hcount : ¬(Opcode.other m).Miscounted ps := not_miscounted (by simp [hm])
  unfold unaryError
  split
  · rename_i hone
    obtain ⟨p, rfl⟩ := List.length_eq_one_iff.mp hone
    have hrow : (Opcode.other m).Form [kind] := .other (by simp [hm])
    exact .kind (.of_refused hrow rfl rfl rfl (hp p rfl) hmisled) hcount
  · rename_i hone
    have herror := countError_rejects (f := f) (m := m) hlen (.inl (by simpa [takes_other, hm]))
    rwa [hm] at herror

lemma optional_rejects {m : Mnemonic} (hm : m.forms = [[], [.register]])
    (hlen : f.tokens.length = ps.length) (hnil : ps ≠ []) (hne : ∀ r, ps ≠ [.register r]) :
    (Opcode.other m).Rejects f ps (f.countError [0, 1]) := by
  have herror := countError_rejects (f := f) (m := m) hlen
  rw [hm] at herror
  refine herror ?_
  match ps with
  | [] => exact (hnil rfl).elim
  | [p] =>
    refine .inr ⟨hm, ?_⟩
    cases p with
    | register r => exact (hne r rfl).elim
    | _ => rfl
  | _ :: _ :: _ => exact .inl (by simp [takes_other, hm])

/-- Whatever is wrong with the kinds of a call, its first parameter gets the blame. -/
lemma call_blames {p : Parameter} {qs : List Parameter} (kinds : List Kind)
    (hrow : (Opcode.other .call).Form (.name :: kinds)) (hlen : kinds.length = qs.length)
    (hmisled : ∀ g, p = .name g → (Opcode.other .call).Misled (p :: qs) ∧
      ∃ (j : Nat) (kind : Kind) (q : Parameter), kinds[j]? = some kind ∧ qs[j]? = some q ∧
        kind.admits q = false) :
    (Opcode.other .call).Blames (p :: qs) 0 := by
  have hlen : (Kind.name :: kinds).length = (p :: qs).length := congrArg Nat.succ hlen
  cases hp : Kind.name.admits p with
  | false =>
    refine .of_refused hrow hlen rfl rfl hp ?_
    rintro ⟨g, _, heq, -⟩
    cases heq
    cases hp
  | true =>
    cases p with
    | name g =>
      obtain ⟨hmisled, j, kind, q, hkind, hq, hbad⟩ := hmisled g rfl
      exact .of_misled (j := j + 1) hrow hlen rfl rfl hp j.succ_pos hkind hq hbad hmisled
    | _ => cases hp

/-- A call with as many parameters as one of its forms has, but of other kinds. -/
lemma call_rejects (hlength : ps.length = 2 ∨ ps.length = 4)
    (h : ∀ g v, ps ≠ [.name g, .integer v])
    (h' : ∀ g first v r, ps ≠ [.name g, .register first, .integer v, .register r]) :
    (Opcode.other .call).Rejects f ps (f.kindError 0) := by
  refine .kind ?_ (not_miscounted (by decide))
  have hmisled {g : String} {qs : List Parameter} (hps : ps = .name g :: qs) :
      (Opcode.other .call).Misled ps :=
    ⟨g, qs, hps, fun v hv => h g v (hv ▸ hps), fun first v r hv => h' g first v r (hv ▸ hps)⟩
  rcases hlength with hlength | hlength
  · obtain ⟨p, q, rfl⟩ := List.length_eq_two.mp hlength
    refine call_blames [.count] (.other (by decide)) rfl ?_
    rintro g rfl
    refine ⟨hmisled rfl, 0, .count, q, rfl, rfl, ?_⟩
    cases q with
    | integer v => exact (h g v rfl).elim
    | _ => rfl
  · obtain ⟨p, q, r, s, rfl⟩ := List.length_eq_four.mp hlength
    refine call_blames [.register, .count, .register] (.other (by decide)) rfl ?_
    rintro g rfl
    refine ⟨hmisled rfl, ?_⟩
    cases hq : Kind.register.admits q with
    | false => exact ⟨0, .register, q, rfl, rfl, hq⟩
    | true =>
      cases hs : Kind.register.admits s with
      | false => exact ⟨2, .register, s, rfl, rfl, hs⟩
      | true =>
        obtain ⟨first, rfl⟩ := Kind.admits_register.mp hq
        obtain ⟨destination, rfl⟩ := Kind.admits_register.mp hs
        refine ⟨1, .count, r, rfl, rfl, ?_⟩
        cases r with
        | integer v => exact (h' g first v destination rfl).elim
        | _ => rfl

/-- A negative count is refused where it stands. -/
lemma count_rejects (row : List Kind) {v : Value} {j : Nat} (hrow : row ∈ Mnemonic.call.forms)
    (hlen : row.length = ps.length) (hkind : row[j]? = some .count)
    (hp : ps[j]? = some (.integer v)) (hv : Parameter.count? v = none)
    (hmisled : ¬(Opcode.other .call).Misled ps) :
    (Opcode.other .call).Rejects f ps (f.kindError j) :=
  .kind (.of_refused (.other hrow) hlen hkind hp (Kind.admits_count_eq_false hv) hmisled)
    (not_miscounted (by decide))

lemma move_rejects {p q : Parameter} {j : Nat} {bad : Parameter} (hbad : [p, q][j]? = some bad)
    (hkind : [Kind.operand, .operand][j]? = some .operand) (h : bad.operand? = none) :
    (Opcode.other .move).Rejects f [p, q] (f.kindError j) := by
  have hrefused : Kind.operand.admits bad = false := by rw [Kind.admits_operand, h]; rfl
  exact .kind (.of_refused (.other (by decide)) rfl hkind hbad hrefused id)
    (not_miscounted (by decide))

lemma other_rejects {m : Mnemonic} (hlen : f.tokens.length = ps.length)
    (h : f.other m ps = .error b) : (Opcode.other m).Rejects f ps b := by
  cases m with
  | branch =>
    simp only [other] at h
    split at h <;> cases h
    rename_i hne
    refine unary_rejects .label rfl id hlen ?_
    rintro (_ | _ | _ | l | _) hp
    case label => exact (hne l hp).elim
    all_goals rfl
  | pushConstant =>
    simp only [other] at h
    split at h <;> cases h
    rename_i hne
    refine unary_rejects .integer rfl id hlen ?_
    rintro (v | _ | _ | _ | _) hp
    case integer => exact (hne v hp).elim
    all_goals rfl
  | pushVariable | popVariable =>
    simp only [other] at h
    split at h <;> cases h
    rename_i hne
    refine unary_rejects .slot rfl id hlen ?_
    rintro (_ | n | _ | _ | _) hp
    case slot => exact (hne n hp).elim
    all_goals rfl
  | input | print | ret =>
    simp only [other] at h
    split at h <;> cases h
    rename_i hnil hne
    exact optional_rejects rfl hlen hnil hne
  | drop =>
    simp only [other] at h
    split at h <;> cases h
    rename_i hne
    exact countError_rejects hlen (.inl (by simpa [takes_other, Mnemonic.forms] using hne))
  | call =>
    simp only [other] at h
    split at h
    · rename_i g v
      split at h <;> cases h
      rename_i hv
      refine count_rejects [.name, .count] (by decide) rfl rfl rfl hv ?_
      rintro ⟨_, _, ⟨⟩, hne, -⟩
      exact hne v rfl
    · rename_i g first v r
      split at h <;> cases h
      rename_i hv
      refine count_rejects [.name, .register, .count, .register] (by decide) rfl rfl rfl hv ?_
      rintro ⟨_, _, ⟨⟩, -, hne⟩
      exact hne first v r rfl
    · rename_i hne hne'
      split at h <;> cases h <;> rename_i hlength
      · exact call_rejects hlength hne hne'
      · exact countError_rejects hlen
          (.inl (by simpa [takes_other, Mnemonic.forms] using hlength))
  | move =>
    simp only [other] at h
    split at h
    · rename_i p q
      split at h <;> cases h
      · rename_i hp
        exact move_rejects (j := 0) rfl rfl hp
      · rename_i hq
        exact move_rejects (j := 1) rfl rfl hq
    · rename_i hne
      cases h
      refine countError_rejects hlen (.inl ?_)
      simpa [takes_other, Mnemonic.forms, List.length_eq_two] using hne

lemma length_of_parameters (h : f.parameters = .ok ps) : f.tokens.length = ps.length := by
  rw [parameters, mapM_eq_ok_iff] at h
  exact h.length_eq

lemma fault_of_parameters (h : f.parameters = .error b) : b.fault = .invalidParameter := by
  obtain ⟨t, -, ht⟩ := exists_of_mapM_eq_error h
  split at ht
  · cases ht
  · cases ht
    rfl

lemma decode_rejects {k : Opcode} (hlen : f.tokens.length = ps.length)
    (h : f.decode ps k = .error b) : k.Rejects f ps b := by
  cases k with
  | operation o => exact operation_rejects h
  | branchIf c => exact conditionalBranch_rejects hlen h
  | other m => exact other_rejects hlen h

/-- A line that is refused has a parameter that is none or an unknown mnemonic, or else its
parameters fit no form. -/
lemma instr_eq_error (h : f.instr = .error b) :
    b.fault = .invalidParameter ∨ b.fault = .invalidInstruction ∨
      ∃ (k : Opcode) (ps : List Parameter), f.mnemonic = k.text.toList ∧ f.parameters = .ok ps ∧
        k.Rejects f ps b := by
  cases hps : f.parameters with
  | error e =>
    have he : f.instr = .error e := by rw [instr, hps]; rfl
    cases he.symm.trans h
    exact .inl (fault_of_parameters hps)
  | ok ps =>
    by_cases hk : ∃ k : Opcode, f.mnemonic = k.text.toList
    · obtain ⟨k, hk⟩ := hk
      rw [instr_of_opcode hk, hps] at h
      exact .inr (.inr ⟨k, ps, hk, rfl, decode_rejects (length_of_parameters hps) h⟩)
    · rw [instr_of_no_opcode (not_exists.mp hk), hps] at h
      cases h
      exact .inr (.inl rfl)

end Fields

/-- What is said of an instruction line that is refused, when its mnemonic is known and each of
its parameters is one. The line is refused exactly if no form accepts the parameters. The kind
of one of them is reported where some form has their number, and otherwise there are too many
of them for every form or too few for one; except that a single parameter that is no register
is called too few where a single register would do. -/
theorem refused_line_fault {line : List Char} {k : Opcode} {ps : List Parameter}
    (hk : (Fields.ofLine line).mnemonic = k.text.toList)
    (hps : (Fields.ofLine line).parameters = .ok ps) :
    ((∃ b, (Fields.ofLine line).instr = .error b) ↔ ¬k.Accepts ps) ∧
      ∀ b, (Fields.ofLine line).instr = .error b →
        (b.fault = .invalidParameterKind ↔ k.Takes ps.length ∧ ¬k.Miscounted ps) ∧
        (b.fault = .tooManyParameters ↔ ∀ n, k.Takes n → n < ps.length) ∧
        (b.fault = .tooFewParameters ↔
          ¬k.Takes ps.length ∧ (∃ n, k.Takes n ∧ ps.length < n) ∨ k.Miscounted ps) := by
  have hlen := Fields.length_of_parameters hps
  have hinstr : (Fields.ofLine line).instr = (Fields.ofLine line).decode ps k := by
    rw [Fields.instr_of_opcode hk, hps]
    rfl
  rw [hinstr]
  constructor
  · constructor
    · rintro ⟨b, hb⟩
      exact (Fields.decode_rejects hlen hb).not_accepts
    · intro hrefused
      cases hdecode : (Fields.ofLine line).decode ps k with
      | error b => exact ⟨b, rfl⟩
      | ok i =>
        obtain ⟨rfl, rfl, hcount, -⟩ := Fields.decode_eq_ok_iff.mp hdecode
        exact (hrefused (accepts_parameters hcount)).elim
  · intro b hb
    exact (Fields.decode_rejects hlen hb).fault

/-- A call with three parameters has too few for its longer form, though all of them would do
there. -/
theorem short_call_fault :
    ∃ ps, (Fields.ofLine "call  f, %r1,2".toList).mnemonic = (Opcode.other .call).text.toList ∧
      (Fields.ofLine "call  f, %r1,2".toList).parameters = .ok ps ∧
      ((∃ b, (Fields.ofLine "call  f, %r1,2".toList).instr = .error b) ↔
        ¬(Opcode.other .call).Accepts ps) ∧
      ∀ b, (Fields.ofLine "call  f, %r1,2".toList).instr = .error b →
        (b.fault = .tooFewParameters ↔
          ¬(Opcode.other .call).Takes ps.length ∧
              (∃ n, (Opcode.other .call).Takes n ∧ ps.length < n) ∨
            (Opcode.other .call).Miscounted ps) := by
  have hk : (Fields.ofLine "call  f, %r1,2".toList).mnemonic =
      (Opcode.other .call).text.toList := by
    decide +kernel
  have hps : (Fields.ofLine "call  f, %r1,2".toList).parameters =
      .ok [.name "f", .register 1, .integer 2] := by
    decide +kernel
  obtain ⟨hrefused, hfault⟩ := refused_line_fault hk hps
  exact ⟨_, hk, hps, hrefused, fun b hb => (hfault b hb).2.2⟩

/-- One parameter fits the number of places of a form of `input`, and is reported as too few. -/
theorem input_literal_too_few :
    (Fields.ofLine "input 5".toList).mnemonic = (Opcode.other .input).text.toList ∧
      (Fields.ofLine "input 5".toList).parameters = .ok [.integer 5] ∧
      (Opcode.other .input).Takes 1 ∧ ¬(Opcode.other .input).Accepts [.integer 5] ∧
      (Fields.ofLine "input 5".toList).instr = .error ⟨"input".toList, .tooFewParameters⟩ := by
  have hmiscounted : (Opcode.other .input).Miscounted [.integer 5] := ⟨rfl, rfl⟩
  refine ⟨by decide +kernel, by decide +kernel, hmiscounted.takes, hmiscounted.not_accepts, ?_⟩
  decide +kernel

/-- When the kind of a parameter is reported, then with the text of a parameter. No form with
as many places admits the parameter there; only where the reader is misled, it reports the first
parameter, which a form admits, for another one that none admits. -/
theorem kind_error_blame {line token : List Char}
    (h : (Fields.ofLine line).instr = .error ⟨token, .invalidParameterKind⟩) :
    ∃ (k : Opcode) (ps : List Parameter) (i : Nat),
      (Fields.ofLine line).mnemonic = k.text.toList ∧ (Fields.ofLine line).parameters = .ok ps ∧
      (Fields.ofLine line).tokens[i]? = some token ∧ k.Takes ps.length ∧
      (¬k.Misled ps → k.Refuses ps i) ∧
      (k.Misled ps → i = 0 ∧ ¬k.Refuses ps 0 ∧
        ∃ j, 0 < j ∧ j < ps.length ∧ k.Refuses ps j) := by
  rcases Fields.instr_eq_error h with hfault | hfault | ⟨k, ps, hk, hps, hrejects⟩
  · cases hfault
  · cases hfault
  · generalize hb : (⟨token, .invalidParameterKind⟩ : Blame) = b at hrejects
    cases hrejects with
    | @kind i hblames _ =>
      have hi : i < (Fields.ofLine line).tokens.length :=
        (Fields.length_of_parameters hps).symm ▸ hblames.lt
      have htoken : token = (Fields.ofLine line).tokens[i] := by
        have := congrArg Blame.token hb
        simpa [Fields.kindError, hi] using this
      refine ⟨k, ps, i, hk, hps, ?_, hblames.takes, hblames.refuses, hblames.misled⟩
      rw [htoken, List.getElem?_eq_getElem hi]
    | tooMany => cases hb
    | tooFew => cases hb

/-- A callee that is a register is to blame, whatever follows it. -/
theorem register_callee_blame :
    ∃ (k : Opcode) (ps : List Parameter) (i : Nat),
      (Fields.ofLine "call %r1, x".toList).instr = .error ⟨"%r1".toList, .invalidParameterKind⟩ ∧
      (Fields.ofLine "call %r1, x".toList).mnemonic = k.text.toList ∧
      (Fields.ofLine "call %r1, x".toList).parameters = .ok ps ∧
      (Fields.ofLine "call %r1, x".toList).tokens[i]? = some "%r1".toList ∧
      (¬k.Misled ps → k.Refuses ps i) := by
  have h : (Fields.ofLine "call %r1, x".toList).instr =
      .error ⟨"%r1".toList, .invalidParameterKind⟩ := by
    decide +kernel
  obtain ⟨k, ps, i, hk, hps, htoken, -, hrefuses, -⟩ := kind_error_blame h
  exact ⟨k, ps, i, h, hk, hps, htoken, hrefuses⟩

/-- The second source of a sum is a slot, and the first one is reported, which stands where a
form admits it. -/
theorem sum_blames_first_source :
    (Fields.ofLine "plus %r0, @1, %r2".toList).instr =
        .error ⟨"%r0".toList, .invalidParameterKind⟩ ∧
      (Fields.ofLine "plus %r0, @1, %r2".toList).mnemonic =
        (Opcode.operation .plus).text.toList ∧
      (Fields.ofLine "plus %r0, @1, %r2".toList).parameters =
        .ok [.register 0, .slot 1, .register 2] ∧
      ∀ i, (Fields.ofLine "plus %r0, @1, %r2".toList).tokens[i]? = some "%r0".toList →
        ¬(Opcode.operation .plus).Refuses [.register 0, .slot 1, .register 2] i := by
  refine ⟨by decide +kernel, by decide +kernel, by decide +kernel, ?_⟩
  have htokens : (Fields.ofLine "plus %r0, @1, %r2".toList).tokens =
      ["%r0".toList, "@1".toList, "%r2".toList] := by
    decide +kernel
  intro i hi
  rw [htokens] at hi
  have hrow : (Opcode.operation .plus).Form [.register, .register, .register] := .operation .plus 3
  match i with
  | 0 =>
    rw [Opcode.refuses_iff hrow rfl rfl rfl]
    decide
  | 1 | 2 | _ + 3 => cases hi

end Izmir.Listing
