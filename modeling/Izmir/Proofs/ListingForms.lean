import Izmir.Assembly.Listing
import Izmir.Assembly.Reader
import Izmir.Proofs.Linking
import Izmir.Proofs.Texts

/-!
# The forms of instructions in listings

An instruction has a mnemonic and a list of parameters, which together make up its line in a
listing. Reading a line gives an instruction exactly when the line has the mnemonic and the
parameters of that instruction, so two instructions that share a mnemonic are told apart by
their parameters.
-/

namespace Izmir

open Text

/-! ### Parameters -/

/-- A text that starts with a letter is no integer. -/
lemma Value.ofText?_eq_none {c : Char} {cs : List Char} (h : startsName c) :
    Value.ofText? (c :: cs) = none := by
  have hdigits : Decimal.digits? (c :: cs) = none := by
    simp [Decimal.digits?, isDigit_of_startsName h]
  rw [Value.ofText?, Decimal.integer?, hdigits]
  · rfl
  · rintro _ ⟨⟩
    exact ne_of_class h (by decide) rfl
  · rintro _ ⟨⟩
    exact ne_of_class h (by decide) rfl

namespace Listing

namespace Parameter

def text : Parameter → List Char
  | integer v => v.text
  | slot n => Listing.slot n
  | register n => Listing.register n
  | label l => Listing.label l
  | name f => f.toList

def ofOperand : Operand → Parameter
  | .literal v => integer v
  | .slot n => slot n
  | .register n => register n

/-- Names are names, and indices have 64 bits. -/
def WellSpelled : Parameter → Prop
  | integer _ => True
  | slot n | register n => n < UInt64.size
  | label l | name l => isName l.toList

instance : DecidablePred WellSpelled
  | integer _ => inferInstanceAs (Decidable True)
  | slot _ | register _ => inferInstanceAs (Decidable (_ < _))
  | label _ | name _ => inferInstanceAs (Decidable (_ = true))

/-- Without a mark of its kind, a parameter is an integer or else a name. -/
lemma ofText?_cons {c : Char} (cs : List Char) (h : c ≠ '@' ∧ c ≠ '%' ∧ c ≠ '$') :
    ofText? (c :: cs) =
      match Value.ofText? (c :: cs) with
      | some v => some (integer v)
      | none => if isName (c :: cs) then some (name (String.ofList (c :: cs))) else none := by
  unfold ofText?
  split
  · rename_i heq
    exact absurd (List.cons.inj heq).1 h.1
  · rename_i heq
    exact absurd (List.cons.inj heq).1 h.2.1
  · rename_i heq
    exact absurd (List.cons.inj heq).1 h.2.2
  · rfl

lemma ofText?_value (v : Value) : ofText? v.text = some (integer v) := by
  have hread := v.ofText?_text
  obtain ⟨n, h⟩ := v.exists_text_eq
  obtain ⟨c, cs, hcs, hc⟩ := Decimal.exists_ofNat_eq_cons n
  rcases h with h | h
  · rw [hcs] at h
    rw [h] at hread ⊢
    rw [ofText?_cons, hread]
    exact ⟨ne_of_class hc (by decide), ne_of_class hc (by decide), ne_of_class hc (by decide)⟩
  · rw [h] at hread ⊢
    rw [ofText?_cons _ (by decide), hread]

lemma ofText?_name {f : String} (h : isName f.toList) : ofText? f.toList = some (name f) := by
  cases hf : f.toList with
  | nil =>
    rw [hf] at h
    cases h
  | cons c cs =>
    rw [hf] at h
    have hc : startsName c := (Bool.and_eq_true_iff.mp h).1
    rw [ofText?_cons, Value.ofText?_eq_none hc]
    · rw [← hf] at h ⊢
      simp only [h, if_true, String.ofList_toList]
    · exact ⟨ne_of_class hc (by decide), ne_of_class hc (by decide), ne_of_class hc (by decide)⟩

/-- A parameter is read back from its text. -/
lemma ofText?_text {p : Parameter} (h : p.WellSpelled) : ofText? p.text = some p := by
  cases p with
  | integer v => exact ofText?_value v
  | slot n => rw [text, Listing.slot, ofText?, Decimal.index?_ofNat h, Option.map_some]
  | register n => rw [text, Listing.register, ofText?, Decimal.index?_ofNat h, Option.map_some]
  | label l =>
    have hname : isName l.toList := h
    rw [text, Listing.label, ofText?, if_pos hname, String.ofList_toList]
  | name f => exact ofText?_name h

lemma wellSpelled_of_ofText? {cs : List Char} {p : Parameter} (h : ofText? cs = some p) :
    p.WellSpelled := by
  unfold ofText? at h
  split at h
  · obtain ⟨n, hn, rfl⟩ := Option.map_eq_some_iff.mp h
    exact Decimal.lt_of_index? hn
  · obtain ⟨n, hn, rfl⟩ := Option.map_eq_some_iff.mp h
    exact Decimal.lt_of_index? hn
  · split at h
    · cases h
      rename_i hname
      simpa [WellSpelled] using hname
    · cases h
  · split at h
    · cases h
      trivial
    · split at h
      · cases h
        rename_i hname
        simpa [WellSpelled] using hname
      · cases h

lemma solid_text {p : Parameter} (h : p.WellSpelled) : Solid p.text := by
  cases p with
  | integer v => exact v.solid_text
  | slot n => exact .cons (by decide) (Decimal.solid_ofNat n).2
  | register n =>
    exact .cons (by decide) (Solid.cons (by decide) (Decimal.solid_ofNat n).2).2
  | label l => exact .cons (by decide) (Solid.of_isName h).2
  | name f => exact .of_isName h

end Parameter

/-! ### Mnemonics -/

def Mnemonic.text : Mnemonic → String
  | branch => "b"
  | pushConstant => "pushconstant"
  | pushVariable => "pushvariable"
  | popVariable => "popvariable"
  | input => "input"
  | print => "print"
  | drop => "drop"
  | call => "call"
  | ret => "return"
  | move => "mov"

lemma Mnemonic.ofText?_text (m : Mnemonic) : ofText? m.text = some m := by
  cases m <;> rfl

lemma Mnemonic.eq_text_of_ofText? {s : String} {m : Mnemonic} (h : ofText? s = some m) :
    s = m.text := by
  unfold ofText? at h
  split at h <;> cases h <;> rfl

end Listing

lemma Operation.ofName?_name (o : Operation) : ofName? o.name = some o := by
  cases o <;> decide

lemma Operation.eq_name_of_ofName? {s : String} {o : Operation} (h : ofName? s = some o) :
    s = o.name :=
  (beq_iff_eq.mp (List.find?_some (p := fun o : Operation => o.name == s) h)).symm

lemma Condition.ofName?_name (c : Condition) : ofName? c.name = some c := by
  cases c <;> decide

lemma Condition.eq_name_of_ofName? {s : String} {c : Condition} (h : ofName? s = some c) :
    s = c.name :=
  (beq_iff_eq.mp (List.find?_some (p := fun c : Condition => c.name == s) h)).symm

namespace Listing

lemma branchCondition?_name (c : Condition) : branchCondition? ("b" ++ c.name).toList = some c := by
  cases c <;> decide

lemma eq_name_of_branchCondition? {cs : List Char} {c : Condition}
    (h : branchCondition? cs = some c) : cs = ("b" ++ c.name).toList := by
  unfold branchCondition? at h
  split at h
  · rename_i cs
    rw [← Condition.eq_name_of_ofName? h]
    simp
  · cases h

/-- What the mnemonic of a line asks for. -/
inductive Opcode where
  | operation (o : Operation)
  | branchIf (c : Condition)
  | other (m : Mnemonic)

def Opcode.text : Opcode → String
  | operation o => o.name
  | branchIf c => "b" ++ c.name
  | other m => m.text

lemma Opcode.isName_text (k : Opcode) : isName k.text.toList := by
  cases k with
  | operation o => cases o <;> decide
  | branchIf c => cases c <;> decide
  | other m => cases m <;> decide

end Listing

/-! ### Instructions -/

namespace SymbolicInstr

open Listing

def opcode : SymbolicInstr → Opcode
  | .pushConstant _ => .other .pushConstant
  | .pushVariable _ => .other .pushVariable
  | .popVariable _ => .other .popVariable
  | .operate o | .operateRegisters o _ _ => .operation o
  | .input | .inputRegister _ => .other .input
  | .print | .printRegister _ => .other .print
  | .drop => .other .drop
  | .branch _ => .other .branch
  | .branchIf c _ | .branchIfRegisters c _ _ => .branchIf c
  | .call _ _ | .callRegisters _ _ _ _ => .other .call
  | .ret | .retRegister _ => .other .ret
  | .move _ _ => .other .move

def parameters : SymbolicInstr → List Parameter
  | .pushConstant v => [.integer v]
  | .pushVariable n | .popVariable n => [.slot n]
  | .operate _ | .input | .print | .drop | .ret => []
  | .branch l | .branchIf _ l => [.label l]
  | .call f n => [.name f, .integer (Int64.ofNat n)]
  | .move a b => [.ofOperand a, .ofOperand b]
  | .operateRegisters _ rs r => rs.map .register ++ [.register r]
  | .inputRegister r | .printRegister r | .retRegister r => [.register r]
  | .branchIfRegisters _ rs l => rs.map .register ++ [.label l]
  | .callRegisters f first n r =>
    [.name f, .register first, .integer (Int64.ofNat n), .register r]

/-- The arguments of a call are counted by a value, which is not negative. -/
def CountFits : SymbolicInstr → Prop
  | .call _ n | .callRegisters _ _ n _ => n < 2 ^ 63
  | _ => True

/-- An instruction on registers names one for its operands. -/
def NamesOperand : SymbolicInstr → Prop
  | .operateRegisters _ rs _ | .branchIfRegisters _ rs _ => rs ≠ []
  | _ => True

end SymbolicInstr

namespace Listing

open SymbolicInstr

namespace Parameter

lemma registers?_eq_some_iff {ps : List Parameter} {rs : List Nat} :
    registers? ps = some rs ↔ ps = rs.map .register := by
  unfold registers?
  induction ps generalizing rs with
  | nil => cases rs <;> simp
  | cons p ps ih =>
    simp only [List.mapM_cons, Option.bind_eq_bind, Option.bind_eq_some_iff, ih]
    constructor
    · rintro ⟨r, hr, rs, rfl, ⟨⟩⟩
      cases p <;> cases hr
      rfl
    · intro h
      cases rs with
      | nil => cases h
      | cons r rs =>
        cases h
        exact ⟨r, rfl, rs, rfl, rfl⟩

lemma operand?_eq_some_iff {p : Parameter} {a : Operand} :
    p.operand? = some a ↔ p = ofOperand a := by
  cases p <;> cases a <;> simp [operand?, ofOperand]

lemma count?_eq_some_iff {v : Value} {n : Nat} :
    count? v = some n ↔ v = Int64.ofNat n ∧ n < 2 ^ 63 := by
  have hlt := v.toInt_lt
  unfold count?
  constructor
  · intro h
    split at h
    · rename_i hv
      cases h
      have hnonneg : 0 ≤ v.toInt := Int64.le_iff_toInt_le.mp hv
      refine ⟨?_, by omega⟩
      rw [← Int64.toInt_inj, Int64.toInt_ofNat_of_lt (by omega)]
      omega
    · cases h
  · rintro ⟨rfl, hn⟩
    rw [Int64.toInt_ofNat_of_lt hn, if_pos, Int.toNat_natCast]
    rw [Int64.le_iff_toInt_le, Int64.toInt_ofNat_of_lt hn]
    exact Int.natCast_nonneg n

end Parameter

namespace Fields

variable {f : Fields} {ps : List Parameter} {i : SymbolicInstr}

lemma of_operation_eq_ok {o : Operation} (h : f.operation o ps = .ok i) :
    (i = .operate o ∨ ∃ rs r, i = .operateRegisters o rs r) ∧ ps = SymbolicInstr.parameters i := by
  unfold operation at h
  split at h
  · rename_i hlast
    cases h
    exact ⟨.inl rfl, List.getLast?_eq_none_iff.mp hlast⟩
  · rename_i last hlast
    obtain ⟨ps, rfl⟩ := List.getLast?_eq_some_iff.mp hlast
    rw [List.dropLast_concat] at h
    split at h
    · cases h
    · rename_i rs r hrs
      cases h
      refine ⟨.inr ⟨rs, r, rfl⟩, ?_⟩
      rw [Parameter.registers?_eq_some_iff.mp hrs, SymbolicInstr.parameters]
    · cases h

lemma of_conditionalBranch_eq_ok {c : Condition} (h : f.conditionalBranch c ps = .ok i) :
    ((∃ l, i = .branchIf c l) ∨ ∃ rs l, rs ≠ [] ∧ i = .branchIfRegisters c rs l) ∧
      ps = SymbolicInstr.parameters i := by
  unfold conditionalBranch at h
  split at h
  · cases h
  · rename_i l hlast
    obtain ⟨ps, rfl⟩ := List.getLast?_eq_some_iff.mp hlast
    rw [List.dropLast_concat] at h
    split at h
    · cases h
      exact ⟨.inl ⟨l, rfl⟩, rfl⟩
    · rename_i hne
      split at h
      · rename_i rs hrs
        cases h
        rw [Parameter.registers?_eq_some_iff] at hrs
        refine ⟨.inr ⟨rs, l, ?_, rfl⟩, by rw [hrs, SymbolicInstr.parameters]⟩
        rintro rfl
        exact hne hrs
      · cases h
  · cases h

lemma of_other_eq_ok {m : Mnemonic} (h : f.other m ps = .ok i) :
    i.opcode = .other m ∧ ps = SymbolicInstr.parameters i ∧ i.CountFits := by
  cases m with
  | call =>
    simp only [other] at h
    split at h
    · split at h
      · rename_i n hn
        obtain ⟨rfl, hlt⟩ := Parameter.count?_eq_some_iff.mp hn
        cases h
        exact ⟨rfl, rfl, hlt⟩
      · cases h
    · split at h
      · rename_i n hn
        obtain ⟨rfl, hlt⟩ := Parameter.count?_eq_some_iff.mp hn
        cases h
        exact ⟨rfl, rfl, hlt⟩
      · cases h
    · split at h <;> cases h
  | move =>
    simp only [other] at h
    split at h
    · split at h
      · rename_i a b ha hb
        cases h
        rw [Parameter.operand?_eq_some_iff.mp ha, Parameter.operand?_eq_some_iff.mp hb]
        exact ⟨rfl, rfl, trivial⟩
      · cases h
      · cases h
    · cases h
  | _ =>
    simp only [other] at h
    split at h <;> cases h <;> exact ⟨rfl, rfl, trivial⟩

/-- The instruction of an opcode with some parameters. -/
def decode (f : Fields) (ps : List Parameter) : Opcode → Except Blame SymbolicInstr
  | .operation o => f.operation o ps
  | .branchIf c => f.conditionalBranch c ps
  | .other m => f.other m ps

/-- An instruction has one opcode and one list of parameters. A conditional branch on no
register is one on the stack. -/
lemma decode_eq_ok_iff {k : Opcode} :
    f.decode ps k = .ok i ↔
      i.opcode = k ∧ ps = SymbolicInstr.parameters i ∧ i.CountFits ∧
        ∀ c l, i ≠ .branchIfRegisters c [] l := by
  constructor
  · intro h
    cases k with
    | operation o =>
      obtain ⟨rfl | ⟨rs, r, rfl⟩, rfl⟩ := of_operation_eq_ok h
      · exact ⟨rfl, rfl, trivial, by simp⟩
      · exact ⟨rfl, rfl, trivial, by simp⟩
    | branchIf c =>
      obtain ⟨⟨l, rfl⟩ | ⟨rs, l, hrs, rfl⟩, rfl⟩ := of_conditionalBranch_eq_ok h
      · exact ⟨rfl, rfl, trivial, by simp⟩
      · exact ⟨rfl, rfl, trivial, by simp [hrs]⟩
    | other m =>
      obtain ⟨hi, rfl, hcount⟩ := of_other_eq_ok h
      refine ⟨hi, rfl, hcount, ?_⟩
      rintro c l rfl
      cases hi
  · rintro ⟨rfl, rfl, hcount, hne⟩
    cases i with
    | call g n | callRegisters g first n r =>
      simp [opcode, decode, other, SymbolicInstr.parameters,
        Parameter.count?_eq_some_iff.mpr ⟨rfl, hcount⟩]
    | move a b => cases a <;> cases b <;> rfl
    | operateRegisters o rs r =>
      simp [opcode, decode, operation, SymbolicInstr.parameters,
        Parameter.registers?_eq_some_iff.mpr rfl]
    | branchIfRegisters c rs l =>
      have hread := Parameter.registers?_eq_some_iff.mpr (Eq.refl (rs.map Parameter.register))
      simp only [opcode, decode, conditionalBranch, SymbolicInstr.parameters, List.getLast?_concat,
        List.dropLast_concat]
      cases rs with
      | nil => exact (hne c l rfl).elim
      | cons r rs =>
        rw [List.map_cons] at hread ⊢
        simp only [hread]
    | _ => rfl

lemma instr_of_opcode {k : Opcode} (hm : f.mnemonic = k.text.toList) :
    f.instr = f.parameters >>= fun ps => f.decode ps k := by
  cases k with
  | operation o =>
    rw [Opcode.text] at hm
    simp only [instr, hm, String.ofList_toList, Operation.ofName?_name]
    rfl
  | branchIf c =>
    have hoperation : Operation.ofName? ("b" ++ c.name) = none := by cases c <;> decide
    rw [Opcode.text] at hm
    simp only [instr, hm, String.ofList_toList, hoperation, branchCondition?_name]
    rfl
  | other m =>
    have hoperation : Operation.ofName? m.text = none := by cases m <;> decide
    have hcondition : branchCondition? m.text.toList = none := by cases m <;> decide
    rw [Opcode.text] at hm
    simp only [instr, hm, String.ofList_toList, hoperation, hcondition, Mnemonic.ofText?_text]
    rfl

/-- Without an opcode nothing is read, whatever the parameters. -/
lemma instr_of_no_opcode (hk : ∀ k : Opcode, f.mnemonic ≠ k.text.toList) :
    f.instr = f.parameters >>= fun _ => .error ⟨f.mnemonic, .invalidInstruction⟩ := by
  have ho : Operation.ofName? (String.ofList f.mnemonic) = none := by
    refine Option.eq_none_iff_forall_ne_some.mpr fun o ho => hk (.operation o) ?_
    rw [Opcode.text, ← Operation.eq_name_of_ofName? ho, String.toList_ofList]
  have hc : branchCondition? f.mnemonic = none :=
    Option.eq_none_iff_forall_ne_some.mpr fun c hc =>
      hk (.branchIf c) (eq_name_of_branchCondition? hc)
  have hm : Mnemonic.ofText? (String.ofList f.mnemonic) = none := by
    refine Option.eq_none_iff_forall_ne_some.mpr fun m hm => hk (.other m) ?_
    rw [Opcode.text, ← Mnemonic.eq_text_of_ofText? hm, String.toList_ofList]
  simp only [instr, ho, hc, hm]

lemma exists_opcode (h : f.instr = .ok i) : ∃ k : Opcode, f.mnemonic = k.text.toList := by
  by_contra hk
  rw [instr_of_no_opcode (not_exists.mp hk)] at h
  obtain ⟨_, -, h⟩ := bind_eq_ok_iff.mp h
  cases h

/-- An instruction is read from the lines with its mnemonic and its parameters, and from no
others. -/
lemma instr_eq_ok_iff :
    f.instr = .ok i ↔
      f.mnemonic = i.opcode.text.toList ∧ f.parameters = .ok (SymbolicInstr.parameters i) ∧
        i.CountFits ∧ ∀ c l, i ≠ .branchIfRegisters c [] l := by
  constructor
  · intro h
    obtain ⟨k, hk⟩ := exists_opcode h
    rw [instr_of_opcode hk, bind_eq_ok_iff] at h
    obtain ⟨ps, hps, h⟩ := h
    obtain ⟨rfl, rfl, hform⟩ := decode_eq_ok_iff.mp h
    exact ⟨hk, hps, hform⟩
  · rintro ⟨hm, hps, hform⟩
    rw [instr_of_opcode hm, hps]
    exact (decode_eq_ok_iff (f := f)).mpr ⟨rfl, rfl, hform⟩

end Fields

end Listing

/-! ### Lines -/

/-- An index of a slot or register has 64 bits. -/
def Operand.Fits : Operand → Prop
  | .literal _ => True
  | .slot n | .register n => n < UInt64.size

namespace SymbolicInstr

open Listing

/-- Labels and callees have names, slots and registers have numbers of 64 bits, and the number
of arguments of a call is a value. -/
def WellSpelled : SymbolicInstr → Prop
  | .pushConstant _ | .operate _ | .input | .print | .drop | .ret => True
  | .pushVariable n | .popVariable n => n < UInt64.size
  | .inputRegister r | .printRegister r | .retRegister r => r < UInt64.size
  | .branch l | .branchIf _ l => isName l.toList
  | .call f n => isName f.toList ∧ n < 2 ^ 63
  | .move a b => a.Fits ∧ b.Fits
  | .operateRegisters _ rs r => (∀ k ∈ rs, k < UInt64.size) ∧ r < UInt64.size
  | .branchIfRegisters _ rs l => (∀ k ∈ rs, k < UInt64.size) ∧ isName l.toList
  | .callRegisters f first n r =>
    isName f.toList ∧ first < UInt64.size ∧ n < 2 ^ 63 ∧ r < UInt64.size

lemma wellSpelled_ofOperand {a : Operand} : (Parameter.ofOperand a).WellSpelled ↔ a.Fits := by
  cases a <;> rfl

lemma wellSpelled_iff {i : SymbolicInstr} :
    i.WellSpelled ↔ i.CountFits ∧ ∀ p ∈ i.parameters, p.WellSpelled := by
  cases i with
  | move a b => simp [WellSpelled, CountFits, parameters, wellSpelled_ofOperand]
  | call f n => simp [WellSpelled, CountFits, parameters, Parameter.WellSpelled, and_comm]
  | callRegisters f first n r =>
    simp only [WellSpelled, CountFits, parameters, Parameter.WellSpelled, List.mem_cons,
      List.not_mem_nil, or_false, forall_eq_or_imp, forall_eq]
    tauto
  | _ =>
    simp [WellSpelled, CountFits, parameters, Parameter.WellSpelled, or_imp, forall_and]

instance : DecidablePred CountFits
  | .call _ n | .callRegisters _ _ n _ => inferInstanceAs (Decidable (n < 2 ^ 63))
  | .pushConstant _ | .pushVariable _ | .popVariable _ | .operate _ | .input | .print | .drop
  | .branch _ | .branchIf _ _ | .ret | .move _ _ | .operateRegisters _ _ _ | .inputRegister _
  | .printRegister _ | .branchIfRegisters _ _ _ | .retRegister _ => inferInstanceAs (Decidable True)

instance : DecidablePred NamesOperand
  | .operateRegisters _ rs _ | .branchIfRegisters _ rs _ => inferInstanceAs (Decidable (rs ≠ []))
  | .pushConstant _ | .pushVariable _ | .popVariable _ | .operate _ | .input | .print | .drop
  | .branch _ | .branchIf _ _ | .ret | .move _ _ | .call _ _ | .callRegisters _ _ _ _
  | .inputRegister _ | .printRegister _ | .retRegister _ => inferInstanceAs (Decidable True)

instance : DecidablePred WellSpelled :=
  fun _ => decidable_of_iff _ wellSpelled_iff.symm

lemma text_count {n : Nat} (h : n < 2 ^ 63) : Value.text (Int64.ofNat n) = Decimal.ofNat n := by
  rw [Value.text, Int64.toInt_ofNat_of_lt h]
  rfl

lemma text_ofOperand (a : Operand) : (Parameter.ofOperand a).text = operand a := by
  cases a <;> rfl

/-- Registers in a row are as many parameters. -/
lemma line_registers {rs : List Nat} (hrs : rs ≠ []) (m : String) (last : List Char) :
    line m [registers rs, last] = line m (rs.map register ++ [last]) := by
  have hjoin : ∀ rs : List Nat, rs ≠ [] →
      separator.intercalate (rs.map register ++ [last]) =
        separator.intercalate (rs.map register) ++ separator ++ last := by
    intro rs hrs
    induction rs with
    | nil => exact (hrs rfl).elim
    | cons r rs ih =>
      cases rs with
      | nil => simp [List.intercalate_cons_cons]
      | cons k rs =>
        have ih := ih (List.cons_ne_nil k rs)
        simp only [List.map_cons, List.cons_append, List.intercalate_cons_cons] at ih ⊢
        rw [ih]
        simp
  cases rs with
  | nil => exact (hrs rfl).elim
  | cons r rs =>
    have hjoin := hjoin (r :: rs) hrs
    simp only [line, List.map_cons, List.cons_append, registers] at hjoin ⊢
    rw [hjoin]
    simp [List.intercalate_cons_cons]

/-- The text of an instruction is its mnemonic and its parameters. -/
lemma instr_eq_line {i : SymbolicInstr} (hcount : i.CountFits) (hnames : i.NamesOperand) :
    Listing.instr i = line i.opcode.text (i.parameters.map Parameter.text) := by
  cases i with
  | call f n | callRegisters f first n r =>
    simp only [Listing.instr, parameters, List.map_cons, List.map_nil, Parameter.text,
      text_count hcount]
    rfl
  | move a b =>
    simp only [Listing.instr, parameters, List.map_cons, List.map_nil, text_ofOperand]
    rfl
  | operateRegisters o rs r =>
    rw [Listing.instr, line_registers hnames, parameters, List.map_append, List.map_map]
    rfl
  | branchIfRegisters c rs l =>
    rw [Listing.instr, line_registers hnames, parameters, List.map_append, List.map_map]
    rfl
  | _ => rfl

end SymbolicInstr

end Izmir
