import Izmir.Proofs.Applications
import Izmir.Proofs.Balance

/-!
# Registers of compiled expressions

The code that the register backend emits for an expression works on the registers that are free
and on the one that it is to leave the value in. Whatever way control takes through it, it reads
nothing that it has not written before, and it has written the value when it comes to the end.
This is shown with sets of registers for the labels: what is in the set of a label has been
written wherever control comes to the label from.
-/

namespace Izmir

/-! ### What instructions read and write -/

namespace Instr

variable {τ κ δ : Type}

/-- The registers that an instruction reads. -/
def reads : Instr τ κ δ → List Nat
  | .move (.register r) _ => [r]
  | .operateRegisters _ rs _ => rs
  | .printRegister r => [r]
  | .branchIfRegisters _ rs _ => rs
  | .callRegisters _ first n _ => List.range' first n
  | .retRegister r => [r]
  | _ => []

/-- The slot or the register that an instruction writes. A call does so when it returns. -/
def writes? : Instr τ κ Operand → Option Operand
  | .popVariable n => some (.slot n)
  | .move _ place => some place
  | .operateRegisters _ _ r => some (.register r)
  | .inputRegister r => some (.register r)
  | .callRegisters _ _ _ r => some (.register r)
  | _ => none

/-- The registers that an instruction writes: one, or none. -/
def written (i : Instr τ κ Operand) : Set Nat :=
  {r | i.writes? = some (.register r)}

/-- An instruction that keeps to the registers from `next` on, except that it may write those in
`targets`. It writes no variables and does not return. -/
structure KeepsTo (targets : Set Nat) (next : Nat) (i : Instr τ κ Operand) : Prop where
  slots : ∀ n, i.writes? ≠ some (.slot n)
  writes : ∀ r, i.writes? = some (.register r) → r ∈ targets ∨ next ≤ r
  reads : ∀ r ∈ i.reads, next ≤ r
  stays : i.isReturn = false

lemma KeepsTo.mono {targets targets' : Set Nat} {next next' : Nat} {i : Instr τ κ Operand}
    (h : i.KeepsTo targets' next') (hnext : next ≤ next')
    (htargets : ∀ r ∈ targets', r ∈ targets ∨ next ≤ r) : i.KeepsTo targets next where
  slots := h.slots
  writes r hr := (h.writes r hr).elim (htargets r) fun hr => .inr (hnext.trans hr)
  reads r hr := hnext.trans (h.reads r hr)
  stays := h.stays

lemma KeepsTo.of_writes {next l : Nat} {i : Instr τ κ Operand}
    (hwrites : i.writes? = some (.register l)) (hreads : ∀ r ∈ i.reads, next ≤ r)
    (hstays : i.isReturn = false) : i.KeepsTo {l} next where
  slots n := by simp [hwrites]
  writes r hr := by
    rw [hwrites] at hr
    cases hr
    exact .inl rfl
  reads := hreads
  stays := hstays

lemma KeepsTo.of_not_writes {targets : Set Nat} {next : Nat} {i : Instr τ κ Operand}
    (hwrites : i.writes? = none) (hreads : ∀ r ∈ i.reads, next ≤ r)
    (hstays : i.isReturn = false) : i.KeepsTo targets next where
  slots n := by simp [hwrites]
  writes r hr := by simp [hwrites] at hr
  reads := hreads
  stays := hstays

end Instr

/-- All instructions of some code keep to the registers from `next` on and to `targets`. -/
def Confined (targets : Set Nat) (next : Nat) (code : List Line) : Prop :=
  ∀ i, Line.instr i ∈ code → i.KeepsTo targets next

namespace Confined

variable {targets targets' : Set Nat} {next next' : Nat} {a b code : List Line}

lemma append (ha : Confined targets next a) (hb : Confined targets next b) :
    Confined targets next (a ++ b) :=
  fun i hi => (List.mem_append.mp hi).elim (ha i) (hb i)

lemma instr {i : SymbolicInstr} (h : i.KeepsTo targets next) :
    Confined targets next [.instr i] := by
  intro j hj
  cases List.mem_singleton.mp hj
  exact h

lemma label (l : String) : Confined targets next [.label l] := by
  intro j hj
  cases List.mem_singleton.mp hj

lemma mono (h : Confined targets' next' code) (hnext : next ≤ next')
    (htargets : ∀ r ∈ targets', r ∈ targets ∨ next ≤ r) : Confined targets next code :=
  fun i hi => (h i hi).mono hnext htargets

end Confined

/-- The registers that code for a purpose has to write. -/
def Purpose.targets : Purpose → Set Nat
  | .value location => {location}
  | .branchUnless _ => ∅

namespace Backend

/-- A primitive becomes an operation on its operands, or reads from the input. -/
lemma register_apply_cases {P : SymbolicInstr → Prop} {p : Primitive} {rs : List Nat} {l : Nat}
    (operate : ∀ o, P (.operateRegisters o rs l)) (input : P (.inputRegister l)) :
    P (register.apply p rs l) := by
  unfold Backend.apply
  cases Operation.ofPrimitive? p with
  | none => exact input
  | some o => exact operate o

/-- The window of a call is that of its arguments, also if there are none. -/
lemma reads_register_call {f : String} {first n l : Nat} :
    (register.call f first n l).reads = List.range' first n := by
  cases n <;> rfl

end Backend

section

variable {folding : Bool}

lemma Purpose.confined_deliver {purpose : Purpose} {next : Nat} {value : Nat → Nat → List Line}
    (h : ∀ l next, Confined {l} next (value l next)) :
    Confined purpose.targets next (purpose.deliver ⟨.register, folding⟩ next value) := by
  cases purpose with
  | value l => exact h l next
  | branchUnless label =>
    have hvalue : Confined ∅ next (value next (next + 1)) := by
      refine (h next (next + 1)).mono (Nat.le_succ next) ?_
      rintro r rfl
      exact .inr le_rfl
    exact hvalue.append (.instr (.of_not_writes rfl (List.forall_mem_singleton.mpr le_rfl) rfl))

lemma Expr.confined_emitAll {es : List (Expr Nat)} {next label : Nat}
    (h : ∀ e ∈ es, ∀ purpose next label,
      Confined purpose.targets next (e.emit ⟨.register, folding⟩ purpose next label)) :
    Confined ∅ next (Expr.emitAll ⟨.register, folding⟩ es next label) := by
  induction es generalizing next label with
  | nil => intro i hi; cases hi
  | cons e es ih =>
    obtain ⟨he, hes⟩ := List.forall_mem_cons.mp h
    refine .append ((he (.value next) (next + 1) label).mono (Nat.le_succ next) ?_)
      ((ih hes).mono (Nat.le_succ next) ?_)
    · rintro r rfl
      exact .inr le_rfl
    · rintro r ⟨⟩

/-- The code of an expression keeps to the free registers and to its target. -/
lemma Expr.confined_emit (e : Expr Nat) (purpose : Purpose) (next label : Nat) :
    Confined purpose.targets next (e.emit ⟨.register, folding⟩ purpose next label) := by
  have hempty {l next : Nat} {code : List Line} (h : Confined ∅ next code) :
      Confined {l} next code := h.mono le_rfl fun r hr => hr.elim
  induction e generalizing purpose next label with
  | literal v =>
    rw [Expr.emit]
    exact Purpose.confined_deliver fun l next =>
      .instr (.of_writes rfl (List.forall_mem_nil _) rfl)
  | var n =>
    rw [Expr.emit]
    exact Purpose.confined_deliver fun l next =>
      .instr (.of_writes rfl (List.forall_mem_nil _) rfl)
  | ifElse c a b hc ha hb =>
    rw [Expr.emit]
    refine Purpose.confined_deliver fun l next => ?_
    have hjump : Confined {l} next [Line.instr (.branch (numberedLabel "end" (label + 1)))] :=
      .instr (.of_not_writes rfl (List.forall_mem_nil _) rfl)
    exact ((((hempty (hc (.branchUnless _) _ _)).append (ha (.value l) _ _)).append
      (hjump.append (.label _))).append (hb (.value l) _ _)).append (.label _)
  | apply p es hes =>
    rw [Expr.emit]
    cases hfold : purpose.folded? ⟨.register, folding⟩ p with
    | none =>
      refine Purpose.confined_deliver fun l next => ?_
      refine (hempty (Expr.confined_emitAll hes)).append (.instr ?_)
      exact Backend.register_apply_cases
        (fun o => .of_writes rfl (fun _ => List.left_le_of_mem_range') rfl)
        (.of_writes rfl (List.forall_mem_nil _) rfl)
    | some folded =>
      obtain ⟨rfl, -⟩ := Purpose.folded?_eq_some hfold
      exact (Expr.confined_emitAll hes).append
        (.instr (.of_not_writes rfl (fun _ => List.left_le_of_mem_range') rfl))
  | call f es hes =>
    rw [Expr.emit]
    refine Purpose.confined_deliver fun l next => ?_
    refine (hempty (Expr.confined_emitAll hes)).append (.instr (.of_writes rfl ?_ rfl))
    rw [Backend.reads_register_call]
    exact fun _ => List.left_le_of_mem_range'

end

/-! ### Ways through code -/

/-- Control goes from one line to another: to the next one, or to a label that is branched to. -/
inductive Flows (code : List Line) (n : Nat) : Nat → Prop
  | label {l : String} : code[n]? = some (.label l) → Flows code n (n + 1)
  | next {i : SymbolicInstr} : code[n]? = some (.instr i) → i.falls = true → Flows code n (n + 1)
  | jump {i : SymbolicInstr} {l : String} {m : Nat} : code[n]? = some (.instr i) →
      i.target? = some l → code[m]? = some (.label l) → Flows code n m

/-- Control comes from the first line of some code to a position, having passed some lines, the
latest one first. -/
inductive Walk (code : List Line) : List Nat → Nat → Prop
  | start : Walk code [] 0
  | step {passed : List Nat} {n m : Nat} :
      Walk code passed n → Flows code n m → Walk code (n :: passed) m

/-- One of the lines that control has passed writes a register. -/
def WrittenAlong (code : List Line) (passed : List Nat) (r : Nat) : Prop :=
  ∃ n ∈ passed, ∃ i, code[n]? = some (.instr i) ∧ i.writes? = some (.register r)

lemma WrittenAlong.cons {code : List Line} {passed : List Nat} {r : Nat}
    (h : WrittenAlong code passed r) (n : Nat) : WrittenAlong code (n :: passed) r := by
  obtain ⟨k, hk, i, hi, hr⟩ := h
  exact ⟨k, List.mem_cons_of_mem n hk, i, hi, hr⟩

/-- If the registers `before` are written when control enters some code, then so is every register
at the time the code reads it, and the registers `after` are written when control comes to the
end. The set that is known of a label is written wherever a branch to it starts. -/
inductive Assigns (known : String → Set Nat) : Set Nat → List Line → Set Nat → Prop
  | nil {before after : Set Nat} : after ⊆ before → Assigns known before [] after
  | label {before after : Set Nat} {l : String} {code : List Line} : known l ⊆ before →
      Assigns known (known l) code after → Assigns known before (.label l :: code) after
  | next {before after : Set Nat} {i : SymbolicInstr} {code : List Line} :
      (∀ r ∈ i.reads, r ∈ before) → (∀ l, i.target? = some l → known l ⊆ before) →
      Assigns known (before ∪ i.written) code after →
      Assigns known before (.instr i :: code) after
  | leave {before after : Set Nat} {i : SymbolicInstr} {code : List Line} :
      i.falls = false → (∀ r ∈ i.reads, r ∈ before) →
      (∀ l, i.target? = some l → known l ⊆ before) → Assigns known Set.univ code after →
      Assigns known before (.instr i :: code) after

namespace Assigns

variable {known : String → Set Nat} {before before' after after' : Set Nat} {code : List Line}

lemma mono (h : Assigns known before code after) (hbefore : before ⊆ before')
    (hafter : after' ⊆ after) : Assigns known before' code after' := by
  induction h generalizing before' with
  | nil h => exact .nil (hafter.trans (h.trans hbefore))
  | label hl _ ih => exact .label (hl.trans hbefore) (ih subset_rfl hafter)
  | next hreads htarget _ ih =>
    exact .next (fun r hr => hbefore (hreads r hr)) (fun l hl => (htarget l hl).trans hbefore)
      (ih (Set.union_subset_union_left _ hbefore) hafter)
  | leave hfalls hreads htarget _ ih =>
    exact .leave hfalls (fun r hr => hbefore (hreads r hr))
      (fun l hl => (htarget l hl).trans hbefore) (ih subset_rfl hafter)

lemma append {middle : Set Nat} {code' : List Line} (h : Assigns known before code middle)
    (h' : Assigns known middle code' after) : Assigns known before (code ++ code') after := by
  induction h with
  | nil h => exact h'.mono h subset_rfl
  | label hl _ ih => exact .label hl (ih h')
  | next hreads htarget _ ih => exact .next hreads htarget (ih h')
  | leave hfalls hreads htarget _ ih => exact .leave hfalls hreads htarget (ih h')

/-- The rest of the code from a label on, entered through a branch. -/
lemma drop_of_label (h : Assigns known before code after) {m : Nat} {l : String}
    (hm : code[m]? = some (.label l)) : Assigns known (known l) (code.drop m) after := by
  induction h generalizing m with
  | nil => simp at hm
  | label hl hcode ih =>
    cases m with
    | zero =>
      cases hm
      exact .label subset_rfl hcode
    | succ m => exact ih hm
  | next _ _ _ ih =>
    cases m with
    | zero => cases hm
    | succ m => exact ih hm
  | leave _ _ _ _ ih =>
    cases m with
    | zero => cases hm
    | succ m => exact ih hm

/-- Wherever control comes to, the rest of the code goes on from what was written on the way. -/
lemma drop_of_walk (h : Assigns known ∅ code after) {passed : List Nat} {n : Nat}
    (hwalk : Walk code passed n) :
    ∃ here, Assigns known here (code.drop n) after ∧ ∀ r ∈ here, WrittenAlong code passed r := by
  induction hwalk with
  | start => exact ⟨∅, h, fun r hr => hr.elim⟩
  | @step passed n m _ hflows ih =>
    obtain ⟨here, hrest, hwritten⟩ := ih
    have hdrop {line : Line} (hline : code[n]? = some line) :
        code.drop n = line :: code.drop (n + 1) :=
      List.drop_eq_getElem?_toList_append.trans (by rw [hline]; rfl)
    cases hflows with
    | label hline =>
      rw [hdrop hline] at hrest
      cases hrest with
      | label hl hrest => exact ⟨_, hrest, fun r hr => (hwritten r (hl hr)).cons n⟩
    | @next i hline hfalls =>
      rw [hdrop hline] at hrest
      cases hrest with
      | next _ _ hrest =>
        refine ⟨_, hrest, ?_⟩
        rintro r (hr | hr)
        · exact (hwritten r hr).cons n
        · exact ⟨n, List.mem_cons_self, i, hline, hr⟩
      | leave hleave => simp [hfalls] at hleave
    | @jump i l _ hline htarget hlabel =>
      rw [hdrop hline] at hrest
      have hl : known l ⊆ here := by
        cases hrest with
        | next _ hknown _ => exact hknown l htarget
        | leave _ _ hknown _ => exact hknown l htarget
      exact ⟨_, h.drop_of_label hlabel, fun r hr => (hwritten r (hl hr)).cons n⟩

lemma written_of_reads (h : Assigns known ∅ code after) {passed : List Nat} {n : Nat}
    (hwalk : Walk code passed n) {i : SymbolicInstr} (hi : code[n]? = some (.instr i)) {r : Nat}
    (hr : r ∈ i.reads) : WrittenAlong code passed r := by
  obtain ⟨here, hrest, hwritten⟩ := h.drop_of_walk hwalk
  rw [List.drop_eq_getElem?_toList_append, hi] at hrest
  cases hrest with
  | next hreads _ _ => exact hwritten r (hreads r hr)
  | leave _ hreads _ _ => exact hwritten r (hreads r hr)

lemma written_at_end (h : Assigns known ∅ code after) {passed : List Nat}
    (hwalk : Walk code passed code.length) {r : Nat} (hr : r ∈ after) :
    WrittenAlong code passed r := by
  obtain ⟨here, hrest, hwritten⟩ := h.drop_of_walk hwalk
  rw [List.drop_length] at hrest
  cases hrest with
  | nil hafter => exact hwritten r (hafter hr)

end Assigns

/-! ### Sets for the labels of expressions -/

/-- The `count` labels with numbers from `first` on can be given sets such that something holds,
whatever the sets of other labels are. -/
def Annotatable (first count : Nat) (P : (String → Set Nat) → Prop) : Prop :=
  ∃ sets : Nat → Set Nat, ∀ known : String → Set Nat,
    (∀ w n, first ≤ n → n < first + count → known (numberedLabel w n) = sets n) → P known

namespace Annotatable

variable {first m n : Nat} {P Q : (String → Set Nat) → Prop}

lemma of_forall (h : ∀ known, P known) : Annotatable first m P :=
  ⟨fun _ => ∅, fun known _ => h known⟩

lemma imp (h : Annotatable first m P) (hPQ : ∀ known, P known → Q known) :
    Annotatable first m Q := by
  obtain ⟨sets, h⟩ := h
  exact ⟨sets, fun known hknown => hPQ known (h known hknown)⟩

lemma singleton (first : Nat) (s : Set Nat) :
    Annotatable first 1 fun known => ∀ w, known (numberedLabel w first) = s :=
  ⟨fun _ => s, fun _ hknown w => hknown w first le_rfl (Nat.lt_succ_self first)⟩

/-- Labels from two intervals, one behind the other. -/
lemma and (h : Annotatable first m P) (h' : Annotatable (first + m) n Q) :
    Annotatable first (m + n) fun known => P known ∧ Q known := by
  obtain ⟨sets, h⟩ := h
  obtain ⟨sets', h'⟩ := h'
  refine ⟨fun k => if k < first + m then sets k else sets' k, fun known hknown => ⟨?_, ?_⟩⟩
  · exact h known fun w k hfirst hk => (hknown w k hfirst (by omega)).trans (if_pos hk)
  · exact h' known fun w k hfirst hk =>
      (hknown w k (by omega) (by omega)).trans (if_neg (Nat.not_lt.mpr hfirst))

lemma exists_known (h : Annotatable first m P) : ∃ known, P known := by
  obtain ⟨sets, h⟩ := h
  refine ⟨fun l => {r | ∃ w k, l = numberedLabel w k ∧ r ∈ sets k}, h _ fun w k _ _ => ?_⟩
  -- A label tells its number, so only the set of that number counts.
  ext r
  constructor
  · rintro ⟨w', k', hl, hr⟩
    rwa [number_eq_of_numberedLabel_eq hl]
  · exact fun hr => ⟨w, k, rfl, hr⟩

end Annotatable

/-- What is written where the code of a condition branches to its label. -/
def Purpose.Admits (known : String → Set Nat) (before : Set Nat) : Purpose → Prop
  | .value _ => True
  | .branchUnless label => known label ⊆ before

namespace Assigns

variable {known : String → Set Nat} {before after : Set Nat}

/-- An instruction that writes a register and goes on to the next one. -/
lemma write {i : SymbolicInstr} {l : Nat} (hreads : ∀ r ∈ i.reads, r ∈ before)
    (htarget : i.target? = none) (hwrites : i.writes? = some (.register l)) :
    Assigns known before [.instr i] (before ∪ {l}) := by
  refine .next hreads (fun l hl => by simp [htarget] at hl) (.nil ?_)
  exact Set.union_subset_union_right before (Set.singleton_subset_iff.mpr hwrites)

/-- An instruction behind the code of its operands. -/
lemma append_write {operands : Set Nat} {code : List Line} {i : SymbolicInstr} {l : Nat}
    (hcode : Assigns known before code (before ∪ operands)) (hreads : ∀ r ∈ i.reads, r ∈ operands)
    (htarget : i.target? = none) (hwrites : i.writes? = some (.register l)) :
    Assigns known before (code ++ [.instr i]) (before ∪ {l}) := by
  have hresult : Assigns known (before ∪ operands) [.instr i] _ :=
    .write (fun r hr => .inr (hreads r hr)) htarget hwrites
  exact hcode.append (hresult.mono subset_rfl
    (Set.union_subset_union_left _ Set.subset_union_left))

lemma branchIf {c : Condition} {rs : List Nat} {label : String} (hrs : ∀ r ∈ rs, r ∈ before)
    (hlabel : known label ⊆ before) (hafter : after ⊆ before) :
    Assigns known before [.instr (Backend.register.branchIf c rs label)] after := by
  refine .next hrs (fun l hl => ?_) (.nil (hafter.trans Set.subset_union_left))
  cases hl
  exact hlabel

/-- Two branches that join: where the second one starts, what the condition started with is
written, and where they join, the value is written too. -/
lemma branches {otherwise done : String} {cond first second : List Line}
    (hcond : Assigns known before cond before) (hfirst : Assigns known before first after)
    (hsecond : Assigns known before second after) (hotherwise : known otherwise = before)
    (hdone : known done = after) :
    Assigns known before (cond ++ first ++ [Line.instr (.branch done), Line.label otherwise] ++
      second ++ [Line.label done]) after := by
  have hjump : Assigns known after [Line.instr (.branch done), Line.label otherwise] before := by
    refine .leave rfl (fun r hr => by cases hr) (fun l hl => ?_) ?_
    · cases hl
      exact hdone.subset
    · exact .label (Set.subset_univ _) (.nil hotherwise.superset)
  have hjoin : Assigns known after [Line.label done] after :=
    .label hdone.subset (.nil hdone.superset)
  exact (((hcond.append hfirst).append hjump).append hsecond).append hjoin

end Assigns

section

variable {folding : Bool}

lemma Purpose.assigns_deliver {purpose : Purpose} {before : Set Nat} {next label count : Nat}
    {value : Nat → Nat → List Line}
    (h : ∀ l next, Annotatable label count fun known =>
      Assigns known before (value l next) (before ∪ {l})) :
    Annotatable label count fun known => purpose.Admits known before →
      Assigns known before (purpose.deliver ⟨.register, folding⟩ next value)
        (before ∪ purpose.targets) := by
  cases purpose with
  | value l => exact (h l next).imp fun known hvalue _ => hvalue
  | branchUnless label =>
    refine (h next (next + 1)).imp fun known hvalue (hlabel : known label ⊆ before) => ?_
    refine hvalue.append (.branchIf (by simp) (hlabel.trans Set.subset_union_left) ?_)
    exact Set.union_subset_union_right before (Set.empty_subset _)

/-- The operands of an instruction are written one after the other. -/
lemma Expr.assigns_emitAll {es : List (Expr Nat)}
    (h : ∀ e ∈ es, ∀ (before : Set Nat) (purpose : Purpose) (next label : Nat),
      Annotatable label e.labelCount fun known => purpose.Admits known before →
        Assigns known before (e.emit ⟨.register, folding⟩ purpose next label)
          (before ∪ purpose.targets))
    (before : Set Nat) (next label : Nat) :
    Annotatable label (Expr.labelCountAll es) fun known =>
      Assigns known before (Expr.emitAll ⟨.register, folding⟩ es next label)
        (before ∪ {r | r ∈ List.range' next es.length}) := by
  induction es generalizing before next label with
  | nil => exact .of_forall fun known => .nil (by simp)
  | cons e es ih =>
    obtain ⟨he, hes⟩ := List.forall_mem_cons.mp h
    have htail := ih hes (before ∪ {next}) (next + 1) (label + e.labelCount)
    refine ((he before (.value next) (next + 1) label).and htail).imp ?_
    rintro known ⟨hhead, htail⟩
    refine (hhead trivial).append (htail.mono subset_rfl ?_)
    rw [List.length_cons, List.range'_succ]
    rintro r (hr | hr)
    · exact .inl (.inl hr)
    · rcases List.mem_cons.mp hr with rfl | hr
      · exact .inl (.inr rfl)
      · exact .inr hr

/-- The code of an expression reads only what it has written itself, and in the end it has
written what its purpose asks for. -/
lemma Expr.assigns_emit (e : Expr Nat) (before : Set Nat) (purpose : Purpose) (next label : Nat) :
    Annotatable label e.labelCount fun known => purpose.Admits known before →
      Assigns known before (e.emit ⟨.register, folding⟩ purpose next label)
        (before ∪ purpose.targets) := by
  induction e generalizing before purpose next label with
  | literal v =>
    rw [Expr.emit]
    refine Purpose.assigns_deliver fun l next => .of_forall fun known => ?_
    exact .write (List.forall_mem_nil _) rfl rfl
  | var n =>
    rw [Expr.emit]
    refine Purpose.assigns_deliver fun l next => .of_forall fun known => ?_
    exact .write (List.forall_mem_nil _) rfl rfl
  | ifElse c a b hc ha hb =>
    rw [Expr.emit, Expr.labelCount, Nat.add_assoc, Nat.add_assoc]
    refine Purpose.assigns_deliver fun l next => ?_
    have hotherwise := Annotatable.singleton label before
    have hdone := Annotatable.singleton (label + 1) (before ∪ {l})
    have hparts := (hc before (.branchUnless (numberedLabel "else" label)) next (label + 2)).and
      ((ha before (.value l) next _).and (hb before (.value l) next _))
    refine ((hotherwise.and hdone).and hparts).imp ?_
    rintro known ⟨⟨hotherwise, hdone⟩, hc, ha, hb⟩
    have hcond := hc (hotherwise "else").subset
    rw [Purpose.targets, Set.union_empty] at hcond
    exact .branches hcond (ha trivial) (hb trivial) (hotherwise "else") (hdone "end")
  | apply p es hes =>
    rw [Expr.emit, Expr.labelCount]
    cases hfold : purpose.folded? ⟨.register, folding⟩ p with
    | none =>
      refine Purpose.assigns_deliver fun l next =>
        (Expr.assigns_emitAll hes before next label).imp ?_
      intro known hoperands
      exact Backend.register_apply_cases
        (P := fun i => Assigns known before (_ ++ [Line.instr i]) (before ∪ {l}))
        (fun o => hoperands.append_write (fun _ hr => hr) rfl rfl)
        (hoperands.append_write (List.forall_mem_nil _) rfl rfl)
    | some folded =>
      obtain ⟨rfl, -⟩ := Purpose.folded?_eq_some hfold
      refine (Expr.assigns_emitAll hes before next label).imp ?_
      intro known hoperands hlabel
      refine hoperands.append (.branchIf (fun r hr => .inr hr)
        (Set.Subset.trans hlabel Set.subset_union_left) ?_)
      exact Set.union_subset_union_right before (Set.empty_subset _)
  | call f es hes =>
    rw [Expr.emit, Expr.labelCount]
    refine Purpose.assigns_deliver fun l next =>
        (Expr.assigns_emitAll hes before next label).imp ?_
    refine fun known hoperands => hoperands.append_write (fun r hr => ?_) rfl rfl
    rwa [Backend.reads_register_call] at hr

end

/-! ### The end of the code -/

/-- Control can come from the start of some code to its end, wherever the code stands. -/
def Passable (code : List Line) : Prop :=
  ∀ before after : List Line, Relation.ReflTransGen (Flows (before ++ code ++ after))
    before.length (before.length + code.length)

namespace Passable

variable {a b : List Line}

lemma nil : Passable [] := fun _ _ => .refl

lemma append (ha : Passable a) (hb : Passable b) : Passable (a ++ b) := by
  intro before after
  have ha := ha before (b ++ after)
  have hb := hb (before ++ a) after
  simp only [List.append_assoc, List.length_append, ← Nat.add_assoc] at ha hb ⊢
  exact ha.trans hb

lemma instr {i : SymbolicInstr} (h : i.falls = true) : Passable [.instr i] :=
  fun before after => .single (.next (by simp) h)

lemma branches {otherwise done : String} {cond first second : List Line} (hcond : Passable cond)
    (hfirst : Passable first) :
    Passable (cond ++ first ++ [Line.instr (.branch done), Line.label otherwise] ++ second ++
      [Line.label done]) := by
  intro before after
  have hstart := (hcond.append hfirst) before
    ([Line.instr (.branch done), Line.label otherwise] ++ second ++ [Line.label done] ++ after)
  -- The branch at the end of the first part goes right to the last line.
  have hjump : Flows (before ++ (cond ++ first ++
        [Line.instr (.branch done), Line.label otherwise] ++ second ++ [Line.label done]) ++ after)
      (before ++ (cond ++ first)).length
      (before ++ (cond ++ first ++
        [Line.instr (.branch done), Line.label otherwise] ++ second)).length := by
    refine @Flows.jump _ _ (.branch done) done _ ?_ rfl ?_ <;> simp
  have hjoin : Flows (before ++ (cond ++ first ++
        [Line.instr (.branch done), Line.label otherwise] ++ second ++ [Line.label done]) ++ after)
      (before ++ (cond ++ first ++
        [Line.instr (.branch done), Line.label otherwise] ++ second)).length _ :=
    @Flows.label _ _ done (by simp)
  simp only [List.append_assoc, List.length_append, List.length_cons, List.length_nil,
    ← Nat.add_assoc] at hstart hjump hjoin ⊢
  exact (hstart.tail hjump).tail hjoin

lemma exists_walk (h : Passable a) : ∃ passed, Walk a passed a.length := by
  have hpass := h [] []
  rw [List.nil_append, List.append_nil, List.length_nil, Nat.zero_add] at hpass
  generalize a.length = n at hpass
  induction hpass with
  | refl => exact ⟨[], .start⟩
  | tail _ hflows ih =>
    obtain ⟨passed, hwalk⟩ := ih
    exact ⟨_, hwalk.step hflows⟩

end Passable

section

variable {folding : Bool}

lemma Purpose.passable_deliver {purpose : Purpose} {next : Nat} {value : Nat → Nat → List Line}
    (h : ∀ l next, Passable (value l next)) :
    Passable (purpose.deliver ⟨.register, folding⟩ next value) := by
  cases purpose with
  | value l => exact h l next
  | branchUnless label => exact (h next (next + 1)).append (.instr rfl)

lemma Expr.passable_emitAll {es : List (Expr Nat)} {next label : Nat}
    (h : ∀ e ∈ es, ∀ purpose next label,
      Passable (e.emit ⟨.register, folding⟩ purpose next label)) :
    Passable (Expr.emitAll ⟨.register, folding⟩ es next label) := by
  induction es generalizing next label with
  | nil => exact .nil
  | cons e es ih =>
    obtain ⟨he, hes⟩ := List.forall_mem_cons.mp h
    exact (he _ _ _).append (ih hes)

lemma Expr.passable_emit (e : Expr Nat) (purpose : Purpose) (next label : Nat) :
    Passable (e.emit ⟨.register, folding⟩ purpose next label) := by
  induction e generalizing purpose next label with
  | literal v =>
    rw [Expr.emit]
    exact Purpose.passable_deliver fun l next => .instr rfl
  | var n =>
    rw [Expr.emit]
    exact Purpose.passable_deliver fun l next => .instr rfl
  | ifElse c a b hc ha hb =>
    rw [Expr.emit]
    exact Purpose.passable_deliver fun l next => (hc _ _ _).branches (ha _ _ _)
  | apply p es hes =>
    rw [Expr.emit]
    cases purpose.folded? ⟨.register, folding⟩ p with
    | none =>
      refine Purpose.passable_deliver fun l next => (Expr.passable_emitAll hes).append ?_
      exact Backend.register_apply_cases (P := fun i => Passable [Line.instr i])
        (fun o => .instr rfl) (.instr rfl)
    | some folded => exact (Expr.passable_emitAll hes).append (.instr rfl)
  | call f es hes =>
    rw [Expr.emit]
    exact Purpose.passable_deliver fun l next =>
      (Expr.passable_emitAll hes).append (.instr rfl)

end

/-! ### Arguments of calls -/

/-- Pieces of code that compute actuals in order, each into a register of its own from `first` on,
which the pieces after it leave alone. -/
structure PassesInOrder (folding : Bool) (es : List (Expr Nat)) (first : Nat)
    (pieces : List (List Line)) : Prop where
  length_eq : pieces.length = es.length
  computed : ∀ (k : Nat) (e : Expr Nat), es[k]? = some e → ∃ label,
    pieces[k]? = some (e.emit ⟨.register, folding⟩ (.value (first + k)) (first + k + 1) label)
  kept : ∀ (j k : Nat) (piece : List Line), j < k → pieces[k]? = some piece →
    ∀ i, Line.instr i ∈ piece → i.writes? ≠ some (.register (first + j))

/-- The code before a call of some expression ends with pieces that compute its actuals. -/
def Expr.Prepares (folding : Bool) (e : Expr Nat) (f : String) (first n : Nat)
    (before : List Line) : Prop :=
  ∃ es, (Expr.call f es).OccursIn e ∧ es.length = n ∧
    ∃ (earlier : List Line) (pieces : List (List Line)),
      before = earlier ++ pieces.flatten ∧ PassesInOrder folding es first pieces

/-- Something holds of the code before every call. -/
def BeforeCalls (P : String → Nat → Nat → List Line → Prop) (code : List Line) : Prop :=
  ∀ before after f first n r,
    code = before ++ Line.instr (.callRegisters f first n r) :: after → P f first n before

namespace BeforeCalls

variable {P : String → Nat → Nat → List Line → Prop} {a b : List Line}

/-- Code without calls. -/
lemma of_notMem (h : ∀ f first n r, Line.instr (.callRegisters f first n r) ∉ a) :
    BeforeCalls P a := by
  rintro before after f first n r rfl
  exact absurd (by simp) (h f first n r)

lemma append (hP : ∀ f first n earlier before, P f first n before → P f first n (earlier ++ before))
    (ha : BeforeCalls P a) (hb : BeforeCalls P b) : BeforeCalls P (a ++ b) := by
  intro before after f first n r h
  rcases List.append_eq_append_iff.mp h with ⟨between, rfl, hb'⟩ | ⟨between, rfl, hb'⟩
  · exact hP _ _ _ _ _ (hb _ _ _ _ _ _ hb')
  · rcases List.cons_eq_append_iff.mp hb' with ⟨rfl, rfl⟩ | ⟨between, rfl, rfl⟩
    · have hfirst : P f first n [] := hb [] after f first n r rfl
      simpa using hP _ _ _ before _ hfirst
    · exact ha before between f first n r rfl

lemma concat {line : Line} (ha : BeforeCalls P a)
    (hline : ∀ f first n r, line = .instr (.callRegisters f first n r) → P f first n a) :
    BeforeCalls P (a ++ [line]) := by
  intro before after f first n r h
  rcases List.eq_nil_or_concat after with rfl | ⟨after, last, rfl⟩
  · obtain ⟨rfl, hline'⟩ := List.append_inj' h rfl
    exact hline f first n r (List.singleton_inj.mp hline')
  · rw [List.concat_eq_append, ← List.cons_append, ← List.append_assoc] at h
    exact ha before after f first n r (List.append_inj' h rfl).1

end BeforeCalls

section

variable {folding : Bool}

lemma Expr.Prepares.extend {e : Expr Nat} {f : String} {first n : Nat} {before : List Line}
    (earlier : List Line) (h : e.Prepares folding f first n before) :
    e.Prepares folding f first n (earlier ++ before) := by
  obtain ⟨es, hes, hn, earlier', pieces, rfl, hpieces⟩ := h
  exact ⟨es, hes, hn, earlier ++ earlier', pieces, by rw [List.append_assoc], hpieces⟩

lemma Expr.exists_pieces_emitAll (es : List (Expr Nat)) (next label : Nat) :
    ∃ pieces : List (List Line), Expr.emitAll ⟨.register, folding⟩ es next label = pieces.flatten ∧
      pieces.length = es.length ∧ ∀ (k : Nat) (e : Expr Nat), es[k]? = some e → ∃ label,
        pieces[k]? =
          some (e.emit ⟨.register, folding⟩ (.value (next + k)) (next + k + 1) label) := by
  induction es generalizing next label with
  | nil => exact ⟨[], rfl, rfl, by simp⟩
  | cons e es ih =>
    obtain ⟨pieces, hflatten, hlength, hpieces⟩ := ih (next + 1) (label + e.labelCount)
    refine ⟨e.emit ⟨.register, folding⟩ (.value next) (next + 1) label :: pieces, ?_, ?_, ?_⟩
    · rw [Expr.emitAll, hflatten, List.flatten_cons]
    · rw [List.length_cons, hlength, List.length_cons]
    · intro k e' hk
      cases k with
      | zero =>
        cases hk
        exact ⟨label, rfl⟩
      | succ k =>
        obtain ⟨label', hpiece⟩ := hpieces k e' hk
        rw [Nat.add_assoc, Nat.add_comm 1] at hpiece
        exact ⟨label', hpiece⟩

/-- Operands are computed in order, and none of them is overwritten by those after it. -/
lemma Expr.exists_passesInOrder_emitAll (es : List (Expr Nat)) (next label : Nat) :
    ∃ pieces : List (List Line), Expr.emitAll ⟨.register, folding⟩ es next label = pieces.flatten ∧
      PassesInOrder folding es next pieces := by
  obtain ⟨pieces, hflatten, hlength, hpieces⟩ := Expr.exists_pieces_emitAll es next label
  refine ⟨pieces, hflatten, hlength, hpieces, ?_⟩
  intro j k piece hjk hpiece i hi hwrites
  have hk : k < es.length := by
    rw [← hlength]
    exact (List.getElem?_eq_some_iff.mp hpiece).1
  obtain ⟨label', hpiece'⟩ := hpieces k es[k] (List.getElem?_eq_getElem hk)
  obtain rfl : _ = piece := Option.some.inj (hpiece'.symm.trans hpiece)
  -- The piece of a later operand writes its own register and those above it.
  rcases (es[k].confined_emit _ _ _ i hi).writes _ hwrites with htarget | hfree
  · have : next + j = next + k := htarget
    omega
  · omega

lemma Expr.beforeCalls_emitAll {P : String → Nat → Nat → List Line → Prop}
    (hP : ∀ f first n earlier before, P f first n before → P f first n (earlier ++ before))
    {es : List (Expr Nat)} {next label : Nat}
    (h : ∀ e ∈ es, ∀ purpose next label,
      BeforeCalls P (e.emit ⟨.register, folding⟩ purpose next label)) :
    BeforeCalls P (Expr.emitAll ⟨.register, folding⟩ es next label) := by
  induction es generalizing next label with
  | nil => exact .of_notMem (by simp [Expr.emitAll])
  | cons e es ih =>
    obtain ⟨he, hes⟩ := List.forall_mem_cons.mp h
    exact .append hP (he _ _ _) (ih hes)

lemma Purpose.beforeCalls_deliver {P : String → Nat → Nat → List Line → Prop} {purpose : Purpose}
    {next : Nat} {value : Nat → Nat → List Line} (h : ∀ l next, BeforeCalls P (value l next)) :
    BeforeCalls P (purpose.deliver ⟨.register, folding⟩ next value) := by
  cases purpose with
  | value l => exact h l next
  | branchUnless label => exact (h next (next + 1)).concat fun f first n r hline => by cases hline

/-- Every call in the code of an expression finds its arguments where it looks for them. -/
lemma Expr.beforeCalls_emit {whole : Expr Nat} (e : Expr Nat)
    (he : ∀ x : Expr Nat, x.OccursIn e → x.OccursIn whole) (purpose : Purpose) (next label : Nat) :
    BeforeCalls (whole.Prepares folding) (e.emit ⟨.register, folding⟩ purpose next label) := by
  have hextend (f : String) (first n : Nat) (earlier before : List Line) :
      whole.Prepares folding f first n before →
        whole.Prepares folding f first n (earlier ++ before) := .extend earlier
  induction e generalizing purpose next label with
  | literal v =>
    rw [Expr.emit]
    exact Purpose.beforeCalls_deliver fun l next => .of_notMem (by simp [Backend.loadConstant])
  | var n =>
    rw [Expr.emit]
    exact Purpose.beforeCalls_deliver fun l next => .of_notMem (by simp [Backend.loadVariable])
  | ifElse c a b hc ha hb =>
    rw [Expr.emit]
    refine Purpose.beforeCalls_deliver fun l next => ?_
    have hcond := hc (fun x hx => he x (.condition hx))
    have hfirst := ha (fun x hx => he x (.thenBranch hx))
    have hsecond := hb (fun x hx => he x (.elseBranch hx))
    exact .append hextend (.append hextend (.append hextend (.append hextend (hcond _ _ _)
      (hfirst _ _ _)) (.of_notMem (by simp))) (hsecond _ _ _)) (.of_notMem (by simp))
  | apply p es hes =>
    have hoperands (next : Nat) : BeforeCalls (whole.Prepares folding)
        (Expr.emitAll ⟨.register, folding⟩ es next label) :=
      Expr.beforeCalls_emitAll hextend fun e hmem => hes e hmem fun x hx => he x (.operand hmem hx)
    rw [Expr.emit]
    cases purpose.folded? ⟨.register, folding⟩ p with
    | none =>
      refine Purpose.beforeCalls_deliver fun l next => (hoperands next).concat ?_
      intro f first n r hline
      have hmarks : [] = [Mark.call f n] :=
        Backend.marks_apply.symm.trans (congrArg Line.marks hline)
      cases hmarks
    | some folded => exact (hoperands next).concat fun _ _ _ _ hline => by cases hline
  | call f es hes =>
    have hoperands (next : Nat) : BeforeCalls (whole.Prepares folding)
        (Expr.emitAll ⟨.register, folding⟩ es next label) :=
      Expr.beforeCalls_emitAll hextend fun e hmem => hes e hmem fun x hx => he x (.actual hmem hx)
    rw [Expr.emit]
    refine Purpose.beforeCalls_deliver fun l next => (hoperands next).concat ?_
    rintro f first n r ⟨⟩
    -- Without actuals, there is nothing that the first register could be wrong about.
    have hfirst : Expr.emitAll ⟨.register, folding⟩ es next label =
        Expr.emitAll ⟨.register, folding⟩ es (if es.length = 0 then l else next) label := by
      cases es <;> rfl
    obtain ⟨pieces, hflatten, hpieces⟩ :=
      Expr.exists_passesInOrder_emitAll es (if es.length = 0 then l else next) label
    exact ⟨es, he _ .self, rfl, [], pieces, hfirst.trans hflatten, hpieces⟩

end

/-! ### Code of expressions -/

/-- Code that computes an expression into a target and has the registers from `next` on for
itself. -/
structure Expr.ComputedBy (folding : Bool) (e : Expr Nat) (target next : Nat) (code : List Line) :
    Prop where
  /-- It writes no variable, writes no register but the target and the free ones, and reads only
  free ones. -/
  confined : Confined {target} next code
  /-- Control leaves the code at its end and nowhere else. -/
  closed : ∀ i l, Line.instr i ∈ code → i.target? = some l → Line.label l ∈ code
  exit : ∃ passed, Walk code passed code.length
  /-- What is read has been written before, whatever way control came. -/
  reads : ∀ passed n i, Walk code passed n → code[n]? = some (.instr i) →
    ∀ r ∈ i.reads, WrittenAlong code passed r
  result : ∀ passed, Walk code passed code.length → WrittenAlong code passed target
  /-- The calls are those of the expression, and their arguments lie in consecutive registers in
  the order of the actuals. -/
  calls : markedCalls (outline code) = e.calls
  arguments : BeforeCalls (e.Prepares folding) code

lemma Line.label_mem_of_closedMarks {code : List Line} (h : ClosedMarks (outline code))
    {i : SymbolicInstr} {l : String} (hi : Line.instr i ∈ code) (hl : i.target? = some l) :
    Line.label l ∈ code := by
  have htarget : Mark.target l ∈ outline code :=
    List.mem_flatMap.mpr ⟨_, hi, by simp [Line.marks, Instr.marks, hl]⟩
  obtain ⟨line, hline, hmark⟩ := List.mem_flatMap.mp (h l htarget)
  cases line with
  | label l' =>
    cases List.mem_singleton.mp hmark
    exact hline
  | instr j => simp [Line.marks, Instr.marks] at hmark

lemma Expr.computedBy_emit (folding : Bool) (e : Expr Nat) (target next label : Nat) :
    e.ComputedBy folding target next
      (e.emit ⟨.register, folding⟩ (.value target) next label) := by
  have houtline : outline (e.emit ⟨.register, folding⟩ (.value target) next label) =
      e.marks label := by
    rw [Expr.outline_emit, Purpose.marks, List.append_nil]
  -- At the start, nothing counts as written.
  obtain ⟨known, hassigns⟩ :=
    (@Expr.assigns_emit folding e ∅ (.value target) next label).exists_known
  have hassigns := hassigns trivial
  refine ⟨e.confined_emit _ _ _, ?_, (e.passable_emit _ _ _).exists_walk, ?_, ?_, ?_, ?_⟩
  · intro i l
    refine Line.label_mem_of_closedMarks ?_
    rw [houtline]
    exact e.closed_marks label
  · exact fun passed n i hwalk hi r hr => hassigns.written_of_reads hwalk hi hr
  · exact fun passed hwalk => hassigns.written_at_end hwalk (.inr rfl)
  · rw [houtline]
    exact e.markedCalls_marks label
  · exact Expr.beforeCalls_emit e (fun _ hx => hx) _ _ _

end Izmir
