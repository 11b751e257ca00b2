import Izmir.Proofs.ListingRoundTrip
import Izmir.Proofs.Safety

/-!
# Counts with 64 bits

The slots and registers of a routine are counted with 64 bits. A listing can name every index of
64 bits, also the last one, and after that there is no number to count with. A program that was
read and linked does not name it, and all its counts are exact: the end of a window of arguments
is checked, and the number after an index is there. A program that names the last index is
refused for something else, or linking breaks off.
-/

namespace Izmir

/-- The largest index of a slot or a register that a listing can name. -/
def lastIndex : Nat :=
  UInt64.size - 1

/-- Some instruction names the last index. -/
def Assembly.NamesLastIndex (a : Assembly) : Prop :=
  ∃ p ∈ a.main :: a.procedures, ∃ i ∈ instructions p.code, lastIndex ∈ SymbolicInstr.indices i

/-- The counts of a routine have 64 bits. They are above every slot and every register that its
code uses, and no window of arguments ends past them. -/
structure Executable.Routine.Counted (r : Executable.Routine) : Prop where
  slots : r.slots < UInt64.size
  registers : r.registers < UInt64.size
  arity : r.arity ≤ r.slots
  slot_lt : ∀ i ∈ r.code.toList, ∀ n ∈ LinkedInstr.slots i, n < r.slots
  register_lt : ∀ i ∈ r.code.toList, ∀ n ∈ LinkedInstr.registers i, n < r.registers
  window_le : ∀ i ∈ r.code.toList, ∀ first n, LinkedInstr.window? i = some (first, n) →
    first + n ≤ r.registers

lemma forall_mem_of_forall₂ {α β : Type} {R : α → β → Prop} {Q : β → Prop} {as : List α}
    {bs : List β} (h : List.Forall₂ R as bs) (hQ : ∀ a ∈ as, ∀ b, R a b → Q b) :
    ∀ b ∈ bs, Q b := by
  induction h with
  | nil => exact List.forall_mem_nil _
  | cons hab _ ih =>
    obtain ⟨ha, has⟩ := List.forall_mem_cons.mp hQ
    exact List.forall_mem_cons.mpr ⟨ha _ hab, ih has⟩

/-! ### Instructions -/

lemma SymbolicInstr.WellSpelled.index_lt {i : SymbolicInstr} (h : i.WellSpelled) :
    ∀ n ∈ i.indices, n < UInt64.size := by
  cases i with
  | move a b =>
    obtain ⟨ha, hb⟩ := h
    refine List.forall_mem_append.mpr ⟨?_, ?_⟩
    · cases a <;> simp_all [Operand.indices, Operand.Fits]
    · cases b <;> simp_all [Operand.indices, Operand.Fits]
  | operateRegisters o rs r =>
    exact List.forall_mem_append.mpr ⟨h.1, List.forall_mem_singleton.mpr h.2⟩
  | branchIfRegisters c rs l => exact h.1
  | callRegisters f first n r => exact List.forall_mem_singleton.mpr h.2.2.2
  | pushVariable n | popVariable n | inputRegister n | printRegister n | retRegister n =>
    exact List.forall_mem_singleton.mpr h
  | _ => exact List.forall_mem_nil _

/-- An instruction needs a frame whose sizes have 64 bits, if its indices can be counted and its
window ends in time. -/
lemma SymbolicInstr.bounds_bare_lt {i : SymbolicInstr} (hfit : i.IndicesFit)
    (hwindow : ∀ f first n r, i = .callRegisters f first n r → first + n < UInt64.size) :
    LinkedInstr.slotBound i.bare < UInt64.size ∧
      LinkedInstr.registerBound i.bare < UInt64.size := by
  have hpos : 0 < UInt64.size := by decide
  have habove {rs : List Nat} (hrs : ∀ n ∈ rs, n + 1 < UInt64.size) :
      LinkedInstr.above rs < UInt64.size := by
    have hle : LinkedInstr.above rs ≤ UInt64.size - 1 :=
      LinkedInstr.above_le fun n hn => Nat.lt_sub_of_add_lt (hrs n hn)
    omega
  cases i with
  | move a b =>
    obtain ⟨ha, hb⟩ := List.forall_mem_append.mp hfit
    cases a <;> cases b <;>
      simp only [Operand.indices, List.forall_mem_singleton] at ha hb <;>
      simp only [bare, LinkedInstr.slotBound, LinkedInstr.registerBound] <;> omega
  | operateRegisters o rs r =>
    obtain ⟨hrs, hr⟩ := List.forall_mem_append.mp hfit
    exact ⟨hpos, Nat.max_lt.mpr ⟨habove hrs, hr r (List.mem_singleton_self r)⟩⟩
  | branchIfRegisters k rs l => exact ⟨hpos, habove hfit⟩
  | callRegisters f first n r =>
    have hend := hwindow f first n r rfl
    exact ⟨hpos, Nat.max_lt.mpr ⟨hend, hfit r (List.mem_singleton_self r)⟩⟩
  | pushVariable n | popVariable n => exact ⟨hfit n (List.mem_singleton_self n), hpos⟩
  | inputRegister r | printRegister r | retRegister r =>
    exact ⟨hpos, hfit r (List.mem_singleton_self r)⟩
  | _ => exact ⟨hpos, hpos⟩

namespace Link

variable {c : Context} {i : SymbolicInstr} {j : LinkedInstr}

lemma bounds_lt (h : c.instr i = .ok j) :
    LinkedInstr.slotBound j < UInt64.size ∧ LinkedInstr.registerBound j < UInt64.size := by
  obtain ⟨hslots, hregisters⟩ := bounds_of_instr h
  obtain ⟨hfit, h⟩ := instr_eq_ok_iff.mp h
  rw [hslots, hregisters]
  refine i.bounds_bare_lt hfit ?_
  rintro f first n r rfl
  rw [Context.uncounted] at h
  split at h
  · assumption
  · cases h

lemma target_ne_overflow (c : Context) (l : String) : c.target l ≠ .error .overflow := by
  unfold Context.target
  split <;> simp

lemma callee_ne_overflow (c : Context) (f : String) (n : Nat) :
    c.callee f n ≠ .error .overflow := by
  unfold Context.callee
  split
  · split <;> simp
  · simp

/-- Only counting an index overflows. -/
lemma uncounted_ne_overflow (c : Context) (i : SymbolicInstr) :
    c.uncounted i ≠ .error .overflow := by
  cases i with
  | branch l | branchIf k l =>
    simpa [Context.uncounted, bind_eq_error_iff] using target_ne_overflow c l
  | call f n => simpa [Context.uncounted, bind_eq_error_iff] using callee_ne_overflow c f n
  | move a b => cases b <;> simp [Context.uncounted]
  | operateRegisters o rs r =>
    rw [Context.uncounted]
    split <;> simp
  | branchIfRegisters k rs l =>
    rw [Context.uncounted]
    split
    · simpa [bind_eq_error_iff] using target_ne_overflow c l
    · simp
  | callRegisters f first n r =>
    rw [Context.uncounted]
    split
    · simpa [bind_eq_error_iff] using callee_ne_overflow c f n
    · simp
  | _ => simp [Context.uncounted]

/-- What overflows the count of an instruction that was read is the last index. -/
lemma lastIndex_mem_of_overflow (hi : i.WellSpelled) (h : c.instr i = .error .overflow) :
    lastIndex ∈ i.indices := by
  by_contra hlast
  have hfit : i.IndicesFit := by
    intro n hn
    have hlt := hi.index_lt n hn
    have hne : n ≠ lastIndex := fun heq => hlast (heq ▸ hn)
    unfold lastIndex at hne
    omega
  rw [instr_eq_uncounted hfit] at h
  exact uncounted_ne_overflow c i h

lemma lastIndex_notMem_of_instr (h : c.instr i = .ok j) : lastIndex ∉ i.indices := by
  intro hlast
  have hlt := indicesFit_of_instr h lastIndex hlast
  unfold lastIndex at hlt
  omega

/-! ### Routines -/

variable {table : List (String × Nat × Nat)} {p : Assembly.Routine} {r : Executable.Routine}

lemma lt_size_of_routine (harity : p.arity < UInt64.size) (h : routine table p = .ok r) :
    r.slots < UInt64.size ∧ r.registers < UInt64.size := by
  obtain ⟨-, linked, hlinked, rfl⟩ := routine_eq_ok h
  have hbounds : ∀ j ∈ linked, LinkedInstr.slotBound j ≤ lastIndex ∧
      LinkedInstr.registerBound j ≤ lastIndex :=
    forall_mem_of_forall₂ hlinked fun i _ j hij =>
      ⟨Nat.le_sub_one_of_lt (bounds_lt hij).1, Nat.le_sub_one_of_lt (bounds_lt hij).2⟩
  have hlast : lastIndex < UInt64.size := by decide
  constructor
  · refine (foldl_max_le ?_ fun j hj => (hbounds j hj).1).trans_lt hlast
    exact Nat.le_sub_one_of_lt harity
  · exact (foldl_max_le (Nat.zero_le _) fun j hj => (hbounds j hj).2).trans_lt hlast

/-- A routine that links does not name the last index. -/
lemma lastIndex_notMem_of_routine (h : routine table p = .ok r) :
    ∀ i ∈ Assembly.instructions p.code, lastIndex ∉ SymbolicInstr.indices i := by
  obtain ⟨-, linked, hlinked, -⟩ := routine_eq_ok h
  exact forall_mem_of_forall₂ hlinked.flip fun j _ i hij => lastIndex_notMem_of_instr hij

lemma exists_lastIndex_of_overflow (hcode : Assembly.CodeWellSpelled p.code)
    (h : routine table p = .error .overflow) :
    ∃ i ∈ Assembly.instructions p.code, lastIndex ∈ SymbolicInstr.indices i := by
  unfold routine at h
  split at h
  · cases h
  · rcases bind_eq_error_iff.mp h with h | ⟨linked, -, h⟩
    · obtain ⟨i, hi, h⟩ := exists_of_mapM_eq_error h
      have hspelled : i.WellSpelled := hcode.lines _ (mem_instructions.mp hi)
      exact ⟨i, hi, lastIndex_mem_of_overflow hspelled h⟩
    · cases h

end Link

/-! ### Programs -/

namespace Assembly

variable {a : Assembly} {x : Executable}

lemma WellSpelled.counted_of_link (h : a.WellSpelled) (hlink : a.link = .ok x) {ref : RoutineRef}
    {r : Executable.Routine} (hr : x.routine? ref = some r) : r.Counted := by
  obtain ⟨p, hp, hroutine⟩ := link_routine hlink hr
  have harity : p.arity < UInt64.size := by
    cases ref with
    | main =>
      cases hp
      rw [h.arity]
      decide
    | procedure k => exact (h.procedures p (List.mem_of_getElem? hp)).arity
  have hsound (i : LinkedInstr) (hi : i ∈ r.code.toList) : LinkedInstr.Sound x r i := by
    obtain ⟨n, hn⟩ := List.mem_iff_getElem?.mp hi
    rw [Array.getElem?_toList] at hn
    exact link_sound hlink hr hn
  obtain ⟨hslots, hregisters⟩ := Link.lt_size_of_routine harity hroutine
  exact ⟨hslots, hregisters, (Linked.of_routine hr hroutine).arity_le_slots,
    fun i hi => (hsound i hi).slots, fun i hi => (hsound i hi).registers,
    fun i hi => (hsound i hi).window⟩

lemma not_namesLastIndex_of_link (hlink : a.link = .ok x) : ¬a.NamesLastIndex := by
  obtain ⟨-, hprocedures, hmain⟩ := link_eq_ok hlink
  rintro ⟨p, hp, i, hi, hlast⟩
  rcases List.mem_cons.mp hp with rfl | hp
  · exact Link.lastIndex_notMem_of_routine hmain i hi hlast
  · have hall := forall_mem_of_forall₂ hprocedures.flip fun r _ p hp =>
      Link.lastIndex_notMem_of_routine hp
    exact hall p hp i hi hlast

lemma WellSpelled.namesLastIndex_of_overflow (h : a.WellSpelled)
    (hlink : a.link = .error .overflow) : a.NamesLastIndex := by
  rw [link_eq] at hlink
  split at hlink
  · cases hlink
  · rcases bind_eq_error_iff.mp hlink with hlink | ⟨rs, -, hlink⟩
    · obtain ⟨p, hp, hroutine⟩ := exists_of_mapM_eq_error hlink
      exact ⟨p, List.mem_cons_of_mem _ hp,
        Link.exists_lastIndex_of_overflow (h.procedures p hp).code hroutine⟩
    · rcases bind_eq_error_iff.mp hlink with hroutine | ⟨r, -, hlink⟩
      · exact ⟨a.main, List.mem_cons_self, Link.exists_lastIndex_of_overflow h.main hroutine⟩
      · cases hlink

/-- A program that was read either links, and then the counts of all its routines are right; or it
is refused with an error; or it names the last index, and linking breaks off when it counts past
that. Whatever names the last index does not link. -/
theorem counts_of_read {file text : String} (hread : read file text = .ok a) :
    (∀ x, a.link = .ok x → ∀ ref r, x.routine? ref = some r → r.Counted) ∧
      (a.link = .error .overflow → a.NamesLastIndex) ∧
      (a.NamesLastIndex → ∀ x, a.link ≠ .ok x) := by
  have hspelled := wellSpelled_of_read hread
  refine ⟨fun x hlink ref r => hspelled.counted_of_link hlink,
    hspelled.namesLastIndex_of_overflow, fun hlast x hlink => ?_⟩
  exact not_namesLastIndex_of_link hlink hlast

/-- The largest slot and the largest window that can be counted. -/
def ample : String :=
  ".procedure f 1\npushvariable @18446744073709551614\nreturn\n" ++
    ".main\ncall f, %r18446744073709551614, 1, %r0"

theorem counts_of_read_ample :
    ∃ a x r, read "t" ample = .ok a ∧ a.link = .ok x ∧ x.routine? (.procedure 0) = some r ∧
      r.Counted ∧ r.slots = lastIndex ∧ x.main.Counted ∧ x.main.registers = lastIndex := by
  have hread : read "t" ample = .ok ⟨"t",
      [⟨.procedure "f", 1, [.instr (.pushVariable 18446744073709551614), .instr .ret]⟩],
      .main [.instr (.callRegisters "f" 18446744073709551614 1 0)]⟩ := by decide +kernel
  have hlink : link ⟨"t",
      [⟨.procedure "f", 1, [.instr (.pushVariable 18446744073709551614), .instr .ret]⟩],
      .main [.instr (.callRegisters "f" 18446744073709551614 1 0)]⟩ =
        .ok ⟨#[.ofCode (.procedure "f") 1 [.pushVariable 18446744073709551614, .ret]],
          .ofCode .main 0 [.callRegisters 0 18446744073709551614 1 0]⟩ := by decide +kernel
  have hcounted := (counts_of_read hread).1 _ hlink
  exact ⟨_, _, _, hread, hlink, rfl, hcounted (.procedure 0) _ rfl, by decide +kernel,
    hcounted .main _ rfl, by decide +kernel⟩

/-- The last register is accepted by the reader, and linking breaks off on it instead of refusing
it. -/
theorem last_register_overflows :
    read "t" ".main\nprint %r18446744073709551615\n" =
        .ok ⟨"t", [], .main [.instr (.printRegister lastIndex)]⟩ ∧
      link ⟨"t", [], .main [.instr (.printRegister lastIndex)]⟩ = .error .overflow := by
  decide +kernel

end Assembly

end Izmir
