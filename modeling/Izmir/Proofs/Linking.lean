import Izmir.Executable.Link
import Izmir.Proofs.Runs

/-!
# What linking gives

Linked code is the instructions of the labelled code, one for one. `Embeds code n block` says
that a block stands in labelled code where its first instruction has position `n`; the link
then gives the instructions of the block from `n` on, and every label of the block its
position. Frames are large enough for every instruction of their routine. Where the indices of
an instruction can be counted, linking it is a matter of its label and its callee.
-/

namespace Izmir

lemma bind_eq_ok_iff {ε α β : Type} {a : Except ε α} {f : α → Except ε β} {b : β} :
    (a >>= f) = .ok b ↔ ∃ c, a = .ok c ∧ f c = .ok b := by
  cases a <;> simp [bind, Except.bind]

lemma bind_eq_error_iff {ε α β : Type} {a : Except ε α} {f : α → Except ε β} {e : ε} :
    (a >>= f) = .error e ↔ a = .error e ∨ ∃ c, a = .ok c ∧ f c = .error e := by
  cases a <;> simp [bind, Except.bind]

/-- A list is mapped when each of its elements is. -/
lemma mapM_eq_ok_iff {ε α β : Type} {f : α → Except ε β} {as : List α} {bs : List β} :
    as.mapM f = .ok bs ↔ List.Forall₂ (fun a b => f a = .ok b) as bs := by
  induction as generalizing bs with
  | nil =>
    rw [List.mapM_nil, List.forall₂_nil_left_iff]
    exact ⟨fun h => (Except.ok.inj h).symm, fun h => congrArg Except.ok h.symm⟩
  | cons a as ih =>
    simp only [List.mapM_cons, bind_eq_ok_iff, ih, List.forall₂_cons_left_iff]
    constructor
    · rintro ⟨b, hb, cs, hcs, h⟩
      exact ⟨b, cs, hb, hcs, (Except.ok.inj h).symm⟩
    · rintro ⟨b, cs, hb, hcs, rfl⟩
      exact ⟨b, hb, cs, hcs, rfl⟩

/-- When mapping a list fails, it does so on an element. -/
lemma exists_of_mapM_eq_error {ε α β : Type} {f : α → Except ε β} {as : List α} {e : ε}
    (h : as.mapM f = .error e) : ∃ a ∈ as, f a = .error e := by
  induction as with
  | nil => cases h
  | cons a as ih =>
    rw [List.mapM_cons, bind_eq_error_iff] at h
    rcases h with ha | ⟨b, -, h⟩
    · exact ⟨a, List.mem_cons_self, ha⟩
    · rcases bind_eq_error_iff.mp h with has | ⟨bs, -, h⟩
      · obtain ⟨a', hmem, ha'⟩ := ih has
        exact ⟨a', List.mem_cons_of_mem a hmem, ha'⟩
      · cases h

/-- Mapping a list succeeds when it does on each element. -/
lemma exists_mapM_eq_ok_iff {ε α β : Type} {f : α → Except ε β} {as : List α} :
    (∃ bs, as.mapM f = .ok bs) ↔ ∀ a ∈ as, ∃ b, f a = .ok b := by
  simp only [mapM_eq_ok_iff]
  induction as with
  | nil => simp
  | cons a as ih =>
    rw [List.forall_mem_cons, ← ih]
    constructor
    · rintro ⟨_, hall⟩
      cases hall with
      | cons hb hbs => exact ⟨⟨_, hb⟩, _, hbs⟩
    · rintro ⟨⟨b, hb⟩, bs, hbs⟩
      exact ⟨b :: bs, .cons hb hbs⟩

lemma firstRepeat?_go_eq_none_iff {α : Type} [DecidableEq α] (seen as : List α) :
    firstRepeat?.go seen as = none ↔ as.Nodup ∧ ∀ a ∈ as, a ∉ seen := by
  induction as generalizing seen with
  | nil => simp [firstRepeat?.go]
  | cons a as ih =>
    rw [firstRepeat?.go]
    by_cases ha : a ∈ seen
    · simp [ha]
    · simp only [ha, if_false, ih, List.nodup_cons, List.mem_cons, forall_eq_or_imp, not_or]
      constructor
      · rintro ⟨hnd, hs⟩
        exact ⟨⟨fun hm => (hs a hm).1 rfl, hnd⟩, not_false, fun b hb => (hs b hb).2⟩
      · rintro ⟨⟨hna, hnd⟩, -, hs⟩
        exact ⟨hnd, fun b hb => ⟨fun he => hna (he ▸ hb), hs b hb⟩⟩

lemma firstRepeat?_eq_none_iff {α : Type} [DecidableEq α] (as : List α) :
    firstRepeat? as = none ↔ as.Nodup := by
  simp [firstRepeat?, firstRepeat?_go_eq_none_iff]

lemma firstRepeat?_go_eq_some_iff {α : Type} [DecidableEq α] (seen as : List α) (a : α) :
    firstRepeat?.go seen as = some a ↔
      ∃ before after, as = before ++ a :: after ∧ (before.Nodup ∧ ∀ b ∈ before, b ∉ seen) ∧
        (a ∈ seen ∨ a ∈ before) := by
  induction as generalizing seen with
  | nil => simp [firstRepeat?.go]
  | cons c as ih =>
    rw [firstRepeat?.go]
    by_cases hc : c ∈ seen
    · rw [if_pos hc]
      constructor
      · rintro ⟨⟩
        exact ⟨[], as, rfl, ⟨List.nodup_nil, List.forall_mem_nil _⟩, .inl hc⟩
      · rintro ⟨before, after, heq, ⟨-, hbefore⟩, -⟩
        cases before with
        | nil => rw [(List.cons.inj heq).1]
        | cons b before =>
          have hb := hbefore b List.mem_cons_self
          rw [← (List.cons.inj heq).1] at hb
          exact absurd hc hb
    · rw [if_neg hc, ih]
      constructor
      · rintro ⟨before, after, rfl, ⟨hnodup, hbefore⟩, ha⟩
        have hnotMem : c ∉ before := fun hmem => hbefore c hmem List.mem_cons_self
        refine ⟨c :: before, after, rfl, ⟨List.nodup_cons.mpr ⟨hnotMem, hnodup⟩, ?_⟩, ?_⟩
        · exact List.forall_mem_cons.mpr
            ⟨hc, fun b hb hseen => hbefore b hb (List.mem_cons_of_mem c hseen)⟩
        · simp only [List.mem_cons] at ha ⊢
          tauto
      · rintro ⟨before, after, heq, ⟨hnodup, hbefore⟩, ha⟩
        cases before with
        | nil =>
          rw [← (List.cons.inj heq).1] at ha
          exact absurd ha (by simpa using hc)
        | cons b before =>
          obtain ⟨rfl, rfl⟩ := List.cons.inj heq
          obtain ⟨hnotMem, hnodup⟩ := List.nodup_cons.mp hnodup
          refine ⟨before, after, rfl, ⟨hnodup, ?_⟩, ?_⟩
          · intro b hb hseen
            rcases List.mem_cons.mp hseen with rfl | hseen
            · exact hnotMem hb
            · exact hbefore b (List.mem_cons_of_mem _ hb) hseen
          · simp only [List.mem_cons] at ha ⊢
            tauto

/-- The first repeated element stands behind different elements, of which it is one. -/
lemma firstRepeat?_eq_some_iff {α : Type} [DecidableEq α] {as : List α} {a : α} :
    firstRepeat? as = some a ↔
      ∃ before after, as = before ++ a :: after ∧ before.Nodup ∧ a ∈ before := by
  simp [firstRepeat?, firstRepeat?_go_eq_some_iff]

lemma lookup_eq_none_iff_keys {α β : Type} [BEq α] [LawfulBEq α] {a : α} {l : List (α × β)} :
    l.lookup a = none ↔ a ∉ l.map Prod.fst := by
  rw [List.lookup_eq_none_iff]
  simp only [bne_iff_ne, ne_eq, List.mem_map, not_exists, not_and]
  exact forall_congr' fun p => imp_congr_right fun _ => not_congr eq_comm

namespace Assembly

@[simp] lemma instructions_nil : instructions [] = [] := rfl

@[simp] lemma instructions_label (l : String) (code : List Line) :
    instructions (.label l :: code) = instructions code := rfl

@[simp] lemma instructions_instr (i : SymbolicInstr) (code : List Line) :
    instructions (.instr i :: code) = i :: instructions code := rfl

@[simp] lemma instructions_append (a b : List Line) :
    instructions (a ++ b) = instructions a ++ instructions b :=
  List.filterMap_append

@[simp] lemma labels_nil : labels [] = [] := rfl

@[simp] lemma labels_label (l : String) (code : List Line) :
    labels (.label l :: code) = l :: labels code := rfl

@[simp] lemma labels_instr (i : SymbolicInstr) (code : List Line) :
    labels (.instr i :: code) = labels code := rfl

@[simp] lemma labels_append (a b : List Line) : labels (a ++ b) = labels a ++ labels b :=
  List.filterMap_append

/-- Name, index and arity of each procedure. -/
def table (a : Assembly) : List (String × Nat × Nat) :=
  a.procedures.zipIdx.map fun (p, i) => (p.name.text, i, p.arity)

end Assembly

open Assembly (instructions labels)

lemma mem_instructions {code : List Line} {i : SymbolicInstr} :
    i ∈ Assembly.instructions code ↔ Line.instr i ∈ code := by
  induction code with
  | nil => simp
  | cons line code ih => cases line <;> simp [ih]

/-- The number of instructions in some code. -/
def codeSize (code : List Line) : Nat :=
  (instructions code).length

@[simp] lemma codeSize_nil : codeSize [] = 0 := rfl

@[simp] lemma codeSize_label (l : String) (code : List Line) :
    codeSize (.label l :: code) = codeSize code := rfl

@[simp] lemma codeSize_instr (i : SymbolicInstr) (code : List Line) :
    codeSize (.instr i :: code) = codeSize code + 1 := rfl

@[simp] lemma codeSize_append (a b : List Line) : codeSize (a ++ b) = codeSize a + codeSize b := by
  simp [codeSize]

/-- A block stands in some code, with its first instruction at a position. -/
def Embeds (code : List Line) (n : Nat) (block : List Line) : Prop :=
  ∃ before rest, code = before ++ block ++ rest ∧ codeSize before = n

namespace Embeds

variable {code a b : List Line} {n : Nat}

lemma self (code : List Line) : Embeds code 0 code :=
  ⟨[], [], by simp, rfl⟩

lemma left (h : Embeds code n (a ++ b)) : Embeds code n a := by
  obtain ⟨before, rest, rfl, hn⟩ := h
  exact ⟨before, b ++ rest, by simp, hn⟩

lemma right (h : Embeds code n (a ++ b)) : Embeds code (n + codeSize a) b := by
  obtain ⟨before, rest, rfl, hn⟩ := h
  exact ⟨before ++ a, rest, by simp, by simp [hn]⟩

lemma tail_instr {i : SymbolicInstr} (h : Embeds code n (.instr i :: b)) :
    Embeds code (n + 1) b :=
  right (a := [.instr i]) h

end Embeds

namespace Link

lemma targets_append (n : Nat) (a b : List Line) :
    targets n (a ++ b) = targets n a ++ targets (n + codeSize a) b := by
  induction a generalizing n with
  | nil => simp [targets]
  | cons line a ih =>
    cases line with
    | label l => simp [targets, ih]
    | instr i => simp [targets, ih, Nat.add_assoc, Nat.add_comm 1]

lemma targets_keys (n : Nat) (code : List Line) :
    (targets n code).map Prod.fst = labels code := by
  induction code generalizing n with
  | nil => rfl
  | cons line code ih => cases line <;> simp [targets, ih]

/-- A label of the code lies at most at its end. -/
lemma targets_le (n : Nat) (code : List Line) :
    ∀ p ∈ targets n code, p.2 ≤ n + codeSize code := by
  induction code generalizing n with
  | nil => simp [targets]
  | cons line code ih =>
    cases line with
    | label l =>
      simp only [targets, codeSize_label, List.mem_cons, forall_eq_or_imp]
      exact ⟨by omega, ih n⟩
    | instr i =>
      intro p hp
      have := ih (n + 1) p hp
      simp only [codeSize_instr]
      omega

/-- What is known when a routine of some code is linked. -/
def contextOf (table : List (String × Nat × Nat)) (name : RoutineName) (code : List Line) :
    Context :=
  ⟨name.text, targets 0 code, table⟩

lemma target_eq_ok_iff {c : Context} {l : String} {n : Nat} :
    c.target l = .ok n ↔ c.labels.lookup l = some n := by
  unfold Context.target
  cases c.labels.lookup l <;> simp

lemma mem_targets_of_target {table : List (String × Nat × Nat)} {name : RoutineName}
    {l : String} {code : List Line} {n : Nat} (h : (contextOf table name code).target l = .ok n) :
    (l, n) ∈ targets 0 code := by
  obtain ⟨before, after, heq, -⟩ := List.lookup_eq_some_iff.mp (target_eq_ok_iff.mp h)
  change targets 0 code = _ at heq
  simp [heq]

lemma target_of_embeds {table : List (String × Nat × Nat)} {name : RoutineName} {l : String}
    {code rest : List Line} {n : Nat} (hnd : (labels code).Nodup)
    (h : Embeds code n (.label l :: rest)) : (contextOf table name code).target l = .ok n := by
  obtain ⟨before, after, rfl, hn⟩ := h
  rw [target_eq_ok_iff]
  refine List.lookup_eq_some_iff.mpr
    ⟨targets 0 before, targets n (rest ++ after), ?_, ?_⟩
  · rw [contextOf, List.append_assoc, targets_append, Nat.zero_add, hn]
    rfl
  · intro p hp
    have hkey : p.1 ∈ labels before := by
      rw [← targets_keys 0 before]
      exact List.mem_map_of_mem hp
    simp only [Assembly.labels_append, Assembly.labels_label, List.append_assoc, List.cons_append,
      List.nodup_append, List.mem_cons] at hnd
    simpa using (hnd.2.2 p.1 hkey l (Or.inl rfl)).symm

lemma callee_eq_ok_iff {c : Context} {f : String} {n i : Nat} :
    c.callee f n = .ok i ↔ c.procedures.lookup f = some (i, n) := by
  unfold Context.callee
  cases c.procedures.lookup f with
  | none => simp
  | some p =>
    obtain ⟨j, m⟩ := p
    by_cases h : m = n <;> simp [h]

lemma routine_eq_ok {table : List (String × Nat × Nat)} {p : Assembly.Routine}
    {r : Executable.Routine} (h : routine table p = .ok r) :
    (labels p.code).Nodup ∧ ∃ linked,
      List.Forall₂ (fun i j => (contextOf table p.name p.code).instr i = .ok j)
        (instructions p.code) linked ∧ r = .ofCode p.name p.arity linked := by
  unfold routine at h
  cases hl : firstRepeat? (labels p.code) with
  | some l => simp [hl] at h
  | none =>
    simp only [hl, bind_eq_ok_iff, mapM_eq_ok_iff] at h
    obtain ⟨linked, hlinked, hr⟩ := h
    exact ⟨(firstRepeat?_eq_none_iff _).mp hl, linked, hlinked, (Except.ok.inj hr).symm⟩

/-- A routine can be linked when no label is defined twice and each instruction can. -/
lemma exists_routine_eq_ok_iff {table : List (String × Nat × Nat)} {p : Assembly.Routine} :
    (∃ r, routine table p = .ok r) ↔
      (labels p.code).Nodup ∧
        ∀ i ∈ instructions p.code, ∃ j, (contextOf table p.name p.code).instr i = .ok j := by
  rw [← exists_mapM_eq_ok_iff]
  constructor
  · rintro ⟨r, hr⟩
    obtain ⟨hnd, linked, hlinked, -⟩ := routine_eq_ok hr
    exact ⟨hnd, linked, mapM_eq_ok_iff.mpr hlinked⟩
  · rintro ⟨hnd, linked, hlinked⟩
    rw [routine, (firstRepeat?_eq_none_iff _).mpr hnd]
    exact ⟨_, bind_eq_ok_iff.mpr ⟨linked, hlinked, rfl⟩⟩

end Link

/-! ### Indices that can be counted -/

def Operand.indices : Operand → List Nat
  | .literal _ => []
  | .slot n | .register n => [n]

namespace SymbolicInstr

/-- The slots and registers that an instruction names one by one. -/
def indices : SymbolicInstr → List Nat
  | .pushVariable n | .popVariable n => [n]
  | .move a b => a.indices ++ b.indices
  | .operateRegisters _ rs r => rs ++ [r]
  | .inputRegister r | .printRegister r | .retRegister r => [r]
  | .branchIfRegisters _ rs _ => rs
  | .callRegisters _ _ _ r => [r]
  | _ => []

/-- There is a number of 64 bits after each index. -/
def IndicesFit (i : SymbolicInstr) : Prop :=
  ∀ n ∈ indices i, n + 1 < UInt64.size

end SymbolicInstr

namespace Link

lemma index_eq_ok_iff {n m : Nat} : index n = .ok m ↔ n + 1 < UInt64.size ∧ m = n := by
  unfold index
  split <;> simp_all [eq_comm]

lemma mapM_index_eq_ok_iff {rs sources : List Nat} :
    rs.mapM index = .ok sources ↔ (∀ n ∈ rs, n + 1 < UInt64.size) ∧ sources = rs := by
  simp only [mapM_eq_ok_iff, index_eq_ok_iff]
  induction rs generalizing sources with
  | nil => simp [List.forall₂_nil_left_iff]
  | cons r rs ih =>
    simp only [List.forall₂_cons_left_iff, ih, List.forall_mem_cons]
    constructor
    · rintro ⟨m, ms, ⟨hr, rfl⟩, ⟨hrs, rfl⟩, rfl⟩
      exact ⟨⟨hr, hrs⟩, rfl⟩
    · rintro ⟨⟨hr, hrs⟩, rfl⟩
      exact ⟨r, rs, ⟨hr, rfl⟩, ⟨hrs, rfl⟩, rfl⟩

lemma operand_eq_ok_iff {a b : Operand} :
    operand a = .ok b ↔ (∀ n ∈ a.indices, n + 1 < UInt64.size) ∧ b = a := by
  cases a with
  | literal v => simp [operand, Operand.indices, eq_comm]
  | slot n | register n =>
    simp only [operand, Operand.indices, bind_eq_ok_iff, index_eq_ok_iff, List.mem_singleton,
      forall_eq]
    constructor
    · rintro ⟨m, ⟨hn, rfl⟩, h⟩
      exact ⟨hn, (Except.ok.inj h).symm⟩
    · rintro ⟨hn, rfl⟩
      exact ⟨n, ⟨hn, rfl⟩, rfl⟩

namespace Context

/-- Link an instruction as if all numbers could be counted. -/
def uncounted (c : Context) (i : SymbolicInstr) : Except LinkError LinkedInstr :=
  match i with
  | .pushConstant v => .ok (.pushConstant v)
  | .pushVariable n => .ok (.pushVariable n)
  | .popVariable n => .ok (.popVariable n)
  | .operate o => .ok (.operate o)
  | .input => .ok .input
  | .print => .ok .print
  | .drop => .ok .drop
  | .branch l => do .ok (.branch (← c.target l))
  | .branchIf k l => do .ok (.branchIf k (← c.target l))
  | .call f n => do .ok (.call (← c.callee f n) n)
  | .ret => .ok .ret
  | .move a (.slot n) => .ok (.move a (.slot n))
  | .move a (.register n) => .ok (.move a (.register n))
  | .move _ (.literal _) => .error (.nonWritableDestination c.routine i)
  | .operateRegisters o rs r =>
    if rs.length = o.arity then .ok (.operateRegisters o rs r)
    else .error (.operandCount c.routine i)
  | .inputRegister r => .ok (.inputRegister r)
  | .printRegister r => .ok (.printRegister r)
  | .branchIfRegisters k rs l =>
    if rs.length = k.arity then do .ok (.branchIfRegisters k rs (← c.target l))
    else .error (.operandCount c.routine i)
  | .callRegisters f first n r =>
    if first + n < UInt64.size then do .ok (.callRegisters (← c.callee f n) first n r)
    else .error (.registerRange c.routine i)
  | .retRegister r => .ok (.retRegister r)

end Context

variable {c : Context} {i : SymbolicInstr} {j : LinkedInstr}

/-- Where indices can be counted, nothing comes of counting them. -/
lemma instr_eq_uncounted (h : i.IndicesFit) : c.instr i = c.uncounted i := by
  have hindex {n : Nat} (hn : n ∈ i.indices) : index n = .ok n :=
    index_eq_ok_iff.mpr ⟨h n hn, rfl⟩
  have hmapM {rs : List Nat} (hrs : ∀ n ∈ rs, n ∈ i.indices) : rs.mapM index = .ok rs :=
    mapM_index_eq_ok_iff.mpr ⟨fun n hn => h n (hrs n hn), rfl⟩
  cases i with
  | pushVariable n | popVariable n | inputRegister n | printRegister n | retRegister n =>
    rw [Context.instr, hindex (by simp [SymbolicInstr.indices])]
    rfl
  | move a b =>
    have ha : operand a = .ok a := by
      refine operand_eq_ok_iff.mpr ⟨fun n hn => h n ?_, rfl⟩
      exact List.mem_append_left _ hn
    rw [Context.instr, ha]
    cases b with
    | literal v => rfl
    | slot n | register n =>
      have hn : index n = .ok n := hindex (List.mem_append_right _ (List.mem_singleton_self n))
      simp only [bind, Except.bind, Context.destination, hn]
      rfl
  | operateRegisters o rs r =>
    rw [Context.instr, hmapM (by simp +contextual [SymbolicInstr.indices]),
      hindex (by simp [SymbolicInstr.indices])]
    rfl
  | branchIfRegisters k rs l =>
    rw [Context.instr, hmapM (by simp [SymbolicInstr.indices])]
    rfl
  | callRegisters f first n r =>
    rw [Context.instr, hindex (by simp [SymbolicInstr.indices])]
    rfl
  | _ => rfl

/-- An instruction that was linked has indices that can be counted. -/
lemma indicesFit_of_instr (h : c.instr i = .ok j) : i.IndicesFit := by
  cases i with
  | pushVariable n | popVariable n | inputRegister n | printRegister n | retRegister n =>
    obtain ⟨m, hm, -⟩ := bind_eq_ok_iff.mp h
    simpa [SymbolicInstr.IndicesFit, SymbolicInstr.indices] using (index_eq_ok_iff.mp hm).1
  | move a b =>
    obtain ⟨source, hsource, h⟩ := bind_eq_ok_iff.mp h
    obtain ⟨place, hplace, -⟩ := bind_eq_ok_iff.mp h
    have hb : ∀ n ∈ b.indices, n + 1 < UInt64.size := by
      cases b with
      | literal v => simp [Operand.indices]
      | slot n | register n =>
        obtain ⟨m, hm, -⟩ := bind_eq_ok_iff.mp hplace
        simpa [Operand.indices] using (index_eq_ok_iff.mp hm).1
    intro n hn
    rcases List.mem_append.mp hn with hn | hn
    · exact (operand_eq_ok_iff.mp hsource).1 n hn
    · exact hb n hn
  | operateRegisters o rs r =>
    rw [Context.instr] at h
    split at h
    · obtain ⟨sources, hsources, h⟩ := bind_eq_ok_iff.mp h
      obtain ⟨m, hm, -⟩ := bind_eq_ok_iff.mp h
      intro n hn
      rcases List.mem_append.mp hn with hn | hn
      · exact (mapM_index_eq_ok_iff.mp hsources).1 n hn
      · rw [List.mem_singleton.mp hn]
        exact (index_eq_ok_iff.mp hm).1
    · cases h
  | branchIfRegisters k rs l =>
    rw [Context.instr] at h
    split at h
    · obtain ⟨sources, hsources, -⟩ := bind_eq_ok_iff.mp h
      exact (mapM_index_eq_ok_iff.mp hsources).1
    · cases h
  | callRegisters f first n r =>
    rw [Context.instr] at h
    split at h
    · obtain ⟨callee, -, h⟩ := bind_eq_ok_iff.mp h
      obtain ⟨m, hm, -⟩ := bind_eq_ok_iff.mp h
      simpa [SymbolicInstr.IndicesFit, SymbolicInstr.indices] using (index_eq_ok_iff.mp hm).1
    · cases h
  | _ => simp [SymbolicInstr.IndicesFit, SymbolicInstr.indices]

/-- An instruction is linked when its indices can be counted and nothing else is wrong. -/
lemma instr_eq_ok_iff : c.instr i = .ok j ↔ i.IndicesFit ∧ c.uncounted i = .ok j := by
  constructor
  · intro h
    have hfit := indicesFit_of_instr h
    exact ⟨hfit, instr_eq_uncounted hfit ▸ h⟩
  · rintro ⟨hfit, h⟩
    rw [instr_eq_uncounted hfit, h]

end Link

lemma le_foldl_max {α : Type} (f : α → Nat) (as : List α) (m : Nat) :
    m ≤ as.foldl (fun k a => max k (f a)) m ∧
      ∀ a ∈ as, f a ≤ as.foldl (fun k a => max k (f a)) m := by
  induction as generalizing m with
  | nil => simp
  | cons a as ih =>
    obtain ⟨hm, has⟩ := ih (max m (f a))
    refine ⟨(Nat.le_max_left _ _).trans hm, ?_⟩
    intro b hb
    rcases List.mem_cons.mp hb with rfl | hb
    · exact (Nat.le_max_right _ _).trans hm
    · exact has b hb

lemma foldl_max_le {α : Type} {f : α → Nat} {as : List α} {m n : Nat} (hm : m ≤ n)
    (h : ∀ a ∈ as, f a ≤ n) : as.foldl (fun k a => max k (f a)) m ≤ n := by
  induction as generalizing m with
  | nil => exact hm
  | cons a as ih =>
    obtain ⟨ha, has⟩ := List.forall_mem_cons.mp h
    exact ih (Nat.max_le.mpr ⟨hm, ha⟩) has

lemma foldl_max_congr {α β : Type} {f : α → Nat} {g : β → Nat} {as : List α} {bs : List β}
    (h : List.Forall₂ (fun a b => f a = g b) as bs) (m : Nat) :
    as.foldl (fun k a => max k (f a)) m = bs.foldl (fun k b => max k (g b)) m := by
  induction h generalizing m with
  | nil => rfl
  | cons hab _ ih => rw [List.foldl_cons, List.foldl_cons, hab, ih]

lemma LinkedInstr.above_le {rs : List Nat} {n : Nat} (h : ∀ r ∈ rs, r < n) : above rs ≤ n :=
  foldl_max_le (Nat.zero_le n) h

/-! ### What the size of a frame depends on -/

/-- An instruction with nothing in the place of its label and its callee. If it stores into a
literal, nothing is left of it. -/
def SymbolicInstr.bare : SymbolicInstr → LinkedInstr
  | .pushConstant v => .pushConstant v
  | .pushVariable n => .pushVariable n
  | .popVariable n => .popVariable n
  | .operate o => .operate o
  | .input => .input
  | .print => .print
  | .drop => .drop
  | .branch _ => .branch 0
  | .branchIf k _ => .branchIf k 0
  | .call _ n => .call 0 n
  | .ret => .ret
  | .move a (.slot n) => .move a (.slot n)
  | .move a (.register n) => .move a (.register n)
  | .move _ (.literal _) => .drop
  | .operateRegisters o rs r => .operateRegisters o rs r
  | .inputRegister r => .inputRegister r
  | .printRegister r => .printRegister r
  | .branchIfRegisters k rs _ => .branchIfRegisters k rs 0
  | .callRegisters _ first n r => .callRegisters 0 first n r
  | .retRegister r => .retRegister r

/-- A routine of labelled code with the frames that it needs. -/
def Assembly.Routine.bare (p : Assembly.Routine) : Executable.Routine :=
  .ofCode p.name p.arity ((instructions p.code).map SymbolicInstr.bare)

namespace Link

lemma bounds_of_instr {c : Context} {i : SymbolicInstr} {j : LinkedInstr}
    (h : c.instr i = .ok j) :
    LinkedInstr.slotBound j = LinkedInstr.slotBound i.bare ∧
      LinkedInstr.registerBound j = LinkedInstr.registerBound i.bare := by
  obtain ⟨-, h⟩ := instr_eq_ok_iff.mp h
  cases i with
  | move a b => cases b <;> cases h <;> exact ⟨rfl, rfl⟩
  | branch l | branchIf k l | call f n =>
    obtain ⟨u, -, hj⟩ := bind_eq_ok_iff.mp h
    cases hj
    exact ⟨rfl, rfl⟩
  | operateRegisters o rs r =>
    simp only [Context.uncounted] at h
    split at h <;> cases h
    exact ⟨rfl, rfl⟩
  | branchIfRegisters k rs l | callRegisters f first n r =>
    simp only [Context.uncounted] at h
    split at h
    · obtain ⟨u, -, hj⟩ := bind_eq_ok_iff.mp h
      cases hj
      exact ⟨rfl, rfl⟩
    · cases h
  | _ =>
    cases h
    exact ⟨rfl, rfl⟩

/-- The frames of a linked routine do not depend on where it branches and what it calls. -/
lemma frame_of_routine {table : List (String × Nat × Nat)} {p : Assembly.Routine}
    {r : Executable.Routine} (h : routine table p = .ok r) :
    r.slots = p.bare.slots ∧ r.registers = p.bare.registers := by
  obtain ⟨-, linked, hlinked, rfl⟩ := routine_eq_ok h
  have hbare : List.Forall₂ (fun j k => LinkedInstr.slotBound j = LinkedInstr.slotBound k ∧
      LinkedInstr.registerBound j = LinkedInstr.registerBound k) linked
      ((instructions p.code).map SymbolicInstr.bare) := by
    rw [List.forall₂_map_right_iff]
    exact hlinked.flip.imp fun j i hij => bounds_of_instr hij
  exact ⟨foldl_max_congr (hbare.imp fun _ _ h => h.1) p.arity,
    foldl_max_congr (hbare.imp fun _ _ h => h.2) 0⟩

lemma fits_of_routine {table : List (String × Nat × Nat)} {p : Assembly.Routine}
    {r : Executable.Routine} (h : routine table p = .ok r) : r.Fits ↔ p.bare.Fits := by
  obtain ⟨hslots, hregisters⟩ := frame_of_routine h
  rw [Executable.Routine.Fits, Executable.Routine.Fits, hslots, hregisters]

end Link

/-- The labelled code of a routine of an executable. -/
structure Linked (x : Executable) (table : List (String × Nat × Nat)) (ref : RoutineRef)
    (r : Executable.Routine) (code : List Line) : Prop where
  found : x.routine? ref = some r
  link : Link.routine table ⟨r.name, r.arity, code⟩ = .ok r

namespace Linked

variable {x : Executable} {table : List (String × Nat × Nat)} {ref : RoutineRef}
  {r : Executable.Routine} {code : List Line}

lemma arity_le_slots (h : Linked x table ref r code) : r.arity ≤ r.slots := by
  obtain ⟨-, linked, -, hr⟩ := Link.routine_eq_ok h.link
  rw [hr]
  exact (le_foldl_max _ linked r.arity).1

lemma code_size (h : Linked x table ref r code) : r.code.size = codeSize code := by
  obtain ⟨-, linked, hlinked, hr⟩ := Link.routine_eq_ok h.link
  rw [hr]
  exact hlinked.length_eq.symm

/-- Every position of a linked routine holds the link of an instruction, and the frames of
the routine are large enough for it. -/
lemma get (h : Linked x table ref r code) {n : Nat} {j : LinkedInstr}
    (hj : r.code[n]? = some j) :
    (∃ i, (instructions code)[n]? = some i ∧
      (Link.contextOf table r.name code).instr i = .ok j) ∧
      LinkedInstr.slotBound j ≤ r.slots ∧ LinkedInstr.registerBound j ≤ r.registers := by
  obtain ⟨-, linked, hlinked, hr⟩ := Link.routine_eq_ok h.link
  have hn : linked[n]? = some j := by
    rw [hr] at hj
    simpa [Executable.Routine.ofCode] using hj
  have hmem : j ∈ linked := List.mem_of_getElem? hn
  refine ⟨?_, ?_, ?_⟩
  · obtain ⟨hlt, rfl⟩ := List.getElem?_eq_some_iff.mp hn
    have hlt' : n < (instructions code).length := hlinked.length_eq ▸ hlt
    exact ⟨_, List.getElem?_eq_getElem hlt', hlinked.get hlt' hlt⟩
  · rw [hr]
    exact (le_foldl_max LinkedInstr.slotBound linked r.arity).2 j hmem
  · rw [hr]
    exact (le_foldl_max LinkedInstr.registerBound linked 0).2 j hmem

/-- The instruction at the head of an embedded block. -/
lemma fetch (h : Linked x table ref r code) {n : Nat} {i : SymbolicInstr} {rest : List Line}
    (he : Embeds code n (.instr i :: rest)) :
    ∃ j, r.code[n]? = some j ∧ (Link.contextOf table r.name code).uncounted i = .ok j ∧
      LinkedInstr.slotBound j ≤ r.slots ∧ LinkedInstr.registerBound j ≤ r.registers := by
  obtain ⟨before, after, rfl, hn⟩ := he
  have hi : (instructions (before ++ .instr i :: rest ++ after))[n]? = some i := by
    rw [← hn, codeSize]
    simp
  have hlt : n < r.code.size := by
    rw [h.code_size]
    exact (List.getElem?_eq_some_iff.mp hi).1
  obtain ⟨⟨i', hi', hj⟩, hs, hr⟩ := h.get (Array.getElem?_eq_getElem hlt)
  rw [hi] at hi'
  cases hi'
  exact ⟨_, Array.getElem?_eq_getElem hlt, (Link.instr_eq_ok_iff.mp hj).2, hs, hr⟩

/-- The position of a label in an embedded block. -/
lemma target (h : Linked x table ref r code) {n : Nat} {l : String} {rest : List Line}
    (he : Embeds code n (.label l :: rest)) :
    (Link.contextOf table r.name code).target l = .ok n :=
  Link.target_of_embeds (Link.routine_eq_ok h.link).1 he

end Linked

lemma Assembly.link_eq (a : Assembly) :
    a.link =
      match firstRepeat? (a.procedures.map (·.name.text)) with
      | some n => .error (.duplicateRoutine n)
      | none =>
        a.procedures.mapM (Link.routine a.table) >>= fun rs =>
          Link.routine a.table a.main >>= fun main => .ok ⟨rs.toArray, main⟩ :=
  rfl

/-- What the executable of some labelled code consists of. -/
lemma link_eq_ok {a : Assembly} {x : Executable} (h : a.link = .ok x) :
    (a.procedures.map (·.name.text)).Nodup ∧
      List.Forall₂ (fun p r => Link.routine a.table p = .ok r) a.procedures
        x.procedures.toList ∧
      Link.routine a.table a.main = .ok x.main := by
  unfold Assembly.link at h
  cases hn : firstRepeat? (a.procedures.map (·.name.text)) with
  | some n => simp [hn] at h
  | none =>
    simp only [hn, bind_eq_ok_iff, mapM_eq_ok_iff] at h
    obtain ⟨rs, hrs, main, hmain, hx⟩ := h
    cases hx
    exact ⟨(firstRepeat?_eq_none_iff _).mp hn, hrs, hmain⟩

/-- Labelled code can be linked when its procedures have different names and each routine can. -/
lemma exists_link_eq_ok_iff {a : Assembly} :
    (∃ x, a.link = .ok x) ↔
      (a.procedures.map (·.name.text)).Nodup ∧
        (∀ p ∈ a.procedures, ∃ r, Link.routine a.table p = .ok r) ∧
          ∃ r, Link.routine a.table a.main = .ok r := by
  rw [← exists_mapM_eq_ok_iff]
  constructor
  · rintro ⟨x, hx⟩
    obtain ⟨hnd, hall, hmain⟩ := link_eq_ok hx
    exact ⟨hnd, ⟨_, mapM_eq_ok_iff.mpr hall⟩, _, hmain⟩
  · rintro ⟨hnd, ⟨rs, hrs⟩, main, hmain⟩
    rw [Assembly.link_eq, (firstRepeat?_eq_none_iff _).mpr hnd]
    exact ⟨_, bind_eq_ok_iff.mpr ⟨rs, hrs, bind_eq_ok_iff.mpr ⟨main, hmain, rfl⟩⟩⟩

/-- A linked routine keeps its name and its arity. -/
lemma Link.routine_named {table : List (String × Nat × Nat)} {p : Assembly.Routine}
    {r : Executable.Routine} (h : routine table p = .ok r) :
    r.name = p.name ∧ r.arity = p.arity := by
  obtain ⟨-, linked, -, rfl⟩ := routine_eq_ok h
  exact ⟨rfl, rfl⟩

lemma Linked.of_routine {x : Executable} {table : List (String × Nat × Nat)} {ref : RoutineRef}
    {r : Executable.Routine} {p : Assembly.Routine} (hr : x.routine? ref = some r)
    (h : Link.routine table p = .ok r) : Linked x table ref r p.code := by
  obtain ⟨hname, harity⟩ := Link.routine_named h
  exact ⟨hr, by rw [hname, harity]; exact h⟩

lemma link_main_name {a : Assembly} {x : Executable} (h : a.link = .ok x) :
    x.main.name = a.main.name :=
  (Link.routine_named (link_eq_ok h).2.2).1

lemma link_main {a : Assembly} {x : Executable} (h : a.link = .ok x) :
    Linked x a.table .main x.main a.main.code :=
  .of_routine rfl (link_eq_ok h).2.2

/-- Every routine of labelled code is linked to the same routine of the executable. -/
lemma exists_linked_routine {a : Assembly} {x : Executable} (h : a.link = .ok x)
    {ref : RoutineRef} {p : Assembly.Routine} (hp : a.routine? ref = some p) :
    ∃ r, x.routine? ref = some r ∧ Link.routine a.table p = .ok r := by
  obtain ⟨-, hall, hmain⟩ := link_eq_ok h
  cases ref with
  | main =>
    cases hp
    exact ⟨x.main, rfl, hmain⟩
  | procedure i =>
    obtain ⟨hlt, rfl⟩ := List.getElem?_eq_some_iff.mp hp
    have hlt' : i < x.procedures.toList.length := hall.length_eq ▸ hlt
    refine ⟨x.procedures.toList.get ⟨i, hlt'⟩, ?_, hall.get hlt hlt'⟩
    rw [Executable.routine?, ← Array.getElem?_toList]
    exact List.getElem?_eq_getElem hlt'

lemma link_procedure {a : Assembly} {x : Executable} (h : a.link = .ok x) {i : Nat}
    {p : Assembly.Routine} (hp : a.procedures[i]? = some p) :
    ∃ r, x.procedures[i]? = some r ∧ r.name = p.name ∧ r.arity = p.arity ∧
      Linked x a.table (.procedure i) r p.code := by
  have hp : a.routine? (.procedure i) = some p := hp
  obtain ⟨r, hr, hlink⟩ := exists_linked_routine h hp
  obtain ⟨hname, harity⟩ := Link.routine_named hlink
  exact ⟨r, hr, hname, harity, .of_routine hr hlink⟩

/-- Every routine of an executable was linked from the same routine of labelled code. -/
lemma link_routine {a : Assembly} {x : Executable} (h : a.link = .ok x) {ref : RoutineRef}
    {r : Executable.Routine} (hr : x.routine? ref = some r) :
    ∃ p, a.routine? ref = some p ∧ Link.routine a.table p = .ok r := by
  obtain ⟨-, hall, hmain⟩ := link_eq_ok h
  cases ref with
  | main =>
    cases hr
    exact ⟨a.main, rfl, hmain⟩
  | procedure i =>
    have hr : x.procedures.toList[i]? = some r := by
      rw [Array.getElem?_toList]
      exact hr
    obtain ⟨hlt, rfl⟩ := List.getElem?_eq_some_iff.mp hr
    have hlt' : i < a.procedures.length := hall.length_eq ▸ hlt
    exact ⟨_, List.getElem?_eq_getElem hlt', hall.get hlt' hlt⟩

/-- A name that no procedure has does not stand in their table. -/
lemma lookup_zipIdx_eq_none_iff {α : Type} {name : α → String} {arity : α → Nat} {as : List α}
    {f : String} :
    (as.zipIdx.map fun (a, i) => (name a, i, arity a)).lookup f = none ↔ ∀ a ∈ as, name a ≠ f := by
  have hkeys : (as.zipIdx.map fun (a, i) => (name a, i, arity a)).map Prod.fst = as.map name := by
    conv_rhs => rw [← List.zipIdx_map_fst 0 as]
    rw [List.map_map, List.map_map]
    rfl
  rw [lookup_eq_none_iff_keys, hkeys]
  simp

/-- A name stands in the table for the first procedure that has it. -/
lemma lookup_table {a : Assembly} {f : String} {i n : Nat} (h : a.table.lookup f = some (i, n)) :
    ∃ p, a.procedures[i]? = some p ∧ a.procedures.find? (·.name.text == f) = some p ∧
      p.arity = n := by
  have hgen : ∀ (ps : List Assembly.Routine) (k : Nat),
      ((ps.zipIdx k).map fun (p, i) => (p.name.text, i, p.arity)).lookup f = some (i, n) →
      ∃ p, k ≤ i ∧ ps[i - k]? = some p ∧ ps.find? (·.name.text == f) = some p ∧
        p.arity = n := by
    intro ps
    induction ps with
    | nil => intro k hk; simp at hk
    | cons p ps ih =>
      intro k hk
      simp only [List.zipIdx_cons, List.map_cons, List.lookup_cons] at hk
      by_cases hf : f = p.name.text
      · simp only [hf, beq_self_eq_true, Option.some.injEq, Prod.mk.injEq] at hk
        obtain ⟨rfl, rfl⟩ := hk
        exact ⟨p, le_rfl, by simp, by simp [hf], rfl⟩
      · have hpf : (p.name.text == f) = false := by simpa using fun he => hf he.symm
        simp only [beq_eq_false_iff_ne.mpr hf] at hk
        obtain ⟨q, hki, hq, hfind, harity⟩ := ih (k + 1) hk
        refine ⟨q, by omega, ?_, ?_, harity⟩
        · rw [show i - k = (i - (k + 1)) + 1 by omega, List.getElem?_cons_succ]
          exact hq
        · rw [List.find?_cons, hpf]
          exact hfind
  obtain ⟨p, -, hp, hfind, harity⟩ := hgen a.procedures 0 h
  exact ⟨p, hp, hfind, harity⟩

end Izmir
