import Izmir.Proofs.Backends
import Izmir.Proofs.Binders
import Izmir.Proofs.CompiledListings
import Izmir.Proofs.Registers

/-!
# Frames of compiled routines

The sizes of a frame are found twice: the compiler hands out slots and registers while it walks
through a routine, and linking takes the largest that the instructions name. The two agree, since
nothing is handed out that no instruction names. A routine has one slot for each formal, one for
each block and one for each name that nothing declares, and its code names every register below
the number of its registers.
-/

namespace Izmir

/-! ### Slots -/

/-- All slots that one scope has more than another are among some numbers. -/
def Scope.TakesAmong (s : Scope) (ns : List Nat) (t : Scope) : Prop :=
  ∀ n, s.size ≤ n → n < t.size → n ∈ ns

namespace Scope.TakesAmong

variable {s t u : Scope} {ns ms : List Nat}

lemma refl (s : Scope) : s.TakesAmong ns s :=
  fun _ hle hlt => absurd hlt (Nat.not_lt.mpr hle)

lemma trans (hst : s.TakesAmong ns t) (htu : t.TakesAmong ms u) : s.TakesAmong (ns ++ ms) u := by
  intro n hle hlt
  rw [List.mem_append]
  rcases Nat.lt_or_ge n t.size with h | h
  · exact .inl (hst n hle h)
  · exact .inr (htu n h hlt)

lemma slot (s : Scope) (x : String) : s.TakesAmong [(s.slot x).1] (s.slot x).2 := by
  unfold Scope.slot
  cases s.find? x with
  | some n => exact .refl s
  | none =>
    intro n hle hlt
    exact List.mem_singleton.mpr (Nat.le_antisymm (Nat.le_of_lt_succ hlt) hle)

lemma block {x : String} (h : (s.enter x).TakesAmong ns t) :
    s.TakesAmong (s.size :: ns) t.leave := by
  intro n hle hlt
  rcases Nat.eq_or_lt_of_le hle with rfl | hle
  · exact List.mem_cons_self
  · exact List.mem_cons_of_mem _ (h n hle hlt)

end Scope.TakesAmong

lemma Expr.takesAmong_listWithSlots {es : List (Expr String)}
    (h : ∀ e ∈ es, ∀ s : Scope, s.TakesAmong (e.withSlots s).1.vars (e.withSlots s).2)
    (s : Scope) : s.TakesAmong (varsAll (listWithSlots es s).1) (listWithSlots es s).2 := by
  induction es generalizing s with
  | nil => exact .refl s
  | cons e es ih =>
    obtain ⟨he, hes⟩ := List.forall_mem_cons.mp h
    exact (he s).trans (ih hes _)

/-- Every slot that an expression takes is that of a variable that it reads. -/
lemma Expr.takesAmong_withSlots (e : Expr String) (s : Scope) :
    s.TakesAmong (e.withSlots s).1.vars (e.withSlots s).2 := by
  induction e generalizing s with
  | literal v => exact .refl s
  | var x => exact .slot s x
  | ifElse c a b hc ha hb => exact ((hc s).trans (ha _)).trans (hb _)
  | apply _ es hes | call _ es hes => exact takesAmong_listWithSlots hes s

/-- Every slot that a statement takes is that of a variable in it. -/
lemma Stmt.takesAmong_withSlots (st : Stmt String) (s : Scope) :
    s.TakesAmong (st.withSlots s).1.vars (st.withSlots s).2 := by
  induction st generalizing s with
  | skip => exact .refl s
  | block x a ha => exact (ha (s.enter x)).block
  | assign x e => exact (e.takesAmong_withSlots s).trans (.slot _ x)
  | print e | ret e => exact e.takesAmong_withSlots s
  | seq a b ha hb => exact (ha s).trans (hb _)
  | ifElse c a b ha hb => exact ((c.takesAmong_withSlots s).trans (ha _)).trans (hb _)
  | ifThen c a ha | whileDo c a ha => exact (c.takesAmong_withSlots s).trans (ha _)
  | repeatUntil a c ha => exact (ha s).trans (c.takesAmong_withSlots _)
  | call f es => exact Expr.takesAmong_listWithSlots (fun e _ => e.takesAmong_withSlots) s

lemma Expr.map_name_reads {ν : Type} (e : Expr ν) : e.reads.map Access.name = e.vars := by
  rw [reads, List.map_map]
  exact List.map_id _

lemma Stmt.map_name_accesses {ν : Type} (st : Stmt ν) :
    st.accesses.map Access.name = st.vars := by
  induction st with
  | skip => rfl
  | block x a ha => rw [accesses, vars, List.map_cons, ha]; rfl
  | assign x e => rw [accesses, vars, List.map_append, e.map_name_reads]; rfl
  | print e | ret e => exact e.map_name_reads
  | seq a b ha hb => rw [accesses, vars, List.map_append, ha, hb]
  | ifElse c a b ha hb =>
    rw [accesses, vars, List.map_append, List.map_append, c.map_name_reads, ha, hb]
  | ifThen c a ha | whileDo c a ha => rw [accesses, vars, List.map_append, c.map_name_reads, ha]
  | repeatUntil a c ha => rw [accesses, vars, List.map_append, c.map_name_reads, ha]
  | call f es =>
    rw [accesses, vars, List.map_map]
    exact List.map_id _

/-! ### Names that nothing declares -/

def Binder.undeclared? : Binder → Option String
  | .undeclared x => some x
  | _ => none

/-- The names in a routine that refer to a variable that nothing declares. -/
def Stmt.undeclared (formals : List String) (body : Stmt String) : Finset String :=
  ((body.resolved formals).accesses.filterMap fun m => m.name.undeclared?).toFinset

lemma Stmt.mem_undeclared {formals : List String} {body : Stmt String} {x : String} :
    x ∈ body.undeclared formals ↔
      ∃ m ∈ (body.resolved formals).accesses, m.name = .undeclared x := by
  simp only [undeclared, List.mem_toFinset, List.mem_filterMap]
  refine exists_congr fun m => and_congr_right fun _ => ?_
  cases m.name <;> simp [Binder.undeclared?]

namespace Stmt.SlotsTaken

variable {formals : List String} {body : Stmt String} {names : List (String × Nat)}

lemma size_eq (h : body.SlotsTaken formals names) :
    (body.withSlots (.ofFormals formals)).2.size =
      formals.length + body.blocks.length + names.length := by
  have hlength := h.slots.length_eq
  simp only [List.length_append, List.length_range, List.length_map,
    length_blocks_withSlots] at hlength
  exact hlength.symm

/-- A slot that was taken for a name is that of some variable that is mentioned. -/
lemma exists_access (h : body.SlotsTaken formals names) {x : String} {n : Nat}
    (hmem : (x, n) ∈ names) : ∃ m ∈ (body.resolved formals).accesses,
      m.name.slotIn (body.withSlots (.ofFormals formals)).1.blocks names = n := by
  have hn : n ∈ names.map Prod.snd := List.mem_map_of_mem (f := Prod.snd) hmem
  have hlt : n < (body.withSlots (.ofFormals formals)).2.size :=
    List.mem_range.mp (h.slots.mem_iff.mp (List.mem_append_right _ hn))
  have hle : (Scope.ofFormals formals).size ≤ n := by
    rw [Scope.ofFormals_eq]
    by_contra hformal
    have hnodup := h.slots.nodup_iff.mpr List.nodup_range
    rw [List.append_assoc] at hnodup
    exact List.disjoint_of_nodup_append hnodup (List.mem_range.mpr (Nat.not_le.mp hformal))
      (List.mem_append_right _ hn)
  have hvar := body.takesAmong_withSlots (.ofFormals formals) n hle hlt
  rw [h.tree, ← Stmt.map_name_accesses, Stmt.accesses_rename, List.map_map, List.mem_map] at hvar
  obtain ⟨m, hm, hslot⟩ := hvar
  rw [Function.comp_apply, Access.name_map] at hslot
  exact ⟨m, hm, hslot⟩

/-- The variable in that slot can only be the one of the name, since no slot is taken twice. -/
lemma lookup_of_mem (h : body.SlotsTaken formals names) {x : String} {n : Nat}
    (hmem : (x, n) ∈ names) : x ∈ body.undeclared formals ∧ names.lookup x = some n := by
  obtain ⟨m, hm, hslot⟩ := h.exists_access hmem
  have hentry : (Binder.undeclared x, n) ∈ Binder.slotTable formals
      (body.withSlots (.ofFormals formals)).1.blocks names :=
    List.mem_append_right _ (List.mem_map.mpr ⟨(x, n), hmem, rfl⟩)
  have hbinder : m.name = .undeclared x := by
    have hnodup := h.slots.nodup_iff.mpr List.nodup_range
    rw [← Binder.map_snd_slotTable] at hnodup
    have hpair := List.inj_on_of_nodup_map hnodup (Binder.mem_slotTable (h.bound m hm)) hentry
      hslot
    exact (Prod.mk.inj hpair).1
  obtain ⟨k, hk⟩ := hbinder ▸ h.bound m hm
  have hkn : k = n := by simpa [hbinder, Binder.slotIn, hk] using hslot
  exact ⟨mem_undeclared.mpr ⟨m, hm, hbinder⟩, hkn ▸ hk⟩

lemma map_fst_toFinset (h : body.SlotsTaken formals names) :
    (names.map Prod.fst).toFinset = body.undeclared formals := by
  ext x
  rw [List.mem_toFinset, List.mem_map]
  constructor
  · rintro ⟨⟨y, n⟩, hmem, rfl⟩
    exact (h.lookup_of_mem hmem).1
  · intro hx
    obtain ⟨m, hm, hname⟩ := mem_undeclared.mp hx
    obtain ⟨n, hn⟩ := hname ▸ h.bound m hm
    exact ⟨(x, n), Bindings.Agrees.mem_of_lookup hn, rfl⟩

lemma nodup_map_fst (h : body.SlotsTaken formals names) : (names.map Prod.fst).Nodup := by
  have hslots : (names.map Prod.snd).Nodup :=
    (h.slots.nodup_iff.mpr List.nodup_range).of_append_right
  refine (List.Nodup.of_map _ hslots).map_on ?_
  rintro ⟨x, n⟩ hn ⟨y, m⟩ hm rfl
  have hlookup := (h.lookup_of_mem hn).2.symm.trans (h.lookup_of_mem hm).2
  rw [Option.some.inj hlookup]

end Stmt.SlotsTaken

/-- A routine has a slot for each formal, each block and each name that nothing declares. -/
lemma Stmt.scope_size (formals : List String) (body : Stmt String) :
    (body.withSlots (.ofFormals formals)).2.size =
      formals.length + body.blocks.length + (body.undeclared formals).card := by
  obtain ⟨names, h⟩ := body.exists_slotsTaken formals
  rw [h.size_eq, ← h.map_fst_toFinset, List.toFinset_card_of_nodup h.nodup_map_fst,
    List.length_map]

/-- The names that nothing declares are those that the routine binds besides its formals. -/
lemma Stmt.mem_undeclared_iff_bound {formals : List String} {body : Stmt String} {x : String} :
    x ∈ body.undeclared formals ↔
      x ∉ formals ∧ x ∈ (body.withSlots (.ofFormals formals)).2.routine.map Prod.fst := by
  obtain ⟨names, h⟩ := body.exists_slotsTaken formals
  have hformals : (formals.zipIdx.reverse.map Prod.fst) = formals.reverse := by simp
  rw [← h.map_fst_toFinset, h.routine, List.map_append, hformals, List.mem_toFinset,
    List.mem_append, List.mem_reverse]
  constructor
  · intro hx
    refine ⟨fun hformal => ?_, .inl hx⟩
    obtain ⟨p, hp, rfl⟩ := List.mem_map.mp hx
    have hmem : p.1 ∈ formals.zipIdx.reverse.map Prod.fst := by
      rwa [hformals, List.mem_reverse]
    obtain ⟨q, hq, hqp⟩ := List.mem_map.mp hmem
    have hnone := List.lookup_eq_none_iff.mp (h.undeclared p hp) q hq
    simp [hqp] at hnone
  · rintro ⟨hformal, hx | hx⟩
    · exact hx
    · exact absurd hx hformal

/-! ### Registers -/

/-- The registers that an instruction reads or writes. -/
def Instr.named {τ κ : Type} (i : Instr τ κ Operand) : Set Nat :=
  {r | r ∈ i.reads ∨ i.writes? = some (.register r)}

lemma Instr.mem_named {τ κ : Type} {i : Instr τ κ Operand} {r : Nat} :
    r ∈ i.named ↔ r ∈ i.reads ∨ i.writes? = some (.register r) :=
  Iff.rfl

/-- Some code names the registers of a set and no others. A call without arguments has the first
register of its arguments where it wants its result. -/
structure Fills (code : List Line) (R : Set Nat) : Prop where
  named : ∀ r, (∃ i, Line.instr i ∈ code ∧ r ∈ i.named) ↔ r ∈ R
  windows : ∀ f first r, Line.instr (.callRegisters f first 0 r) ∈ code → first = r

namespace Fills

variable {a b code : List Line} {R S : Set Nat}

lemma congr (h : Fills code R) (hRS : R = S) : Fills code S :=
  hRS ▸ h

lemma nil : Fills [] ∅ :=
  ⟨by simp, by simp⟩

lemma append (ha : Fills a R) (hb : Fills b S) : Fills (a ++ b) (R ∪ S) where
  named r := by
    rw [Set.mem_union, ← ha.named, ← hb.named, ← exists_or]
    refine exists_congr fun i => ?_
    rw [List.mem_append, or_and_right]
  windows f first r h := (List.mem_append.mp h).elim (ha.windows f first r) (hb.windows f first r)

lemma label (l : String) : Fills [Line.label l] ∅ :=
  ⟨by simp, by simp⟩

lemma of_writes {i : SymbolicInstr} {l : Nat} (hwrites : i.writes? = some (.register l))
    (hi : ∀ f first r, i = .callRegisters f first 0 r → first = r) :
    Fills [Line.instr i] ({r | r ∈ i.reads} ∪ {l}) where
  named r := by simp [Instr.mem_named, hwrites, or_comm, eq_comm]
  windows f first r h := hi f first r (Line.instr.inj (List.mem_singleton.mp h)).symm

lemma of_not_writes {i : SymbolicInstr} (hwrites : ∀ r, i.writes? ≠ some (.register r)) :
    Fills [Line.instr i] {r | r ∈ i.reads} where
  named r := by simp [Instr.mem_named, hwrites]
  windows f first r h := by
    obtain rfl := Line.instr.inj (List.mem_singleton.mp h)
    exact absurd rfl (hwrites r)

end Fills

/-- A call names the registers of its arguments and of its result. -/
lemma Backend.fills_call {f : String} {first n l : Nat} :
    Fills [Line.instr (register.call f first n l)] (Set.Ico first (first + n) ∪ {l}) := by
  refine (Fills.of_writes rfl ?_).congr ?_
  · rintro g m r ⟨⟩
    rfl
  · ext r
    simp [reads_register_call]

section

variable {folding : Bool}

lemma Purpose.fills_deliver {purpose : Purpose} {next : Nat} {value : Nat → Nat → List Line}
    (h : ∀ l next, ∃ top, next ≤ top ∧ Fills (value l next) ({l} ∪ Set.Ico next top)) :
    ∃ top, next ≤ top ∧ Fills (purpose.deliver ⟨.register, folding⟩ next value)
      (purpose.targets ∪ Set.Ico next top) := by
  cases purpose with
  | value l => exact h l next
  | branchUnless label =>
    obtain ⟨top, hle, hvalue⟩ := h next (next + 1)
    refine ⟨top, by omega, (hvalue.append (.of_not_writes (by rintro r ⟨⟩))).congr ?_⟩
    ext r
    simp only [targets, Backend.branchIf, Instr.reads, Set.mem_union, Set.mem_singleton_iff,
      Set.mem_Ico, Set.mem_ofPred_eq, List.mem_singleton, Set.mem_empty_iff_false, false_or]
    omega

lemma Expr.fills_emitAll {es : List (Expr Nat)} (next label : Nat)
    (h : ∀ e ∈ es, ∀ purpose next label, ∃ top, next ≤ top ∧
      Fills (e.emit ⟨.register, folding⟩ purpose next label)
        (purpose.targets ∪ Set.Ico next top)) :
    ∃ top, next + es.length ≤ top ∧
      Fills (Expr.emitAll ⟨.register, folding⟩ es next label) (Set.Ico next top) := by
  induction es generalizing next label with
  | nil => exact ⟨next, le_rfl, Fills.nil.congr (Set.Ico_self next).symm⟩
  | cons e es ih =>
    obtain ⟨he, hes⟩ := List.forall_mem_cons.mp h
    obtain ⟨top, hle, hfirst⟩ := he (.value next) (next + 1) label
    obtain ⟨top', hle', hrest⟩ := ih (next + 1) (label + e.labelCount) hes
    refine ⟨max top top', by rw [List.length_cons]; omega, (hfirst.append hrest).congr ?_⟩
    ext r
    simp only [Purpose.targets, Set.mem_union, Set.mem_singleton_iff, Set.mem_Ico]
    omega

/-- The code of an expression names its target and, without a gap, the registers from the first
free one up to some register. -/
lemma Expr.fills_emit (e : Expr Nat) (purpose : Purpose) (next label : Nat) :
    ∃ top, next ≤ top ∧ Fills (e.emit ⟨.register, folding⟩ purpose next label)
      (purpose.targets ∪ Set.Ico next top) := by
  induction e generalizing purpose next label with
  | literal v | var n =>
    rw [Expr.emit]
    refine Purpose.fills_deliver fun l next => ⟨next, le_rfl, ?_⟩
    refine (Fills.of_writes rfl (by rintro _ _ _ ⟨⟩)).congr ?_
    simp [Backend.loadConstant, Backend.loadVariable, Instr.reads]
  | ifElse c a b hc ha hb =>
    rw [Expr.emit]
    refine Purpose.fills_deliver fun l next => ?_
    obtain ⟨topc, hlec, hc⟩ := hc (.branchUnless (numberedLabel "else" label)) next (label + 2)
    obtain ⟨topa, hlea, ha⟩ := ha (.value l) next (label + 2 + c.labelCount)
    obtain ⟨topb, hleb, hb⟩ := hb (.value l) next (label + 2 + c.labelCount + a.labelCount)
    have hjump : Fills [Line.instr (.branch (numberedLabel "end" (label + 1)))] ∅ :=
      (Fills.of_not_writes (by rintro r ⟨⟩)).congr (by simp [Instr.reads])
    refine ⟨max (max topc topa) topb, by omega, ?_⟩
    refine Fills.congr
      ((((hc.append ha).append (hjump.append (.label _))).append hb).append (.label _)) ?_
    ext r
    simp only [Purpose.targets, Set.mem_union, Set.mem_singleton_iff, Set.mem_Ico,
      Set.mem_empty_iff_false, false_or, or_false]
    omega
  | apply p es hes =>
    rw [Expr.emit]
    cases hfold : purpose.folded? ⟨.register, folding⟩ p with
    | none =>
      refine Purpose.fills_deliver fun l next => ?_
      obtain ⟨top, hle, hall⟩ := Expr.fills_emitAll next label hes
      refine ⟨top, by omega, ?_⟩
      refine Backend.register_apply_cases
        (P := fun i => Fills (emitAll ⟨.register, folding⟩ es next label ++ [.instr i]) _)
        (fun o => ?_) ?_
      · refine (hall.append (.of_writes rfl (by rintro _ _ _ ⟨⟩))).congr ?_
        ext r
        simp only [Instr.reads, Set.mem_union, Set.mem_singleton_iff, Set.mem_Ico,
          Set.mem_ofPred_eq, List.mem_range'_1]
        omega
      · refine (hall.append (.of_writes rfl (by rintro _ _ _ ⟨⟩))).congr ?_
        simp [Instr.reads, Set.union_comm]
    | some folded =>
      obtain ⟨rfl, -⟩ := Purpose.folded?_eq_some hfold
      obtain ⟨top, hle, hall⟩ := Expr.fills_emitAll next label hes
      refine ⟨top, by omega, (hall.append (.of_not_writes (by rintro r ⟨⟩))).congr ?_⟩
      ext r
      simp only [Purpose.targets, Instr.reads, Set.mem_union, Set.mem_Ico, Set.mem_ofPred_eq,
        List.mem_range'_1, Set.mem_empty_iff_false, Backend.branchIf, false_or]
      omega
  | call f es hes =>
    rw [Expr.emit]
    refine Purpose.fills_deliver fun l next => ?_
    obtain ⟨top, hle, hall⟩ := Expr.fills_emitAll next label hes
    refine ⟨top, by omega, (hall.append Backend.fills_call).congr ?_⟩
    ext r
    simp only [Set.mem_union, Set.mem_singleton_iff, Set.mem_Ico]
    omega

end

/-- Some code names all registers below some register, and no others. -/
def Gapless (code : List Line) : Prop :=
  ∃ top, Fills code (Set.Iio top)

namespace Gapless

variable {a b : List Line}

lemma append (ha : Gapless a) (hb : Gapless b) : Gapless (a ++ b) := by
  obtain ⟨top, ha⟩ := ha
  obtain ⟨top', hb⟩ := hb
  refine ⟨max top top', (ha.append hb).congr ?_⟩
  ext r
  simp only [Set.mem_union, Set.mem_Iio, lt_max_iff]

lemma of_empty (h : Fills a ∅) : Gapless a :=
  ⟨0, h.congr (by ext r; simp)⟩

lemma of_zero (h : Fills a {0}) : Gapless a :=
  ⟨1, h.congr (by ext r; simp)⟩

end Gapless

section

variable {folding : Bool}

lemma Expr.gapless_emit_value (e : Expr Nat) (label : Nat) :
    Gapless (e.emit ⟨.register, folding⟩ (.value 0) 1 label) := by
  obtain ⟨top, hle, h⟩ := e.fills_emit (.value 0) 1 label
  refine ⟨top, h.congr ?_⟩
  ext r
  simp only [Purpose.targets, Set.mem_union, Set.mem_singleton_iff, Set.mem_Ico, Set.mem_Iio]
  omega

lemma Expr.gapless_emit_branchUnless (e : Expr Nat) (target : String) (label : Nat) :
    Gapless (e.emit ⟨.register, folding⟩ (.branchUnless target) 0 label) := by
  obtain ⟨top, -, h⟩ := e.fills_emit (.branchUnless target) 0 label
  refine ⟨top, h.congr ?_⟩
  ext r
  simp [Purpose.targets]

lemma gapless_loadConstant : Gapless [.instr (Backend.register.loadConstant 0 0)] :=
  .of_zero ((Fills.of_writes rfl (by rintro _ _ _ ⟨⟩)).congr
    (by simp [Backend.loadConstant, Instr.reads]))

lemma gapless_reads_zero {i : SymbolicInstr} (hwrites : ∀ r, i.writes? ≠ some (.register r))
    (hreads : i.reads = [0]) : Gapless [.instr i] :=
  .of_zero ((Fills.of_not_writes hwrites).congr (by ext r; simp [hreads]))

lemma gapless_branch (target : String) : Gapless [.instr (.branch target)] :=
  .of_empty ((Fills.of_not_writes (by rintro r ⟨⟩)).congr (by simp [Instr.reads]))

/-- The code of a statement names registers from the first one on without a gap. -/
lemma Stmt.gapless_emit (st : Stmt Nat) (label : Nat) :
    Gapless (st.emit ⟨.register, folding⟩ label) := by
  have hlabel (l : String) : Gapless [.label l] := .of_empty (.label l)
  induction st generalizing label with
  | skip => exact .of_empty .nil
  | block n a ha =>
    exact (gapless_loadConstant.append (gapless_reads_zero (by rintro r ⟨⟩) rfl)).append (ha _)
  | assign n e | print e | ret e =>
    exact (e.gapless_emit_value _).append (gapless_reads_zero (by rintro r ⟨⟩) rfl)
  | seq a b ha hb => exact (ha _).append (hb _)
  | ifElse c a b ha hb =>
    exact ((((c.gapless_emit_branchUnless _ _).append (ha _)).append
      ((gapless_branch _).append (hlabel _))).append (hb _)).append (hlabel _)
  | ifThen c a ha =>
    exact ((c.gapless_emit_branchUnless _ _).append (ha _)).append (hlabel _)
  | whileDo c a ha =>
    exact (((hlabel _).append (c.gapless_emit_branchUnless _ _)).append (ha _)).append
      ((gapless_branch _).append (hlabel _))
  | repeatUntil a c ha =>
    exact ((hlabel _).append (ha _)).append (c.gapless_emit_branchUnless _ _)
  | call f es =>
    obtain ⟨top, hle, hall⟩ := Expr.fills_emitAll 1 label fun e _ => e.fills_emit
    refine ⟨top, ((hall.append Backend.fills_call).append .nil).congr ?_⟩
    ext r
    simp only [Set.mem_union, Set.mem_singleton_iff, Set.mem_Ico, Set.mem_Iio,
      Set.mem_empty_iff_false, or_false]
    omega

lemma gapless_withReturn {code : List Line} (h : Gapless code) :
    Gapless (withReturn ⟨.register, folding⟩ code) := by
  unfold withReturn
  split
  · exact h
  · exact h.append (gapless_loadConstant.append (gapless_reads_zero (by rintro r ⟨⟩) rfl))

end

/-! ### Frames of linked routines -/

lemma exists_mem_iff_of_forall₂ {α β : Type} {R : α → β → Prop} {P : α → Prop} {Q : β → Prop}
    {as : List α} {bs : List β} (h : List.Forall₂ R as bs) (hPQ : ∀ a b, R a b → (P a ↔ Q b)) :
    (∃ a ∈ as, P a) ↔ ∃ b ∈ bs, Q b := by
  induction h with
  | nil => simp
  | cons hab _ ih => simp only [List.exists_mem_cons_iff, hPQ _ _ hab, ih]

lemma mem_slotAccesses {code : List Line} {n : Nat} :
    n ∈ (slotAccesses code).map Access.name ↔
      ∃ i ∈ Assembly.instructions code, n ∈ i.accesses.map Access.name := by
  induction code with
  | nil => simp
  | cons line code ih =>
    cases line with
    | label l => exact ih
    | instr i =>
      rw [slotAccesses_instr, List.map_append, List.mem_append, ih,
        Assembly.instructions_instr, List.exists_mem_cons_iff]

namespace LinkedInstr

lemma slotBound_le {i : LinkedInstr} {n : Nat} (h : ∀ k ∈ slots i, k < n) : slotBound i ≤ n := by
  cases i with
  | move a b =>
    cases a <;> cases b <;> simp_all [slots, slotBound]
  | pushVariable k | popVariable k => exact h k (List.mem_singleton_self k)
  | _ => exact Nat.zero_le n

lemma registerBound_le {i : LinkedInstr} {n : Nat} (h : ∀ k ∈ registers i, k < n)
    (hwindow : ∀ first m, window? i = some (first, m) → first + m ≤ n) : registerBound i ≤ n := by
  cases i with
  | move a b =>
    cases a <;> cases b <;> simp_all [registers, registerBound]
  | operateRegisters o rs r =>
    obtain ⟨hrs, hr⟩ := List.forall_mem_append.mp h
    exact Nat.max_le.mpr ⟨above_le hrs, hr r (List.mem_singleton_self r)⟩
  | branchIfRegisters c rs t => exact above_le h
  | callRegisters f first m r =>
    exact Nat.max_le.mpr ⟨hwindow first m rfl, h r (by simp [registers])⟩
  | inputRegister r | printRegister r | retRegister r =>
    exact h r (List.mem_singleton_self r)
  | _ => exact Nat.zero_le n

end LinkedInstr

namespace Link

/-- A linked instruction names the slots and the registers that it had been given. -/
structure SameNames (i : SymbolicInstr) (j : LinkedInstr) : Prop where
  slots : LinkedInstr.slots j = i.accesses.map Access.name
  registers : ∀ r, r ∈ LinkedInstr.registers j ↔ r ∈ i.named
  window : ∀ first n, LinkedInstr.window? j = some (first, n) ↔
    ∃ f r, i = .callRegisters f first n r

lemma sameNames_instr {c : Context} {i : SymbolicInstr} {j : LinkedInstr}
    (h : c.instr i = .ok j) : SameNames i j := by
  rw [instr_eq_ok_iff] at h
  obtain ⟨-, h⟩ := h
  cases i with
  | move a b =>
    cases a <;> cases b <;> cases h
    all_goals refine ⟨rfl, fun r => ?_, by simp [LinkedInstr.window?]⟩
    all_goals simp [LinkedInstr.registers, Instr.mem_named, Instr.reads, Instr.writes?,
      eq_comm]
  | operateRegisters o rs r =>
    simp only [Context.uncounted] at h
    split at h <;> cases h
    refine ⟨rfl, fun r => ?_, by simp [LinkedInstr.window?]⟩
    simp [LinkedInstr.registers, Instr.mem_named, Instr.reads, Instr.writes?, eq_comm]
  | branch l | branchIf k l | call f n =>
    simp only [Context.uncounted, bind_eq_ok_iff] at h
    obtain ⟨u, -, hj⟩ := h
    cases hj
    refine ⟨rfl, fun r => ?_, by simp [LinkedInstr.window?]⟩
    simp [LinkedInstr.registers, Instr.mem_named, Instr.reads, Instr.writes?]
  | branchIfRegisters k rs l =>
    simp only [Context.uncounted] at h
    split at h
    · rw [bind_eq_ok_iff] at h
      obtain ⟨u, -, hj⟩ := h
      cases hj
      refine ⟨rfl, fun r => ?_, by simp [LinkedInstr.window?]⟩
      simp [LinkedInstr.registers, Instr.mem_named, Instr.reads, Instr.writes?]
    · cases h
  | callRegisters f first n r =>
    simp only [Context.uncounted] at h
    split at h
    · rw [bind_eq_ok_iff] at h
      obtain ⟨u, -, hj⟩ := h
      cases hj
      refine ⟨rfl, fun r => ?_, by simp [LinkedInstr.window?]⟩
      simp [LinkedInstr.registers, Instr.mem_named, Instr.reads, Instr.writes?, eq_comm]
    · cases h
  | _ =>
    cases h
    refine ⟨rfl, fun r => ?_, by simp [LinkedInstr.window?]⟩
    simp [LinkedInstr.registers, Instr.mem_named, Instr.reads, Instr.writes?, eq_comm]

section

variable {table : List (String × Nat × Nat)} {p : Assembly.Routine} {r : Executable.Routine}

/-- The instructions of a linked routine name what the labelled ones do, one for one. -/
lemma sameNames_routine (h : routine table p = .ok r) :
    List.Forall₂ SameNames (Assembly.instructions p.code) r.code.toList ∧
      r = .ofCode p.name p.arity r.code.toList := by
  obtain ⟨-, linked, hlinked, rfl⟩ := routine_eq_ok h
  exact ⟨hlinked.imp fun i j hij => sameNames_instr hij, rfl⟩

/-- A frame has as many slots as are named, if they are named without a gap after the arguments. -/
lemma slots_eq (h : routine table p = .ok r) {n : Nat} (harity : p.arity ≤ n)
    (hlt : ∀ k ∈ (slotAccesses p.code).map Access.name, k < n)
    (hall : ∀ k, p.arity ≤ k → k < n → k ∈ (slotAccesses p.code).map Access.name) :
    r.slots = n := by
  obtain ⟨hnames, hr⟩ := sameNames_routine h
  have hslots :
      r.slots = r.code.toList.foldl (fun m i => max m (LinkedInstr.slotBound i)) p.arity := by
    rw [hr]
    rfl
  have hmem (k : Nat) : k ∈ (slotAccesses p.code).map Access.name ↔
      ∃ j ∈ r.code.toList, k ∈ LinkedInstr.slots j := by
    rw [mem_slotAccesses]
    exact exists_mem_iff_of_forall₂ hnames fun i j hij => by rw [hij.slots]
  obtain ⟨hle, hbound⟩ := le_foldl_max LinkedInstr.slotBound r.code.toList p.arity
  rw [← hslots] at hle hbound
  refine Nat.le_antisymm ?_ (Nat.le_of_not_lt fun hless => ?_)
  · rw [hslots]
    refine foldl_max_le harity fun j hj => LinkedInstr.slotBound_le fun k hk => ?_
    exact hlt k ((hmem k).mpr ⟨j, hj, hk⟩)
  · -- The first slot past the frame would be named, and the frame would reach past it.
    obtain ⟨j, hj, hk⟩ := (hmem r.slots).mp (hall r.slots hle hless)
    exact absurd ((LinkedInstr.lt_slotBound hk).trans_le (hbound j hj)) (lt_irrefl _)

/-- If code names registers without a gap, it names those of its frames. -/
lemma lt_registers_iff (h : routine table p = .ok r) (hcode : Gapless p.code) (k : Nat) :
    k < r.registers ↔ ∃ j ∈ r.code.toList, k ∈ LinkedInstr.registers j := by
  obtain ⟨top, hfills⟩ := hcode
  obtain ⟨hnames, hr⟩ := sameNames_routine h
  have hregisters :
      r.registers = r.code.toList.foldl (fun m i => max m (LinkedInstr.registerBound i)) 0 := by
    rw [hr]
    rfl
  have hmem (k : Nat) : (∃ j ∈ r.code.toList, k ∈ LinkedInstr.registers j) ↔ k < top := by
    rw [← Set.mem_Iio, ← hfills.named,
      ← exists_mem_iff_of_forall₂ hnames fun i j hij => (hij.registers k).symm]
    simp only [mem_instructions]
  have hle : r.registers ≤ top := by
    rw [hregisters]
    refine foldl_max_le (Nat.zero_le top) fun j hj => LinkedInstr.registerBound_le ?_ ?_
    · exact fun k hk => (hmem k).mp ⟨j, hj, hk⟩
    · intro first n hwindow
      obtain ⟨i, hi, f, l, rfl⟩ := (exists_mem_iff_of_forall₂ hnames
        fun i j hij => (hij.window first n).symm).mpr ⟨j, hj, hwindow⟩
      have hnamed (k : Nat) (hk : k ∈ (Instr.callRegisters f first n l : SymbolicInstr).named) :
          k < top :=
        (hfills.named k).mp ⟨_, mem_instructions.mp hi, hk⟩
      cases n with
      | zero =>
        obtain rfl := hfills.windows f first l (mem_instructions.mp hi)
        exact (hnamed first (.inr rfl)).le
      | succ n => exact hnamed (first + n) (.inl (by simp [Instr.reads]))
  constructor
  · exact fun hk => (hmem k).mpr (hk.trans_le hle)
  · rintro ⟨j, hj, hk⟩
    refine (LinkedInstr.lt_registerBound hk).trans_le ?_
    rw [hregisters]
    exact (le_foldl_max LinkedInstr.registerBound r.code.toList 0).2 j hj

end

end Link

lemma Instr.named_eq_empty {τ κ : Type} {i : Instr τ κ Operand} (h : i.isRegister = false) :
    i.named = ∅ := by
  cases i <;> simp_all [Instr.isRegister, Instr.named, Instr.reads, Instr.writes?]

lemma fills_of_not_isRegister {code : List Line}
    (h : ∀ i ∈ Assembly.instructions code, i.isRegister = false) : Fills code ∅ where
  named r := by
    refine iff_of_false ?_ (Set.notMem_empty r)
    rintro ⟨i, hi, hr⟩
    rw [Instr.named_eq_empty (h i (mem_instructions.mpr hi))] at hr
    exact hr
  windows f first r hi := absurd (h _ (mem_instructions.mpr hi)) (by simp [Instr.isRegister])

/-- The frame of a routine. It has the slots that are in use in the scope at the end: one for each
formal, for each block and for each name that nothing declares, which the routine binds on its
own. It has the registers that the code names. -/
structure FrameOf (config : Config) (formals : List String) (body : Stmt String)
    (r : Executable.Routine) : Prop where
  scope : r.slots = (body.withSlots (.ofFormals formals)).2.size
  slots : r.slots = formals.length + body.blocks.length + (body.undeclared formals).card
  undeclared : ∀ x, x ∈ body.undeclared formals ↔
    x ∉ formals ∧ x ∈ (body.withSlots (.ofFormals formals)).2.routine.map Prod.fst
  registers : ∀ k, k < r.registers ↔ ∃ i ∈ r.code.toList, k ∈ LinkedInstr.registers i
  stack : config.backend = .stack → r.registers = 0

lemma FrameOf.of_routine {config : Config} {formals : List String} {body : Stmt String}
    {table : List (String × Nat × Nat)} {name : RoutineName} {code : List Line}
    {r : Executable.Routine} (h : Link.routine table ⟨name, formals.length, code⟩ = .ok r)
    (haccesses : slotAccesses code = (body.withSlots (.ofFormals formals)).1.accesses)
    (hcode : Gapless code) (hstack : config.backend = .stack → Fills code ∅) :
    FrameOf config formals body r := by
  obtain ⟨hwf, hsize⟩ := Scope.wf_ofFormals formals
  have hscope : r.slots = (body.withSlots (.ofFormals formals)).2.size := by
    refine Link.slots_eq h ?_ ?_ ?_
    · exact hsize ▸ (body.grows_withSlots (.ofFormals formals)).size
    · rw [haccesses, Stmt.map_name_accesses]
      exact body.vars_withSlots_lt hwf
    · rw [haccesses, Stmt.map_name_accesses, ← hsize]
      exact body.takesAmong_withSlots _
  refine ⟨hscope, hscope.trans (body.scope_size formals), fun x => Stmt.mem_undeclared_iff_bound,
    Link.lt_registers_iff h hcode, fun hb => ?_⟩
  by_contra hne
  obtain ⟨j, hj, hk⟩ := (Link.lt_registers_iff h hcode 0).mp (Nat.pos_of_ne_zero hne)
  obtain ⟨i, hi, hk⟩ := (exists_mem_iff_of_forall₂ (Link.sameNames_routine h).1
    fun i j hij => (hij.registers 0).symm).mpr ⟨j, hj, hk⟩
  exact ((hstack hb).named 0).mp ⟨i, mem_instructions.mp hi, hk⟩

lemma Stmt.gapless_of_config (config : Config) (st : Stmt Nat) :
    Gapless (st.emit config 0) ∧ Gapless (withReturn config (st.emit config 0)) ∧
      (config.backend = .stack →
        Fills (st.emit config 0) ∅ ∧ Fills (withReturn config (st.emit config 0)) ∅) := by
  obtain ⟨backend, folding⟩ := config
  cases backend with
  | register =>
    exact ⟨st.gapless_emit 0, gapless_withReturn (st.gapless_emit 0), by rintro ⟨⟩⟩
  | stack =>
    have hemit : Fills (st.emit ⟨.stack, folding⟩ 0) ∅ :=
      fills_of_not_isRegister (st.sameCode_emit 0).not_isRegister
    have hreturn : Fills (withReturn ⟨.stack, folding⟩ (st.emit ⟨.stack, folding⟩ 0)) ∅ :=
      fills_of_not_isRegister (st.sameCode_withReturn 0).not_isRegister
    exact ⟨.of_empty hemit, .of_empty hreturn, fun _ => ⟨hemit, hreturn⟩⟩

namespace Program

/-- The frames that linking finds for a program are those that it was compiled with. -/
theorem frames_of_compiled {p : Program} {config : Config} {a : Assembly} {x : Executable}
    (hcompile : p.compile config = .ok a) (hlink : a.link = .ok x) :
    List.Forall₂ (fun q r => FrameOf config q.formals q.body r) p.procedures
        x.procedures.toList ∧
      FrameOf config [] p.main x.main := by
  obtain ⟨-, rfl⟩ := compile_eq_ok_iff.mp hcompile
  obtain ⟨-, hprocedures, hmain⟩ := link_eq_ok hlink
  rw [List.forall₂_map_left_iff] at hprocedures
  constructor
  · refine hprocedures.imp fun q r hr => ?_
    obtain ⟨-, hgapless, hstack⟩ :=
      Stmt.gapless_of_config config (q.body.withSlots (.ofFormals q.formals)).1
    refine .of_routine hr ?_ hgapless fun hb => (hstack hb).2
    exact (slotAccesses_withReturn _).trans (Stmt.slotAccesses_emit _ _)
  · obtain ⟨hgapless, -, hstack⟩ := Stmt.gapless_of_config config (p.main.withSlots .empty).1
    exact .of_routine hmain (Stmt.slotAccesses_emit _ _) hgapless fun hb => (hstack hb).1

theorem shadows_frames :
    ∃ a x, shadows.compile .default = .ok a ∧ a.link = .ok x ∧
      List.Forall₂ (fun q r => FrameOf .default q.formals q.body r) shadows.procedures
        x.procedures.toList ∧
      FrameOf .default [] shadows.main x.main ∧
      shadows.main.undeclared [] = {"a", "b"} ∧ x.main.slots = 5 ∧ x.main.registers = 3 := by
  obtain ⟨a, ha⟩ : ∃ a, shadows.compile .default = .ok a := ⟨_, rfl⟩
  obtain ⟨x, hx, hslots, hregisters⟩ :
      ∃ x, a.link = .ok x ∧ x.main.slots = 5 ∧ x.main.registers = 3 := by
    cases ha
    exact ⟨_, rfl, rfl, rfl⟩
  obtain ⟨hprocedures, hmain⟩ := frames_of_compiled ha hx
  exact ⟨a, x, ha, hx, hprocedures, hmain, by decide, hslots, hregisters⟩

end Program

end Izmir
