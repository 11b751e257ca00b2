import Izmir.Proofs.Outline
import Izmir.Proofs.Resolution

/-!
# Frames of compiled programs

A program that compiles has slots and registers no more than it has nodes. So its indices can be
counted, and its frames can be allocated, unless the program is larger than any that there is.
-/

namespace Izmir

/-! ### What compiles -/

lemma forM_eq_ok_iff {ε α : Type} {f : α → Except ε Unit} {as : List α} :
    forM as f = .ok () ↔ ∀ a ∈ as, f a = .ok () := by
  induction as with
  | nil => exact ⟨fun _ _ => nofun, fun _ => rfl⟩
  | cons a as ih =>
    rw [List.forM_cons, bind_unit_eq_ok_iff, ih, List.forall_mem_cons]

lemma Program.check_eq (p : Program) (folding : Bool) :
    p.check folding =
      match firstRepeat? (p.procedures.map (·.name)) with
      | some n => .error (.multipleDefinitions n)
      | none =>
        (forM p.procedures fun q => q.body.check folding) >>= fun _ => p.main.check folding := by
  unfold check
  cases firstRepeat? (p.procedures.map (·.name)) <;> rfl

/-- The assembly of a program that compiles. -/
lemma Program.compile_eq_ok_iff {p : Program} {config : Config} {a : Assembly} :
    p.compile config = .ok a ↔
      ((p.procedures.map (·.name)).Nodup ∧ (∀ q ∈ p.procedures, q.body.WellApplied) ∧
        p.main.WellApplied) ∧
      a = ⟨p.source, p.procedures.map (·.compile config), .main (p.main.compileMain config)⟩ := by
  have hcheck : p.check config.folding = .ok () ↔
      (p.procedures.map (·.name)).Nodup ∧ (∀ q ∈ p.procedures, q.body.WellApplied) ∧
        p.main.WellApplied := by
    rw [check_eq, ← firstRepeat?_eq_none_iff]
    cases firstRepeat? (p.procedures.map (·.name)) with
    | some n => simp
    | none => simp only [bind_unit_eq_ok_iff, forM_eq_ok_iff, Stmt.check_eq_ok_iff, true_and]
  rw [← hcheck, compile, bind_eq_ok_iff]
  constructor
  · rintro ⟨_, hok, ha⟩
    exact ⟨hok, (Except.ok.inj ha).symm⟩
  · rintro ⟨hok, rfl⟩
    exact ⟨(), hok, rfl⟩

/-! ### Slots -/

lemma Scope.slot_lt {s : Scope} (h : s.Wf) (x : String) : (s.slot x).1 < (s.slot x).2.size := by
  unfold slot
  cases hx : s.find? x with
  | some n => exact h.below (x, n) (Bindings.Agrees.mem_of_lookup hx)
  | none => exact Nat.lt_succ_self _

lemma Scope.size_slot_le (s : Scope) (x : String) : (s.slot x).2.size ≤ s.size + 1 := by
  unfold slot
  cases s.find? x with
  | some n => exact Nat.le_succ _
  | none => exact le_rfl

/-- What holds of all numbers below a bound holds of those below a smaller one. -/
lemma forall_lt_of_le {ns : List Nat} {m n : Nat} (h : ∀ k ∈ ns, k < m) (hmn : m ≤ n) :
    ∀ k ∈ ns, k < n :=
  fun k hk => (h k hk).trans_le hmn

section

variable {es : List (Expr String)} {s : Scope}

lemma Expr.varsAll_listWithSlots (hs : s.Wf)
    (h : ∀ e ∈ es, ∀ s : Scope, s.Wf →
      ∀ n ∈ (e.withSlots s).1.vars, n < (e.withSlots s).2.size) :
    ∀ n ∈ Expr.varsAll (Expr.listWithSlots es s).1, n < (Expr.listWithSlots es s).2.size := by
  induction es generalizing s with
  | nil => simp [listWithSlots, varsAll]
  | cons e es ih =>
    obtain ⟨he, hes⟩ := List.forall_mem_cons.mp h
    have hgrows := e.grows_withSlots s
    have hrest : (e.withSlots s).2.Grows (listWithSlots es (e.withSlots s).2).2 :=
      grows_listWithSlots (fun e _ => e.grows_withSlots) _
    simp only [listWithSlots, varsAll, List.forall_mem_append]
    exact ⟨forall_lt_of_le (he s hs) hrest.size, ih (hgrows.wf hs) hes⟩

lemma Expr.size_listWithSlots_le
    (h : ∀ e ∈ es, ∀ s : Scope, (e.withSlots s).2.size ≤ s.size + e.size) :
    (Expr.listWithSlots es s).2.size ≤ s.size + Expr.sizeAll es := by
  induction es generalizing s with
  | nil => exact le_rfl
  | cons e es ih =>
    obtain ⟨he, hes⟩ := List.forall_mem_cons.mp h
    have hfirst := he s
    have hrest := ih hes (s := (e.withSlots s).2)
    simp only [listWithSlots, sizeAll]
    omega

end

/-- Every slot of an expression is in use after it. -/
lemma Expr.vars_withSlots_lt (e : Expr String) {s : Scope} (hs : s.Wf) :
    ∀ n ∈ (e.withSlots s).1.vars, n < (e.withSlots s).2.size := by
  induction e generalizing s with
  | literal v => simp [withSlots, vars]
  | var x => exact List.forall_mem_singleton.mpr (Scope.slot_lt hs x)
  | ifElse c a b hc ha hb =>
    have hsc := c.grows_withSlots s
    have hsa := a.grows_withSlots (c.withSlots s).2
    have hsb := b.grows_withSlots (a.withSlots (c.withSlots s).2).2
    simp only [withSlots, vars, List.forall_mem_append]
    refine ⟨⟨forall_lt_of_le (hc hs) (hsa.trans hsb).size, ?_⟩, hb (hsa.wf (hsc.wf hs))⟩
    exact forall_lt_of_le (ha (hsc.wf hs)) hsb.size
  | apply _ es hes | call _ es hes =>
    exact varsAll_listWithSlots hs fun e he s hs => hes e he hs

/-- An expression takes at most one new slot for each of its nodes. -/
lemma Expr.scope_size_le (e : Expr String) (s : Scope) :
    (e.withSlots s).2.size ≤ s.size + e.size := by
  induction e generalizing s with
  | literal v => exact Nat.le_add_right _ _
  | var x => exact s.size_slot_le x
  | ifElse c a b hc ha hb =>
    have hsc := hc s
    have hsa := ha (c.withSlots s).2
    have hsb := hb (a.withSlots (c.withSlots s).2).2
    simp only [withSlots, size]
    omega
  | apply _ es hes | call _ es hes =>
    have hall := size_listWithSlots_le hes (s := s)
    simp only [withSlots, size]
    omega

lemma Stmt.vars_withSlots_lt (st : Stmt String) {s : Scope} (hs : s.Wf) :
    ∀ n ∈ (st.withSlots s).1.vars, n < (st.withSlots s).2.size := by
  induction st generalizing s with
  | skip => simp [withSlots, vars]
  | block x a ha =>
    have hgrows := a.grows_withSlots (s.enter x)
    simp only [withSlots, vars, List.forall_mem_cons]
    exact ⟨hgrows.size, ha (Scope.wf_enter hs x)⟩
  | assign x e =>
    have hgrows := e.grows_withSlots s
    simp only [withSlots, vars, List.forall_mem_append, List.forall_mem_singleton]
    exact ⟨forall_lt_of_le (e.vars_withSlots_lt hs) (Scope.grows_slot _ x).size,
      Scope.slot_lt (hgrows.wf hs) x⟩
  | print e | ret e => exact e.vars_withSlots_lt hs
  | seq a b ha hb =>
    have hsa := a.grows_withSlots s
    have hsb := b.grows_withSlots (a.withSlots s).2
    simp only [withSlots, vars, List.forall_mem_append]
    exact ⟨forall_lt_of_le (ha hs) hsb.size, hb (hsa.wf hs)⟩
  | ifElse c a b ha hb =>
    have hsc := c.grows_withSlots s
    have hsa := a.grows_withSlots (c.withSlots s).2
    have hsb := b.grows_withSlots (a.withSlots (c.withSlots s).2).2
    simp only [withSlots, vars, List.forall_mem_append]
    refine ⟨⟨forall_lt_of_le (c.vars_withSlots_lt hs) (hsa.trans hsb).size, ?_⟩,
      hb (hsa.wf (hsc.wf hs))⟩
    exact forall_lt_of_le (ha (hsc.wf hs)) hsb.size
  | ifThen c a ha | whileDo c a ha =>
    have hsc := c.grows_withSlots s
    have hsa := a.grows_withSlots (c.withSlots s).2
    simp only [withSlots, vars, List.forall_mem_append]
    exact ⟨forall_lt_of_le (c.vars_withSlots_lt hs) hsa.size, ha (hsc.wf hs)⟩
  | repeatUntil a c ha =>
    have hsa := a.grows_withSlots s
    have hsc := c.grows_withSlots (a.withSlots s).2
    simp only [withSlots, vars, List.forall_mem_append]
    exact ⟨forall_lt_of_le (ha hs) hsc.size, c.vars_withSlots_lt (hsa.wf hs)⟩
  | call f es => exact Expr.varsAll_listWithSlots hs fun e _ s hs => e.vars_withSlots_lt hs

lemma Stmt.scope_size_le (st : Stmt String) (s : Scope) :
    (st.withSlots s).2.size ≤ s.size + st.size := by
  induction st generalizing s with
  | skip => exact Nat.le_add_right _ _
  | block x a ha =>
    have hsa : (a.withSlots (s.enter x)).2.size ≤ s.size + 1 + a.size := ha (s.enter x)
    change (a.withSlots (s.enter x)).2.size ≤ s.size + (1 + a.size)
    omega
  | assign x e =>
    have hse := e.scope_size_le s
    have hsx := (e.withSlots s).2.size_slot_le x
    simp only [withSlots, size]
    omega
  | print e | ret e =>
    have hse := e.scope_size_le s
    simp only [withSlots, size]
    omega
  | seq a b ha hb =>
    have hsa := ha s
    have hsb := hb (a.withSlots s).2
    simp only [withSlots, size]
    omega
  | ifElse c a b ha hb =>
    have hsc := c.scope_size_le s
    have hsa := ha (c.withSlots s).2
    have hsb := hb (a.withSlots (c.withSlots s).2).2
    simp only [withSlots, size]
    omega
  | ifThen c a ha | whileDo c a ha =>
    have hsc := c.scope_size_le s
    have hsa := ha (c.withSlots s).2
    simp only [withSlots, size]
    omega
  | repeatUntil a c ha =>
    have hsa := ha s
    have hsc := c.scope_size_le (a.withSlots s).2
    simp only [withSlots, size]
    omega
  | call f es =>
    have hall : (Expr.listWithSlots es s).2.size ≤ s.size + Expr.sizeAll es :=
      Expr.size_listWithSlots_le fun e _ => e.scope_size_le
    simp only [withSlots, size]
    omega

/-- The slots of a body are fewer than its variables in scope and its nodes together. -/
lemma Stmt.vars_lt {st : Stmt String} {s : Scope} (hs : s.Wf) {m : Nat}
    (hm : s.size + st.size ≤ m) : ∀ n ∈ (st.withSlots s).1.vars, n < m :=
  forall_lt_of_le (st.vars_withSlots_lt hs) ((st.scope_size_le s).trans hm)

lemma Scope.wf_ofFormals (formals : List String) :
    (ofFormals formals).Wf ∧ (ofFormals formals).size = formals.length := by
  obtain ⟨hwf, -, hsize, -⟩ := @ofFormals_spec formals (List.replicate formals.length 0) (by simp)
  exact ⟨hwf, by simpa using hsize⟩

/-! ### Code and its frames -/

section

variable {p : Program} {config : Config} {a : Assembly} (hc : p.compile config = .ok a)
include hc

/-- The code of a procedure keeps its registers and slots below the size of the program. -/
lemma Program.emittedFor_procedure {q : Procedure} (hq : q ∈ p.procedures) :
    EmittedFor config.backend p.size (· < p.size) (q.body.withSlots (.ofFormals q.formals)).1
      (q.compile config).code := by
  obtain ⟨⟨-, hbodies, -⟩, -⟩ := compile_eq_ok_iff.mp hc
  obtain ⟨hscope, hsize⟩ := Scope.wf_ofFormals q.formals
  have hle := procedure_size_le hq
  have hpos := q.body.size_pos
  have hbody := (q.body.wellApplied_withSlots (.ofFormals q.formals)).mpr (hbodies q hq)
  refine (Stmt.emittedFor_emit hbody ?_ ?_).withReturn (by omega)
  · exact Stmt.vars_lt hscope (by omega)
  · rw [Stmt.size_withSlots]
    omega

lemma Program.emittedFor_main :
    EmittedFor config.backend p.size (· < p.size) (p.main.withSlots .empty).1
      (p.main.compileMain config) := by
  obtain ⟨⟨-, -, hmain⟩, -⟩ := compile_eq_ok_iff.mp hc
  have hle : Scope.empty.size + p.main.size ≤ p.size := by
    simpa [Scope.empty] using p.main_size_le
  refine Stmt.emittedFor_emit ((p.main.wellApplied_withSlots _).mpr hmain)
    (Stmt.vars_lt Scope.wf_empty hle) ?_
  rw [Stmt.size_withSlots]
  exact p.main_size_le

end

/-- What a backend emits needs frames no larger than what it was given. -/
lemma Backend.Emits.bounds {b : Backend} {N M : Nat} {i : SymbolicInstr}
    (h : b.Emits N (· < M) i) :
    LinkedInstr.slotBound i.bare ≤ M ∧ LinkedInstr.registerBound i.bare ≤ N := by
  have hrange {first n : Nat} (hwindow : first + n ≤ N) :
      LinkedInstr.above (List.range' first n) ≤ N := by
    refine LinkedInstr.above_le fun r hr => ?_
    rw [List.mem_range'_1] at hr
    omega
  cases h with
  | apply p hl hwindow =>
    unfold Backend.apply
    cases Operation.ofPrimitive? p with
    | none =>
      cases b with
      | stack => exact ⟨Nat.zero_le M, Nat.zero_le N⟩
      | register => exact ⟨Nat.zero_le M, hl⟩
    | some o =>
      cases b with
      | stack => exact ⟨Nat.zero_le M, Nat.zero_le N⟩
      | register => exact ⟨Nat.zero_le M, Nat.max_le.mpr ⟨hrange hwindow, hl⟩⟩
  | branchIf c label hwindow =>
    cases b with
    | stack => exact ⟨Nat.zero_le M, Nat.zero_le N⟩
    | register => exact ⟨Nat.zero_le M, hrange hwindow⟩
  | @call f first n l hl hwindow =>
    cases b with
    | stack => exact ⟨Nat.zero_le M, Nat.zero_le N⟩
    | register =>
      refine ⟨Nat.zero_le M, Nat.max_le.mpr ⟨?_, hl⟩⟩
      split <;> omega
  | discard hi =>
    cases b with
    | stack =>
      cases List.mem_singleton.mp hi
      exact ⟨Nat.zero_le M, Nat.zero_le N⟩
    | register => cases hi
  | branch label => exact ⟨Nat.zero_le M, Nat.zero_le N⟩
  | loadConstant v hl =>
    cases b with
    | stack => exact ⟨Nat.zero_le M, Nat.zero_le N⟩
    | register => exact ⟨Nat.zero_le M, Nat.max_le.mpr ⟨Nat.zero_le N, hl⟩⟩
  | loadVariable hn hl =>
    cases b with
    | stack => exact ⟨hn, Nat.zero_le N⟩
    | register =>
      exact ⟨Nat.max_le.mpr ⟨hn, Nat.zero_le M⟩, Nat.max_le.mpr ⟨Nat.zero_le N, hl⟩⟩
  | storeVariable hl hn =>
    cases b with
    | stack => exact ⟨hn, Nat.zero_le N⟩
    | register =>
      exact ⟨Nat.max_le.mpr ⟨Nat.zero_le M, hn⟩, Nat.max_le.mpr ⟨hl, Nat.zero_le N⟩⟩
  | print hl | ret hl =>
    cases b with
    | stack => exact ⟨Nat.zero_le M, Nat.zero_le N⟩
    | register => exact ⟨Nat.zero_le M, hl⟩

lemma EmittedFor.frame_le {b : Backend} {N M arity : Nat} {st : Stmt Nat} {code : List Line}
    (h : EmittedFor b N (· < M) st code) (harity : arity ≤ M) (name : RoutineName) :
    (Assembly.Routine.bare ⟨name, arity, code⟩).slots ≤ M ∧
      (Assembly.Routine.bare ⟨name, arity, code⟩).registers ≤ N := by
  have hbounds : ∀ j ∈ (Assembly.instructions code).map SymbolicInstr.bare,
      LinkedInstr.slotBound j ≤ M ∧ LinkedInstr.registerBound j ≤ N := by
    rw [List.forall_mem_map]
    exact fun i hi => Backend.Emits.bounds (h.lines _ (mem_instructions.mp hi))
  exact ⟨foldl_max_le harity fun j hj => (hbounds j hj).1,
    foldl_max_le (Nat.zero_le N) fun j hj => (hbounds j hj).2⟩

/-- The frames of a program that compiles and links can be allocated. -/
lemma Program.fits_of_compile {p : Program} {config : Config} {a : Assembly} {x : Executable}
    (hc : p.compile config = .ok a) (hlink : a.link = .ok x)
    (hsize : p.size < Executable.vectorLimit) : x.Fits := by
  intro ref r hr
  obtain ⟨q, hq, hroutine⟩ := link_routine hlink hr
  rw [Link.fits_of_routine hroutine]
  have hle : q.bare.slots ≤ p.size ∧ q.bare.registers ≤ p.size := by
    have hprocedure (s : Procedure) (hs : s ∈ p.procedures) :=
      (emittedFor_procedure hc hs).frame_le
        (Nat.le_trans (Nat.le_add_right _ _) (procedure_size_le hs)) (.procedure s.name)
    have hmain := (emittedFor_main hc).frame_le (Nat.zero_le p.size) .main
    obtain ⟨-, rfl⟩ := compile_eq_ok_iff.mp hc
    cases ref with
    | main =>
      cases hq
      exact hmain
    | procedure i =>
      obtain ⟨s, hs, rfl⟩ := List.mem_map.mp (List.mem_of_getElem? hq)
      exact hprocedure s hs
  exact ⟨hle.1.trans_lt hsize, hle.2.trans_lt hsize⟩

end Izmir
