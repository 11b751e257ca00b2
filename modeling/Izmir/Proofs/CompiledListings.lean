import Izmir.Proofs.Calls
import Izmir.Proofs.ListingRoundTrip
import Izmir.Proofs.ProgramTexts

/-!
# Listings of compiled programs

The listing of a compiled program is read back as the same routines. What a listing has to spell
falls into two parts. Names are the marks of the code: labels are spelled by construction, and
the names of callees come from the program. Numbers are those of slots and registers, and they
are bounded by the size of the program, which in turn is bounded by the length of its text.
-/

namespace Izmir

open Grammar Text

/-! ### Spelling a routine -/

/-- What a mark names can be spelled. -/
def Mark.WellSpelled : Mark → Prop
  | .label l | .target l => isName l.toList
  | .call f n => isName f.toList ∧ n < 2 ^ 63

/-- What a backend emits can be spelled when its slots and registers can be numbered and its
marks be spelled. -/
lemma Line.Emitted.wellSpelled {b : Backend} {N : Nat} {line : Line}
    (h : line.Emitted b N (· < N)) (hN : N < UInt64.size)
    (hmarks : ∀ m ∈ line.marks, m.WellSpelled) : line.WellSpelled := by
  have hlt {n : Nat} (hn : n < N) : n < UInt64.size := hn.trans hN
  have hrange {first n k : Nat} (hwindow : first + n ≤ N) (hk : k ∈ List.range' first n) :
      k < UInt64.size := by
    have := List.mem_range'_1.mp hk
    omega
  cases line with
  | label l => exact hmarks _ List.mem_cons_self
  | instr i =>
    change i.WellSpelled
    change ∀ m ∈ i.marks, m.WellSpelled at hmarks
    cases h with
    | loadConstant v hl =>
      cases b with
      | stack => trivial
      | register => exact ⟨trivial, hlt hl⟩
    | loadVariable hn hl =>
      cases b with
      | stack => exact hlt hn
      | register => exact ⟨hlt hn, hlt hl⟩
    | storeVariable hl hn =>
      cases b with
      | stack => exact hlt hn
      | register => exact ⟨hlt hl, hlt hn⟩
    | apply p hl hwindow =>
      unfold Backend.apply
      cases Operation.ofPrimitive? p with
      | none =>
        cases b with
        | stack => trivial
        | register => exact hlt hl
      | some o =>
        cases b with
        | stack => trivial
        | register => exact ⟨fun k => hrange hwindow, hlt hl⟩
    | print hl | ret hl =>
      cases b with
      | stack => trivial
      | register => exact hlt hl
    | branch label => exact hmarks (.target label) List.mem_cons_self
    | branchIf c label hwindow =>
      rw [Backend.marks_branchIf, List.forall_mem_singleton] at hmarks
      cases b with
      | stack => exact hmarks
      | register => exact ⟨fun k => hrange hwindow, hmarks⟩
    | @call f first n l hl hwindow =>
      rw [Backend.marks_call, List.forall_mem_singleton] at hmarks
      cases b with
      | stack => exact hmarks
      | register =>
        refine ⟨hmarks.1, ?_, hmarks.2, hlt hl⟩
        split
        · exact hlt hl
        · omega
    | discard hi =>
      cases b with
      | stack =>
        cases List.mem_singleton.mp hi
        trivial
      | register => cases hi

/-- Operations and conditions have operands. -/
lemma Line.WellFormed.namesOperand {line : Line} (h : line.WellFormed) : line.NamesOperand := by
  cases line with
  | label l => trivial
  | instr i =>
    cases i with
    | operateRegisters o rs r =>
      rintro rfl
      have harity : 0 = o.arity := h.1
      cases o <;> cases harity
    | branchIfRegisters c rs l =>
      rintro rfl
      have harity : 0 = c.arity := h.1
      cases c <;> cases harity
    | _ => trivial

/-- The code of a body can be spelled when its callees can. -/
lemma EmittedFor.codeWellSpelled {b : Backend} {N : Nat} {body : Stmt String} {scope : Scope}
    {code : List Line} (h : EmittedFor b N (· < N) (body.withSlots scope).1 code)
    (hN : N < UInt64.size)
    (hcalls : ∀ c ∈ body.calls, isName c.1.toList ∧ c.2 < 2 ^ 63) :
    Assembly.CodeWellSpelled code := by
  have hnumbered := Stmt.numbered_marks (body.withSlots scope).1 0
  have hlabel {l : String} (hl : Mark.label l ∈ (body.withSlots scope).1.marks 0) :
      isName l.toList :=
    hnumbered.isName l (mem_definedLabels.mpr hl)
  have hmarks : ∀ m ∈ outline code, m.WellSpelled := by
    rw [h.outline_eq]
    intro m hm
    cases m with
    | label l => exact hlabel hm
    | target l => exact hlabel (Stmt.closed_marks _ 0 l hm)
    | call f n =>
      refine hcalls (f, n) ?_
      rw [← Stmt.calls_withSlots body scope, ← Stmt.markedCalls_marks _ 0]
      exact List.mem_filterMap.mpr ⟨_, hm, rfl⟩
  constructor
  · intro line hline
    exact (h.lines line hline).wellSpelled hN fun m hm =>
      hmarks m (List.mem_flatMap.mpr ⟨line, hline, hm⟩)
  · rw [labels_eq_definedLabels, h.outline_eq]
    exact hnumbered.distinct

/-! ### Spelling a program -/

section

variable {ν : Type}

/-- The number of actuals in all calls. -/
def actualCount (calls : List (String × Nat)) : Nat :=
  (calls.map Prod.snd).sum

@[simp] lemma actualCount_nil : actualCount [] = 0 := rfl

@[simp] lemma actualCount_append (cs ds : List (String × Nat)) :
    actualCount (cs ++ ds) = actualCount cs + actualCount ds := by
  simp [actualCount]

@[simp] lemma actualCount_singleton (c : String × Nat) : actualCount [c] = c.2 := by
  simp [actualCount]

lemma Expr.actualCount_callsAll_le {es : List (Expr ν)}
    (h : ∀ e ∈ es, actualCount e.calls < e.size) :
    actualCount (Expr.callsAll es) + es.length ≤ Expr.sizeAll es := by
  induction es with
  | nil => exact le_rfl
  | cons e es ih =>
    obtain ⟨he, hes⟩ := List.forall_mem_cons.mp h
    have hrest := ih hes
    simp only [callsAll, sizeAll, actualCount_append, List.length_cons]
    omega

/-- Every actual is a node of its own. -/
lemma Expr.actualCount_lt_size (e : Expr ν) : actualCount e.calls < e.size := by
  induction e with
  | literal v => exact Nat.zero_lt_one
  | var x => exact Nat.zero_lt_one
  | ifElse c a b hc ha hb =>
    simp only [calls, size, actualCount_append]
    omega
  | apply p es hes =>
    have hall := actualCount_callsAll_le hes
    simp only [calls, size]
    omega
  | call f es hes =>
    have hall := actualCount_callsAll_le hes
    simp only [calls, size, actualCount_append, actualCount_singleton]
    omega

lemma Stmt.actualCount_lt_size (st : Stmt ν) : actualCount st.calls < st.size := by
  induction st with
  | skip => exact Nat.zero_lt_one
  | block x a ha =>
    simp only [calls, size]
    omega
  | assign x e | print e | ret e =>
    have he := e.actualCount_lt_size
    simp only [calls, size]
    omega
  | seq a b ha hb =>
    simp only [calls, size, actualCount_append]
    omega
  | ifElse c a b | ifThen c a | whileDo c a | repeatUntil a c =>
    have hc := c.actualCount_lt_size
    simp only [calls, size, actualCount_append]
    omega
  | call f es =>
    have hall := Expr.actualCount_callsAll_le fun e (_ : e ∈ es) => e.actualCount_lt_size
    simp only [calls, size, actualCount_append, actualCount_singleton]
    omega

lemma Stmt.count_lt_size {st : Stmt ν} {c : String × Nat} (hc : c ∈ st.calls) : c.2 < st.size :=
  (List.le_sum_of_mem (List.mem_map_of_mem (f := Prod.snd) hc)).trans_lt st.actualCount_lt_size

end

/-- The names that a listing shows are names. -/
structure Program.Listable (p : Program) : Prop where
  names : ∀ q ∈ p.procedures, isName q.name.toList
  callees : ∀ q ∈ p.procedures, ∀ c ∈ q.body.calls, isName c.1.toList
  main : ∀ c ∈ p.main.calls, isName c.1.toList

namespace Program

variable {p : Program} {config : Config} {a : Assembly}

/-- A compiled program can be spelled, and all its instructions name their operands. -/
lemma wellSpelled_compile (hc : p.compile config = .ok a) (hp : p.Listable)
    (hsize : p.size ≤ 2 ^ 63) : a.WellSpelled ∧ a.NamesOperands := by
  have hlt : p.size < UInt64.size := hsize.trans_lt (by decide)
  have hcalls {body : Stmt String} (hle : body.size ≤ p.size)
      (hnames : ∀ c ∈ body.calls, isName c.1.toList) :
      ∀ c ∈ body.calls, isName c.1.toList ∧ c.2 < 2 ^ 63 := fun c hc =>
    ⟨hnames c hc, (Stmt.count_lt_size hc).trans_le (hle.trans hsize)⟩
  have hoperands {st : Stmt Nat} {code : List Line}
      (h : EmittedFor config.backend p.size (· < p.size) st code) :
      ∀ line ∈ code, line.NamesOperand := fun line hline =>
    (h.wellFormed hlt (fun n hn => by omega) line hline).namesOperand
  have hmain := emittedFor_main hc
  have hprocedure (q : Procedure) (hq : q ∈ p.procedures) := emittedFor_procedure hc hq
  obtain ⟨-, rfl⟩ := compile_eq_ok_iff.mp hc
  refine ⟨⟨List.forall_mem_map.mpr fun q hq => ?_, rfl, rfl, ?_⟩,
    List.forall_mem_map.mpr fun q hq => hoperands (hprocedure q hq), hoperands hmain⟩
  · have hle := procedure_size_le hq
    have harity : q.formals.length < UInt64.size := by omega
    exact ⟨hp.names q hq, harity,
      (hprocedure q hq).codeWellSpelled hlt (hcalls (by omega) (hp.callees q hq))⟩
  · exact hmain.codeWellSpelled hlt (hcalls p.main_size_le hp.main)

end Program

/-- A listing that can be spelled is read back under any name. -/
lemma Assembly.read_listing_as {a : Assembly} (hsource : '\n' ∉ a.source.toList) (h : a.WellSpelled)
    (hnames : a.NamesOperands) (file : String) :
    read file a.listing = .ok { a with source := file } := by
  rw [Listing.read_eq_ok_iff, Listing.lines_listing hsource h]
  exact ⟨_, Listing.foldlM_rows h hnames, rfl, rfl, rfl⟩

/-! ### Programs that were read -/

lemma Expr.isName_callsAll {es : List (Expr String)}
    (h : ∀ e ∈ es, ∀ c ∈ e.calls, isName c.1.toList) :
    ∀ c ∈ Expr.callsAll es, isName c.1.toList := by
  induction es with
  | nil => simp [callsAll]
  | cons e es ih =>
    obtain ⟨he, hes⟩ := List.forall_mem_cons.mp h
    exact List.forall_mem_append.mpr ⟨he, ih hes⟩

lemma Expr.Expressible.isName_calls {e : Expr String} (h : e.Expressible) :
    ∀ c ∈ e.calls, isName c.1.toList := by
  induction e with
  | literal v => simp [calls]
  | var x => simp [calls]
  | ifElse c a b hc ha hb =>
    simp only [calls, List.forall_mem_append]
    exact ⟨⟨hc h.1, ha h.2.1⟩, hb h.2.2⟩
  | apply p es hes =>
    exact isName_callsAll fun e he => hes e he (allExpressible_iff.mp h.2.2 e he)
  | call f es hes =>
    simp only [calls, List.forall_mem_append, List.forall_mem_singleton]
    exact ⟨isName_callsAll fun e he => hes e he (allExpressible_iff.mp h.2 e he), h.1.1⟩

lemma Stmt.Expressible.isName_calls {st : Stmt String} (h : st.Expressible) :
    ∀ c ∈ st.calls, isName c.1.toList := by
  induction st with
  | skip => simp [calls]
  | block x a ha => exact ha h.2
  | assign x e => exact h.2.isName_calls
  | print e | ret e => exact Expr.Expressible.isName_calls h
  | seq a b ha hb => exact List.forall_mem_append.mpr ⟨ha h.1, hb h.2⟩
  | ifElse c a b ha hb =>
    simp only [calls, List.forall_mem_append]
    exact ⟨⟨h.1.isName_calls, ha h.2.1⟩, hb h.2.2⟩
  | ifThen c a ha | whileDo c a ha =>
    exact List.forall_mem_append.mpr ⟨h.1.isName_calls, ha h.2⟩
  | repeatUntil a c ha => exact List.forall_mem_append.mpr ⟨ha h.1, h.2.isName_calls⟩
  | call f es => exact Expr.Expressible.isName_calls (e := .call f es) h

/-- What can be written as a program can be listed. -/
lemma Program.Expressible.listable {p : Program} (h : p.Expressible) : p.Listable where
  names q hq := (h.procedures q hq).name.1
  callees q hq := (h.procedures q hq).body.isName_calls
  main := h.main.isName_calls

/-- Each token takes at least one character. -/
lemma Token.Splits.length_le {cs : List Char} {ts : List Token} (h : Splits cs ts) :
    ts.length ≤ cs.length := by
  induction h with
  | nil => exact le_rfl
  | @cons cs rest t ts h _ _ ih =>
    have hpos := List.length_pos_iff.mpr h.ne_nil
    have ht : t.toList.length ≤ 1 := by cases t <;> simp
    simp only [List.length_append]
    omega

namespace Grammar

lemma sizeAll_lt_length_actuals {args : List (List Token × Expr String)}
    (h : ∀ a ∈ args, a.2.size ≤ a.1.length) :
    Expr.sizeAll (args.map Prod.snd) < (actuals args).length := by
  induction args with
  | nil => exact Nat.zero_lt_one
  | cons a args ih =>
    obtain ⟨ha, hargs⟩ := List.forall_mem_cons.mp h
    cases args with
    | nil =>
      simp only [actuals_singleton, List.map_cons, List.map_nil, Expr.sizeAll, List.length_append,
        List.length_singleton]
      omega
    | cons b args =>
      have hrest := ih hargs
      simp only [actuals_cons_cons, List.map_cons, Expr.sizeAll, List.length_append,
        List.length_cons] at hrest ⊢
      omega

/-- An expression has no more nodes than tokens. -/
lemma ExprPhrase.size_le {k : ExprKind} {ts : List Token} {e : Expr String}
    (h : ExprPhrase k ts e) : e.size ≤ ts.length := by
  induction h with
  | sum _ ih | product _ ih | unary _ ih | operand _ _ ih | atom _ ih => exact ih
  | call f _ ih =>
    have hargs := sizeAll_lt_length_actuals ih
    simp only [Expr.size, List.length_cons]
    omega
  | _ =>
    simp only [Expr.size, Expr.sizeAll, List.length_append, List.length_cons, List.length_nil]
    omega

lemma Names.length_le {ts : List Token} {xs : List String} (h : Names ts xs) :
    xs.length ≤ ts.length := by
  induction h with
  | one x => exact le_rfl
  | more x _ ih =>
    simp only [List.length_cons]
    omega

/-- Nothing at all stands for a statement, where statements can be left out. -/
def StmtKind.slack : StmtKind → Nat
  | .statements => 1
  | _ => 0

lemma size_foldr_block (xs : List String) (s : Stmt String) :
    (xs.foldr Stmt.block s).size = xs.length + s.size := by
  induction xs with
  | nil => exact (Nat.zero_add _).symm
  | cons x xs ih =>
    simp only [List.foldr_cons, Stmt.size, ih, List.length_cons]
    omega

lemma StmtPhrase.size_le {k : StmtKind} {ts : List Token} {s : Stmt String}
    (h : StmtPhrase k ts s) : s.size ≤ ts.length + k.slack := by
  induction h with
  | skip => exact le_rfl
  | none => exact le_rfl
  | block _ ih | one _ ih => exact ih
  | sequence _ ih => exact ih.trans (Nat.le_succ _)
  | ifThen hc _ ih | whileDo hc _ ih | repeatUntil _ hc ih =>
    have hsize := hc.size_le
    simp only [Stmt.size, List.length_append, List.length_cons, List.length_nil,
      StmtKind.slack] at ih ⊢
    omega
  | ifElse hc _ _ iha ihb =>
    have hsize := hc.size_le
    simp only [Stmt.size, List.length_append, List.length_cons, List.length_nil,
      StmtKind.slack] at iha ihb ⊢
    omega
  | print h | ret h | assign _ h =>
    have hsize := h.size_le
    simp only [Stmt.size, List.length_cons]
    omega
  | call f h =>
    have hargs := sizeAll_lt_length_actuals fun a ha => (h a ha).size_le
    simp only [Stmt.size, List.length_cons]
    omega
  | more _ _ ih ihr =>
    simp only [Stmt.size, List.length_append, List.length_cons, StmtKind.slack] at ih ihr ⊢
    omega
  | trailing _ ih =>
    simp only [List.length_append, StmtKind.slack] at ih ⊢
    omega
  | plain _ ih =>
    simp only [List.length_append, List.length_cons, List.length_nil, StmtKind.slack] at ih ⊢
    omega
  | declare hx _ ih =>
    have hnames := hx.length_le
    rw [size_foldr_block]
    simp only [List.length_append, List.length_cons, List.length_nil, StmtKind.slack] at ih ⊢
    omega

lemma ProcedurePhrase.size_le {ts : List Token} {q : Procedure} (h : ProcedurePhrase ts q) :
    q.formals.length + q.body.size ≤ ts.length := by
  cases h with
  | plain f h =>
    have hsize := h.size_le
    simp only [List.length_cons, List.length_nil, StmtKind.slack] at hsize ⊢
    omega
  | formals f hx h =>
    have hsize := h.size_le
    have hnames := hx.length_le
    simp only [List.length_append, List.length_cons, StmtKind.slack] at hsize ⊢
    omega

lemma ProgramPhrase.size_le {ts : List Token} {p : Program} (h : ProgramPhrase ts p) :
    p.size ≤ ts.length + 1 := by
  obtain @⟨source, ps, us, s, hp, hs⟩ := h
  have hmain : s.size ≤ us.length + 1 := hs.size_le
  have hprocedures : ((ps.map Prod.snd).map fun q => q.formals.length + q.body.size).sum ≤
      (ps.flatMap Prod.fst).length := by
    rw [List.length_flatMap, List.map_map]
    exact List.sum_le_sum fun a ha => (hp a ha).size_le
  rw [List.length_append, Nat.add_assoc]
  exact Nat.add_le_add hprocedures hmain

end Grammar

/-- The size of a program is bounded by the length of its text. -/
lemma Program.size_le_of_parse? {source text : String} {p : Program}
    (h : parse? source text = some p) : p.size ≤ text.length + 1 := by
  obtain ⟨-, ts, hts, hphrase⟩ := exists_phrase_of_parse? h
  have hlength := hts.length_le
  rw [String.length_toList] at hlength
  exact hphrase.size_le.trans (Nat.succ_le_succ hlength)

/-- The listing of a program that was read from a text is read back, under any name, as the same
routines. The text is no longer than a text in memory can be. -/
lemma Program.read_listing_of_parse? {source text : String} {p : Program} {config : Config}
    {a : Assembly} (hparse : parse? source text = some p) (htext : text.length < 2 ^ 63)
    (hsource : '\n' ∉ source.toList) (hc : p.compile config = .ok a) (file : String) :
    Assembly.read file a.listing = .ok { a with source := file } := by
  have hsize := size_le_of_parse? hparse
  obtain ⟨hname, ts, hts, hphrase⟩ := exists_phrase_of_parse? hparse
  have hexpressible := hphrase.expressible hts.named
  obtain ⟨h, hnames⟩ := wellSpelled_compile hc hexpressible.listable (by omega)
  refine Assembly.read_listing_as ?_ h hnames file
  obtain ⟨-, rfl⟩ := compile_eq_ok_iff.mp hc
  rwa [hname]

end Izmir
