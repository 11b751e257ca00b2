import Izmir.Proofs.Accesses
import Izmir.Proofs.Correctness
import Izmir.Proofs.Places

/-!
# Variables and what binds them

A name in a routine refers to the innermost block around it that declares it, otherwise to the
last formal of that name, otherwise to a variable of the routine that nothing declares. This is
said by a tree in which each name is replaced by its binder. The tree with slots is that tree
under an injective map from binders to slots, so that two names have the same slot exactly if
they refer to the same variable.
-/

namespace Izmir

/-- What a name in a routine refers to. -/
inductive Binder where
  /-- A block, by its number in the order of the text. -/
  | block (number : Nat)
  /-- A formal, by its position. -/
  | formal (position : Nat)
  /-- A variable of the routine that is not declared. -/
  | undeclared (name : String)
  deriving DecidableEq

/-- What a name refers to outside of all blocks. Of several formals the last one counts. -/
def Binder.outermost (formals : List String) (x : String) : Binder :=
  match formals.zipIdx.reverse.lookup x with
  | some i => .formal i
  | none => .undeclared x

mutual

/-- The expression with other names. -/
def Expr.rename {ν μ : Type} (f : ν → μ) : Expr ν → Expr μ
  | .literal v => .literal v
  | .var x => .var (f x)
  | .ifElse c a b => .ifElse (c.rename f) (a.rename f) (b.rename f)
  | .apply p es => .apply p (Expr.renameAll f es)
  | .call g es => .call g (Expr.renameAll f es)

def Expr.renameAll {ν μ : Type} (f : ν → μ) : List (Expr ν) → List (Expr μ)
  | [] => []
  | e :: es => e.rename f :: Expr.renameAll f es

end

/-- The statement with other names. -/
def Stmt.rename {ν μ : Type} (f : ν → μ) : Stmt ν → Stmt μ
  | .skip => .skip
  | .block x a => .block (f x) (a.rename f)
  | .assign x e => .assign (f x) (e.rename f)
  | .print e => .print (e.rename f)
  | .seq a b => .seq (a.rename f) (b.rename f)
  | .ifElse c a b => .ifElse (c.rename f) (a.rename f) (b.rename f)
  | .ifThen c a => .ifThen (c.rename f) (a.rename f)
  | .whileDo c a => .whileDo (c.rename f) (a.rename f)
  | .repeatUntil a c => .repeatUntil (a.rename f) (c.rename f)
  | .ret e => .ret (e.rename f)
  | .call g es => .call g (Expr.renameAll f es)

/-- The variables that the blocks of a statement declare, in the order of the text. -/
def Stmt.blocks {ν : Type} : Stmt ν → List ν
  | .block x a => x :: a.blocks
  | .seq a b => a.blocks ++ b.blocks
  | .ifElse _ a b => a.blocks ++ b.blocks
  | .ifThen _ a => a.blocks
  | .whileDo _ a => a.blocks
  | .repeatUntil a _ => a.blocks
  | _ => []

/-- The statement with each name replaced by its binder, when `refers` says what names refer to
around it and its blocks are numbered from `number` on. -/
def Stmt.bound (refers : String → Binder) (number : Nat) : Stmt String → Stmt Binder
  | .skip => .skip
  | .block x a =>
    .block (.block number) (a.bound (Function.update refers x (.block number)) (number + 1))
  | .assign x e => .assign (refers x) (e.rename refers)
  | .print e => .print (e.rename refers)
  | .seq a b => .seq (a.bound refers number) (b.bound refers (number + a.blocks.length))
  | .ifElse c a b =>
    .ifElse (c.rename refers) (a.bound refers number) (b.bound refers (number + a.blocks.length))
  | .ifThen c a => .ifThen (c.rename refers) (a.bound refers number)
  | .whileDo c a => .whileDo (c.rename refers) (a.bound refers number)
  | .repeatUntil a c => .repeatUntil (a.bound refers number) (c.rename refers)
  | .ret e => .ret (e.rename refers)
  | .call f es => .call f (Expr.renameAll refers es)

/-- The body of a routine with each name replaced by its binder. -/
def Stmt.resolved (formals : List String) (body : Stmt String) : Stmt Binder :=
  body.bound (.outermost formals) 0

/-! ### Renaming -/

section

variable {ν μ : Type} (f : ν → μ)

lemma Expr.varsAll_renameAll {es : List (Expr ν)}
    (h : ∀ e ∈ es, (e.rename f).vars = e.vars.map f) :
    Expr.varsAll (Expr.renameAll f es) = (Expr.varsAll es).map f := by
  induction es with
  | nil => rfl
  | cons e es ih =>
    obtain ⟨he, hes⟩ := List.forall_mem_cons.mp h
    rw [renameAll, varsAll, varsAll, he, ih hes, List.map_append]

lemma Expr.vars_rename (e : Expr ν) : (e.rename f).vars = e.vars.map f := by
  induction e with
  | literal v => rfl
  | var x => rfl
  | ifElse c a b hc ha hb => simp only [rename, vars, hc, ha, hb, List.map_append]
  | apply _ es hes | call _ es hes => exact varsAll_renameAll f hes

lemma Expr.reads_rename (e : Expr ν) : (e.rename f).reads = e.reads.map (.map f) := by
  rw [reads, reads, vars_rename, List.map_map, List.map_map]
  rfl

lemma Stmt.accesses_rename (st : Stmt ν) :
    (st.rename f).accesses = st.accesses.map (.map f) := by
  induction st with
  | skip => rfl
  | block x a ha => simp [rename, accesses, ha]
  | assign x e => simp [rename, accesses, Expr.reads_rename]
  | print e | ret e => exact e.reads_rename f
  | seq a b ha hb => simp [rename, accesses, ha, hb]
  | ifElse c a b ha hb => simp [rename, accesses, Expr.reads_rename, ha, hb]
  | ifThen c a ha => simp [rename, accesses, Expr.reads_rename, ha]
  | whileDo c a ha => simp [rename, accesses, Expr.reads_rename, ha]
  | repeatUntil a c ha => simp [rename, accesses, Expr.reads_rename, ha]
  | call g es =>
    rw [rename, accesses, accesses, Expr.varsAll_renameAll f fun e _ => e.vars_rename f,
      List.map_map, List.map_map]
    rfl

end

/-! ### Slots in the order in which they are taken -/

namespace Scope

/-- Going from one scope to another takes the next slots, each of them for one of some blocks or
for one name of the routine. -/
def Takes (s : Scope) (blocks : List Nat) (t : Scope) : Prop :=
  ∃ new, t.routine = new ++ s.routine ∧ s.size ≤ t.size ∧
    (blocks ++ new.map Prod.snd).Perm (List.range' s.size (t.size - s.size))

namespace Takes

variable {s t u : Scope} {ns ms : List Nat}

lemma refl (s : Scope) : s.Takes [] s :=
  ⟨[], rfl, le_rfl, by simp⟩

lemma trans (hst : s.Takes ns t) (htu : t.Takes ms u) : s.Takes (ns ++ ms) u := by
  obtain ⟨new, hr, hle, hperm⟩ := hst
  obtain ⟨new', hr', hle', hperm'⟩ := htu
  refine ⟨new' ++ new, by rw [hr', hr, List.append_assoc], hle.trans hle', ?_⟩
  have hrange : List.range' s.size (u.size - s.size) =
      List.range' s.size (t.size - s.size) ++ List.range' t.size (u.size - t.size) := by
    have hsize : t.size = s.size + (t.size - s.size) := by omega
    have hsum : u.size - s.size = (t.size - s.size) + (u.size - t.size) := by omega
    rw [hsum, ← List.range'_append_1, ← hsize]
  rw [hrange]
  refine List.Perm.trans ?_ (hperm.append hperm')
  rw [List.perm_iff_count]
  intro n
  simp only [List.count_append, List.map_append]
  omega

lemma bind (s : Scope) (x : String) : s.Takes [] (s.bind x) :=
  ⟨[(x, s.size)], rfl, Nat.le_succ _, by simp [Scope.bind]⟩

lemma slot (s : Scope) (x : String) : s.Takes [] (s.slot x).2 := by
  unfold Scope.slot
  cases s.find? x with
  | some n => exact .refl s
  | none => exact .bind s x

lemma block {x : String} (h : (s.enter x).Takes ns t) : s.Takes (s.size :: ns) t.leave := by
  obtain ⟨new, hr, hle, hperm⟩ := h
  have hle : s.size + 1 ≤ t.size := hle
  refine ⟨new, hr, (Nat.le_succ _).trans hle, ?_⟩
  have hsize : t.leave.size - s.size = t.size - (s.size + 1) + 1 := by
    change t.size - s.size = _
    omega
  rw [hsize, List.range'_succ]
  exact hperm.cons s.size

end Takes

end Scope

lemma Expr.takes_listWithSlots {es : List (Expr String)}
    (h : ∀ e ∈ es, ∀ s : Scope, s.Takes [] (e.withSlots s).2) (s : Scope) :
    s.Takes [] (Expr.listWithSlots es s).2 := by
  induction es generalizing s with
  | nil => exact .refl s
  | cons e es ih =>
    obtain ⟨he, hes⟩ := List.forall_mem_cons.mp h
    exact (he s).trans (ih hes _)

lemma Expr.takes_withSlots (e : Expr String) (s : Scope) : s.Takes [] (e.withSlots s).2 := by
  induction e generalizing s with
  | literal v => exact .refl s
  | var x => exact .slot s x
  | ifElse c a b hc ha hb => exact ((hc s).trans (ha _)).trans (hb _)
  | apply _ es hes | call _ es hes => exact Expr.takes_listWithSlots hes s

/-- A statement takes one slot for each of its blocks and one for each name that is new. -/
lemma Stmt.takes_withSlots (st : Stmt String) (s : Scope) :
    s.Takes (st.withSlots s).1.blocks (st.withSlots s).2 := by
  have hexpr {s t : Scope} {ns : List Nat} (e : Expr String)
      (h : (e.withSlots s).2.Takes ns t) : s.Takes ns t := (e.takes_withSlots s).trans h
  induction st generalizing s with
  | skip => exact .refl s
  | block x a ha => exact (ha (s.enter x)).block
  | assign x e => exact hexpr e (.slot _ x)
  | print e | ret e => exact e.takes_withSlots s
  | seq a b ha hb => exact (ha s).trans (hb _)
  | ifElse c a b ha hb => exact hexpr c ((ha _).trans (hb _))
  | ifThen c a ha | whileDo c a ha => exact hexpr c (ha _)
  | repeatUntil a c ha =>
    have h := (ha s).trans (c.takes_withSlots (a.withSlots s).2)
    rwa [List.append_nil] at h
  | call f es => exact Expr.takes_listWithSlots (fun e _ => e.takes_withSlots) s

/-! ### Slots by binders -/

/-- What names refer to has the slots that they are bound to, and is among some binders. -/
def SlotsMatch (slot : Binder → Nat) (D : Set Binder) (bindings : List (String × Nat))
    (refers : String → Binder) : Prop :=
  ∀ x n, bindings.lookup x = some n → refers x ∈ D ∧ slot (refers x) = n

/-- The blocks from some number on have the slots of a list, and are among some binders. -/
def BlocksMatch (slot : Binder → Nat) (D : Set Binder) (number : Nat) (ns : List Nat) : Prop :=
  ∀ i n, ns[i]? = some n → Binder.block (number + i) ∈ D ∧ slot (.block (number + i)) = n

section

variable {slot : Binder → Nat} {D : Set Binder} {final : List (String × Nat)}
  {refers : String → Binder} {s : Scope}

namespace BlocksMatch

variable {number : Nat} {ns ms : List Nat}

lemma tail {n : Nat} (h : BlocksMatch slot D number (n :: ns)) :
    BlocksMatch slot D (number + 1) ns := by
  intro i m hi
  have hnext := h (i + 1) m hi
  rwa [Nat.add_assoc, Nat.add_comm 1 i]

lemma left (h : BlocksMatch slot D number (ns ++ ms)) : BlocksMatch slot D number ns := by
  intro i n hi
  have hlt : i < ns.length := (List.getElem?_eq_some_iff.mp hi).1
  exact h i n (by rw [List.getElem?_append_left hlt, hi])

lemma right (h : BlocksMatch slot D number (ns ++ ms)) {k : Nat} (hk : ns.length = k) :
    BlocksMatch slot D (number + k) ms := by
  subst hk
  intro i n hi
  rw [Nat.add_assoc]
  refine h (ns.length + i) n ?_
  rw [List.getElem?_append_right (Nat.le_add_right _ _), Nat.add_sub_cancel_left, hi]

end BlocksMatch

lemma Expr.listWithSlots_eq_renameAll {es : List (Expr String)}
    (hes : ∀ e ∈ es, ∀ s : Scope, (e.withSlots s).2.Extends final →
      SlotsMatch slot D (s.blocks ++ final) refers →
      (e.withSlots s).1 = (e.rename refers).rename slot ∧ ∀ b ∈ (e.rename refers).vars, b ∈ D)
    (hext : (Expr.listWithSlots es s).2.Extends final)
    (h : SlotsMatch slot D (s.blocks ++ final) refers) :
    (Expr.listWithSlots es s).1 = Expr.renameAll slot (Expr.renameAll refers es) ∧
      ∀ b ∈ Expr.varsAll (Expr.renameAll refers es), b ∈ D := by
  induction es generalizing s with
  | nil => exact ⟨rfl, by simp [Expr.renameAll, Expr.varsAll]⟩
  | cons e es ih =>
    obtain ⟨he, hes⟩ := List.forall_mem_cons.mp hes
    have hgrows := e.grows_withSlots s
    have hrest : (e.withSlots s).2.Grows (Expr.listWithSlots es (e.withSlots s).2).2 :=
      Expr.grows_listWithSlots (fun e _ => e.grows_withSlots) _
    obtain ⟨heq, hvars⟩ := he s (hrest.extended hext) h
    obtain ⟨heqs, hvarss⟩ := ih hes hext (hgrows.blocks ▸ h)
    simp only [Expr.listWithSlots, Expr.renameAll, Expr.varsAll, List.forall_mem_append]
    exact ⟨by rw [heq, heqs], hvars, hvarss⟩

/-- In an expression, slots stand for what the names refer to. -/
lemma Expr.withSlots_eq_rename (e : Expr String) (hext : (e.withSlots s).2.Extends final)
    (h : SlotsMatch slot D (s.blocks ++ final) refers) :
    (e.withSlots s).1 = (e.rename refers).rename slot ∧ ∀ b ∈ (e.rename refers).vars, b ∈ D := by
  induction e generalizing s with
  | literal v => exact ⟨rfl, by simp [rename, vars]⟩
  | var x =>
    obtain ⟨hmem, heq⟩ := h x _ (Scope.lookup_slot hext)
    refine ⟨?_, List.forall_mem_singleton.mpr hmem⟩
    simp only [withSlots, rename, heq]
  | ifElse c a b hc ha hb =>
    have hgc := c.grows_withSlots s
    have hga := a.grows_withSlots (c.withSlots s).2
    have hgb := b.grows_withSlots (a.withSlots (c.withSlots s).2).2
    obtain ⟨hceq, hcvars⟩ := hc ((hga.trans hgb).extended hext) h
    obtain ⟨haeq, havars⟩ := ha (hgb.extended hext) (hgc.blocks ▸ h)
    obtain ⟨hbeq, hbvars⟩ := hb hext ((hgc.trans hga).blocks ▸ h)
    simp only [withSlots, rename, vars, List.forall_mem_append]
    exact ⟨by rw [hceq, haeq, hbeq], ⟨hcvars, havars⟩, hbvars⟩
  | apply p es hes =>
    obtain ⟨heq, hvars⟩ := listWithSlots_eq_renameAll (fun e he s => hes e he) hext h
    exact ⟨by simp only [withSlots, rename, heq], hvars⟩
  | call f es hes =>
    obtain ⟨heq, hvars⟩ := listWithSlots_eq_renameAll (fun e he s => hes e he) hext h
    exact ⟨by simp only [withSlots, rename, heq], hvars⟩

lemma Stmt.length_blocks_withSlots (st : Stmt String) (s : Scope) :
    (st.withSlots s).1.blocks.length = st.blocks.length := by
  induction st generalizing s with
  | block x a ha => simp only [withSlots, blocks, List.length_cons, ha]
  | seq a b ha hb => simp only [withSlots, blocks, List.length_append, ha, hb]
  | ifElse c a b ha hb => simp only [withSlots, blocks, List.length_append, ha, hb]
  | ifThen c a ha | whileDo c a ha => exact ha _
  | repeatUntil a c ha => exact ha s
  | _ => rfl

lemma Expr.forall_reads {e : Expr Binder} (h : ∀ b ∈ e.vars, b ∈ D) :
    ∀ m ∈ e.reads, m.name ∈ D :=
  List.forall_mem_map.mpr h

/-- A block hides what its name referred to, and nothing else. -/
lemma SlotsMatch.enter {x : String} {number : Nat} {bindings : List (String × Nat)} {n : Nat}
    (h : SlotsMatch slot D bindings refers)
    (hblock : Binder.block number ∈ D ∧ slot (.block number) = n) :
    SlotsMatch slot D ((x, n) :: bindings) (Function.update refers x (.block number)) := by
  intro y m hy
  rw [List.lookup_cons] at hy
  by_cases hxy : y = x
  · subst hxy
    simp only [beq_self_eq_true, Option.some.injEq] at hy
    rw [Function.update_self, ← hy]
    exact hblock
  · simp only [beq_eq_false_iff_ne.mpr hxy] at hy
    rw [Function.update_of_ne hxy]
    exact h y m hy

/-- In a statement, slots stand for what the names refer to. -/
lemma Stmt.withSlots_eq_rename (st : Stmt String) {number : Nat}
    (hext : (st.withSlots s).2.Extends final) (h : SlotsMatch slot D (s.blocks ++ final) refers)
    (hblocks : BlocksMatch slot D number (st.withSlots s).1.blocks) :
    (st.withSlots s).1 = (st.bound refers number).rename slot ∧
      ∀ m ∈ (st.bound refers number).accesses, m.name ∈ D := by
  induction st generalizing s refers number with
  | skip => exact ⟨rfl, by simp [bound, accesses]⟩
  | block x a ha =>
    have hblock : Binder.block number ∈ D ∧ slot (.block number) = s.size := hblocks 0 s.size rfl
    obtain ⟨heq, hall⟩ := ha (s := s.enter x) hext (h.enter hblock) hblocks.tail
    refine ⟨?_, List.forall_mem_cons.mpr ⟨hblock.1, hall⟩⟩
    simp only [withSlots, bound, rename, heq, hblock.2]
  | assign x e =>
    obtain ⟨heq, hvars⟩ := e.withSlots_eq_rename ((Scope.grows_slot _ x).extended hext) h
    obtain ⟨hmem, hslot⟩ := h x _ ((e.grows_withSlots s).blocks ▸ Scope.lookup_slot hext)
    simp only [withSlots, bound, rename, accesses, List.forall_mem_append,
      List.forall_mem_singleton]
    exact ⟨by rw [heq, hslot], Expr.forall_reads hvars, hmem⟩
  | print e | ret e =>
    obtain ⟨heq, hvars⟩ := e.withSlots_eq_rename hext h
    exact ⟨by simp only [withSlots, bound, rename, heq], Expr.forall_reads hvars⟩
  | seq a b ha hb =>
    have hga := a.grows_withSlots s
    have hgb := b.grows_withSlots (a.withSlots s).2
    obtain ⟨haeq, haall⟩ := ha (hgb.extended hext) h hblocks.left
    obtain ⟨hbeq, hball⟩ := hb hext (hga.blocks ▸ h) (hblocks.right (a.length_blocks_withSlots s))
    simp only [withSlots, bound, rename, accesses, List.forall_mem_append]
    exact ⟨by rw [haeq, hbeq], haall, hball⟩
  | ifElse c a b ha hb =>
    have hgc := c.grows_withSlots s
    have hga := a.grows_withSlots (c.withSlots s).2
    have hgb := b.grows_withSlots (a.withSlots (c.withSlots s).2).2
    obtain ⟨hceq, hcvars⟩ := c.withSlots_eq_rename ((hga.trans hgb).extended hext) h
    obtain ⟨haeq, haall⟩ := ha (hgb.extended hext) (hgc.blocks ▸ h) hblocks.left
    obtain ⟨hbeq, hball⟩ := hb hext ((hgc.trans hga).blocks ▸ h)
      (hblocks.right (a.length_blocks_withSlots _))
    simp only [withSlots, bound, rename, accesses, List.forall_mem_append]
    exact ⟨by rw [hceq, haeq, hbeq], ⟨Expr.forall_reads hcvars, haall⟩, hball⟩
  | ifThen c a ha | whileDo c a ha =>
    have hgc := c.grows_withSlots s
    have hga := a.grows_withSlots (c.withSlots s).2
    obtain ⟨hceq, hcvars⟩ := c.withSlots_eq_rename (hga.extended hext) h
    obtain ⟨haeq, haall⟩ := ha hext (hgc.blocks ▸ h) hblocks
    simp only [withSlots, bound, rename, accesses, List.forall_mem_append]
    exact ⟨by rw [hceq, haeq], Expr.forall_reads hcvars, haall⟩
  | repeatUntil a c ha =>
    have hga := a.grows_withSlots s
    have hgc := c.grows_withSlots (a.withSlots s).2
    obtain ⟨haeq, haall⟩ := ha (hgc.extended hext) h hblocks
    obtain ⟨hceq, hcvars⟩ := c.withSlots_eq_rename hext (hga.blocks ▸ h)
    simp only [withSlots, bound, rename, accesses, List.forall_mem_append]
    exact ⟨by rw [haeq, hceq], haall, Expr.forall_reads hcvars⟩
  | call f es =>
    obtain ⟨heq, hvars⟩ :=
      Expr.listWithSlots_eq_renameAll (fun e _ s => e.withSlots_eq_rename) hext h
    exact ⟨by simp only [withSlots, bound, rename, heq], List.forall_mem_map.mpr hvars⟩

end

/-! ### The slots of a routine -/

lemma Scope.foldl_bind_eq (formals : List String) (s : Scope) :
    formals.foldl bind s =
      ⟨s.blocks, (formals.zipIdx s.size).reverse ++ s.routine, s.size + formals.length⟩ := by
  induction formals generalizing s with
  | nil => rfl
  | cons x formals ih =>
    rw [List.foldl_cons, ih, List.zipIdx_cons, List.reverse_cons, List.append_assoc,
      List.length_cons, Nat.add_comm formals.length 1, ← Nat.add_assoc]
    rfl

/-- The slots of formals are their positions. -/
lemma Scope.ofFormals_eq (formals : List String) :
    Scope.ofFormals formals = ⟨[], formals.zipIdx.reverse, formals.length⟩ := by
  rw [ofFormals, foldl_bind_eq]
  simp [empty]

namespace Binder

/-- The slots of binders, given those of the blocks and of the names that are not declared. -/
def slotIn (blocks : List Nat) (names : List (String × Nat)) : Binder → Nat
  | .block i => blocks.getD i 0
  | .formal i => i
  | .undeclared x => (names.lookup x).getD 0

/-- The binders that have slots. -/
def HasSlot (formals : List String) (blocks : List Nat) (names : List (String × Nat)) :
    Binder → Prop
  | .block i => i < blocks.length
  | .formal i => i < formals.length
  | .undeclared x => ∃ n, names.lookup x = some n

/-- All binders that have slots, each with its own. -/
def slotTable (formals : List String) (blocks : List Nat) (names : List (String × Nat)) :
    List (Binder × Nat) :=
  (List.range formals.length).map (fun i => (.formal i, i)) ++
    (blocks.zipIdx.map fun (n, i) => (.block i, n)) ++
    names.map fun (x, n) => (.undeclared x, n)

variable {formals : List String} {blocks : List Nat} {names : List (String × Nat)}

lemma mem_slotTable {b : Binder} (h : b.HasSlot formals blocks names) :
    (b, b.slotIn blocks names) ∈ slotTable formals blocks names := by
  simp only [slotTable, List.mem_append, List.mem_map]
  cases b with
  | block i =>
    have hlt : i < blocks.length := h
    refine .inl (.inr ⟨(blocks[i], i), ?_, by simp [slotIn, hlt]⟩)
    rw [List.mk_mem_zipIdx_iff_getElem?, List.getElem?_eq_getElem hlt]
  | formal i => exact .inl (.inl ⟨i, List.mem_range.mpr h, rfl⟩)
  | undeclared x =>
    obtain ⟨n, hn⟩ := h
    exact .inr ⟨(x, n), Bindings.Agrees.mem_of_lookup hn, by simp [slotIn, hn]⟩

lemma map_snd_slotTable : (slotTable formals blocks names).map Prod.snd =
    List.range formals.length ++ blocks ++ names.map Prod.snd := by
  simp [slotTable, Function.comp_def]

/-- Different binders have different slots if no slot is taken twice. -/
lemma injOn_slotIn
    (h : (List.range formals.length ++ blocks ++ names.map Prod.snd).Nodup) :
    Set.InjOn (slotIn blocks names) {b | b.HasSlot formals blocks names} := by
  intro b hb c hc heq
  rw [← map_snd_slotTable] at h
  have hpair := List.inj_on_of_nodup_map h (mem_slotTable hb) (mem_slotTable hc) heq
  exact (Prod.mk.inj hpair).1

/-- Outside of all blocks names refer to what they are bound to, if a name is bound by a routine
only where it is not a formal. -/
lemma slotsMatch_outermost (hnames : ∀ p ∈ names, formals.zipIdx.reverse.lookup p.1 = none) :
    SlotsMatch (slotIn blocks names) {b | b.HasSlot formals blocks names}
      (names ++ formals.zipIdx.reverse) (outermost formals) := by
  intro x n hx
  rw [List.lookup_append] at hx
  unfold outermost
  cases hname : names.lookup x with
  | some m =>
    rw [hname, Option.some_or] at hx
    rw [hnames (x, m) (Bindings.Agrees.mem_of_lookup hname)]
    exact ⟨⟨m, hname⟩, by simpa [slotIn, hname] using hx⟩
  | none =>
    rw [hname, Option.none_or] at hx
    have hmem := List.mem_reverse.mp (Bindings.Agrees.mem_of_lookup hx)
    rw [List.mk_mem_zipIdx_iff_getElem?] at hmem
    rw [hx]
    exact ⟨(List.getElem?_eq_some_iff.mp hmem).1, rfl⟩

lemma blocksMatch_slotIn : BlocksMatch (slotIn blocks names)
    {b | b.HasSlot formals blocks names} 0 blocks := by
  intro i n hi
  rw [Nat.zero_add]
  exact ⟨(List.getElem?_eq_some_iff.mp hi).1, by simp [slotIn, hi]⟩

end Binder

/-- The variables of a routine: its formals, whether or not they are mentioned, and what its body
mentions. -/
def routineVariables (arity : Nat) (body : Stmt Binder) : Set Binder :=
  {b | (∃ i < arity, b = .formal i) ∨ ∃ m ∈ body.accesses, m.name = b}

/-- The slots of a routine. The formals have the first ones, and the blocks and some names that
are not declared have the others; the body has the slots of what its names refer to. -/
structure Stmt.SlotsTaken (formals : List String) (body : Stmt String)
    (names : List (String × Nat)) : Prop where
  routine : (body.withSlots (.ofFormals formals)).2.routine = names ++ formals.zipIdx.reverse
  undeclared : ∀ p ∈ names, formals.zipIdx.reverse.lookup p.1 = none
  slots : (List.range formals.length ++ (body.withSlots (.ofFormals formals)).1.blocks ++
    names.map Prod.snd).Perm (List.range (body.withSlots (.ofFormals formals)).2.size)
  tree : (body.withSlots (.ofFormals formals)).1 = (body.resolved formals).rename
    (Binder.slotIn (body.withSlots (.ofFormals formals)).1.blocks names)
  bound : ∀ m ∈ (body.resolved formals).accesses,
    m.name.HasSlot formals (body.withSlots (.ofFormals formals)).1.blocks names

lemma Stmt.exists_slotsTaken (formals : List String) (body : Stmt String) :
    ∃ names, body.SlotsTaken formals names := by
  have hblocks : (Scope.ofFormals formals).blocks = [] := by rw [Scope.ofFormals_eq]
  have hformals : (Scope.ofFormals formals).routine = formals.zipIdx.reverse := by
    rw [Scope.ofFormals_eq]
  have hsize : (Scope.ofFormals formals).size = formals.length := by rw [Scope.ofFormals_eq]
  obtain ⟨names, hroutine, hle, hperm⟩ := body.takes_withSlots (.ofFormals formals)
  obtain ⟨names', hroutine', hnames⟩ := (body.grows_withSlots (.ofFormals formals)).routine
  obtain rfl : names' = names := List.append_cancel_right (hroutine'.symm.trans hroutine)
  rw [hformals] at hroutine hnames
  have hundeclared : ∀ p ∈ names', formals.zipIdx.reverse.lookup p.1 = none :=
    fun p hp => (hnames p hp).2
  have hmatch : SlotsMatch
      (Binder.slotIn (body.withSlots (.ofFormals formals)).1.blocks names')
      {b | b.HasSlot formals (body.withSlots (.ofFormals formals)).1.blocks names'}
      ((Scope.ofFormals formals).blocks ++ (body.withSlots (.ofFormals formals)).2.routine)
      (.outermost formals) := by
    rw [hroutine, hblocks]
    exact Binder.slotsMatch_outermost hundeclared
  obtain ⟨htree, hbound⟩ := body.withSlots_eq_rename (.self _) hmatch Binder.blocksMatch_slotIn
  refine ⟨names', hroutine, hundeclared, ?_, htree, hbound⟩
  rw [hsize] at hle hperm
  obtain ⟨k, hk⟩ := Nat.exists_eq_add_of_le hle
  rw [hk, Nat.add_sub_cancel_left] at hperm
  have hrange : List.range (formals.length + k) =
      List.range formals.length ++ List.range' formals.length k := by
    rw [List.range_eq_range', List.range_eq_range', ← List.range'_append_1, Nat.zero_add]
  rw [hk, hrange, List.append_assoc]
  exact hperm.append_left _

/-- The variables of a routine have slots, different ones, and a formal has its position. -/
lemma Stmt.exists_slots (formals : List String) (body : Stmt String) :
    ∃ slot : Binder → Nat,
      (body.withSlots (.ofFormals formals)).1 = (body.resolved formals).rename slot ∧
        (∀ i < formals.length, slot (.formal i) = i) ∧
        Set.InjOn slot (routineVariables formals.length (body.resolved formals)) := by
  obtain ⟨names, h⟩ := body.exists_slotsTaken formals
  refine ⟨_, h.tree, fun i _ => rfl, ?_⟩
  refine (Binder.injOn_slotIn (h.slots.nodup_iff.mpr List.nodup_range)).mono ?_
  rintro b (⟨i, hi, rfl⟩ | ⟨m, hm, rfl⟩)
  · exact hi
  · exact h.bound m hm

/-! ### Blocks -/

lemma Stmt.PartOf.rename {ν μ : Type} {x st : Stmt ν} (h : x.PartOf st) (f : ν → μ) :
    (x.rename f).PartOf (st.rename f) := by
  induction h with
  | self => exact .self
  | block _ ih => exact .block ih
  | first _ ih => exact .first ih
  | second _ ih => exact .second ih
  | thenBranch _ ih => exact .thenBranch ih
  | elseBranch _ ih => exact .elseBranch ih
  | ifThen _ ih => exact .ifThen ih
  | whileDo _ ih => exact .whileDo ih
  | repeatUntil _ ih => exact .repeatUntil ih

lemma Stmt.blocks_bound (st : Stmt String) (refers : String → Binder) (number : Nat) :
    (st.bound refers number).blocks = (List.range' number st.blocks.length).map .block := by
  induction st generalizing refers number with
  | block x a ha =>
    rw [bound, blocks, blocks, ha, List.length_cons, List.range'_succ, List.map_cons]
  | seq a b ha hb | ifElse c a b ha hb =>
    rw [bound, blocks, blocks, ha, hb, List.length_append, ← List.range'_append_1, List.map_append]
  | ifThen c a ha | whileDo c a ha => exact ha refers number
  | repeatUntil a c ha => exact ha refers number
  | _ => rfl

lemma Stmt.write_mem_accesses {ν : Type} {st : Stmt ν} {x : ν} (h : x ∈ st.blocks) :
    .write x ∈ st.accesses := by
  induction st with
  | block y a ha =>
    rcases List.mem_cons.mp h with rfl | h
    · exact List.mem_cons_self
    · exact List.mem_cons_of_mem _ (ha h)
  | seq a b ha hb | ifElse c a b ha hb =>
    simp only [accesses, List.mem_append]
    rcases List.mem_append.mp h with h | h
    · simp [ha h]
    · simp [hb h]
  | ifThen c a ha | whileDo c a ha => exact List.mem_append_right _ (ha h)
  | repeatUntil a c ha => exact List.mem_append_left _ (ha h)
  | _ => cases h

/-- What was bound before a statement is bound to the same slot after it. -/
lemma Scope.Grows.find?_eq {s t : Scope} (h : s.Grows t) {x : String} {n : Nat}
    (hx : s.find? x = some n) : t.find? x = some n := by
  obtain ⟨new, hroutine, hnew⟩ := h.routine
  rw [find?, List.lookup_append] at hx ⊢
  rw [h.blocks, hroutine, List.lookup_append]
  cases hb : s.blocks.lookup x with
  | some m =>
    rw [hb] at hx
    exact hx
  | none =>
    rw [hb, Option.none_or] at hx
    rw [Option.none_or, lookup_new hnew hx, Option.none_or, hx]

/-- The code of a routine has the variables of its body in slots. -/
structure KeepsVariables (config : Config) (arity : Nat) (body : Stmt Binder) (code : List Line)
    (slot : Binder → Nat) : Prop where
  /-- Each mention of a variable is an access to the slot of what the name refers to. -/
  accesses : slotAccesses code = body.accesses.map (.map slot)
  /-- Variables are the same if and only if their slots are. -/
  distinct : ∀ b ∈ routineVariables arity body, ∀ c ∈ routineVariables arity body,
    slot b = slot c ↔ b = c
  formals : ∀ i < arity, slot (.formal i) = i
  /-- No two blocks have the same slot. -/
  blocks : (body.blocks.map slot).Nodup
  /-- The code of a block stores zero in its slot before the code of its body, and no branch from
  outside goes past this. -/
  zeroed : ∀ b a, (Stmt.block b a).PartOf body →
    ∃ (before after : List Line) (label : Nat),
      code = before ++
        ([Line.instr (config.backend.loadConstant 0 0),
            Line.instr (config.backend.storeVariable 0 (slot b))] ++
          (a.rename slot).emit config label) ++ after ∧
        ∀ l ∈ Assembly.labels ((a.rename slot).emit config label),
          Mark.target l ∉ outline (before ++ after)

/-- The code of a block in the code of a statement. -/
lemma Stmt.PlacedIn.zeroed {config : Config} {n : Nat} {a st : Stmt Nat}
    (h : (Stmt.block n a).PlacedIn config st) :
    ∃ (before after : List Line) (label : Nat),
      st.emit config 0 = before ++
        ([Line.instr (config.backend.loadConstant 0 0),
            Line.instr (config.backend.storeVariable 0 n)] ++ a.emit config label) ++ after ∧
        ∀ l ∈ Assembly.labels (a.emit config label), Mark.target l ∉ outline (before ++ after) := by
  obtain ⟨before, after, label, heq, -, -, hout⟩ := h 0
  refine ⟨before, after, label, heq, ?_⟩
  intro l hl htarget
  rw [labels_eq_definedLabels, Stmt.outline_emit] at hl
  obtain ⟨w, k, -, rfl, hfirst, hlast⟩ := (a.numbered_marks label).numbers l hl
  obtain ⟨w', k', heq', hk'⟩ := hout _ htarget
  have hnumber := number_eq_of_numberedLabel_eq heq'
  simp only [Stmt.labelCount] at hk'
  omega

/-- More code without accesses and branches can follow. -/
lemma KeepsVariables.append {config : Config} {arity : Nat} {body : Stmt Binder} {code : List Line}
    {slot : Binder → Nat} (h : KeepsVariables config arity body code slot) {rest : List Line}
    (haccesses : slotAccesses rest = []) (hbranches : outline rest = []) :
    KeepsVariables config arity body (code ++ rest) slot := by
  refine ⟨?_, h.distinct, h.formals, h.blocks, ?_⟩
  · rw [slotAccesses_append, haccesses, List.append_nil]
    exact h.accesses
  · intro b a hpart
    obtain ⟨before, after, label, heq, hout⟩ := h.zeroed b a hpart
    refine ⟨before, after ++ rest, label, by rw [heq]; simp, ?_⟩
    rw [← List.append_assoc, outline_append, hbranches, List.append_nil]
    exact hout

/-- The code of a body, with the slots of its variables. -/
lemma Stmt.exists_keepsVariables (config : Config) (formals : List String) (body : Stmt String) :
    ∃ slot, KeepsVariables config formals.length (body.resolved formals)
      ((body.withSlots (.ofFormals formals)).1.emit config 0) slot := by
  obtain ⟨slot, heq, hformals, hinj⟩ := body.exists_slots formals
  refine ⟨slot, ?_, fun b hb c hc => hinj.eq_iff hb hc, hformals, ?_, ?_⟩
  · rw [Stmt.slotAccesses_emit, heq, Stmt.accesses_rename]
  · refine List.Nodup.map_on ?_ ?_
    · intro b hb c hc
      exact hinj (.inr ⟨_, Stmt.write_mem_accesses hb, rfl⟩)
        (.inr ⟨_, Stmt.write_mem_accesses hc, rfl⟩)
    · rw [Stmt.resolved, Stmt.blocks_bound]
      exact (List.nodup_range' 1).map fun _ _ => Binder.block.inj
  · intro b a hpart
    rw [heq]
    exact ((hpart.rename slot).placedIn config).zeroed

namespace Program

/-- Names are resolved lexically in compiled programs. In every routine each variable has a slot:
a read or an assignment accesses the slot of what its name refers to, the innermost block around
it that declares the name, the last formal of that name or a variable of the routine, and these
have different slots. The slot of a formal is its position, and a block starts by storing zero in
its slot. A statement leaves the blocks of a scope as they were, and names bound to their slots. -/
theorem variables_resolved_lexically {p : Program} {config : Config} {a : Assembly}
    (hc : p.compile config = .ok a) :
    List.Forall₂ (fun q r => ∃ slot,
        KeepsVariables config q.formals.length (q.body.resolved q.formals) r.code slot)
      p.procedures a.procedures ∧
    (∃ slot, KeepsVariables config 0 (p.main.resolved []) a.main.code slot) ∧
    ∀ (st : Stmt String) (s : Scope), (st.withSlots s).2.blocks = s.blocks ∧
      ∀ x n, s.find? x = some n → (st.withSlots s).2.find? x = some n := by
  obtain ⟨-, rfl⟩ := compile_eq_ok_iff.mp hc
  refine ⟨?_, p.main.exists_keepsVariables config [], fun st s => ?_⟩
  · rw [List.forall₂_map_right_iff, List.forall₂_same]
    intro q _
    obtain ⟨slot, h⟩ := q.body.exists_keepsVariables config q.formals
    refine ⟨slot, ?_⟩
    change KeepsVariables _ _ _ (withReturn config _) slot
    unfold withReturn
    split
    · exact h
    · exact h.append (by simp) (by simp)
  · have hgrows := st.grows_withSlots s
    exact ⟨hgrows.blocks, fun x n hx => hgrows.find?_eq hx⟩

/-- Two formals of one name, hidden by a block in which a name occurs that is not declared, and
blocks of one name inside and beside each other. -/
def shadows : Program where
  source := "shadows"
  procedures :=
    [⟨"f", ["x", "x"], .seq (.block "x" (.assign "y" (.var "x")))
      (.ret (.apply .plus [.var "x", .var "y"]))⟩]
  main :=
    .seq (.block "a" (.seq (.block "a" (.assign "b" (.var "a"))) (.print (.var "a"))))
      (.seq (.block "a" (.print (.var "b"))) (.assign "a" (.call "f" [.literal 1, .var "a"])))

theorem shadows_resolved_lexically :
    ∃ a, shadows.compile .default = .ok a ∧
      List.Forall₂ (fun q r => ∃ slot,
          KeepsVariables .default q.formals.length (q.body.resolved q.formals) r.code slot ∧
          (q.body.resolved q.formals).accesses =
            [.write (.block 0), .read (.block 0), .write (.undeclared "y"), .read (.formal 1),
              .read (.undeclared "y")] ∧
          slotAccesses r.code = [.write 2, .read 2, .write 3, .read 1, .read 3])
        shadows.procedures a.procedures ∧
      ∃ slot, KeepsVariables .default 0 (shadows.main.resolved []) a.main.code slot := by
  obtain ⟨a, hc⟩ : ∃ a, shadows.compile .default = .ok a := ⟨_, rfl⟩
  obtain ⟨hprocedures, hmain, -⟩ := variables_resolved_lexically hc
  refine ⟨a, hc, ?_, hmain⟩
  cases hc
  obtain ⟨⟨slot, h⟩, -⟩ := List.forall₂_cons.mp hprocedures
  exact .cons ⟨slot, h, rfl, rfl⟩ .nil

end Program

end Izmir
