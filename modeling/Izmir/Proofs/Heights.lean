import Izmir.Proofs.Balance
import Izmir.Proofs.Correctness

/-!
# Stack heights of compiled code

The heights of the operand stack along the code of an expression or a statement, read off its
tree. A statement begins and ends with nothing on the stack, an expression leaves its value on
top of what was there. These heights are balanced, and both branches of a conditional reach its
end with the same height.
-/

namespace Izmir

/-- How many values a location takes on the operand stack. -/
def Backend.unit : Backend → Nat
  | .stack => 1
  | .register => 0

/-- Whether a primitive that is a condition is folded into the branch that tests it. -/
def Config.folds (config : Config) (p : Primitive) : Bool :=
  config.folding && (p.reverse?.bind Condition.ofPrimitive?).isSome

/-- The height before the branch that tests the value of a condition. -/
def Config.testHeights (config : Config) (condition : Bool) (height : Nat) : List Nat :=
  if condition then [height + config.backend.unit] else []

mutual

/-- The heights before the instructions of an expression that begins at a height. The code of a
condition ends in a test. -/
def Expr.heights (config : Config) : Expr Nat → (condition : Bool) → (height : Nat) → List Nat
  | .literal _, condition, h => [h] ++ config.testHeights condition h
  | .var _, condition, h => [h] ++ config.testHeights condition h
  | .ifElse c a b, condition, h =>
    c.heights config true h ++ a.heights config false h ++ [h + config.backend.unit] ++
      b.heights config false h ++ config.testHeights condition h
  | .apply p es, condition, h =>
    Expr.heightsAll config es h ++ [h + config.backend.unit * es.length] ++
      config.testHeights (condition && !config.folds p) h
  | .call _ es, condition, h =>
    Expr.heightsAll config es h ++ [h + config.backend.unit * es.length] ++
      config.testHeights condition h

def Expr.heightsAll (config : Config) : List (Expr Nat) → (height : Nat) → List Nat
  | [], _ => []
  | e :: es, h => e.heights config false h ++ Expr.heightsAll config es (h + config.backend.unit)

end

/-- The heights before the instructions of a statement. -/
def Stmt.heights (config : Config) : Stmt Nat → List Nat
  | .skip => []
  | .block _ a => [0, config.backend.unit] ++ a.heights config
  | .assign _ e => e.heights config false 0 ++ [config.backend.unit]
  | .print e => e.heights config false 0 ++ [config.backend.unit]
  | .seq a b => a.heights config ++ b.heights config
  | .ifElse c a b => c.heights config true 0 ++ a.heights config ++ [0] ++ b.heights config
  | .ifThen c a => c.heights config true 0 ++ a.heights config
  | .whileDo c a => c.heights config true 0 ++ a.heights config ++ [0]
  | .repeatUntil a c => a.heights config ++ c.heights config true 0
  | .ret e => e.heights config false 0 ++ [config.backend.unit]
  | .call _ es =>
    Expr.heightsAll config es 0 ++ [config.backend.unit * es.length] ++
      config.backend.discard.map fun _ => config.backend.unit

/-- Some heights are those of consecutive positions. -/
def Follows (height : Nat → Nat) : (n : Nat) → List Nat → Prop
  | _, [] => True
  | n, h :: hs => height n = h ∧ Follows height (n + 1) hs

/-- Heights are balanced at each instruction of some code. -/
def BalancedCode (unit : Nat) (goes : String → Nat → Prop) (height : Nat → Nat) :
    (n : Nat) → List Line → Prop
  | _, [] => True
  | n, .label _ :: code => BalancedCode unit goes height n code
  | n, .instr i :: code =>
    i.BalancedAt unit goes height n ∧ BalancedCode unit goes height (n + 1) code

section

variable {unit : Nat} {goes : String → Nat → Prop} {height : Nat → Nat}

lemma follows_append {n : Nat} {as bs : List Nat} :
    Follows height n (as ++ bs) ↔ Follows height n as ∧ Follows height (n + as.length) bs := by
  induction as generalizing n with
  | nil => simp [Follows]
  | cons a as ih =>
    simp only [List.cons_append, Follows, ih, List.length_cons, and_assoc]
    rw [show n + (as.length + 1) = n + 1 + as.length by omega]

lemma balancedCode_append {n : Nat} {as bs : List Line} :
    BalancedCode unit goes height n (as ++ bs) ↔
      BalancedCode unit goes height n as ∧ BalancedCode unit goes height (n + codeSize as) bs := by
  induction as generalizing n with
  | nil => simp [BalancedCode]
  | cons line as ih =>
    cases line with
    | label l => simp only [List.cons_append, BalancedCode, ih, codeSize_label]
    | instr i =>
      simp only [List.cons_append, BalancedCode, ih, codeSize_instr, and_assoc]
      rw [show n + (codeSize as + 1) = n + 1 + codeSize as by omega]

end

/-! ### One height for each instruction -/

section

variable {config : Config}

lemma Purpose.condition_of_unfolded {purpose : Purpose} {p : Primitive}
    (h : purpose.folded? config p = none) :
    (purpose.isCondition && !config.folds p) = purpose.isCondition := by
  cases purpose with
  | value l => rfl
  | branchUnless label =>
    rw [folded?] at h
    unfold Config.folds isCondition
    cases hf : config.folding with
    | false => rfl
    | true =>
      rw [hf] at h
      simp [Option.map_eq_none_iff.mp h]

lemma Config.folds_of_folded {purpose : Purpose} {p : Primitive} {folded : Condition × String}
    (h : purpose.folded? config p = some folded) : config.folds p = true := by
  obtain ⟨rfl, q, hq, hc⟩ := Purpose.folded?_eq_some h
  unfold Config.folds
  cases hf : config.folding with
  | false => simp [Purpose.folded?, hf] at h
  | true => simp [hq, hc]

lemma Purpose.length_testHeights {purpose : Purpose} {next h k : Nat}
    {value : Nat → Nat → List Line} (hvalue : ∀ l next, codeSize (value l next) = k) :
    k + (config.testHeights purpose.isCondition h).length =
      codeSize (purpose.deliver config next value) := by
  cases purpose with
  | value l => simp [deliver, Config.testHeights, isCondition, hvalue]
  | branchUnless label => simp [deliver, Config.testHeights, isCondition, hvalue]

lemma Expr.length_heightsAll {es : List (Expr Nat)} {next label h : Nat}
    (hes : ∀ e ∈ es, ∀ purpose next label h, (e.heights config purpose.isCondition h).length =
      codeSize (e.emit config purpose next label)) :
    (Expr.heightsAll config es h).length = codeSize (Expr.emitAll config es next label) := by
  induction es generalizing next label h with
  | nil => rfl
  | cons e es ih =>
    obtain ⟨he, hes⟩ := List.forall_mem_cons.mp hes
    rw [Expr.heightsAll, Expr.emitAll, List.length_append, codeSize_append, ih hes,
      ← he (.value next)]
    rfl

lemma Expr.length_heights (e : Expr Nat) (purpose : Purpose) (next label h : Nat) :
    (e.heights config purpose.isCondition h).length =
      codeSize (e.emit config purpose next label) := by
  induction e generalizing purpose next label h with
  | literal v =>
    rw [Expr.heights, Expr.emit, List.length_append]
    exact Purpose.length_testHeights fun _ _ => rfl
  | var n =>
    rw [Expr.heights, Expr.emit, List.length_append]
    exact Purpose.length_testHeights fun _ _ => rfl
  | ifElse c a b hc ha hb =>
    rw [Expr.heights, Expr.emit, List.length_append]
    refine Purpose.length_testHeights fun l next => ?_
    have hc' := hc (.branchUnless (numberedLabel "else" label)) next (label + 2) h
    have ha' := ha (.value l) next (label + 2 + c.labelCount) h
    have hb' := hb (.value l) next (label + 2 + c.labelCount + a.labelCount) h
    simp only [Purpose.isCondition] at hc' ha' hb'
    simp [hc', ha', hb']
  | apply p es hes =>
    rw [Expr.heights, Expr.emit, List.length_append]
    cases hfold : purpose.folded? config p with
    | none =>
      rw [Purpose.condition_of_unfolded hfold]
      refine Purpose.length_testHeights fun l next => ?_
      rw [codeSize_append, List.length_append, ← Expr.length_heightsAll hes]
      rfl
    | some folded =>
      rw [Config.folds_of_folded hfold, Bool.not_true, Bool.and_false, codeSize_append,
        List.length_append, ← Expr.length_heightsAll hes]
      rfl
  | call f es hes =>
    rw [Expr.heights, Expr.emit, List.length_append]
    refine Purpose.length_testHeights fun l next => ?_
    rw [codeSize_append, List.length_append, ← Expr.length_heightsAll hes]
    rfl

lemma Expr.length_heights_value (config : Config) (e : Expr Nat) (l next label h : Nat) :
    (e.heights config false h).length = codeSize (e.emit config (.value l) next label) :=
  e.length_heights (.value l) next label h

lemma Expr.length_heights_branchUnless (config : Config) (e : Expr Nat) (target : String)
    (next label h : Nat) :
    (e.heights config true h).length =
      codeSize (e.emit config (.branchUnless target) next label) :=
  e.length_heights (.branchUnless target) next label h

lemma Stmt.length_heights (st : Stmt Nat) (label : Nat) :
    (st.heights config).length = codeSize (st.emit config label) := by
  have hvalue (e : Expr Nat) (next label : Nat) :
      (e.heights config false 0).length = codeSize (e.emit config (.value 0) next label) :=
    e.length_heights_value config 0 next label 0
  have hcond (e : Expr Nat) (target : String) (next label : Nat) :
      (e.heights config true 0).length =
        codeSize (e.emit config (.branchUnless target) next label) :=
    e.length_heights_branchUnless config target next label 0
  induction st generalizing label with
  | skip => rfl
  | block n a ha => simp [Stmt.heights, Stmt.emit, ha label]
  | assign n e => simp [Stmt.heights, Stmt.emit, ← hvalue]
  | print e => simp [Stmt.heights, Stmt.emit, ← hvalue]
  | seq a b ha hb => simp [Stmt.heights, Stmt.emit, ← ha, ← hb]
  | ifElse c a b ha hb => simp [Stmt.heights, Stmt.emit, ← hcond, ← ha, ← hb]
  | ifThen c a ha => simp [Stmt.heights, Stmt.emit, ← hcond, ← ha]
  | whileDo c a ha => simp [Stmt.heights, Stmt.emit, ← hcond, ← ha]
  | repeatUntil a c ha => simp [Stmt.heights, Stmt.emit, ← hcond, ← ha]
  | ret e => simp [Stmt.heights, Stmt.emit, ← hvalue]
  | call f es =>
    have hes : (Expr.heightsAll config es 0).length =
        codeSize (Expr.emitAll config es 1 label) :=
      Expr.length_heightsAll fun e _ => e.length_heights
    cases hb : config.backend <;> simp [Stmt.heights, Stmt.emit, hb, Backend.discard, hes]

end

/-! ### Instructions of a backend -/

namespace Instr.BalancedAt

variable {τ κ δ : Type} {i : Instr τ κ δ} {unit : Nat} {goes : τ → Nat → Prop}
  {height : Nat → Nat} {n h : Nat}

lemma straight (htarget : i.target? = none) (hret : i.isReturn = false)
    (hcall : ∀ c, i.call? = some c → i.pushes = unit)
    (hbefore : height n = h + i.pops) (hafter : height (n + 1) = h + i.pushes) :
    i.BalancedAt unit goes height n where
  pops := by omega
  next := fun _ => by omega
  jump := by simp [htarget]
  call := hcall
  ret := by simp [hret]

lemma branch {l : τ} (hgoes : ∀ m, goes l m → height m = height n) :
    (Instr.branch l : Instr τ κ δ).BalancedAt unit goes height n where
  pops := Nat.zero_le _
  next := nofun
  jump := by
    rintro t m ⟨⟩ hm
    exact hgoes m hm
  call := nofun
  ret := nofun

end Instr.BalancedAt

namespace Backend

variable {b : Backend} {goes : String → Nat → Prop} {height : Nat → Nat} {n h : Nat}

lemma balanced_loadConstant {v : Value} {l : Nat} (hbefore : height n = h)
    (hafter : height (n + 1) = h + b.unit) :
    (b.loadConstant v l).BalancedAt b.unit goes height n := by
  cases b <;> exact .straight rfl rfl nofun hbefore hafter

lemma balanced_loadVariable {k l : Nat} (hbefore : height n = h)
    (hafter : height (n + 1) = h + b.unit) :
    (b.loadVariable k l).BalancedAt b.unit goes height n := by
  cases b <;> exact .straight rfl rfl nofun hbefore hafter

lemma balanced_storeVariable {l k : Nat} (hbefore : height n = h + b.unit)
    (hafter : height (n + 1) = h) : (b.storeVariable l k).BalancedAt b.unit goes height n := by
  cases b <;> exact .straight rfl rfl nofun hbefore hafter

lemma balanced_print {l : Nat} (hbefore : height n = h + b.unit)
    (hafter : height (n + 1) = h) : (b.print l).BalancedAt b.unit goes height n := by
  cases b <;> exact .straight rfl rfl nofun hbefore hafter

lemma balanced_apply {p : Primitive} {ls : List Nat} {l : Nat}
    (hbefore : height n = h + b.unit * p.arity) (hafter : height (n + 1) = h + b.unit) :
    (b.apply p ls l).BalancedAt b.unit goes height n := by
  unfold Backend.apply
  cases b with
  | stack => cases p <;> exact .straight rfl rfl nofun hbefore hafter
  | register =>
    rw [unit, Nat.zero_mul] at hbefore
    cases p <;> exact .straight rfl rfl nofun hbefore hafter

lemma balanced_call {f : String} {first k l : Nat} (hbefore : height n = h + b.unit * k)
    (hafter : height (n + 1) = h + b.unit) :
    (b.call f first k l).BalancedAt b.unit goes height n := by
  cases b with
  | stack =>
    rw [unit, Nat.one_mul] at hbefore
    exact .straight rfl rfl (fun _ _ => rfl) hbefore hafter
  | register =>
    rw [unit, Nat.zero_mul] at hbefore
    exact .straight rfl rfl (fun _ _ => rfl) hbefore hafter

lemma balanced_branchIf {c : Condition} {ls : List Nat} {label : String}
    (hbefore : height n = h + b.unit * c.arity) (hafter : height (n + 1) = h)
    (hgoes : ∀ m, goes label m → height m = h) :
    (b.branchIf c ls label).BalancedAt b.unit goes height n := by
  have hpops : height n = h + (b.branchIf c ls label).pops := by
    cases b with
    | stack => rwa [unit, Nat.one_mul] at hbefore
    | register => rwa [unit, Nat.zero_mul] at hbefore
  have hpushes : (b.branchIf c ls label).pushes = 0 := by cases b <;> rfl
  refine ⟨by omega, fun _ => by omega, ?_, by cases b <;> nofun, by cases b <;> nofun⟩
  intro t m ht hm
  have htarget : label = t := by cases b <;> exact Option.some.inj ht
  have hheight := hgoes m (htarget ▸ hm)
  omega

lemma balanced_ret {l : Nat} (hbefore : height n = b.unit) :
    (b.ret l).BalancedAt b.unit goes height n := by
  cases b with
  | stack => exact ⟨hbefore.ge, nofun, nofun, nofun, fun _ => hbefore⟩
  | register => exact ⟨Nat.zero_le _, nofun, nofun, nofun, fun _ => hbefore⟩

end Backend

/-! ### Expressions -/

/-- Labels stand where branches to them go. -/
def LabelsFixed (goes : String → Nat → Prop) (code : List Line) : Prop :=
  ∀ ⦃l n rest m⦄, Embeds code n (.label l :: rest) → goes l m → m = n

/-- The heights where the code of an expression is left, at a position for its end and at the
label of a branch, for an expression that begins at a height. -/
def Purpose.LeftAt (goes : String → Nat → Prop) (height : Nat → Nat) (unit h m : Nat) :
    Purpose → Prop
  | .value _ => height m = h + unit
  | .branchUnless l => height m = h ∧ ∀ k, goes l k → height k = h

/-- Some code begins at a height and is balanced. -/
structure BalancedFrom (unit : Nat) (goes : String → Nat → Prop) (height : Nat → Nat) (n h : Nat)
    (block : List Line) : Prop where
  start : height n = h
  code : BalancedCode unit goes height n block

section

variable {unit : Nat} {config : Config} {code : List Line} {goes : String → Nat → Prop}
  {height : Nat → Nat}

lemma BalancedFrom.append {n h k : Nat} {as bs : List Line}
    (ha : BalancedFrom unit goes height n h as)
    (hb : BalancedFrom unit goes height (n + codeSize as) k bs) :
    BalancedFrom unit goes height n h (as ++ bs) :=
  ⟨ha.start, balancedCode_append.mpr ⟨ha.code, hb.code⟩⟩

lemma BalancedFrom.instr {n h : Nat} {i : SymbolicInstr} (hstart : height n = h)
    (hi : i.BalancedAt unit goes height n) : BalancedFrom unit goes height n h [.instr i] :=
  ⟨hstart, hi, trivial⟩

lemma BalancedFrom.label_end {n h : Nat} {as : List Line} {l : String}
    (ha : BalancedFrom unit goes height n h as) :
    BalancedFrom unit goes height n h (as ++ [Line.label l]) :=
  ha.append (k := height (n + codeSize as)) ⟨rfl, trivial⟩

lemma codeSize_branches {n : Nat} {otherwise done : String} {cond first second : List Line} :
    n + codeSize (cond ++ first ++ [Line.instr (.branch done), Line.label otherwise] ++ second ++
      [Line.label done]) = n + codeSize cond + codeSize first + 1 + codeSize second := by
  simp
  omega

lemma Embeds.branches {n : Nat} {otherwise done : String} {cond first second : List Line}
    (he : Embeds code n (cond ++ first ++ [Line.instr (.branch done), Line.label otherwise] ++
      second ++ [Line.label done])) :
    Embeds code n cond ∧ Embeds code (n + codeSize cond) first ∧
      Embeds code (n + codeSize cond + codeSize first + 1) second := by
  refine ⟨he.left.left.left.left, he.left.left.left.right, ?_⟩
  simpa [Nat.add_assoc] using he.left.right

/-- Two branches that join at one height. -/
lemma BalancedFrom.branches (hgoes : LabelsFixed goes code) {n h k : Nat}
    {otherwise done : String} {cond first second : List Line}
    (he : Embeds code n (cond ++ first ++ [Line.instr (.branch done), Line.label otherwise] ++
      second ++ [Line.label done]))
    (hjump : height (n + codeSize cond + codeSize first) = k)
    (hend : height (n + codeSize cond + codeSize first + 1 + codeSize second) = k)
    (hcond : height (n + codeSize cond) = h → (∀ m, goes otherwise m → height m = h) →
      BalancedFrom unit goes height n h cond)
    (hfirst : BalancedFrom unit goes height (n + codeSize cond) h first)
    (hsecond : BalancedFrom unit goes height (n + codeSize cond + codeSize first + 1) h second) :
    BalancedFrom unit goes height n h
      (cond ++ first ++ [Line.instr (.branch done), Line.label otherwise] ++ second ++
        [Line.label done]) := by
  have helse := fun m => hgoes (m := m) he.left.left.right.tail_instr
  have hdone := fun m => hgoes (m := m) he.right
  simp only [codeSize_append, codeSize_instr, codeSize_label, codeSize_nil, Nat.zero_add,
    ← Nat.add_assoc] at helse hdone
  have hcond' := hcond hfirst.start fun m hm => helse m hm ▸ hsecond.start
  have hbranch : (Instr.branch done : SymbolicInstr).BalancedAt unit goes height
      (n + codeSize cond + codeSize first) :=
    .branch fun m hm => by rw [hdone m hm, hend, hjump]
  refine ⟨hcond'.start, ?_⟩
  simp only [balancedCode_append, BalancedCode, codeSize_append, codeSize_instr, codeSize_label,
    codeSize_nil, Nat.zero_add, ← Nat.add_assoc]
  exact ⟨⟨⟨⟨hcond'.code, hfirst.code⟩, hbranch, trivial⟩, hsecond.code⟩, trivial⟩

/-- What the code of an expression has to do with its heights. The height where it is left
decides the height where it begins. -/
def Expr.Balances (config : Config) (code : List Line) (goes : String → Nat → Prop)
    (height : Nat → Nat) (e : Expr Nat) : Prop :=
  ∀ ⦃purpose next label h n⦄, Embeds code n (e.emit config purpose next label) →
    Follows height n (e.heights config purpose.isCondition h) →
    purpose.LeftAt goes height config.backend.unit h
      (n + codeSize (e.emit config purpose next label)) →
    BalancedFrom config.backend.unit goes height n h (e.emit config purpose next label)

lemma Purpose.balancedFrom_deliver {purpose : Purpose} {n next h k : Nat}
    {value : Nat → Nat → List Line} (hsize : ∀ l next, codeSize (value l next) = k)
    (he : Embeds code n (purpose.deliver config next value))
    (hf : Follows height (n + k) (config.testHeights purpose.isCondition h))
    (hleft : purpose.LeftAt goes height config.backend.unit h
      (n + codeSize (purpose.deliver config next value)))
    (hvalue : ∀ l next, Embeds code n (value l next) →
      height (n + codeSize (value l next)) = h + config.backend.unit →
        BalancedFrom config.backend.unit goes height n h (value l next)) :
    BalancedFrom config.backend.unit goes height n h (purpose.deliver config next value) := by
  cases purpose with
  | value l =>
    rw [deliver] at hleft he ⊢
    exact hvalue l next he hleft
  | branchUnless l =>
    rw [deliver] at hleft he ⊢
    obtain ⟨hend, hgoes⟩ := hleft
    rw [codeSize_append, hsize, codeSize_instr, codeSize_nil] at hend
    have hend' : height (n + codeSize (value next (next + 1))) = h + config.backend.unit := by
      rw [hsize]
      exact hf.1
    refine (hvalue next (next + 1) he.left hend').append (k := h + config.backend.unit) ?_
    rw [hsize]
    refine .instr hf.1 (Backend.balanced_branchIf ?_ hend hgoes)
    rw [hf.1]
    exact congrArg (h + ·) (Nat.mul_one _).symm

lemma Expr.balancedFrom_emitAll {es : List (Expr Nat)} {n next label h : Nat}
    (hes : ∀ e ∈ es, e.Balances config code goes height)
    (he : Embeds code n (Expr.emitAll config es next label))
    (hf : Follows height n (Expr.heightsAll config es h))
    (hleft : height (n + codeSize (Expr.emitAll config es next label)) =
      h + config.backend.unit * es.length) :
    BalancedFrom config.backend.unit goes height n h (Expr.emitAll config es next label) := by
  induction es generalizing n next label h with
  | nil => exact ⟨hleft, trivial⟩
  | cons e es ih =>
    obtain ⟨hbal, hes⟩ := List.forall_mem_cons.mp hes
    rw [Expr.emitAll] at he hleft ⊢
    rw [Expr.heightsAll, follows_append,
      e.length_heights_value config next (next + 1) label] at hf
    rw [codeSize_append, ← Nat.add_assoc, List.length_cons, Nat.mul_succ] at hleft
    have hrest := ih hes he.right hf.2 (by omega)
    exact (hbal he.left hf.1 hrest.start).append hrest

/-- Operands and an instruction that takes them. -/
lemma Expr.balancedFrom_operands {es : List (Expr Nat)} {n next label h : Nat} {i : SymbolicInstr}
    (hes : ∀ e ∈ es, e.Balances config code goes height)
    (he : Embeds code n (Expr.emitAll config es next label ++ [Line.instr i]))
    (hf : Follows height n
      (Expr.heightsAll config es h ++ [h + config.backend.unit * es.length]))
    (hi : height (n + codeSize (Expr.emitAll config es next label)) =
        h + config.backend.unit * es.length →
      i.BalancedAt config.backend.unit goes height
        (n + codeSize (Expr.emitAll config es next label))) :
    BalancedFrom config.backend.unit goes height n h
      (Expr.emitAll config es next label ++ [Line.instr i]) := by
  have hlen : (Expr.heightsAll config es h).length = codeSize (Expr.emitAll config es next label) :=
    Expr.length_heightsAll fun e _ => e.length_heights
  rw [follows_append, hlen] at hf
  obtain ⟨hoperands, htaken, -⟩ := hf
  have hall := Expr.balancedFrom_emitAll hes he.left hoperands htaken
  exact hall.append (.instr htaken (hi htaken))

/-- The code of an expression is balanced. -/
lemma Expr.balances (hgoes : LabelsFixed goes code) (e : Expr Nat) (hw : e.WellApplied) :
    e.Balances config code goes height := by
  induction e with
  | literal v =>
    intro purpose next label h n he hf hleft
    rw [Expr.emit] at he hleft ⊢
    rw [Expr.heights, follows_append] at hf
    refine Purpose.balancedFrom_deliver (fun _ _ => rfl) he hf.2 hleft fun l next _ hend => ?_
    exact .instr hf.1.1 (Backend.balanced_loadConstant hf.1.1 hend)
  | var k =>
    intro purpose next label h n he hf hleft
    rw [Expr.emit] at he hleft ⊢
    rw [Expr.heights, follows_append] at hf
    refine Purpose.balancedFrom_deliver (fun _ _ => rfl) he hf.2 hleft fun l next _ hend => ?_
    exact .instr hf.1.1 (Backend.balanced_loadVariable hf.1.1 hend)
  | ifElse c a b hc ha hb =>
    obtain ⟨hwc, hwa, hwb⟩ := hw
    intro purpose next label h n he hf hleft
    rw [Expr.emit] at he hleft ⊢
    rw [Expr.heights, follows_append] at hf
    have hcsize (next : Nat) :=
      c.length_heights_branchUnless config (numberedLabel "else" label) next (label + 2) h
    have hasize (l next : Nat) := a.length_heights_value config l next (label + 2 + c.labelCount) h
    have hbsize (l next : Nat) :=
      b.length_heights_value config l next (label + 2 + c.labelCount + a.labelCount) h
    refine Purpose.balancedFrom_deliver (fun l next => ?_) he hf.2 hleft fun l next he hend => ?_
    · simp [hcsize next, hasize l next, hbsize l next]
    · obtain ⟨hec, hea, heb⟩ := he.branches
      rw [codeSize_branches] at hend
      replace hf := hf.1
      simp only [follows_append, List.length_append, hcsize next, hasize l next,
        ← Nat.add_assoc] at hf
      obtain ⟨⟨⟨hfc, hfa⟩, hjump, -⟩, hfb⟩ := hf
      exact .branches hgoes he hjump hend (fun hthen helse => hc hwc hec hfc ⟨hthen, helse⟩)
        (ha hwa hea hfa hjump) (hb hwb heb hfb hend)
  | apply p es hes =>
    obtain ⟨harity, hw⟩ := hw
    have hes' : ∀ e ∈ es, e.Balances config code goes height := fun e he => hes e he (hw.of_mem he)
    intro purpose next label h n he hf hleft
    rw [Expr.emit] at he hleft ⊢
    rw [Expr.heights, follows_append] at hf
    cases hfold : purpose.folded? config p with
    | none =>
      simp only [hfold] at he hleft ⊢
      rw [Purpose.condition_of_unfolded hfold] at hf
      refine Purpose.balancedFrom_deliver (fun l next => ?_) he hf.2 hleft fun l next he hend => ?_
      · rw [codeSize_append, List.length_append, Expr.length_heightsAll fun e _ => e.length_heights]
        rfl
      · rw [codeSize_append] at hend
        refine Expr.balancedFrom_operands hes' he hf.1 fun htaken => ?_
        rw [harity] at htaken
        exact Backend.balanced_apply htaken hend
    | some folded =>
      obtain ⟨rfl, q, hq, hcond⟩ := Purpose.folded?_eq_some hfold
      simp only [hfold] at he hleft ⊢
      obtain ⟨hend, hgoes⟩ := hleft
      rw [codeSize_append] at hend
      refine Expr.balancedFrom_operands hes' he hf.1 fun htaken => ?_
      rw [harity, ← Primitive.arity_of_reverse? hq, Condition.arity_of_primitive? hcond] at htaken
      exact Backend.balanced_branchIf htaken hend hgoes
  | call f es hes =>
    have hes' : ∀ e ∈ es, e.Balances config code goes height := fun e he => hes e he (hw.of_mem he)
    intro purpose next label h n he hf hleft
    rw [Expr.emit] at he hleft ⊢
    rw [Expr.heights, follows_append] at hf
    refine Purpose.balancedFrom_deliver (fun l next => ?_) he hf.2 hleft fun l next he hend => ?_
    · rw [codeSize_append, List.length_append, Expr.length_heightsAll fun e _ => e.length_heights]
      rfl
    · rw [codeSize_append] at hend
      refine Expr.balancedFrom_operands hes' he hf.1 fun htaken => ?_
      exact Backend.balanced_call htaken hend

lemma Expr.heights_eq_cons (config : Config) (e : Expr Nat) (condition : Bool) (h : Nat) :
    ∃ hs, e.heights config condition h = h :: hs := by
  induction e generalizing condition h with
  | literal v => exact ⟨_, rfl⟩
  | var n => exact ⟨_, rfl⟩
  | ifElse c a b hc ha hb =>
    obtain ⟨hs, hhs⟩ := hc true h
    rw [Expr.heights, hhs]
    exact ⟨_, rfl⟩
  | apply p es hes =>
    cases es with
    | nil => exact ⟨_, rfl⟩
    | cons e es =>
      obtain ⟨hs, hhs⟩ := hes e List.mem_cons_self false h
      rw [Expr.heights, Expr.heightsAll, hhs]
      exact ⟨_, rfl⟩
  | call f es hes =>
    cases es with
    | nil => exact ⟨_, rfl⟩
    | cons e es =>
      obtain ⟨hs, hhs⟩ := hes e List.mem_cons_self false h
      rw [Expr.heights, Expr.heightsAll, hhs]
      exact ⟨_, rfl⟩

/-! ### Statements -/

/-- The positions at which a statement or one within it begins or ends. -/
def Stmt.boundaries (config : Config) (st : Stmt Nat) (label n : Nat) : List Nat :=
  [n, n + codeSize (st.emit config label)] ++
    match st with
    | .block _ a => a.boundaries config label (n + 2)
    | .seq a b =>
      a.boundaries config label n ++
        b.boundaries config (label + a.labelCount) (n + codeSize (a.emit config label))
    | .ifElse c a b =>
      let first :=
        n + codeSize (c.emit config (.branchUnless (numberedLabel "else" label)) 0 (label + 2))
      let second := first + codeSize (a.emit config (label + 2 + c.labelCount)) + 1
      a.boundaries config (label + 2 + c.labelCount) first ++
        b.boundaries config (label + 2 + c.labelCount + a.labelCount) second
    | .ifThen c a =>
      a.boundaries config (label + 1 + c.labelCount)
        (n + codeSize (c.emit config (.branchUnless (numberedLabel "end" label)) 0 (label + 1)))
    | .whileDo c a =>
      a.boundaries config (label + 2 + c.labelCount)
        (n + codeSize
          (c.emit config (.branchUnless (numberedLabel "done" (label + 1))) 0 (label + 2)))
    | .repeatUntil a _ => a.boundaries config (label + 1) n
    | _ => []

lemma Backend.balancedFrom_discard {b : Backend} {n : Nat}
    (hf : Follows height n (b.discard.map fun _ => b.unit))
    (hend : height (n + codeSize (b.discard.map .instr)) = 0) :
    BalancedFrom b.unit goes height n b.unit (b.discard.map .instr) := by
  cases b with
  | stack => exact ⟨hf.1, .straight (h := 0) rfl rfl nofun hf.1 hend, trivial⟩
  | register => exact ⟨hend, trivial⟩

/-- A value and an instruction that takes it. -/
lemma Expr.balancedFrom_value (hgoes : LabelsFixed goes code) {e : Expr Nat} (hw : e.WellApplied)
    {n label : Nat} {i : SymbolicInstr}
    (he : Embeds code n (e.emit config (.value 0) 1 label ++ [Line.instr i]))
    (hf : Follows height n (e.heights config false 0 ++ [config.backend.unit]))
    (hi : height (n + codeSize (e.emit config (.value 0) 1 label)) = config.backend.unit →
      i.BalancedAt config.backend.unit goes height
        (n + codeSize (e.emit config (.value 0) 1 label))) :
    BalancedFrom config.backend.unit goes height n 0
      (e.emit config (.value 0) 1 label ++ [Line.instr i]) := by
  rw [follows_append, e.length_heights_value config 0 1 label] at hf
  obtain ⟨hvalue, htaken, -⟩ := hf
  have hleft : height (n + codeSize (e.emit config (.value 0) 1 label)) =
      0 + config.backend.unit := htaken.trans (Nat.zero_add _).symm
  exact (e.balances hgoes hw he.left hvalue hleft).append (.instr htaken (hi htaken))

/-- The boundaries of a statement are its ends and those of the statements within. -/
lemma BalancedFrom.withEnds {n : Nat} {block : List Line} {inner : List Nat}
    (h : BalancedFrom unit goes height n 0 block) (hend : height (n + codeSize block) = 0)
    (hinner : ∀ m ∈ inner, height m = 0) :
    BalancedFrom unit goes height n 0 block ∧
      ∀ m ∈ [n, n + codeSize block] ++ inner, height m = 0 := by
  refine ⟨h, List.forall_mem_append.mpr ⟨?_, hinner⟩⟩
  exact List.forall_mem_cons.mpr ⟨h.start, List.forall_mem_singleton.mpr hend⟩

/-- The code of a statement is balanced, and nothing is on the stack between statements. -/
lemma Stmt.balanced (hgoes : LabelsFixed goes code) (st : Stmt Nat) (hw : st.WellApplied)
    {n label : Nat} (he : Embeds code n (st.emit config label))
    (hf : Follows height n (st.heights config))
    (hend : height (n + codeSize (st.emit config label)) = 0) :
    BalancedFrom config.backend.unit goes height n 0 (st.emit config label) ∧
      ∀ m ∈ st.boundaries config label n, height m = 0 := by
  -- Each case goes from the end of the code to its start: a part is left where the next begins.
  induction st generalizing n label with
  | skip => exact BalancedFrom.withEnds ⟨hend, trivial⟩ hend nofun
  | block k a ha =>
    obtain ⟨hzero, hstore, hf⟩ := hf
    have hend' := hend
    rw [Stmt.emit, codeSize_append, ← Nat.add_assoc] at hend'
    obtain ⟨hbal, hinner⟩ := ha hw he.right hf hend'
    refine BalancedFrom.withEnds (.append ⟨hzero, ?_, ?_, trivial⟩ hbal) hend hinner
    · exact Backend.balanced_loadConstant hzero (hstore.trans (Nat.zero_add _).symm)
    · exact Backend.balanced_storeVariable (hstore.trans (Nat.zero_add _).symm) hbal.start
  | assign k e =>
    have hend' := hend
    rw [Stmt.emit, codeSize_append] at hend'
    refine BalancedFrom.withEnds ?_ hend nofun
    refine Expr.balancedFrom_value hgoes hw he hf fun htaken => ?_
    exact Backend.balanced_storeVariable (htaken.trans (Nat.zero_add _).symm) hend'
  | print e =>
    have hend' := hend
    rw [Stmt.emit, codeSize_append] at hend'
    refine BalancedFrom.withEnds ?_ hend nofun
    refine Expr.balancedFrom_value hgoes hw he hf fun htaken => ?_
    exact Backend.balanced_print (htaken.trans (Nat.zero_add _).symm) hend'
  | seq a b ha hb =>
    obtain ⟨hwa, hwb⟩ := hw
    have hend' := hend
    rw [Stmt.emit, codeSize_append, ← Nat.add_assoc] at hend'
    rw [Stmt.heights, follows_append, a.length_heights label] at hf
    obtain ⟨hbalb, hinnerb⟩ := hb hwb he.right hf.2 hend'
    obtain ⟨hbala, hinnera⟩ := ha hwa he.left hf.1 hbalb.start
    exact BalancedFrom.withEnds (hbala.append hbalb) hend
      (List.forall_mem_append.mpr ⟨hinnera, hinnerb⟩)
  | ifElse c a b ha hb =>
    obtain ⟨hwc, hwa, hwb⟩ := hw
    have hend' := hend
    rw [Stmt.emit, codeSize_branches] at hend'
    obtain ⟨hec, hea, heb⟩ := Embeds.branches he
    simp only [Stmt.heights, follows_append, List.length_append, ← Nat.add_assoc,
      c.length_heights_branchUnless config (numberedLabel "else" label) 0 (label + 2),
      a.length_heights (label + 2 + c.labelCount)] at hf
    obtain ⟨⟨⟨hfc, hfa⟩, hjump, -⟩, hfb⟩ := hf
    obtain ⟨hbala, hinnera⟩ := ha hwa hea hfa hjump
    obtain ⟨hbalb, hinnerb⟩ := hb hwb heb hfb hend'
    refine BalancedFrom.withEnds ?_ hend (List.forall_mem_append.mpr ⟨hinnera, hinnerb⟩)
    exact .branches hgoes he hjump hend'
      (fun hthen helse => c.balances hgoes hwc hec hfc ⟨hthen, helse⟩) hbala hbalb
  | ifThen c a ha =>
    obtain ⟨hwc, hwa⟩ := hw
    have hend' := hend
    simp only [Stmt.emit, codeSize_append, codeSize_label, codeSize_nil, Nat.add_zero,
      ← Nat.add_assoc] at hend'
    have hdone := fun m => hgoes (m := m) he.right
    simp only [codeSize_append, ← Nat.add_assoc] at hdone
    rw [Stmt.heights, follows_append,
      c.length_heights_branchUnless config (numberedLabel "end" label) 0 (label + 1)] at hf
    obtain ⟨hbal, hinner⟩ := ha hwa he.left.right hf.2 hend'
    have hcond := c.balances hgoes hwc he.left.left hf.1
      ⟨hbal.start, fun m hm => hdone m hm ▸ hend'⟩
    exact BalancedFrom.withEnds (hcond.append hbal).label_end hend hinner
  | whileDo c a ha =>
    obtain ⟨hwc, hwa⟩ := hw
    have hend' := hend
    simp only [Stmt.emit, codeSize_append, codeSize_instr, codeSize_label, codeSize_nil,
      Nat.zero_add, ← Nat.add_assoc] at hend'
    have hagain := fun m => hgoes (m := m) he.left.left.left
    have hdone := fun m => hgoes (m := m) he.right.tail_instr
    simp only [codeSize_append, codeSize_label, codeSize_nil, Nat.zero_add,
      ← Nat.add_assoc] at hdone
    simp only [Stmt.heights, follows_append, List.length_append, ← Nat.add_assoc,
      c.length_heights_branchUnless config (numberedLabel "done" (label + 1)) 0 (label + 2),
      a.length_heights (label + 2 + c.labelCount)] at hf
    obtain ⟨⟨hfc, hfa⟩, hjump, -⟩ := hf
    have hec : Embeds code n
        (c.emit config (.branchUnless (numberedLabel "done" (label + 1))) 0 (label + 2)) :=
      he.left.left.right
    obtain ⟨hbal, hinner⟩ := ha hwa he.left.right hfa hjump
    have hcond := c.balances hgoes hwc hec hfc ⟨hbal.start, fun m hm => hdone m hm ▸ hend'⟩
    have hbranch : (Instr.branch (numberedLabel "while" label) : SymbolicInstr).BalancedAt
        config.backend.unit goes height _ :=
      .branch fun m hm => (congrArg height (hagain m hm)).trans (hcond.start.trans hjump.symm)
    refine BalancedFrom.withEnds ⟨hcond.start, ?_⟩ hend hinner
    simp only [Stmt.emit, balancedCode_append, BalancedCode, codeSize_append, codeSize_label,
      codeSize_nil, Nat.zero_add, Nat.add_zero, ← Nat.add_assoc]
    exact ⟨⟨⟨trivial, hcond.code⟩, hbal.code⟩, hbranch, trivial⟩
  | repeatUntil a c ha =>
    obtain ⟨hwa, hwc⟩ := hw
    have hend' := hend
    simp only [Stmt.emit, codeSize_append, codeSize_label, codeSize_nil, Nat.zero_add,
      ← Nat.add_assoc] at hend'
    have hagain := fun m => hgoes (m := m) he.left.left
    rw [Stmt.heights, follows_append, a.length_heights (label + 1)] at hf
    -- The jump back goes to the body, which ends where the condition begins. That height cannot
    -- come from the condition being balanced, which needs the height at the body.
    obtain ⟨hs, hhs⟩ := c.heights_eq_cons config true 0
    have hmiddle : height (n + codeSize (a.emit config (label + 1))) = 0 := by
      rw [hhs] at hf
      exact hf.2.1
    have hec : Embeds code (n + codeSize (a.emit config (label + 1)))
        (c.emit config (.branchUnless (numberedLabel "repeat" label)) 0
          (label + 1 + a.labelCount)) :=
      he.right
    obtain ⟨hbal, hinner⟩ := ha hwa he.left.right hf.1 hmiddle
    have hcond := c.balances hgoes hwc hec hf.2 ⟨hend', fun m hm => hagain m hm ▸ hbal.start⟩
    exact BalancedFrom.withEnds ⟨hbal.start, (hbal.append hcond).code⟩ hend hinner
  | ret e =>
    refine BalancedFrom.withEnds ?_ hend nofun
    refine Expr.balancedFrom_value hgoes hw he hf fun htaken => ?_
    exact Backend.balanced_ret htaken
  | call f es =>
    have hes : ∀ e ∈ es, e.Balances config code goes height := fun e he =>
      e.balances hgoes (hw.of_mem he)
    have hend' := hend
    rw [Stmt.emit, codeSize_append, ← Nat.add_assoc] at hend'
    have hsize : (Expr.heightsAll config es 0 ++ [config.backend.unit * es.length]).length =
        codeSize (Expr.emitAll config es 1 label ++
          [.instr (config.backend.call f 1 es.length 0)]) := by
      rw [codeSize_append, List.length_append, Expr.length_heightsAll fun e _ => e.length_heights]
      rfl
    rw [Stmt.heights, follows_append, hsize] at hf
    have hdiscard : BalancedFrom config.backend.unit goes height _ _ _ :=
      Backend.balancedFrom_discard hf.2 hend'
    have hcalled := hdiscard.start
    rw [codeSize_append] at hcalled
    have hcall := Expr.balancedFrom_operands (h := 0) hes he.left (by simpa using hf.1)
      fun htaken => Backend.balanced_call htaken (hcalled.trans (Nat.zero_add _).symm)
    exact BalancedFrom.withEnds (hcall.append hdiscard) hend nofun

end

end Izmir
