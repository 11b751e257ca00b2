import Izmir.Program.Parser
import Izmir.Proofs.Grammar
import Izmir.Proofs.Texts

/-!
# What the parser accepts is in the grammar

Each function of the parser takes a phrase of its construct from the head of the tokens and
returns the tree of that phrase. The functions call each other with less and less fuel, so the
proof is one induction on the fuel, with a step for each function.
-/

namespace Izmir

open Grammar

lemma Value.ofInt?_eq_some_iff {n : Int} {v : Value} : ofInt? n = some v ↔ v.toInt = n := by
  constructor
  · intro h
    unfold ofInt? at h
    split at h
    · rename_i hn
      cases h
      exact Int64.toInt_ofInt_of_le hn.1 (Int.lt_add_one_of_le hn.2)
    · cases h
  · rintro rfl
    exact v.ofInt?_toInt

namespace Parser

/-! ### Tokens -/

lemma bind_eq_some {α β γ : Type} {x : Option (α × β)} {f : α × β → Option γ} {c : γ}
    (h : x >>= f = some c) : ∃ a b, x = some (a, b) ∧ f (a, b) = some c := by
  obtain ⟨⟨a, b⟩, hx, hf⟩ := Option.bind_eq_some_iff.mp h
  exact ⟨a, b, hx, hf⟩

lemma expect_eq_some {t : Token} {ts us : List Token} (h : expect t ts = some us) :
    ts = t :: us := by
  cases ts with
  | nil => cases h
  | cons u ts =>
    rw [expect] at h
    split at h
    · rename_i hu
      cases h
      rw [hu]
    · cases h

lemma bind_expect {β : Type} {t : Token} {ts : List Token} {f : List Token → Option β} {b : β}
    (h : expect t ts >>= f = some b) : ∃ us, ts = t :: us ∧ f us = some b := by
  obtain ⟨us, hus, hf⟩ := Option.bind_eq_some_iff.mp h
  exact ⟨us, expect_eq_some hus, hf⟩

lemma comparison?_eq_some_iff {s : Symbol} {p : Primitive} :
    comparison? s = some p ↔ Comparison (.symbol s) p := by
  constructor
  · intro h
    cases s <;> cases h <;> constructor
  · rintro ⟨⟩ <;> rfl

lemma unaryOperator?_eq_some_iff {t : Token} {p : Primitive} :
    unaryOperator? t = some p ↔ UnaryOperator t p := by
  constructor
  · intro h
    unfold unaryOperator? at h
    split at h <;> cases h <;> constructor
  · rintro ⟨⟩ <;> rfl

/-! ### Expressions -/

def exprParser : ExprKind → Nat → List Token → Option (Expr String × List Token)
  | .expr => expr
  | .sum => sum
  | .product => product
  | .unary => unary
  | .operand => operand
  | .atom => atom

/-- How the parser recognises the operators of a row. -/
def chainOperator? : Chain → Token → Option Primitive
  | .sum => sumOperator?
  | .product => productOperator?

def chainRest : Chain → Nat → Expr String → List Token → Option (Expr String × List Token)
  | .sum => sumRest
  | .product => productRest

section

variable {c : Chain} {fuel : Nat} {a : Expr String} {t : Token} {ts : List Token}

lemma chainOperator?_eq_some_iff {p : Primitive} :
    chainOperator? c t = some p ↔ c.Operator t p := by
  constructor
  · intro h
    cases c with
    | sum =>
      rw [chainOperator?, sumOperator?.eq_def] at h
      split at h <;> cases h <;> constructor
    | product =>
      rw [chainOperator?, productOperator?.eq_def] at h
      split at h <;> cases h <;> constructor
  · cases c <;> (rintro ⟨⟩ <;> rfl)

/-- The first item of a row, then the rest of the row. -/
lemma exprParser_chain_succ :
    exprParser c.kind (fuel + 1) ts =
      exprParser c.item fuel ts >>= fun (a, ts) => chainRest c fuel a ts := by
  cases c with
  | sum => rw [Chain.kind, exprParser, sum]; rfl
  | product => rw [Chain.kind, exprParser, product]; rfl

lemma chainRest_nil : chainRest c (fuel + 1) a [] = some (a, []) := by
  cases c <;> rfl

lemma chainRest_of_operator {p : Primitive} (ht : c.Operator t p) :
    chainRest c (fuel + 1) a (t :: ts) =
      exprParser c.item fuel ts >>= fun (b, ts) => chainRest c fuel (.apply p [a, b]) ts := by
  have hp := chainOperator?_eq_some_iff.mpr ht
  cases c with
  | sum =>
    rw [chainOperator?] at hp
    rw [chainRest, sumRest, hp]
    rfl
  | product =>
    rw [chainOperator?] at hp
    rw [chainRest, productRest, hp]
    rfl

lemma chainRest_of_none (ht : chainOperator? c t = none) :
    chainRest c (fuel + 1) a (t :: ts) = some (a, t :: ts) := by
  cases c with
  | sum =>
    rw [chainOperator?] at ht
    rw [chainRest, sumRest, ht]
  | product =>
    rw [chainOperator?] at ht
    rw [chainRest, productRest, ht]

end

def TakesActuals (ts : List Token) (es : List (Expr String)) (rest : List Token) : Prop :=
  ∃ args : List (List Token × Expr String), (∀ a ∈ args, ExprPhrase .expr a.1 a.2) ∧
    es = args.map Prod.snd ∧ ts = Grammar.actuals args ++ rest

/-- With some fuel, whatever is taken is a phrase. -/
structure ExprSound (fuel : Nat) : Prop where
  phrase : ∀ k {ts e rest}, exprParser k fuel ts = some (e, rest) →
    ∃ us, ts = us ++ rest ∧ ExprPhrase k us e
  chainRest : ∀ c {a ts e rest}, chainRest c fuel a ts = some (e, rest) →
    ∃ us, ts = us ++ rest ∧ ∀ vs, ExprPhrase c.kind vs a → ExprPhrase c.kind (vs ++ us) e
  actuals : ∀ {ts es rest}, actuals fuel ts = some (es, rest) → TakesActuals ts es rest
  moreActuals : ∀ {ts es rest}, moreActuals fuel ts = some (es, rest) →
    es ≠ [] ∧ TakesActuals ts es rest

namespace ExprSound

variable {fuel : Nat} {ts rest : List Token} {a e : Expr String} {es : List (Expr String)}

lemma expr_succ (h : ExprSound fuel) (hp : expr (fuel + 1) ts = some (e, rest)) :
    ∃ us, ts = us ++ rest ∧ ExprPhrase .expr us e := by
  rw [expr] at hp
  obtain ⟨a, ts₁, ha, hp₁⟩ := bind_eq_some hp
  obtain ⟨us, rfl, hus⟩ := h.phrase .sum ha
  dsimp only at hp₁
  split at hp₁
  · split at hp₁
    · rename_i s vs _ p hs
      obtain ⟨b, rest', hb, hp₂⟩ := bind_eq_some hp₁
      cases hp₂
      obtain ⟨ws, rfl, hws⟩ := h.phrase .sum hb
      exact ⟨us ++ .symbol s :: ws, by simp, .compare hus (comparison?_eq_some_iff.mp hs) hws⟩
    · cases hp₁
      exact ⟨us, rfl, .sum hus⟩
  · cases hp₁
    exact ⟨us, rfl, .sum hus⟩

lemma chain_succ (h : ExprSound fuel) {c : Chain}
    (hp : exprParser c.kind (fuel + 1) ts = some (e, rest)) :
    ∃ us, ts = us ++ rest ∧ ExprPhrase c.kind us e := by
  rw [exprParser_chain_succ] at hp
  obtain ⟨a, ts₁, ha, hp₁⟩ := bind_eq_some hp
  obtain ⟨us, rfl, hus⟩ := h.phrase c.item ha
  obtain ⟨vs, rfl, hvs⟩ := h.chainRest c hp₁
  exact ⟨us ++ vs, by simp, hvs us (Chain.phrase_of_item hus)⟩

-- What is taken here is no phrase without the part of the row before it, hence the `vs`.
lemma chainRest_succ (h : ExprSound fuel) (c : Chain)
    (hp : Parser.chainRest c (fuel + 1) a ts = some (e, rest)) :
    ∃ us, ts = us ++ rest ∧ ∀ vs, ExprPhrase c.kind vs a → ExprPhrase c.kind (vs ++ us) e := by
  cases ts with
  | nil =>
    rw [chainRest_nil] at hp
    cases hp
    exact ⟨[], rfl, by simp⟩
  | cons t ts =>
    cases ht : chainOperator? c t with
    | some p =>
      have ht := chainOperator?_eq_some_iff.mp ht
      rw [chainRest_of_operator ht] at hp
      obtain ⟨b, ts₁, hb, hp₁⟩ := bind_eq_some hp
      obtain ⟨us, rfl, hus⟩ := h.phrase c.item hb
      obtain ⟨ws, rfl, hws⟩ := h.chainRest c hp₁
      refine ⟨t :: us ++ ws, by simp, fun vs hvs => ?_⟩
      simpa using hws (vs ++ t :: us) (Chain.phrase_append hvs ht hus)
    | none =>
      rw [chainRest_of_none ht] at hp
      cases hp
      exact ⟨[], rfl, by simp⟩

lemma unary_succ (h : ExprSound fuel) (hp : unary (fuel + 1) ts = some (e, rest)) :
    ∃ us, ts = us ++ rest ∧ ExprPhrase .unary us e := by
  rw [unary.eq_def] at hp
  dsimp only at hp
  split at hp
  · rename_i n ts
    obtain ⟨v, hv, hp₁⟩ := Option.bind_eq_some_iff.mp hp
    cases hp₁
    exact ⟨[.minus true, .number n], rfl, .negative (Value.ofInt?_eq_some_iff.mp hv)⟩
  · rename_i hliteral
    obtain ⟨us, rfl, hus⟩ := h.phrase .operand hp
    refine ⟨us, rfl, .operand hus ?_⟩
    rintro n vs rfl
    exact hliteral n (vs ++ rest) (by simp)

lemma operand_succ (h : ExprSound fuel) (hp : operand (fuel + 1) ts = some (e, rest)) :
    ∃ us, ts = us ++ rest ∧ ExprPhrase .operand us e := by
  cases ts with
  | nil => cases hp
  | cons t ts =>
    rw [operand] at hp
    split at hp
    · rename_i p ht
      obtain ⟨b, ts₁, hb, hp₁⟩ := bind_eq_some hp
      cases hp₁
      obtain ⟨us, rfl, hus⟩ := h.phrase .operand hb
      exact ⟨t :: us, rfl, .operate (unaryOperator?_eq_some_iff.mp ht) hus⟩
    · obtain ⟨us, hts, hus⟩ := h.phrase .atom hp
      exact ⟨us, hts, .atom hus⟩

lemma atom_succ (h : ExprSound fuel) (hp : atom (fuel + 1) ts = some (e, rest)) :
    ∃ us, ts = us ++ rest ∧ ExprPhrase .atom us e := by
  rw [atom.eq_def] at hp
  dsimp only at hp
  split at hp
  · rename_i n ts
    obtain ⟨v, hv, hp₁⟩ := Option.bind_eq_some_iff.mp hp
    cases hp₁
    exact ⟨[.number n], rfl, .number (Value.ofInt?_eq_some_iff.mp hv)⟩
  · cases hp
    exact ⟨[.keyword .true_], rfl, .true_⟩
  · cases hp
    exact ⟨[.keyword .false_], rfl, .false_⟩
  · cases hp
    exact ⟨[.keyword .input_], rfl, .input⟩
  · obtain ⟨c, ts₁, hc, hp₁⟩ := bind_eq_some hp
    obtain ⟨cs, rfl, hcs⟩ := h.phrase .expr hc
    obtain ⟨ts₁, rfl, hp₂⟩ := bind_expect hp₁
    obtain ⟨a, ts₂, ha, hp₃⟩ := bind_eq_some hp₂
    obtain ⟨as, rfl, has⟩ := h.phrase .expr ha
    obtain ⟨ts₂, rfl, hp₄⟩ := bind_expect hp₃
    obtain ⟨b, ts₃, hb, hp₅⟩ := bind_eq_some hp₄
    obtain ⟨bs, rfl, hbs⟩ := h.phrase .expr hb
    obtain ⟨ts₃, rfl, hp₆⟩ := bind_expect hp₅
    cases hp₆
    exact ⟨_, by simp, .ifElse hcs has hbs⟩
  · rename_i f ts
    obtain ⟨es, ts₁, hes, hp₁⟩ := bind_eq_some hp
    cases hp₁
    obtain ⟨args, hargs, rfl, rfl⟩ := h.actuals hes
    exact ⟨_, rfl, .call f hargs⟩
  · rename_i x ts _
    cases hp
    exact ⟨[.name x], rfl, .variable x⟩
  · obtain ⟨a, ts₁, ha, hp₁⟩ := bind_eq_some hp
    obtain ⟨as, rfl, has⟩ := h.phrase .expr ha
    obtain ⟨ts₁, rfl, hp₂⟩ := bind_expect hp₁
    cases hp₂
    exact ⟨_, by simp, .parens has⟩
  · cases hp

lemma actuals_succ (h : ExprSound fuel) (hp : Parser.actuals (fuel + 1) ts = some (es, rest)) :
    TakesActuals ts es rest := by
  rw [Parser.actuals.eq_def] at hp
  dsimp only at hp
  split at hp
  · cases hp
    exact ⟨[], by simp, rfl, rfl⟩
  · exact (h.moreActuals hp).2

lemma moreActuals_succ (h : ExprSound fuel)
    (hp : Parser.moreActuals (fuel + 1) ts = some (es, rest)) :
    es ≠ [] ∧ TakesActuals ts es rest := by
  rw [Parser.moreActuals] at hp
  obtain ⟨e, ts₁, he, hp₁⟩ := bind_eq_some hp
  obtain ⟨us, rfl, hus⟩ := h.phrase .expr he
  dsimp only at hp₁
  split at hp₁
  · obtain ⟨es, ts₁, hes, hp₂⟩ := bind_eq_some hp₁
    cases hp₂
    obtain ⟨hne, args, hargs, rfl, rfl⟩ := h.moreActuals hes
    refine ⟨List.cons_ne_nil _ _, (us, e) :: args, ?_, rfl, ?_⟩
    · exact List.forall_mem_cons.mpr ⟨hus, hargs⟩
    · cases args with
      | nil => exact absurd rfl hne
      | cons b args => simp [actuals_cons_cons]
  · cases hp₁
    refine ⟨List.cons_ne_nil _ _, [(us, e)], by simpa using hus, rfl, ?_⟩
    simp [actuals_singleton]
  · cases hp₁

end ExprSound

lemma exprSound (fuel : Nat) : ExprSound fuel := by
  induction fuel with
  | zero =>
    constructor
    · rintro (_ | _ | _ | _ | _ | _) _ _ _ ⟨⟩
    · rintro (_ | _) _ _ _ _ ⟨⟩
    · rintro _ _ _ ⟨⟩
    · rintro _ _ _ ⟨⟩
  | succ fuel ih =>
    refine ⟨?_, fun c => ih.chainRest_succ c, ih.actuals_succ, ih.moreActuals_succ⟩
    intro k ts e rest hp
    cases k with
    | expr => exact ih.expr_succ hp
    | sum => exact ih.chain_succ (c := .sum) hp
    | product => exact ih.chain_succ (c := .product) hp
    | unary => exact ih.unary_succ hp
    | operand => exact ih.operand_succ hp
    | atom => exact ih.atom_succ hp

variable {fuel : Nat} {ts rest : List Token}

lemma phrase_of_expr {e : Expr String} (hp : expr fuel ts = some (e, rest)) :
    ∃ us, ts = us ++ rest ∧ ExprPhrase .expr us e :=
  (exprSound fuel).phrase .expr hp

/-! ### Names -/

lemma names_of_names {xs : List String} (hp : names ts = some (xs, rest)) :
    ∃ us, ts = us ++ rest ∧ Names us xs := by
  fun_induction names ts generalizing xs with
  | case1 x ts ih =>
    obtain ⟨ys, ts₁, hys, hp₁⟩ := bind_eq_some hp
    cases hp₁
    obtain ⟨us, rfl, hus⟩ := ih hys
    exact ⟨_, rfl, .more x hus⟩
  | case2 x ts =>
    cases hp
    exact ⟨[.name x], rfl, .one x⟩
  | case3 => cases hp

/-! ### Statements -/

structure StmtSound (fuel : Nat) : Prop where
  statement : ∀ {ts s rest}, statement fuel ts = some (s, rest) →
    ∃ us, ts = us ++ rest ∧ StmtPhrase .statement us s
  block : ∀ {ts s rest}, block fuel ts = some (s, rest) →
    ∃ us, ts = us ++ rest ∧ StmtPhrase .block (.keyword .begin_ :: us) s
  statements : ∀ {ts ss rest}, statements fuel ts = some (ss, rest) →
    ∃ us, ts = us ++ rest ∧ Separated us ss

namespace StmtSound

variable {s : Stmt String} {ss : List (Stmt String)}

lemma statement_succ (h : StmtSound fuel) (hp : Parser.statement (fuel + 1) ts = some (s, rest)) :
    ∃ us, ts = us ++ rest ∧ StmtPhrase .statement us s := by
  rw [Parser.statement.eq_def] at hp
  dsimp only at hp
  split at hp
  · cases hp
    exact ⟨[.keyword .skip_], rfl, .skip⟩
  · obtain ⟨us, rfl, hus⟩ := h.block hp
    exact ⟨_, rfl, .block hus⟩
  · obtain ⟨c, ts₁, hc, hp₁⟩ := bind_eq_some hp
    obtain ⟨cs, rfl, hcs⟩ := phrase_of_expr hc
    obtain ⟨ts₁, rfl, hp₂⟩ := bind_expect hp₁
    obtain ⟨a, ts₂, ha, hp₃⟩ := bind_eq_some hp₂
    obtain ⟨as, rfl, has⟩ := h.statements ha
    have has := statements_iff.mpr ⟨a, has, rfl⟩
    dsimp only at hp₃
    split at hp₃
    · obtain ⟨b, ts₃, hb, hp₄⟩ := bind_eq_some hp₃
      obtain ⟨bs, rfl, hbs⟩ := h.statements hb
      have hbs := statements_iff.mpr ⟨b, hbs, rfl⟩
      obtain ⟨ts₃, rfl, hp₅⟩ := bind_expect hp₄
      cases hp₅
      exact ⟨_, by simp, .ifElse hcs has hbs⟩
    · obtain ⟨ts₃, rfl, hp₄⟩ := bind_expect hp₃
      cases hp₄
      exact ⟨_, by simp, .ifThen hcs has⟩
  · obtain ⟨c, ts₁, hc, hp₁⟩ := bind_eq_some hp
    obtain ⟨cs, rfl, hcs⟩ := phrase_of_expr hc
    obtain ⟨ts₁, rfl, hp₂⟩ := bind_expect hp₁
    obtain ⟨a, ts₂, ha, hp₃⟩ := bind_eq_some hp₂
    obtain ⟨as, rfl, has⟩ := h.statements ha
    obtain ⟨ts₂, rfl, hp₄⟩ := bind_expect hp₃
    cases hp₄
    exact ⟨_, by simp, .whileDo hcs (statements_iff.mpr ⟨a, has, rfl⟩)⟩
  · obtain ⟨a, ts₁, ha, hp₁⟩ := bind_eq_some hp
    obtain ⟨as, rfl, has⟩ := h.statements ha
    obtain ⟨ts₁, rfl, hp₂⟩ := bind_expect hp₁
    obtain ⟨c, ts₂, hc, hp₃⟩ := bind_eq_some hp₂
    cases hp₃
    obtain ⟨cs, rfl, hcs⟩ := phrase_of_expr hc
    exact ⟨_, by simp, .repeatUntil (statements_iff.mpr ⟨a, has, rfl⟩) hcs⟩
  · obtain ⟨e, ts₁, he, hp₁⟩ := bind_eq_some hp
    cases hp₁
    obtain ⟨us, rfl, hus⟩ := phrase_of_expr he
    exact ⟨_, rfl, .print hus⟩
  · obtain ⟨e, ts₁, he, hp₁⟩ := bind_eq_some hp
    cases hp₁
    obtain ⟨us, rfl, hus⟩ := phrase_of_expr he
    exact ⟨_, rfl, .ret hus⟩
  · rename_i x ts
    obtain ⟨e, ts₁, he, hp₁⟩ := bind_eq_some hp
    cases hp₁
    obtain ⟨us, rfl, hus⟩ := phrase_of_expr he
    exact ⟨_, rfl, .assign x hus⟩
  · rename_i f ts
    obtain ⟨es, ts₁, hes, hp₁⟩ := bind_eq_some hp
    cases hp₁
    obtain ⟨args, hargs, rfl, rfl⟩ := (exprSound fuel).actuals hes
    exact ⟨_, rfl, .call f hargs⟩
  · cases hp

lemma block_succ (h : StmtSound fuel) (hp : Parser.block (fuel + 1) ts = some (s, rest)) :
    ∃ us, ts = us ++ rest ∧ StmtPhrase .block (.keyword .begin_ :: us) s := by
  rw [Parser.block] at hp
  obtain ⟨xs, ts₁, hxs, hp₁⟩ := bind_eq_some hp
  obtain ⟨a, ts₂, ha, hp₂⟩ := bind_eq_some hp₁
  obtain ⟨as, rfl, has⟩ := h.statements ha
  have has := statements_iff.mpr ⟨a, has, rfl⟩
  obtain ⟨ts₂, rfl, hp₃⟩ := bind_expect hp₂
  cases hp₃
  unfold declarations at hxs
  split at hxs
  · obtain ⟨ys, us, hys, hq⟩ := bind_eq_some hxs
    obtain ⟨us, rfl, hq₁⟩ := bind_expect hq
    cases hq₁
    obtain ⟨ns, rfl, hns⟩ := names_of_names hys
    exact ⟨_, by simp, .declare hns has⟩
  · cases hxs
    exact ⟨_, by simp, .plain has⟩

lemma statements_succ (h : StmtSound fuel)
    (hp : Parser.statements (fuel + 1) ts = some (ss, rest)) :
    ∃ us, ts = us ++ rest ∧ Separated us ss := by
  rw [Parser.statements] at hp
  split at hp
  · obtain ⟨s, ts₁, hs, hp₁⟩ := bind_eq_some hp
    obtain ⟨us, rfl, hus⟩ := h.statement hs
    dsimp only at hp₁
    split at hp₁
    · obtain ⟨ss, ts₁, hss, hp₂⟩ := bind_eq_some hp₁
      cases hp₂
      obtain ⟨vs, rfl, hvs⟩ := h.statements hss
      exact ⟨_, by simp, .cons hus hvs⟩
    · cases hp₁
      exact ⟨us, rfl, .last hus⟩
  · cases hp
    exact ⟨[], rfl, .nil⟩

end StmtSound

lemma stmtSound (fuel : Nat) : StmtSound fuel := by
  induction fuel with
  | zero =>
    constructor
    · rintro _ _ _ ⟨⟩
    · rintro _ _ _ ⟨⟩
    · rintro _ _ _ ⟨⟩
  | succ fuel ih => exact ⟨ih.statement_succ, ih.block_succ, ih.statements_succ⟩

/-! ### Programs -/

lemma formals_of_formals {xs : List String} (hp : formals ts = some (xs, rest)) :
    (ts = .symbol .openParen :: .symbol .closeParen :: rest ∧ xs = []) ∨
      ∃ ns, ts = .symbol .openParen :: ns ++ .symbol .closeParen :: rest ∧ Names ns xs := by
  unfold formals at hp
  split at hp
  · cases hp
    exact .inl ⟨rfl, rfl⟩
  · obtain ⟨ys, ts₁, hys, hp₁⟩ := bind_eq_some hp
    obtain ⟨ts₁, rfl, hp₂⟩ := bind_expect hp₁
    cases hp₂
    obtain ⟨ns, rfl, hns⟩ := names_of_names hys
    exact .inr ⟨ns, rfl, hns⟩
  · cases hp

lemma phrases_of_procedures {ps : List Procedure} (hp : procedures fuel ts = some (ps, rest)) :
    ∃ qs : List (List Token × Procedure), (∀ q ∈ qs, ProcedurePhrase q.1 q.2) ∧
      ps = qs.map Prod.snd ∧ ts = qs.flatMap Prod.fst ++ rest := by
  induction fuel generalizing ts ps with
  | zero => cases hp
  | succ fuel ih =>
    rw [procedures.eq_def] at hp
    dsimp only at hp
    split at hp
    · rename_i f ts
      obtain ⟨xs, ts₁, hxs, hp₁⟩ := bind_eq_some hp
      obtain ⟨ts₁, rfl, hp₂⟩ := bind_expect hp₁
      obtain ⟨s, ts₂, hs, hp₃⟩ := bind_eq_some hp₂
      obtain ⟨us, rfl, hus⟩ := (stmtSound fuel).block hs
      obtain ⟨ps, ts₃, hps, hp₄⟩ := bind_eq_some hp₃
      cases hp₄
      obtain ⟨qs, hqs, rfl, rfl⟩ := ih hps
      rcases formals_of_formals hxs with ⟨rfl, rfl⟩ | ⟨ns, rfl, hns⟩
      · refine ⟨(_, _) :: qs, List.forall_mem_cons.mpr ⟨.plain f hus, hqs⟩, rfl, by simp⟩
      · refine ⟨(_, _) :: qs, List.forall_mem_cons.mpr ⟨.formals f hns hus, hqs⟩, rfl, by simp⟩
    · cases hp
    · cases hp
      exact ⟨[], by simp, rfl, rfl⟩

/-- A program that was read is derived from its tokens. -/
lemma phrase_of_program {source : String} {p : Program} (hp : program fuel source ts = some p) :
    p.source = source ∧ ProgramPhrase ts p := by
  rw [program] at hp
  obtain ⟨ps, ts₁, hps, hp₁⟩ := bind_eq_some hp
  obtain ⟨qs, hqs, rfl, rfl⟩ := phrases_of_procedures hps
  obtain ⟨ss, ts₁, hss, hp₂⟩ := bind_eq_some hp₁
  obtain ⟨us, rfl, hus⟩ := (stmtSound fuel).statements hss
  split at hp₂
  · rename_i hrest
    cases hrest
    cases hp₂
    rw [List.append_nil]
    exact ⟨rfl, .mk source hqs (statements_iff.mpr ⟨_, hus, rfl⟩)⟩
  · cases hp₂

end Parser

end Izmir
