import Izmir.Proofs.Lexemes
import Izmir.Proofs.ParserSoundness

/-!
# What is in the grammar is parsed

Every phrase of the grammar is taken by the function for its construct, provided that the next
token cannot continue the phrase and that there is fuel for it. Eight calls at most lie between
two tokens, so fuel in proportion to the number of tokens is enough.
-/

namespace Izmir

open Grammar

namespace Grammar

/-! ### What can follow a phrase -/

/-- How tightly a token binds to an expression before it. -/
def binding : Token → Nat
  | .symbol .openParen => 4
  | .symbol .times | .symbol .over | .symbol .percent => 3
  | .symbol .plus | .minus _ => 2
  | .symbol .equal | .symbol .different | .symbol .less | .symbol .lessOrEqual
  | .symbol .greater | .symbol .greaterOrEqual => 1
  | _ => 0

/-- No token follows that binds as tightly as `n`. -/
def Stops (n : Nat) (ts : List Token) : Prop :=
  ∀ t ∈ ts.head?, binding t < n

lemma stops_cons {n : Nat} {t : Token} {ts : List Token} :
    Stops n (t :: ts) ↔ binding t < n := by
  simp [Stops]

lemma stops_keyword (k : Keyword) (ts : List Token) : Stops 1 (.keyword k :: ts) :=
  stops_cons.mpr Nat.one_pos

lemma Stops.mono {m n : Nat} {ts : List Token} (h : Stops m ts) (hmn : m ≤ n) : Stops n ts :=
  fun t ht => (h t ht).trans_le hmn

lemma Comparison.binding_eq {t : Token} {p : Primitive} (h : Comparison t p) : binding t = 1 := by
  cases h <;> rfl

/-- What may not follow a phrase binds at least as tightly as this. -/
def ExprKind.strength : ExprKind → Nat
  | .expr => 1
  | .sum => 2
  | .product => 3
  | .unary | .operand | .atom => 4

/-- The calls that lie between a phrase and its first token. -/
def ExprKind.depth : ExprKind → Nat
  | .expr => 5
  | .sum => 4
  | .product => 3
  | .unary => 2
  | .operand => 1
  | .atom => 0

namespace Chain

lemma strength_item (c : Chain) : c.item.strength = c.kind.strength + 1 := by
  cases c <;> rfl

lemma depth_kind (c : Chain) : c.kind.depth = c.item.depth + 1 := by
  cases c <;> rfl

lemma depth_item_le (c : Chain) : c.item.depth ≤ 3 := by
  cases c <;> decide

lemma binding_eq {c : Chain} {t : Token} {p : Primitive} (h : c.Operator t p) :
    binding t = c.kind.strength := by
  cases c <;> cases h <;> rfl

end Chain

lemma ExprPhrase.exists_cons {k : ExprKind} {ts : List Token} {e : Expr String}
    (h : ExprPhrase k ts e) : ∃ t us, ts = t :: us ∧ t ≠ .symbol .closeParen := by
  induction h with
  | compare _ _ _ iha | add _ _ _ iha | multiply _ _ _ iha =>
    obtain ⟨t, us, rfl, ht⟩ := iha
    exact ⟨t, _, rfl, ht⟩
  | sum _ ih | product _ ih | unary _ ih | operand _ _ ih | atom _ ih => exact ih
  | operate ht =>
    refine ⟨_, _, rfl, ?_⟩
    rintro rfl
    cases ht
  | _ => exact ⟨_, _, rfl, by simp⟩

lemma ExprPhrase.unaryOperator?_eq_none {t : Token} {us : List Token} {e : Expr String}
    (h : ExprPhrase .atom (t :: us) e) : Parser.unaryOperator? t = none := by
  generalize hts : t :: us = ts at h
  cases h <;> cases hts <;> rfl

/-! ### Operators in a row -/

/-- `Tail c a ts e` says that `ts` applies operators to `a` from the left, with an item of the
row on the right of each, and that `e` comes out. -/
inductive Tail (c : Chain) : Expr String → List Token → Expr String → Prop where
  | nil (a : Expr String) : Tail c a [] a
  | cons {a b e : Expr String} {t : Token} {p : Primitive} {ts us : List Token}
      (ht : c.Operator t p) (hb : ExprPhrase c.item ts b) (h : Tail c (.apply p [a, b]) us e) :
      Tail c a (t :: ts ++ us) e

section

variable {c : Chain} {a b e : Expr String} {ts us rest : List Token}

lemma Tail.concat (h : Tail c a ts e) {t : Token} {p : Primitive} (ht : c.Operator t p)
    (hb : ExprPhrase c.item us b) : Tail c a (ts ++ t :: us) (.apply p [e, b]) := by
  induction h with
  | nil a =>
    have h := Tail.cons ht hb (.nil (.apply p [a, b]))
    rwa [List.append_nil] at h
  | cons ht' hb' _ ih =>
    rw [List.append_assoc]
    exact .cons ht' hb' ih

/-- The operators of a row end the items before them. -/
lemma Tail.stops (h : Tail c a ts e) (hrest : Stops c.kind.strength rest) :
    Stops c.item.strength (ts ++ rest) := by
  rw [c.strength_item]
  cases h with
  | nil => exact hrest.mono (Nat.le_succ _)
  | cons ht =>
    rw [List.cons_append, List.cons_append, stops_cons, Chain.binding_eq ht]
    exact Nat.lt_succ_self _

-- The grammar nests rows to the left, but the parser never takes the left part of a row by itself:
-- it takes the first item and then walks along the operators.
lemma ExprPhrase.exists_tail (h : ExprPhrase c.kind ts e) :
    ∃ us a vs, ts = us ++ vs ∧ ExprPhrase c.item us a ∧ Tail c a vs e := by
  generalize hk : c.kind = k at h
  induction h with
  | product h | unary h =>
    cases c <;> cases hk
    exact ⟨_, _, [], by simp, h, .nil _⟩
  | add _ ht hb ih | multiply _ ht hb ih =>
    obtain ⟨us, a, vs, rfl, ha, htail⟩ := ih hk
    cases c <;> cases hk
    exact ⟨us, a, _, List.append_assoc .., ha, htail.concat ht hb⟩
  | _ => cases c <;> cases hk

end

end Grammar

namespace Parser

variable {fuel : Nat} {ts us rest : List Token}

/-! ### Expressions -/

lemma expect_cons (t : Token) (ts : List Token) : expect t (t :: ts) = some ts := by
  rw [expect, if_pos rfl]

lemma eq_none_of_stops {n : Nat} {t : Token} {operator? : Option Primitive}
    (hoperator : ∀ p, operator? = some p → binding t = n) (h : Stops n (t :: ts)) :
    operator? = none := by
  rw [Option.eq_none_iff_forall_ne_some]
  intro p hp
  have hbinding := hoperator p hp
  have hlt := stops_cons.mp h
  omega

lemma comparison?_eq_none {s : Symbol} (h : Stops 1 (.symbol s :: ts)) : comparison? s = none :=
  eq_none_of_stops (fun _ hp => (comparison?_eq_some_iff.mp hp).binding_eq) h

lemma chainRest_of_stops {c : Chain} {a : Expr String} (h : Stops c.kind.strength ts) :
    chainRest c (fuel + 1) a ts = some (a, ts) := by
  cases ts with
  | nil => exact chainRest_nil
  | cons t ts =>
    have hnone : chainOperator? c t = none :=
      eq_none_of_stops (fun _ hp => Chain.binding_eq (chainOperator?_eq_some_iff.mp hp)) h
    exact chainRest_of_none hnone

/-- With some fuel, phrases are taken that need no more than it. -/
structure ExprComplete (fuel : Nat) : Prop where
  phrase : ∀ {k ts e rest}, ExprPhrase k ts e → 8 * ts.length + k.depth ≤ fuel →
    Stops k.strength rest → exprParser k fuel (ts ++ rest) = some (e, rest)
  chainRest : ∀ {c a ts e rest}, Tail c a ts e → 8 * ts.length + 1 ≤ fuel →
    Stops c.kind.strength rest → chainRest c fuel a (ts ++ rest) = some (e, rest)
  actuals : ∀ {args} rest, (∀ a ∈ args, ExprPhrase .expr a.1 a.2) →
    8 * (Grammar.actuals args).length + 1 ≤ fuel →
    actuals fuel (Grammar.actuals args ++ rest) = some (args.map Prod.snd, rest)
  moreActuals : ∀ {a args} rest, (∀ b ∈ a :: args, ExprPhrase .expr b.1 b.2) →
    8 * (Grammar.actuals (a :: args)).length ≤ fuel →
    moreActuals fuel (Grammar.actuals (a :: args) ++ rest) =
      some ((a :: args).map Prod.snd, rest)

namespace ExprComplete

variable {a e : Expr String}

lemma expr (h : ExprComplete fuel) (he : ExprPhrase .expr ts e) (hfuel : 8 * ts.length + 5 ≤ fuel)
    (hrest : Stops 1 rest) : Parser.expr fuel (ts ++ rest) = some (e, rest) :=
  h.phrase he hfuel hrest

lemma sum (h : ExprComplete fuel) (he : ExprPhrase .sum ts e) (hfuel : 8 * ts.length + 4 ≤ fuel)
    (hrest : Stops 2 rest) : Parser.sum fuel (ts ++ rest) = some (e, rest) :=
  h.phrase he hfuel hrest

lemma operand (h : ExprComplete fuel) (he : ExprPhrase .operand ts e)
    (hfuel : 8 * ts.length + 1 ≤ fuel) (hrest : Stops 4 rest) :
    Parser.operand fuel (ts ++ rest) = some (e, rest) :=
  h.phrase he hfuel hrest

lemma atom (h : ExprComplete fuel) (he : ExprPhrase .atom ts e) (hfuel : 8 * ts.length ≤ fuel)
    (hrest : Stops 4 rest) : Parser.atom fuel (ts ++ rest) = some (e, rest) :=
  h.phrase he hfuel hrest

lemma expr_succ (h : ExprComplete fuel) (he : ExprPhrase .expr ts e)
    (hfuel : 8 * ts.length + 5 ≤ fuel + 1) (hrest : Stops 1 rest) :
    Parser.expr (fuel + 1) (ts ++ rest) = some (e, rest) := by
  cases he with
  | sum he =>
    rw [Parser.expr, h.sum he (by omega) (hrest.mono (by decide))]
    cases rest with
    | nil => rfl
    | cons t rest =>
      cases t with
      | symbol s => simp [comparison?_eq_none hrest]
      | _ => rfl
  | @compare ts us a b t p ha ht hb =>
    obtain ⟨s, rfl⟩ : ∃ s, t = .symbol s := by cases ht <;> exact ⟨_, rfl⟩
    have hstop : Stops 2 (.symbol s :: (us ++ rest)) := by
      rw [stops_cons, ht.binding_eq]
      decide
    rw [List.length_append, List.length_cons] at hfuel
    have hright := h.sum hb (by omega) (hrest.mono (by decide))
    rw [List.append_assoc, List.cons_append, Parser.expr, h.sum ha (by omega) hstop]
    simp [comparison?_eq_some_iff.mpr ht, hright]

lemma chain_succ (h : ExprComplete fuel) {c : Chain} (he : ExprPhrase c.kind ts e)
    (hfuel : 8 * ts.length + c.kind.depth ≤ fuel + 1) (hrest : Stops c.kind.strength rest) :
    exprParser c.kind (fuel + 1) (ts ++ rest) = some (e, rest) := by
  obtain ⟨us, a, vs, rfl, ha, htail⟩ := he.exists_tail
  -- The item takes a token, which pays for the calls in the rest of the row.
  have hpos : 0 < us.length := by
    obtain ⟨t, us', rfl, -⟩ := ha.exists_cons
    exact Nat.succ_pos _
  rw [List.length_append, c.depth_kind] at hfuel
  rw [List.append_assoc, exprParser_chain_succ, h.phrase ha (by omega) (htail.stops hrest)]
  exact h.chainRest htail (by omega) hrest

lemma chainRest_succ (h : ExprComplete fuel) {c : Chain} (htail : Tail c a ts e)
    (hfuel : 8 * ts.length + 1 ≤ fuel + 1) (hrest : Stops c.kind.strength rest) :
    Parser.chainRest c (fuel + 1) a (ts ++ rest) = some (e, rest) := by
  cases htail with
  | nil => exact chainRest_of_stops hrest
  | @cons _ b _ t p us vs ht hb htail =>
    have hdepth := c.depth_item_le
    rw [List.length_append, List.length_cons] at hfuel
    rw [List.append_assoc, List.cons_append, chainRest_of_operator ht,
      h.phrase hb (by omega) (htail.stops hrest)]
    exact h.chainRest htail (by omega) hrest

lemma unary_succ (h : ExprComplete fuel) (he : ExprPhrase .unary ts e)
    (hfuel : 8 * ts.length + 2 ≤ fuel + 1) (hrest : Stops 4 rest) :
    Parser.unary (fuel + 1) (ts ++ rest) = some (e, rest) := by
  cases he with
  | negative hv =>
    rw [List.cons_append, List.cons_append, List.nil_append, Parser.unary,
      Value.ofInt?_eq_some_iff.mpr hv]
    rfl
  | operand he hliteral =>
    rw [Parser.unary]
    · exact h.operand he (by omega) hrest
    · -- A sign before a literal was the case above, also when the sign is an operator.
      intro n vs hts
      cases he with
      | operate ht he =>
        obtain ⟨u, us, rfl, -⟩ := he.exists_cons
        cases hts
        exact hliteral n us rfl
      | atom he =>
        obtain ⟨t, us, rfl, -⟩ := he.exists_cons
        have hnone := he.unaryOperator?_eq_none
        rw [(List.cons.inj hts).1] at hnone
        cases hnone

lemma operand_succ (h : ExprComplete fuel) (he : ExprPhrase .operand ts e)
    (hfuel : 8 * ts.length + 1 ≤ fuel + 1) (hrest : Stops 4 rest) :
    Parser.operand (fuel + 1) (ts ++ rest) = some (e, rest) := by
  cases he with
  | operate ht he =>
    rw [List.length_cons] at hfuel
    rw [List.cons_append, Parser.operand, unaryOperator?_eq_some_iff.mpr ht]
    simp [h.operand he (by omega) hrest]
  | atom he =>
    have hread := h.atom he (by omega) hrest
    obtain ⟨t, us, rfl, -⟩ := he.exists_cons
    rw [List.cons_append] at hread ⊢
    rw [Parser.operand, he.unaryOperator?_eq_none]
    exact hread

lemma atom_succ (h : ExprComplete fuel) (he : ExprPhrase .atom ts e)
    (hfuel : 8 * ts.length ≤ fuel + 1) (hrest : Stops 4 rest) :
    Parser.atom (fuel + 1) (ts ++ rest) = some (e, rest) := by
  cases he with
  | number hv =>
    rw [List.singleton_append, Parser.atom, Value.ofInt?_eq_some_iff.mpr hv]
    rfl
  | true_ => rw [List.singleton_append, Parser.atom]
  | false_ => rw [List.singleton_append, Parser.atom]
  | input => rw [List.singleton_append, Parser.atom]
  | «variable» x =>
    rw [List.singleton_append, Parser.atom]
    rintro us rfl
    have := stops_cons.mp hrest
    simp [binding] at this
  | @call f args hargs =>
    rw [List.length_cons, List.length_cons] at hfuel
    rw [List.cons_append, List.cons_append, Parser.atom, h.actuals rest hargs (by omega)]
    rfl
  | @parens ts e he =>
    simp only [List.length_append, List.length_cons, List.length_nil] at hfuel
    have hstop : Stops 1 (.symbol .closeParen :: rest) := stops_cons.mpr (by decide)
    rw [List.append_assoc, List.cons_append, List.singleton_append, Parser.atom]
    simp [h.expr he (by omega) hstop, expect_cons]
  | @ifElse cs ts us c a b hc ha hb =>
    simp only [List.length_append, List.length_cons, List.length_nil] at hfuel
    simp only [List.append_assoc, List.cons_append, List.nil_append]
    rw [Parser.atom]
    simp [h.expr hc (by omega) (stops_keyword _ _), h.expr ha (by omega) (stops_keyword _ _),
      h.expr hb (by omega) (stops_keyword _ _), expect_cons]

lemma actuals_succ (h : ExprComplete fuel) {args : List (List Token × Expr String)}
    (rest : List Token) (hargs : ∀ a ∈ args, ExprPhrase .expr a.1 a.2)
    (hfuel : 8 * (Grammar.actuals args).length + 1 ≤ fuel + 1) :
    Parser.actuals (fuel + 1) (Grammar.actuals args ++ rest) =
      some (args.map Prod.snd, rest) := by
  cases args with
  | nil => rfl
  | cons a args =>
    obtain ⟨t, us, ha, ht⟩ := (hargs a List.mem_cons_self).exists_cons
    have hstart : ∃ vs, Grammar.actuals (a :: args) = t :: vs := by
      cases args with
      | nil => exact ⟨_, by rw [actuals_singleton, ha, List.cons_append]⟩
      | cons b args => exact ⟨_, by rw [actuals_cons_cons, ha, List.cons_append]⟩
    obtain ⟨vs, hvs⟩ := hstart
    rw [Parser.actuals]
    · exact h.moreActuals rest hargs (by omega)
    · intro ws hws
      rw [hvs] at hws
      exact ht (List.cons.inj hws).1

lemma moreActuals_succ (h : ExprComplete fuel) {a : List Token × Expr String}
    {args : List (List Token × Expr String)} (rest : List Token)
    (hargs : ∀ b ∈ a :: args, ExprPhrase .expr b.1 b.2)
    (hfuel : 8 * (Grammar.actuals (a :: args)).length ≤ fuel + 1) :
    Parser.moreActuals (fuel + 1) (Grammar.actuals (a :: args) ++ rest) =
      some ((a :: args).map Prod.snd, rest) := by
  obtain ⟨ha, hargs⟩ := List.forall_mem_cons.mp hargs
  cases args with
  | nil =>
    have hstop : Stops 1 (.symbol .closeParen :: rest) := stops_cons.mpr (by decide)
    rw [actuals_singleton] at hfuel ⊢
    rw [List.length_append, List.length_singleton] at hfuel
    rw [List.append_assoc, List.singleton_append, Parser.moreActuals, h.expr ha (by omega) hstop]
    rfl
  | cons b args =>
    have hstop (ts : List Token) : Stops 1 (.symbol .comma :: ts) := stops_cons.mpr (by decide)
    rw [actuals_cons_cons] at hfuel ⊢
    rw [List.length_append, List.length_cons] at hfuel
    rw [List.append_assoc, List.cons_append, Parser.moreActuals, h.expr ha (by omega) (hstop _)]
    simp [h.moreActuals rest hargs (by omega)]

end ExprComplete

-- All the functions call each other with one unit of fuel less, so one induction serves them all.
lemma exprComplete (fuel : Nat) : ExprComplete fuel := by
  induction fuel with
  | zero =>
    constructor
    · intro k ts e rest he hfuel
      obtain ⟨t, us, rfl, -⟩ := he.exists_cons
      rw [List.length_cons] at hfuel
      omega
    · intro _ _ _ _ _ _ hfuel
      omega
    · intro _ _ _ hfuel
      omega
    · intro _ _ _ _ hfuel
      rw [Grammar.actuals, List.length_append, List.length_singleton] at hfuel
      omega
  | succ fuel ih =>
    refine ⟨?_, ih.chainRest_succ, ih.actuals_succ, ih.moreActuals_succ⟩
    intro k ts e rest he hfuel hrest
    cases k with
    | expr => exact ih.expr_succ he hfuel hrest
    | sum => exact ih.chain_succ (c := .sum) he hfuel hrest
    | product => exact ih.chain_succ (c := .product) he hfuel hrest
    | unary => exact ih.unary_succ he hfuel hrest
    | operand => exact ih.operand_succ he hfuel hrest
    | atom => exact ih.atom_succ he hfuel hrest

/-! ### Statements -/

/-- Nothing follows that could continue some statements. -/
def Closes (ts : List Token) : Prop :=
  ∀ t ∈ ts.head?, t = .keyword .end_ ∨ t = .keyword .else_ ∨ t = .keyword .until_

lemma closes_nil : Closes [] := by simp [Closes]

lemma closes_end (ts : List Token) : Closes (.keyword .end_ :: ts) := by simp [Closes]

lemma closes_else (ts : List Token) : Closes (.keyword .else_ :: ts) := by simp [Closes]

lemma closes_until (ts : List Token) : Closes (.keyword .until_ :: ts) := by simp [Closes]

lemma Closes.stops (h : Closes ts) : Stops 1 ts := by
  intro t ht
  rcases h t ht with rfl | rfl | rfl <;> decide

lemma Closes.startsStatement (h : Closes ts) : startsStatement ts = false := by
  cases ts with
  | nil => rfl
  | cons t ts => rcases h t rfl with rfl | rfl | rfl <;> rfl

lemma exists_begin_of_block {s : Stmt String} (h : StmtPhrase .block ts s) :
    ∃ us, ts = .keyword .begin_ :: us := by
  cases h <;> exact ⟨_, rfl⟩

lemma startsStatement_of_phrase {s : Stmt String} (h : StmtPhrase .statement ts s)
    (rest : List Token) : startsStatement (ts ++ rest) = true := by
  cases h with
  | block h => cases h <;> rfl
  | _ => rfl

lemma eq_nil_or_startsStatement {ss : List (Stmt String)} (h : Separated ts ss) :
    ts = [] ∨ ∀ rest, startsStatement (ts ++ rest) = true := by
  cases h with
  | nil => exact .inl rfl
  | last h => exact .inr (startsStatement_of_phrase h)
  | cons h _ =>
    right
    intro rest
    rw [List.append_assoc]
    exact startsStatement_of_phrase h _

lemma names_eq_of_phrase {xs : List String} (h : Names ts xs)
    (hrest : ∀ us, rest ≠ .symbol .comma :: us) : names (ts ++ rest) = some (xs, rest) := by
  induction h with
  | one x =>
    rw [List.singleton_append, names]
    exact hrest
  | more x _ ih =>
    rw [List.cons_append, List.cons_append, names, ih]
    rfl

lemma declarations_eq_of_ne (h : ∀ us, ts ≠ .keyword .var_ :: us) :
    declarations ts = some ([], ts) := by
  rw [declarations]
  exact h

structure StmtComplete (fuel : Nat) : Prop where
  statement : ∀ {ts s rest}, StmtPhrase .statement ts s → 8 * ts.length ≤ fuel → Stops 1 rest →
    statement fuel (ts ++ rest) = some (s, rest)
  block : ∀ {ts s} rest, StmtPhrase .block (.keyword .begin_ :: ts) s → 8 * ts.length ≤ fuel →
    block fuel (ts ++ rest) = some (s, rest)
  statements : ∀ {ts ss rest}, Separated ts ss → 8 * ts.length + 1 ≤ fuel → Closes rest →
    statements fuel (ts ++ rest) = some (ss, rest)

namespace StmtComplete

variable {s : Stmt String} {ss : List (Stmt String)}

lemma statement_succ (h : StmtComplete fuel) (hs : StmtPhrase .statement ts s)
    (hfuel : 8 * ts.length ≤ fuel + 1) (hrest : Stops 1 rest) :
    Parser.statement (fuel + 1) (ts ++ rest) = some (s, rest) := by
  have hexpr := exprComplete fuel
  cases hs with
  | skip => rw [List.singleton_append, Parser.statement]
  | block hs =>
    obtain ⟨us, rfl⟩ := exists_begin_of_block hs
    rw [List.length_cons] at hfuel
    rw [List.cons_append, Parser.statement]
    exact h.block rest hs (by omega)
  | @ifThen cs ts c _ hc ha =>
    obtain ⟨as, has, rfl⟩ := statements_iff.mp ha
    simp only [List.length_append, List.length_cons, List.length_nil] at hfuel
    simp only [List.append_assoc, List.cons_append, List.nil_append]
    rw [Parser.statement, hexpr.expr hc (by omega) (stops_keyword _ _)]
    simp [expect_cons, h.statements has (by omega) (closes_end rest)]
  | @ifElse cs ts us c _ _ hc ha hb =>
    obtain ⟨as, has, rfl⟩ := statements_iff.mp ha
    obtain ⟨bs, hbs, rfl⟩ := statements_iff.mp hb
    simp only [List.length_append, List.length_cons, List.length_nil] at hfuel
    simp only [List.append_assoc, List.cons_append, List.nil_append]
    rw [Parser.statement, hexpr.expr hc (by omega) (stops_keyword _ _)]
    simp [expect_cons, h.statements has (by omega) (closes_else _),
      h.statements hbs (by omega) (closes_end rest)]
  | @whileDo cs ts c _ hc ha =>
    obtain ⟨as, has, rfl⟩ := statements_iff.mp ha
    simp only [List.length_append, List.length_cons, List.length_nil] at hfuel
    simp only [List.append_assoc, List.cons_append, List.nil_append]
    rw [Parser.statement, hexpr.expr hc (by omega) (stops_keyword _ _)]
    simp [expect_cons, h.statements has (by omega) (closes_end rest)]
  | @repeatUntil cs ts c _ ha hc =>
    obtain ⟨as, has, rfl⟩ := statements_iff.mp ha
    simp only [List.length_append, List.length_cons] at hfuel
    simp only [List.append_assoc, List.cons_append]
    rw [Parser.statement, h.statements has (by omega) (closes_until _)]
    simp [expect_cons, hexpr.expr hc (by omega) hrest]
  | print he =>
    rw [List.length_cons] at hfuel
    rw [List.cons_append, Parser.statement, hexpr.expr he (by omega) hrest]
    rfl
  | ret he =>
    rw [List.length_cons] at hfuel
    rw [List.cons_append, Parser.statement, hexpr.expr he (by omega) hrest]
    rfl
  | assign x he =>
    rw [List.length_cons, List.length_cons] at hfuel
    rw [List.cons_append, List.cons_append, Parser.statement, hexpr.expr he (by omega) hrest]
    rfl
  | call f hargs =>
    rw [List.length_cons, List.length_cons] at hfuel
    rw [List.cons_append, List.cons_append, Parser.statement,
      hexpr.actuals rest hargs (by omega)]
    rfl

lemma block_succ (h : StmtComplete fuel) (rest : List Token)
    (hs : StmtPhrase .block (.keyword .begin_ :: ts) s) (hfuel : 8 * ts.length ≤ fuel + 1) :
    Parser.block (fuel + 1) (ts ++ rest) = some (s, rest) := by
  generalize hus : Token.keyword .begin_ :: ts = us at hs
  cases hs with
  | @plain us s ha =>
    have hts : ts = us ++ [.keyword .end_] := (List.cons.inj hus).2
    subst hts
    obtain ⟨as, has, rfl⟩ := statements_iff.mp ha
    rw [List.length_append, List.length_singleton] at hfuel
    rw [List.append_assoc, List.singleton_append, Parser.block]
    -- Statements never start with the keyword of a declaration.
    have hdeclarations : declarations (us ++ .keyword .end_ :: rest) =
        some ([], us ++ .keyword .end_ :: rest) := by
      refine declarations_eq_of_ne fun vs hvs => ?_
      rcases eq_nil_or_startsStatement has with rfl | hstarts
      · cases hvs
      · have hstarts := hstarts (.keyword .end_ :: rest)
        rw [hvs] at hstarts
        cases hstarts
    rw [hdeclarations]
    simp [h.statements has (by omega) (closes_end rest), expect_cons, Stmt.withVariables]
  | @declare ns us xs s hns ha =>
    have hts : ts = .keyword .var_ :: ns ++ .symbol .semicolon :: us ++ [.keyword .end_] :=
      (List.cons.inj hus).2
    subst hts
    obtain ⟨as, has, rfl⟩ := statements_iff.mp ha
    simp only [List.length_append, List.length_cons, List.length_nil] at hfuel
    simp only [List.append_assoc, List.cons_append, List.nil_append]
    rw [Parser.block, declarations, names_eq_of_phrase hns (by simp)]
    simp [h.statements has (by omega) (closes_end rest), expect_cons, Stmt.withVariables]

lemma statements_succ (h : StmtComplete fuel) (hss : Separated ts ss)
    (hfuel : 8 * ts.length + 1 ≤ fuel + 1) (hrest : Closes rest) :
    Parser.statements (fuel + 1) (ts ++ rest) = some (ss, rest) := by
  rw [Parser.statements]
  cases hss with
  | nil =>
    rw [List.nil_append, hrest.startsStatement]
    rfl
  | last hs =>
    rw [if_pos (startsStatement_of_phrase hs rest), h.statement hs (by omega) hrest.stops]
    cases rest with
    | nil => rfl
    | cons t rest => rcases hrest t rfl with rfl | rfl | rfl <;> rfl
  | @cons us vs s ss hs hss =>
    have hstop : Stops 1 (.symbol .semicolon :: (vs ++ rest)) := stops_cons.mpr (by decide)
    rw [List.length_append, List.length_cons] at hfuel
    rw [List.append_assoc, List.cons_append, if_pos (startsStatement_of_phrase hs _),
      h.statement hs (by omega) hstop]
    simp [h.statements hss (by omega) hrest]

end StmtComplete

lemma stmtComplete (fuel : Nat) : StmtComplete fuel := by
  induction fuel with
  | zero =>
    constructor
    · intro ts s rest hs hfuel
      obtain rfl : ts = [] := List.length_eq_zero_iff.mp (by omega)
      cases startsStatement_of_phrase hs []
    · intro ts s rest hs hfuel
      obtain rfl : ts = [] := List.length_eq_zero_iff.mp (by omega)
      generalize hus : [Token.keyword .begin_] = us at hs
      cases hs <;> simp at hus
    · intro _ _ _ _ hfuel
      omega
  | succ fuel ih => exact ⟨ih.statement_succ, ih.block_succ, ih.statements_succ⟩

/-! ### Programs -/

lemma formals_eq_of_names {ns : List Token} {xs : List String} (h : Names ns xs) :
    formals (.symbol .openParen :: ns ++ .symbol .closeParen :: rest) = some (xs, rest) := by
  have hnames : names (ns ++ .symbol .closeParen :: rest) =
      some (xs, .symbol .closeParen :: rest) := names_eq_of_phrase h (by simp)
  rw [List.cons_append, formals]
  · simp [hnames, expect_cons]
  · intro us hus
    cases h <;> cases hus

/-- A procedure has its name, its formals and its block one after the other. -/
lemma exists_parts_of_procedure {p : Procedure} (h : ProcedurePhrase ts p) :
    ∃ fs us, ts = .keyword .procedure_ :: .name p.name :: fs ++ .keyword .begin_ :: us ∧
      (∀ rest, formals (fs ++ rest) = some (p.formals, rest)) ∧
      StmtPhrase .block (.keyword .begin_ :: us) p.body := by
  cases h with
  | plain f hs =>
    obtain ⟨us, rfl⟩ := exists_begin_of_block hs
    exact ⟨[.symbol .openParen, .symbol .closeParen], us, rfl, fun _ => rfl, hs⟩
  | @formals f ns _ xs s hns hs =>
    obtain ⟨us, rfl⟩ := exists_begin_of_block hs
    refine ⟨.symbol .openParen :: ns ++ [.symbol .closeParen], us, by simp, fun rest => ?_, hs⟩
    rw [List.append_assoc, List.singleton_append]
    exact formals_eq_of_names hns

lemma procedures_eq_of_phrases {ps : List (List Token × Procedure)}
    (h : ∀ p ∈ ps, ProcedurePhrase p.1 p.2) (hfuel : 8 * (ps.flatMap Prod.fst).length + 1 ≤ fuel)
    (hrest : ∀ us, rest ≠ .keyword .procedure_ :: us) :
    procedures fuel (ps.flatMap Prod.fst ++ rest) = some (ps.map Prod.snd, rest) := by
  induction fuel generalizing ps with
  | zero => omega
  | succ fuel ih =>
    cases ps with
    | nil =>
      rw [List.flatMap_nil, List.nil_append, procedures, List.map_nil]
      · exact fun _ _ => hrest _
      · exact hrest
    | cons q ps =>
      obtain ⟨ts, p⟩ := q
      obtain ⟨hp, hps⟩ := List.forall_mem_cons.mp h
      have hp : ProcedurePhrase ts p := hp
      obtain ⟨fs, us, rfl, hformals, hbody⟩ := exists_parts_of_procedure hp
      simp only [List.flatMap_cons, List.length_append, List.length_cons] at hfuel
      simp only [List.flatMap_cons, List.append_assoc, List.cons_append]
      rw [procedures, hformals]
      simp [expect_cons, (stmtComplete fuel).block _ hbody (by omega), ih hps (by omega)]

/-- A program that is derived from some tokens is read from them. -/
lemma program_eq_of_phrase {p : Program} (h : ProgramPhrase ts p)
    (hfuel : 8 * ts.length + 1 ≤ fuel) : program fuel p.source ts = some p := by
  obtain @⟨source, ps, ts, s, hps, hs⟩ := h
  obtain ⟨ss, hss, rfl⟩ := statements_iff.mp hs
  rw [List.length_append] at hfuel
  have hmain : statements fuel ts = some (ss, []) := by
    have hread := (stmtComplete fuel).statements hss (by omega) closes_nil
    rwa [List.append_nil] at hread
  have hprocedures : procedures fuel (ps.flatMap Prod.fst ++ ts) =
      some (ps.map Prod.snd, ts) := by
    refine procedures_eq_of_phrases hps (by omega) ?_
    rintro us rfl
    rcases eq_nil_or_startsStatement hss with hnil | hstarts
    · cases hnil
    · cases hstarts []
  rw [program, hprocedures]
  simp [hmain]

end Parser

namespace Program

open Token

lemma parse?_eq_of_splits {text : String} {ts : List Token} (h : Splits text.toList ts)
    (source : String) :
    parse? source text = Parser.program (8 * ts.length + 8) source ts := by
  rw [parse?, scan_eq_some_iff.mpr h]
  rfl

lemma parse?_eq_some_of_phrase {text : String} {ts : List Token} {p : Program}
    (hts : Splits text.toList ts) (hp : ProgramPhrase ts p) :
    parse? p.source text = some p := by
  rw [parse?_eq_of_splits hts]
  exact Parser.program_eq_of_phrase hp (by omega)

lemma exists_phrase_of_parse? {source text : String} {p : Program}
    (h : parse? source text = some p) :
    p.source = source ∧ ∃ ts, Splits text.toList ts ∧ ProgramPhrase ts p := by
  obtain ⟨ts, hscan, hp⟩ := Option.bind_eq_some_iff.mp h
  obtain ⟨hsource, hphrase⟩ := Parser.phrase_of_program hp
  exact ⟨hsource, ts, scan_eq_some_iff.mp hscan, hphrase⟩

/-- A text is read as a program when its tokens derive that program in the grammar, and refused
when they derive none. Nothing but the tokens counts. -/
theorem parse?_eq_some_iff_derived (source text : String) :
    (∀ p, parse? source text = some p ↔
      p.source = source ∧ ∃ ts, Splits text.toList ts ∧ ProgramPhrase ts p) ∧
    (parse? source text = none ↔ ¬∃ ts p, Splits text.toList ts ∧ ProgramPhrase ts p) ∧
    ∀ layout ts, Splits text.toList ts → Splits layout.toList ts →
      parse? source text = parse? source layout := by
  refine ⟨fun p => ⟨exists_phrase_of_parse?, ?_⟩, ⟨?_, ?_⟩, ?_⟩
  · rintro ⟨rfl, ts, hts, hp⟩
    exact parse?_eq_some_of_phrase hts hp
  · rintro hnone ⟨ts, _, hts, @⟨_, ps, ms, s, hps, hs⟩⟩
    have hsome := parse?_eq_some_of_phrase hts (.mk source hps hs)
    rw [hnone] at hsome
    cases hsome
  · intro hno
    cases hparse : parse? source text with
    | none => rfl
    | some p =>
      obtain ⟨-, ts, hts, hp⟩ := exists_phrase_of_parse? hparse
      exact absurd ⟨ts, p, hts, hp⟩ hno
  · intro layout ts hts hlayout
    rw [parse?_eq_of_splits hts, parse?_eq_of_splits hlayout]

/-- A program with nothing between its tokens that is not needed. -/
def dense : String :=
  "procedure f(a)begin var c,d;c:=a-1*-2;end print f(-9223372036854775808,--7)<=not -5"

/-- The same tokens in another layout. -/
def loose : String :=
  "// twice\nprocedure f ( a )\n\tbegin var c , d ; c := a -1 * -2 ; end\n" ++
    "print f ( -9223372036854775808 , - -7 ) <= // not\r not -5 //"

def denseTokens : List Token :=
  [.keyword .procedure_, .name "f", .symbol .openParen, .name "a", .symbol .closeParen,
    .keyword .begin_, .keyword .var_, .name "c", .symbol .comma, .name "d", .symbol .semicolon,
    .name "c", .symbol .assign, .name "a", .minus true, .number 1, .symbol .times, .minus true,
    .number 2, .symbol .semicolon, .keyword .end_, .keyword .print_, .name "f",
    .symbol .openParen, .minus true, .number 9223372036854775808, .symbol .comma, .minus false,
    .minus true, .number 7, .symbol .closeParen, .symbol .lessOrEqual, .keyword .not_,
    .minus true, .number 5]

def denseTree : Program where
  source := "t"
  procedures :=
    [⟨"f", ["a"], .block "c" (.block "d"
      (.assign "c" (.apply .minus [.var "a", .apply .times [.literal 1, .literal (-2)]])))⟩]
  main := .print (.apply .lessOrEqual
    [.call "f"
        [.literal (-9223372036854775808), .apply .unaryMinus [.apply .unaryMinus [.literal 7]]],
      .apply .logicalNot [.apply .unaryMinus [.literal 5]]])

theorem dense_derived :
    Splits dense.toList denseTokens ∧ Splits loose.toList denseTokens ∧
      ProgramPhrase denseTokens denseTree ∧ parse? "t" loose = some denseTree := by
  have hdense : Splits dense.toList denseTokens := scan_eq_some_iff.mp (by decide +kernel)
  have hloose : Splits loose.toList denseTokens := scan_eq_some_iff.mp (by decide +kernel)
  have hparse : parse? "t" dense = some denseTree := by
    rw [parse?_eq_of_splits hdense]
    rfl
  obtain ⟨hiff, -, hlayout⟩ := parse?_eq_some_iff_derived "t" dense
  obtain ⟨-, ts, hts, hphrase⟩ := (hiff denseTree).mp hparse
  rw [hts.unique hdense] at hphrase
  rw [hlayout loose denseTokens hdense hloose] at hparse
  exact ⟨hdense, hloose, hphrase, hparse⟩

end Program

end Izmir
