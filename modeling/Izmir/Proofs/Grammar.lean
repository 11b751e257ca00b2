import Mathlib
import Izmir.Program
import Izmir.Token

/-!
# The grammar of programs

The phrases of the language over tokens, each with the tree that it stands for:

    program    ::= procedure* statements
    procedure  ::= "procedure" name "(" [name {"," name}] ")" block
    block      ::= "begin" ["var" name {"," name} ";"] statements "end"
    statements ::= [sequence [";"]]
    sequence   ::= statement {";" statement}
    expr       ::= sum [comparison sum]
    sum        ::= product {("+" | "-") product}
    product    ::= unary {("*" | "/" | "%") unary}
    unary      ::= "-"number | operand
    operand    ::= {"-" | "not"} atom

Sums and products associate to the left and sequences to the right. A minus sign that touches a
number makes a negative literal with it where a `unary` starts.
-/

namespace Izmir.Grammar

/-! ### Operators -/

inductive Comparison : Token → Primitive → Prop where
  | equal : Comparison (.symbol .equal) .equal
  | different : Comparison (.symbol .different) .different
  | less : Comparison (.symbol .less) .less
  | lessOrEqual : Comparison (.symbol .lessOrEqual) .lessOrEqual
  | greater : Comparison (.symbol .greater) .greater
  | greaterOrEqual : Comparison (.symbol .greaterOrEqual) .greaterOrEqual

inductive SumOperator : Token → Primitive → Prop where
  | plus : SumOperator (.symbol .plus) .plus
  | minus (tight : Bool) : SumOperator (.minus tight) .minus

inductive ProductOperator : Token → Primitive → Prop where
  | times : ProductOperator (.symbol .times) .times
  | divided : ProductOperator (.symbol .over) .divided
  | remainder : ProductOperator (.symbol .percent) .remainder

inductive UnaryOperator : Token → Primitive → Prop where
  | minus (tight : Bool) : UnaryOperator (.minus tight) .unaryMinus
  | not : UnaryOperator (.keyword .not_) .logicalNot

/-! ### Expressions -/

/-- The actuals of a call after the opening parenthesis, and the closing one. Each of them is
given by its tokens and by what it stands for. -/
def actuals {α : Type} (args : List (List Token × α)) : List Token :=
  [.symbol .comma].intercalate (args.map Prod.fst) ++ [.symbol .closeParen]

/-- The phrases that stand for expressions. -/
inductive ExprKind where
  | expr | sum | product | unary | operand | atom

inductive ExprPhrase : ExprKind → List Token → Expr String → Prop where
  | sum {ts : List Token} {e : Expr String} (h : ExprPhrase .sum ts e) : ExprPhrase .expr ts e
  | compare {ts us : List Token} {a b : Expr String} {t : Token} {p : Primitive}
      (ha : ExprPhrase .sum ts a) (ht : Comparison t p) (hb : ExprPhrase .sum us b) :
      ExprPhrase .expr (ts ++ t :: us) (.apply p [a, b])
  | product {ts : List Token} {e : Expr String} (h : ExprPhrase .product ts e) :
      ExprPhrase .sum ts e
  | add {ts us : List Token} {a b : Expr String} {t : Token} {p : Primitive}
      (ha : ExprPhrase .sum ts a) (ht : SumOperator t p) (hb : ExprPhrase .product us b) :
      ExprPhrase .sum (ts ++ t :: us) (.apply p [a, b])
  | unary {ts : List Token} {e : Expr String} (h : ExprPhrase .unary ts e) :
      ExprPhrase .product ts e
  | multiply {ts us : List Token} {a b : Expr String} {t : Token} {p : Primitive}
      (ha : ExprPhrase .product ts a) (ht : ProductOperator t p) (hb : ExprPhrase .unary us b) :
      ExprPhrase .product (ts ++ t :: us) (.apply p [a, b])
  | negative {n : Nat} {v : Value} (h : v.toInt = -n) :
      ExprPhrase .unary [.minus true, .number n] (.literal v)
  | operand {ts : List Token} {e : Expr String} (h : ExprPhrase .operand ts e)
      (hliteral : ∀ n us, ts ≠ .minus true :: .number n :: us) : ExprPhrase .unary ts e
  | operate {ts : List Token} {e : Expr String} {t : Token} {p : Primitive}
      (ht : UnaryOperator t p) (h : ExprPhrase .operand ts e) :
      ExprPhrase .operand (t :: ts) (.apply p [e])
  | atom {ts : List Token} {e : Expr String} (h : ExprPhrase .atom ts e) : ExprPhrase .operand ts e
  | number {n : Nat} {v : Value} (h : v.toInt = n) : ExprPhrase .atom [.number n] (.literal v)
  | true_ : ExprPhrase .atom [.keyword .true_] (.literal 1)
  | false_ : ExprPhrase .atom [.keyword .false_] (.literal 0)
  | input : ExprPhrase .atom [.keyword .input_] (.apply .input [])
  | variable (x : String) : ExprPhrase .atom [.name x] (.var x)
  | call (f : String) {args : List (List Token × Expr String)}
      (h : ∀ a ∈ args, ExprPhrase .expr a.1 a.2) :
      ExprPhrase .atom (.name f :: .symbol .openParen :: actuals args)
        (.call f (args.map Prod.snd))
  | parens {ts : List Token} {e : Expr String} (h : ExprPhrase .expr ts e) :
      ExprPhrase .atom (.symbol .openParen :: ts ++ [.symbol .closeParen]) e
  | ifElse {cs ts us : List Token} {c a b : Expr String} (hc : ExprPhrase .expr cs c)
      (ha : ExprPhrase .expr ts a) (hb : ExprPhrase .expr us b) :
      ExprPhrase .atom
        (.keyword .if_ :: cs ++ .keyword .then_ :: ts ++ .keyword .else_ :: us ++
          [.keyword .end_])
        (.ifElse c a b)

lemma actuals_singleton {α : Type} (a : List Token × α) :
    actuals [a] = a.1 ++ [.symbol .closeParen] := by
  simp [actuals]

lemma actuals_cons_cons {α : Type} (a b : List Token × α) (args : List (List Token × α)) :
    actuals (a :: b :: args) = a.1 ++ .symbol .comma :: actuals (b :: args) := by
  simp [actuals, List.intercalate_cons_cons]

/-- Sums and products, which are rows of operators that associate to the left. -/
inductive Chain where
  | sum | product

namespace Chain

def kind : Chain → ExprKind
  | sum => .sum
  | product => .product

/-- The phrases between the operators. -/
def item : Chain → ExprKind
  | sum => .product
  | product => .unary

def Operator : Chain → Token → Primitive → Prop
  | sum => SumOperator
  | product => ProductOperator

variable {c : Chain} {ts us : List Token} {a b e : Expr String}

lemma phrase_of_item (h : ExprPhrase c.item ts e) : ExprPhrase c.kind ts e := by
  cases c with
  | sum => exact .product h
  | product => exact .unary h

lemma phrase_append (ha : ExprPhrase c.kind ts a) {t : Token} {p : Primitive}
    (ht : c.Operator t p) (hb : ExprPhrase c.item us b) :
    ExprPhrase c.kind (ts ++ t :: us) (.apply p [a, b]) := by
  cases c with
  | sum => exact .add ha ht hb
  | product => exact .multiply ha ht hb

end Chain

/-! ### Statements -/

/-- One or more names with commas between them. -/
inductive Names : List Token → List String → Prop where
  | one (x : String) : Names [.name x] [x]
  | more (x : String) {ts : List Token} {xs : List String} (h : Names ts xs) :
      Names (.name x :: .symbol .comma :: ts) (x :: xs)

/-- The phrases that stand for statements. -/
inductive StmtKind where
  | statement | sequence | statements | block

inductive StmtPhrase : StmtKind → List Token → Stmt String → Prop where
  | skip : StmtPhrase .statement [.keyword .skip_] .skip
  | block {ts : List Token} {s : Stmt String} (h : StmtPhrase .block ts s) :
      StmtPhrase .statement ts s
  | ifThen {cs ts : List Token} {c : Expr String} {a : Stmt String} (hc : ExprPhrase .expr cs c)
      (ha : StmtPhrase .statements ts a) :
      StmtPhrase .statement (.keyword .if_ :: cs ++ .keyword .then_ :: ts ++ [.keyword .end_])
        (.ifThen c a)
  | ifElse {cs ts us : List Token} {c : Expr String} {a b : Stmt String}
      (hc : ExprPhrase .expr cs c) (ha : StmtPhrase .statements ts a)
      (hb : StmtPhrase .statements us b) :
      StmtPhrase .statement
        (.keyword .if_ :: cs ++ .keyword .then_ :: ts ++ .keyword .else_ :: us ++
          [.keyword .end_])
        (.ifElse c a b)
  | whileDo {cs ts : List Token} {c : Expr String} {a : Stmt String} (hc : ExprPhrase .expr cs c)
      (ha : StmtPhrase .statements ts a) :
      StmtPhrase .statement (.keyword .while_ :: cs ++ .keyword .do_ :: ts ++ [.keyword .end_])
        (.whileDo c a)
  | repeatUntil {cs ts : List Token} {c : Expr String} {a : Stmt String}
      (ha : StmtPhrase .statements ts a) (hc : ExprPhrase .expr cs c) :
      StmtPhrase .statement (.keyword .repeat_ :: ts ++ .keyword .until_ :: cs) (.repeatUntil a c)
  | print {ts : List Token} {e : Expr String} (h : ExprPhrase .expr ts e) :
      StmtPhrase .statement (.keyword .print_ :: ts) (.print e)
  | ret {ts : List Token} {e : Expr String} (h : ExprPhrase .expr ts e) :
      StmtPhrase .statement (.keyword .return_ :: ts) (.ret e)
  | assign (x : String) {ts : List Token} {e : Expr String} (h : ExprPhrase .expr ts e) :
      StmtPhrase .statement (.name x :: .symbol .assign :: ts) (.assign x e)
  | call (f : String) {args : List (List Token × Expr String)}
      (h : ∀ a ∈ args, ExprPhrase .expr a.1 a.2) :
      StmtPhrase .statement (.name f :: .symbol .openParen :: actuals args)
        (.call f (args.map Prod.snd))
  | one {ts : List Token} {s : Stmt String} (h : StmtPhrase .statement ts s) :
      StmtPhrase .sequence ts s
  | more {ts us : List Token} {s r : Stmt String} (h : StmtPhrase .statement ts s)
      (hr : StmtPhrase .sequence us r) :
      StmtPhrase .sequence (ts ++ .symbol .semicolon :: us) (.seq s r)
  | none : StmtPhrase .statements [] .skip
  | sequence {ts : List Token} {s : Stmt String} (h : StmtPhrase .sequence ts s) :
      StmtPhrase .statements ts s
  | trailing {ts : List Token} {s : Stmt String} (h : StmtPhrase .sequence ts s) :
      StmtPhrase .statements (ts ++ [.symbol .semicolon]) s
  | plain {ts : List Token} {s : Stmt String} (h : StmtPhrase .statements ts s) :
      StmtPhrase .block (.keyword .begin_ :: ts ++ [.keyword .end_]) s
  /-- One block for each variable, the first one outermost. -/
  | declare {ns ts : List Token} {xs : List String} {s : Stmt String} (hx : Names ns xs)
      (h : StmtPhrase .statements ts s) :
      StmtPhrase .block
        (.keyword .begin_ :: .keyword .var_ :: ns ++ .symbol .semicolon :: ts ++ [.keyword .end_])
        (xs.foldr .block s)

/-- Statements with a semicolon after each but the last one, which may have one too. -/
inductive Separated : List Token → List (Stmt String) → Prop where
  | nil : Separated [] []
  | last {ts : List Token} {s : Stmt String} (h : StmtPhrase .statement ts s) : Separated ts [s]
  | cons {ts us : List Token} {s : Stmt String} {ss : List (Stmt String)}
      (h : StmtPhrase .statement ts s) (hs : Separated us ss) :
      Separated (ts ++ .symbol .semicolon :: us) (s :: ss)

lemma Separated.exists_sequence {ts : List Token} {ss : List (Stmt String)} (h : Separated ts ss)
    (hne : ss ≠ []) :
    ∃ us, (ts = us ∨ ts = us ++ [.symbol .semicolon]) ∧
      StmtPhrase .sequence us (.ofList ss) := by
  induction h with
  | nil => exact absurd rfl hne
  | last h => exact ⟨_, .inl rfl, .one h⟩
  | @cons ts us s ss h hs ih =>
    cases ss with
    | nil =>
      cases hs
      exact ⟨ts, .inr rfl, .one h⟩
    | cons s' ss =>
      obtain ⟨vs, hvs, hseq⟩ := ih (List.cons_ne_nil s' ss)
      refine ⟨ts ++ .symbol .semicolon :: vs, ?_, .more h hseq⟩
      rcases hvs with rfl | rfl
      · exact .inl rfl
      · exact .inr (by simp)

lemma StmtPhrase.exists_separated_of_sequence {ts : List Token} {s : Stmt String}
    (h : StmtPhrase .sequence ts s) :
    ∃ ss, ss ≠ [] ∧ s = .ofList ss ∧ Separated ts ss ∧
      Separated (ts ++ [.symbol .semicolon]) ss := by
  generalize hk : StmtKind.sequence = k at h
  induction h with
  | one h => exact ⟨_, List.cons_ne_nil _ _, rfl, .last h, .cons h .nil⟩
  | more h _ _ ih =>
    obtain ⟨ss, hne, rfl, hss, htrailing⟩ := ih hk
    refine ⟨_ :: ss, List.cons_ne_nil _ _, ?_, .cons h hss, ?_⟩
    · cases ss with
      | nil => exact absurd rfl hne
      | cons s' ss => rfl
    · rw [List.append_assoc]
      exact .cons h htrailing
  | _ => cases hk

lemma statements_iff {ts : List Token} {s : Stmt String} :
    StmtPhrase .statements ts s ↔ ∃ ss, Separated ts ss ∧ s = .ofList ss := by
  constructor
  · intro h
    cases h with
    | none => exact ⟨[], .nil, rfl⟩
    | sequence h =>
      obtain ⟨ss, -, hs, hss, -⟩ := h.exists_separated_of_sequence
      exact ⟨ss, hss, hs⟩
    | trailing h =>
      obtain ⟨ss, -, hs, -, hss⟩ := h.exists_separated_of_sequence
      exact ⟨ss, hss, hs⟩
  · rintro ⟨ss, hss, rfl⟩
    cases ss with
    | nil =>
      cases hss
      exact .none
    | cons s ss =>
      obtain ⟨us, rfl | rfl, hseq⟩ := hss.exists_sequence (List.cons_ne_nil s ss)
      · exact .sequence hseq
      · exact .trailing hseq

/-! ### Programs -/

inductive ProcedurePhrase : List Token → Procedure → Prop where
  | plain (f : String) {ts : List Token} {s : Stmt String} (h : StmtPhrase .block ts s) :
      ProcedurePhrase
        (.keyword .procedure_ :: .name f :: .symbol .openParen :: .symbol .closeParen :: ts)
        ⟨f, [], s⟩
  | formals (f : String) {ns ts : List Token} {xs : List String} {s : Stmt String}
      (hx : Names ns xs) (h : StmtPhrase .block ts s) :
      ProcedurePhrase
        (.keyword .procedure_ :: .name f :: .symbol .openParen :: ns ++
          .symbol .closeParen :: ts)
        ⟨f, xs, s⟩

inductive ProgramPhrase : List Token → Program → Prop where
  | mk (source : String) {ps : List (List Token × Procedure)} {ts : List Token} {s : Stmt String}
      (hp : ∀ p ∈ ps, ProcedurePhrase p.1 p.2) (h : StmtPhrase .statements ts s) :
      ProgramPhrase (ps.flatMap Prod.fst ++ ts) ⟨source, ps.map Prod.snd, s⟩

end Izmir.Grammar
