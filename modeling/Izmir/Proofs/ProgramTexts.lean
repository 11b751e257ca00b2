import Izmir.Proofs.ParserCompleteness
import Izmir.Proofs.Trees

/-!
# The programs that have a text

A tree can be written down when its names are identifiers, its primitives have the operands
they take and none of them is the one that has no operator. What is read from a text is such a
tree, since the grammar derives no other. Conversely each such tree is printed, every
application in parentheses and every sequence between `begin` and `end`, and is read back from
what was printed.
-/

namespace Izmir

open Grammar Text
open Token (Splits Lexeme next?)

/-- The words that name procedures and variables. -/
def IsIdentifier (w : String) : Prop :=
  isName w.toList ∧ ∀ k : Keyword, k.text ≠ w

mutual

/-- The expressions that have a text. -/
def Expr.Expressible : Expr String → Prop
  | .literal _ => True
  | .var x => IsIdentifier x
  | .ifElse c a b => c.Expressible ∧ a.Expressible ∧ b.Expressible
  | .apply p es => p ≠ .isNonzero ∧ es.length = p.arity ∧ Expr.AllExpressible es
  | .call f es => IsIdentifier f ∧ Expr.AllExpressible es

def Expr.AllExpressible : List (Expr String) → Prop
  | [] => True
  | e :: es => e.Expressible ∧ Expr.AllExpressible es

end

lemma Expr.allExpressible_iff {es : List (Expr String)} :
    Expr.AllExpressible es ↔ ∀ e ∈ es, e.Expressible := by
  induction es with
  | nil => simp [AllExpressible]
  | cons e es ih => simp [AllExpressible, ih]

/-- The statements that have a text. -/
def Stmt.Expressible : Stmt String → Prop
  | .skip => True
  | .block x a => IsIdentifier x ∧ a.Expressible
  | .assign x e => IsIdentifier x ∧ e.Expressible
  | .print e => e.Expressible
  | .seq a b => a.Expressible ∧ b.Expressible
  | .ifElse c a b => c.Expressible ∧ a.Expressible ∧ b.Expressible
  | .ifThen c a => c.Expressible ∧ a.Expressible
  | .whileDo c a => c.Expressible ∧ a.Expressible
  | .repeatUntil a c => a.Expressible ∧ c.Expressible
  | .ret e => e.Expressible
  | .call f es => IsIdentifier f ∧ Expr.AllExpressible es

structure Procedure.Expressible (p : Procedure) : Prop where
  name : IsIdentifier p.name
  formals : ∀ x ∈ p.formals, IsIdentifier x
  body : p.body.Expressible

structure Program.Expressible (p : Program) : Prop where
  procedures : ∀ q ∈ p.procedures, q.Expressible
  main : p.main.Expressible

/-! ### What is read can be written -/

/-- The names among some tokens are identifiers. -/
def Named (ts : List Token) : Prop :=
  ∀ w, .name w ∈ ts → IsIdentifier w

@[simp] lemma named_nil : Named [] := by
  simp [Named]

@[simp] lemma named_cons_iff {t : Token} {ts : List Token} :
    Named (t :: ts) ↔ (∀ w, t = .name w → IsIdentifier w) ∧ Named ts := by
  simp only [Named, List.mem_cons]
  grind

@[simp] lemma named_append_iff {ts us : List Token} : Named (ts ++ us) ↔ Named ts ∧ Named us := by
  simp only [Named, List.mem_append]
  grind

lemma Token.Splits.named {cs : List Char} {ts : List Token} (h : Splits cs ts) : Named ts := by
  induction h with
  | nil => exact named_nil
  | @cons cs rest t ts h _ _ ih =>
    refine named_append_iff.mpr ⟨fun w hw => ?_, ih⟩
    cases h with
    | name h hk =>
      cases List.mem_singleton.mp hw
      exact ⟨h, hk⟩
    | _ => simp at hw

namespace Grammar

lemma binary_arity {t : Token} {p : Primitive}
    (h : Comparison t p ∨ SumOperator t p ∨ ProductOperator t p) :
    p ≠ .isNonzero ∧ 2 = p.arity := by
  rcases h with h | h | h <;> cases h <;> decide

lemma unary_arity {t : Token} {p : Primitive} (h : UnaryOperator t p) :
    p ≠ .isNonzero ∧ 1 = p.arity := by
  cases h <;> decide

/-- An operator between two phrases. -/
lemma expressible_binary {t : Token} {p : Primitive} {ts us : List Token} {a b : Expr String}
    (h : Comparison t p ∨ SumOperator t p ∨ ProductOperator t p)
    (ha : Named ts → a.Expressible) (hb : Named us → b.Expressible) (hts : Named (ts ++ t :: us)) :
    (Expr.apply p [a, b]).Expressible := by
  obtain ⟨hne, harity⟩ := binary_arity h
  simp only [named_append_iff, named_cons_iff] at hts
  exact ⟨hne, harity, ha hts.1, hb hts.2.2, trivial⟩

lemma mem_actuals {α : Type} {args : List (List Token × α)} {a : List Token × α} (ha : a ∈ args)
    {t : Token} (ht : t ∈ a.1) : t ∈ actuals args := by
  induction args with
  | nil => cases ha
  | cons b args ih =>
    cases args with
    | nil =>
      cases List.mem_singleton.mp ha
      rw [actuals_singleton]
      exact List.mem_append_left _ ht
    | cons c args =>
      rw [actuals_cons_cons]
      rcases List.mem_cons.mp ha with rfl | ha
      · exact List.mem_append_left _ ht
      · exact List.mem_append_right _ (List.mem_cons_of_mem _ (ih ha))

lemma ExprPhrase.expressible {k : ExprKind} {ts : List Token} {e : Expr String}
    (h : ExprPhrase k ts e) (hts : Named ts) : e.Expressible := by
  induction h with
  | sum _ ih | product _ ih | unary _ ih | operand _ _ ih | atom _ ih => exact ih hts
  | compare _ ht _ iha ihb => exact expressible_binary (.inl ht) iha ihb hts
  | add _ ht _ iha ihb => exact expressible_binary (.inr (.inl ht)) iha ihb hts
  | multiply _ ht _ iha ihb => exact expressible_binary (.inr (.inr ht)) iha ihb hts
  | operate ht _ ih =>
    exact ⟨(unary_arity ht).1, (unary_arity ht).2, ih (named_cons_iff.mp hts).2, trivial⟩
  | negative | number | true_ | false_ => trivial
  | input => exact ⟨by decide, rfl, trivial⟩
  | «variable» x => exact hts x List.mem_cons_self
  | call f _ ih =>
    refine ⟨hts f List.mem_cons_self, Expr.allExpressible_iff.mpr fun e he => ?_⟩
    obtain ⟨a, ha, rfl⟩ := List.mem_map.mp he
    refine ih a ha fun w hw => hts w ?_
    exact List.mem_cons_of_mem _ (List.mem_cons_of_mem _ (mem_actuals ha hw))
  | parens _ ih =>
    simp only [List.cons_append, named_cons_iff, named_append_iff] at hts
    exact ih hts.2.1
  | ifElse _ _ _ ihc iha ihb =>
    simp only [List.cons_append, List.append_assoc, named_cons_iff, named_append_iff] at hts
    exact ⟨ihc hts.2.1, iha hts.2.2.2.1, ihb hts.2.2.2.2.2.1⟩

lemma Names.isIdentifier {ts : List Token} {xs : List String} (h : Names ts xs) (hts : Named ts) :
    ∀ x ∈ xs, IsIdentifier x := by
  induction h with
  | one x => exact List.forall_mem_singleton.mpr (hts x List.mem_cons_self)
  | more x _ ih =>
    simp only [named_cons_iff] at hts
    exact List.forall_mem_cons.mpr ⟨hts.1 x rfl, ih hts.2.2⟩

end Grammar

lemma Stmt.expressible_foldr_block {xs : List String} {s : Stmt String}
    (hxs : ∀ x ∈ xs, IsIdentifier x) (hs : s.Expressible) :
    (xs.foldr Stmt.block s).Expressible := by
  induction xs with
  | nil => exact hs
  | cons x xs ih =>
    obtain ⟨hx, hxs⟩ := List.forall_mem_cons.mp hxs
    exact ⟨hx, ih hxs⟩

namespace Grammar

lemma StmtPhrase.expressible {k : StmtKind} {ts : List Token} {s : Stmt String}
    (h : StmtPhrase k ts s) (hts : Named ts) : s.Expressible := by
  induction h with
  | skip | none => trivial
  | block _ ih | one _ ih | sequence _ ih => exact ih hts
  | ifThen hc _ ih =>
    simp only [List.cons_append, List.append_assoc, named_cons_iff, named_append_iff] at hts
    exact ⟨hc.expressible hts.2.1, ih hts.2.2.2.1⟩
  | ifElse hc _ _ iha ihb =>
    simp only [List.cons_append, List.append_assoc, named_cons_iff, named_append_iff] at hts
    exact ⟨hc.expressible hts.2.1, iha hts.2.2.2.1, ihb hts.2.2.2.2.2.1⟩
  | whileDo hc _ ih =>
    simp only [List.cons_append, List.append_assoc, named_cons_iff, named_append_iff] at hts
    exact ⟨hc.expressible hts.2.1, ih hts.2.2.2.1⟩
  | repeatUntil _ hc ih =>
    simp only [List.cons_append, named_cons_iff, named_append_iff] at hts
    exact ⟨ih hts.2.1, hc.expressible hts.2.2.2⟩
  | print h | ret h => exact h.expressible (named_cons_iff.mp hts).2
  | assign x h =>
    simp only [named_cons_iff] at hts
    exact ⟨hts.1 x rfl, h.expressible hts.2.2⟩
  | call f h => exact ExprPhrase.expressible (.call f h) hts
  | more _ _ ih ihr =>
    simp only [named_append_iff, named_cons_iff] at hts
    exact ⟨ih hts.1, ihr hts.2.2⟩
  | trailing _ ih => exact ih (named_append_iff.mp hts).1
  | plain _ ih =>
    simp only [List.cons_append, named_cons_iff, named_append_iff] at hts
    exact ih hts.2.1
  | declare hx _ ih =>
    simp only [List.cons_append, List.append_assoc, named_cons_iff, named_append_iff] at hts
    exact Stmt.expressible_foldr_block (hx.isIdentifier hts.2.2.1) (ih hts.2.2.2.2.1)

lemma ProcedurePhrase.expressible {ts : List Token} {p : Procedure} (h : ProcedurePhrase ts p)
    (hts : Named ts) : p.Expressible := by
  cases h with
  | plain f h =>
    simp only [named_cons_iff] at hts
    exact ⟨hts.2.1 f rfl, by simp, h.expressible hts.2.2.2.2⟩
  | formals f hx h =>
    simp only [List.cons_append, named_cons_iff, named_append_iff] at hts
    exact ⟨hts.2.1 f rfl, hx.isIdentifier hts.2.2.2.1, h.expressible hts.2.2.2.2.2⟩

lemma ProgramPhrase.expressible {ts : List Token} {p : Program} (h : ProgramPhrase ts p)
    (hts : Named ts) : p.Expressible := by
  obtain ⟨source, hp, hs⟩ := h
  obtain ⟨hps, hmain⟩ := named_append_iff.mp hts
  refine ⟨fun q hq => ?_, hs.expressible hmain⟩
  obtain ⟨a, ha, rfl⟩ := List.mem_map.mp hq
  exact (hp a ha).expressible fun w hw => hps w (List.mem_flatMap.mpr ⟨a, ha, hw⟩)

end Grammar

/-! ### Tokens and their spelling -/

lemma Text.Decimal.head_ofNat_ne_zero {n : Nat} (h : 0 < n) {c : Char} {cs : List Char}
    (hn : ofNat n = c :: cs) : c ≠ '0' := by
  induction n using Nat.strongRecOn generalizing cs with
  | ind n ih =>
    unfold ofNat at hn
    by_cases hlt : n < 10
    · rw [Nat.toDigits_of_lt_base hlt] at hn
      obtain ⟨rfl, -⟩ := List.cons.inj hn
      interval_cases n <;> decide
    · rw [Nat.toDigits_of_base_le (by decide) (by omega)] at hn
      obtain ⟨d, ds, hds, -⟩ := exists_ofNat_eq_cons (n / 10)
      rw [show Nat.toDigits 10 (n / 10) = d :: ds from hds] at hn
      obtain ⟨rfl, -⟩ := List.cons.inj hn
      exact ih (n / 10) (by omega) (by omega) hds

namespace Token

/-- A token written down, with a blank behind it unless the next one has to touch it. -/
def spelling : Token → List Char
  | .keyword k => k.text.toList ++ [' ']
  | .name w => w.toList ++ [' ']
  | .number n => Decimal.ofNat n ++ [' ']
  | .minus true => ['-']
  | .minus false => ['-', ' ']
  | .symbol s => s.text.toList ++ [' ']

/-- Some tokens, written one after the other, are split into themselves whatever follows. -/
def Spelled (ts : List Token) : Prop :=
  ∀ rest us, Splits rest us → Splits (ts.flatMap spelling ++ rest) (ts ++ us)

lemma splits_of_next? {cs rest : List Char} {t : Option Token} {us : List Token}
    (h : next? cs = some (t, rest)) (hrest : Splits rest us) : Splits cs (t.toList ++ us) := by
  cases cs with
  | nil => cases h
  | cons c cs => exact splits_cons_iff.mpr ⟨t, rest, us, h, hrest, rfl⟩

lemma spelled_nil : Spelled [] :=
  fun _ _ h => h

lemma Spelled.append {ts us : List Token} (ht : Spelled ts) (hu : Spelled us) :
    Spelled (ts ++ us) := by
  intro rest vs h
  rw [List.flatMap_append, List.append_assoc, List.append_assoc]
  exact ht _ _ (hu _ _ h)

lemma Spelled.flatMap {α : Type} {f : α → List Token} {as : List α}
    (h : ∀ a ∈ as, Spelled (f a)) : Spelled (as.flatMap f) := by
  induction as with
  | nil => exact spelled_nil
  | cons a as ih =>
    obtain ⟨ha, has⟩ := List.forall_mem_cons.mp h
    exact ha.append (ih has)

/-- A token that is taken from in front of a blank. -/
lemma spelled_of_next? {t : Token} {w : List Char} (hw : t.spelling = w ++ [' '])
    (hnext : ∀ rest, next? (w ++ ' ' :: rest) = some (some t, ' ' :: rest)) : Spelled [t] := by
  intro rest us h
  rw [List.flatMap_singleton, hw, List.append_assoc]
  exact splits_of_next? (hnext rest) (splits_of_next? (next?_blank isBlank_space rest) h)

lemma next?_word_blank {w : List Char} (h : isName w) (rest : List Char) :
    next? (w ++ ' ' :: rest) = some (some (ofWord w), ' ' :: rest) := by
  rw [next?_word h, List.takeWhile_cons_of_neg (by decide), List.dropWhile_cons_of_neg (by decide),
    List.append_nil]

lemma next?_number_blank (n : Nat) (rest : List Char) :
    next? (Decimal.ofNat n ++ ' ' :: rest) = some (some (.number n), ' ' :: rest) := by
  cases n with
  | zero => rfl
  | succ n =>
    obtain ⟨c, cs, hn, hc⟩ := Decimal.exists_ofNat_eq_cons (n + 1)
    have hzero : c ≠ '0' := Decimal.head_ofNat_ne_zero (Nat.succ_pos n) hn
    have hcs : ∀ d ∈ cs, d.isDigit := fun d hd =>
      Decimal.isDigit_of_mem_ofNat (n := n + 1) (hn ▸ List.mem_cons_of_mem c hd)
    have hvalue : Nat.ofDigitChars 10 (c :: cs) 0 = n + 1 := by
      rw [← hn]
      exact Nat.ofDigitChars_toDigits (by decide) le_rfl
    rw [hn, next?_number hc hzero hcs, List.takeWhile_cons_of_neg (by decide),
      List.dropWhile_cons_of_neg (by decide), List.append_nil, hvalue]

lemma spelled_keyword (k : Keyword) : Spelled [.keyword k] := by
  refine spelled_of_next? rfl fun rest => ?_
  rw [next?_word_blank k.isName_text, ofWord_keyword]

lemma spelled_name {w : String} (h : IsIdentifier w) : Spelled [.name w] := by
  refine spelled_of_next? rfl fun rest => ?_
  rw [next?_word_blank h.1, ofWord_name h.2]

lemma spelled_number (n : Nat) : Spelled [.number n] :=
  spelled_of_next? rfl (next?_number_blank n)

lemma spelled_symbol (s : Symbol) : Spelled [.symbol s] := by
  refine spelled_of_next? rfl fun rest => ?_
  cases s <;> rfl

lemma spelled_minus : Spelled [.minus false] :=
  spelled_of_next? (w := ['-']) rfl fun _ => rfl

lemma spelled_negative (n : Nat) : Spelled [.minus true, .number n] := by
  intro rest us h
  obtain ⟨c, cs, hn, hc⟩ := Decimal.exists_ofNat_eq_cons n
  have hdigit : startsWithDigit (Decimal.ofNat n ++ ' ' :: rest) = true := by
    rw [hn]
    exact hc
  have hnext : next? ('-' :: (Decimal.ofNat n ++ ' ' :: rest)) =
      some (some (.minus true), Decimal.ofNat n ++ ' ' :: rest) := by
    rw [← hdigit]
    rfl
  have hnumber := spelled_number n rest us h
  simp only [List.flatMap_cons, spelling, List.flatMap_nil, List.append_nil, List.append_assoc,
    List.cons_append, List.nil_append] at hnumber ⊢
  exact splits_of_next? hnext hnumber

lemma Spelled.text {ts : List Token} (h : Spelled ts) : Splits (ts.flatMap spelling) ts := by
  simpa using h [] [] .nil

end Token

/-! ### Printing -/

/-- The sign of a primitive, or the word for it. -/
def Primitive.operator : Primitive → Token
  | plus => .symbol .plus
  | minus | unaryMinus => .minus false
  | times => .symbol .times
  | divided => .symbol .over
  | remainder => .symbol .percent
  | equal => .symbol .equal
  | different => .symbol .different
  | less => .symbol .less
  | lessOrEqual => .symbol .lessOrEqual
  | greater => .symbol .greater
  | greaterOrEqual => .symbol .greaterOrEqual
  | logicalNot | isNonzero => .keyword .not_
  | input => .keyword .input_

/-- Some tokens between parentheses. -/
def inParens (ts : List Token) : List Token :=
  .symbol .openParen :: ts ++ [.symbol .closeParen]

def Value.tokens (v : Value) : List Token :=
  match v.toInt with
  | .ofNat n => [.number n]
  | .negSucc n => inParens [.minus true, .number (n + 1)]

/-- An operator in front of its operand or between two, in parentheses. -/
def applied (t : Token) : List (List Token) → List Token
  | [ts] => inParens (t :: ts)
  | [ts, us] => inParens (ts ++ t :: us)
  | _ => [t]

mutual

def Expr.tokens : Expr String → List Token
  | .literal v => v.tokens
  | .var x => [.name x]
  | .ifElse c a b =>
    .keyword .if_ :: c.tokens ++ .keyword .then_ :: a.tokens ++ .keyword .else_ :: b.tokens ++
      [.keyword .end_]
  | .apply p es => applied p.operator ((Expr.printed es).map Prod.fst)
  | .call f es => .name f :: .symbol .openParen :: actuals (Expr.printed es)

/-- Each expression with its tokens. -/
def Expr.printed : List (Expr String) → List (List Token × Expr String)
  | [] => []
  | e :: es => (e.tokens, e) :: Expr.printed es

end

lemma Expr.printed_eq_map (es : List (Expr String)) :
    Expr.printed es = es.map fun e => (e.tokens, e) := by
  induction es with
  | nil => rfl
  | cons e es ih => rw [printed, ih, List.map_cons]

lemma Expr.map_snd_printed (es : List (Expr String)) : (Expr.printed es).map Prod.snd = es := by
  rw [printed_eq_map, List.map_map]
  exact List.map_id es

/-- A sequence and the body of a block stand between `begin` and `end`. -/
def Stmt.tokens : Stmt String → List Token
  | .skip => [.keyword .skip_]
  | .block x a =>
    .keyword .begin_ :: .keyword .var_ :: [.name x] ++ .symbol .semicolon :: a.tokens ++
      [.keyword .end_]
  | .assign x e => .name x :: .symbol .assign :: e.tokens
  | .print e => .keyword .print_ :: e.tokens
  | .seq a b => .keyword .begin_ :: (a.tokens ++ .symbol .semicolon :: b.tokens) ++ [.keyword .end_]
  | .ifElse c a b =>
    .keyword .if_ :: c.tokens ++ .keyword .then_ :: a.tokens ++ .keyword .else_ :: b.tokens ++
      [.keyword .end_]
  | .ifThen c a => .keyword .if_ :: c.tokens ++ .keyword .then_ :: a.tokens ++ [.keyword .end_]
  | .whileDo c a => .keyword .while_ :: c.tokens ++ .keyword .do_ :: a.tokens ++ [.keyword .end_]
  | .repeatUntil a c => .keyword .repeat_ :: a.tokens ++ .keyword .until_ :: c.tokens
  | .ret e => .keyword .return_ :: e.tokens
  | .call f es => (Expr.call f es).tokens

/-- Names with commas between them. -/
def nameRow : List String → List Token
  | [] => []
  | [x] => [.name x]
  | x :: y :: xs => .name x :: .symbol .comma :: nameRow (y :: xs)

def Procedure.tokens (p : Procedure) : List Token :=
  .keyword .procedure_ :: .name p.name :: .symbol .openParen :: nameRow p.formals ++
    .symbol .closeParen :: (.keyword .begin_ :: p.body.tokens ++ [.keyword .end_])

def Program.tokens (p : Program) : List Token :=
  p.procedures.flatMap (·.tokens) ++ p.main.tokens

/-- A text of a program. -/
def Program.text (p : Program) : String :=
  String.ofList (p.tokens.flatMap Token.spelling)

/-! ### What is printed is split into its tokens -/

namespace Token.Spelled

variable {ts : List Token}

lemma keyword (k : Keyword) (h : Spelled ts) : Spelled (.keyword k :: ts) :=
  (spelled_keyword k).append h

lemma symbol (s : Symbol) (h : Spelled ts) : Spelled (.symbol s :: ts) :=
  (spelled_symbol s).append h

lemma name {w : String} (hw : IsIdentifier w) (h : Spelled ts) : Spelled (.name w :: ts) :=
  (spelled_name hw).append h

lemma operator (p : Primitive) (h : Spelled ts) : Spelled (p.operator :: ts) := by
  cases p with
  | minus | unaryMinus => exact spelled_minus.append h
  | logicalNot | isNonzero | input => exact keyword _ h
  | _ => exact symbol _ h

lemma inParens (h : Spelled ts) : Spelled (inParens ts) :=
  (symbol .openParen h).append (spelled_symbol .closeParen)

lemma actuals {α : Type} {args : List (List Token × α)} (h : ∀ a ∈ args, Spelled a.1) :
    Spelled (actuals args) := by
  induction args with
  | nil => exact spelled_symbol .closeParen
  | cons a args ih =>
    obtain ⟨ha, hargs⟩ := List.forall_mem_cons.mp h
    cases args with
    | nil =>
      rw [actuals_singleton]
      exact ha.append (spelled_symbol .closeParen)
    | cons b args =>
      rw [actuals_cons_cons]
      exact ha.append (symbol .comma (ih hargs))

lemma applied (p : Primitive) {tss : List (List Token)} (h : ∀ ts ∈ tss, Spelled ts) :
    Spelled (applied p.operator tss) := by
  unfold Izmir.applied
  split
  · exact inParens (operator p (h _ List.mem_cons_self))
  · exact inParens ((h _ List.mem_cons_self).append (operator p (h _ (by simp))))
  · exact operator p spelled_nil

end Token.Spelled

open Token (Spelled spelled_keyword spelled_number spelled_negative spelled_nil)

lemma Expr.spelled_tokens {e : Expr String} (h : e.Expressible) : Spelled e.tokens := by
  have hall {es : List (Expr String)} (ih : ∀ e ∈ es, e.Expressible → Spelled e.tokens)
      (hes : Expr.AllExpressible es) : ∀ a ∈ Expr.printed es, Spelled a.1 := by
    rw [printed_eq_map]
    exact List.forall_mem_map.mpr fun e he => ih e he (allExpressible_iff.mp hes e he)
  induction e with
  | literal v =>
    rw [tokens, Value.tokens]
    split
    · exact spelled_number _
    · exact .inParens (spelled_negative _)
  | var x => exact .name h spelled_nil
  | ifElse c a b ihc iha ihb =>
    obtain ⟨hc, ha, hb⟩ := h
    refine .append (.append (.append (.keyword _ (ihc hc)) (.keyword _ (iha ha))) ?_) ?_
    · exact .keyword _ (ihb hb)
    · exact spelled_keyword _
  | apply p es ih =>
    obtain ⟨-, -, hes⟩ := h
    exact .applied p (List.forall_mem_map.mpr (hall ih hes))
  | call f es ih =>
    obtain ⟨hf, hes⟩ := h
    exact .name hf (.symbol _ (.actuals (hall ih hes)))

lemma Stmt.spelled_tokens {s : Stmt String} (h : s.Expressible) : Spelled s.tokens := by
  induction s with
  | skip => exact spelled_keyword _
  | block x a ih =>
    obtain ⟨hx, ha⟩ := h
    refine .append (.append (.keyword _ (.keyword _ (.name hx spelled_nil))) ?_) (spelled_keyword _)
    exact .symbol _ (ih ha)
  | assign x e => exact .name h.1 (.symbol _ (Expr.spelled_tokens h.2))
  | print e | ret e => exact .keyword _ (Expr.spelled_tokens h)
  | seq a b iha ihb =>
    obtain ⟨ha, hb⟩ := h
    refine .append (.keyword _ ?_) (spelled_keyword _)
    exact (iha ha).append (.symbol _ (ihb hb))
  | ifElse c a b iha ihb =>
    obtain ⟨hc, ha, hb⟩ := h
    refine .append (.append (.append (.keyword _ ?_) (.keyword _ (iha ha))) ?_) (spelled_keyword _)
    · exact Expr.spelled_tokens hc
    · exact .keyword _ (ihb hb)
  | ifThen c a ih | whileDo c a ih =>
    obtain ⟨hc, ha⟩ := h
    refine .append (.append (.keyword _ ?_) (.keyword _ (ih ha))) (spelled_keyword _)
    exact Expr.spelled_tokens hc
  | repeatUntil a c ih =>
    obtain ⟨ha, hc⟩ := h
    exact .append (.keyword _ (ih ha)) (.keyword _ (Expr.spelled_tokens hc))
  | call f es => exact Expr.spelled_tokens (e := .call f es) h

lemma spelled_nameRow {xs : List String} (h : ∀ x ∈ xs, IsIdentifier x) : Spelled (nameRow xs) := by
  induction xs with
  | nil => exact spelled_nil
  | cons x xs ih =>
    obtain ⟨hx, hxs⟩ := List.forall_mem_cons.mp h
    cases xs with
    | nil => exact .name hx spelled_nil
    | cons y xs => exact .name hx (.symbol _ (ih hxs))

lemma Procedure.spelled_tokens {p : Procedure} (h : p.Expressible) : Spelled p.tokens := by
  refine .append (.keyword _ (.name h.name (.symbol _ (spelled_nameRow h.formals)))) ?_
  exact .symbol _ (.append (.keyword _ (Stmt.spelled_tokens h.body)) (spelled_keyword _))

lemma Program.spelled_tokens {p : Program} (h : p.Expressible) : Spelled p.tokens :=
  .append (.flatMap fun q hq => Procedure.spelled_tokens (h.procedures q hq))
    (Stmt.spelled_tokens h.main)

/-! ### The tokens are a phrase for the tree -/

namespace Grammar

lemma ExprPhrase.of_atom {ts : List Token} {e : Expr String} (h : ExprPhrase .atom ts e)
    (k : ExprKind) : ExprPhrase k ts e := by
  have hliteral : ∀ n us, ts ≠ .minus true :: .number n :: us := by
    cases h <;> simp
  have hunary : ExprPhrase .unary ts e := .operand (.atom h) hliteral
  cases k with
  | expr => exact .sum (.product (.unary hunary))
  | sum => exact .product (.unary hunary)
  | product => exact .unary hunary
  | unary => exact hunary
  | operand => exact .atom h
  | atom => exact h

/-- A statement by itself stands where statements do. -/
lemma StmtPhrase.alone {ts : List Token} {s : Stmt String} (h : StmtPhrase .statement ts s) :
    StmtPhrase .statements ts s :=
  .sequence (.one h)

lemma phrase_binary {p : Primitive} (hp : p.arity = 2) {ts us : List Token} {a b : Expr String}
    (ha : ExprPhrase .atom ts a) (hb : ExprPhrase .atom us b) :
    ExprPhrase .expr (ts ++ p.operator :: us) (.apply p [a, b]) := by
  cases p with
  | plus => exact .sum (.add (ha.of_atom _) .plus (hb.of_atom _))
  | minus => exact .sum (.add (ha.of_atom _) (.minus false) (hb.of_atom _))
  | times => exact .sum (.product (.multiply (ha.of_atom _) .times (hb.of_atom _)))
  | divided => exact .sum (.product (.multiply (ha.of_atom _) .divided (hb.of_atom _)))
  | remainder => exact .sum (.product (.multiply (ha.of_atom _) .remainder (hb.of_atom _)))
  | equal => exact .compare (ha.of_atom _) .equal (hb.of_atom _)
  | different => exact .compare (ha.of_atom _) .different (hb.of_atom _)
  | less => exact .compare (ha.of_atom _) .less (hb.of_atom _)
  | lessOrEqual => exact .compare (ha.of_atom _) .lessOrEqual (hb.of_atom _)
  | greater => exact .compare (ha.of_atom _) .greater (hb.of_atom _)
  | greaterOrEqual => exact .compare (ha.of_atom _) .greaterOrEqual (hb.of_atom _)
  | _ => cases hp

lemma phrase_unary {p : Primitive} (hp : p.arity = 1) (hne : p ≠ .isNonzero) {ts : List Token}
    {a : Expr String} (ha : ExprPhrase .atom ts a) :
    ExprPhrase .expr (p.operator :: ts) (.apply p [a]) := by
  have hoperate {t : Token} (ht : UnaryOperator t p) (hloose : t ≠ .minus true) :
      ExprPhrase .expr (t :: ts) (.apply p [a]) :=
    .sum (.product (.unary (.operand (.operate ht (.atom ha))
      fun n us heq => hloose (List.cons.inj heq).1)))
  cases p with
  | unaryMinus => exact hoperate (.minus false) (by decide)
  | logicalNot => exact hoperate .not (by decide)
  | isNonzero => exact absurd rfl hne
  | _ => cases hp

end Grammar

/-- The actuals of a call, when each expression has its tokens as a phrase. -/
lemma Expr.phrase_printed {es : List (Expr String)}
    (h : ∀ e ∈ es, ExprPhrase .atom e.tokens e) :
    ∀ a ∈ Expr.printed es, ExprPhrase .expr a.1 a.2 := by
  rw [printed_eq_map]
  exact List.forall_mem_map.mpr fun e he => (h e he).of_atom _

lemma Expr.phrase_tokens {e : Expr String} (h : e.Expressible) :
    ExprPhrase .atom e.tokens e := by
  induction e with
  | literal v =>
    rw [tokens, Value.tokens]
    split
    · rename_i n hn
      exact .number hn
    · rename_i n hn
      exact .parens (.sum (.product (.unary (.negative hn))))
  | var x => exact .variable x
  | ifElse c a b ihc iha ihb =>
    obtain ⟨hc, ha, hb⟩ := h
    exact .ifElse ((ihc hc).of_atom _) ((iha ha).of_atom _) ((ihb hb).of_atom _)
  | apply p es ih =>
    obtain ⟨hne, hlength, hes⟩ := h
    have hatom (e : Expr String) (he : e ∈ es) : ExprPhrase .atom e.tokens e :=
      ih e he (allExpressible_iff.mp hes e he)
    rw [tokens, printed_eq_map, List.map_map]
    match es, hlength with
    | [], hlength =>
      obtain rfl : p = .input := by cases p <;> first | rfl | cases hlength
      exact .input
    | [a], hlength => exact .parens (phrase_unary hlength.symm hne (hatom a (by simp)))
    | [a, b], hlength =>
      exact .parens (phrase_binary hlength.symm (hatom a (by simp)) (hatom b (by simp)))
    | _ :: _ :: _ :: _, hlength => cases p <;> cases hlength
  | call f es ih =>
    obtain ⟨-, hes⟩ := h
    have hargs := phrase_printed fun e he => ih e he (allExpressible_iff.mp hes e he)
    have hphrase := ExprPhrase.call f hargs
    rwa [map_snd_printed] at hphrase

lemma Expr.phrase_expr {e : Expr String} (h : e.Expressible) : ExprPhrase .expr e.tokens e :=
  (Expr.phrase_tokens h).of_atom _

lemma Stmt.phrase_tokens {s : Stmt String} (h : s.Expressible) :
    StmtPhrase .statement s.tokens s := by
  induction s with
  | skip => exact .skip
  | block x a ih => exact .block (.declare (.one x) (ih h.2).alone)
  | assign x e => exact .assign x (Expr.phrase_expr h.2)
  | print e => exact .print (Expr.phrase_expr h)
  | seq a b iha ihb => exact .block (.plain (.sequence (.more (iha h.1) (.one (ihb h.2)))))
  | ifElse c a b iha ihb =>
    exact .ifElse (Expr.phrase_expr h.1) (iha h.2.1).alone (ihb h.2.2).alone
  | ifThen c a ih => exact .ifThen (Expr.phrase_expr h.1) (ih h.2).alone
  | whileDo c a ih => exact .whileDo (Expr.phrase_expr h.1) (ih h.2).alone
  | repeatUntil a c ih => exact .repeatUntil (ih h.1).alone (Expr.phrase_expr h.2)
  | ret e => exact .ret (Expr.phrase_expr h)
  | call f es =>
    have hargs := Expr.phrase_printed fun e he =>
      Expr.phrase_tokens (Expr.allExpressible_iff.mp h.2 e he)
    have hphrase := StmtPhrase.call f hargs
    rwa [Expr.map_snd_printed] at hphrase

lemma names_nameRow (x : String) (xs : List String) : Names (nameRow (x :: xs)) (x :: xs) := by
  induction xs generalizing x with
  | nil => exact .one x
  | cons y xs ih => exact .more x (ih y)

lemma Procedure.phrase_tokens {p : Procedure} (h : p.Expressible) : ProcedurePhrase p.tokens p := by
  obtain ⟨f, formals, body⟩ := p
  have hbody : StmtPhrase .block (.keyword .begin_ :: body.tokens ++ [.keyword .end_]) body :=
    .plain (Stmt.phrase_tokens h.body).alone
  cases formals with
  | nil => exact .plain f hbody
  | cons x xs => exact .formals f (names_nameRow x xs) hbody

lemma Program.phrase_tokens {p : Program} (h : p.Expressible) : ProgramPhrase p.tokens p := by
  have hprocedures : ∀ a ∈ p.procedures.map fun q => (q.tokens, q), ProcedurePhrase a.1 a.2 :=
    List.forall_mem_map.mpr fun q hq => Procedure.phrase_tokens (h.procedures q hq)
  have hphrase := ProgramPhrase.mk p.source hprocedures (Stmt.phrase_tokens h.main).alone
  rw [List.flatMap_map, List.map_map] at hphrase
  rwa [show p.procedures.map (Prod.snd ∘ fun q => (q.tokens, q)) = p.procedures from
    List.map_id p.procedures] at hphrase

namespace Program

/-- A program is read from the text that is printed for it. -/
lemma parse?_text {p : Program} (h : p.Expressible) : parse? p.source p.text = some p := by
  have hsplits : Splits p.text.toList p.tokens := by
    rw [text, String.toList_ofList]
    exact (spelled_tokens h).text
  exact parse?_eq_some_of_phrase hsplits (phrase_tokens h)

/-- The programs that are read from some text are those whose names are identifiers and whose
primitives have the operands they take, none of them being the test for a value other than
zero, which has no operator. -/
theorem exists_text_iff_expressible (p : Program) :
    (∃ text, parse? p.source text = some p) ↔ p.Expressible := by
  constructor
  · rintro ⟨text, hparse⟩
    obtain ⟨-, ts, hts, hphrase⟩ := exists_phrase_of_parse? hparse
    exact hphrase.expressible hts.named
  · intro h
    exact ⟨p.text, parse?_text h⟩

end Program

end Izmir
