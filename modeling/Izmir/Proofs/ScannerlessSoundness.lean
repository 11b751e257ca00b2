import Izmir.Proofs.ParserCompleteness
import Izmir.Proofs.TokenReading

/-!
# What ordered choice accepts is in the grammar

Each parser takes a row of tokens from the head of a text, and the row is a phrase of the parser's
construct. There is one rule for each way to make a parser from others. Whether an alternative is
tried only after another one has failed is of no importance here, except for a minus sign before a
number.
-/

namespace Izmir

open Grammar

namespace Scannerless

variable {α β : Type}

/-- Where there is no gap, `p` takes a row of tokens that is related to what it returns. -/
def Takes (p : Reads α) (R : List Token → α → Prop) : Prop :=
  ∀ cs a rest, Trimmed cs → p cs = some (a, rest) → ∃ ts, Lexes cs ts rest ∧ R ts a

/-- Phrases in a row. -/
inductive Rows (R : List Token → α → Prop) : List Token → List α → Prop where
  | nil : Rows R [] []
  | cons {ts us : List Token} {a : α} {as : List α} (h : R ts a) (hs : Rows R us as) :
      Rows R (ts ++ us) (a :: as)

/-- Phrases with a token between them. -/
inductive SeparatedBy (t : Token) (R : List Token → α → Prop) : List Token → List α → Prop where
  | one {ts : List Token} {a : α} (h : R ts a) : SeparatedBy t R ts [a]
  | more {ts us : List Token} {a : α} {as : List α} (h : R ts a) (hs : SeparatedBy t R us as) :
      SeparatedBy t R (ts ++ t :: us) (a :: as)

/-! ### Parsers from parsers -/

section

variable {p q : Reads α} {P R : List Token → α → Prop}

lemma takes_pure {a : α} (h : R [] a) : Takes (pure a) R := by
  rintro cs _ _ hcs ⟨⟩
  exact ⟨[], .nil hcs, h⟩

lemma takes_failure : Takes failure R := by
  rintro cs a rest _ ⟨⟩

/-- What the second parser takes goes behind what the first one took. -/
lemma Takes.bind {f : α → Reads β} {R : List Token → β → Prop} (hp : Takes p P)
    (hf : ∀ a ts, P ts a → Takes (f a) fun us b => R (ts ++ us) b) : Takes (p >>= f) R := by
  intro cs b rest hcs h
  obtain ⟨⟨a, mid⟩, ha, hb⟩ := Option.bind_eq_some_iff.mp h
  obtain ⟨ts, hts, hP⟩ := hp cs a mid hcs ha
  obtain ⟨us, hus, hR⟩ := hf a ts hP mid b rest hts.trimmed_right hb
  exact ⟨ts ++ us, hts.append hus, hR⟩

lemma Takes.orElse (hp : Takes p R) (hq : Takes q R) : Takes (p <|> q) R := by
  intro cs a rest hcs h
  rw [orElse_apply, Option.or_eq_some_iff] at h
  rcases h with h | ⟨-, h⟩
  · exact hp cs a rest hcs h
  · exact hq cs a rest hcs h

lemma Takes.mono (hp : Takes p P) (h : ∀ ts a, P ts a → R ts a) : Takes p R := by
  intro cs a rest hcs ha
  obtain ⟨ts, hts, hP⟩ := hp cs a rest hcs ha
  exact ⟨ts, hts, h ts a hP⟩

lemma Takes.optional (hp : Takes p P) :
    Takes (optional p) fun ts o => (∃ a, o = some a ∧ P ts a) ∨ o = none ∧ ts = [] := by
  refine Takes.orElse ?_ (takes_pure (.inr ⟨rfl, rfl⟩))
  exact hp.bind fun a ts h => takes_pure (.inl ⟨a, rfl, by simpa using h⟩)

lemma Takes.many (hp : Takes p P) (n : Nat) : Takes (many p n) (Rows P) := by
  induction n with
  | zero => exact takes_pure .nil
  | succ n ih =>
    refine Takes.orElse ?_ (takes_pure .nil)
    refine hp.bind fun a ts ha => ih.bind fun as us has => takes_pure ?_
    simpa using Rows.cons ha has

lemma Takes.repeated (hp : Takes p P) : Takes (repeated p) (Rows P) :=
  fun cs => hp.many cs.length cs

lemma SeparatedBy.of_rows {t : Token} {ts us : List Token} {a : α} {as : List α} (ha : P ts a)
    (h : Rows (fun vs b => ∃ ws, vs = t :: ws ∧ P ws b) us as) :
    SeparatedBy t P (ts ++ us) (a :: as) := by
  induction h generalizing ts a with
  | nil =>
    rw [List.append_nil]
    exact .one ha
  | cons h _ ih =>
    obtain ⟨ws, rfl, hb⟩ := h
    exact .more ha (ih hb)

lemma Takes.separatedBy1 (hp : Takes p P) {separator : Reads Unit} {t : Token}
    (ht : Takes separator fun ts _ => ts = [t]) :
    Takes (separatedBy1 p separator) (SeparatedBy t P) := by
  have hrest : Takes (do separator; p) fun vs b => ∃ ws, vs = t :: ws ∧ P ws b := by
    refine ht.bind ?_
    rintro _ _ rfl
    exact hp.mono fun ws b hb => ⟨ws, rfl, hb⟩
  refine hp.bind fun a ts ha => hrest.repeated.bind fun as us has => takes_pure ?_
  simpa using SeparatedBy.of_rows ha has

lemma Takes.separatedBy (hp : Takes p P) {separator : Reads Unit} {t : Token}
    (ht : Takes separator fun ts _ => ts = [t]) :
    Takes (separatedBy p separator) fun ts as => SeparatedBy t P ts as ∨ ts = [] ∧ as = [] :=
  ((hp.separatedBy1 ht).mono fun _ _ => .inl).orElse (takes_pure (.inr ⟨rfl, rfl⟩))

lemma ReadsAs.takes {f : Token → Option α} (h : ReadsAs p f) :
    Takes p fun ts a => ∃ t, ts = [t] ∧ f t = some a := by
  intro cs a rest hcs ha
  rw [h cs hcs] at ha
  obtain ⟨⟨t, mid⟩, hfirst, hmap⟩ := Option.bind_eq_some_iff.mp ha
  obtain ⟨b, hb, heq⟩ := Option.map_eq_some_iff.mp hmap
  cases heq
  exact ⟨[t], .single hfirst, t, rfl, hb⟩

end

/-! ### Words, numbers and symbols -/

lemma takes_of_only {p : Reads Unit} {t : Token} (h : ReadsAs p (only t)) :
    Takes p fun ts _ => ts = [t] := by
  refine h.takes.mono ?_
  rintro _ _ ⟨u, rfl, hu⟩
  by_cases heq : u = t
  · rw [heq]
  · rw [only, if_neg heq] at hu
    cases hu

lemma takes_keyword (k : Keyword) : Takes (keyword k) fun ts _ => ts = [.keyword k] :=
  takes_of_only (readsAs_keyword k)

lemma takes_symbol (s : Symbol) (hs : s ≠ .less ∧ s ≠ .greater) :
    Takes (symbol s.text) fun ts _ => ts = [.symbol s] :=
  takes_of_only (readsAs_symbol s hs)

lemma takes_identifier : Takes identifier fun ts x => ts = [.name x] := by
  refine readsAs_identifier.takes.mono ?_
  rintro _ _ ⟨t, rfl, ht⟩
  cases t with
  | name x =>
    cases ht
    rfl
  | _ => cases ht

lemma takes_integer : Takes integer fun ts v => ∃ n : Nat, ts = [.number n] ∧ v.toInt = n := by
  refine readsAs_integer.takes.mono ?_
  rintro _ _ ⟨t, rfl, ht⟩
  cases t with
  | number n => exact ⟨n, rfl, Value.ofInt?_eq_some_iff.mp ht⟩
  | _ => cases ht

lemma takes_negativeInteger :
    Takes negativeInteger fun ts v => ∃ n : Nat, ts = [.minus true, .number n] ∧ v.toInt = -n := by
  rw [funext negativeInteger_eq]
  refine (takes_of_only (readsAs_taking _)).bind ?_
  rintro _ _ rfl
  refine (readsAs_taking negated?).takes.mono ?_
  rintro _ _ ⟨t, rfl, ht⟩
  cases t with
  | number n => exact ⟨n, rfl, Value.ofInt?_eq_some_iff.mp ht⟩
  | _ => cases ht

lemma negativeInteger_of_lexes {cs rest : List Char} {n : Nat} {us : List Token} {v : Value}
    (h : Lexes cs (.minus true :: .number n :: us) rest) (hv : Value.ofInt? (-n) = some v) :
    ∃ mid, negativeInteger cs = some (v, mid) := by
  obtain _ | ⟨hminus, _ | ⟨hnumber, -⟩⟩ := h
  rw [negativeInteger_eq]
  simp [taking, hminus, hnumber, only, negated?, hv]

/-! ### Expressions -/

lemma exists_actuals_of_separatedBy {ts : List Token} {es : List (Expr String)}
    (h : SeparatedBy (.symbol .comma) (ExprPhrase .expr) ts es) :
    ∃ args, args ≠ [] ∧ (∀ a ∈ args, ExprPhrase .expr a.1 a.2) ∧ es = args.map Prod.snd ∧
      ts ++ [.symbol .closeParen] = Grammar.actuals args := by
  induction h with
  | @one ts e h =>
    refine ⟨[(ts, e)], by simp, by simpa using h, rfl, ?_⟩
    rw [actuals_singleton]
  | @more ts us e es h _ ih =>
    obtain ⟨args, hne, hargs, rfl, hus⟩ := ih
    refine ⟨(ts, e) :: args, by simp, List.forall_mem_cons.mpr ⟨h, hargs⟩, rfl, ?_⟩
    cases args with
    | nil => exact absurd rfl hne
    | cons a args => simp [actuals_cons_cons, ← hus]

section

variable {expression atom item sum : Reads (Expr String)} {operator : Reads Primitive}

lemma takes_call (h : Takes expression (ExprPhrase .expr)) :
    Takes (call expression) fun ts r => ∃ args, (∀ a ∈ args, ExprPhrase .expr a.1 a.2) ∧
      r.2 = args.map Prod.snd ∧
        ts = .name r.1 :: .symbol .openParen :: Grammar.actuals args := by
  refine takes_identifier.bind ?_
  rintro f _ rfl
  refine Takes.bind (P := fun ts es => ∃ args, (∀ a ∈ args, ExprPhrase .expr a.1 a.2) ∧
    es = args.map Prod.snd ∧ ts = .symbol .openParen :: Grammar.actuals args) ?_ ?_
  · refine (takes_symbol .openParen (by decide)).bind ?_
    rintro _ _ rfl
    refine (h.separatedBy (takes_symbol .comma (by decide))).bind fun es ts hts => ?_
    refine (takes_symbol .closeParen (by decide)).bind ?_
    rintro _ _ rfl
    refine takes_pure ?_
    rcases hts with hts | ⟨rfl, rfl⟩
    · obtain ⟨args, -, hargs, hes, heq⟩ := exists_actuals_of_separatedBy hts
      exact ⟨args, hargs, hes, by simp [heq]⟩
    · exact ⟨[], by simp, rfl, rfl⟩
  · rintro es _ ⟨args, hargs, rfl, rfl⟩
    exact takes_pure ⟨args, hargs, rfl, by simp⟩

lemma takes_conditional (h : Takes expression (ExprPhrase .expr)) :
    Takes (conditional expression) (ExprPhrase .atom) := by
  refine (takes_keyword .if_).bind ?_
  rintro _ _ rfl
  refine h.bind fun c cs hc => (takes_keyword .then_).bind ?_
  rintro _ _ rfl
  refine h.bind fun a as ha => (takes_keyword .else_).bind ?_
  rintro _ _ rfl
  refine h.bind fun b bs hb => (takes_keyword .end_).bind ?_
  rintro _ _ rfl
  refine takes_pure ?_
  simpa using ExprPhrase.ifElse hc ha hb

lemma takes_parenthesized (h : Takes expression (ExprPhrase .expr)) :
    Takes (parenthesized expression) (ExprPhrase .atom) := by
  refine (takes_symbol .openParen (by decide)).bind ?_
  rintro _ _ rfl
  refine h.bind fun e ts he => (takes_symbol .closeParen (by decide)).bind ?_
  rintro _ _ rfl
  exact takes_pure (.parens he)

/-- A reserved word that is a phrase of its own. -/
lemma takes_constant {k : Keyword} {e : Expr String} (h : ExprPhrase .atom [.keyword k] e) :
    Takes (do keyword k; return e) (ExprPhrase .atom) := by
  refine (takes_keyword k).bind ?_
  rintro _ _ rfl
  exact takes_pure h

lemma takes_atom (h : Takes expression (ExprPhrase .expr)) :
    Takes (Scannerless.atom expression) (ExprPhrase .atom) := by
  refine .orElse ?_ <| (takes_constant .true_).orElse <| (takes_constant .false_).orElse <|
    (takes_constant .input).orElse <| (takes_conditional h).orElse <| .orElse ?_ <|
    .orElse ?_ (takes_parenthesized h)
  · refine takes_integer.bind ?_
    rintro v _ ⟨n, rfl, hn⟩
    exact takes_pure (.number hn)
  · refine (takes_call h).bind ?_
    rintro ⟨f, es⟩ _ ⟨args, hargs, rfl, rfl⟩
    exact takes_pure (by simpa using ExprPhrase.call f hargs)
  · refine takes_identifier.bind ?_
    rintro x _ rfl
    exact takes_pure (.variable x)

lemma operand_of_rows {ts us : List Token} {ps : List Primitive} {e : Expr String}
    (h : Rows (fun vs p => ∃ t, vs = [t] ∧ Parser.unaryOperator? t = some p) ts ps)
    (he : ExprPhrase .atom us e) :
    ExprPhrase .operand (ts ++ us) (ps.foldr (fun p e => .apply p [e]) e) := by
  induction h with
  | nil => exact .atom he
  | cons h _ ih =>
    obtain ⟨t, rfl, ht⟩ := h
    exact .operate (Parser.unaryOperator?_eq_some_iff.mp ht) ih

/-- Where a number can be read, so can its negative. -/
lemma exists_negative_of_operand {n : Nat} {us : List Token} {e : Expr String}
    (h : ExprPhrase .operand (.minus true :: .number n :: us) e) :
    ∃ v, Value.ofInt? (-n) = some v := by
  cases h with
  | operate _ h =>
    cases h with
    | operate ht => cases ht
    | atom h =>
      cases h with
      | @number _ v h =>
        have hle := v.toInt_le
        rw [Int64.toInt_maxValue] at hle
        refine ⟨_, if_pos ?_⟩
        rw [Int64.toInt_minValue, Int64.toInt_maxValue]
        omega
  | atom h => cases h

-- A minus sign before a number is no operator: the literal is tried first, and it fails only if
-- the number is out of range with or without the sign.
lemma takes_unary (h : Takes atom (ExprPhrase .atom)) :
    Takes (unary atom) (ExprPhrase .unary) := by
  intro cs e rest hcs he
  rw [unary, orElse_apply, Option.or_eq_some_iff] at he
  rcases he with he | ⟨hnegative, he⟩
  · have hliteral : Takes (do return .literal (← negativeInteger)) (ExprPhrase .unary) := by
      refine takes_negativeInteger.bind ?_
      rintro v _ ⟨n, rfl, hn⟩
      exact takes_pure (.negative hn)
    exact hliteral cs e rest hcs he
  · have hoperand : Takes (do
        let ps ← repeated unaryOperator
        let e ← atom
        return ps.foldr (fun p e => .apply p [e]) e) (ExprPhrase .operand) := by
      refine readsAs_unaryOperator.takes.repeated.bind fun ps ts hps => h.bind fun e us he => ?_
      exact takes_pure (by simpa using operand_of_rows hps he)
    obtain ⟨ts, hts, hphrase⟩ := hoperand cs e rest hcs he
    refine ⟨ts, hts, .operand hphrase ?_⟩
    rintro n us rfl
    obtain ⟨v, hv⟩ := exists_negative_of_operand hphrase
    obtain ⟨mid, hmid⟩ := negativeInteger_of_lexes hts hv
    simp [hmid] at hnegative

/-! ### Operators in a row -/

lemma takes_operation {k : ExprKind} {f : Token → Option Primitive} (hf : ReadsAs operator f)
    (h : Takes item (ExprPhrase k)) :
    Takes (operation operator item) fun ts r =>
      ∃ t us, ts = t :: us ∧ f t = some r.1 ∧ ExprPhrase k us r.2 := by
  refine hf.takes.bind ?_
  rintro p _ ⟨t, rfl, ht⟩
  exact h.bind fun e us he => takes_pure ⟨t, us, by simp, ht, he⟩

lemma chain_of_rows {c : Chain} {ts us : List Token} {a : Expr String}
    {rs : List (Primitive × Expr String)} (ha : ExprPhrase c.kind ts a)
    (h : Rows (fun vs r => ∃ t ws, vs = t :: ws ∧ Parser.chainOperator? c t = some r.1 ∧
      ExprPhrase c.item ws r.2) us rs) :
    ExprPhrase c.kind (ts ++ us)
      (rs.foldl (fun left (p, right) => .apply p [left, right]) a) := by
  induction h generalizing ts a with
  | nil =>
    rw [List.append_nil]
    exact ha
  | @cons _ us r rs h _ ih =>
    obtain ⟨t, ws, rfl, ht, hw⟩ := h
    have hstep := Chain.phrase_append ha (Parser.chainOperator?_eq_some_iff.mp ht) hw
    simpa using ih hstep

lemma takes_chain (c : Chain) (hc : ReadsAs operator (Parser.chainOperator? c))
    (h : Takes item (ExprPhrase c.item)) :
    Takes (chain item operator) (ExprPhrase c.kind) := by
  refine h.bind fun a ts ha => (takes_operation hc h).repeated.bind fun rs us hrs => ?_
  exact takes_pure (by simpa using chain_of_rows (Chain.phrase_of_item ha) hrs)

lemma takes_sum (h : Takes atom (ExprPhrase .atom)) :
    Takes (Scannerless.sum atom) (ExprPhrase .sum) :=
  takes_chain .sum readsAs_sumOperator
    (takes_chain .product readsAs_productOperator (takes_unary h))

lemma takes_comparison (h : Takes sum (ExprPhrase .sum)) :
    Takes (comparison sum) (ExprPhrase .expr) := by
  refine h.bind fun a ts ha => ?_
  refine (takes_operation readsAs_comparisonOperator h).optional.bind ?_
  rintro o us (⟨⟨p, b⟩, rfl, t, vs, rfl, ht, hb⟩ | ⟨rfl, rfl⟩)
  · refine takes_pure ?_
    cases t with
    | symbol s =>
      simpa using ExprPhrase.compare ha (Parser.comparison?_eq_some_iff.mp ht) hb
    | _ => cases ht
  · exact takes_pure (by simpa using ExprPhrase.sum ha)

end

lemma takes_expression (depth : Nat) : Takes (expression depth) (ExprPhrase .expr) := by
  induction depth with
  | zero => exact takes_failure
  | succ depth ih => exact takes_comparison (takes_sum (takes_atom ih))

/-! ### Statements -/

lemma names_of_separatedBy {ts : List Token} {xs : List String}
    (h : SeparatedBy (.symbol .comma) (fun ts x => ts = [.name x]) ts xs) : Names ts xs := by
  induction h with
  | one h =>
    subst h
    exact .one _
  | more h _ ih =>
    subst h
    exact .more _ ih

lemma sequence_of_separatedBy {ts : List Token} {ss : List (Stmt String)}
    (h : SeparatedBy (.symbol .semicolon) (StmtPhrase .statement) ts ss) :
    StmtPhrase .sequence ts (.ofList ss) := by
  induction h with
  | one h => exact .one h
  | more h hs ih => cases hs <;> exact .more h ih

section

variable {expression : Reads (Expr String)} {statements : Reads (Stmt String)}

lemma takes_declarations :
    Takes declarations fun ts xs =>
      ∃ ns, Names ns xs ∧ ts = .keyword .var_ :: ns ++ [.symbol .semicolon] := by
  refine (takes_keyword .var_).bind ?_
  rintro _ _ rfl
  refine (takes_identifier.separatedBy1 (takes_symbol .comma (by decide))).bind fun xs ns hns => ?_
  refine (takes_symbol .semicolon (by decide)).bind ?_
  rintro _ _ rfl
  exact takes_pure ⟨ns, names_of_separatedBy hns, by simp⟩

lemma takes_block (h : Takes statements (StmtPhrase .statements)) :
    Takes (block statements) (StmtPhrase .block) := by
  refine (takes_keyword .begin_).bind ?_
  rintro _ _ rfl
  refine takes_declarations.optional.bind fun o ts ho => ?_
  refine h.bind fun s us hs => (takes_keyword .end_).bind ?_
  rintro _ _ rfl
  refine takes_pure ?_
  rcases ho with ⟨xs, rfl, ns, hns, rfl⟩ | ⟨rfl, rfl⟩
  · simpa [Stmt.withVariables] using StmtPhrase.declare hns hs
  · simpa [Stmt.withVariables] using StmtPhrase.plain hs

lemma takes_ifStatement (he : Takes expression (ExprPhrase .expr))
    (h : Takes statements (StmtPhrase .statements)) :
    Takes (ifStatement expression statements) (StmtPhrase .statement) := by
  have helse : Takes (elseBranch statements) fun ts s =>
      ∃ us, ts = .keyword .else_ :: us ∧ StmtPhrase .statements us s := by
    refine (takes_keyword .else_).bind ?_
    rintro _ _ rfl
    exact h.mono fun us s hs => ⟨us, rfl, hs⟩
  refine (takes_keyword .if_).bind ?_
  rintro _ _ rfl
  refine he.bind fun c cs hc => (takes_keyword .then_).bind ?_
  rintro _ _ rfl
  refine h.bind fun a as ha => helse.optional.bind fun o bs ho => (takes_keyword .end_).bind ?_
  rintro _ _ rfl
  rcases ho with ⟨b, rfl, bs, rfl, hb⟩ | ⟨rfl, rfl⟩
  · exact takes_pure (by simpa using StmtPhrase.ifElse hc ha hb)
  · exact takes_pure (by simpa using StmtPhrase.ifThen hc ha)

lemma takes_whileStatement (he : Takes expression (ExprPhrase .expr))
    (h : Takes statements (StmtPhrase .statements)) :
    Takes (whileStatement expression statements) (StmtPhrase .statement) := by
  refine (takes_keyword .while_).bind ?_
  rintro _ _ rfl
  refine he.bind fun c cs hc => (takes_keyword .do_).bind ?_
  rintro _ _ rfl
  refine h.bind fun a as ha => (takes_keyword .end_).bind ?_
  rintro _ _ rfl
  exact takes_pure (by simpa using StmtPhrase.whileDo hc ha)

lemma takes_repeatStatement (he : Takes expression (ExprPhrase .expr))
    (h : Takes statements (StmtPhrase .statements)) :
    Takes (repeatStatement expression statements) (StmtPhrase .statement) := by
  refine (takes_keyword .repeat_).bind ?_
  rintro _ _ rfl
  refine h.bind fun a as ha => (takes_keyword .until_).bind ?_
  rintro _ _ rfl
  refine he.bind fun c cs hc => takes_pure ?_
  simpa using StmtPhrase.repeatUntil ha hc

lemma takes_assignment (he : Takes expression (ExprPhrase .expr)) :
    Takes (assignment expression) (StmtPhrase .statement) := by
  refine takes_identifier.bind ?_
  rintro x _ rfl
  refine (takes_symbol .assign (by decide)).bind ?_
  rintro _ _ rfl
  refine he.bind fun e ts he => takes_pure ?_
  simpa using StmtPhrase.assign x he

/-- A reserved word and an expression. -/
lemma takes_keyword_expression (he : Takes expression (ExprPhrase .expr)) {k : Keyword}
    {f : Expr String → Stmt String}
    (h : ∀ ts e, ExprPhrase .expr ts e → StmtPhrase .statement (.keyword k :: ts) (f e)) :
    Takes (do keyword k; return f (← expression)) (StmtPhrase .statement) := by
  refine (takes_keyword k).bind ?_
  rintro _ _ rfl
  refine he.bind fun e ts he => takes_pure ?_
  simpa using h ts e he

lemma takes_statement (he : Takes expression (ExprPhrase .expr))
    (h : Takes statements (StmtPhrase .statements)) :
    Takes (statement expression statements) (StmtPhrase .statement) := by
  refine .orElse ?_ <| ((takes_block h).mono fun _ _ => .block).orElse <|
    (takes_ifStatement he h).orElse <| (takes_whileStatement he h).orElse <|
    (takes_repeatStatement he h).orElse <|
    (takes_keyword_expression he fun _ _ => .print).orElse <|
    (takes_keyword_expression he fun _ _ => .ret).orElse <| (takes_assignment he).orElse ?_
  · refine (takes_keyword .skip_).bind ?_
    rintro _ _ rfl
    exact takes_pure .skip
  · refine (takes_call he).bind ?_
    rintro ⟨f, es⟩ _ ⟨args, hargs, rfl, rfl⟩
    exact takes_pure (by simpa using StmtPhrase.call f hargs)

lemma takes_sequence {statement : Reads (Stmt String)}
    (h : Takes statement (StmtPhrase .statement)) :
    Takes (sequence statement) (StmtPhrase .statements) := by
  refine (h.separatedBy (takes_symbol .semicolon (by decide))).bind ?_
  rintro ss ts (hss | ⟨rfl, rfl⟩)
  · have hsequence := sequence_of_separatedBy hss
    have hne : ss ≠ [] := by cases hss <;> simp
    simp only [hne, ne_eq, not_false_eq_true, if_true]
    refine (takes_symbol .semicolon (by decide)).optional.bind ?_
    rintro _ _ (⟨_, -, rfl⟩ | ⟨-, rfl⟩)
    · exact takes_pure (by simpa using StmtPhrase.trailing hsequence)
    · exact takes_pure (by simpa using StmtPhrase.sequence hsequence)
  · exact takes_pure .none

end

lemma takes_statements (depth : Nat) :
    Takes (statements depth) (StmtPhrase .statements) := by
  induction depth with
  | zero => exact takes_failure
  | succ depth ih => exact takes_sequence (takes_statement (takes_expression depth) ih)

/-! ### Programs -/

lemma takes_procedure {statements : Reads (Stmt String)}
    (h : Takes statements (StmtPhrase .statements)) :
    Takes (procedure statements) ProcedurePhrase := by
  refine (takes_keyword .procedure_).bind ?_
  rintro _ _ rfl
  refine takes_identifier.bind ?_
  rintro f _ rfl
  refine (takes_symbol .openParen (by decide)).bind ?_
  rintro _ _ rfl
  refine (takes_identifier.separatedBy (takes_symbol .comma (by decide))).bind fun xs ns hns => ?_
  refine (takes_symbol .closeParen (by decide)).bind ?_
  rintro _ _ rfl
  refine (takes_block h).bind fun s ts hs => takes_pure ?_
  rcases hns with hns | ⟨rfl, rfl⟩
  · simpa using ProcedurePhrase.formals f (names_of_separatedBy hns) hs
  · simpa using ProcedurePhrase.plain f hs

lemma exists_phrases_of_rows {ts : List Token} {ps : List Procedure}
    (h : Rows ProcedurePhrase ts ps) :
    ∃ qs : List (List Token × Procedure), (∀ q ∈ qs, ProcedurePhrase q.1 q.2) ∧
      ps = qs.map Prod.snd ∧ ts = qs.flatMap Prod.fst := by
  induction h with
  | nil => exact ⟨[], by simp, rfl, rfl⟩
  | @cons ts us p ps h _ ih =>
    obtain ⟨qs, hqs, rfl, rfl⟩ := ih
    exact ⟨(ts, p) :: qs, List.forall_mem_cons.mpr ⟨h, hqs⟩, rfl, rfl⟩

/-- A program that is read by ordered choice is derived from the tokens of its text. -/
lemma exists_phrase_of_program (source : String) {depth : Nat} {cs rest : List Char}
    {ps : List Procedure} {main : Stmt String}
    (h : program depth cs = some ((ps, main), rest)) :
    ∃ ts, Token.Splits cs ts ∧ ProgramPhrase ts ⟨source, ps, main⟩ := by
  simp only [program, bind_apply, whitespace_apply, Option.bind_some] at h
  obtain ⟨⟨ps, cs₁⟩, hps, h₁⟩ := Option.bind_eq_some_iff.mp h
  obtain ⟨⟨main, cs₂⟩, hmain, h₂⟩ := Option.bind_eq_some_iff.mp h₁
  obtain ⟨⟨_, cs₃⟩, hend, h₃⟩ := Option.bind_eq_some_iff.mp h₂
  cases h₃
  obtain ⟨ts, hts, hrows⟩ :=
    (takes_procedure (takes_statements depth)).repeated _ _ _ (trimmed_skip cs) hps
  obtain ⟨us, hus, hphrase⟩ := takes_statements depth _ _ _ hts.trimmed_right hmain
  cases cs₂ with
  | nil =>
    obtain ⟨qs, hqs, rfl, rfl⟩ := exists_phrases_of_rows hrows
    have hsplits := (lexes_iff_splits (trimmed_skip cs)).mp (hts.append hus)
    exact ⟨_, (splits_iff_of_gaps (gaps_skip cs)).mpr hsplits, .mk source hqs hphrase⟩
  | cons => cases hend

end Scannerless

end Izmir
