import Izmir.Proofs.ScannerlessSoundness

/-!
# Ordered choice agrees with look-ahead

Where the parser over tokens succeeds, so does the one without tokens, with the same tree and at the
same place. Each choice is made by the next token, so the alternatives before the right one fail.
Together with soundness this makes the two parsers the same function.
-/

namespace Izmir

open Grammar

namespace Scannerless

variable {α β : Type}

/-! ### Parsers from parsers -/

/-- On a text with the tokens `ts`, `p` returns `a` and leaves the tokens `us`. -/
structure Yields (p : Reads α) (ts : List Token) (a : α) (us : List Token) : Prop where
  length_le : us.length ≤ ts.length
  reads : ∀ cs, Lexes cs ts [] → ∃ rest, p cs = some (a, rest) ∧ Lexes rest us []

def Refuses (p : Reads α) (ts : List Token) : Prop :=
  ∀ cs, Lexes cs ts [] → p cs = none

/-- `p` is repeated on the tokens `ts` until it fails. -/
inductive Runs (p : Reads α) : List Token → List α → List Token → Prop where
  | stop {ts : List Token} (h : Refuses p ts) : Runs p ts [] ts
  | step {ts us vs : List Token} {a : α} {as : List α} (h : Yields p ts a us)
      (hlt : us.length < ts.length) (hs : Runs p us as vs) : Runs p ts (a :: as) vs

section

variable {p q : Reads α} {f : α → Reads β} {ts us vs : List Token} {a : α} {b : β}

lemma yields_pure : Yields (pure a) ts a ts :=
  ⟨le_rfl, fun cs hcs => ⟨cs, rfl, hcs⟩⟩

lemma Yields.bind (hp : Yields p ts a us) (hf : Yields (f a) us b vs) :
    Yields (p >>= f) ts b vs := by
  refine ⟨hf.length_le.trans hp.length_le, fun cs hcs => ?_⟩
  obtain ⟨mid, hmid, hus⟩ := hp.reads cs hcs
  obtain ⟨rest, hrest, hvs⟩ := hf.reads mid hus
  exact ⟨rest, by rw [bind_apply, hmid, Option.bind_some, hrest], hvs⟩

lemma Refuses.bind (hp : Refuses p ts) : Refuses (p >>= f) ts := by
  intro cs hcs
  rw [bind_apply, hp cs hcs, Option.bind_none]

lemma Yields.bind_refuses (hp : Yields p ts a us) (hf : Refuses (f a) us) :
    Refuses (p >>= f) ts := by
  intro cs hcs
  obtain ⟨mid, hmid, hus⟩ := hp.reads cs hcs
  rw [bind_apply, hmid, Option.bind_some, hf mid hus]

lemma Yields.orElse (hp : Yields p ts a us) : Yields (p <|> q) ts a us := by
  refine ⟨hp.length_le, fun cs hcs => ?_⟩
  obtain ⟨rest, hrest, hus⟩ := hp.reads cs hcs
  exact ⟨rest, by rw [orElse_apply, hrest, Option.some_or], hus⟩

lemma Refuses.orElse_yields (hp : Refuses p ts) (hq : Yields q ts a us) :
    Yields (p <|> q) ts a us := by
  refine ⟨hq.length_le, fun cs hcs => ?_⟩
  obtain ⟨rest, hrest, hus⟩ := hq.reads cs hcs
  exact ⟨rest, by rw [orElse_apply, hp cs hcs, Option.none_or, hrest], hus⟩

lemma Refuses.orElse (hp : Refuses p ts) (hq : Refuses q ts) : Refuses (p <|> q) ts := by
  intro cs hcs
  rw [orElse_apply, hp cs hcs, hq cs hcs, Option.none_or]

lemma Yields.optional (hp : Yields p ts a us) : Yields (optional p) ts (some a) us :=
  Yields.orElse (hp.bind (f := fun a => pure (some a)) yields_pure)

lemma Refuses.optional (hp : Refuses p ts) : Yields (optional p) ts none ts :=
  Refuses.orElse_yields (hp.bind (f := fun a => pure (some a))) yields_pure

/-- Each round takes a token, so there are enough rounds for all the tokens. -/
lemma Runs.many {as : List α} (h : Runs p ts as us) {n : Nat} (hn : ts.length ≤ n) :
    Yields (many p n) ts as us := by
  induction h generalizing n with
  | stop h =>
    cases n with
    | zero => exact yields_pure
    | succ n => exact h.bind.orElse_yields yields_pure
  | step h hlt _ ih =>
    cases n with
    | zero => omega
    | succ n =>
      have hrest := ih (n := n) (by omega)
      exact .orElse (h.bind (hrest.bind yields_pure))

lemma Runs.repeated {as : List α} (h : Runs p ts as us) : Yields (repeated p) ts as us := by
  refine ⟨(h.many le_rfl).length_le, fun cs hcs => ?_⟩
  exact (h.many hcs.length_le).reads cs hcs

lemma Yields.separatedBy1 {separator : Reads Unit} {as : List α} (h : Yields p ts a us)
    (hs : Runs (do separator; p) us as vs) : Yields (separatedBy1 p separator) ts (a :: as) vs :=
  h.bind (hs.repeated.bind yields_pure)

lemma Refuses.separatedBy {separator : Reads Unit} (h : Refuses p ts) :
    Yields (separatedBy p separator) ts [] ts :=
  h.bind.orElse_yields yields_pure

end

/-! ### Words, numbers and symbols -/

section

variable {p : Reads α} {g : Token → Option α} {t : Token} {ts : List Token} {a : α}

lemma ReadsAs.yields (h : ReadsAs p g) (hg : g t = some a) : Yields p (t :: ts) a ts := by
  refine ⟨Nat.le_succ _, fun cs hcs => ?_⟩
  have hread := h cs hcs.trimmed_left
  cases hcs with
  | cons hfirst hrest => exact ⟨_, by simp [hread, taking, hfirst, hg], hrest⟩

lemma ReadsAs.refuses (h : ReadsAs p g) (hg : ∀ t ∈ ts.head?, g t = none) : Refuses p ts := by
  intro cs hcs
  rw [h cs hcs.trimmed_left]
  cases hcs with
  | nil => rfl
  | cons hfirst => simp [taking, hfirst, hg _ rfl]

lemma head?_ne (h : ∀ us, ts ≠ t :: us) : ts.head? ≠ some t := by
  intro ht
  obtain ⟨us, rfl⟩ := List.head?_eq_some_iff.mp ht
  exact h us rfl

lemma yields_keyword (k : Keyword) (ts : List Token) :
    Yields (keyword k) (.keyword k :: ts) () ts :=
  (readsAs_keyword k).yields (if_pos rfl)

lemma refuses_keyword {k : Keyword} (h : ts.head? ≠ some (.keyword k)) :
    Refuses (keyword k) ts := by
  refine (readsAs_keyword k).refuses fun t ht => if_neg ?_
  rintro rfl
  exact h ht

lemma yields_symbol (s : Symbol) (hs : s ≠ .less ∧ s ≠ .greater) (ts : List Token) :
    Yields (symbol s.text) (.symbol s :: ts) () ts :=
  (readsAs_symbol s hs).yields (if_pos rfl)

lemma refuses_symbol (s : Symbol) (hs : s ≠ .less ∧ s ≠ .greater)
    (h : ts.head? ≠ some (.symbol s)) : Refuses (symbol s.text) ts := by
  refine (readsAs_symbol s hs).refuses fun t ht => if_neg ?_
  rintro rfl
  exact h ht

lemma yields_identifier (x : String) (ts : List Token) : Yields identifier (.name x :: ts) x ts :=
  readsAs_identifier.yields rfl

lemma refuses_identifier (h : ∀ x, ts.head? ≠ some (.name x)) : Refuses identifier ts := by
  refine readsAs_identifier.refuses fun t ht => ?_
  cases t with
  | name x => exact absurd ht (h x)
  | _ => rfl

lemma yields_integer {n : Nat} {v : Value} (hv : Value.ofInt? n = some v) :
    Yields integer (.number n :: ts) v ts :=
  readsAs_integer.yields hv

lemma refuses_integer (h : ∀ n, ts.head? ≠ some (.number n)) : Refuses integer ts := by
  refine readsAs_integer.refuses fun t ht => ?_
  cases t with
  | number n => exact absurd ht (h n)
  | _ => rfl

lemma yields_negativeInteger {n : Nat} {v : Value} (hv : Value.ofInt? (-n) = some v) :
    Yields negativeInteger (.minus true :: .number n :: ts) v ts := by
  rw [funext negativeInteger_eq]
  exact ((readsAs_taking _).yields (if_pos rfl)).bind ((readsAs_taking negated?).yields hv)

lemma refuses_negativeInteger (h : ∀ n us, ts ≠ .minus true :: .number n :: us) :
    Refuses negativeInteger ts := by
  rw [funext negativeInteger_eq]
  by_cases hminus : ∃ us, ts = .minus true :: us
  · obtain ⟨us, rfl⟩ := hminus
    refine ((readsAs_taking _).yields (if_pos rfl)).bind_refuses ?_
    refine (readsAs_taking negated?).refuses fun t ht => ?_
    cases t with
    | number n =>
      obtain ⟨vs, rfl⟩ := List.head?_eq_some_iff.mp ht
      exact absurd rfl (h n vs)
    | _ => rfl
  · refine ((readsAs_taking _).refuses fun t ht => if_neg ?_).bind
    rintro rfl
    exact hminus (List.head?_eq_some_iff.mp ht)

end

/-- An alternative that begins with a reserved word is passed over if another token stands there. -/
lemma Yields.past_keyword {k : Keyword} {f : Unit → Reads α} {q : Reads α} {ts us : List Token}
    {a : α} (h : ts.head? ≠ some (.keyword k)) (hq : Yields q ts a us) :
    Yields ((keyword k >>= f) <|> q) ts a us :=
  (refuses_keyword h).bind.orElse_yields hq

/-! ### Expressions -/

section

variable {depth fuel : Nat} {ts rest : List Token}

/-- The operators of a row. -/
def chainOperator : Chain → Reads Primitive
  | .sum => sumOperator
  | .product => productOperator

lemma readsAs_chainOperator (c : Chain) :
    ReadsAs (chainOperator c) (Parser.chainOperator? c) := by
  cases c with
  | sum => exact readsAs_sumOperator
  | product => exact readsAs_productOperator

/-- The parsers for the phrases within an expression. -/
def reader (depth : Nat) : ExprKind → Reads (Expr String)
  | .expr => comparison (sum (atom (expression depth)))
  | .sum => sum (atom (expression depth))
  | .product => chain (unary (atom (expression depth))) productOperator
  | .unary => unary (atom (expression depth))
  | .operand => do
    let ps ← repeated unaryOperator
    let e ← atom (expression depth)
    return ps.foldr (fun p e => .apply p [e]) e
  | .atom => atom (expression depth)

lemma reader_chain (depth : Nat) (c : Chain) :
    reader depth c.kind = chain (reader depth c.item) (chainOperator c) := by
  cases c <;> rfl

/-- With some fuel, whatever the parser over tokens takes is taken. -/
structure ExprAgrees (fuel : Nat) : Prop where
  phrase : ∀ k {depth ts e rest}, Parser.exprParser k fuel ts = some (e, rest) →
    ts.length ≤ depth → Yields (reader depth k) ts e rest
  operand : ∀ {depth ts e rest}, Parser.operand fuel ts = some (e, rest) → ts.length ≤ depth →
    ∃ ps a mid, Runs unaryOperator ts ps mid ∧ Yields (atom (expression depth)) mid a rest ∧
      e = ps.foldr (fun p e => .apply p [e]) a
  chainRest : ∀ c {depth a ts e rest}, Parser.chainRest c fuel a ts = some (e, rest) →
    ts.length ≤ depth → ∃ rs, Runs (operation (chainOperator c) (reader depth c.item)) ts rs rest ∧
      e = rs.foldl (fun left (p, right) => .apply p [left, right]) a
  actuals : ∀ {depth ts es rest}, Parser.actuals fuel ts = some (es, rest) → ts.length < depth →
    Yields (separatedBy (expression depth) (symbol ",")) ts es (.symbol .closeParen :: rest)
  moreActuals : ∀ {depth ts es rest}, Parser.moreActuals fuel ts = some (es, rest) →
    ts.length < depth → ∃ e us mid, es = e :: us ∧ Yields (expression depth) ts e mid ∧
      Runs (do symbol ","; expression depth) mid us (.symbol .closeParen :: rest)

lemma refuses_expression_closeParen (depth : Nat) (ts : List Token) :
    Refuses (expression depth) (.symbol .closeParen :: ts) := by
  cases depth with
  | zero => exact fun cs _ => rfl
  | succ depth =>
    have hatom : Refuses (atom (expression depth)) (.symbol .closeParen :: ts) :=
      .orElse (refuses_integer (by simp)).bind <| .orElse (refuses_keyword (by simp)).bind <|
        .orElse (refuses_keyword (by simp)).bind <| .orElse (refuses_keyword (by simp)).bind <|
        .orElse (refuses_keyword (by simp)).bind <|
        .orElse (refuses_identifier (by simp)).bind.bind <|
        .orElse (refuses_identifier (by simp)).bind
          (refuses_symbol .openParen (by decide) (by simp)).bind
    have hoperators : Yields (repeated unaryOperator) (.symbol .closeParen :: ts) []
        (.symbol .closeParen :: ts) :=
      (Runs.stop (readsAs_unaryOperator.refuses (by simp [Parser.unaryOperator?]))).repeated
    have hunary : Refuses (unary (atom (expression depth))) (.symbol .closeParen :: ts) :=
      .orElse (refuses_negativeInteger (by simp)).bind (hoperators.bind_refuses hatom.bind)
    exact hunary.bind.bind.bind

/-- An atom that begins with neither a number nor a reserved word. -/
lemma past_literals {expression : Reads (Expr String)} {e : Expr String}
    (hnumber : ∀ n, ts.head? ≠ some (.number n)) (hkeyword : ∀ k, ts.head? ≠ some (.keyword k))
    (he : Yields ((do
      let (f, es) ← call expression
      return .call f es) <|> (return .var (← identifier)) <|> parenthesized expression) ts e rest) :
    Yields (atom expression) ts e rest :=
  Refuses.orElse_yields (refuses_integer hnumber).bind <| .past_keyword (hkeyword _) <|
    .past_keyword (hkeyword _) <| .past_keyword (hkeyword _) <| .past_keyword (hkeyword _) he

namespace ExprAgrees

variable {a e : Expr String} {es : List (Expr String)}

/-- Expressions within a phrase, behind its first token. -/
lemma expression (h : ExprAgrees fuel) (hp : Parser.expr fuel ts = some (e, rest))
    (hdepth : ts.length < depth) : Yields (Scannerless.expression depth) ts e rest := by
  cases depth with
  | zero => exact absurd hdepth (Nat.not_lt_zero _)
  | succ depth => exact h.phrase .expr hp (Nat.le_of_lt_succ hdepth)

lemma expr_succ (h : ExprAgrees fuel) (hp : Parser.expr (fuel + 1) ts = some (e, rest))
    (hdepth : ts.length ≤ depth) : Yields (reader depth .expr) ts e rest := by
  rw [Parser.expr] at hp
  obtain ⟨a, ts₁, ha, hp₁⟩ := Parser.bind_eq_some hp
  have hsum := h.phrase .sum ha hdepth
  refine hsum.bind ?_
  have hplain (hnone : ∀ t ∈ ts₁.head?, comparisonOperator? t = none) :
      Yields (optional (operation comparisonOperator (reader depth .sum))) ts₁ none ts₁ :=
    Refuses.optional (readsAs_comparisonOperator.refuses hnone).bind
  dsimp only at hp₁
  split at hp₁
  · rename_i s us
    split at hp₁
    · rename_i p hs
      obtain ⟨b, rest', hb, hp₂⟩ := Parser.bind_eq_some hp₁
      cases hp₂
      have hright := h.phrase .sum hb ((Nat.le_of_succ_le hsum.length_le).trans hdepth)
      have hoperator : Yields comparisonOperator (.symbol s :: us) p us :=
        readsAs_comparisonOperator.yields hs
      have hoperation : Yields (operation comparisonOperator (reader depth .sum))
          (.symbol s :: us) (p, b) rest' := hoperator.bind (hright.bind yields_pure)
      exact hoperation.optional.bind yields_pure
    · rename_i hs
      cases hp₁
      exact (hplain (by simpa [comparisonOperator?] using hs)).bind yields_pure
  · rename_i hsymbol
    cases hp₁
    refine (hplain fun t ht => ?_).bind yields_pure
    cases t with
    | symbol s =>
      obtain ⟨us, rfl⟩ := List.head?_eq_some_iff.mp ht
      exact absurd rfl (hsymbol s us)
    | _ => rfl

lemma chain_succ (h : ExprAgrees fuel) {c : Chain}
    (hp : Parser.exprParser c.kind (fuel + 1) ts = some (e, rest)) (hdepth : ts.length ≤ depth) :
    Yields (reader depth c.kind) ts e rest := by
  rw [Parser.exprParser_chain_succ] at hp
  obtain ⟨a, ts₁, ha, hp₁⟩ := Parser.bind_eq_some hp
  have hitem := h.phrase c.item ha hdepth
  obtain ⟨rs, hruns, rfl⟩ := h.chainRest c hp₁ (hitem.length_le.trans hdepth)
  rw [reader_chain]
  exact hitem.bind (hruns.repeated.bind yields_pure)

lemma chainRest_succ (h : ExprAgrees fuel) (c : Chain)
    (hp : Parser.chainRest c (fuel + 1) a ts = some (e, rest)) (hdepth : ts.length ≤ depth) :
    ∃ rs, Runs (operation (chainOperator c) (reader depth c.item)) ts rs rest ∧
      e = rs.foldl (fun left (p, right) => .apply p [left, right]) a := by
  have hstop (hnone : ∀ t ∈ ts.head?, Parser.chainOperator? c t = none) :
      Runs (operation (chainOperator c) (reader depth c.item)) ts [] ts :=
    .stop ((readsAs_chainOperator c).refuses hnone).bind
  cases ts with
  | nil =>
    rw [Parser.chainRest_nil] at hp
    cases hp
    exact ⟨[], hstop (by simp), rfl⟩
  | cons t ts =>
    cases ht : Parser.chainOperator? c t with
    | none =>
      rw [Parser.chainRest_of_none ht] at hp
      cases hp
      exact ⟨[], hstop (by simpa using ht), rfl⟩
    | some p =>
      rw [Parser.chainRest_of_operator (Parser.chainOperator?_eq_some_iff.mp ht)] at hp
      obtain ⟨b, ts₁, hb, hp₁⟩ := Parser.bind_eq_some hp
      rw [List.length_cons] at hdepth
      have hitem := h.phrase c.item hb (Nat.le_of_succ_le hdepth)
      have hle := hitem.length_le
      have hdepth₁ : ts₁.length ≤ depth := by omega
      obtain ⟨rs, hruns, rfl⟩ := h.chainRest c hp₁ hdepth₁
      have hoperator : Yields (chainOperator c) (t :: ts) p ts :=
        (readsAs_chainOperator c).yields ht
      exact ⟨(p, b) :: rs, .step (hoperator.bind (hitem.bind yields_pure))
        (Nat.lt_succ_of_le hle) hruns, rfl⟩

lemma unary_succ (h : ExprAgrees fuel) (hp : Parser.unary (fuel + 1) ts = some (e, rest))
    (hdepth : ts.length ≤ depth) : Yields (reader depth .unary) ts e rest := by
  rw [Parser.unary.eq_def] at hp
  dsimp only at hp
  split at hp
  · obtain ⟨v, hv, hp₁⟩ := Option.bind_eq_some_iff.mp hp
    cases hp₁
    exact .orElse ((yields_negativeInteger hv).bind yields_pure)
  · rename_i hliteral
    obtain ⟨ps, a, mid, hps, ha, rfl⟩ := h.operand hp hdepth
    refine Refuses.orElse_yields (refuses_negativeInteger hliteral).bind ?_
    exact hps.repeated.bind (ha.bind yields_pure)

lemma operand_succ (h : ExprAgrees fuel) (hp : Parser.operand (fuel + 1) ts = some (e, rest))
    (hdepth : ts.length ≤ depth) :
    ∃ ps a mid, Runs unaryOperator ts ps mid ∧
      Yields (atom (Scannerless.expression depth)) mid a rest ∧
      e = ps.foldr (fun p e => .apply p [e]) a := by
  cases ts with
  | nil => cases hp
  | cons t ts =>
    rw [Parser.operand] at hp
    split at hp
    · rename_i p ht
      obtain ⟨b, ts₁, hb, hp₁⟩ := Parser.bind_eq_some hp
      cases hp₁
      obtain ⟨ps, a, mid, hps, ha, rfl⟩ := h.operand hb (Nat.le_of_succ_le hdepth)
      have hoperator : Yields unaryOperator (t :: ts) p ts := readsAs_unaryOperator.yields ht
      exact ⟨p :: ps, a, mid, .step hoperator (Nat.lt_succ_self _) hps, ha, rfl⟩
    · rename_i ht
      refine ⟨[], e, t :: ts, .stop ?_, h.phrase .atom hp hdepth, rfl⟩
      exact readsAs_unaryOperator.refuses (by simpa using ht)

lemma call (h : ExprAgrees fuel) (f : String)
    (hp : Parser.actuals fuel ts = some (es, rest)) (hdepth : ts.length < depth) :
    Yields (Scannerless.call (Scannerless.expression depth))
      (.name f :: .symbol .openParen :: ts) (f, es) rest := by
  refine (yields_identifier f _).bind (Yields.bind ?_ yields_pure)
  refine (yields_symbol .openParen (by decide) ts).bind ((h.actuals hp hdepth).bind ?_)
  exact (yields_symbol .closeParen (by decide) rest).bind yields_pure

lemma conditional (h : ExprAgrees fuel) {c a b : Expr String} {us vs ws : List Token}
    (hc : Parser.expr fuel ts = some (c, .keyword .then_ :: us))
    (ha : Parser.expr fuel us = some (a, .keyword .else_ :: vs))
    (hb : Parser.expr fuel vs = some (b, .keyword .end_ :: ws)) (hdepth : ts.length < depth) :
    Yields (Scannerless.conditional (Scannerless.expression depth)) (.keyword .if_ :: ts)
      (.ifElse c a b) ws := by
  have hc := h.expression hc hdepth
  have hle := hc.length_le
  rw [List.length_cons] at hle
  have hdepth₁ : us.length < depth := by omega
  have ha := h.expression ha hdepth₁
  have hle₁ := ha.length_le
  rw [List.length_cons] at hle₁
  have hdepth₂ : vs.length < depth := by omega
  have hb := h.expression hb hdepth₂
  refine (yields_keyword .if_ ts).bind (hc.bind ?_)
  refine (yields_keyword .then_ us).bind (ha.bind ?_)
  refine (yields_keyword .else_ vs).bind (hb.bind ?_)
  exact (yields_keyword .end_ ws).bind yields_pure

lemma atom_succ (h : ExprAgrees fuel) (hp : Parser.atom (fuel + 1) ts = some (e, rest))
    (hdepth : ts.length ≤ depth) : Yields (reader depth .atom) ts e rest := by
  rw [Parser.atom.eq_def] at hp
  dsimp only at hp
  split at hp
  · obtain ⟨v, hv, hp₁⟩ := Option.bind_eq_some_iff.mp hp
    cases hp₁
    exact .orElse ((yields_integer hv).bind yields_pure)
  · cases hp
    refine Refuses.orElse_yields (refuses_integer (by simp)).bind ?_
    exact .orElse ((yields_keyword .true_ rest).bind yields_pure)
  · cases hp
    refine Refuses.orElse_yields (refuses_integer (by simp)).bind ?_
    refine .past_keyword (by simp) ?_
    exact .orElse ((yields_keyword .false_ rest).bind yields_pure)
  · cases hp
    refine Refuses.orElse_yields (refuses_integer (by simp)).bind ?_
    refine .past_keyword (by simp) (.past_keyword (by simp) ?_)
    exact .orElse ((yields_keyword .input_ rest).bind yields_pure)
  · obtain ⟨c, ts₁, hc, hp₁⟩ := Parser.bind_eq_some hp
    obtain ⟨ts₁, rfl, hp₂⟩ := Parser.bind_expect hp₁
    obtain ⟨a, ts₂, ha, hp₃⟩ := Parser.bind_eq_some hp₂
    obtain ⟨ts₂, rfl, hp₄⟩ := Parser.bind_expect hp₃
    obtain ⟨b, ts₃, hb, hp₅⟩ := Parser.bind_eq_some hp₄
    obtain ⟨ts₃, rfl, hp₆⟩ := Parser.bind_expect hp₅
    cases hp₆
    refine Refuses.orElse_yields (refuses_integer (by simp)).bind ?_
    refine .past_keyword (by simp) (.past_keyword (by simp) (.past_keyword (by simp) ?_))
    exact .orElse (h.conditional hc ha hb hdepth)
  · rename_i f ts
    obtain ⟨es, ts₁, hes, hp₁⟩ := Parser.bind_eq_some hp
    cases hp₁
    refine past_literals (by simp) (by simp) ?_
    exact .orElse ((h.call f hes (Nat.lt_of_succ_lt hdepth)).bind yields_pure)
  · rename_i x ts hcall
    cases hp
    refine past_literals (by simp) (by simp) ?_
    have hrefuses : Refuses (Scannerless.call (Scannerless.expression depth)) (.name x :: rest) :=
      (yields_identifier x rest).bind_refuses
        (refuses_symbol .openParen (by decide) (head?_ne hcall)).bind.bind
    refine Refuses.orElse_yields hrefuses.bind ?_
    exact .orElse ((yields_identifier x rest).bind yields_pure)
  · rename_i ts
    obtain ⟨a, ts₁, ha, hp₁⟩ := Parser.bind_eq_some hp
    obtain ⟨ts₁, rfl, hp₂⟩ := Parser.bind_expect hp₁
    cases hp₂
    refine past_literals (by simp) (by simp) ?_
    refine Refuses.orElse_yields (refuses_identifier (by simp)).bind.bind ?_
    refine Refuses.orElse_yields (refuses_identifier (by simp)).bind ?_
    refine (yields_symbol .openParen (by decide) ts).bind ((h.expression ha hdepth).bind ?_)
    exact (yields_symbol .closeParen (by decide) rest).bind yields_pure
  · cases hp

lemma actuals_succ (h : ExprAgrees fuel) (hp : Parser.actuals (fuel + 1) ts = some (es, rest))
    (hdepth : ts.length < depth) :
    Yields (separatedBy (Scannerless.expression depth) (symbol ",")) ts es
      (.symbol .closeParen :: rest) := by
  rw [Parser.actuals.eq_def] at hp
  dsimp only at hp
  split at hp
  · cases hp
    exact (refuses_expression_closeParen depth rest).separatedBy
  · obtain ⟨e, us, mid, rfl, he, hus⟩ := h.moreActuals hp hdepth
    exact .orElse (he.separatedBy1 hus)

lemma moreActuals_succ (h : ExprAgrees fuel)
    (hp : Parser.moreActuals (fuel + 1) ts = some (es, rest)) (hdepth : ts.length < depth) :
    ∃ e us mid, es = e :: us ∧ Yields (Scannerless.expression depth) ts e mid ∧
      Runs (do symbol ","; Scannerless.expression depth) mid us (.symbol .closeParen :: rest) := by
  rw [Parser.moreActuals] at hp
  obtain ⟨e, ts₁, hfirst, hp₁⟩ := Parser.bind_eq_some hp
  have he := h.expression hfirst hdepth
  dsimp only at hp₁
  split at hp₁
  · rename_i us
    obtain ⟨es, ts₁, hes, hp₂⟩ := Parser.bind_eq_some hp₁
    cases hp₂
    have hle := he.length_le
    rw [List.length_cons] at hle
    have hdepth₁ : us.length < depth := by omega
    obtain ⟨b, vs, mid, rfl, hb, hvs⟩ := h.moreActuals hes hdepth₁
    have hcomma := yields_symbol .comma (by decide) us
    exact ⟨e, b :: vs, _, rfl, he,
      .step (hcomma.bind hb) (Nat.lt_succ_of_le hb.length_le) hvs⟩
  · cases hp₁
    exact ⟨e, [], _, rfl, he, .stop (refuses_symbol .comma (by decide) (by simp)).bind⟩
  · cases hp₁

end ExprAgrees

lemma exprAgrees (fuel : Nat) : ExprAgrees fuel := by
  induction fuel with
  | zero =>
    constructor
    · rintro (_ | _ | _ | _ | _ | _) _ _ _ _ ⟨⟩
    · rintro _ _ _ _ ⟨⟩
    · rintro (_ | _) _ _ _ _ _ ⟨⟩
    · rintro _ _ _ _ ⟨⟩
    · rintro _ _ _ _ ⟨⟩
  | succ fuel ih =>
    refine ⟨?_, ih.operand_succ, fun c => ih.chainRest_succ c, ih.actuals_succ,
      ih.moreActuals_succ⟩
    intro k depth ts e rest hp hdepth
    cases k with
    | expr => exact ih.expr_succ hp hdepth
    | sum => exact ih.chain_succ (c := .sum) hp hdepth
    | product => exact ih.chain_succ (c := .product) hp hdepth
    | unary => exact ih.unary_succ hp hdepth
    | operand =>
      obtain ⟨ps, a, mid, hps, ha, rfl⟩ := ih.operand_succ hp hdepth
      exact hps.repeated.bind (ha.bind yields_pure)
    | atom => exact ih.atom_succ hp hdepth

/-! ### Statements -/

/-- The names after the first one. -/
lemma exists_runs_of_names {xs : List String} (hp : Parser.names ts = some (xs, rest)) :
    ∃ x ys us, xs = x :: ys ∧ ts = .name x :: us ∧
      Runs (do symbol ","; identifier) us ys rest := by
  fun_induction Parser.names ts generalizing xs with
  | case1 x ts ih =>
    obtain ⟨ys, ts₁, hys, hp₁⟩ := Parser.bind_eq_some hp
    cases hp₁
    obtain ⟨y, zs, us, rfl, rfl, hruns⟩ := ih hys
    have hcomma := yields_symbol .comma (by decide) (.name y :: us)
    exact ⟨x, y :: zs, _, rfl, rfl,
      .step (hcomma.bind (yields_identifier y us)) (by simp) hruns⟩
  | case2 x ts hcomma =>
    cases hp
    exact ⟨x, [], rest, rfl, rfl,
      .stop (refuses_symbol .comma (by decide) (head?_ne hcomma)).bind⟩
  | case3 => cases hp

lemma yields_names {xs : List String} (hp : Parser.names ts = some (xs, rest)) :
    Yields (separatedBy1 identifier (symbol ",")) ts xs rest := by
  obtain ⟨x, ys, us, rfl, rfl, hruns⟩ := exists_runs_of_names hp
  exact (yields_identifier x us).separatedBy1 hruns

lemma exists_yields_declarations {xs : List String}
    (hp : Parser.declarations ts = some (xs, rest)) :
    ∃ o : Option (List String), o.getD [] = xs ∧ Yields (optional declarations) ts o rest := by
  unfold Parser.declarations at hp
  split at hp
  · obtain ⟨ys, us, hys, hp₁⟩ := Parser.bind_eq_some hp
    obtain ⟨us, rfl, hp₂⟩ := Parser.bind_expect hp₁
    cases hp₂
    refine ⟨some xs, rfl, Yields.optional ?_⟩
    refine (yields_keyword .var_ _).bind ((yields_names hys).bind ?_)
    exact (yields_symbol .semicolon (by decide) rest).bind yields_pure
  · rename_i hvar
    cases hp
    exact ⟨none, rfl, Refuses.optional (refuses_keyword (head?_ne hvar)).bind⟩

lemma refuses_statement {expression : Reads (Expr String)} {statements : Reads (Stmt String)}
    (h : Parser.startsStatement ts = false) : Refuses (statement expression statements) ts := by
  have hname (x : String) : ts.head? ≠ some (.name x) := by
    intro ht
    obtain ⟨us, rfl⟩ := List.head?_eq_some_iff.mp ht
    cases h
  have hkeyword (k : Keyword) (hk : Parser.startsStatement [.keyword k]) :
      ts.head? ≠ some (.keyword k) := by
    intro ht
    obtain ⟨us, rfl⟩ := List.head?_eq_some_iff.mp ht
    exact Bool.false_ne_true (h.symm.trans hk)
  exact .orElse (refuses_keyword (hkeyword _ rfl)).bind <|
    .orElse (refuses_keyword (hkeyword _ rfl)).bind <|
    .orElse (refuses_keyword (hkeyword _ rfl)).bind <|
    .orElse (refuses_keyword (hkeyword _ rfl)).bind <|
    .orElse (refuses_keyword (hkeyword _ rfl)).bind <|
    .orElse (refuses_keyword (hkeyword _ rfl)).bind <|
    .orElse (refuses_keyword (hkeyword _ rfl)).bind <|
    .orElse (refuses_identifier hname).bind (refuses_identifier hname).bind.bind

/-- `p` is taken with semicolons between, and with the one at the end if there is one. -/
inductive Sequenced (p : Reads (Stmt String)) :
    List Token → List (Stmt String) → List Token → Prop where
  | none {ts : List Token} (h : Refuses p ts) : Sequenced p ts [] ts
  | plain {ts us rest : List Token} {s : Stmt String} {ss : List (Stmt String)}
      (h : Yields p ts s us) (hs : Runs (do symbol ";"; p) us ss rest)
      (hend : Refuses (symbol ";") rest) : Sequenced p ts (s :: ss) rest
  | trailing {ts us rest : List Token} {s : Stmt String} {ss : List (Stmt String)}
      (h : Yields p ts s us)
      (hs : Runs (do symbol ";"; p) us ss (.symbol .semicolon :: rest)) :
      Sequenced p ts (s :: ss) rest

namespace Sequenced

variable {p : Reads (Stmt String)} {s : Stmt String} {ss : List (Stmt String)} {us : List Token}

lemma cons (h : Yields p ts s (.symbol .semicolon :: us)) (hs : Sequenced p us ss rest) :
    Sequenced p ts (s :: ss) rest := by
  have hsemicolon := yields_symbol .semicolon (by decide) us
  cases hs with
  | none hrefuses => exact .trailing h (.stop (hsemicolon.bind_refuses hrefuses))
  | plain h' hs' hend =>
    exact .plain h (.step (hsemicolon.bind h') (Nat.lt_succ_of_le h'.length_le) hs') hend
  | trailing h' hs' =>
    exact .trailing h (.step (hsemicolon.bind h') (Nat.lt_succ_of_le h'.length_le) hs')

lemma last (h : Yields p ts s rest) (hend : rest.head? ≠ some (.symbol .semicolon)) :
    Sequenced p ts [s] rest :=
  have hrefuses : Refuses (symbol ";") rest := refuses_symbol .semicolon (by decide) hend
  .plain h (.stop hrefuses.bind) hrefuses

lemma yields (h : Sequenced p ts ss rest) : Yields (sequence p) ts (.ofList ss) rest := by
  cases h with
  | none h => exact h.separatedBy.bind yields_pure
  | plain h hs hend =>
    refine Yields.bind (h.separatedBy1 hs).orElse ?_
    exact hend.optional.bind yields_pure
  | trailing h hs =>
    refine Yields.bind (h.separatedBy1 hs).orElse ?_
    exact (yields_symbol .semicolon (by decide) rest).optional.bind yields_pure

end Sequenced

/-- With some fuel, whatever the parser over tokens takes is taken. -/
structure StmtAgrees (fuel : Nat) : Prop where
  statement : ∀ {depth ts s rest}, Parser.statement fuel ts = some (s, rest) →
    ts.length ≤ depth → Yields (statement (expression depth) (statements depth)) ts s rest
  block : ∀ {depth ts s rest}, Parser.block fuel ts = some (s, rest) → ts.length < depth →
    Yields (block (statements depth)) (.keyword .begin_ :: ts) s rest
  statements : ∀ {depth ts ss rest}, Parser.statements fuel ts = some (ss, rest) →
    ts.length ≤ depth → Sequenced (Scannerless.statement (expression depth)
      (Scannerless.statements depth)) ts ss rest

/-- A statement that begins with no reserved word is an assignment or a call. -/
lemma past_keywords {expression : Reads (Expr String)} {statements : Reads (Stmt String)}
    {s : Stmt String} (h : ∀ k, ts.head? ≠ some (.keyword k))
    (hs : Yields (assignment expression <|> do
      let (f, es) ← call expression
      return .call f es) ts s rest) :
    Yields (statement expression statements) ts s rest :=
  .past_keyword (h _) <| .past_keyword (h _) <| .past_keyword (h _) <| .past_keyword (h _) <|
    .past_keyword (h _) <| .past_keyword (h _) <| .past_keyword (h _) hs

namespace StmtAgrees

variable {s : Stmt String} {ss : List (Stmt String)}

/-- Statements within a statement, behind its first token. -/
lemma sequence (h : StmtAgrees fuel) (hp : Parser.statements fuel ts = some (ss, rest))
    (hdepth : ts.length < depth) :
    Yields (Scannerless.statements depth) ts (.ofList ss) rest := by
  cases depth with
  | zero => exact absurd hdepth (Nat.not_lt_zero _)
  | succ depth => exact (h.statements hp (Nat.le_of_lt_succ hdepth)).yields

lemma block_succ (h : StmtAgrees fuel) (hp : Parser.block (fuel + 1) ts = some (s, rest))
    (hdepth : ts.length < depth) :
    Yields (Scannerless.block (Scannerless.statements depth)) (.keyword .begin_ :: ts) s rest := by
  rw [Parser.block] at hp
  obtain ⟨xs, ts₁, hxs, hp₁⟩ := Parser.bind_eq_some hp
  obtain ⟨ss, ts₂, hss, hp₂⟩ := Parser.bind_eq_some hp₁
  obtain ⟨ts₂, rfl, hp₃⟩ := Parser.bind_expect hp₂
  cases hp₃
  obtain ⟨o, rfl, ho⟩ := exists_yields_declarations hxs
  have hbody := h.sequence hss (ho.length_le.trans_lt hdepth)
  refine (yields_keyword .begin_ ts).bind (ho.bind (hbody.bind ?_))
  exact (yields_keyword .end_ rest).bind yields_pure

lemma statements_succ (h : StmtAgrees fuel)
    (hp : Parser.statements (fuel + 1) ts = some (ss, rest)) (hdepth : ts.length ≤ depth) :
    Sequenced (Scannerless.statement (expression depth) (Scannerless.statements depth))
      ts ss rest := by
  rw [Parser.statements] at hp
  split at hp
  · obtain ⟨s, ts₁, hs, hp₁⟩ := Parser.bind_eq_some hp
    have hstatement := h.statement hs hdepth
    dsimp only at hp₁
    split at hp₁
    · rename_i us
      obtain ⟨ss, ts₁, hss, hp₂⟩ := Parser.bind_eq_some hp₁
      cases hp₂
      have hle := (Nat.le_of_succ_le hstatement.length_le).trans hdepth
      exact .cons hstatement (h.statements hss hle)
    · rename_i hsemicolon
      cases hp₁
      exact .last hstatement (head?_ne hsemicolon)
  · rename_i hstarts
    cases hp
    exact .none (refuses_statement (Bool.eq_false_iff.mpr hstarts))

lemma ifStatement_succ (h : StmtAgrees fuel)
    (hp : Parser.statement (fuel + 1) (.keyword .if_ :: ts) = some (s, rest))
    (hdepth : ts.length < depth) :
    Yields (ifStatement (expression depth) (Scannerless.statements depth)) (.keyword .if_ :: ts) s
      rest := by
  rw [Parser.statement] at hp
  obtain ⟨c, ts₁, hc, hp₁⟩ := Parser.bind_eq_some hp
  obtain ⟨ts₁, rfl, hp₂⟩ := Parser.bind_expect hp₁
  obtain ⟨ss, ts₂, hss, hp₃⟩ := Parser.bind_eq_some hp₂
  have hcondition := (exprAgrees fuel).expression hc hdepth
  have hdepth₁ : ts₁.length < depth := (Nat.lt_of_succ_le hcondition.length_le).trans hdepth
  have hthen := h.sequence hss hdepth₁
  refine (yields_keyword .if_ ts).bind (hcondition.bind ?_)
  refine (yields_keyword .then_ ts₁).bind (hthen.bind ?_)
  dsimp only at hp₃
  split at hp₃
  · rename_i us
    obtain ⟨bs, ts₃, hbs, hp₄⟩ := Parser.bind_eq_some hp₃
    obtain ⟨ts₃, rfl, hp₅⟩ := Parser.bind_expect hp₄
    cases hp₅
    have hdepth₂ : us.length < depth := (Nat.lt_of_succ_le hthen.length_le).trans hdepth₁
    have helse : Yields (elseBranch (Scannerless.statements depth)) (.keyword .else_ :: us)
        (.ofList bs) (.keyword .end_ :: rest) :=
      (yields_keyword .else_ us).bind (h.sequence hbs hdepth₂)
    exact helse.optional.bind ((yields_keyword .end_ rest).bind yields_pure)
  · obtain ⟨ts₂, rfl, hp₄⟩ := Parser.bind_expect hp₃
    cases hp₄
    have hnone : Refuses (elseBranch (Scannerless.statements depth)) (.keyword .end_ :: rest) :=
      (refuses_keyword (by simp)).bind
    exact hnone.optional.bind ((yields_keyword .end_ rest).bind yields_pure)

lemma statement_succ (h : StmtAgrees fuel) (hp : Parser.statement (fuel + 1) ts = some (s, rest))
    (hdepth : ts.length ≤ depth) :
    Yields (Scannerless.statement (expression depth) (Scannerless.statements depth)) ts s
      rest := by
  rw [Parser.statement.eq_def] at hp
  dsimp only at hp
  split at hp
  · cases hp
    exact .orElse ((yields_keyword .skip_ rest).bind yields_pure)
  · refine .past_keyword (by simp) ?_
    exact .orElse (h.block hp hdepth)
  · refine .past_keyword (by simp) (.past_keyword (by simp) ?_)
    exact .orElse (h.ifStatement_succ hp hdepth)
  · rename_i ts
    obtain ⟨c, ts₁, hc, hp₁⟩ := Parser.bind_eq_some hp
    obtain ⟨ts₁, rfl, hp₂⟩ := Parser.bind_expect hp₁
    obtain ⟨ss, ts₂, hss, hp₃⟩ := Parser.bind_eq_some hp₂
    obtain ⟨ts₂, rfl, hp₄⟩ := Parser.bind_expect hp₃
    cases hp₄
    have hcondition := (exprAgrees fuel).expression hc hdepth
    have hbody := h.sequence hss ((Nat.lt_of_succ_le hcondition.length_le).trans hdepth)
    refine .past_keyword (by simp) (.past_keyword (by simp) (.past_keyword (by simp) ?_))
    refine .orElse ((yields_keyword .while_ ts).bind (hcondition.bind ?_))
    refine (yields_keyword .do_ ts₁).bind (hbody.bind ?_)
    exact (yields_keyword .end_ rest).bind yields_pure
  · rename_i ts
    obtain ⟨ss, ts₁, hss, hp₁⟩ := Parser.bind_eq_some hp
    obtain ⟨ts₁, rfl, hp₂⟩ := Parser.bind_expect hp₁
    obtain ⟨c, ts₂, hc, hp₃⟩ := Parser.bind_eq_some hp₂
    cases hp₃
    have hbody := h.sequence hss hdepth
    have hcondition :=
      (exprAgrees fuel).expression hc ((Nat.lt_of_succ_le hbody.length_le).trans hdepth)
    refine .past_keyword (by simp) (.past_keyword (by simp) (.past_keyword (by simp)
      (.past_keyword (by simp) ?_)))
    refine .orElse ((yields_keyword .repeat_ ts).bind (hbody.bind ?_))
    exact (yields_keyword .until_ ts₁).bind (hcondition.bind yields_pure)
  · rename_i ts
    obtain ⟨e, ts₁, he, hp₁⟩ := Parser.bind_eq_some hp
    cases hp₁
    refine .past_keyword (by simp) (.past_keyword (by simp) (.past_keyword (by simp)
      (.past_keyword (by simp) (.past_keyword (by simp) ?_))))
    have he := (exprAgrees fuel).expression he hdepth
    exact .orElse ((yields_keyword .print_ ts).bind (he.bind yields_pure))
  · rename_i ts
    obtain ⟨e, ts₁, he, hp₁⟩ := Parser.bind_eq_some hp
    cases hp₁
    refine .past_keyword (by simp) (.past_keyword (by simp) (.past_keyword (by simp)
      (.past_keyword (by simp) (.past_keyword (by simp) (.past_keyword (by simp) ?_)))))
    have he := (exprAgrees fuel).expression he hdepth
    exact .orElse ((yields_keyword .return_ ts).bind (he.bind yields_pure))
  · rename_i x ts
    obtain ⟨e, ts₁, he, hp₁⟩ := Parser.bind_eq_some hp
    cases hp₁
    have he := (exprAgrees fuel).expression he (Nat.lt_of_succ_lt hdepth)
    refine past_keywords (by simp) ?_
    refine .orElse ((yields_identifier x _).bind ?_)
    exact (yields_symbol .assign (by decide) ts).bind (he.bind yields_pure)
  · rename_i f ts
    obtain ⟨es, ts₁, hes, hp₁⟩ := Parser.bind_eq_some hp
    cases hp₁
    refine past_keywords (by simp) ?_
    have hassign : Refuses (assignment (expression depth)) (.name f :: .symbol .openParen :: ts) :=
      (yields_identifier f _).bind_refuses (refuses_symbol .assign (by decide) (by simp)).bind
    refine Refuses.orElse_yields hassign ?_
    exact ((exprAgrees fuel).call f hes (Nat.lt_of_succ_lt hdepth)).bind yields_pure
  · cases hp

end StmtAgrees

lemma stmtAgrees (fuel : Nat) : StmtAgrees fuel := by
  induction fuel with
  | zero =>
    constructor
    · rintro _ _ _ _ ⟨⟩
    · rintro _ _ _ _ ⟨⟩
    · rintro _ _ _ _ ⟨⟩
  | succ fuel ih => exact ⟨ih.statement_succ, ih.block_succ, ih.statements_succ⟩

/-! ### Programs -/

lemma exists_yields_formals {xs : List String} (hp : Parser.formals ts = some (xs, rest)) :
    ∃ us, ts = .symbol .openParen :: us ∧
      Yields (separatedBy identifier (symbol ",")) us xs (.symbol .closeParen :: rest) := by
  unfold Parser.formals at hp
  split at hp
  · cases hp
    exact ⟨_, rfl, (refuses_identifier (by simp)).separatedBy⟩
  · rename_i us _
    obtain ⟨ys, ts₁, hys, hp₁⟩ := Parser.bind_eq_some hp
    obtain ⟨ts₁, rfl, hp₂⟩ := Parser.bind_expect hp₁
    cases hp₂
    exact ⟨us, rfl, (yields_names hys).orElse⟩
  · cases hp

lemma runs_procedures {ps : List Procedure} (hp : Parser.procedures fuel ts = some (ps, rest))
    (hdepth : ts.length < depth) : Runs (procedure (statements depth)) ts ps rest := by
  induction fuel generalizing ts ps with
  | zero => cases hp
  | succ fuel ih =>
    rw [Parser.procedures.eq_def] at hp
    dsimp only at hp
    split at hp
    · rename_i f ts
      obtain ⟨xs, ts₁, hxs, hp₁⟩ := Parser.bind_eq_some hp
      obtain ⟨ts₁, rfl, hp₂⟩ := Parser.bind_expect hp₁
      obtain ⟨s, ts₂, hs, hp₃⟩ := Parser.bind_eq_some hp₂
      obtain ⟨ps, ts₃, hps, hp₄⟩ := Parser.bind_eq_some hp₃
      cases hp₄
      obtain ⟨us, rfl, hus⟩ := exists_yields_formals hxs
      have hle := hus.length_le
      simp only [List.length_cons] at hle hdepth
      have hdepth₁ : ts₁.length < depth := by omega
      have hblock := (stmtAgrees fuel).block hs hdepth₁
      have hle₁ := hblock.length_le
      rw [List.length_cons] at hle₁
      have hdepth₂ : ts₂.length < depth := by omega
      refine .step ?_ ?_ (ih hps hdepth₂)
      · refine (yields_keyword .procedure_ _).bind ((yields_identifier f _).bind ?_)
        refine (yields_symbol .openParen (by decide) us).bind (hus.bind ?_)
        exact (yields_symbol .closeParen (by decide) _).bind (hblock.bind yields_pure)
      · simp only [List.length_cons]
        omega
    · cases hp
    · rename_i hprocedure
      cases hp
      exact .stop (refuses_keyword (head?_ne hprocedure)).bind

end

end Scannerless

namespace Program

open Scannerless

/-- A program that is read by look-ahead is read by ordered choice. -/
lemma parseScannerless?_of_parse? {source text : String} {p : Program}
    (h : parse? source text = some p) : parseScannerless? source text = some p := by
  obtain ⟨ts, hts, hp⟩ := Option.bind_eq_some_iff.mp h
  rw [Parser.program] at hp
  obtain ⟨ps, ts₁, hps, hp₁⟩ := Parser.bind_eq_some hp
  obtain ⟨main, ts₂, hmain, hp₂⟩ := Parser.bind_eq_some hp₁
  cases ts₂ with
  | cons => cases hp₂
  | nil =>
    cases hp₂
    have hsplits := (splits_iff_of_gaps (gaps_skip text.toList)).mp (Token.scan_eq_some_iff.mp hts)
    have hlexes := (lexes_iff_splits (trimmed_skip text.toList)).mpr hsplits
    have hdepth : ts.length < text.length + 1 := by
      have hle := hlexes.length_le
      have hgaps := (gaps_skip text.toList).length_le
      rw [String.length_toList] at hgaps
      omega
    have hprocedures := (runs_procedures hps hdepth).repeated
    have hstatements :=
      (stmtAgrees _).sequence hmain (hprocedures.length_le.trans_lt hdepth)
    obtain ⟨cs₁, hcs₁, hlexes₁⟩ := hprocedures.reads _ hlexes
    obtain ⟨cs₂, hcs₂, hlexes₂⟩ := hstatements.reads _ hlexes₁
    cases hlexes₂
    simp [parseScannerless?, program, hcs₁, hcs₂, endOfText]

/-- A program that is read by ordered choice is read by look-ahead. -/
lemma parse?_of_parseScannerless? {source text : String} {p : Program}
    (h : parseScannerless? source text = some p) : parse? source text = some p := by
  obtain ⟨⟨⟨ps, main⟩, rest⟩, hparts, heq⟩ := Option.bind_eq_some_iff.mp h
  cases heq
  obtain ⟨ts, hts, hphrase⟩ := exists_phrase_of_program source hparts
  exact parse?_eq_some_of_phrase hts hphrase

/-- Reading a program by ordered choice, without tokens, is reading it from tokens with
look-ahead. -/
theorem parseScannerless?_eq_parse? (source text : String) :
    parseScannerless? source text = parse? source text := by
  refine Option.ext fun p => ?_
  exact ⟨parse?_of_parseScannerless?, parseScannerless?_of_parse?⟩

end Program

end Izmir
