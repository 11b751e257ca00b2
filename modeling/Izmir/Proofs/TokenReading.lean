import Izmir.Program.Parser
import Izmir.Program.Scannerless
import Izmir.Proofs.Lexemes

/-!
# Characters read as tokens

The parsers for words, numbers and symbols take one token each from the head of a text, and the
gap behind it. Where a text has no gap at its head, each of them does what a look at the first
token does. A symbol that begins a longer one is the exception, and so it is only among the
comparisons, where the longer symbols are tried before it.
-/

namespace Izmir

open Text Token

namespace Scannerless

variable {α β : Type}

@[simp] lemma pure_apply (a : α) (cs : List Char) : (pure a : Reads α) cs = some (a, cs) := rfl

@[simp] lemma failure_apply (cs : List Char) : (failure : Reads α) cs = none := rfl

@[simp] lemma bind_apply (p : Reads α) (f : α → Reads β) (cs : List Char) :
    (p >>= f) cs = (p cs).bind fun r => f r.1 r.2 := rfl

@[simp] lemma map_apply (f : α → β) (p : Reads α) (cs : List Char) :
    (f <$> p) cs = (p cs).map fun r => (f r.1, r.2) := by
  change (p cs).bind (fun r => some (f r.1, r.2)) = _
  cases p cs <;> rfl

@[simp] lemma orElse_apply (p q : Reads α) (cs : List Char) :
    (p <|> q) cs = (p cs).or (q cs) := by
  change (p cs).orElse (fun _ => q cs) = _
  cases p cs <;> rfl

@[simp] lemma liftM_apply (x : Option α) (cs : List Char) :
    (liftM x : Reads α) cs = x.map fun a => (a, cs) := by
  cases x <;> rfl

@[simp] lemma takeWhile_apply (p : Char → Bool) (cs : List Char) :
    takeWhile p cs = some (cs.takeWhile p, cs.dropWhile p) := rfl

@[simp] lemma satisfying_cons (p : Char → Bool) (c : Char) (cs : List Char) :
    satisfying p (c :: cs) = if p c then some (c, cs) else none := rfl

lemma just_eq_some_iff {text : String} {cs rest : List Char} :
    just text cs = some ((), rest) ↔ cs = text.toList ++ rest := by
  rw [just, Option.map_eq_some_iff]
  constructor
  · rintro ⟨rest, h, ⟨⟩⟩
    exact (List.isPrefixOf?_eq_some_iff_append_eq.mp h).symm
  · rintro rfl
    exact ⟨rest, List.isPrefixOf?_eq_some_iff_append_eq.mpr rfl, rfl⟩

lemma just_append (text : String) (rest : List Char) :
    just text (text.toList ++ rest) = some ((), rest) :=
  just_eq_some_iff.mpr rfl

lemma just_eq_none {text : String} {cs : List Char} (h : ∀ rest, cs ≠ text.toList ++ rest) :
    just text cs = none := by
  rw [Option.eq_none_iff_forall_ne_some]
  exact fun ⟨_, rest⟩ hsome => h rest (just_eq_some_iff.mp hsome)

/-! ### Gaps -/

/-- No gap at the head. -/
def Trimmed (cs : List Char) : Prop :=
  ∀ rest, next? cs ≠ some (none, rest)

/-- White space and comments between two places of a text. -/
def Gaps : List Char → List Char → Prop :=
  Relation.ReflTransGen fun cs rest => next? cs = some (none, rest)

lemma Gaps.blank {c : Char} {cs : List Char} (h : isBlank c) : Gaps (c :: cs) cs :=
  .single (next?_blank h cs)

lemma Gaps.length_le {cs rest : List Char} (h : Gaps cs rest) : rest.length ≤ cs.length := by
  induction h with
  | refl => exact le_rfl
  | tail _ hnext ih => exact (length_lt_of_next? hnext).le.trans ih

lemma gaps_dropWhile (cs : List Char) : Gaps cs (cs.dropWhile isBlank) := by
  induction cs with
  | nil => exact .refl
  | cons c cs ih =>
    rw [List.dropWhile_cons]
    split
    case isTrue h => exact (Gaps.blank h).trans ih
    case isFalse => exact .refl

lemma trimmed_of_head {c : Char} {cs : List Char} (hblank : isBlank c = false)
    (hcomment : ∀ ds, c :: cs ≠ '/' :: '/' :: ds) : Trimmed (c :: cs) := by
  intro rest h
  obtain ⟨ds, hds, heq⟩ := lexeme_of_next? h
  cases hds with
  | blank hc =>
    cases heq
    rw [hblank] at hc
    cases hc
  | comment h => exact hcomment _ heq

lemma isBlank_of_endsLine {c : Char} (h : endsLine c) : isBlank c := by
  simp only [endsLine, isBlank, Bool.or_eq_true, Bool.and_eq_true, decide_eq_true_eq,
    beq_iff_eq] at h ⊢
  omega

/-- The end of a line is white space. -/
lemma newline_gaps {c : Char} (h : endsLine c) (cs : List Char) :
    ∃ rest, newline (c :: cs) = some ((), rest) ∧ Gaps (c :: cs) rest ∧
      rest.length ≤ cs.length := by
  by_cases hreturn : ∃ ds, c :: cs = '\r' :: '\n' :: ds
  · obtain ⟨ds, heq⟩ := hreturn
    cases heq
    exact ⟨ds, rfl, (Gaps.blank (by decide)).trans (Gaps.blank (by decide)), by simp⟩
  · have hjust : just "\r\n" (c :: cs) = none :=
      just_eq_none fun rest heq => hreturn ⟨rest, heq⟩
    refine ⟨cs, ?_, .blank (isBlank_of_endsLine h), le_rfl⟩
    simp [newline, hjust, h]

/-- A comment is skipped with the end of its line. -/
lemma comment_gaps (ds : List Char) :
    ∃ rest, comment ('/' :: '/' :: ds) = some ((), rest) ∧ Gaps ('/' :: '/' :: ds) rest ∧
      rest.length ≤ ds.length := by
  have hjust : just "//" ('/' :: '/' :: ds) = some ((), ds) := just_append "//" ds
  have hgap : Gaps ('/' :: '/' :: ds) (ds.dropWhile fun c => !endsLine c) := .single rfl
  have hlength := (List.dropWhile_suffix (l := ds) fun c => !endsLine c).length_le
  cases hend : ds.dropWhile fun c => !endsLine c with
  | nil =>
    have hnewline : newline [] = none := rfl
    refine ⟨[], ?_, hend ▸ hgap, Nat.zero_le _⟩
    simp [comment, hjust, hend, hnewline, endOfText]
  | cons c cs =>
    have hc : endsLine c := by
      have hhead := List.head_dropWhile_not (p := fun c => !endsLine c) (l := ds) (by simp [hend])
      simpa [hend] using hhead
    obtain ⟨rest, hrest, hgaps, hle⟩ := newline_gaps hc cs
    rw [hend, List.length_cons] at hlength
    refine ⟨rest, ?_, (hend ▸ hgap).trans hgaps, by omega⟩
    simp [comment, hjust, hend, hrest]

lemma comment_eq_none {cs : List Char} (h : ∀ ds, cs ≠ '/' :: '/' :: ds) : comment cs = none := by
  have hjust : just "//" cs = none := just_eq_none h
  simp [comment, hjust]

@[simp] lemma blanks_apply (cs : List Char) : blanks cs = some ((), cs.dropWhile isBlank) := by
  simp [blanks]

def Unblank (cs : List Char) : Prop :=
  ∀ c ∈ cs.head?, isBlank c = false

lemma unblank_dropWhile (cs : List Char) : Unblank (cs.dropWhile isBlank) := by
  intro c hc
  have hhead := List.head?_dropWhile_not isBlank cs
  rw [hc] at hhead
  simpa using hhead

lemma dropWhile_of_unblank {cs : List Char} (h : Unblank cs) : cs.dropWhile isBlank = cs := by
  cases cs with
  | nil => rfl
  | cons c cs =>
    have hc : isBlank c = false := h c rfl
    rw [List.dropWhile_cons, hc, if_neg Bool.false_ne_true]

lemma trimmed_nil : Trimmed [] := by
  rintro rest ⟨⟩

lemma trimmed_of_unblank {cs : List Char} (hblank : Unblank cs)
    (hcomment : ∀ ds, cs ≠ '/' :: '/' :: ds) : Trimmed cs := by
  cases cs with
  | nil => exact trimmed_nil
  | cons c cs => exact trimmed_of_head (hblank c rfl) hcomment

/-- Where no blanks come first, it is the comment that counts. -/
lemma paddedComment_apply {cs : List Char} (h : Unblank cs) :
    paddedComment cs = (comment cs).map fun r => ((), r.2.dropWhile isBlank) := by
  simp only [paddedComment, bind_apply, blanks_apply, dropWhile_of_unblank h,
    Option.bind_some]
  cases comment cs <;> rfl

/-- Comments are skipped as long as there are any. -/
lemma many_paddedComment {n : Nat} {cs : List Char} (hn : cs.length ≤ n) (hblank : Unblank cs) :
    ∃ us rest, many paddedComment n cs = some (us, rest) ∧ Gaps cs rest ∧ Trimmed rest := by
  induction n generalizing cs with
  | zero =>
    obtain rfl := List.length_eq_zero_iff.mp (Nat.le_zero.mp hn)
    exact ⟨[], [], rfl, .refl, trimmed_nil⟩
  | succ n ih =>
    by_cases hcomment : ∃ ds, cs = '/' :: '/' :: ds
    · obtain ⟨ds, rfl⟩ := hcomment
      obtain ⟨mid, hmid, hgaps, hle⟩ := comment_gaps ds
      have hlength := (List.dropWhile_suffix (l := mid) isBlank).length_le
      simp only [List.length_cons] at hn
      obtain ⟨us, rest, hus, hrest, htrimmed⟩ := ih (by omega) (unblank_dropWhile mid)
      refine ⟨() :: us, rest, ?_, (hgaps.trans (gaps_dropWhile mid)).trans hrest, htrimmed⟩
      simp [many, paddedComment_apply hblank, hmid, hus]
    · rw [not_exists] at hcomment
      refine ⟨[], cs, ?_, .refl, trimmed_of_unblank hblank hcomment⟩
      simp [many, paddedComment_apply hblank, comment_eq_none hcomment]

/-- A text without the gaps at its head. -/
def skip (cs : List Char) : List Char :=
  match whitespace cs with
  | some (_, rest) => rest
  | none => cs

lemma whitespace_spec (cs : List Char) :
    whitespace cs = some ((), skip cs) ∧ Gaps cs (skip cs) ∧ Trimmed (skip cs) := by
  obtain ⟨us, rest, hus, hgaps, htrimmed⟩ := many_paddedComment le_rfl (unblank_dropWhile cs)
  have hspace : whitespace cs = some ((), rest) := by
    simp [whitespace, repeated, hus]
  have hskip : skip cs = rest := by rw [skip, hspace]
  rw [hskip]
  exact ⟨hspace, (gaps_dropWhile cs).trans hgaps, htrimmed⟩

@[simp] lemma whitespace_apply (cs : List Char) : whitespace cs = some ((), skip cs) :=
  (whitespace_spec cs).1

lemma gaps_skip (cs : List Char) : Gaps cs (skip cs) :=
  (whitespace_spec cs).2.1

lemma trimmed_skip (cs : List Char) : Trimmed (skip cs) :=
  (whitespace_spec cs).2.2

/-- Nothing is skipped where there is no gap. -/
lemma skip_of_trimmed {cs : List Char} (h : Trimmed cs) : skip cs = cs := by
  rcases (gaps_skip cs).cases_head with heq | ⟨rest, hnext, -⟩
  · exact heq.symm
  · exact absurd hnext (h rest)

/-! ### Tokens -/

/-- The token at the head of a text, and what follows behind the gap after it. -/
def first? (cs : List Char) : Option (Token × List Char) :=
  match next? cs with
  | some (some t, rest) => some (t, skip rest)
  | _ => none

/-- Take the first token, if it is one that is wanted. -/
def taking (f : Token → Option α) : Reads α := fun cs =>
  (first? cs).bind fun r => (f r.1).map fun a => (a, r.2)

lemma first?_of_next? {cs rest : List Char} {t : Token} (h : next? cs = some (some t, rest)) :
    first? cs = some (t, skip rest) := by
  rw [first?, h]

lemma next?_of_first? {cs rest : List Char} {t : Token} (h : first? cs = some (t, rest)) :
    ∃ mid, next? cs = some (some t, mid) ∧ rest = skip mid := by
  unfold first? at h
  split at h
  · next hnext =>
    cases h
    exact ⟨_, hnext, rfl⟩
  · cases h

lemma taking_eq_none {f : Token → Option α} {cs : List Char}
    (h : ∀ t mid, next? cs = some (some t, mid) → f t = none) : taking f cs = none := by
  unfold taking
  cases hfirst : first? cs with
  | none => rfl
  | some r =>
    obtain ⟨mid, hnext, -⟩ := next?_of_first? hfirst
    simp [h r.1 mid hnext]

/-- Where there is no gap, `p` looks at the first token and takes it if `f` wants it. -/
def ReadsAs (p : Reads α) (f : Token → Option α) : Prop :=
  ∀ cs, Trimmed cs → p cs = taking f cs

lemma readsAs_taking (f : Token → Option α) : ReadsAs (taking f) f :=
  fun _ _ => rfl

namespace ReadsAs

variable {p q : Reads α} {f g : Token → Option α}

lemma orElse (hp : ReadsAs p f) (hq : ReadsAs q g) :
    ReadsAs (p <|> q) fun t => (f t).or (g t) := by
  intro cs hcs
  rw [orElse_apply, hp cs hcs, hq cs hcs]
  unfold taking
  cases first? cs with
  | none => rfl
  | some r => cases hf : f r.1 <;> simp [hf]

lemma bind_pure (hp : ReadsAs p f) (b : α → β) :
    ReadsAs (p >>= fun a => pure (b a)) fun t => (f t).map b := by
  intro cs hcs
  rw [bind_apply, hp cs hcs]
  unfold taking
  cases first? cs with
  | none => rfl
  | some r => cases hf : f r.1 <;> simp [hf]

lemma congr (hp : ReadsAs p f) (h : ∀ t, f t = g t) : ReadsAs p g :=
  funext h ▸ hp

end ReadsAs

/-- One token and no other. -/
def only (u : Token) (t : Token) : Option Unit :=
  if t = u then some () else none

/-! ### Words -/

lemma next?_of_startsName {c : Char} (h : startsName c) (cs : List Char) :
    next? (c :: cs) =
      some (some (ofWord (c :: cs.takeWhile continuesName)), cs.dropWhile continuesName) :=
  next?_word (w := [c]) (by simp [isName, h]) cs

/-- Only a word begins like a name. -/
lemma startsName_of_next? {c : Char} {cs mid : List Char} {t : Token}
    (h : next? (c :: cs) = some (some t, mid))
    (ht : (∃ k, t = .keyword k) ∨ ∃ x, t = .name x) : startsName c := by
  obtain ⟨ds, hds, heq⟩ := lexeme_of_next? h
  have hname : isName ds := by
    rcases ht with ⟨k, rfl⟩ | ⟨x, rfl⟩
    · cases hds
      exact k.isName_text
    · cases hds
      assumption
  cases ds with
  | nil => cases hname
  | cons d ds =>
    cases heq
    exact (Bool.and_eq_true_iff.mp hname).1

lemma ofWord_eq_keyword_iff {w : List Char} {k : Keyword} :
    ofWord w = .keyword k ↔ String.ofList w = k.text := by
  constructor
  · intro h
    cases hk : Keyword.ofText? (String.ofList w) with
    | some k' =>
      simp only [ofWord, hk] at h
      cases h
      exact (Keyword.text_of_ofText? hk).symm
    | none =>
      simp only [ofWord, hk] at h
      cases h
  · intro h
    rw [ofWord, h, Keyword.ofText?_text]

lemma word_of_startsName {c : Char} (h : startsName c) (cs : List Char) :
    word (c :: cs) = some (String.ofList (c :: cs.takeWhile continuesName),
      cs.dropWhile continuesName) := by
  simp [word, h]

lemma word_eq_none {cs : List Char} (h : ∀ c ∈ cs.head?, startsName c = false) :
    word cs = none := by
  cases cs with
  | nil => rfl
  | cons c cs =>
    have hc : startsName c = false := h c rfl
    simp [word, hc]

/-- A parser that begins with a word looks for a reserved word or a name. -/
lemma word_bind {f : String → Reads α} {g : Token → Option α}
    (hf : ∀ w cs, f (String.ofList w) cs = (g (ofWord w)).map fun a => (a, skip cs))
    (hg : ∀ t, (∀ k, t ≠ .keyword k) → (∀ x, t ≠ .name x) → g t = none) (cs : List Char) :
    (word >>= f) cs = taking g cs := by
  cases cs with
  | nil => rfl
  | cons c cs =>
    cases hc : startsName c with
    | true =>
      rw [taking, first?_of_next? (next?_of_startsName hc cs), bind_apply,
        word_of_startsName hc]
      exact hf _ _
    | false =>
      have hword : word (c :: cs) = none := word_eq_none (by simpa using hc)
      rw [bind_apply, hword, taking_eq_none fun t mid hnext => hg t ?_ ?_]
      · rfl
      · rintro k rfl
        rw [startsName_of_next? hnext (.inl ⟨k, rfl⟩)] at hc
        cases hc
      · rintro x rfl
        rw [startsName_of_next? hnext (.inr ⟨x, rfl⟩)] at hc
        cases hc

lemma readsAs_keyword (k : Keyword) : ReadsAs (keyword k) (only (.keyword k)) := by
  intro cs _
  refine word_bind (fun w cs => ?_) (fun t hk _ => if_neg (hk k)) cs
  simp only [ofWord_eq_keyword_iff]
  split <;> simp

def name? : Token → Option String
  | .name x => some x
  | _ => none

lemma readsAs_identifier : ReadsAs identifier name? := by
  intro cs _
  refine word_bind (fun w cs => ?_) (fun t _ hx => ?_) cs
  · cases hk : Keyword.ofText? (String.ofList w) <;> simp [ofWord, hk, name?]
  · cases t with
    | name x => exact absurd rfl (hx x)
    | _ => rfl

/-! ### Numbers -/

/-- Only a number begins with a digit. -/
lemma startsWithDigit_of_next? {cs mid : List Char} {n : Nat}
    (h : next? cs = some (some (.number n), mid)) : startsWithDigit cs := by
  obtain ⟨ds, hds, rfl⟩ := lexeme_of_next? h
  cases hds with
  | zero => rfl
  | number hc => exact hc

lemma digits_cases (cs : List Char) :
    (∃ ds rest, digits cs = some (ds, rest) ∧ ds ≠ [] ∧ (∀ d ∈ ds, d.isDigit) ∧
        next? cs = some (some (.number (Nat.ofDigitChars 10 ds 0)), rest)) ∨
      digits cs = none ∧ startsWithDigit cs = false := by
  cases cs with
  | nil => exact .inr ⟨rfl, rfl⟩
  | cons c cs =>
    by_cases hzero : c = '0'
    · subst hzero
      exact .inl ⟨['0'], cs, rfl, by simp, by simp, rfl⟩
    · cases hc : c.isDigit with
      | true =>
        have hnext := next?_number hc hzero (List.forall_mem_nil _) cs
        refine .inl ⟨c :: cs.takeWhile Char.isDigit, cs.dropWhile Char.isDigit, ?_, by simp, ?_,
          hnext⟩
        · simp [digits, hc, hzero]
        · exact List.forall_mem_cons.mpr ⟨hc, fun d hd => List.mem_takeWhile_imp hd⟩
      | false =>
        have hjust : just "0" (c :: cs) = none :=
          just_eq_none fun rest heq => hzero (List.cons.inj heq).1
        exact .inr ⟨by simp [digits, hc, hjust], hc⟩

lemma digits_eq_none {cs : List Char} (h : startsWithDigit cs = false) : digits cs = none := by
  rcases digits_cases cs with ⟨ds, rest, -, -, -, hnext⟩ | ⟨hdigits, -⟩
  · rw [startsWithDigit_of_next? hnext] at h
    cases h
  · exact hdigits

lemma trimmed_of_startsWithDigit {cs : List Char} (h : startsWithDigit cs) : Trimmed cs := by
  cases cs with
  | nil => cases h
  | cons c cs =>
    have hc : c.isDigit := h
    refine trimmed_of_head ?_ fun ds heq => ?_
    · exact isBlank_of_isSolid (isSolid_of_continuesName (continuesName_iff.mpr (.inr hc)))
    · cases heq
      cases hc

lemma digits?_eq {ds : List Char} (hne : ds ≠ []) (hds : ∀ d ∈ ds, d.isDigit) :
    Decimal.digits? ds = some (Nat.ofDigitChars 10 ds 0) := by
  rw [Decimal.digits?, if_pos ⟨hne, List.all_eq_true.mpr hds⟩]

lemma ofText?_minus {ds : List Char} (hne : ds ≠ []) (hds : ∀ d ∈ ds, d.isDigit) :
    Value.ofText? ('-' :: ds) = Value.ofInt? (-Nat.ofDigitChars 10 ds 0 : Int) := by
  rw [Value.ofText?, Decimal.integer?, digits?_eq hne hds]
  rfl

lemma ofText?_digits {ds : List Char} (hne : ds ≠ []) (hds : ∀ d ∈ ds, d.isDigit) :
    Value.ofText? ds = Value.ofInt? (Nat.ofDigitChars 10 ds 0) := by
  have hdigits := digits?_eq hne hds
  have hinteger : Decimal.integer? ds = (Decimal.digits? ds).map Int.ofNat := by
    unfold Decimal.integer?
    split
    · exact absurd (hds '+' (by simp)) (by decide)
    · exact absurd (hds '-' (by simp)) (by decide)
    · rfl
  rw [Value.ofText?, hinteger, hdigits]
  rfl

def number? : Token → Option Value
  | .number n => Value.ofInt? n
  | _ => none

def negated? : Token → Option Value
  | .number n => Value.ofInt? (-n)
  | _ => none

/-- A parser that begins with digits looks for a number. -/
lemma digits_bind {f : List Char → Reads α} {g : Token → Option α}
    (hf : ∀ ds cs, ds ≠ [] → (∀ d ∈ ds, d.isDigit) →
      f ds cs = (g (.number (Nat.ofDigitChars 10 ds 0))).map fun a => (a, skip cs))
    (hg : ∀ t, (∀ n, t ≠ .number n) → g t = none) (cs : List Char) :
    (digits >>= f) cs = taking g cs := by
  rcases digits_cases cs with ⟨ds, rest, hdigits, hne, hds, hnext⟩ | ⟨hdigits, hhead⟩
  · rw [taking, first?_of_next? hnext, bind_apply, hdigits]
    exact hf ds rest hne hds
  · rw [bind_apply, hdigits, taking_eq_none fun t mid hnext => hg t ?_]
    · rfl
    · rintro n rfl
      rw [startsWithDigit_of_next? hnext] at hhead
      cases hhead

lemma readsAs_integer : ReadsAs integer number? := by
  intro cs _
  refine digits_bind (fun ds cs hne hds => ?_) (fun t hn => ?_) cs
  · rw [ofText?_digits hne hds]
    cases hv : Value.ofInt? (Nat.ofDigitChars 10 ds 0) <;> simp [number?, hv]
  · cases t with
    | number n => exact absurd rfl (hn n)
    | _ => rfl

/-- The sign of a negative number is a token of its own, without a gap behind it. -/
lemma negativeInteger_eq (cs : List Char) :
    negativeInteger cs = (taking (only (.minus true)) >>= fun _ => taking negated?) cs := by
  by_cases hminus : ∃ rest, cs = '-' :: rest
  · obtain ⟨rest, rfl⟩ := hminus
    have hjust : just "-" ('-' :: rest) = some ((), rest) := just_append "-" rest
    have hfirst : first? ('-' :: rest) = some (.minus (startsWithDigit rest), skip rest) :=
      first?_of_next? rfl
    cases hdigit : startsWithDigit rest with
    | true =>
      have htrimmed : Trimmed rest := trimmed_of_startsWithDigit hdigit
      have hright : (taking (only (.minus true)) >>= fun _ => taking negated?) ('-' :: rest) =
          taking negated? rest := by
        simp [taking, hfirst, hdigit, only, skip_of_trimmed htrimmed]
      rw [hright, negativeInteger, bind_apply, hjust]
      refine digits_bind (fun ds cs hne hds => ?_) (fun t hn => ?_) rest
      · rw [ofText?_minus hne hds]
        cases hv : Value.ofInt? (-Nat.ofDigitChars 10 ds 0 : Int) <;> simp [negated?, hv]
      · cases t with
        | number n => exact absurd rfl (hn n)
        | _ => rfl
    | false =>
      simp [negativeInteger, hjust, digits_eq_none hdigit, taking, hfirst, hdigit, only]
  · have hjust : just "-" cs = none := just_eq_none fun rest heq => hminus ⟨rest, heq⟩
    have htaking : taking (only (.minus true)) cs = none := by
      refine taking_eq_none fun t mid hnext => if_neg ?_
      rintro rfl
      obtain ⟨_, ⟨⟩, heq⟩ := lexeme_of_next? hnext
      exact hminus ⟨mid, heq⟩
    rw [negativeInteger, bind_apply, bind_apply, hjust, htaking]
    rfl

/-! ### Symbols -/

/-- A symbol is read as a token where no longer symbol and no comment begins with it. -/
lemma symbol_eq_taking {s : Symbol} {cs : List Char}
    (h : ∀ rest, cs = s.text.toList ++ rest → next? cs = some (some (.symbol s), rest)) :
    symbol s.text cs = taking (only (.symbol s)) cs := by
  by_cases htext : ∃ rest, cs = s.text.toList ++ rest
  · obtain ⟨rest, heq⟩ := htext
    have hjust : just s.text cs = some ((), rest) := just_eq_some_iff.mpr heq
    rw [taking, first?_of_next? (h rest heq), symbol, bind_apply, hjust]
    simp [only]
  · have hjust : just s.text cs = none := just_eq_none fun rest heq => htext ⟨rest, heq⟩
    have htaking : taking (only (.symbol s)) cs = none := by
      refine taking_eq_none fun t mid hnext => if_neg ?_
      rintro rfl
      obtain ⟨_, ⟨⟩, heq⟩ := lexeme_of_next? hnext
      exact htext ⟨mid, heq⟩
    rw [symbol, bind_apply, hjust, htaking]
    rfl

lemma readsAs_symbol (s : Symbol) (hs : s ≠ .less ∧ s ≠ .greater) :
    ReadsAs (symbol s.text) (only (.symbol s)) := by
  intro cs hcs
  refine symbol_eq_taking ?_
  rintro rest rfl
  cases s with
  | less => exact absurd rfl hs.1
  | greater => exact absurd rfl hs.2
  | «over» =>
    refine next?_over ?_
    rintro ds rfl
    exact hcs _ rfl
  | _ => rfl

def minus? : Token → Option Unit
  | .minus _ => some ()
  | _ => none

lemma readsAs_minus : ReadsAs (symbol "-") minus? := by
  intro cs _
  by_cases hminus : ∃ rest, cs = '-' :: rest
  · obtain ⟨rest, rfl⟩ := hminus
    have hnext : next? ('-' :: rest) = some (some (.minus (startsWithDigit rest)), rest) := rfl
    have hjust : just "-" ('-' :: rest) = some ((), rest) := just_append "-" rest
    rw [taking, first?_of_next? hnext, symbol, bind_apply, hjust]
    simp [minus?]
  · have hjust : just "-" cs = none := just_eq_none fun rest heq => hminus ⟨rest, heq⟩
    rw [symbol, bind_apply, hjust, taking_eq_none fun t mid hnext => ?_]
    · rfl
    · cases t with
      | minus tight =>
        obtain ⟨_, ⟨⟩, heq⟩ := lexeme_of_next? hnext
        exact absurd ⟨mid, heq⟩ hminus
      | _ => rfl

lemma readsAs_operator {text : String} {f : Token → Option Unit} (h : ReadsAs (symbol text) f)
    (p : Primitive) : ReadsAs (operator text p) fun t => (f t).map fun _ => p :=
  h.bind_pure fun _ => p

lemma readsAs_unaryOperator : ReadsAs unaryOperator Parser.unaryOperator? := by
  refine ((readsAs_operator readsAs_minus .unaryMinus).orElse
    ((readsAs_keyword .not_).bind_pure fun _ => .logicalNot)).congr fun t => ?_
  cases t with
  | keyword k => cases k <;> rfl
  | _ => rfl

lemma readsAs_sumOperator : ReadsAs sumOperator Parser.sumOperator? := by
  refine ((readsAs_operator (readsAs_symbol .plus (by decide)) .plus).orElse
    (readsAs_operator readsAs_minus .minus)).congr fun t => ?_
  cases t with
  | symbol s => cases s <;> rfl
  | _ => rfl

lemma readsAs_productOperator : ReadsAs productOperator Parser.productOperator? := by
  refine ((readsAs_operator (readsAs_symbol .times (by decide)) .times).orElse
    ((readsAs_operator (readsAs_symbol .over (by decide)) .divided).orElse
      (readsAs_operator (readsAs_symbol .percent (by decide)) .remainder))).congr
    fun t => ?_
  cases t with
  | symbol s => cases s <;> rfl
  | _ => rfl

def comparisonOperator? : Token → Option Primitive
  | .symbol s => Parser.comparison? s
  | _ => none

lemma operator_apply (text : String) (p : Primitive) (cs : List Char) :
    operator text p cs = (symbol text cs).map fun r => (p, r.2) := by
  cases h : symbol text cs <;> simp [operator, h]

/-- The symbols that begin with another symbol. -/
def longSymbols : List Symbol :=
  [.lessOrEqual, .different, .greaterOrEqual]

/-- The symbols that begin one of these are read as tokens where none of these stands. -/
lemma symbol_eq_taking_of_short {s : Symbol} (hs : s = .less ∨ s = .greater) {cs : List Char}
    (hlong : ¬∃ u ∈ longSymbols, ∃ rest, next? cs = some (some (.symbol u), rest)) :
    symbol s.text cs = taking (only (.symbol s)) cs := by
  refine symbol_eq_taking ?_
  rintro rest rfl
  rcases hs with rfl | rfl
  · refine next?_less ?_ ?_
    · rintro ds rfl
      exact hlong ⟨.lessOrEqual, by simp [longSymbols], ds, rfl⟩
    · rintro ds rfl
      exact hlong ⟨.different, by simp [longSymbols], ds, rfl⟩
  · refine next?_greater ?_
    rintro ds rfl
    exact hlong ⟨.greaterOrEqual, by simp [longSymbols], ds, rfl⟩

lemma readsAs_comparisonOperator : ReadsAs comparisonOperator comparisonOperator? := by
  intro cs hcs
  have hle : symbol "<=" cs = _ := readsAs_symbol .lessOrEqual (by decide) cs hcs
  have hne : symbol "<>" cs = _ := readsAs_symbol .different (by decide) cs hcs
  have hge : symbol ">=" cs = _ := readsAs_symbol .greaterOrEqual (by decide) cs hcs
  have heq : symbol "=" cs = _ := readsAs_symbol .equal (by decide) cs hcs
  simp only [comparisonOperator, orElse_apply, operator_apply, hle, hne, hge, heq]
  by_cases hlong : ∃ u ∈ longSymbols, ∃ rest, next? cs = some (some (.symbol u), rest)
  · obtain ⟨u, hu, rest, hnext⟩ := hlong
    have hfirst := first?_of_next? hnext
    -- One of the longer symbols is taken, whatever the shorter ones would do.
    cases u <;> simp [longSymbols] at hu <;>
      simp [taking, hfirst, only, comparisonOperator?, Parser.comparison?]
  · have hlt : symbol "<" cs = _ := symbol_eq_taking_of_short (.inl rfl) hlong
    have hgt : symbol ">" cs = _ := symbol_eq_taking_of_short (.inr rfl) hlong
    rw [hlt, hgt]
    unfold taking
    cases first? cs with
    | none => rfl
    | some r =>
      obtain ⟨t, rest⟩ := r
      cases t with
      | symbol s => cases s <;> rfl
      | _ => rfl

/-! ### Rows of tokens -/

/-- `Lexes cs ts rest` says that the text `cs` begins with the tokens `ts` and that `rest` is what
follows them, behind the gap after the last one. -/
inductive Lexes : List Char → List Token → List Char → Prop where
  | nil {cs : List Char} (h : Trimmed cs) : Lexes cs [] cs
  | cons {cs mid rest : List Char} {t : Token} {ts : List Token} (h : first? cs = some (t, mid))
      (hrest : Lexes mid ts rest) : Lexes cs (t :: ts) rest

namespace Lexes

variable {cs mid rest : List Char} {ts us : List Token}

lemma trimmed_left (h : Lexes cs ts rest) : Trimmed cs := by
  cases h with
  | nil h => exact h
  | cons h =>
    obtain ⟨mid, hnext, -⟩ := next?_of_first? h
    intro rest hgap
    rw [hnext] at hgap
    cases hgap

lemma trimmed_right (h : Lexes cs ts rest) : Trimmed rest := by
  induction h with
  | nil h => exact h
  | cons _ _ ih => exact ih

lemma append (h : Lexes cs ts mid) (h' : Lexes mid us rest) : Lexes cs (ts ++ us) rest := by
  induction h with
  | nil => exact h'
  | cons h _ ih => exact .cons h (ih h')

lemma single {t : Token} (h : first? cs = some (t, rest)) : Lexes cs [t] rest := by
  obtain ⟨mid, -, rfl⟩ := next?_of_first? h
  exact .cons h (.nil (trimmed_skip mid))

/-- There are not more tokens than characters. -/
lemma length_le (h : Lexes cs ts rest) : ts.length ≤ cs.length := by
  induction h with
  | nil => exact Nat.zero_le _
  | cons h _ ih =>
    obtain ⟨mid, hnext, rfl⟩ := next?_of_first? h
    have hlt := length_lt_of_next? hnext
    have hle := (gaps_skip mid).length_le
    rw [List.length_cons]
    omega

end Lexes

/-- Gaps do not matter for what a text splits into. -/
lemma splits_iff_of_gaps {cs rest : List Char} {ts : List Token} (h : Gaps cs rest) :
    Splits cs ts ↔ Splits rest ts := by
  induction h with
  | refl => rfl
  | @tail mid rest _ hnext ih =>
    rw [ih]
    cases mid with
    | nil => cases hnext
    | cons c mid =>
      rw [splits_cons_iff]
      constructor
      · rintro ⟨t, rest', us, hnext', hus, rfl⟩
        rw [hnext] at hnext'
        cases hnext'
        exact hus
      · exact fun hts => ⟨none, rest, ts, hnext, hts, rfl⟩

/-- A text without a gap at its head splits into its tokens. -/
lemma lexes_iff_splits {cs : List Char} {ts : List Token} (hcs : Trimmed cs) :
    Lexes cs ts [] ↔ Splits cs ts := by
  induction ts generalizing cs with
  | nil =>
    constructor
    · rintro ⟨⟩
      exact .nil
    · intro h
      cases cs with
      | nil => exact .nil trimmed_nil
      | cons c cs =>
        obtain ⟨t, rest, us, hnext, -, heq⟩ := splits_cons_iff.mp h
        cases t with
        | none => exact absurd hnext (hcs rest)
        | some t => cases heq
  | cons t ts ih =>
    constructor
    · intro h
      cases h with
      | cons h hrest =>
        obtain ⟨mid, hnext, rfl⟩ := next?_of_first? h
        have hmid := (splits_iff_of_gaps (gaps_skip mid)).mpr ((ih (trimmed_skip mid)).mp hrest)
        cases cs with
        | nil => cases hnext
        | cons c cs => exact splits_cons_iff.mpr ⟨some t, mid, ts, hnext, hmid, rfl⟩
    · intro h
      cases cs with
      | nil => cases splits_nil_iff.mp h
      | cons c cs =>
        obtain ⟨u, mid, us, hnext, hus, heq⟩ := splits_cons_iff.mp h
        cases u with
        | none => exact absurd hnext (hcs mid)
        | some u =>
          cases heq
          have hmid := (splits_iff_of_gaps (gaps_skip mid)).mp hus
          exact .cons (first?_of_next? hnext) ((ih (trimmed_skip mid)).mpr hmid)

end Scannerless

end Izmir
