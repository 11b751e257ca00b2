import Izmir.Proofs.Texts
import Izmir.Token

/-!
# Longest match

A program text is a row of lexemes. Some of them are tokens, the others are white space and
comments. At each place the longest lexeme that fits is taken, and scanning succeeds exactly
when this splits the whole text.
-/

namespace Izmir

open Text

def Symbol.text : Symbol → String
  | .assign => ":="
  | .lessOrEqual => "<="
  | .different => "<>"
  | .greaterOrEqual => ">="
  | .less => "<"
  | .greater => ">"
  | .equal => "="
  | .plus => "+"
  | .times => "*"
  | .over => "/"
  | .percent => "%"
  | .openParen => "("
  | .closeParen => ")"
  | .comma => ","
  | .semicolon => ";"

lemma Keyword.ofText?_text (k : Keyword) : ofText? k.text = some k := by
  cases k <;> decide

lemma Keyword.text_of_ofText? {s : String} {k : Keyword} (h : ofText? s = some k) : k.text = s :=
  beq_iff_eq.mp (List.find?_some (p := fun k : Keyword => k.text == s) h)

lemma Keyword.isName_text (k : Keyword) : isName k.text.toList := by
  cases k <;> decide

namespace Token

/-- `Lexeme cs rest t` says that `cs` is a lexeme in front of `rest` and stands for the token
`t`, or for none if it is white space or a comment. -/
inductive Lexeme : List Char → List Char → Option Token → Prop where
  | blank {c : Char} {rest : List Char} (h : isBlank c) : Lexeme [c] rest none
  | comment {cs rest : List Char} (h : ∀ c ∈ cs, endsLine c = false) :
      Lexeme ('/' :: '/' :: cs) rest none
  | keyword {rest : List Char} (k : Keyword) : Lexeme k.text.toList rest (some (.keyword k))
  | name {w : String} {rest : List Char} (h : isName w.toList) (hk : ∀ k : Keyword, k.text ≠ w) :
      Lexeme w.toList rest (some (.name w))
  | zero {rest : List Char} : Lexeme ['0'] rest (some (.number 0))
  | number {c : Char} {cs rest : List Char} (hc : c.isDigit) (hzero : c ≠ '0')
      (h : ∀ d ∈ cs, d.isDigit) :
      Lexeme (c :: cs) rest (some (.number (Nat.ofDigitChars 10 (c :: cs) 0)))
  | symbol {rest : List Char} (s : Symbol) : Lexeme s.text.toList rest (some (.symbol s))
  | minus {rest : List Char} {tight : Bool} (h : tight ↔ ∃ c ∈ rest.head?, c.isDigit) :
      Lexeme ['-'] rest (some (.minus tight))

/-- The longest lexeme comes first, then the rest of the text is split. -/
inductive Splits : List Char → List Token → Prop where
  | nil : Splits [] []
  | cons {cs rest : List Char} {t : Option Token} {ts : List Token} (h : Lexeme cs rest t)
      (hlongest : ∀ ds rest' u, Lexeme ds rest' u → ds ++ rest' = cs ++ rest →
        ds.length ≤ cs.length)
      (hrest : Splits rest ts) : Splits (cs ++ rest) (t.toList ++ ts)

lemma Lexeme.ne_nil {cs rest : List Char} {t : Option Token} (h : Lexeme cs rest t) : cs ≠ [] := by
  cases h with
  | keyword k => cases k <;> decide
  | name h =>
    rintro hw
    rw [hw] at h
    cases h
  | symbol s => cases s <;> decide
  | _ => exact List.cons_ne_nil _ _

/-! ### The head of a text -/

lemma ofWord_keyword (k : Keyword) : ofWord k.text.toList = .keyword k := by
  simp only [ofWord, String.ofList_toList, Keyword.ofText?_text]

lemma ofWord_name {w : String} (hk : ∀ k : Keyword, k.text ≠ w) : ofWord w.toList = .name w := by
  have hnone : Keyword.ofText? w = none := by
    rw [Option.eq_none_iff_forall_ne_some]
    exact fun k h => hk k (Keyword.text_of_ofText? h)
  simp only [ofWord, String.ofList_toList, hnone]

/-- A word is a lexeme, whether it is reserved or not. -/
lemma lexeme_ofWord {w rest : List Char} (h : isName w) : Lexeme w rest (some (ofWord w)) := by
  cases hk : Keyword.ofText? (String.ofList w) with
  | some k =>
    have hw : w = k.text.toList := by rw [Keyword.text_of_ofText? hk, String.toList_ofList]
    rw [hw, ofWord_keyword]
    exact .keyword k
  | none =>
    obtain ⟨s, rfl⟩ : ∃ s : String, w = s.toList := ⟨String.ofList w, by simp⟩
    have hne : ∀ k : Keyword, k.text ≠ s := by
      rintro k rfl
      rw [String.ofList_toList, Keyword.ofText?_text] at hk
      cases hk
    rw [ofWord_name hne]
    exact .name h hne

lemma symbol?_eq_some {cs rest : List Char} {s : Symbol} (h : symbol? cs = some (s, rest)) :
    cs = s.text.toList ++ rest := by
  unfold symbol? at h
  split at h <;> cases h <;> rfl

lemma startsWithDigit_iff {cs : List Char} :
    startsWithDigit cs ↔ ∃ c ∈ cs.head?, c.isDigit := by
  cases cs <;> simp [startsWithDigit]

/-- Comments, minus signs and zeros have rules of their own. -/
lemma next?_cons {c : Char} {cs : List Char} (hcomment : ∀ ds, c :: cs ≠ '/' :: '/' :: ds)
    (hminus : c ≠ '-') (hzero : c ≠ '0') :
    next? (c :: cs) =
      if isBlank c then some (none, cs)
      else if startsName c then
        some (some (ofWord (c :: cs.takeWhile continuesName)), cs.dropWhile continuesName)
      else if c.isDigit then
        some (some (.number (Nat.ofDigitChars 10 (c :: cs.takeWhile Char.isDigit) 0)),
          cs.dropWhile Char.isDigit)
      else (symbol? (c :: cs)).map fun (s, rest) => (some (.symbol s), rest) := by
  unfold next?
  split
  · rename_i heq
    cases heq
  · rename_i ds heq
    exact absurd heq (hcomment ds)
  · rename_i heq
    exact absurd (List.cons.inj heq).1 hminus
  · rename_i heq
    exact absurd (List.cons.inj heq).1 hzero
  · rename_i heq
    cases heq
    rfl

/-- What is taken from the head of a text is a lexeme. -/
lemma lexeme_of_next? {cs rest : List Char} {t : Option Token} (h : next? cs = some (t, rest)) :
    ∃ ds, Lexeme ds rest t ∧ cs = ds ++ rest := by
  unfold next? at h
  split at h
  · cases h
  · rename_i cs
    cases h
    refine ⟨'/' :: '/' :: cs.takeWhile fun c => !endsLine c, .comment ?_, ?_⟩
    · intro c hc
      simpa using List.mem_takeWhile_imp hc
    · simp
  · rename_i cs
    cases h
    exact ⟨['-'], .minus startsWithDigit_iff, rfl⟩
  · cases h
    exact ⟨['0'], .zero, rfl⟩
  · rename_i c cs _ _ hzero
    split at h
    · rename_i hc
      cases h
      exact ⟨[c], .blank hc, rfl⟩
    · split at h
      · rename_i hc
        cases h
        refine ⟨c :: cs.takeWhile continuesName, lexeme_ofWord ?_, by simp⟩
        simp only [isName, hc, Bool.true_and, List.all_eq_true]
        exact fun d hd => List.mem_takeWhile_imp hd
      · split at h
        · rename_i hc
          cases h
          refine ⟨c :: cs.takeWhile Char.isDigit, .number hc hzero ?_, by simp⟩
          exact fun d hd => List.mem_takeWhile_imp hd
        · obtain ⟨⟨s, rest⟩, hs, h⟩ := Option.map_eq_some_iff.mp h
          cases h
          exact ⟨s.text.toList, .symbol s, symbol?_eq_some hs⟩

lemma next?_blank {c : Char} (h : isBlank c) (cs : List Char) :
    next? (c :: cs) = some (none, cs) := by
  have hslash : c ≠ '/' := ne_of_class h rfl
  rw [next?_cons (fun _ heq => hslash (List.cons.inj heq).1) (ne_of_class h rfl)
    (ne_of_class h rfl), if_pos h]

lemma next?_word {w : List Char} (h : isName w) (rest : List Char) :
    next? (w ++ rest) =
      some (some (ofWord (w ++ rest.takeWhile continuesName)), rest.dropWhile continuesName) := by
  cases w with
  | nil => cases h
  | cons c w =>
    obtain ⟨hc, hw⟩ := Bool.and_eq_true_iff.mp h
    have hw : ∀ d ∈ w, continuesName d := List.all_eq_true.mp hw
    have hblank : isBlank c = false :=
      isBlank_of_isSolid (isSolid_of_continuesName (continuesName_iff.mpr (.inl hc)))
    have hslash : c ≠ '/' := ne_of_class hc (by decide)
    rw [List.cons_append, next?_cons (fun _ heq => hslash (List.cons.inj heq).1)
      (ne_of_class hc (by decide)) (ne_of_class hc (by decide)), hblank,
      if_neg Bool.false_ne_true, if_pos hc, List.takeWhile_append_of_pos hw,
      List.dropWhile_append_of_pos hw]
    rfl

lemma next?_number {c : Char} {cs : List Char} (hc : c.isDigit) (hzero : c ≠ '0')
    (h : ∀ d ∈ cs, d.isDigit) (rest : List Char) :
    next? (c :: cs ++ rest) =
      some (some (.number (Nat.ofDigitChars 10 (c :: cs ++ rest.takeWhile Char.isDigit) 0)),
        rest.dropWhile Char.isDigit) := by
  have hblank : isBlank c = false :=
    isBlank_of_isSolid (isSolid_of_continuesName (continuesName_iff.mpr (.inr hc)))
  have hname : ¬startsName c := by
    intro hn
    rw [isDigit_of_startsName hn] at hc
    cases hc
  have hslash : c ≠ '/' := ne_of_class hc (by decide)
  rw [List.cons_append, next?_cons (fun _ heq => hslash (List.cons.inj heq).1)
    (ne_of_class hc (by decide)) hzero, hblank, if_neg Bool.false_ne_true, if_neg hname,
    if_pos hc, List.takeWhile_append_of_pos h, List.dropWhile_append_of_pos h]
  rfl

lemma next?_comment {cs : List Char} (h : ∀ c ∈ cs, endsLine c = false) (rest : List Char) :
    next? ('/' :: '/' :: cs ++ rest) = some (none, rest.dropWhile fun c => !endsLine c) := by
  have hall : ∀ c ∈ cs, (!endsLine c) = true := by simpa using h
  have hnext (ds : List Char) :
      next? ('/' :: '/' :: ds) = some (none, ds.dropWhile fun c => !endsLine c) := rfl
  rw [List.cons_append, List.cons_append, hnext, List.dropWhile_append_of_pos hall]

lemma takeWhile_eq_nil_of_dropWhile_eq {p : Char → Bool} {cs : List Char}
    (h : cs.dropWhile p = cs) : cs.takeWhile p = [] := by
  have hsplit := List.takeWhile_append_dropWhile (p := p) (l := cs)
  rw [h] at hsplit
  exact List.append_left_eq_self.mp hsplit

-- Three symbols begin a longer lexeme: two of them another symbol, the third a comment.

lemma next?_less {rest : List Char} (heq : ∀ cs, rest ≠ '=' :: cs) (hgt : ∀ cs, rest ≠ '>' :: cs) :
    next? ('<' :: rest) = some (some (.symbol .less), rest) := by
  have hsymbol : symbol? ('<' :: rest) = some (.less, rest) := by
    unfold symbol?
    split <;> simp_all
  rw [next?_cons (by simp) (by decide) (by decide), hsymbol]
  rfl

lemma next?_greater {rest : List Char} (heq : ∀ cs, rest ≠ '=' :: cs) :
    next? ('>' :: rest) = some (some (.symbol .greater), rest) := by
  have hsymbol : symbol? ('>' :: rest) = some (.greater, rest) := by
    unfold symbol?
    split <;> simp_all
  rw [next?_cons (by simp) (by decide) (by decide), hsymbol]
  rfl

lemma next?_over {rest : List Char} (hslash : ∀ cs, rest ≠ '/' :: cs) :
    next? ('/' :: rest) = some (some (.symbol .over), rest) := by
  rw [next?_cons (fun ds heq => hslash ds (List.cons.inj heq).2) (by decide) (by decide)]
  rfl

/-- A sign is taken, or a longer one that starts with it. -/
lemma exists_next?_of_symbol (s : Symbol) (rest : List Char) :
    ∃ u rest', next? (s.text.toList ++ rest) = some (u, rest') ∧ rest' <:+ rest ∧
      (rest' = rest → u = some (.symbol s)) := by
  cases s with
  | less =>
    by_cases heq : ∃ cs, rest = '=' :: cs
    · obtain ⟨cs, rfl⟩ := heq
      exact ⟨_, cs, rfl, List.suffix_cons _ _, by simp⟩
    · by_cases hgt : ∃ cs, rest = '>' :: cs
      · obtain ⟨cs, rfl⟩ := hgt
        exact ⟨_, cs, rfl, List.suffix_cons _ _, by simp⟩
      · exact ⟨_, rest, next?_less (not_exists.mp heq) (not_exists.mp hgt), List.suffix_rfl,
          fun _ => rfl⟩
  | greater =>
    by_cases heq : ∃ cs, rest = '=' :: cs
    · obtain ⟨cs, rfl⟩ := heq
      exact ⟨_, cs, rfl, List.suffix_cons _ _, by simp⟩
    · exact ⟨_, rest, next?_greater (not_exists.mp heq), List.suffix_rfl, fun _ => rfl⟩
  | «over» =>
    by_cases hslash : ∃ cs, rest = '/' :: cs
    · obtain ⟨cs, rfl⟩ := hslash
      have hsuffix : (cs.dropWhile fun c => !endsLine c) <:+ cs := List.dropWhile_suffix _
      refine ⟨_, _, rfl, hsuffix.trans (List.suffix_cons _ _), fun h => ?_⟩
      have hlength := hsuffix.length_le
      rw [h, List.length_cons] at hlength
      omega
    · exact ⟨_, rest, next?_over (not_exists.mp hslash), List.suffix_rfl, fun _ => rfl⟩
  | _ => exact ⟨_, rest, rfl, List.suffix_rfl, fun _ => rfl⟩

/-- No lexeme reaches further than what is taken, and one that reaches as far is the same. -/
lemma exists_next?_of_lexeme {cs rest : List Char} {t : Option Token} (h : Lexeme cs rest t) :
    ∃ u rest', next? (cs ++ rest) = some (u, rest') ∧ rest' <:+ rest ∧ (rest' = rest → u = t) := by
  cases h with
  | blank h => exact ⟨none, rest, next?_blank h rest, List.suffix_rfl, fun _ => rfl⟩
  | comment h => exact ⟨none, _, next?_comment h rest, List.dropWhile_suffix _, fun _ => rfl⟩
  | keyword k =>
    refine ⟨_, _, next?_word k.isName_text rest, List.dropWhile_suffix _, fun h => ?_⟩
    rw [takeWhile_eq_nil_of_dropWhile_eq h, List.append_nil, ofWord_keyword]
  | name h hk =>
    refine ⟨_, _, next?_word h rest, List.dropWhile_suffix _, fun h => ?_⟩
    rw [takeWhile_eq_nil_of_dropWhile_eq h, List.append_nil, ofWord_name hk]
  | zero => exact ⟨_, rest, rfl, List.suffix_rfl, fun _ => rfl⟩
  | number hc hzero h =>
    refine ⟨_, _, next?_number hc hzero h rest, List.dropWhile_suffix _, fun h => ?_⟩
    rw [takeWhile_eq_nil_of_dropWhile_eq h, List.append_nil]
  | symbol s => exact exists_next?_of_symbol s rest
  | @minus _ tight h =>
    have htight : startsWithDigit rest = tight :=
      Bool.eq_iff_iff.mpr (startsWithDigit_iff.trans h.symm)
    rw [← htight]
    exact ⟨_, rest, rfl, List.suffix_rfl, fun _ => rfl⟩

/-- The head of a text is its longest lexeme. -/
lemma next?_eq_some_iff {cs rest : List Char} {t : Option Token} :
    next? cs = some (t, rest) ↔
      ∃ ds, Lexeme ds rest t ∧ cs = ds ++ rest ∧
        ∀ es rest' u, Lexeme es rest' u → es ++ rest' = cs → es.length ≤ ds.length := by
  constructor
  · intro h
    obtain ⟨ds, hds, rfl⟩ := lexeme_of_next? h
    refine ⟨ds, hds, rfl, fun es rest' u hes heq => ?_⟩
    obtain ⟨v, rest₂, hnext, hsuffix, -⟩ := exists_next?_of_lexeme hes
    rw [heq, h] at hnext
    cases hnext
    have hlength := congrArg List.length heq
    have hle := hsuffix.length_le
    simp only [List.length_append] at hlength
    omega
  · rintro ⟨ds, hds, rfl, hlongest⟩
    obtain ⟨u, rest', hnext, hsuffix, heq⟩ := exists_next?_of_lexeme hds
    obtain ⟨es, hes, hsplit⟩ := lexeme_of_next? hnext
    have hle := hlongest es rest' u hes hsplit.symm
    have hlength := congrArg List.length hsplit
    simp only [List.length_append] at hlength
    have hrest : rest' = rest := hsuffix.eq_of_length_le (by omega)
    rw [hnext, heq hrest, hrest]

/-! ### Whole texts -/

lemma splits_nil_iff {ts : List Token} : Splits [] ts ↔ ts = [] := by
  constructor
  · intro h
    generalize hcs : ([] : List Char) = cs at h
    cases h with
    | nil => rfl
    | cons h => exact absurd (List.append_eq_nil_iff.mp hcs.symm).1 h.ne_nil
  · rintro rfl
    exact .nil

lemma splits_cons_iff {c : Char} {cs : List Char} {ts : List Token} :
    Splits (c :: cs) ts ↔
      ∃ t rest us, next? (c :: cs) = some (t, rest) ∧ Splits rest us ∧ ts = t.toList ++ us := by
  constructor
  · intro h
    generalize hds : c :: cs = ds at h
    cases h with
    | nil => cases hds
    | @cons ds rest t us h hlongest hrest =>
      exact ⟨t, rest, us, next?_eq_some_iff.mpr ⟨ds, h, rfl, hlongest⟩, hrest, rfl⟩
  · rintro ⟨t, rest, us, hnext, hrest, rfl⟩
    obtain ⟨ds, hds, heq, hlongest⟩ := next?_eq_some_iff.mp hnext
    rw [heq] at hlongest ⊢
    exact .cons hds hlongest hrest

lemma length_lt_of_next? {cs rest : List Char} {t : Option Token}
    (h : next? cs = some (t, rest)) : rest.length < cs.length := by
  obtain ⟨ds, hds, rfl⟩ := lexeme_of_next? h
  have hpos := List.length_pos_iff.mpr hds.ne_nil
  rw [List.length_append]
  omega

lemma scanWith_succ (fuel : Nat) (c : Char) (cs : List Char) :
    scanWith (fuel + 1) (c :: cs) =
      (next? (c :: cs)).bind fun (t, rest) => (scanWith fuel rest).map (t.toList ++ ·) := by
  rw [scanWith]
  cases next? (c :: cs) with
  | none => rfl
  | some p =>
    obtain ⟨_ | t, rest⟩ := p <;> cases hrest : scanWith fuel rest <;> simp [hrest]

lemma scanWith_eq_some_iff {fuel : Nat} {cs : List Char} {ts : List Token}
    (hfuel : cs.length ≤ fuel) : scanWith fuel cs = some ts ↔ Splits cs ts := by
  induction fuel generalizing cs ts with
  | zero =>
    obtain rfl := List.length_eq_zero_iff.mp (Nat.le_zero.mp hfuel)
    rw [scanWith, splits_nil_iff, Option.some.injEq, eq_comm]
  | succ fuel ih =>
    cases cs with
    | nil => rw [scanWith, splits_nil_iff, Option.some.injEq, eq_comm]
    | cons c cs =>
      have hstep {t : Option Token} {rest : List Char} (us : List Token)
          (hnext : next? (c :: cs) = some (t, rest)) :
          scanWith fuel rest = some us ↔ Splits rest us := by
        have hlength := length_lt_of_next? hnext
        exact ih (by omega)
      rw [splits_cons_iff, scanWith_succ, Option.bind_eq_some_iff]
      constructor
      · rintro ⟨⟨t, rest⟩, hnext, h⟩
        obtain ⟨us, hus, rfl⟩ := Option.map_eq_some_iff.mp h
        exact ⟨t, rest, us, hnext, (hstep us hnext).mp hus, rfl⟩
      · rintro ⟨t, rest, us, hnext, hus, rfl⟩
        exact ⟨(t, rest), hnext, Option.map_eq_some_iff.mpr ⟨us, (hstep us hnext).mpr hus, rfl⟩⟩

/-- Scanning splits a text by longest match. -/
lemma scan_eq_some_iff {cs : List Char} {ts : List Token} : scan cs = some ts ↔ Splits cs ts :=
  scanWith_eq_some_iff le_rfl

/-- A text splits in one way at most. -/
lemma Splits.unique {cs : List Char} {ts us : List Token} (h : Splits cs ts) (h' : Splits cs us) :
    ts = us :=
  Option.some.inj ((scan_eq_some_iff.mpr h).symm.trans (scan_eq_some_iff.mpr h'))

end Token

end Izmir
