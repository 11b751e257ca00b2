import Mathlib
import Izmir.Text.Blank
import Izmir.Text.Lines
import Izmir.Text.Name
import Izmir.Value

/-!
# Texts that are read back

What cutting and trimming do to a text that was put together: the lines, words and pieces of
which it was made come out again, and so do numbers. A text is solid when it can be a parameter
of a listing as it stands, that is when it has characters and among them no white space, comma
or comment sign.
-/

namespace Izmir

namespace Text

/-- The characters of a class are not any of those outside it. -/
lemma ne_of_class {p : Char → Bool} {c d : Char} (h : p c) (hd : p d = false) : c ≠ d := by
  rintro rfl
  rw [h] at hd
  cases hd

/-! ### Solid texts -/

def isSolid (c : Char) : Bool :=
  !isBlank c && c != ',' && c != '#'

def Solid (cs : List Char) : Prop :=
  cs ≠ [] ∧ ∀ c ∈ cs, isSolid c

lemma isBlank_of_isSolid {c : Char} (h : isSolid c) : isBlank c = false := by
  simp_all [isSolid]

lemma toNat_of_startsName {c : Char} (h : startsName c) : 65 ≤ c.toNat ∧ c.toNat ≤ 122 := by
  simp only [startsName, Char.isAlpha, Char.isUpper, Char.isLower, Bool.or_eq_true,
    Bool.and_eq_true, decide_eq_true_eq, beq_iff_eq, UInt32.le_iff_toNat_le] at h
  rcases h with (⟨h, h'⟩ | ⟨h, h'⟩) | rfl
  · exact ⟨h, h'.trans (by decide)⟩
  · exact ⟨le_trans (by decide) h, h'⟩
  · decide

lemma toNat_of_isDigit {c : Char} (h : c.isDigit) : 48 ≤ c.toNat ∧ c.toNat ≤ 57 := by
  simp only [Char.isDigit, Bool.and_eq_true, decide_eq_true_eq, UInt32.le_iff_toNat_le] at h
  exact h

lemma continuesName_iff {c : Char} : continuesName c ↔ startsName c ∨ c.isDigit := by
  simp only [startsName, continuesName, Char.isAlphanum, Bool.or_eq_true]
  tauto

lemma toNat_of_continuesName {c : Char} (h : continuesName c) :
    48 ≤ c.toNat ∧ c.toNat ≤ 122 := by
  rcases continuesName_iff.mp h with h | h
  · have := toNat_of_startsName h
    omega
  · have := toNat_of_isDigit h
    omega

/-- No character that starts a name is a digit. -/
lemma isDigit_of_startsName {c : Char} (h : startsName c) : c.isDigit = false := by
  by_contra hc
  have := toNat_of_startsName h
  have := toNat_of_isDigit (Bool.not_eq_false _ ▸ hc)
  omega

lemma isSolid_of_continuesName {c : Char} (h : continuesName c) : isSolid c := by
  have hn := toNat_of_continuesName h
  have hblank : isBlank c = false := by
    simp only [isBlank, Bool.or_eq_false_iff, Bool.and_eq_false_iff, decide_eq_false_iff_not,
      beq_eq_false_iff_ne]
    omega
  have hne : ∀ d : Char, d.toNat < 48 → c ≠ d := by
    rintro d hd rfl
    omega
  simp [isSolid, hblank, hne ',' (by decide), hne '#' (by decide)]

lemma continuesName_of_isName {cs : List Char} (h : isName cs) : ∀ c ∈ cs, continuesName c := by
  cases cs with
  | nil => simp
  | cons c cs =>
    simp only [isName, Bool.and_eq_true, List.all_eq_true] at h
    exact List.forall_mem_cons.mpr ⟨continuesName_iff.mpr (.inl h.1), h.2⟩

lemma Solid.of_isName {cs : List Char} (h : isName cs) : Solid cs := by
  refine ⟨?_, fun c hc => isSolid_of_continuesName (continuesName_of_isName h c hc)⟩
  rintro rfl
  cases h

lemma Solid.cons {c : Char} {cs : List Char} (hc : isSolid c) (h : ∀ d ∈ cs, isSolid d) :
    Solid (c :: cs) :=
  ⟨List.cons_ne_nil c cs, List.forall_mem_cons.mpr ⟨hc, h⟩⟩

/-! ### White space -/

@[simp] lemma isBlank_space : isBlank ' ' = true := rfl

lemma dropWhile_isBlank_append {before cs : List Char} (h : ∀ c ∈ before, isBlank c)
    (hcs : ∀ c ∈ cs.head?, isBlank c = false) : (before ++ cs).dropWhile isBlank = cs := by
  rw [List.dropWhile_append_of_pos h]
  cases cs with
  | nil => rfl
  | cons c cs => rw [List.dropWhile_cons_of_neg (by simp [hcs c rfl])]

/-- White space goes, a text that neither starts nor ends with it stays. -/
lemma trim_append {before cs after : List Char} (hbefore : ∀ c ∈ before, isBlank c)
    (hafter : ∀ c ∈ after, isBlank c) (hcs : cs ≠ []) (hhead : ∀ c ∈ cs.head?, isBlank c = false)
    (hlast : ∀ c ∈ cs.getLast?, isBlank c = false) : trim (before ++ cs ++ after) = cs := by
  have hhead' : ∀ c ∈ (cs ++ after).head?, isBlank c = false := by
    rwa [List.head?_append_of_ne_nil _ hcs]
  rw [trim, List.append_assoc, dropWhile_isBlank_append hbefore hhead', List.reverse_append,
    dropWhile_isBlank_append (by simpa using hafter) (by rwa [List.head?_reverse]),
    List.reverse_reverse]

lemma trim_blank_append {before : List Char} (h : ∀ c ∈ before, isBlank c) (cs : List Char) :
    trim (before ++ cs) = trim cs := by
  rw [trim, List.dropWhile_append_of_pos h, trim]

lemma trim_append_blank {after : List Char} (h : ∀ c ∈ after, isBlank c) (cs : List Char) :
    trim (cs ++ after) = trim cs := by
  rw [trim, trim, List.dropWhile_append]
  split
  · rename_i hempty
    have hafter : after.dropWhile isBlank = [] := List.dropWhile_eq_nil_iff.mpr h
    rw [hafter, List.isEmpty_iff.mp hempty]
  · rw [List.reverse_append, List.dropWhile_append_of_pos (by simpa using h)]

/-- A text that stays as it is when comments and white space around it go. -/
structure Tidy (cs : List Char) : Prop where
  ne_nil : cs ≠ []
  comment : '#' ∉ cs
  feed : '\n' ∉ cs
  head : ∀ c ∈ cs.head?, isBlank c = false
  last : ∀ c ∈ cs.getLast?, isBlank c = false

lemma Solid.tidy {cs : List Char} (h : Solid cs) : Tidy cs where
  ne_nil := h.1
  comment hc := by
    have := h.2 _ hc
    revert this
    decide
  feed hc := by
    have := h.2 _ hc
    revert this
    decide
  head c hc := isBlank_of_isSolid (h.2 c (List.mem_of_mem_head? hc))
  last c hc := isBlank_of_isSolid (h.2 c (List.mem_of_mem_getLast? hc))

lemma Tidy.trim_append {b cs : List Char} (h : Tidy cs) (hb : ∀ c ∈ b, isBlank c) :
    trim (b ++ cs) = cs := by
  rw [← List.append_nil (b ++ cs)]
  exact Text.trim_append hb (List.forall_mem_nil _) h.ne_nil h.head h.last

lemma Tidy.trim_eq {cs : List Char} (h : Tidy cs) : trim cs = cs :=
  h.trim_append (List.forall_mem_nil _)

lemma Tidy.append {cs ds separator : List Char} (hcs : Tidy cs) (hds : Tidy ds)
    (hcomment : '#' ∉ separator) (hfeed : '\n' ∉ separator) : Tidy (cs ++ separator ++ ds) where
  ne_nil := by simp [hcs.ne_nil]
  comment := by simp [hcs.comment, hds.comment, hcomment]
  feed := by simp [hcs.feed, hds.feed, hfeed]
  head := by
    rw [List.append_assoc, List.head?_append_of_ne_nil _ hcs.ne_nil]
    exact hcs.head
  last := by
    rw [List.getLast?_append_of_ne_nil _ hds.ne_nil]
    exact hds.last

lemma Tidy.append_blank {cs ds : List Char} (hcs : Tidy cs) (hds : Tidy ds) :
    Tidy (cs ++ ' ' :: ds) := by
  rw [List.append_cons]
  exact hcs.append hds (by decide) (by decide)

lemma tidy_comma : Tidy [','] where
  ne_nil := List.cons_ne_nil _ _
  comment := by decide
  feed := by decide
  head := by
    rintro _ ⟨⟩
    rfl
  last := by
    rintro _ ⟨⟩
    rfl

lemma words_of_isBlank {c : Char} (hc : isBlank c) (cs : List Char) :
    words (c :: cs) = words cs := by
  rw [words.eq_def]
  simp only [hc, if_true]

lemma words_singleton {c : Char} (hc : isBlank c = false) : words [c] = [[c]] := by
  rw [words.eq_def]
  simp only [hc]
  rfl

lemma words_cons_blank {c d : Char} (hc : isBlank c = false) (hd : isBlank d) (cs : List Char) :
    words (c :: d :: cs) = [c] :: words cs := by
  rw [words.eq_def]
  simp only [hc, words_of_isBlank hd cs]
  cases words cs <;> simp [hd]

lemma words_cons_cons {c d : Char} {cs w : List Char} {ws : List (List Char)}
    (hc : isBlank c = false) (hd : isBlank d = false) (hw : words (d :: cs) = w :: ws) :
    words (c :: d :: cs) = (c :: w) :: ws := by
  rw [words.eq_def]
  simp only [hc, hw, hd]
  rfl

/-- The first word of a text. -/
lemma words_append {w : List Char} (hw : Solid w) {c : Char} (hc : isBlank c) (rest : List Char) :
    words (w ++ c :: rest) = w :: words rest := by
  obtain ⟨hne, hsolid⟩ := hw
  induction w with
  | nil => exact (hne rfl).elim
  | cons d w ih =>
    obtain ⟨hd, hw⟩ := List.forall_mem_cons.mp hsolid
    have hblank := isBlank_of_isSolid hd
    cases w with
    | nil => exact words_cons_blank hblank hc rest
    | cons e w =>
      exact words_cons_cons hblank (isBlank_of_isSolid (hw e (by simp)))
        (ih (List.cons_ne_nil e w) hw)

lemma words_eq_singleton {w : List Char} (hw : Solid w) : words w = [w] := by
  obtain ⟨hne, hsolid⟩ := hw
  induction w with
  | nil => exact (hne rfl).elim
  | cons d w ih =>
    obtain ⟨hd, hw⟩ := List.forall_mem_cons.mp hsolid
    have hblank := isBlank_of_isSolid hd
    cases w with
    | nil => exact words_singleton hblank
    | cons e w =>
      exact words_cons_cons hblank (isBlank_of_isSolid (hw e (by simp)))
        (ih (List.cons_ne_nil e w) hw)

/-! ### Lines and pieces -/

lemma lines_append_feed {α : Type} [DecidableEq α] {feed : α} {l : List α} (h : feed ∉ l)
    (rest : List α) : lines feed (l ++ feed :: rest) = l :: lines feed rest := by
  induction l with
  | nil => simp [lines]
  | cons c l ih =>
    rw [List.mem_cons, not_or] at h
    simp [lines, ih h.2, Ne.symm h.1]

/-- Lines that are each closed by a line feed. -/
lemma lines_flatMap {α : Type} [DecidableEq α] {feed : α} {ls : List (List α)}
    (h : ∀ l ∈ ls, feed ∉ l) : lines feed (ls.flatMap (· ++ [feed])) = ls := by
  induction ls with
  | nil => rfl
  | cons l ls ih =>
    obtain ⟨hl, hls⟩ := List.forall_mem_cons.mp h
    rw [List.flatMap_cons, List.append_assoc, List.singleton_append, lines_append_feed hl, ih hls]

lemma lines_cons_ne_nil {α : Type} [DecidableEq α] {feed : α} (c : α) (cs : List α) :
    lines feed (c :: cs) ≠ [] := by
  rw [lines]
  split
  · simp
  · split <;> simp

/-- Behind a line feed the lines start anew. -/
lemma lines_append {α : Type} [DecidableEq α] {feed : α} {cs : List α}
    (h : ∀ c ∈ cs.getLast?, c = feed) (rest : List α) :
    lines feed (cs ++ rest) = lines feed cs ++ lines feed rest := by
  induction cs with
  | nil => rfl
  | cons c cs ih =>
    have hcs : ∀ d ∈ cs.getLast?, d = feed := by
      cases cs with
      | nil => simp
      | cons d cs => rwa [List.getLast?_cons_cons] at h
    rw [List.cons_append, lines, lines, ih hcs]
    split
    · rfl
    · rename_i hc
      cases cs with
      | nil => exact absurd (h c rfl) hc
      | cons d cs =>
        cases hl : lines feed (d :: cs) with
        | nil => exact absurd hl (lines_cons_ne_nil d cs)
        | cons l ls => rfl

/-- Characters other than line feeds belong to the first line. -/
lemma lines_append_left {α : Type} [DecidableEq α] {feed : α} {l : List α} (hne : l ≠ [])
    (h : feed ∉ l) (rest : List α) :
    lines feed (l ++ rest) = (l ++ (lines feed rest).headD []) :: (lines feed rest).tail := by
  induction l with
  | nil => exact absurd rfl hne
  | cons c l ih =>
    rw [List.mem_cons, not_or] at h
    rw [List.cons_append, lines, if_neg (Ne.symm h.1)]
    cases l with
    | nil => cases hr : lines feed rest <;> simp [hr]
    | cons d l =>
      rw [ih (List.cons_ne_nil d l) h.2]
      rfl

lemma lines_eq_singleton {α : Type} [DecidableEq α] {feed : α} {l : List α} (hne : l ≠ [])
    (h : feed ∉ l) : lines feed l = [l] := by
  have hl := lines_append_left hne h []
  rwa [List.append_nil, lines, List.headD_nil, List.append_nil] at hl

/-- No line has a line feed in it. -/
lemma feed_notMem_of_mem_lines {α : Type} [DecidableEq α] {feed : α} {cs l : List α}
    (h : l ∈ lines feed cs) : feed ∉ l := by
  induction cs generalizing l with
  | nil => simp [lines] at h
  | cons c cs ih =>
    rw [lines] at h
    split at h
    · rcases List.mem_cons.mp h with rfl | h
      · exact List.not_mem_nil
      · exact ih h
    · rename_i hc
      split at h
      · rw [List.mem_singleton.mp h]
        simpa using Ne.symm hc
      · rename_i l' ls hls
        rw [hls] at ih
        rcases List.mem_cons.mp h with rfl | h
        · simpa [Ne.symm hc] using ih (List.mem_cons_self ..)
        · exact ih (List.mem_cons_of_mem _ h)

lemma pieces_eq_splitOn (separator : Char) (cs : List Char) :
    pieces separator cs = cs.splitOn separator := by
  induction cs with
  | nil => rw [List.splitOn_nil, pieces]
  | cons c cs ih =>
    rw [pieces, List.splitOn_cons_eq_if_modifyHead, ih]
    by_cases hc : c = separator
    · simp [hc]
    · rw [if_neg hc, if_neg (by simpa using hc)]
      cases hp : cs.splitOn separator with
      | nil => exact (List.splitOn_ne_nil _ _ hp).elim
      | cons p ps => rfl

/-- Closed by a line feed, a text has its pieces as lines. -/
lemma lines_concat_feed (feed : Char) (cs : List Char) :
    lines feed (cs ++ [feed]) = pieces feed cs := by
  induction cs with
  | nil => simp [lines, pieces]
  | cons c cs ih =>
    rw [List.cons_append, lines, pieces, ih]
    cases pieces feed cs <;> rfl

lemma pieces_of_notMem {separator : Char} {cs : List Char} (h : separator ∉ cs) :
    pieces separator cs = [cs] := by
  rw [← lines_concat_feed, lines_append_feed h, lines]

lemma intercalate_comma_blank (p : List Char) (ps : List (List Char)) :
    [',', ' '].intercalate (p :: ps) = [','].intercalate (p :: ps.map (' ' :: ·)) := by
  induction ps generalizing p with
  | nil => simp
  | cons q ps ih => simp [List.intercalate_cons_cons, ih]

/-- Solid pieces with a comma and a blank between them. -/
lemma map_trim_pieces {ps : List (List Char)} (hne : ps ≠ []) (h : ∀ p ∈ ps, Solid p) :
    (pieces ',' ([',', ' '].intercalate ps)).map trim = ps := by
  have hcomma : ∀ p ∈ ps, ',' ∉ p := by
    intro p hp hmem
    have hsolid := (h p hp).2 ',' hmem
    revert hsolid
    decide
  have htrim : ∀ p ∈ ps, trim (' ' :: p) = p := fun p hp =>
    (h p hp).tidy.trim_append (b := [' ']) (by simp)
  cases ps with
  | nil => exact (hne rfl).elim
  | cons p ps =>
    obtain ⟨hp, hps⟩ := List.forall_mem_cons.mp hcomma
    rw [pieces_eq_splitOn, intercalate_comma_blank, List.splitOn_intercalate _ (by simpa [hp])
      (List.cons_ne_nil _ _), List.map_cons, List.map_map, (h p (by simp)).tidy.trim_eq]
    have hmap : ps.map (trim ∘ (' ' :: ·)) = ps.map id :=
      List.map_congr_left fun q hq => htrim q (List.mem_cons_of_mem p hq)
    rw [hmap, List.map_id]

/-! ### Numbers -/

namespace Decimal

lemma isDigit_of_mem_ofNat {n : Nat} {c : Char} (h : c ∈ ofNat n) : c.isDigit :=
  Nat.isDigit_of_mem_toDigits (by decide) (by decide) h

lemma solid_ofNat (n : Nat) : Solid (ofNat n) :=
  ⟨Nat.toDigits_ne_nil, fun _ hc =>
    isSolid_of_continuesName (continuesName_iff.mpr (.inr (isDigit_of_mem_ofNat hc)))⟩

lemma exists_ofNat_eq_cons (n : Nat) : ∃ c cs, ofNat n = c :: cs ∧ c.isDigit := by
  cases h : ofNat n with
  | nil => exact (Nat.toDigits_ne_nil h).elim
  | cons c cs => exact ⟨c, cs, rfl, isDigit_of_mem_ofNat (n := n) (by simp [h])⟩

lemma digits?_ofNat (n : Nat) : digits? (ofNat n) = some n := by
  have hall : (ofNat n).all Char.isDigit := List.all_eq_true.mpr fun _ => isDigit_of_mem_ofNat
  rw [digits?, if_pos ⟨Nat.toDigits_ne_nil, hall⟩, ofNat,
    Nat.ofDigitChars_toDigits (by decide) (by decide)]

lemma natural?_ofNat (n : Nat) : natural? (ofNat n) = some n := by
  obtain ⟨c, cs, hcs, hc⟩ := exists_ofNat_eq_cons n
  rw [← digits?_ofNat n, hcs, natural?]
  rintro _ ⟨⟩
  revert hc
  decide

lemma index?_ofNat {n : Nat} (h : n < UInt64.size) : index? (ofNat n) = some n := by
  simp [index?, natural?_ofNat, h]

lemma lt_of_index? {cs : List Char} {n : Nat} (h : index? cs = some n) : n < UInt64.size := by
  rw [index?, Option.filter_eq_some_iff] at h
  exact of_decide_eq_true h.2

lemma integer?_ofInt (n : Int) : integer? (ofInt n) = some n := by
  cases n with
  | ofNat n =>
    obtain ⟨c, cs, hcs, hc⟩ := exists_ofNat_eq_cons n
    have hdigits := digits?_ofNat n
    rw [ofInt, hcs] at *
    rw [integer?, hdigits, Option.map_some]
    all_goals
      rintro _ ⟨⟩
      revert hc
      decide
  | negSucc n =>
    rw [ofInt, integer?, digits?_ofNat, Option.map_some]
    rfl

end Decimal

end Text

namespace Value

open Text

lemma ofInt?_toInt (v : Value) : ofInt? v.toInt = some v := by
  have hmin : Int64.minValue.toInt ≤ v.toInt := v.le_toInt
  have hmax : v.toInt ≤ Int64.maxValue.toInt := Int.le_of_lt_add_one v.toInt_lt
  rw [ofInt?, if_pos ⟨hmin, hmax⟩, Int64.ofInt_toInt]

lemma ofText?_text (v : Value) : ofText? v.text = some v := by
  rw [ofText?, text, Decimal.integer?_ofInt, Option.bind_some, ofInt?_toInt]

/-- The text of a value is a row of digits, with or without a sign. -/
lemma exists_text_eq (v : Value) :
    ∃ n, v.text = Decimal.ofNat n ∨ v.text = '-' :: Decimal.ofNat n := by
  rw [text]
  cases v.toInt with
  | ofNat n => exact ⟨n, .inl rfl⟩
  | negSucc n => exact ⟨n + 1, .inr rfl⟩

lemma solid_text (v : Value) : Solid v.text := by
  obtain ⟨n, h | h⟩ := v.exists_text_eq
  · rw [h]
    exact Decimal.solid_ofNat n
  · rw [h]
    exact .cons (by decide) (Decimal.solid_ofNat n).2

end Value

end Izmir
