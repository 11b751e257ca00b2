import Izmir.Machine
import Izmir.Proofs.Texts

/-!
# Printed values are read back

A program prints its values in decimal form, one a line. Such a text is read as the values that
were printed, and still is when it has been edited without care for its layout: with white space
around the values, blank lines, other line ends, or no end of the last line. As bytes a text is
cut into the same lines, since no other character has a line feed among its bytes.
-/

namespace Izmir

open Text

namespace Input

/-! ### Texts that show values -/

/-- White space that does not end the line. -/
def isIndent (c : Char) : Bool :=
  isBlank c && c != '\n'

/-- A line with a value in decimal form, or with none. -/
inductive LineShows : List Char → Option Value → Prop
  | blank {cs : List Char} : cs.all isIndent → LineShows cs none
  | value {before after : List Char} (v : Value) : before.all isIndent → after.all isIndent →
      LineShows (before ++ v.text ++ after) (some v)

/-- A text that shows some values, one a line. A line ends with a line feed, or with a carriage
return and a line feed, or with the text. -/
inductive Shows : List Char → List Value → Prop
  | nil : Shows [] []
  | last {l : List Char} {v? : Option Value} : LineShows l v? → Shows l v?.toList
  | feed {l rest : List Char} {v? : Option Value} {vs : List Value} : LineShows l v? →
      Shows rest vs → Shows (l ++ '\n' :: rest) (v?.toList ++ vs)
  | returnFeed {l rest : List Char} {v? : Option Value} {vs : List Value} : LineShows l v? →
      Shows rest vs → Shows (l ++ '\r' :: '\n' :: rest) (v?.toList ++ vs)

lemma isBlank_of_isIndent {cs : List Char} (h : cs.all isIndent) : ∀ c ∈ cs, isBlank c := by
  intro c hc
  have := List.all_eq_true.mp h c hc
  simp only [isIndent, Bool.and_eq_true] at this
  exact this.1

lemma feed_notMem_of_isIndent {cs : List Char} (h : cs.all isIndent) : '\n' ∉ cs := by
  intro hc
  have := List.all_eq_true.mp h '\n' hc
  revert this
  decide

namespace LineShows

variable {l : List Char} {v? : Option Value}

lemma feed_notMem (h : LineShows l v?) : '\n' ∉ l := by
  cases h with
  | blank h => exact feed_notMem_of_isIndent h
  | value v hbefore hafter =>
    simp only [List.mem_append, not_or]
    exact ⟨⟨feed_notMem_of_isIndent hbefore, v.solid_text.tidy.feed⟩,
      feed_notMem_of_isIndent hafter⟩

lemma trim_eq (h : LineShows l v?) : trim l = v?.elim [] Value.text := by
  cases h with
  | blank h =>
    have htrim := trim_blank_append (isBlank_of_isIndent h) []
    rwa [List.append_nil] at htrim
  | value v hbefore hafter =>
    have htidy := v.solid_text.tidy
    exact trim_append (isBlank_of_isIndent hbefore) (isBlank_of_isIndent hafter) htidy.ne_nil
      htidy.head htidy.last

lemma ofLine?_eq (h : LineShows l v?) : ofLine? l = v?.map .ok := by
  unfold ofLine?
  rw [h.trim_eq]
  cases v? with
  | none => rfl
  | some v =>
    have hread := v.ofText?_text
    obtain ⟨c, cs, hcs⟩ := List.exists_cons_of_ne_nil v.solid_text.1
    rw [hcs] at hread
    simp only [Option.elim_some, hcs, hread, Option.map_some]

/-- A carriage return at the end is white space. -/
lemma append_return (h : LineShows l v?) : LineShows (l ++ ['\r']) v? := by
  have hreturn : ['\r'].all isIndent := by decide
  cases h with
  | blank h =>
    refine .blank ?_
    rw [List.all_append, h, hreturn, Bool.and_self]
  | value v hbefore hafter =>
    rw [List.append_assoc]
    refine .value v hbefore ?_
    rw [List.all_append, hafter, hreturn, Bool.and_self]

end LineShows

lemma ofValues_append (v? : Option Value) (vs : List Value) :
    ofValues (v?.toList ++ vs) = (v?.map .ok).toList ++ ofValues vs := by
  cases v? <;> rfl

lemma filterMap_ofLine?_cons (l : List Char) (ls : List (List Char)) :
    (l :: ls).filterMap ofLine? = (ofLine? l).toList ++ ls.filterMap ofLine? := by
  rw [List.filterMap_cons]
  cases ofLine? l <;> rfl

/-- A text that shows values is read as these values. -/
lemma Shows.filterMap_lines {cs : List Char} {vs : List Value} (h : Shows cs vs) :
    (lines '\n' cs).filterMap ofLine? = ofValues vs := by
  -- What one line gives, with the lines that follow it.
  have hline {l rest : List Char} {v? : Option Value} {vs : List Value} (hl : LineShows l v?)
      (ih : (lines '\n' rest).filterMap ofLine? = ofValues vs) :
      (lines '\n' (l ++ '\n' :: rest)).filterMap ofLine? = ofValues (v?.toList ++ vs) := by
    rw [lines_append_feed hl.feed_notMem, filterMap_ofLine?_cons, hl.ofLine?_eq, ih,
      ofValues_append]
  induction h with
  | nil => rfl
  | @last l v? hl =>
    cases l with
    | nil =>
      rw [Option.map_eq_none_iff.mp hl.ofLine?_eq.symm]
      rfl
    | cons c cs =>
      rw [lines_eq_singleton (List.cons_ne_nil c cs) hl.feed_notMem, filterMap_ofLine?_cons,
        hl.ofLine?_eq, ← List.append_nil v?.toList, ofValues_append]
      rfl
  | feed hl _ ih => exact hline hl ih
  | returnFeed hl _ ih =>
    rw [List.append_cons]
    exact hline hl.append_return ih

/-- Printed values are shown by the text that is printed. -/
lemma shows_text (printed : Array Value) : Shows (Machine.text printed).toList printed.toList := by
  rw [Machine.text, String.toList_ofList]
  induction printed.toList with
  | nil => exact .nil
  | cons v vs ih =>
    have hline : LineShows v.text (some v) := by
      have hvalue : LineShows ([] ++ v.text ++ []) (some v) := .value v rfl rfl
      rwa [List.nil_append, List.append_nil] at hvalue
    rw [List.flatMap_cons, List.append_assoc, List.singleton_append]
    exact .feed hline ih

end Input

namespace Text

/-- No character but the line feed has one among its bytes. -/
lemma feed_notMem_utf8EncodeChar {c : Char} (h : c ≠ '\n') : 10 ∉ String.utf8EncodeChar c := by
  have hc : c.val.toNat ≠ 10 := fun hc => h (Char.ext (UInt32.toNat_inj.mp hc))
  have hfeed : (10 : UInt8).toNat = 10 := rfl
  simp only [String.utf8EncodeChar]
  split_ifs
  all_goals
    simp only [List.mem_cons, List.not_mem_nil, or_false, ← UInt8.toNat_inj, UInt8.toNat_ofNat',
      hfeed]
    omega

/-- The lines of the bytes of a text are the bytes of its lines. -/
lemma lines_bytes (cs : List Char) : lines 10 (bytes cs) = (lines '\n' cs).map bytes := by
  induction cs with
  | nil => rfl
  | cons c cs ih =>
    rw [bytes, List.flatMap_cons]
    change lines 10 (String.utf8EncodeChar c ++ bytes cs) = _
    by_cases hc : c = '\n'
    · subst hc
      change lines 10 (10 :: bytes cs) = _
      rw [lines, if_pos rfl, ih, lines, if_pos rfl]
      rfl
    · rw [lines_append_left String.utf8EncodeChar_ne_nil (feed_notMem_utf8EncodeChar hc), ih, lines,
        if_neg hc]
      cases lines '\n' cs <;> rfl

lemma toList_data_toUTF8 (text : String) : text.toUTF8.data.toList = bytes text.toList := by
  have h : (String.ofList text.toList).toByteArray = text.toList.utf8Encode :=
    String.toByteArray_ofList
  rw [String.ofList_toList] at h
  rw [String.toUTF8, h, List.utf8Encode, List.toList_data_toByteArray, bytes]

lemma ofBytes?_bytes (cs : List Char) : ofBytes? (bytes cs) = some (String.ofList cs) := by
  have hbytes : (⟨(bytes cs).toArray⟩ : ByteArray) = cs.utf8Encode :=
    ByteArray.ext (Array.toList_inj.mp List.toList_data_toByteArray.symm)
  have hvalid : (⟨(bytes cs).toArray⟩ : ByteArray).IsValidUTF8 := ⟨cs, hbytes⟩
  rw [ofBytes?, String.fromUTF8?, dif_pos hvalid]
  refine congrArg some (String.toByteArray_inj.mp ?_)
  exact hbytes.trans String.toByteArray_ofList.symm

end Text

/-- A text and its bytes give the same input. -/
lemma Input.ofBytes_toUTF8 (text : String) : ofBytes text.toUTF8.data.toList = ofText text := by
  rw [toList_data_toUTF8, ofBytes, lines_bytes, List.filterMap_map, ofText]
  refine List.filterMap_congr fun l _ => ?_
  simp only [Function.comp_apply, ofBytes?_bytes, String.toList_ofList]

namespace Machine

/-- Printed values are read back. A text that shows some values, one a line, is read as exactly
these values, from its characters and from its bytes. What is printed is such a text, whatever the
values are. So a program that reads what another one has printed runs as it does on the values
themselves. -/
theorem printed_values_read_back :
    (∀ text vs, Input.Shows text.toList vs →
      Input.ofText text = .ofValues vs ∧ Input.ofBytes text.toUTF8.data.toList = .ofValues vs) ∧
    (∀ printed, Input.Shows (text printed).toList printed.toList) ∧
    ∀ printed x sink n, run x (.ofInput (.ofText (text printed))) sink n =
      run x (.ofInput (.ofValues printed.toList)) sink n := by
  have hread {text : String} {vs : List Value} (h : Input.Shows text.toList vs) :
      Input.ofText text = .ofValues vs := h.filterMap_lines
  refine ⟨fun text vs h => ⟨hread h, ?_⟩, Input.shows_text, fun printed x sink n => ?_⟩
  · rw [Input.ofBytes_toUTF8, hread h]
  · rw [hread (Input.shows_text printed)]

/-- The least value of all, white space of several kinds, a blank line and no end of the last
line. -/
theorem untidy_values_read_back :
    Input.Shows "\t-9223372036854775808\u2003\r\n\n  42".toList [Int64.minValue, 42] ∧
      Input.ofText "\t-9223372036854775808\u2003\r\n\n  42" = [.ok Int64.minValue, .ok 42] := by
  have hleast : Input.LineShows (['\t'] ++ Value.text Int64.minValue ++ ['\u2003'])
      (some Int64.minValue) := .value _ (by decide) (by decide)
  have hlast : Input.LineShows ([' ', ' '] ++ Value.text 42 ++ []) (some 42) :=
    .value _ (by decide) (by decide)
  have htext : "\t-9223372036854775808\u2003\r\n\n  42".toList =
      ['\t'] ++ Value.text Int64.minValue ++ ['\u2003'] ++
        '\r' :: '\n' :: ([] ++ '\n' :: ([' ', ' '] ++ Value.text 42 ++ [])) := by
    decide +kernel
  have hshows : Input.Shows "\t-9223372036854775808\u2003\r\n\n  42".toList
      [Int64.minValue, 42] := by
    rw [htext]
    exact .returnFeed hleast (.feed (.blank rfl) (.last hlast))
  exact ⟨hshows, (printed_values_read_back.1 _ _ hshows).1⟩

end Machine

end Izmir
