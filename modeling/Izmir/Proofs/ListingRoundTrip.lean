import Izmir.Proofs.ListingForms

/-!
# Reading listings back

The listing of labelled code is read back as the same code when everything in it can be spelled
and every instruction on registers names one for its operands. What was read from any text can
be spelled, so its listing is read back too, except for an operation that names its destination
only: such a line is accepted, but it is listed with nothing before the comma.
-/

namespace Izmir

open Text

/-! ### Programs that can be listed -/

def Line.WellSpelled : Line → Prop
  | .label l => isName l.toList
  | .instr i => i.WellSpelled

def Line.NamesOperand : Line → Prop
  | .label _ => True
  | .instr i => i.NamesOperand

instance : DecidablePred Line.WellSpelled
  | .label _ => inferInstanceAs (Decidable (_ = true))
  | .instr i => inferInstanceAs (Decidable i.WellSpelled)

instance : DecidablePred Line.NamesOperand
  | .label _ => inferInstanceAs (Decidable True)
  | .instr i => inferInstanceAs (Decidable i.NamesOperand)

/-- The name of a procedure that can be spelled. -/
def RoutineName.NamesProcedure : RoutineName → Prop
  | .main => False
  | .procedure name => isName name.toList

instance : DecidablePred RoutineName.NamesProcedure
  | .main => inferInstanceAs (Decidable False)
  | .procedure name => inferInstanceAs (Decidable (isName name.toList = true))

namespace Assembly

/-- Every line can be spelled, and no label is defined twice. -/
@[mk_iff]
structure CodeWellSpelled (code : List Line) : Prop where
  lines : ∀ line ∈ code, line.WellSpelled
  labels : (labels code).Nodup

instance : DecidablePred CodeWellSpelled :=
  fun _ => decidable_of_iff _ (codeWellSpelled_iff _).symm

/-- A routine that can stand among the procedures of a listing. -/
@[mk_iff]
structure Routine.WellSpelled (r : Routine) : Prop where
  name : r.name.NamesProcedure
  arity : r.arity < UInt64.size
  code : CodeWellSpelled r.code

instance : DecidablePred Routine.WellSpelled :=
  fun _ => decidable_of_iff _ (Routine.wellSpelled_iff _).symm

@[mk_iff]
structure WellSpelled (a : Assembly) : Prop where
  procedures : ∀ p ∈ a.procedures, p.WellSpelled
  name : a.main.name = .main
  arity : a.main.arity = 0
  main : CodeWellSpelled a.main.code

instance : DecidablePred WellSpelled :=
  fun _ => decidable_of_iff _ (wellSpelled_iff _).symm

/-- Every instruction on registers, in any routine, names one for its operands. -/
@[mk_iff]
structure NamesOperands (a : Assembly) : Prop where
  procedures : ∀ p ∈ a.procedures, ∀ line ∈ p.code, line.NamesOperand
  main : ∀ line ∈ a.main.code, line.NamesOperand

instance : DecidablePred NamesOperands :=
  fun _ => decidable_of_iff _ (namesOperands_iff _).symm

lemma WellSpelled.main_eq {a : Assembly} (h : a.WellSpelled) : .main a.main.code = a.main := by
  unfold Routine.main
  rw [← h.name, ← h.arity]

lemma Routine.append_nil (r : Routine) : r.append [] = r := by
  simp [append]

lemma Routine.append_append (r : Routine) (before after : List Line) :
    (r.append before).append after = r.append (before ++ after) := by
  simp [append]

lemma mem_labels {l : String} {code : List Line} : l ∈ labels code ↔ Line.label l ∈ code := by
  simp only [labels, List.mem_filterMap]
  constructor
  · rintro ⟨line, hline, h⟩
    cases line with
    | label l =>
      cases h
      exact hline
    | instr i => cases h
  · exact fun h => ⟨_, h, rfl⟩

lemma CodeWellSpelled.concat {code : List Line} (h : CodeWellSpelled code) {line : Line}
    (hline : line.WellSpelled) (hnew : ∀ l, line = .label l → line ∉ code) :
    CodeWellSpelled (code ++ [line]) := by
  refine ⟨List.forall_mem_append.mpr ⟨h.lines, by simpa using hline⟩, ?_⟩
  rw [labels_append]
  cases line with
  | label l =>
    have hl : l ∉ Assembly.labels code := fun hl => hnew l rfl (mem_labels.mp hl)
    rw [labels_label, labels_nil, ← List.concat_eq_append, List.nodup_concat]
    exact ⟨hl, h.labels⟩
  | instr i => simpa using h.labels

end Assembly

/-! ### Lines of a listing -/

namespace Text

lemma tidy_intercalate {ps : List (List Char)} (hne : ps ≠ []) (h : ∀ p ∈ ps, Solid p) :
    Tidy (Listing.separator.intercalate ps) := by
  induction ps with
  | nil => exact (hne rfl).elim
  | cons p ps ih =>
    obtain ⟨hp, hps⟩ := List.forall_mem_cons.mp h
    cases ps with
    | nil => simpa using hp.tidy
    | cons q ps =>
      rw [List.intercalate_cons_cons]
      exact hp.tidy.append (ih (List.cons_ne_nil q ps) hps) (by decide) (by decide)

end Text

namespace Listing

lemma content_eq {before cs : List Char} (hbefore : ∀ c ∈ before, isBlank c = true ∧ c ≠ '#')
    (h : Tidy cs) : content (before ++ cs) = cs := by
  have hall : ∀ c ∈ before ++ cs, (c != '#') = true := by
    intro c hc
    rw [bne_iff_ne]
    rcases List.mem_append.mp hc with hc | hc
    · exact (hbefore c hc).2
    · rintro rfl
      exact h.comment hc
  rw [content, List.takeWhile_eq_self_iff.mpr hall]
  exact h.trim_append fun c hc => (hbefore c hc).1

lemma tidy_line {m : String} {ps : List (List Char)} (hm : Solid m.toList)
    (hps : ∀ p ∈ ps, Solid p) : Tidy (line m ps) := by
  cases ps with
  | nil => exact hm.tidy
  | cons p ps => exact hm.tidy.append_blank (tidy_intercalate (List.cons_ne_nil p ps) hps)

lemma exists_line_eq_cons {m : String} (hm : isName m.toList) (ps : List (List Char)) :
    ∃ c cs, line m ps = c :: cs ∧ startsName c := by
  cases hcs : m.toList with
  | nil =>
    rw [hcs] at hm
    cases hm
  | cons c cs =>
    rw [hcs] at hm
    have hc : startsName c := (Bool.and_eq_true_iff.mp hm).1
    cases ps with
    | nil => exact ⟨c, cs, hcs, hc⟩
    | cons p ps =>
      refine ⟨c, cs ++ ' ' :: separator.intercalate (p :: ps), ?_, hc⟩
      rw [line, hcs, List.cons_append]
      exact List.cons_ne_nil p ps

lemma Fields.ofLine_append {m : List Char} (hm : Solid m) {rest : List Char} (hrest : Tidy rest) :
    Fields.ofLine (m ++ ' ' :: rest) = ⟨m, (pieces ',' rest).map trim⟩ := by
  have hsolid : ∀ c ∈ m, (!isBlank c) = true := fun c hc => by
    simp [isBlank_of_isSolid (hm.2 c hc)]
  have htake : (m ++ ' ' :: rest).takeWhile (fun c => !isBlank c) = m := by
    rw [List.takeWhile_append_of_pos hsolid, List.takeWhile_cons_of_neg (by simp),
      List.append_nil]
  have hdrop : (m ++ ' ' :: rest).dropWhile (fun c => !isBlank c) = ' ' :: rest := by
    rw [List.dropWhile_append_of_pos hsolid, List.dropWhile_cons_of_neg (by simp)]
  have htrim : trim (' ' :: rest) = rest := hrest.trim_append (b := [' ']) (by simp)
  simp only [Fields.ofLine, htake, hdrop, htrim, hrest.ne_nil, if_false]

/-- A line falls apart into the mnemonic and the parameters it was made of. -/
lemma Fields.ofLine_line {m : String} {ps : List (List Char)} (hm : Solid m.toList)
    (hps : ∀ p ∈ ps, Solid p) : Fields.ofLine (line m ps) = ⟨m.toList, ps⟩ := by
  cases ps with
  | nil =>
    have hsolid : ∀ c ∈ m.toList, (!isBlank c) = true := fun c hc => by
      simp [isBlank_of_isSolid (hm.2 c hc)]
    rw [Fields.ofLine, line, List.takeWhile_eq_self_iff.mpr hsolid,
      List.dropWhile_eq_nil_iff.mpr hsolid]
    rfl
  | cons p ps =>
    rw [line, Fields.ofLine_append hm (tidy_intercalate (List.cons_ne_nil p ps) hps)]
    rw [separator, map_trim_pieces (List.cons_ne_nil p ps) hps]
    exact List.cons_ne_nil p ps

lemma line_nil_cons (m : String) (p : List Char) :
    line m [[], p] = m.toList ++ ' ' :: ([','] ++ ' ' :: p) := by
  simp [line, separator, List.intercalate_cons_cons]

/-- A line whose first parameter has no text. -/
lemma Fields.parameters_ofLine_line_nil {m : String} {p : List Char} (hm : Solid m.toList)
    (hp : Solid p) :
    (Fields.ofLine (line m [[], p])).parameters = .error ⟨[], .invalidParameter⟩ := by
  rw [line_nil_cons, Fields.ofLine_append hm (tidy_comma.append_blank hp.tidy)]
  rfl

end Listing

namespace SymbolicInstr

open Listing

variable {i : SymbolicInstr}

lemma solid_opcode (i : SymbolicInstr) : Solid i.opcode.text.toList :=
  .of_isName (Opcode.isName_text _)

lemma solid_parameters (h : i.WellSpelled) : ∀ p ∈ i.parameters.map Parameter.text, Solid p := by
  have hps := (wellSpelled_iff.mp h).2
  simpa using fun p hp => Parameter.solid_text (hps p hp)

/-- Without an operand to name, the line has an empty place before its last parameter. -/
lemma exists_instr_eq_line (h : i.WellSpelled) (hnames : ¬i.NamesOperand) :
    ∃ p, Solid p ∧ Listing.instr i = line i.opcode.text [[], p] := by
  cases i with
  | operateRegisters o rs r =>
    have hrs : rs = [] := not_not.mp hnames
    subst hrs
    exact ⟨register r, Parameter.solid_text (p := .register r) h.2, rfl⟩
  | branchIfRegisters c rs l =>
    have hrs : rs = [] := not_not.mp hnames
    subst hrs
    exact ⟨Listing.label l, Parameter.solid_text (p := .label l) h.2, rfl⟩
  | _ => exact (hnames trivial).elim

lemma tidy_instr (h : i.WellSpelled) : Tidy (Listing.instr i) := by
  by_cases hnames : i.NamesOperand
  · rw [instr_eq_line (wellSpelled_iff.mp h).1 hnames]
    exact tidy_line i.solid_opcode (solid_parameters h)
  · obtain ⟨p, hp, hline⟩ := exists_instr_eq_line h hnames
    rw [hline, line_nil_cons]
    exact i.solid_opcode.tidy.append_blank (tidy_comma.append_blank hp.tidy)

lemma exists_instr_eq_cons (h : i.WellSpelled) :
    ∃ c cs, Listing.instr i = c :: cs ∧ startsName c := by
  by_cases hnames : i.NamesOperand
  · rw [instr_eq_line (wellSpelled_iff.mp h).1 hnames]
    exact exists_line_eq_cons (Opcode.isName_text _) _
  · obtain ⟨p, -, hline⟩ := exists_instr_eq_line h hnames
    rw [hline]
    exact exists_line_eq_cons (Opcode.isName_text _) _

/-- An instruction is read back from its line. -/
lemma instr_ofLine_instr (h : i.WellSpelled) (hnames : i.NamesOperand) :
    (Fields.ofLine (Listing.instr i)).instr = .ok i := by
  obtain ⟨hcount, hps⟩ := wellSpelled_iff.mp h
  rw [instr_eq_line hcount hnames, Fields.ofLine_line i.solid_opcode (solid_parameters h)]
  refine Fields.instr_eq_ok_iff.mpr ⟨rfl, ?_, hcount, ?_⟩
  · rw [Fields.parameters, mapM_eq_ok_iff, List.forall₂_map_left_iff, List.forall₂_same]
    intro p hp
    rw [Parameter.ofText?_text (hps p hp)]
  · rintro c l rfl
    exact hnames rfl

lemma instr_ofLine_instr_of_not (h : i.WellSpelled) (hnames : ¬i.NamesOperand) :
    (Fields.ofLine (Listing.instr i)).instr = .error ⟨[], .invalidParameter⟩ := by
  obtain ⟨p, hp, hline⟩ := exists_instr_eq_line h hnames
  rw [hline, Fields.instr, Fields.parameters_ofLine_line_nil i.solid_opcode hp]
  rfl

end SymbolicInstr

namespace Listing

/-! ### Reading line by line -/

namespace Draft

/-- Read one line of a text, which may be empty. -/
def readContent (d : Draft) (l : List Char) : Except Blame Draft :=
  match content l with
  | [] => .ok d
  | c :: cs => d.readLine (c :: cs)

lemma readContent_eq {d : Draft} {before cs : List Char}
    (hbefore : ∀ c ∈ before, isBlank c = true ∧ c ≠ '#') (h : Tidy cs) :
    d.readContent (before ++ cs) = d.readLine cs := by
  rw [readContent, content_eq hbefore h]
  cases cs with
  | nil => exact (h.ne_nil rfl).elim
  | cons c cs => rfl

lemma readContent_of_tidy {d : Draft} {cs : List Char} (h : Tidy cs) :
    d.readContent cs = d.readLine cs :=
  readContent_eq (List.forall_mem_nil _) h

end Draft

lemma readLines_eq_ok_iff {file : String} {n : Nat} {d e : Draft} {ls : List (List Char)} :
    readLines file n d ls = .ok e ↔ ls.foldlM Draft.readContent d = .ok e := by
  induction ls generalizing n d with
  | nil => simp [readLines, pure, Except.pure]
  | cons l ls ih =>
    rw [readLines, List.foldlM_cons, bind_eq_ok_iff, Draft.readContent]
    cases hc : content l with
    | nil => simp [ih]
    | cons c cs =>
      cases hd : d.readLine (c :: cs) with
      | ok d => simp [hd, ih]
      | error b => simp [hd]

/-- A listing is accepted when its lines are and main was among them. -/
lemma read_eq_ok_iff {file text : String} {a : Assembly} :
    Assembly.read file text = .ok a ↔
      ∃ d : Draft, (lines '\n' text.toList).foldlM Draft.readContent .empty = .ok d ∧
        a.source = file ∧ a.procedures = d.procedures ∧ d.main = some a.main := by
  simp only [Assembly.read, bind_eq_ok_iff, readLines_eq_ok_iff]
  constructor
  · rintro ⟨d, hd, h⟩
    split at h
    · rename_i main hmain
      cases h
      exact ⟨d, hd, rfl, rfl, hmain⟩
    · cases h
  · rintro ⟨d, hd, hsource, hprocedures, hmain⟩
    refine ⟨d, hd, ?_⟩
    obtain ⟨source, procedures, main⟩ := a
    simp only at hsource hprocedures hmain
    simp only [hmain, hsource, hprocedures]

/-! ### Headers, labels and instructions -/

/-- A line as it stands in a listing, without the line feed. -/
def row : Line → List Char
  | .label l => (Line.label l).text
  | .instr i => "    ".toList ++ (Line.instr i).text

/-- The line that starts a routine, without the line feed. -/
def headerRow (arity : Nat) : RoutineName → List Char
  | .main => ".main".toList
  | .procedure name => ".procedure ".toList ++ name.toList ++ ' ' :: Decimal.ofNat arity

lemma header_eq (arity : Nat) (name : RoutineName) :
    header arity name = headerRow arity name ++ ['\n'] := by
  unfold header headerRow
  cases name <;> simp

lemma headerRow_main (arity : Nat) : headerRow arity .main = ".main".toList := by
  unfold headerRow
  dsimp only

lemma headerRow_procedure (arity : Nat) (name : String) :
    headerRow arity (.procedure name) =
      '.' :: ("procedure".toList ++ ' ' :: (name.toList ++ ' ' :: Decimal.ofNat arity)) := by
  unfold headerRow
  simp

lemma tidy_headerRow {name : String} (hname : isName name.toList) (arity : Nat) :
    Tidy (headerRow arity (.procedure name)) := by
  have hkeyword : Solid "procedure".toList := .of_isName (by decide)
  rw [headerRow_procedure]
  exact (Solid.cons (by decide) hkeyword.2).tidy.append_blank
    ((Solid.of_isName hname).tidy.append_blank (Decimal.solid_ofNat arity).tidy)

lemma row_label (l : String) : row (.label l) = '$' :: (l.toList ++ [':']) := rfl

lemma solid_row_label {l : String} (hl : isName l.toList) : Solid (row (.label l)) := by
  rw [row_label]
  refine .cons (by decide) fun c hc => ?_
  rcases List.mem_append.mp hc with hc | hc
  · exact (Solid.of_isName hl).2 c hc
  · rw [List.mem_singleton.mp hc]
    decide

namespace Draft

variable {d : Draft}

lemma readContent_title (cs : List Char) :
    d.readContent ("# compiled from ".toList ++ cs) = .ok d := by
  rfl

lemma readContent_main (h : d.main = none) :
    d.readContent ".main".toList =
      .ok { d with main := some (.main []), current := some .main } := by
  have hread : d.readContent ".main".toList = d.start ".main".toList .main := rfl
  rw [hread, start, if_neg (by simp [h])]

lemma readContent_main_of_some {main : Assembly.Routine} (h : d.main = some main) :
    d.readContent ".main".toList = .error ⟨".main".toList, .mainDefinedTwice⟩ := by
  have hread : d.readContent ".main".toList = d.start ".main".toList .main := rfl
  rw [hread, start, if_pos (by simp [h])]

lemma readContent_headerRow {name : String} {arity : Nat} (hname : isName name.toList)
    (harity : arity < UInt64.size) :
    d.readContent (headerRow arity (.procedure name)) = .ok
      { d with
        procedures := d.procedures ++ [⟨.procedure name, arity, []⟩]
        current := some (.procedure d.procedures.length) } := by
  have hkeyword : Solid "procedure".toList := .of_isName (by decide)
  have hheader : Header.ofLine (headerRow arity (.procedure name)) =
      .ok (.procedure name arity) := by
    rw [Header.ofLine, headerRow_procedure, List.tail_cons, words_append hkeyword isBlank_space,
      words_append (.of_isName hname) isBlank_space, words_eq_singleton (Decimal.solid_ofNat arity)]
    simp [hname, Decimal.index?_ofNat harity]
  have hhead : (headerRow arity (.procedure name)).head? = some '.' := by
    rw [headerRow_procedure, List.head?_cons]
  rw [readContent_of_tidy (tidy_headerRow hname arity), readLine, if_pos hhead, hheader]
  rfl

lemma readContent_label {l : String} {done : List Line} (hl : isName l.toList)
    (hd : d.currentCode? = some done) (hnew : Line.label l ∉ done) :
    d.readContent (row (.label l)) = .ok (d.append (.label l)) := by
  have hname : labelName? (row (.label l)) = some l.toList := by simp [row_label, labelName?]
  have hhead : (row (.label l)).head? ≠ some '.' := by simp [row_label]
  rw [readContent_of_tidy (solid_row_label hl).tidy, readLine, if_neg hhead]
  simp [hd, hname, hl, hnew]

lemma readContent_instr {i : SymbolicInstr} (h : i.WellSpelled) :
    d.readContent (row (.instr i)) =
      match d.currentCode? with
      | none => .error ⟨Listing.instr i, .instructionOutsideRoutine⟩
      | some _ =>
        (Fields.ofLine (Listing.instr i)).instr >>= fun j => .ok (d.append (.instr j)) := by
  obtain ⟨c, cs, hcs, hc⟩ := SymbolicInstr.exists_instr_eq_cons h
  have hdot : (Listing.instr i).head? ≠ some '.' := by
    rw [hcs, List.head?_cons]
    exact fun h => ne_of_class hc (by decide) (Option.some.inj h)
  have hlabel : labelName? (Listing.instr i) = none := by
    rw [hcs, labelName?]
    rintro _ ⟨⟩
    exact ne_of_class hc (by decide) rfl
  rw [row, Line.text, readContent_eq (by simp) (SymbolicInstr.tidy_instr h), readLine,
    if_neg hdot]
  cases d.currentCode? with
  | none => rfl
  | some code => simp only [hlabel]

/-! ### Code -/

lemma currentCode?_append (line : Line) :
    (d.append line).currentCode? = d.currentCode?.map (· ++ [line]) := by
  obtain ⟨ps, main, current⟩ := d
  rcases current with _ | _ | i
  · rfl
  · simp only [append, currentCode?, Option.bind_some, Option.map_map]
    rfl
  · simp only [append, currentCode?, Option.bind_some, List.getElem?_modify_eq, Option.map_eq_map,
      Option.map_map]
    rfl

/-- A line of a routine is read back and goes behind the code that is there. -/
lemma readContent_row {line : Line} {done : List Line} (h : line.WellSpelled)
    (hnames : line.NamesOperand) (hd : d.currentCode? = some done)
    (hnew : (Assembly.labels (done ++ [line])).Nodup) :
    d.readContent (row line) = .ok (d.append line) := by
  cases line with
  | label l =>
    rw [Assembly.labels_append, Assembly.labels_label, Assembly.labels_nil,
      ← List.concat_eq_append, List.nodup_concat] at hnew
    exact readContent_label h hd fun hl => hnew.1 (Assembly.mem_labels.mpr hl)
  | instr i =>
    rw [readContent_instr h, hd, SymbolicInstr.instr_ofLine_instr h hnames]
    rfl

lemma foldlM_row (done : List Line) {code : List Line} (hcode : ∀ line ∈ code, line.WellSpelled)
    (hnames : ∀ line ∈ code, line.NamesOperand) (hd : d.currentCode? = some done)
    (hlabels : (Assembly.labels (done ++ code)).Nodup) :
    (code.map row).foldlM readContent d = .ok (code.foldl append d) := by
  -- `done` grows along the run: a label is refused when it is among the lines already read.
  induction code generalizing d done with
  | nil => rfl
  | cons line code ih =>
    obtain ⟨hline, hcode⟩ := List.forall_mem_cons.mp hcode
    obtain ⟨hname, hnames⟩ := List.forall_mem_cons.mp hnames
    rw [List.append_cons] at hlabels
    have hnew : (Assembly.labels (done ++ [line])).Nodup := by
      rw [Assembly.labels_append] at hlabels
      exact hlabels.of_append_left
    have hcurrent : (d.append line).currentCode? = some (done ++ [line]) := by
      rw [currentCode?_append, hd, Option.map_some]
    rw [List.map_cons, List.foldlM_cons, readContent_row hline hname hd hnew]
    exact ih (done ++ [line]) hcode hnames hcurrent hlabels

lemma foldl_append_main (ps : List Assembly.Routine) (r : Assembly.Routine) (code : List Line) :
    code.foldl append ⟨ps, some r, some .main⟩ = ⟨ps, some (r.append code), some .main⟩ := by
  induction code generalizing r with
  | nil => rw [List.foldl_nil, Assembly.Routine.append_nil]
  | cons line code ih =>
    rw [List.foldl_cons, ← List.singleton_append, ← Assembly.Routine.append_append]
    exact ih (r.append [line])

lemma foldl_append_procedure (ps : List Assembly.Routine) (r : Assembly.Routine)
    (main : Option Assembly.Routine) (code : List Line) :
    code.foldl append ⟨ps ++ [r], main, some (.procedure ps.length)⟩ =
      ⟨ps ++ [r.append code], main, some (.procedure ps.length)⟩ := by
  induction code generalizing r with
  | nil => rw [List.foldl_nil, Assembly.Routine.append_nil]
  | cons line code ih =>
    have hstep : append ⟨ps ++ [r], main, some (.procedure ps.length)⟩ line =
        ⟨ps ++ [r.append [line]], main, some (.procedure ps.length)⟩ := by
      simp [append, List.modify_eq_take_cons_drop]
    rw [List.foldl_cons, hstep, ih, Assembly.Routine.append_append, List.singleton_append]

end Draft

/-! ### Listings -/

/-- The lines of a routine in a listing. -/
def routineRows (r : Assembly.Routine) : List (List Char) :=
  headerRow r.arity r.name :: r.code.map row

/-- The lines of a listing below its title. -/
def codeRows (a : Assembly) : List (List Char) :=
  a.procedures.flatMap routineRows ++ routineRows a.main

/-- The lines of a listing. -/
def rows (a : Assembly) : List (List Char) :=
  ("# compiled from ".toList ++ a.source.toList) :: codeRows a

lemma code_eq (code : List Line) :
    Listing.code code = (code.map row).flatMap (· ++ ['\n']) := by
  rw [List.flatMap_map, Listing.code]
  congr 1
  funext line
  cases line <;> rfl

lemma routine_eq (r : Assembly.Routine) :
    routine r = (routineRows r).flatMap (· ++ ['\n']) := by
  rw [routine, routineRows, List.flatMap_cons, header_eq, code_eq]

lemma listingChars_eq (a : Assembly) : a.listingChars = (rows a).flatMap (· ++ ['\n']) := by
  have hprocedures : a.procedures.flatMap routine =
      (a.procedures.flatMap routineRows).flatMap (· ++ ['\n']) := by
    rw [List.flatMap_assoc]
    congr 1
    funext r
    exact routine_eq r
  unfold Assembly.listingChars rows codeRows title
  simp only [routine_eq a.main, hprocedures, List.flatMap_cons, List.flatMap_append,
    List.append_assoc]

lemma feed_notMem_row {line : Line} (h : line.WellSpelled) : '\n' ∉ row line := by
  cases line with
  | label l => exact (solid_row_label h).tidy.feed
  | instr i =>
    rw [row, List.mem_append, not_or]
    exact ⟨by simp, (SymbolicInstr.tidy_instr h).feed⟩

lemma feed_notMem_codeRows {a : Assembly} (h : a.WellSpelled) : ∀ l ∈ codeRows a, '\n' ∉ l := by
  have hcode {code : List Line} (hcode : Assembly.CodeWellSpelled code) :
      ∀ l ∈ code.map row, '\n' ∉ l := by
    simpa using fun line hline => feed_notMem_row (hcode.lines line hline)
  simp only [codeRows, routineRows, h.name, List.forall_mem_cons, List.forall_mem_append,
    List.forall_mem_flatMap]
  refine ⟨?_, by simp [headerRow_main], hcode h.main⟩
  rintro ⟨name, arity, code⟩ hr
  obtain ⟨hname, -, hspelled⟩ := h.procedures _ hr
  refine ⟨?_, hcode hspelled⟩
  cases name with
  | main => exact hname.elim
  | procedure name => exact (tidy_headerRow hname arity).feed

lemma feed_notMem_rows {a : Assembly} (hsource : '\n' ∉ a.source.toList) (h : a.WellSpelled) :
    ∀ l ∈ rows a, '\n' ∉ l := by
  refine List.forall_mem_cons.mpr ⟨?_, feed_notMem_codeRows h⟩
  rw [List.mem_append, not_or]
  exact ⟨by simp, hsource⟩

/-- What the reader sees of a listing. -/
lemma lines_listing {a : Assembly} (hsource : '\n' ∉ a.source.toList) (h : a.WellSpelled) :
    lines '\n' a.listing.toList = rows a := by
  rw [Assembly.listing, String.toList_ofList, listingChars_eq,
    lines_flatMap (feed_notMem_rows hsource h)]

/-- The lines of a procedure add that procedure to those that were read before. -/
lemma foldlM_routineRows {r : Assembly.Routine} (h : r.WellSpelled)
    (hnames : ∀ line ∈ r.code, line.NamesOperand) (d : Draft) :
    (routineRows r).foldlM Draft.readContent d =
      .ok ⟨d.procedures ++ [r], d.main, some (.procedure d.procedures.length)⟩ := by
  obtain ⟨name, arity, code⟩ := r
  obtain ⟨hname, harity, hlines, hlabels⟩ := h
  cases name with
  | main => exact hname.elim
  | procedure name =>
    have hcode : (code.map row).foldlM Draft.readContent
        ⟨d.procedures ++ [⟨.procedure name, arity, []⟩], d.main,
          some (.procedure d.procedures.length)⟩ =
        .ok ⟨d.procedures ++ [⟨.procedure name, arity, code⟩], d.main,
          some (.procedure d.procedures.length)⟩ := by
      rw [Draft.foldlM_row [] hlines hnames (by simp [Draft.currentCode?]) hlabels,
        Draft.foldl_append_procedure]
      rfl
    rw [routineRows, List.foldlM_cons, Draft.readContent_headerRow hname harity]
    exact hcode

lemma exists_foldlM_procedures {rs : List Assembly.Routine} (h : ∀ r ∈ rs, r.WellSpelled)
    (hnames : ∀ r ∈ rs, ∀ line ∈ r.code, line.NamesOperand) (d : Draft) :
    ∃ current, (rs.flatMap routineRows).foldlM Draft.readContent d =
      .ok ⟨d.procedures ++ rs, d.main, current⟩ := by
  induction rs generalizing d with
  | nil => exact ⟨d.current, by simp [pure, Except.pure]⟩
  | cons r rs ih =>
    obtain ⟨hr, h⟩ := List.forall_mem_cons.mp h
    obtain ⟨hname, hnames⟩ := List.forall_mem_cons.mp hnames
    obtain ⟨current, hrs⟩ := ih h hnames
      ⟨d.procedures ++ [r], d.main, some (.procedure d.procedures.length)⟩
    refine ⟨current, ?_⟩
    rw [List.flatMap_cons, List.foldlM_append, List.append_cons]
    exact bind_eq_ok_iff.mpr ⟨_, foldlM_routineRows hr hname d, hrs⟩

/-- The lines below the title are accepted unless main was read before, and their procedures go
behind those that were. -/
lemma foldlM_codeRows_eq_ok_iff {a : Assembly} (h : a.WellSpelled) (hnames : a.NamesOperands)
    {d e : Draft} :
    (codeRows a).foldlM Draft.readContent d = .ok e ↔
      d.main = none ∧ e = ⟨d.procedures ++ a.procedures, some a.main, some .main⟩ := by
  obtain ⟨current, hps⟩ := exists_foldlM_procedures h.procedures hnames.procedures d
  have hcode (ps : List Assembly.Routine) :
      (a.main.code.map row).foldlM Draft.readContent ⟨ps, some (.main []), some .main⟩ =
        .ok ⟨ps, some a.main, some .main⟩ := by
    have hmain : (Assembly.Routine.main []).append a.main.code = a.main := h.main_eq
    rw [Draft.foldlM_row [] h.main.lines hnames.main rfl h.main.labels, Draft.foldl_append_main,
      hmain]
  simp only [codeRows, routineRows, h.name, headerRow_main, List.foldlM_append, List.foldlM_cons,
    bind_eq_ok_iff, hps, Except.ok.injEq, exists_eq_left']
  cases hmain : d.main with
  | none =>
    rw [Draft.readContent_main rfl]
    simp only [Except.ok.injEq, exists_eq_left', hcode, true_and]
    exact eq_comm
  | some code =>
    rw [Draft.readContent_main_of_some rfl]
    simp only [reduceCtorEq, false_and, exists_false]

/-- All lines of a listing are read, and the program they make up is the one that was listed. -/
lemma foldlM_rows {a : Assembly} (h : a.WellSpelled) (hnames : a.NamesOperands) :
    (rows a).foldlM Draft.readContent .empty =
      .ok ⟨a.procedures, some a.main, some .main⟩ :=
  bind_eq_ok_iff.mpr ⟨.empty, Draft.readContent_title _,
    (foldlM_codeRows_eq_ok_iff h hnames).mpr ⟨rfl, rfl⟩⟩

lemma exists_readContent_of_foldlM {ls : List (List Char)} {d e : Draft}
    (h : ls.foldlM Draft.readContent d = .ok e) :
    ∀ l ∈ ls, ∃ d e : Draft, d.readContent l = .ok e := by
  induction ls generalizing d with
  | nil => simp
  | cons l ls ih =>
    rw [List.foldlM_cons, bind_eq_ok_iff] at h
    obtain ⟨d', hl, h⟩ := h
    exact List.forall_mem_cons.mpr ⟨⟨d, d', hl⟩, ih h⟩

lemma namesOperand_of_readContent {line : Line} (h : line.WellSpelled) {d e : Draft}
    (hread : d.readContent (row line) = .ok e) : line.NamesOperand := by
  cases line with
  | label l => trivial
  | instr i =>
    by_contra hnames
    rw [Draft.readContent_instr h, SymbolicInstr.instr_ofLine_instr_of_not h hnames] at hread
    cases hd : d.currentCode? with
    | none =>
      rw [hd] at hread
      cases hread
    | some code =>
      rw [hd] at hread
      cases hread

/-- A listing that is read at all names operands everywhere. -/
lemma namesOperands_of_foldlM_rows {a : Assembly} (h : a.WellSpelled) {e : Draft}
    (hread : (rows a).foldlM Draft.readContent .empty = .ok e) : a.NamesOperands := by
  have hrow : ∀ line : Line, line.WellSpelled → row line ∈ rows a → line.NamesOperand := by
    intro line hline hmem
    obtain ⟨d, e, hread⟩ := exists_readContent_of_foldlM hread (row line) hmem
    exact namesOperand_of_readContent hline hread
  constructor
  · intro p hp line hline
    refine hrow line ((h.procedures p hp).code.lines line hline) ?_
    have hmem : row line ∈ routineRows p :=
      List.mem_cons_of_mem _ (List.mem_map_of_mem hline)
    exact List.mem_cons_of_mem _ (List.mem_append_left _ (List.mem_flatMap_of_mem hp hmem))
  · intro line hline
    refine hrow line (h.main.lines line hline) ?_
    exact List.mem_cons_of_mem _ (List.mem_append_right _
      (List.mem_cons_of_mem _ (List.mem_map_of_mem hline)))

/-! ### What was read can be listed -/

lemma Fields.wellSpelled_of_parameters {f : Fields} {ps : List Parameter}
    (h : f.parameters = .ok ps) : ∀ p ∈ ps, p.WellSpelled := by
  rw [Fields.parameters, mapM_eq_ok_iff] at h
  generalize f.tokens = ts at h
  induction h with
  | nil => simp
  | @cons t p ts ps ht _ ih =>
    refine List.forall_mem_cons.mpr ⟨?_, ih⟩
    split at ht
    · rename_i hp
      cases ht
      exact Parameter.wellSpelled_of_ofText? hp
    · cases ht

lemma Fields.wellSpelled_of_instr {f : Fields} {i : SymbolicInstr} (h : f.instr = .ok i) :
    i.WellSpelled := by
  obtain ⟨-, hps, hcount, -⟩ := Fields.instr_eq_ok_iff.mp h
  exact SymbolicInstr.wellSpelled_iff.mpr ⟨hcount, Fields.wellSpelled_of_parameters hps⟩

lemma Header.ofLine_eq_ok {line : List Char} {name : String} {arity : Nat}
    (h : Header.ofLine line = .ok (.procedure name arity)) :
    isName name.toList ∧ arity < UInt64.size := by
  unfold Header.ofLine at h
  split at h
  · split at h <;> cases h
  · split at h
    · rename_i hname
      split at h
      · rename_i n hn
        cases h
        exact ⟨by simpa using hname.2, Decimal.lt_of_index? hn⟩
      · cases h
    · cases h
  · cases h

namespace Draft

/-- What reading a line can do to a draft. -/
lemma readContent_cases {d e : Draft} {l : List Char} (h : d.readContent l = .ok e) :
    (content l = [] ∧ e = d) ∨ e = { d with main := some (.main []), current := some .main } ∨
      (∃ name arity, isName name.toList ∧ arity < UInt64.size ∧ e = { d with
        procedures := d.procedures ++ [⟨.procedure name, arity, []⟩]
        current := some (.procedure d.procedures.length) }) ∨
      ∃ code line, d.currentCode? = some code ∧ line.WellSpelled ∧
        (∀ l, line = .label l → line ∉ code) ∧ e = d.append line := by
  unfold readContent at h
  split at h
  · rename_i hcontent
    cases h
    exact .inl ⟨hcontent, rfl⟩
  · rename_i c cs hcontent
    unfold readLine at h
    split at h
    · obtain ⟨header, hheader, h⟩ := bind_eq_ok_iff.mp h
      cases header with
      | main =>
        simp only [start] at h
        split at h
        · cases h
        · cases h
          exact .inr (.inl rfl)
      | procedure name arity =>
        cases h
        obtain ⟨hname, harity⟩ := Header.ofLine_eq_ok hheader
        exact .inr (.inr (.inl ⟨name, arity, hname, harity, rfl⟩))
    · split at h
      · cases h
      · rename_i code hcode
        refine .inr (.inr (.inr ⟨code, ?_⟩))
        split at h
        · rename_i name hlabel
          split at h
          · cases h
          · rename_i hname
            split at h
            · cases h
            · rename_i hnew
              cases h
              refine ⟨.label (String.ofList name), hcode, ?_, fun _ _ => hnew, rfl⟩
              simpa [Line.WellSpelled] using hname
        · obtain ⟨i, hi, h⟩ := bind_eq_ok_iff.mp h
          cases h
          exact ⟨.instr i, hcode, Fields.wellSpelled_of_instr hi, by simp, rfl⟩

/-- Whatever was read so far can be spelled. -/
structure WellSpelled (d : Draft) : Prop where
  procedures : ∀ p ∈ d.procedures, p.WellSpelled
  main : ∀ r ∈ d.main, r.name = .main ∧ r.arity = 0 ∧ Assembly.CodeWellSpelled r.code

lemma wellSpelled_empty : WellSpelled .empty := by
  constructor <;> simp [empty]

lemma WellSpelled.append {d : Draft} (h : d.WellSpelled) {code : List Line} {line : Line}
    (hcode : d.currentCode? = some code) (hline : line.WellSpelled)
    (hnew : ∀ l, line = .label l → line ∉ code) : (d.append line).WellSpelled := by
  obtain ⟨ps, main, current⟩ := d
  rcases current with _ | _ | i
  · exact h
  · obtain ⟨r, rfl, rfl⟩ := Option.map_eq_some_iff.mp hcode
    obtain ⟨hname, harity, hspelled⟩ := h.main r rfl
    refine ⟨h.procedures, fun q hq => ?_⟩
    cases hq
    exact ⟨hname, harity, hspelled.concat hline hnew⟩
  · obtain ⟨p, hp, rfl⟩ := Option.map_eq_some_iff.mp hcode
    have hspelled := h.procedures p (List.mem_of_getElem? hp)
    refine ⟨fun q hq => ?_, h.main⟩
    obtain ⟨k, hk⟩ := List.mem_iff_getElem?.mp hq
    simp only [Draft.append, List.getElem?_modify] at hk
    by_cases hik : i = k
    · subst hik
      rw [hp] at hk
      simp only [if_true, Option.map_eq_map, Option.map_some, Option.some.injEq] at hk
      subst hk
      exact ⟨hspelled.name, hspelled.arity, hspelled.code.concat hline hnew⟩
    · simp only [hik, if_false, Option.map_eq_map, Option.map_id'] at hk
      exact h.procedures q (List.mem_of_getElem? hk)

lemma WellSpelled.readContent {d e : Draft} {l : List Char} (h : d.WellSpelled)
    (hread : d.readContent l = .ok e) : e.WellSpelled := by
  have hnil : Assembly.CodeWellSpelled [] := ⟨by simp, List.nodup_nil⟩
  rcases readContent_cases hread with ⟨-, rfl⟩ | rfl | ⟨name, arity, hname, harity, rfl⟩ |
    ⟨code, line, hcode, hline, hnew, rfl⟩
  · exact h
  · refine ⟨h.procedures, fun q hq => ?_⟩
    cases hq
    exact ⟨rfl, rfl, hnil⟩
  · refine ⟨?_, h.main⟩
    exact List.forall_mem_append.mpr ⟨h.procedures, by simpa using ⟨hname, harity, hnil⟩⟩
  · exact h.append hcode hline hnew

lemma WellSpelled.foldlM {d e : Draft} {ls : List (List Char)} (h : d.WellSpelled)
    (hread : ls.foldlM Draft.readContent d = .ok e) : e.WellSpelled := by
  induction ls generalizing d with
  | nil =>
    cases hread
    exact h
  | cons l ls ih =>
    rw [List.foldlM_cons, bind_eq_ok_iff] at hread
    obtain ⟨d', hl, hread⟩ := hread
    exact ih (h.readContent hl) hread

end Draft

end Listing

namespace Assembly

open Listing

lemma wellSpelled_of_read {file text : String} {a : Assembly} (h : read file text = .ok a) :
    a.WellSpelled := by
  obtain ⟨d, hd, -, hprocedures, hmain⟩ := read_eq_ok_iff.mp h
  have hspelled := Draft.wellSpelled_empty.foldlM hd
  obtain ⟨hname, harity, hcode⟩ := hspelled.main a.main hmain
  refine ⟨?_, hname, harity, hcode⟩
  rw [hprocedures]
  exact hspelled.procedures

/-- The listing of a program is read back as that program. -/
theorem read_listing {a : Assembly} (hsource : '\n' ∉ a.source.toList) (h : a.WellSpelled)
    (hnames : a.NamesOperands) : read a.source a.listing = .ok a := by
  rw [read_eq_ok_iff, lines_listing hsource h]
  exact ⟨_, foldlM_rows h hnames, rfl, rfl, rfl⟩

/-- Instructions of all kinds, with the extremes of what they can name. -/
def assortment : Assembly where
  source := "odd # name, with: signs.izm"
  procedures :=
    [⟨.procedure "f", 2 ^ 64 - 1,
      [.label "f", .label "main", .instr (.branch "end"),
        .instr (.pushConstant (-9223372036854775808)), .instr (.pushVariable (2 ^ 64 - 1)),
        .instr (.operate .unaryMinus), .instr (.branchIf .zero "f"),
        .instr (.branchIf .lessOrEqual "main"), .instr (.call "_0" (2 ^ 63 - 1)),
        .instr .ret, .label "end"]⟩,
      ⟨.procedure "_0", 0, []⟩,
      ⟨.procedure "plus", 1,
        [.instr (.move (.literal (-1)) (.literal 0)), .instr (.move (.slot 0) (.register 7)),
          .instr (.operateRegisters .minus [0] 1), .instr (.operateRegisters .plus [0, 1, 2] 0),
          .instr (.branchIfRegisters .nonzero [3] "b"),
          .instr (.branchIfRegisters .less [4, 10] "b"), .label "b",
          .instr (.callRegisters "plus" 0 0 5), .instr (.inputRegister 0),
          .instr (.printRegister 0), .instr (.retRegister 9)]⟩]
  main :=
    .main [.label "f", .instr .input, .instr .print, .instr .drop, .instr (.popVariable 0)]

theorem read_listing_assortment :
    '\n' ∉ assortment.source.toList ∧ assortment.WellSpelled ∧ assortment.NamesOperands ∧
      read assortment.source assortment.listing = .ok assortment :=
  have hsource : '\n' ∉ assortment.source.toList := by decide +kernel
  have h : assortment.WellSpelled := by decide +kernel
  have hnames : assortment.NamesOperands := by decide +kernel
  ⟨hsource, h, hnames, read_listing hsource h hnames⟩

/-- What was read from any text is read again from its listing, unless an operation names its
destination only. -/
theorem read_listing_of_read_iff {file text : String} {a : Assembly}
    (hfile : '\n' ∉ file.toList) (h : read file text = .ok a) :
    read file a.listing = .ok a ↔ a.NamesOperands := by
  have hspelled := wellSpelled_of_read h
  obtain ⟨-, -, rfl, -⟩ := read_eq_ok_iff.mp h
  rw [read_eq_ok_iff, lines_listing hfile hspelled]
  constructor
  · rintro ⟨d, hd, -⟩
    exact namesOperands_of_foldlM_rows hspelled hd
  · intro hnames
    exact ⟨_, foldlM_rows hspelled hnames, rfl, rfl, rfl⟩

/-- A text with odd spacing, signs and main between procedures. -/
def untidy : String :=
  "  # nothing yet\n\n.main# here\n\tbz\t$a  \n$a:\n.procedure f +02\n" ++
    "plus %r0,%r+1 , %r002\ncall f,%r0, -0,%r1"

theorem read_listing_of_read_untidy :
    ∃ a, read "t" untidy = .ok a ∧ a.NamesOperands ∧ read "t" a.listing = .ok a := by
  have h : read "t" untidy = .ok ⟨"t",
      [⟨.procedure "f", 2,
        [.instr (.operateRegisters .plus [0, 1] 2), .instr (.callRegisters "f" 0 0 1)]⟩],
      .main [.instr (.branchIf .zero "a"), .label "a"]⟩ := by decide +kernel
  have hnames : NamesOperands ⟨"t",
      [⟨.procedure "f", 2,
        [.instr (.operateRegisters .plus [0, 1] 2), .instr (.callRegisters "f" 0 0 1)]⟩],
      .main [.instr (.branchIf .zero "a"), .label "a"]⟩ := by decide +kernel
  exact ⟨_, h, hnames, (read_listing_of_read_iff (by decide) h).mpr hnames⟩

/-- An operation with a destination only is accepted, but its listing is not. -/
theorem read_listing_bare_destination :
    read "t" ".main\nplus %r0\n" = .ok ⟨"t", [], .main [.instr (.operateRegisters .plus [] 0)]⟩ ∧
      read "t" (listing ⟨"t", [], .main [.instr (.operateRegisters .plus [] 0)]⟩) =
        .error ⟨"t", 3, "", .invalidParameter⟩ := by
  decide +kernel

end Assembly

end Izmir
