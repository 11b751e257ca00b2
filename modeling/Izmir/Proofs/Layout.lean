import Izmir.Proofs.LineErrors
import Izmir.Proofs.ListingRoundTrip

/-!
# The layout of listings

A listing may have blank lines, comments and white space around its lines wherever one likes.
What is read from it is the same for every layout. When a line is refused, its number is
greater by as many lines as the layout puts above it, and when main is missing, by as many as
the layout adds at all.
-/

namespace Izmir.Listing

open Text

/-! ### What can be put around a line -/

/-- White space on both sides of a line, and a comment behind it. -/
structure Padding where
  before : List Char := []
  after : List Char := []
  note : List Char := []
  before_blank : before.all isBlank := by decide
  after_blank : after.all isBlank := by decide
  note_comment : note.head?.all (· == '#') := by decide
  feed : '\n' ∉ before ++ after ++ note := by decide

namespace Padding

def around (p : Padding) (line : List Char) : List Char :=
  p.before ++ line ++ p.after ++ p.note

/-- A line of its own: blank, or with a comment and nothing else. -/
def idle (p : Padding) : List Char :=
  p.around []

lemma feed_notMem_around (p : Padding) {line : List Char} (h : '\n' ∉ line) :
    '\n' ∉ p.around line := by
  have := p.feed
  simp_all [around]

lemma takeWhile_note (p : Padding) : p.note.takeWhile (· != '#') = [] := by
  have hcomment := p.note_comment
  cases h : p.note with
  | nil => rfl
  | cons c cs =>
    rw [h] at hcomment
    have hc : c = '#' := by simpa using hcomment
    simp [hc]

lemma takeWhile_blank_append {cs : List Char} (h : ∀ c ∈ cs, isBlank c) (rest : List Char) :
    (cs ++ rest).takeWhile (· != '#') = cs ++ rest.takeWhile (· != '#') := by
  refine List.takeWhile_append_of_pos fun c hc => bne_iff_ne.mpr ?_
  exact ne_of_class (p := isBlank) (h c hc) rfl

lemma content_around (p : Padding) (line : List Char) : content (p.around line) = content line := by
  have hbefore := List.all_eq_true.mp p.before_blank
  have hafter := List.all_eq_true.mp p.after_blank
  rw [content, around, List.append_assoc, List.append_assoc, takeWhile_blank_append hbefore,
    trim_blank_append hbefore, content]
  by_cases hline : ∀ c ∈ line, (c != '#') = true
  · rw [List.takeWhile_append_of_pos hline, takeWhile_blank_append hafter, takeWhile_note,
      List.append_nil, List.takeWhile_eq_self_iff.mpr hline, trim_append_blank hafter]
  · -- A comment of the line itself hides what stands behind the line.
    have hlength : (line.takeWhile (· != '#')).length ≠ line.length := fun h =>
      hline (List.takeWhile_eq_self_iff.mp ((List.takeWhile_prefix _).eq_of_length h))
    rw [List.takeWhile_append, if_neg hlength]

lemma readContent_around (p : Padding) (d : Draft) (line : List Char) :
    d.readContent (p.around line) = d.readContent line := by
  rw [Draft.readContent, Draft.readContent, p.content_around]

lemma readContent_idle (p : Padding) (d : Draft) : d.readContent p.idle = .ok d :=
  p.readContent_around d []

end Padding

/-! ### Layouts -/

/-- What comes with a line: the lines put above it, and what is put around it. -/
structure Margin where
  above : List Padding := []
  padding : Padding := {}

/-- A margin for every line, given by how many lines come before it in the text, and the lines
that follow the last one. -/
structure Layout where
  margin : Nat → Margin
  below : List Padding

namespace Layout

/-- Give each line its margin, where `i` lines come before the first one. -/
def frame (layout : Layout) : Nat → List (List Char) → List (List Char)
  | _, [] => []
  | i, l :: ls =>
    (layout.margin i).above.map Padding.idle ++
      (layout.margin i).padding.around l :: layout.frame (i + 1) ls

def apply (layout : Layout) (ls : List (List Char)) : List (List Char) :=
  layout.frame 0 ls ++ layout.below.map Padding.idle

/-- The second text is the first one in another layout. -/
def Relays (layout : Layout) (text text' : String) : Prop :=
  lines '\n' text'.toList = layout.apply (lines '\n' text.toList)

/-- How many lines are put above the `n`-th line of a text. -/
def linesAbove (layout : Layout) : Nat → Nat
  | 0 => 0
  | n + 1 => layout.linesAbove n + (layout.margin n).above.length

/-- An error at the place that it has in the new layout. A missing main is reported at the end
of the text. -/
def relocate (layout : Layout) (e : Error) : Error :=
  { e with
    line := e.line + layout.linesAbove e.line +
      if e.fault = .missingMain then layout.below.length else 0 }

variable (layout : Layout)

lemma length_frame (i : Nat) (ls : List (List Char)) :
    (layout.frame i ls).length + layout.linesAbove i =
      ls.length + layout.linesAbove (i + ls.length) := by
  induction ls generalizing i with
  | nil => rfl
  | cons l ls ih =>
    have h := ih (i + 1)
    rw [linesAbove, Nat.add_right_comm, Nat.add_assoc i] at h
    simp only [frame, List.length_append, List.length_map, List.length_cons]
    omega

lemma length_apply (ls : List (List Char)) :
    (layout.apply ls).length = ls.length + layout.linesAbove ls.length + layout.below.length := by
  have h := layout.length_frame 0 ls
  rw [linesAbove, Nat.zero_add, Nat.add_zero] at h
  rw [apply, List.length_append, List.length_map, h]

/-! ### Texts in a layout -/

lemma feed_notMem_idle {ps : List Padding} : ∀ l ∈ ps.map Padding.idle, '\n' ∉ l := by
  intro l hl
  obtain ⟨p, -, rfl⟩ := List.mem_map.mp hl
  exact p.feed_notMem_around List.not_mem_nil

lemma feed_notMem_frame {ls : List (List Char)} (h : ∀ l ∈ ls, '\n' ∉ l) (i : Nat) :
    ∀ l ∈ layout.frame i ls, '\n' ∉ l := by
  induction ls generalizing i with
  | nil => simp [frame]
  | cons l ls ih =>
    obtain ⟨hl, hls⟩ := List.forall_mem_cons.mp h
    rw [frame, List.forall_mem_append, List.forall_mem_cons]
    exact ⟨feed_notMem_idle, (layout.margin i).padding.feed_notMem_around hl, ih hls (i + 1)⟩

/-- Every text can be given every layout. -/
lemma exists_relays (text : String) : ∃ text', layout.Relays text text' := by
  have hframe : ∀ l ∈ layout.frame 0 (lines '\n' text.toList), '\n' ∉ l :=
    layout.feed_notMem_frame (fun _ => feed_notMem_of_mem_lines) 0
  have hfeed : ∀ l ∈ layout.apply (lines '\n' text.toList), '\n' ∉ l :=
    List.forall_mem_append.mpr ⟨hframe, feed_notMem_idle⟩
  refine ⟨String.ofList ((layout.apply (lines '\n' text.toList)).flatMap (· ++ ['\n'])), ?_⟩
  rw [Relays, String.toList_ofList, lines_flatMap hfeed]

end Layout

/-! ### Reading -/

section Reading

variable {file : String} {n : Nat} {d d' : Draft} {l : List Char} {b : Blame}

lemma readLines_cons_of_ok (h : d.readContent l = .ok d') (ls : List (List Char)) :
    readLines file n d (l :: ls) = readLines file (n + 1) d' ls := by
  rw [Draft.readContent] at h
  rw [readLines]
  split at h
  · cases h
    simp [*]
  · simp [*]

lemma readLines_cons_of_error (h : d.readContent l = .error b) (ls : List (List Char)) :
    readLines file n d (l :: ls) = .error ⟨file, n, String.ofList b.token, b.fault⟩ := by
  rw [Draft.readContent] at h
  rw [readLines]
  split at h
  · cases h
  · simp [*]

/-- Idle lines only move the numbers of those that follow. -/
lemma readLines_idle_append (ps : List Padding) (ls : List (List Char)) :
    readLines file n d (ps.map Padding.idle ++ ls) = readLines file (n + ps.length) d ls := by
  induction ps generalizing n with
  | nil => rfl
  | cons p ps ih =>
    rw [List.map_cons, List.cons_append, readLines_cons_of_ok (p.readContent_idle d), ih,
      List.length_cons, Nat.add_right_comm, Nat.add_assoc]

lemma readLines_append_idle (ls : List (List Char)) (ps : List Padding) :
    readLines file n d (ls ++ ps.map Padding.idle) = readLines file n d ls := by
  induction ls generalizing n d with
  | nil =>
    rw [List.nil_append, ← List.append_nil (ps.map Padding.idle), readLines_idle_append,
      readLines, readLines]
  | cons l ls ih =>
    cases h : d.readContent l with
    | ok d' => rw [List.cons_append, readLines_cons_of_ok h, readLines_cons_of_ok h, ih]
    | error b => rw [List.cons_append, readLines_cons_of_error h, readLines_cons_of_error h]

/-- The line with `i` lines before it has as many more before it as were put above those. -/
lemma readLines_frame (layout : Layout) (i : Nat) (ls : List (List Char)) :
    readLines file (i + 1 + layout.linesAbove i) d (layout.frame i ls) =
      (readLines file (i + 1) d ls).mapError fun e =>
        { e with line := e.line + layout.linesAbove e.line } := by
  induction ls generalizing i d with
  | nil => rfl
  | cons l ls ih =>
    rw [Layout.frame, readLines_idle_append, Nat.add_assoc, ← Layout.linesAbove]
    have hl := (layout.margin i).padding.readContent_around d l
    cases h : d.readContent l with
    | ok d' =>
      rw [readLines_cons_of_ok (hl.trans h), readLines_cons_of_ok h, ← ih, Nat.add_right_comm]
    | error b =>
      rw [readLines_cons_of_error (hl.trans h), readLines_cons_of_error h]
      rfl

/-! ### Faults of lines -/

lemma Header.fault_of_ofLine (h : Header.ofLine l = .error b) :
    b.fault = .invalidRoutineHeader := by
  unfold Header.ofLine at h
  split at h
  · split at h <;> cases h
    rfl
  · split at h
    · split at h <;> cases h
      rfl
    · cases h
      rfl
  · cases h
    rfl

lemma Draft.fault_of_start {header : Header} (h : d.start l header = .error b) :
    b.fault = .mainDefinedTwice := by
  cases header with
  | main =>
    rw [start] at h
    split at h <;> cases h
    rfl
  | procedure => cases h

lemma Fields.fault_of_instr {f : Fields} (h : f.instr = .error b) : b.fault ≠ .missingMain := by
  rcases instr_eq_error h with hb | hb | ⟨k, ps, -, -, hrejects⟩
  · simp [hb]
  · simp [hb]
  · cases hrejects <;> simp [kindError]

lemma Draft.fault_of_readContent (h : d.readContent l = .error b) : b.fault ≠ .missingMain := by
  unfold readContent at h
  split at h
  · cases h
  · unfold readLine at h
    split at h
    · rcases bind_eq_error_iff.mp h with h | ⟨header, -, h⟩
      · simp [Header.fault_of_ofLine h]
      · simp [fault_of_start h]
    · split at h
      · cases h
        simp
      · split at h
        · split at h
          · cases h
            simp
          · split at h <;> cases h
            simp
        · rcases bind_eq_error_iff.mp h with h | ⟨i, -, h⟩
          · exact Fields.fault_of_instr h
          · cases h

/-- That main is missing is not known before the end. -/
lemma fault_of_readLines {e : Error} {ls : List (List Char)}
    (h : readLines file n d ls = .error e) : e.fault ≠ .missingMain := by
  induction ls generalizing n d with
  | nil => cases h
  | cons l ls ih =>
    cases hl : d.readContent l with
    | ok d' =>
      rw [readLines_cons_of_ok hl] at h
      exact ih h
    | error b =>
      rw [readLines_cons_of_error hl] at h
      cases h
      exact Draft.fault_of_readContent hl

end Reading

/-- Every text can be given every layout. The program that is read stays the same, and so does
an error up to the number of its line. -/
theorem read_relaid (file text : String) (layout : Layout) :
    (∃ text', layout.Relays text text') ∧
      ∀ text', layout.Relays text text' →
        Assembly.read file text' = (Assembly.read file text).mapError layout.relocate := by
  refine ⟨layout.exists_relays text, fun text' h => ?_⟩
  have hlines : readLines file 1 .empty (lines '\n' text'.toList) =
      (readLines file 1 .empty (lines '\n' text.toList)).mapError fun e =>
        { e with line := e.line + layout.linesAbove e.line } := by
    rw [h, Layout.apply, readLines_append_idle]
    exact readLines_frame layout 0 _
  rw [Assembly.read, Assembly.read, hlines, h, layout.length_apply]
  cases hd : readLines file 1 .empty (lines '\n' text.toList) with
  | error e =>
    have hfault : e.fault ≠ .missingMain := fault_of_readLines hd
    simp [bind, Except.bind, Except.mapError, Layout.relocate, hfault]
  | ok d =>
    cases hmain : d.main with
    | none => simp [bind, Except.bind, Except.mapError, Layout.relocate, hmain]
    | some main => simp [bind, Except.bind, Except.mapError, hmain]

/-- A title above the first line, two idle lines above the second and one below all. -/
def annotated : Layout where
  margin
    | 0 => { above := [{ note := "# entry".toList }], padding := { note := "# main".toList } }
    | 1 => { above := [{}, { before := ['\t'], note := ['#'] }],
             padding := { before := [' ', ' '], after := ['\r'] } }
    | _ => {}
  below := [{ note := "# end".toList }]

/-- A line that is refused moves by the lines above it, a missing main by all of them. -/
theorem read_annotated :
    Assembly.read "a" "# entry\n.main# main\n\n\t#\n  jump\r\n# end" =
        .error ⟨"a", 5, "jump", .invalidInstruction⟩ ∧
      Assembly.read "a" "# entry\n# main\n\n\t#\n  \r\n# end\n" =
        .error ⟨"a", 6, "", .missingMain⟩ :=
  ⟨((read_relaid "a" ".main\njump" annotated).2 _ (by unfold Layout.Relays; decide +kernel)).trans
      (by decide +kernel),
    ((read_relaid "a" "\n\n" annotated).2 _ (by unfold Layout.Relays; decide +kernel)).trans
      (by decide +kernel)⟩

end Izmir.Listing
