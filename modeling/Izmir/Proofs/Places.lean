import Izmir.Proofs.Labels

/-!
# Statements in their surroundings

The code of a statement inside another is a piece of its code. Control enters the piece at its
beginning only: the labels in it have numbers of their own, and no branch from outside of the
piece goes to one of them.
-/

namespace Izmir

/-- A statement is another one or stands somewhere in it. -/
inductive Stmt.PartOf {ν : Type} (x : Stmt ν) : Stmt ν → Prop where
  | self : x.PartOf x
  | block {n : ν} {a : Stmt ν} : x.PartOf a → x.PartOf (.block n a)
  | first {a b : Stmt ν} : x.PartOf a → x.PartOf (.seq a b)
  | second {a b : Stmt ν} : x.PartOf b → x.PartOf (.seq a b)
  | thenBranch {c : Expr ν} {a b : Stmt ν} : x.PartOf a → x.PartOf (.ifElse c a b)
  | elseBranch {c : Expr ν} {a b : Stmt ν} : x.PartOf b → x.PartOf (.ifElse c a b)
  | ifThen {c : Expr ν} {a : Stmt ν} : x.PartOf a → x.PartOf (.ifThen c a)
  | whileDo {c : Expr ν} {a : Stmt ν} : x.PartOf a → x.PartOf (.whileDo c a)
  | repeatUntil {a : Stmt ν} {c : Expr ν} : x.PartOf a → x.PartOf (.repeatUntil a c)

/-- The branches among some marks go to labels whose numbers lie in an interval. -/
def BranchesWithin (first last : Nat) (ms : List Mark) : Prop :=
  ∀ l, Mark.target l ∈ ms → ∃ w n, l = numberedLabel w n ∧ first ≤ n ∧ n < last

/-- The branches among some marks go to labels whose numbers lie outside of an interval. -/
def BranchesOutside (first last : Nat) (ms : List Mark) : Prop :=
  ∀ l, Mark.target l ∈ ms → ∃ w n, l = numberedLabel w n ∧ (n < first ∨ last ≤ n)

lemma Expr.branchesWithin_marks (e : Expr Nat) (label : Nat) :
    BranchesWithin label (label + e.labelCount) (e.marks label) := by
  intro l hl
  have hdefined := mem_definedLabels.mpr (e.closed_marks label l hl)
  obtain ⟨w, n, -, rfl, hfirst, hlast⟩ := (e.numbered_marks label).numbers l hdefined
  exact ⟨w, n, rfl, hfirst, hlast⟩

lemma Stmt.branchesWithin_marks (st : Stmt Nat) (label : Nat) :
    BranchesWithin label (label + st.labelCount) (st.marks label) := by
  intro l hl
  have hdefined := mem_definedLabels.mpr (st.closed_marks label l hl)
  obtain ⟨w, n, -, rfl, hfirst, hlast⟩ := (st.numbered_marks label).numbers l hdefined
  exact ⟨w, n, rfl, hfirst, hlast⟩

namespace BranchesOutside

variable {first last : Nat} {ms ns : List Mark}

lemma nil : BranchesOutside first last [] := by
  simp [BranchesOutside]

lemma append (h : BranchesOutside first last ms) (h' : BranchesOutside first last ns) :
    BranchesOutside first last (ms ++ ns) :=
  fun l hl => (List.mem_append.mp hl).elim (h l) (h' l)

lemma target {w : String} {n : Nat} (h : n < first ∨ last ≤ n)
    (hms : BranchesOutside first last ms) :
    BranchesOutside first last (.target (numberedLabel w n) :: ms) := by
  intro l hl
  rcases List.mem_cons.mp hl with heq | hl
  · exact ⟨w, n, Mark.target.inj heq, h⟩
  · exact hms l hl

lemma label {l : String} (hms : BranchesOutside first last ms) :
    BranchesOutside first last (.label l :: ms) := by
  intro k hk
  rcases List.mem_cons.mp hk with heq | hk
  · cases heq
  · exact hms k hk

lemma mono {first' last' : Nat} (h : BranchesOutside first last ms) (hfirst : first ≤ first')
    (hlast : last' ≤ last) : BranchesOutside first' last' ms := by
  intro l hl
  obtain ⟨w, n, rfl, hn⟩ := h l hl
  exact ⟨w, n, rfl, by omega⟩

lemma of_within {m k : Nat} (h : BranchesWithin m k ms) (hapart : k ≤ first ∨ last ≤ m) :
    BranchesOutside first last ms := by
  intro l hl
  obtain ⟨w, n, rfl, hm, hk⟩ := h l hl
  exact ⟨w, n, rfl, by omega⟩

end BranchesOutside

/-- The code of one statement is a piece of the code of another, with labels of its own that no
branch from outside of the piece goes to. -/
def Stmt.PlacedIn (config : Config) (x st : Stmt Nat) : Prop :=
  ∀ label, ∃ (before after : List Line) (first : Nat),
    st.emit config label = before ++ x.emit config first ++ after ∧ label ≤ first ∧
      first + x.labelCount ≤ label + st.labelCount ∧
      BranchesOutside first (first + x.labelCount) (outline (before ++ after))

namespace Stmt.PlacedIn

variable {config : Config} {x a b st : Stmt Nat} {c : Expr Nat}

lemma refl (x : Stmt Nat) : x.PlacedIn config x :=
  fun label => ⟨[], [], label, by simp, le_rfl, le_rfl, .nil⟩

lemma trans (hx : x.PlacedIn config a) (ha : a.PlacedIn config st) : x.PlacedIn config st := by
  intro label
  obtain ⟨before, after, first, heq, hle, hlast, hout⟩ := ha label
  obtain ⟨before', after', first', heq', hle', hlast', hout'⟩ := hx first
  refine ⟨before ++ before', after' ++ after, first', ?_, by omega, by omega, ?_⟩
  · simp [heq, heq']
  · have hwide := hout.mono hle' hlast'
    simp only [outline_append] at hwide hout' ⊢
    intro l hl
    simp only [List.mem_append] at hl
    rcases hl with (hl | hl) | (hl | hl)
    · exact hwide l (by simp [hl])
    · exact hout' l (by simp [hl])
    · exact hout' l (by simp [hl])
    · exact hwide l (by simp [hl])

/-- The code that tests a condition branches to the label it is given and to its own. -/
lemma branchesOutside_test {first last : Nat} (c : Expr Nat) (w : String) (n label : Nat)
    (hn : n < first ∨ last ≤ n) (hlabel : label + c.labelCount ≤ first ∨ last ≤ label) :
    BranchesOutside first last
      (outline (c.emit config (.branchUnless (numberedLabel w n)) 0 label)) := by
  rw [Expr.outline_emit]
  exact .append (.of_within (c.branchesWithin_marks label) hlabel) (.target hn .nil)

lemma branchesOutside_emit {first last : Nat} (st : Stmt Nat) (label : Nat)
    (hlabel : label + st.labelCount ≤ first ∨ last ≤ label) :
    BranchesOutside first last (outline (st.emit config label)) := by
  rw [Stmt.outline_emit]
  exact .of_within (st.branchesWithin_marks label) hlabel

lemma block (n : Nat) (a : Stmt Nat) : a.PlacedIn config (.block n a) :=
  fun label => ⟨[.instr (config.backend.loadConstant 0 0),
    .instr (config.backend.storeVariable 0 n)], [], label, by simp [Stmt.emit], le_rfl, le_rfl,
    by simpa using .nil⟩

lemma first (a b : Stmt Nat) : a.PlacedIn config (.seq a b) := by
  intro label
  refine ⟨[], b.emit config (label + a.labelCount), label, by simp [Stmt.emit], le_rfl, ?_, ?_⟩
  · simp only [Stmt.labelCount]
    omega
  · exact branchesOutside_emit b _ (.inr le_rfl)

lemma second (a b : Stmt Nat) : b.PlacedIn config (.seq a b) := by
  intro label
  refine ⟨a.emit config label, [], label + a.labelCount, by simp [Stmt.emit], by omega, ?_, ?_⟩
  · simp only [Stmt.labelCount]
    omega
  · rw [List.append_nil]
    exact branchesOutside_emit a _ (.inl le_rfl)

lemma thenBranch (c : Expr Nat) (a b : Stmt Nat) : a.PlacedIn config (.ifElse c a b) := by
  intro label
  refine ⟨c.emit config (.branchUnless (numberedLabel "else" label)) 0 (label + 2),
    [Line.instr (.branch (numberedLabel "end" (label + 1))),
        Line.label (numberedLabel "else" label)] ++
      b.emit config (label + 2 + c.labelCount + a.labelCount) ++
      [Line.label (numberedLabel "end" (label + 1))],
    label + 2 + c.labelCount, by simp [Stmt.emit], by omega, ?_, ?_⟩
  · simp only [Stmt.labelCount]
    omega
  · rw [outline_append, outline_append, outline_append]
    refine .append (branchesOutside_test c _ _ _ (by omega) (by omega)) (.append (.append ?_ ?_) ?_)
    · exact .target (by omega) (.label .nil)
    · exact branchesOutside_emit b _ (.inr le_rfl)
    · exact .label .nil

lemma elseBranch (c : Expr Nat) (a b : Stmt Nat) : b.PlacedIn config (.ifElse c a b) := by
  intro label
  refine ⟨c.emit config (.branchUnless (numberedLabel "else" label)) 0 (label + 2) ++
      a.emit config (label + 2 + c.labelCount) ++
      [Line.instr (.branch (numberedLabel "end" (label + 1))),
        Line.label (numberedLabel "else" label)],
    [Line.label (numberedLabel "end" (label + 1))],
    label + 2 + c.labelCount + a.labelCount, by simp [Stmt.emit], by omega, ?_, ?_⟩
  · simp only [Stmt.labelCount]
    omega
  · rw [outline_append, outline_append, outline_append]
    refine .append (.append (.append ?_ ?_) ?_) (.label .nil)
    · exact branchesOutside_test c _ _ _ (by omega) (by omega)
    · exact branchesOutside_emit a _ (.inl le_rfl)
    · exact .target (by omega) (.label .nil)

lemma ifThen (c : Expr Nat) (a : Stmt Nat) : a.PlacedIn config (.ifThen c a) := by
  intro label
  refine ⟨c.emit config (.branchUnless (numberedLabel "end" label)) 0 (label + 1),
    [Line.label (numberedLabel "end" label)], label + 1 + c.labelCount, by simp [Stmt.emit],
    by omega, ?_, ?_⟩
  · simp only [Stmt.labelCount]
    omega
  · rw [outline_append]
    exact .append (branchesOutside_test c _ _ _ (by omega) (by omega)) (.label .nil)

lemma whileDo (c : Expr Nat) (a : Stmt Nat) : a.PlacedIn config (.whileDo c a) := by
  intro label
  refine ⟨[Line.label (numberedLabel "while" label)] ++
      c.emit config (.branchUnless (numberedLabel "done" (label + 1))) 0 (label + 2),
    [Line.instr (.branch (numberedLabel "while" label)),
      Line.label (numberedLabel "done" (label + 1))],
    label + 2 + c.labelCount, by simp [Stmt.emit], by omega, ?_, ?_⟩
  · simp only [Stmt.labelCount]
    omega
  · rw [outline_append, outline_append]
    refine .append (.append (.label .nil) ?_) (.target (by omega) (.label .nil))
    exact branchesOutside_test c _ _ _ (by omega) (by omega)

lemma repeatUntil (a : Stmt Nat) (c : Expr Nat) : a.PlacedIn config (.repeatUntil a c) := by
  intro label
  refine ⟨[Line.label (numberedLabel "repeat" label)],
    c.emit config (.branchUnless (numberedLabel "repeat" label)) 0 (label + 1 + a.labelCount),
    label + 1, by simp [Stmt.emit], by omega, ?_, ?_⟩
  · simp only [Stmt.labelCount]
    omega
  · rw [outline_append]
    exact .append (.label .nil) (branchesOutside_test c _ _ _ (by omega) (by omega))

end Stmt.PlacedIn

lemma Stmt.PartOf.placedIn {x st : Stmt Nat} (h : x.PartOf st) (config : Config) :
    x.PlacedIn config st := by
  induction h with
  | self => exact .refl x
  | block _ ih => exact ih.trans (.block _ _)
  | first _ ih => exact ih.trans (.first _ _)
  | second _ ih => exact ih.trans (.second _ _)
  | thenBranch _ ih => exact ih.trans (.thenBranch _ _ _)
  | elseBranch _ ih => exact ih.trans (.elseBranch _ _ _)
  | ifThen _ ih => exact ih.trans (.ifThen _ _)
  | whileDo _ ih => exact ih.trans (.whileDo _ _)
  | repeatUntil _ ih => exact ih.trans (.repeatUntil _ _)

end Izmir
