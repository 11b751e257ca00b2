import Izmir.Proofs.Outline
import Izmir.Proofs.Texts

/-!
# The labels of compiled code

Every label has a number of its own: the code of a tree takes its labels from an interval of
numbers, one for each label that the tree needs, and uses none of them twice. A branch goes to a
label that the same tree defines, unless it is the one that leaves a condition.
-/

namespace Izmir

open Text

/-! ### Numbers of labels -/

lemma underscore_notMem_ofNat (n : Nat) : '_' ∉ Decimal.ofNat n := by
  intro h
  exact ne_of_class (p := Char.isDigit) (Decimal.isDigit_of_mem_ofNat h) (by decide) rfl

/-- A label tells its number, whatever word it starts with. -/
lemma number_eq_of_numberedLabel_eq {w w' : String} {n n' : Nat}
    (h : numberedLabel w n = numberedLabel w' n') : n = n' := by
  -- The number stands behind the last underscore.
  have hnumber (w : String) (n : Nat) :
      ((numberedLabel w n).toList.reverse.takeWhile (· != '_')) = (Decimal.ofNat n).reverse := by
    have hall : ∀ c ∈ (Decimal.ofNat n).reverse, (c != '_') = true := by
      intro c hc
      rw [bne_iff_ne]
      rintro rfl
      exact underscore_notMem_ofNat n (List.mem_reverse.mp hc)
    rw [numberedLabel, String.toList_ofList, List.reverse_append, List.reverse_cons,
      List.append_assoc, List.takeWhile_append_of_pos hall]
    simp
  have hdigits : Decimal.ofNat n = Decimal.ofNat n' := by
    rw [← List.reverse_inj, ← hnumber w n, ← hnumber w' n', h]
  exact Option.some.inj (by rw [← Decimal.digits?_ofNat n, hdigits, Decimal.digits?_ofNat])

lemma isName_numberedLabel {w : String} (h : isName w.toList) (n : Nat) :
    isName (numberedLabel w n).toList := by
  rw [numberedLabel, String.toList_ofList]
  cases hw : w.toList with
  | nil =>
    rw [hw] at h
    cases h
  | cons c cs =>
    rw [hw] at h
    obtain ⟨hc, hcs⟩ := Bool.and_eq_true_iff.mp h
    have hdigits : (Decimal.ofNat n).all continuesName :=
      List.all_eq_true.mpr fun d hd =>
        continuesName_iff.mpr (.inr (Decimal.isDigit_of_mem_ofNat hd))
    have hunderscore : continuesName '_' = true := by decide
    simp [isName, hc, List.all_append, hcs, hdigits, hunderscore]

/-- Labels with different numbers among the `count` numbers from `first` on. -/
structure Numbered (first count : Nat) (ls : List String) : Prop where
  distinct : ls.Nodup
  numbers : ∀ l ∈ ls, ∃ w n, isName w.toList ∧ l = numberedLabel w n ∧ first ≤ n ∧
    n < first + count

namespace Numbered

variable {first m n : Nat} {ls ls' : List String}

lemma nil (first : Nat) : Numbered first 0 [] :=
  ⟨List.nodup_nil, by simp⟩

lemma singleton {w : String} (hw : isName w.toList) (first : Nat) :
    Numbered first 1 [numberedLabel w first] :=
  ⟨List.nodup_singleton _, List.forall_mem_singleton.mpr
    ⟨w, first, hw, rfl, le_rfl, Nat.lt_succ_self first⟩⟩

/-- Labels from two intervals, one behind the other. -/
lemma append (h : Numbered first m ls) (h' : Numbered (first + m) n ls') :
    Numbered first (m + n) (ls ++ ls') := by
  refine ⟨List.nodup_append.mpr ⟨h.distinct, h'.distinct, ?_⟩, ?_⟩
  · rintro l hl _ hl' rfl
    obtain ⟨w, k, -, rfl, -, hk⟩ := h.numbers l hl
    obtain ⟨w', k', -, heq, hk', -⟩ := h'.numbers _ hl'
    have := number_eq_of_numberedLabel_eq heq
    omega
  · intro l hl
    rcases List.mem_append.mp hl with hl | hl
    · obtain ⟨w, k, hw, rfl, hfirst, hk⟩ := h.numbers l hl
      exact ⟨w, k, hw, rfl, hfirst, by omega⟩
    · obtain ⟨w, k, hw, rfl, hfirst, hk⟩ := h'.numbers l hl
      exact ⟨w, k, hw, rfl, by omega, by omega⟩

/-- The order of the labels does not matter. -/
lemma perm (h : Numbered first m ls) (hmn : m = n) (hls : ls.Perm ls') :
    Numbered first n ls' := by
  subst hmn
  exact ⟨hls.nodup_iff.mp h.distinct, fun l hl => h.numbers l (hls.mem_iff.mpr hl)⟩

lemma isName (h : Numbered first m ls) : ∀ l ∈ ls, Text.isName l.toList := by
  intro l hl
  obtain ⟨w, k, hw, rfl, -, -⟩ := h.numbers l hl
  exact isName_numberedLabel hw k

end Numbered

/-! ### Labels of trees -/

lemma Expr.numbered_marksAll {es : List (Expr Nat)} {label : Nat}
    (h : ∀ e ∈ es, ∀ label, Numbered label e.labelCount (definedLabels (e.marks label))) :
    Numbered label (Expr.labelCountAll es) (definedLabels (Expr.marksAll es label)) := by
  induction es generalizing label with
  | nil => exact .nil label
  | cons e es ih =>
    obtain ⟨he, hes⟩ := List.forall_mem_cons.mp h
    rw [Expr.marksAll, definedLabels_append]
    exact (he label).append (ih hes)

/-- The labels of a choice come before those of its parts, though they are defined among them. -/
lemma Numbered.branches {label i j k : Nat} {cs as bs : List String}
    (hc : Numbered (label + 2) i cs) (ha : Numbered (label + 2 + i) j as)
    (hb : Numbered (label + 2 + i + j) k bs) :
    Numbered label (2 + i + j + k) (cs ++
      (as ++ (numberedLabel "else" label :: (bs ++ [numberedLabel "end" (label + 1)])))) := by
  have helse : Numbered label 1 [numberedLabel "else" label] := .singleton (by decide) label
  have hend : Numbered (label + 1) 1 [numberedLabel "end" (label + 1)] :=
    .singleton (by decide) (label + 1)
  refine (helse.append (hend.append (hc.append (ha.append hb)))).perm (by omega) ?_
  rw [List.perm_iff_count]
  intro l
  simp only [List.count_append, List.count_cons, List.count_nil]
  omega

lemma Expr.numbered_marks (e : Expr Nat) (label : Nat) :
    Numbered label e.labelCount (definedLabels (e.marks label)) := by
  induction e generalizing label with
  | literal v => exact .nil label
  | var n => exact .nil label
  | ifElse c a b hc ha hb =>
    have h := Numbered.branches (hc (label + 2)) (ha (label + 2 + c.labelCount))
      (hb (label + 2 + c.labelCount + a.labelCount))
    simpa [Expr.marks, Expr.labelCount] using h
  | apply p es hes => exact Expr.numbered_marksAll hes
  | call f es hes =>
    rw [Expr.marks, definedLabels_append, definedLabels_call, definedLabels_nil, List.append_nil]
    exact Expr.numbered_marksAll hes

lemma Stmt.numbered_marks (st : Stmt Nat) (label : Nat) :
    Numbered label st.labelCount (definedLabels (st.marks label)) := by
  induction st generalizing label with
  | skip => exact .nil label
  | block n a ha => exact ha label
  | assign n e => exact e.numbered_marks label
  | print e => exact e.numbered_marks label
  | seq a b ha hb =>
    rw [Stmt.marks, definedLabels_append]
    exact (ha label).append (hb _)
  | ifElse c a b ha hb =>
    have h := Numbered.branches (c.numbered_marks (label + 2)) (ha (label + 2 + c.labelCount))
      (hb (label + 2 + c.labelCount + a.labelCount))
    simpa [Stmt.marks, Stmt.labelCount] using h
  | ifThen c a ha =>
    have hend : Numbered label 1 [numberedLabel "end" label] := .singleton (by decide) label
    have h := hend.append ((c.numbered_marks (label + 1)).append (ha (label + 1 + c.labelCount)))
    refine h.perm (Nat.add_assoc _ _ _).symm ?_
    simpa [Stmt.marks] using (List.perm_append_singleton (numberedLabel "end" label)
      (definedLabels (c.marks (label + 1)) ++
        definedLabels (a.marks (label + 1 + c.labelCount)))).symm
  | whileDo c a ha =>
    have hwhile : Numbered label 1 [numberedLabel "while" label] := .singleton (by decide) label
    have hdone : Numbered (label + 1) 1 [numberedLabel "done" (label + 1)] :=
      .singleton (by decide) (label + 1)
    have h := hwhile.append
      (hdone.append ((c.numbered_marks (label + 2)).append (ha (label + 2 + c.labelCount))))
    refine h.perm (by simp only [Stmt.labelCount]; omega) ?_
    simpa [Stmt.marks] using (List.perm_append_singleton (numberedLabel "done" (label + 1))
      (definedLabels (c.marks (label + 2)) ++
        definedLabels (a.marks (label + 2 + c.labelCount)))).symm
  | repeatUntil a c ha =>
    have hrepeat : Numbered label 1 [numberedLabel "repeat" label] := .singleton (by decide) label
    have h := hrepeat.append
      ((ha (label + 1)).append (c.numbered_marks (label + 1 + a.labelCount)))
    refine h.perm (Nat.add_assoc _ _ _).symm ?_
    simp [Stmt.marks]
  | ret e => exact e.numbered_marks label
  | call f es =>
    rw [Stmt.marks, definedLabels_append, definedLabels_call, definedLabels_nil, List.append_nil]
    exact Expr.numbered_marksAll fun e _ => e.numbered_marks

/-! ### Branches of trees -/

/-- Every label that is branched to is defined. -/
def ClosedMarks (ms : List Mark) : Prop :=
  ∀ l, Mark.target l ∈ ms → Mark.label l ∈ ms

lemma Expr.closed_marksAll {es : List (Expr Nat)} {label : Nat}
    (h : ∀ e ∈ es, ∀ label, ClosedMarks (e.marks label)) :
    ClosedMarks (Expr.marksAll es label) := by
  induction es generalizing label with
  | nil => simp [ClosedMarks, Expr.marksAll]
  | cons e es ih =>
    obtain ⟨he, hes⟩ := List.forall_mem_cons.mp h
    intro l hl
    rw [Expr.marksAll, List.mem_append] at hl ⊢
    exact hl.imp (he label l) (ih hes l)

lemma Expr.closed_marks (e : Expr Nat) (label : Nat) : ClosedMarks (e.marks label) := by
  induction e generalizing label with
  | literal v => simp [ClosedMarks, Expr.marks]
  | var n => simp [ClosedMarks, Expr.marks]
  | ifElse c a b hc ha hb =>
    intro l
    have hc := hc (label + 2) l
    have ha := ha (label + 2 + c.labelCount) l
    have hb := hb (label + 2 + c.labelCount + a.labelCount) l
    simp only [Expr.marks, List.mem_append, List.mem_cons, List.not_mem_nil, reduceCtorEq,
      Mark.target.injEq, Mark.label.injEq]
    tauto
  | apply p es hes => exact Expr.closed_marksAll hes
  | call f es hes =>
    intro l hl
    have hes : ClosedMarks (Expr.marksAll es label) := Expr.closed_marksAll hes
    simp only [Expr.marks, List.mem_append, List.mem_singleton, reduceCtorEq, or_false] at hl ⊢
    exact hes l hl

lemma Stmt.closed_marks (st : Stmt Nat) (label : Nat) : ClosedMarks (st.marks label) := by
  induction st generalizing label with
  | skip => simp [ClosedMarks, Stmt.marks]
  | block n a ha => exact ha label
  | assign n e => exact e.closed_marks label
  | print e => exact e.closed_marks label
  | seq a b ha hb =>
    intro l hl
    rw [Stmt.marks, List.mem_append] at hl ⊢
    exact hl.imp (ha label l) (hb _ l)
  | ifElse c a b ha hb =>
    intro l
    have hc := c.closed_marks (label + 2) l
    have ha := ha (label + 2 + c.labelCount) l
    have hb := hb (label + 2 + c.labelCount + a.labelCount) l
    simp only [Stmt.marks, List.mem_append, List.mem_cons, List.not_mem_nil, reduceCtorEq,
      Mark.target.injEq, Mark.label.injEq]
    tauto
  | ifThen c a ha =>
    intro l
    have hc := c.closed_marks (label + 1) l
    have ha := ha (label + 1 + c.labelCount) l
    simp only [Stmt.marks, List.mem_append, List.mem_cons, List.not_mem_nil, reduceCtorEq,
      Mark.target.injEq, Mark.label.injEq]
    tauto
  | whileDo c a ha =>
    intro l
    have hc := c.closed_marks (label + 2) l
    have ha := ha (label + 2 + c.labelCount) l
    simp only [Stmt.marks, List.mem_append, List.mem_cons, List.not_mem_nil, reduceCtorEq,
      Mark.target.injEq, Mark.label.injEq]
    tauto
  | repeatUntil a c ha =>
    intro l
    have ha := ha (label + 1) l
    have hc := c.closed_marks (label + 1 + a.labelCount) l
    simp only [Stmt.marks, List.mem_append, List.mem_cons, List.not_mem_nil, reduceCtorEq,
      Mark.target.injEq, Mark.label.injEq]
    tauto
  | ret e => exact e.closed_marks label
  | call f es =>
    intro l hl
    have hes : ClosedMarks (Expr.marksAll es label) :=
      Expr.closed_marksAll fun e _ => e.closed_marks
    simp only [Stmt.marks, List.mem_append, List.mem_singleton, reduceCtorEq, or_false] at hl ⊢
    exact hes l hl

end Izmir
