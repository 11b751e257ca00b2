import Izmir.Proofs.Steps
import Izmir.Proofs.Trees

/-!
# Emitted code does what its tree does

The code of an expression carries out its evaluation, for whatever purpose it was emitted, and
the code of a statement carries out its execution. Both inductions follow the trees; a loop
takes an induction on its rounds besides.
-/

namespace Izmir

open Machine

variable {x : Executable} {sink : Sink} {table : List (String × Nat × Nat)} {ref : RoutineRef}
  {r : Executable.Routine} {code : List Line} {slots : Slots} {config : Config}
  {fuel n next label : Nat} {s t : State} {call : String → List Value → Action Value}

lemma StepsTo.carries {P : State → Prop} {α : Type} {m : Action α} {post : α → State → Prop}
    (h : StepsTo x sink t P)
    (hP : ∀ u, P u → Carries x sink fuel u (m (u.world sink)) post) :
    Carries x sink fuel t (m (t.world sink)) post := by
  obtain ⟨u, hstep, hw, hu⟩ := h
  rw [← hw]
  exact .step' hstep (hP u hu)

lemma StepsTo.mono {P Q : State → Prop} (h : StepsTo x sink t P) (hPQ : ∀ u, P u → Q u) :
    StepsTo x sink t Q := by
  obtain ⟨u, hstep, hw, hu⟩ := h
  exact ⟨u, hstep, hw, hPQ u hu⟩

/-- Steps at the end that compute nothing more. -/
lemma Carries.trans {α : Type} {q : Result α} {post post' : α → State → Prop}
    (h : Carries x sink fuel s q post)
    (h' : ∀ a t, post a t →
      Carries x sink fuel t ((Pure.pure a : Action α) (t.world sink)) post') :
    Carries x sink fuel s q post' := by
  cases q with
  | done a w =>
    obtain ⟨k, t, hk, rfl, ht⟩ := h
    obtain ⟨l, u, hl, hw, hu⟩ := h' a t ht
    refine ⟨k + l, u, ?_, hw, hu⟩
    rw [after_add, hk]
    exact hl
  | failed e w => exact h
  | stuck w => exact h
  | outOfFuel w => exact h

/-- What the code of an expression has achieved when its purpose is served: the value is in its
location, or the next step goes where the value says. -/
def Purpose.Served (x : Executable) (sink : Sink) (table : List (String × Nat × Nat))
    (ref : RoutineRef) (r : Executable.Routine) (code : List Line) (b : Backend) (slots : Slots)
    (n next : Nat) (s : State) : Purpose → Value → State → Prop
  | .value l, v, t => Computed b ref r slots n next [l] [v] s t
  | .branchUnless label, v, t =>
    ∀ k, (Link.contextOf table r.name code).target label = .ok k →
      StepsTo x sink t (Computed b ref r slots (if v = 0 then k else n) next [] [] s)

/-- Code that leaves a value in a location can be made to serve each purpose. -/
lemma Purpose.deliver_carries (h : Linked x table ref r code) {purpose : Purpose}
    {value : Nat → Nat → List Line} {m : Action Value}
    (hvalue : ∀ l next, Embeds code n (value l next) →
      Carries x sink fuel s (m (s.world sink)) fun v t =>
        Computed config.backend ref r slots (n + codeSize (value l next)) next [l] [v] s t)
    (he : Embeds code n (purpose.deliver config next value)) :
    Carries x sink fuel s (m (s.world sink))
      (purpose.Served x sink table ref r code config.backend slots
        (n + codeSize (purpose.deliver config next value)) next s) := by
  cases purpose with
  | value l => exact hvalue l next he
  | branchUnless label =>
    refine (hvalue next (next + 1) he.left).mono ?_
    intro v t ht k hk
    have hzero : Condition.zero.holds? [v] = some (decide (v = 0)) := rfl
    have hsteps : StepsTo x sink t _ :=
      h.branchIf_stepsTo ht he.right rfl (Nat.le_succ next) (by simp) hk hzero
    simpa [deliver, Nat.add_assoc] using hsteps

/-- The code of an expression carries out its evaluation and serves its purpose, wherever it
stands in the code. -/
def Expr.Carried (x : Executable) (sink : Sink) (table : List (String × Nat × Nat))
    (ref : RoutineRef) (r : Executable.Routine) (code : List Line) (config : Config) (fuel : Nat)
    (call : String → List Value → Action Value) (e : Expr Nat) : Prop :=
  ∀ ⦃slots : Slots⦄ ⦃purpose : Purpose⦄ ⦃n next label : Nat⦄ ⦃s : State⦄,
    Embeds code n (e.emit config purpose next label) → s.At ref r slots n →
    Carries x sink fuel s (e.eval call r.name.text slots (s.world sink))
      (purpose.Served x sink table ref r code config.backend slots
        (n + codeSize (e.emit config purpose next label)) next s)

/-- Operands are computed from left to right, into consecutive locations. -/
lemma Expr.emitAll_carries {es : List (Expr Nat)}
    (hes : ∀ e ∈ es, e.Carried x sink table ref r code config fuel call)
    (he : Embeds code n (Expr.emitAll config es next label)) (hs : s.At ref r slots n) :
    Carries x sink fuel s (Expr.evalAll call r.name.text slots es (s.world sink)) fun vs t =>
      vs.length = es.length ∧
        Computed config.backend ref r slots (n + codeSize (Expr.emitAll config es next label)) next
          (List.range' next es.length) vs s t := by
  induction es generalizing n next label s with
  | nil =>
    rw [Expr.evalAll]
    exact .pure ⟨rfl, .refl hs⟩
  | cons e es ih =>
    rw [Expr.evalAll]
    simp only [Expr.emitAll] at he ⊢
    refine .bind ((hes e (by simp) he.left hs).mono ?_)
    intro v t ht
    have ht : Computed config.backend ref r slots _ (next + 1) [next] [v] s t := ht
    refine .bind ((ih (fun e hmem => hes e (by simp [hmem])) he.right ht.here).mono ?_)
    rintro vs u ⟨hlen, hu⟩
    refine .pure ⟨by simp [hlen], ?_⟩
    rw [List.length_cons, List.range'_succ, codeSize_append, ← Nat.add_assoc]
    exact ht.cons hu (by simp; omega)

/-- Two branches that join. From the end of the first one a jump leads to the end of the
second, unless control has left the routine. -/
lemma branches_carry {α : Type} (h : Linked x table ref r code) {otherwise done : String}
    {cond first second : List Line} {c : Action Value} {f g : Action α}
    {P : Nat → α → State → Prop}
    (he : Embeds code n (cond ++ first ++ [Line.instr (.branch done), Line.label otherwise] ++
      second ++ [Line.label done]))
    (hcond : Carries x sink fuel s (c (s.world sink))
      ((Purpose.branchUnless otherwise).Served x sink table ref r code config.backend slots
        (n + codeSize cond) next s))
    (hfirst : ∀ m u, Embeds code m first →
      Computed config.backend ref r slots m next [] [] s u →
      Carries x sink fuel u (f (u.world sink)) (P (m + codeSize first)))
    (hsecond : ∀ m u, Embeds code m second →
      Computed config.backend ref r slots m next [] [] s u →
      Carries x sink fuel u (g (u.world sink)) (P (m + codeSize second)))
    (hjump : ∀ m k rest, Embeds code m (.instr (.branch done) :: rest) →
      (Link.contextOf table r.name code).target done = .ok k → ∀ a t, P m a t →
      Carries x sink fuel t ((pure a : Action α) (t.world sink)) (P k)) :
    Carries x sink fuel s ((c >>= fun v => if v ≠ 0 then f else g) (s.world sink))
      (P (n + codeSize (cond ++ first ++ [Line.instr (.branch done), Line.label otherwise] ++
        second ++ [Line.label done]))) := by
  have hcode := he.left.left
  have helse := h.target hcode.right.tail_instr
  have hdone := h.target he.right
  have hend : ∀ lines : List Line, codeSize (lines ++ [.label done]) = codeSize lines := by simp
  rw [hend]
  refine .bind (hcond.mono fun v t ht => ?_)
  have hsteps := ht _ helse
  by_cases hv : v = 0
  · rw [if_pos hv] at hsteps
    rw [if_neg (not_not_intro hv)]
    have hsecond' := fun u => hsecond _ u he.left.right
    rw [codeSize_append _ second, ← Nat.add_assoc]
    simp only [codeSize_append, ← Nat.add_assoc] at hsecond' hsteps ⊢
    exact hsteps.carries hsecond'
  · rw [if_neg hv] at hsteps
    rw [if_pos hv]
    refine hsteps.carries fun u hu => ?_
    refine (hfirst _ u hcode.left.right hu).trans ?_
    have hjump' := hjump _ _ _ hcode.right hdone
    rwa [codeSize_append cond first, ← Nat.add_assoc] at hjump'

lemma Expr.emit_carries (h : Linked x table ref r code)
    (hcalls : CallsCarried x sink table config.backend fuel call) (e : Expr Nat)
    (hw : e.WellApplied) : e.Carried x sink table ref r code config fuel call := by
  induction e with
  | literal v =>
    intro slots purpose n next label s he hs
    rw [Expr.eval]
    rw [Expr.emit] at he ⊢
    refine Purpose.deliver_carries h (fun l next he => ?_) he
    exact (h.loadConstant_stepsTo next hs he).carries fun u hu => .pure hu
  | var k =>
    intro slots purpose n next label s he hs
    rw [Expr.eval]
    rw [Expr.emit] at he ⊢
    exact Purpose.deliver_carries h (fun l next he => h.loadVariable_carries hs he) he
  | ifElse c a b hc ha hb =>
    intro slots purpose n next label s he hs
    rw [Expr.eval]
    rw [Expr.emit] at he ⊢
    obtain ⟨hwc, hwa, hwb⟩ := hw
    refine Purpose.deliver_carries h (fun l next he => ?_) he
    exact branches_carry (P := fun n v t => Computed config.backend ref r slots n next [l] [v] s t)
      h he (hc hwc he.left.left.left.left hs)
      (fun m u he hu => (ha hwa he hu.here).mono fun v t ht => hu.trans ht)
      (fun m u he hu => (hb hwb he hu.here).mono fun v t ht => hu.trans ht)
      (fun m k rest he hk v t ht => (h.branch_stepsTo ht he hk).carries fun u hu => .pure hu)
  | apply p es hes =>
    intro slots purpose n next label s he hs
    obtain ⟨hlen, hall⟩ := hw
    have hfree {next : Nat} : ∀ l ∈ List.range' next es.length, next ≤ l :=
      fun l hl => (List.mem_range'_1.mp hl).1
    have hes' : ∀ e ∈ es, e.Carried x sink table ref r code config fuel call := fun e hmem =>
      hes e hmem (hall.of_mem hmem)
    rw [Expr.eval]
    rw [Expr.emit] at he ⊢
    cases hfold : purpose.folded? config p with
    | some target =>
      obtain ⟨c, target⟩ := target
      obtain ⟨rfl, q, hq, hc⟩ := Purpose.folded?_eq_some hfold
      rw [hfold] at he
      refine .bind ((Expr.emitAll_carries hes' he.left hs).mono ?_)
      rintro vs t ⟨hvs, ht⟩
      obtain ⟨v, hv, hholds⟩ := Condition.holds?_of_reverse r.name.text hq hc (hvs.trans hlen)
      rw [hv]
      refine .pure fun k hk => ?_
      have hsteps : StepsTo x sink t _ :=
        h.branchIf_stepsTo ht he.right (Condition.length_of_holds? hholds) le_rfl hfree hk hholds
      simpa [Nat.add_assoc] using hsteps
    | none =>
      rw [hfold] at he
      refine Purpose.deliver_carries h (fun l next he => ?_) he
      refine .bind ((Expr.emitAll_carries hes' he.left hs).mono ?_)
      rintro vs t ⟨hvs, ht⟩
      refine (h.apply_carries ht he.right (hvs.trans hlen) (by simp [hvs]) le_rfl hfree).mono ?_
      intro v u hu
      simpa [Nat.add_assoc] using hu
  | call f es hes =>
    intro slots purpose n next label s he hs
    have hes' : ∀ e ∈ es, e.Carried x sink table ref r code config fuel call := fun e hmem =>
      hes e hmem (Expr.AllWellApplied.of_mem hw hmem)
    rw [Expr.eval]
    rw [Expr.emit] at he ⊢
    refine Purpose.deliver_carries h (fun l next he => ?_) he
    refine .bind ((Expr.emitAll_carries hes' he.left hs).mono ?_)
    rintro vs t ⟨hvs, ht⟩
    have hcall := he.right
    rw [← hvs] at ht hcall
    refine (h.call_carries hcalls ht hcall le_rfl le_rfl).mono ?_
    intro v u hu
    simpa [Nat.add_assoc] using hu

/-! ### Statements -/

/-- Where the code of a statement leads: past its end with the variables in their slots and
nothing left behind, or out of the routine with a value. -/
def Flow.Reached (x : Executable) (sink : Sink) (ref : RoutineRef) (r : Executable.Routine)
    (b : Backend) (s : State) (n : Nat) : Flow Slots → State → Prop
  | .next slots, t => Computed b ref r slots n 0 [] [] s t
  | .returned v, t => Returns x sink s v t

lemma Flow.Reached.after {b : Backend} {m : Nat} {u : State} {flow : Flow Slots}
    (h : Computed b ref r slots m 0 [] [] s u) (h' : flow.Reached x sink ref r b u n t) :
    flow.Reached x sink ref r b s n t := by
  cases flow with
  | next slots' => exact h.trans h'
  | returned v =>
    obtain ⟨w, hstep, hw, hcallers, hto, hstack⟩ := h'
    refine ⟨w, hstep, hw, hcallers.trans h.callers, hto.trans h.returnTo, hstack.trans ?_⟩
    have hdelivered := h.values
    cases b with
    | stack => exact hdelivered
    | register => exact hdelivered.1

/-- Rounds of a loop, when after each but the last a step leads back to where rounds begin. That
step pays for the round. -/
lemma loop_carries {round : Slots → Action (Round Slots)} {I : Slots → State → Prop}
    {P : Flow Slots → State → Prop}
    (hround : ∀ slots s, I slots s →
      Carries x sink fuel s (round slots (s.world sink)) fun q t =>
        match q with
        | .again slots => StepsTo x sink t (I slots)
        | .over flow => P flow t)
    {k : Nat} (hk : k ≤ fuel) (hs : I slots s) :
    Carries x sink k s (loop round k slots (s.world sink)) P := by
  induction k generalizing slots s with
  | zero => exact ⟨0, s, le_rfl, rfl, rfl⟩
  | succ k ih =>
    rw [loop]
    refine .bind (((hround slots s hs).weaken hk).mono ?_)
    rintro (slots | flow) t ht
    · obtain ⟨u, hstep, hw, hu⟩ := ht
      dsimp only
      rw [← hw]
      exact .step hstep (ih (Nat.le_of_succ_le hk) hu)
    · exact .pure ht

/-- The code of a statement carries out its execution, wherever it stands in the code. -/
def Stmt.Carried (x : Executable) (sink : Sink) (ref : RoutineRef) (r : Executable.Routine)
    (code : List Line) (config : Config) (fuel : Nat)
    (call : String → List Value → Action Value) (st : Stmt Nat) : Prop :=
  ∀ ⦃slots : Slots⦄ ⦃n label : Nat⦄ ⦃s : State⦄,
    Embeds code n (st.emit config label) → s.At ref r slots n →
    Carries x sink fuel s (st.exec call r.name.text fuel slots (s.world sink))
      (Flow.Reached x sink ref r config.backend s (n + codeSize (st.emit config label)))

lemma Stmt.emit_carries (h : Linked x table ref r code)
    (hcalls : CallsCarried x sink table config.backend fuel call) (st : Stmt Nat)
    (hw : st.WellApplied) : st.Carried x sink ref r code config fuel call := by
  have hexpr {e : Expr Nat} (hw : e.WellApplied) :
      e.Carried x sink table ref r code config fuel call :=
    Expr.emit_carries h hcalls e hw
  induction st with
  | skip =>
    intro slots n label s he hs
    exact .pure (.refl hs)
  | block k a ha =>
    intro slots n label s he hs
    rw [Stmt.exec]
    rw [Stmt.emit] at he ⊢
    rw [codeSize_append, ← Nat.add_assoc]
    refine (h.loadConstant_stepsTo 1 hs he.left).carries fun t ht => ?_
    refine (h.storeVariable_stepsTo ht he.left.tail_instr (Nat.zero_le 1) le_rfl).carries
      fun u hu => ?_
    refine .bind ((ha hw he.right hu.here).mono ?_)
    rintro (slots' | v) w hw
    · exact .pure (hu.trans hw)
    · exact .pure (Flow.Reached.after hu hw)
  | assign k e =>
    intro slots n label s he hs
    rw [Stmt.exec]
    rw [Stmt.emit] at he ⊢
    rw [codeSize_append, ← Nat.add_assoc]
    refine .bind ((hexpr hw he.left hs).mono ?_)
    intro v t ht
    refine (h.storeVariable_stepsTo ht he.right (Nat.zero_le 1) le_rfl).carries fun u hu => ?_
    exact .pure hu
  | print e =>
    intro slots n label s he hs
    rw [Stmt.exec]
    rw [Stmt.emit] at he ⊢
    rw [codeSize_append, ← Nat.add_assoc]
    refine .bind ((hexpr hw he.left hs).mono ?_)
    intro v t ht
    refine .bind ((h.print_carries ht he.right (Nat.zero_le 1) le_rfl).mono ?_)
    rintro - u hu
    exact .pure hu
  | seq a b ha hb =>
    intro slots n label s he hs
    rw [Stmt.exec]
    rw [Stmt.emit] at he ⊢
    rw [codeSize_append, ← Nat.add_assoc]
    refine .bind ((ha hw.1 he.left hs).mono ?_)
    rintro (slots' | v) t ht
    · refine (hb hw.2 he.right ht.here).mono ?_
      exact fun flow u hu => .after ht hu
    · exact .pure ht
  | ifElse c a b ha hb =>
    intro slots n label s he hs
    rw [Stmt.exec]
    rw [Stmt.emit] at he ⊢
    obtain ⟨hwc, hwa, hwb⟩ := hw
    refine branches_carry (P := Flow.Reached x sink ref r config.backend s) h he
      (hexpr hwc he.left.left.left.left hs)
      (fun m u he hu => (ha hwa he hu.here).mono fun flow t ht => .after hu ht)
      (fun m u he hu => (hb hwb he hu.here).mono fun flow t ht => .after hu ht) ?_
    rintro m k rest he hk (slots' | v) t ht
    · exact (h.branch_stepsTo ht he hk).carries fun u hu => .pure hu
    · exact .pure ht
  | ifThen c a ha =>
    intro slots n label s he hs
    rw [Stmt.exec]
    rw [Stmt.emit] at he ⊢
    obtain ⟨hwc, hwa⟩ := hw
    rw [codeSize_append, codeSize_append, ← Nat.add_assoc, ← Nat.add_assoc]
    have hdone := h.target he.right
    rw [codeSize_append, ← Nat.add_assoc] at hdone
    refine .bind ((hexpr hwc he.left.left hs).mono fun v t ht => ?_)
    have hsteps := ht _ hdone
    by_cases hv : v = 0
    · rw [if_pos hv] at hsteps
      rw [if_neg (not_not_intro hv)]
      exact hsteps.carries fun u hu => .pure hu
    · rw [if_neg hv] at hsteps
      rw [if_pos hv]
      refine hsteps.carries fun u hu => ?_
      exact (ha hwa he.left.right hu.here).mono fun flow w hw => .after hu hw
  | whileDo c a ha =>
    intro slots n label s he hs
    rw [Stmt.exec]
    rw [Stmt.emit] at he ⊢
    obtain ⟨hwc, hwa⟩ := hw
    have hagain := h.target he.left.left.left
    have hdone := h.target he.right.tail_instr
    have hbody := he.left.right
    have hback := he.right
    simp only [codeSize_append, ← Nat.add_assoc] at hbody hback
    refine loop_carries (I := fun slots => Computed config.backend ref r slots n 0 [] [] s) ?_
      le_rfl (.refl hs)
    intro slots s' hs'
    refine .bind ((hexpr hwc he.left.left.right hs'.here).mono fun v t ht => ?_)
    have hsteps := ht _ hdone
    by_cases hv : v = 0
    · rw [if_pos hv] at hsteps
      rw [if_neg (not_not_intro hv)]
      refine hsteps.carries fun u hu => .pure (hs'.trans ?_)
      simpa [Nat.add_assoc] using hu
    · rw [if_neg hv] at hsteps
      rw [if_pos hv]
      refine hsteps.carries fun u hu => ?_
      refine .bind ((ha hwa hbody hu.here).mono ?_)
      rintro (slots' | v) w hw
      · have hend := hs'.trans (hu.trans hw)
        exact .pure (h.branch_stepsTo hend hback hagain)
      · exact .pure (Flow.Reached.after hs' (.after hu hw))
  | repeatUntil a c ha =>
    intro slots n label s he hs
    rw [Stmt.exec]
    rw [Stmt.emit] at he ⊢
    obtain ⟨hwa, hwc⟩ := hw
    have hagain := h.target he.left.left
    have hguard := he.right
    rw [codeSize_append, ← Nat.add_assoc] at hguard
    refine loop_carries (I := fun slots => Computed config.backend ref r slots n 0 [] [] s) ?_
      le_rfl (.refl hs)
    intro slots s' hs'
    refine .bind ((ha hwa he.left.right hs'.here).mono ?_)
    rintro (slots' | v) t ht
    · refine .bind ((hexpr hwc hguard ht.here).mono fun v u hu => ?_)
      have hsteps := hu _ hagain
      by_cases hv : v = 0
      · rw [if_pos hv] at hsteps
        rw [if_neg (not_not_intro hv)]
        exact .pure (hsteps.mono fun w hw => hs'.trans (ht.trans hw))
      · rw [if_neg hv] at hsteps
        rw [if_pos hv]
        refine hsteps.carries fun w hw => .pure (hs'.trans (ht.trans ?_))
        simpa [Nat.add_assoc] using hw
    · exact .pure (Flow.Reached.after hs' ht)
  | ret e =>
    intro slots n label s he hs
    rw [Stmt.exec]
    rw [Stmt.emit] at he ⊢
    rw [codeSize_append, ← Nat.add_assoc]
    refine .bind ((hexpr hw he.left hs).mono ?_)
    intro v t ht
    exact .pure (h.ret_returns ht he.right)
  | call f es =>
    intro slots n label s he hs
    rw [Stmt.exec]
    rw [Stmt.emit] at he ⊢
    have hes : ∀ e ∈ es, e.Carried x sink table ref r code config fuel call := fun e hmem =>
      hexpr (Expr.AllWellApplied.of_mem hw hmem)
    refine .bind ((Expr.emitAll_carries hes he.left.left hs).mono ?_)
    rintro vs t ⟨hvs, ht⟩
    have hcall := he.left.right
    rw [← hvs] at ht hcall
    refine .bind ((h.call_carries hcalls ht hcall le_rfl le_rfl).mono ?_)
    intro v u hu
    have hdiscard := he.right
    rw [codeSize_append, ← Nat.add_assoc] at hdiscard
    refine h.discard_carries hu hdiscard fun w hw => ?_
    simp only [codeSize_append, ← Nat.add_assoc]
    exact hw

end Izmir
