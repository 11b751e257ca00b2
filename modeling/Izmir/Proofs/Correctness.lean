import Izmir.Proofs.Emission
import Izmir.Proofs.Extents

/-!
# Compiled programs do what their sources do

A procedure is carried out by the code of its body, and calls of procedures by induction on the
fuel. So a run of the compiled program ends with some result and output exactly when the
execution of the program does. That takes frames that can be allocated, and every program has
them that is not larger than its frames could be.
-/

namespace Izmir

open Machine

/-! ### The end of a body -/

lemma Assembly.endsInReturn_append (a b : List Line) :
    endsInReturn (a ++ b) = if b = [] then endsInReturn a else endsInReturn b := by
  unfold endsInReturn
  split
  · simp_all
  · rename_i hb
    rw [List.getLast?_append_of_ne_nil a hb]

/-- An action never goes on after the statement. -/
def Action.NeverNext {σ : Type} (m : Action (Flow σ)) : Prop :=
  ∀ w vars w', m w ≠ .done (.next vars) w'

lemma Action.NeverNext.bind {σ α : Type} {m : Action α} {f : α → Action (Flow σ)}
    (h : ∀ a w w', m w = .done a w' → (f a).NeverNext) : (m >>= f).NeverNext := by
  intro w vars w' heq
  change Action.bind m f w = _ at heq
  unfold Action.bind at heq
  cases hm : m w with
  | done a w₁ =>
    rw [hm] at heq
    exact h a w w₁ hm w₁ vars w' heq
  | failed e w₁ => rw [hm] at heq; cases heq
  | stuck w₁ => rw [hm] at heq; cases heq
  | outOfFuel w₁ => rw [hm] at heq; cases heq

/-- The code of a condition ends in a branch. -/
lemma Expr.emit_branchUnless (config : Config) (e : Expr Nat) (target : String)
    (next label : Nat) : ∃ before c locations,
      e.emit config (.branchUnless target) next label =
        before ++ [.instr (config.backend.branchIf c locations target)] := by
  cases e with
  | literal v => exact ⟨_, _, _, by rw [Expr.emit]; rfl⟩
  | var k => exact ⟨_, _, _, by rw [Expr.emit]; rfl⟩
  | ifElse c a b => exact ⟨_, _, _, by rw [Expr.emit]; rfl⟩
  | call f es => exact ⟨_, _, _, by rw [Expr.emit]; rfl⟩
  | apply p es =>
    rw [Expr.emit]
    cases hfold : (Purpose.branchUnless target).folded? config p with
    | none => exact ⟨_, _, _, rfl⟩
    | some folded =>
      obtain ⟨c, target'⟩ := folded
      obtain ⟨htarget, -⟩ := Purpose.folded?_eq_some hfold
      cases htarget
      exact ⟨_, _, _, rfl⟩

/-- A body whose code ends in a return never goes on after it. -/
lemma Stmt.exec_neverNext {config : Config} {call : String → List Value → Action Value}
    {routine : String} {fuel : Nat} (st : Stmt Nat) {label : Nat}
    (h : Assembly.endsInReturn (st.emit config label) = true) (slots : Slots) :
    (st.exec call routine fuel slots).NeverNext := by
  induction st generalizing label slots with
  | skip => cases h
  | block k a ha =>
    rw [Stmt.emit, Assembly.endsInReturn_append] at h
    split at h
    · cases hb : config.backend <;> rw [hb] at h <;> cases h
    · rw [Stmt.exec]
      refine .bind fun flow w w' hflow => ?_
      cases flow with
      | next slots' => exact absurd hflow (ha h _ w slots' w')
      | returned v =>
        intro w vars w' heq
        cases heq
  | assign k e =>
    rw [Stmt.emit, Assembly.endsInReturn_append] at h
    cases hb : config.backend <;> rw [hb] at h <;> cases h
  | print e =>
    rw [Stmt.emit, Assembly.endsInReturn_append] at h
    cases hb : config.backend <;> rw [hb] at h <;> cases h
  | seq a b ha hb =>
    rw [Stmt.emit, Assembly.endsInReturn_append] at h
    rw [Stmt.exec]
    refine .bind fun flow w w' hflow => ?_
    cases flow with
    | returned v =>
      intro w vars w' heq
      cases heq
    | next slots' =>
      split at h
      · exact absurd hflow (ha h slots w slots' w')
      · exact hb h slots'
  | ifElse c a b ha hb =>
    rw [Stmt.emit, Assembly.endsInReturn_append] at h
    cases h
  | ifThen c a ha =>
    rw [Stmt.emit, Assembly.endsInReturn_append] at h
    cases h
  | whileDo c a ha =>
    rw [Stmt.emit, Assembly.endsInReturn_append] at h
    cases h
  | repeatUntil a c ha =>
    obtain ⟨before, condition, locations, hc⟩ := c.emit_branchUnless config
      (numberedLabel "repeat" label) 0 (label + 1 + a.labelCount)
    rw [Stmt.emit, hc, ← List.append_assoc, Assembly.endsInReturn_append] at h
    cases hb : config.backend <;> rw [hb] at h <;> cases h
  | ret e =>
    rw [Stmt.exec]
    refine .bind fun v w w' hv => ?_
    intro w vars w' heq
    cases heq
  | call f es =>
    rw [Stmt.emit, List.append_assoc, Assembly.endsInReturn_append] at h
    cases hb : config.backend <;> rw [hb] at h <;> cases h

/-! ### Calls and the whole program -/

/-- A frame at its start holds the arguments and zeros. -/
lemma Machine.State.at_start {ref : RoutineRef} {r : Executable.Routine} {args : List Value}
    {place : ReturnTo} {s : State} (hs : s.frame = .start ref r args place)
    (hargs : args.length ≤ r.slots) : s.At ref r (.start args) 0 := by
  refine ⟨?_, ?_, ?_, ?_, ?_⟩
  all_goals rw [hs]
  · rfl
  · rfl
  · simp [Frame.start, hargs]
  · simp [Frame.start]
  · intro k v hv
    simp only [Frame.start, Array.getElem?_append, List.size_toArray, List.getElem?_toArray,
      Array.getElem?_replicate] at hv
    rw [Slots.start, List.getD_eq_getElem?_getD]
    split at hv
    · rw [hv]
      rfl
    · rename_i hk
      rw [List.getElem?_eq_none (Nat.le_of_not_lt hk)]
      split at hv
      · exact Option.some.inj hv
      · cases hv

section

variable {x : Executable} {sink : Sink} {table : List (String × Nat × Nat)} {ref : RoutineRef}
  {r : Executable.Routine} {config : Config} {fuel : Nat} {s t : State}
  {call : String → List Value → Action Value}

/-- The code of a procedure carries out its body and leaves it. -/
lemma withReturn_carries {body : Stmt Nat} {label : Nat} {slots : Slots}
    (h : Linked x table ref r (withReturn config (body.emit config label)))
    (hcalls : CallsCarried x sink table config.backend fuel call) (hw : body.WellApplied)
    (hs : s.At ref r slots 0) :
    Carries x sink fuel s
      ((body.exec call r.name.text fuel slots >>= fun flow => pure flow.result) (s.world sink))
      (Returns x sink s) := by
  by_cases hend : Assembly.endsInReturn (body.emit config label) = true
  · have hcode : withReturn config (body.emit config label) = body.emit config label := if_pos hend
    rw [hcode] at h
    refine .bind ((body.emit_carries h hcalls hw (.self _) hs).mono_of_done ?_)
    rintro (slots' | v) t hdone ht
    · exact absurd hdone (body.exec_neverNext hend slots _ slots' _)
    · exact .pure ht
  · have hcode : withReturn config (body.emit config label) = body.emit config label ++
        [.instr (config.backend.loadConstant 0 0), .instr (config.backend.ret 0)] := if_neg hend
    rw [hcode] at h
    have he := Embeds.self (body.emit config label ++
      [.instr (config.backend.loadConstant 0 0), .instr (config.backend.ret 0)])
    refine .bind ((body.emit_carries h hcalls hw he.left hs).mono ?_)
    rintro (slots' | v) t ht
    · -- The machine falls off the end of the body.
      refine (h.loadConstant_stepsTo 0 ht.here he.right).carries fun u hu => ?_
      exact .pure (h.ret_returns (ht.trans hu) he.right.tail_instr)
    · exact .pure ht

/-- Leaving a routine puts the result where its caller wants it. -/
lemma Returns.stepsTo {b : Backend} {l : Nat} {v : Value} {u : State}
    (h : Returns x sink u v t) (hu : u.frame.returnTo = b.returnTo l)
    (hcallers : u.callers = s.frame :: s.callers) (hstack : u.stack = s.stack)
    (hl : b = .register → l < s.frame.registers.size) :
    StepsTo x sink t fun w =>
      w = ({ s with input := w.input, printed := w.printed } : State).put b l v := by
  obtain ⟨w, hstep, hw, hcallers', hto, hstack'⟩ := h
  rw [hcallers] at hcallers'
  rw [hu] at hto
  rw [hstack] at hstack'
  obtain ⟨frame, callers, stack, input, printed⟩ := w
  dsimp only at hcallers' hto hstack'
  subst hcallers' hstack'
  simp only [State.ret, hto] at hstep
  cases b with
  | stack => exact ⟨_, hstep, hw, rfl⟩
  | register =>
    exact ⟨_, hstep.trans (State.setRegister_eq (hl rfl)), hw, rfl⟩

/-- Calls of procedures are carried out by the code of the procedures. -/
lemma Program.callsCarried {p : Program} {a : Assembly} (hc : p.compile config = .ok a)
    (hlink : a.link = .ok x) (hfits : x.Fits) (sink : Sink) (fuel : Nat) :
    CallsCarried x sink a.table config.backend fuel (callWith p.activateSlots? fuel) := by
  obtain ⟨⟨-, hbodies, -⟩, rfl⟩ := compile_eq_ok_iff.mp hc
  induction fuel with
  | zero =>
    intro f i vs l s t hf hstep hw hl
    exact ⟨0, t, le_rfl, rfl, rfl⟩
  | succ fuel ih =>
    intro f i vs l s t hf hstep hw hl
    obtain ⟨q', hq', hfind, harity⟩ := lookup_table hf
    obtain ⟨r, hr, hname, harity', hlinked⟩ := link_procedure hlink hq'
    rw [List.find?_map, Option.map_eq_some_iff] at hfind
    obtain ⟨q, hq, rfl⟩ := hfind
    have hactivate : p.activateSlots? f vs =
        some ⟨r.name.text, .start vs, (q.body.withSlots (.ofFormals q.formals)).1⟩ := by
      unfold activateSlots?
      rw [show p.procedures.find? (·.name == f) = some q from hq, hname]
      exact if_pos harity
    have hargs : vs.length ≤ r.slots := by
      rw [← harity, ← harity']
      exact hlinked.arity_le_slots
    have hbody := hbodies q (List.mem_of_find?_eq_some hq)
    unfold State.call at hstep
    simp only [hr, hfits (.procedure i) r hr, hargs, not_true, if_false, if_true] at hstep
    rw [callWith, hactivate, ← hw]
    refine .step hstep ?_
    have hreturns := withReturn_carries (s := { s with
      frame := .start (.procedure i) r vs (config.backend.returnTo l)
      callers := s.frame :: s.callers }) hlinked ih
      ((Stmt.wellApplied_withSlots q.body _).mpr hbody) (State.at_start rfl hargs)
    refine hreturns.trans fun v u hu => ?_
    exact (hu.stepsTo rfl rfl rfl hl).carries fun w hw => .pure hw

/-- The machine carries out a compiled program from its start up to the step that halts. -/
lemma Program.start_carries {p : Program} {a : Assembly} (hc : p.compile config = .ok a)
    (hlink : a.link = .ok x) (hfits : x.Fits) (input : InputSource) (sink : Sink) (fuel : Nat) :
    Carries x sink fuel (.start x input) (p.execSlots fuel ⟨input, sink, #[]⟩) fun _ t =>
      ∃ u, step x sink t = .halted u ∧ u.world sink = t.world sink := by
  have hcalls := p.callsCarried hc hlink hfits sink fuel
  have hlinked := link_main hlink
  have hname := link_main_name hlink
  obtain ⟨⟨-, -, hmain⟩, rfl⟩ := compile_eq_ok_iff.mp hc
  have hbody := Stmt.emit_carries hlinked hcalls _
    ((Stmt.wellApplied_withSlots p.main .empty).mpr hmain) (.self _)
    (State.at_start (s := .start x input) rfl (Nat.zero_le _))
  rw [hname] at hbody
  refine hbody.mono ?_
  rintro (slots | v) t ht
  · have hend : x.main.code[t.frame.pc]? = none := by
      rw [ht.here.pc, Array.getElem?_eq_none_iff, hlinked.code_size]
      exact (Nat.zero_add _).ge
    have hroutine : t.frame.routine = .main := ht.here.routine
    refine ⟨t, ?_, rfl⟩
    rw [step_eq_of_end (by rw [hroutine]; rfl) hend, if_pos hroutine]
  · obtain ⟨u, hstep, hw, hcallers, -, -⟩ := ht
    refine ⟨u, ?_, hw⟩
    rw [hstep, State.ret, hcallers]
    rfl

end

/-! ### The correspondence -/

/-- The surroundings in which an execution ends or is interrupted. -/
def Result.world {α : Type} : Result α → World
  | .done _ w | .failed _ w | .stuck w | .outOfFuel w => w

section

variable {config : Config} {p : Program} {a : Assembly} {x : Executable}

/-- Whatever an execution does with some fuel, the machine does in some number of steps. If the
execution has not ended, neither has the machine, and it has taken at least as many steps as
there was fuel. -/
lemma Program.after_exec (hc : p.compile config = .ok a) (hlink : a.link = .ok x)
    (hfits : x.Fits) (input : InputSource) (sink : Sink) (fuel : Nat) :
    ∃ k, (after x sink k (start x input)).state.world sink =
        (p.exec fuel ⟨input, sink, #[]⟩).world ∧
      (after x sink k (start x input)).run? sink = p.run input sink fuel ∧
      (p.run input sink fuel = none → fuel ≤ k) := by
  have hcarries := p.start_carries hc hlink hfits input sink fuel
  rw [start, if_pos (hfits .main x.main rfl)]
  have hagrees := p.exec_agrees fuel ⟨input, sink, #[]⟩
  unfold run
  generalize p.exec fuel ⟨input, sink, #[]⟩ = q, p.execSlots fuel ⟨input, sink, #[]⟩ = q'
    at hagrees hcarries
  cases hagrees with
  | done w _ =>
    obtain ⟨k, t, hk, rfl, u, hstep, hw⟩ := hcarries
    have hafter : after x sink (k + 1) (.running (.start x input)) = .halted u := by
      rw [after_add, hk]
      exact hstep
    have hprinted : u.printed = t.printed := congrArg World.printed hw
    refine ⟨k + 1, ?_, ?_, nofun⟩
    · rw [hafter]
      exact hw
    · rw [hafter, Outcome.run?, hprinted]
      rfl
  | failed e w =>
    obtain ⟨k, t, hk, rfl⟩ := hcarries
    refine ⟨k, ?_, ?_, nofun⟩
    · rw [hk]
      rfl
    · rw [hk]
      rfl
  | stuck w => exact hcarries.elim
  | outOfFuel w =>
    obtain ⟨k, t, hle, hk, rfl⟩ := hcarries
    refine ⟨k, ?_, ?_, fun _ => hle⟩
    · rw [hk]
      rfl
    · rw [hk]
      rfl

lemma Program.run_eq_of_compiled_run (hc : p.compile config = .ok a) (hlink : a.link = .ok x)
    (hfits : x.Fits) {input : InputSource} {sink : Sink} {k : Nat} {r : Machine.Run}
    (h : Machine.run x input sink k = some r) : p.run input sink k = some r := by
  rw [run_eq_run?] at h
  obtain ⟨l, -, hl, hle⟩ := p.after_exec hc hlink hfits input sink k
  cases hrun : p.run input sink k with
  | some q =>
    rw [hrun] at hl
    rw [run?_after_unique hl h]
  | none =>
    -- The machine would be running after at least `k` steps, but has ended after `k`.
    rw [hrun, after_eq_of_ended (hle hrun) h, h] at hl
    cases hl

lemma Program.exists_compiled_run (hc : p.compile config = .ok a) (hlink : a.link = .ok x)
    (hfits : x.Fits) {input : InputSource} {sink : Sink} {fuel : Nat} {r : Machine.Run}
    (h : p.run input sink fuel = some r) : ∃ k, Machine.run x input sink k = some r := by
  obtain ⟨k, -, hk, -⟩ := p.after_exec hc hlink hfits input sink fuel
  exact ⟨k, by rw [run_eq_run?, hk, h]⟩

/-- A compiled program ends with a result and an output exactly when the program itself does,
whatever the configuration, the input and the sink. Frames of fewer than `2 ^ 60` slots and
registers can be allocated, and every program in memory has fewer nodes than that. -/
theorem Program.compiled_run_iff_run (hc : p.compile config = .ok a) (hlink : a.link = .ok x)
    (hsize : p.size < Executable.vectorLimit) (input : InputSource) (sink : Sink)
    (r : Machine.Run) :
    (∃ k, Machine.run x input sink k = some r) ↔ ∃ fuel, p.run input sink fuel = some r := by
  have hfits := fits_of_compile hc hlink hsize
  constructor
  · rintro ⟨k, hk⟩
    exact ⟨k, run_eq_of_compiled_run hc hlink hfits hk⟩
  · rintro ⟨fuel, hfuel⟩
    exact exists_compiled_run hc hlink hfits hfuel

/-- Print a number and all below it, by a procedure that calls itself. -/
def Program.countdown : Program where
  source := "countdown"
  procedures :=
    [⟨"down", ["n"], .seq (.print (.var "n"))
      (.ifThen (.apply .greater [.var "n", .literal 0])
        (.ret (.call "down" [.apply .minus [.var "n", .literal 1]])))⟩]
  main := .print (.call "down" [.apply .input []])

theorem Program.countdown_run_iff_run :
    ∃ a x, Program.countdown.compile .default = .ok a ∧ a.link = .ok x ∧
      Program.countdown.size < Executable.vectorLimit ∧
      Program.countdown.run (.ofInput [.ok 2]) .endless 6 = some ⟨.halted, #[2, 1, 0, 0]⟩ ∧
      ((∃ k, Machine.run x (.ofInput [.ok 2]) .endless k = some ⟨.halted, #[2, 1, 0, 0]⟩) ↔
        ∃ fuel, Program.countdown.run (.ofInput [.ok 2]) .endless fuel =
          some ⟨.halted, #[2, 1, 0, 0]⟩) := by
  obtain ⟨a, x, hc, hlink⟩ : ∃ a x,
      Program.countdown.compile .default = .ok a ∧ a.link = .ok x := ⟨_, _, rfl, rfl⟩
  have hsize : Program.countdown.size < Executable.vectorLimit := by decide
  exact ⟨a, x, hc, hlink, hsize, rfl, Program.compiled_run_iff_run hc hlink hsize _ _ _⟩

end

end Izmir
