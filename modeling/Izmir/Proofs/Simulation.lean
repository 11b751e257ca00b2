import Izmir.Compile
import Izmir.Proofs.Linking
import Izmir.Proofs.Resolution
import Izmir.Proofs.Safety

/-!
# The machine carries out executions

`Carries fuel s r post` says that the machine, started in `s`, does what an execution with
result `r` does: it gets to a state for the value, fails with the same error, or, where the
execution runs out of fuel, takes at least `fuel` steps. Input and output are the same in each
case. `Computed` says where values are that were computed on the way, once for both backends.
-/

namespace Izmir

open Machine

/-- What a machine shares with its surroundings. -/
def Machine.State.world (sink : Sink) (s : State) : World :=
  ⟨s.input, sink, s.printed⟩

/-- The machine carries out an execution. -/
def Carries (x : Executable) (sink : Sink) (fuel : Nat) {α : Type} (s : State) (r : Result α)
    (post : α → State → Prop) : Prop :=
  match r with
  | .done a w => ∃ k t, after x sink k (.running s) = .running t ∧ t.world sink = w ∧ post a t
  | .failed e w => ∃ k t, after x sink k (.running s) = .failed e t ∧ t.world sink = w
  | .stuck _ => False
  | .outOfFuel w =>
    ∃ k t, fuel ≤ k ∧ after x sink k (.running s) = .running t ∧ t.world sink = w

namespace Carries

variable {x : Executable} {sink : Sink} {fuel : Nat} {α β : Type} {s t : State}

lemma pure {a : α} {post : α → State → Prop} (h : post a s) :
    Carries x sink fuel s ((Pure.pure a : Action α) (s.world sink)) post :=
  ⟨0, s, rfl, rfl, h⟩

lemma weaken {r : Result α} {post : α → State → Prop} {need : Nat} (hle : need ≤ fuel)
    (h : Carries x sink fuel s r post) : Carries x sink need s r post := by
  cases r with
  | done a w => exact h
  | failed e w => exact h
  | stuck w => exact h
  | outOfFuel w =>
    obtain ⟨k, t, hk, ht⟩ := h
    exact ⟨k, t, hle.trans hk, ht⟩

/-- A step of the machine counts as a unit of fuel. -/
lemma step {r : Result α} {post : α → State → Prop} (hst : Machine.step x sink s = .running t)
    (h : Carries x sink fuel t r post) : Carries x sink (fuel + 1) s r post := by
  have hafter : ∀ k, after x sink (k + 1) (.running s) = after x sink k (.running t) := by
    intro k
    rw [after_succ_running, hst]
  cases r with
  | done a w =>
    obtain ⟨k, u, hk, hu⟩ := h
    exact ⟨k + 1, u, (hafter k).trans hk, hu⟩
  | failed e w =>
    obtain ⟨k, u, hk, hu⟩ := h
    exact ⟨k + 1, u, (hafter k).trans hk, hu⟩
  | stuck w => exact h
  | outOfFuel w =>
    obtain ⟨k, u, hle, hk, hu⟩ := h
    exact ⟨k + 1, u, by omega, (hafter k).trans hk, hu⟩

lemma step' {r : Result α} {post : α → State → Prop} (hst : Machine.step x sink s = .running t)
    (h : Carries x sink fuel t r post) : Carries x sink fuel s r post :=
  (step hst h).weaken (Nat.le_succ fuel)

lemma step_failed {e : RuntimeError} {w : World} {post : α → State → Prop}
    (hst : Machine.step x sink s = .failed e t) (hw : t.world sink = w) :
    Carries x sink fuel s (.failed e w) post :=
  ⟨1, t, hst, hw⟩

/-- Carrying out a part of an execution and then, from where that leads, the rest. -/
lemma bind {m : Action α} {f : α → Action β} {w : World} {post : β → State → Prop}
    (h : Carries x sink fuel s (m w) fun a t =>
      Carries x sink fuel t (f a (t.world sink)) post) :
    Carries x sink fuel s ((m >>= f) w) post := by
  change Carries x sink fuel s (Action.bind m f w) post
  unfold Action.bind
  cases hm : m w with
  | done a w' =>
    rw [hm] at h
    obtain ⟨k, t, hk, rfl, hrest⟩ := h
    have hafter : ∀ l, after x sink (k + l) (.running s) = after x sink l (.running t) := by
      intro l
      rw [after_add, hk]
    dsimp only
    cases hr : f a (t.world sink) with
    | done b w =>
      rw [hr] at hrest
      obtain ⟨l, u, hl, hu⟩ := hrest
      exact ⟨k + l, u, (hafter l).trans hl, hu⟩
    | failed e w =>
      rw [hr] at hrest
      obtain ⟨l, u, hl, hu⟩ := hrest
      exact ⟨k + l, u, (hafter l).trans hl, hu⟩
    | stuck w =>
      rw [hr] at hrest
      exact hrest
    | outOfFuel w =>
      rw [hr] at hrest
      obtain ⟨l, u, hle, hl, hu⟩ := hrest
      exact ⟨k + l, u, by omega, (hafter l).trans hl, hu⟩
  | failed e w' =>
    rw [hm] at h
    exact h
  | stuck w' =>
    rw [hm] at h
    exact h
  | outOfFuel w' =>
    rw [hm] at h
    exact h

lemma mono_of_done {r : Result α} {post post' : α → State → Prop}
    (h : Carries x sink fuel s r post)
    (hpost : ∀ a t, r = .done a (t.world sink) → post a t → post' a t) :
    Carries x sink fuel s r post' := by
  cases r with
  | done a w =>
    obtain ⟨k, t, hk, rfl, ha⟩ := h
    exact ⟨k, t, hk, rfl, hpost a t rfl ha⟩
  | failed e w => exact h
  | stuck w => exact h
  | outOfFuel w => exact h

lemma mono {r : Result α} {post post' : α → State → Prop} (h : Carries x sink fuel s r post)
    (hpost : ∀ a t, post a t → post' a t) : Carries x sink fuel s r post' :=
  h.mono_of_done fun a t _ => hpost a t

end Carries

/-- The machine is in a routine at a position, in a frame of the right size with the given
values in its slots. -/
structure Machine.State.At (ref : RoutineRef) (r : Executable.Routine) (slots : Slots) (n : Nat)
    (s : State) : Prop where
  routine : s.frame.routine = ref
  pc : s.frame.pc = n
  slots_size : s.frame.slots.size = r.slots
  registers_size : s.frame.registers.size = r.registers
  values : ∀ k v, s.frame.slots[k]? = some v → slots k = v

/-- Values are in locations: on top of the operand stack, or in registers. Registers below
`next` that are no such location have not changed. -/
def Delivered (next : Nat) (locations : List Nat) (vs : List Value) (s t : State) : Backend → Prop
  | .stack => t.stack = vs.reverse ++ s.stack
  | .register => t.stack = s.stack ∧
      List.Forall₂ (fun l v => t.frame.registers[l]? = some v) locations vs ∧
      ∀ k < next, k ∉ locations → t.frame.registers[k]? = s.frame.registers[k]?

/-- From one state to another, values have been computed and put into locations. -/
structure Computed (b : Backend) (ref : RoutineRef) (r : Executable.Routine) (slots : Slots)
    (n next : Nat) (locations : List Nat) (vs : List Value) (s t : State) : Prop where
  here : t.At ref r slots n
  callers : t.callers = s.callers
  returnTo : t.frame.returnTo = s.frame.returnTo
  values : Delivered next locations vs s t b

namespace Computed

variable {b : Backend} {ref : RoutineRef} {r : Executable.Routine} {slots : Slots}
  {m n next : Nat} {locations : List Nat} {vs : List Value} {s t u : State}

lemma refl (h : s.At ref r slots n) : Computed b ref r slots n next [] [] s s := by
  refine ⟨h, rfl, rfl, ?_⟩
  cases b with
  | stack => rfl
  | register => exact ⟨rfl, .nil, fun _ _ _ => rfl⟩

/-- What happens before, and leaves no value behind, does not matter. -/
lemma trans {slots' : Slots} (h : Computed b ref r slots m next [] [] s t)
    (h' : Computed b ref r slots' n next locations vs t u) :
    Computed b ref r slots' n next locations vs s u := by
  refine ⟨h'.here, h'.callers.trans h.callers, h'.returnTo.trans h.returnTo, ?_⟩
  cases b with
  | stack =>
    have hst : t.stack = s.stack := h.values
    have htu : u.stack = vs.reverse ++ t.stack := h'.values
    change u.stack = vs.reverse ++ s.stack
    rw [htu, hst]
  | register =>
    obtain ⟨hst, -, hkeep⟩ := h.values
    obtain ⟨htu, hvs, hkeep'⟩ := h'.values
    refine ⟨htu.trans hst, hvs, ?_⟩
    intro k hk hkl
    rw [hkeep' k hk hkl, hkeep k hk (by simp)]

/-- An operand in the first free location, and further ones after it. -/
lemma cons {v : Value} (h : Computed b ref r slots m (next + 1) [next] [v] s t)
    (h' : Computed b ref r slots n (next + 1) locations vs t u)
    (hlocations : ∀ l ∈ locations, next < l) :
    Computed b ref r slots n next (next :: locations) (v :: vs) s u := by
  refine ⟨h'.here, h'.callers.trans h.callers, h'.returnTo.trans h.returnTo, ?_⟩
  have hnext : next ∉ locations := fun hmem => (hlocations next hmem).false
  cases b with
  | stack =>
    have hst : t.stack = [v].reverse ++ s.stack := h.values
    have htu : u.stack = vs.reverse ++ t.stack := h'.values
    change u.stack = (v :: vs).reverse ++ s.stack
    rw [htu, hst]
    simp
  | register =>
    obtain ⟨hst, hv, hkeep⟩ := h.values
    obtain ⟨htu, hvs, hkeep'⟩ := h'.values
    have hhead : t.frame.registers[next]? = some v := (List.forall₂_cons.mp hv).1
    refine ⟨htu.trans hst, .cons ?_ hvs, ?_⟩
    · rw [hkeep' next (Nat.lt_succ_self _) hnext, hhead]
    · intro k hk hkl
      simp only [List.mem_cons, not_or] at hkl
      rw [hkeep' k (by omega) hkl.2, hkeep k (by omega) (by simpa using hkl.1)]

end Computed

namespace Machine.State

/-- The state `t` once the values computed since `s` have been used: they are no longer on the
stack, and in registers they do not matter. -/
def used (b : Backend) (s t : State) : State :=
  match b with
  | .stack => { t with stack := s.stack }
  | .register => t

/-- A state with a value put into a location. -/
def put (b : Backend) (location : Nat) (v : Value) (t : State) : State :=
  match b with
  | .stack => t.push v
  | .register =>
    { t with frame :=
      { t.frame with registers := t.frame.registers.setIfInBounds location v } }

variable {sink : Sink} {b : Backend} {s t : State}

@[simp] lemma world_goTo (n : Nat) : (t.goTo n).world sink = t.world sink := rfl

@[simp] lemma world_used : (used b s t).world sink = t.world sink := by
  cases b <;> rfl

@[simp] lemma world_put (l : Nat) (v : Value) : (t.put b l v).world sink = t.world sink := by
  cases b <;> rfl

end Machine.State

namespace Computed

variable {b : Backend} {ref : RoutineRef} {r : Executable.Routine} {slots : Slots}
  {m n next : Nat} {locations : List Nat} {vs : List Value} {s t : State}

/-- Values in free locations may be used and forgotten, wherever the machine goes then. -/
lemma used (h : Computed b ref r slots n m locations vs s t) (hm : next ≤ m)
    (hlocations : ∀ l ∈ locations, next ≤ l) (k : Nat) :
    Computed b ref r slots k next [] [] s ((State.used b s t).goTo k) := by
  obtain ⟨⟨hroutine, -, hslots, hregisters, hvalues⟩, hcallers, hto, hdelivered⟩ := h
  cases b with
  | stack => exact ⟨⟨hroutine, rfl, hslots, hregisters, hvalues⟩, hcallers, hto, rfl⟩
  | register =>
    obtain ⟨hstack, -, hkeep⟩ := hdelivered
    refine ⟨⟨hroutine, rfl, hslots, hregisters, hvalues⟩, hcallers, hto, hstack, .nil, ?_⟩
    intro k hk _
    refine hkeep k (by omega) ?_
    intro hmem
    have := hlocations k hmem
    omega

/-- Put a value into a location that the frame has. -/
lemma put (h : Computed b ref r slots n next [] [] s t) {l : Nat} (v : Value)
    (hl : b = .register → l < r.registers) :
    Computed b ref r slots n next [l] [v] s (t.put b l v) := by
  obtain ⟨⟨hroutine, hpc, hslots, hregisters, hvalues⟩, hcallers, hto, hdelivered⟩ := h
  cases b with
  | stack =>
    have hstack : t.stack = s.stack := hdelivered
    exact ⟨⟨hroutine, hpc, hslots, hregisters, hvalues⟩, hcallers, hto, congrArg (v :: ·) hstack⟩
  | register =>
    obtain ⟨hstack, -, hkeep⟩ := hdelivered
    have hsize : l < t.frame.registers.size := by
      rw [hregisters]
      exact hl rfl
    refine ⟨⟨hroutine, hpc, hslots, ?_, hvalues⟩, hcallers, hto, hstack, .cons ?_ .nil, ?_⟩
    · simpa [State.put] using hregisters
    · simp [State.put, hsize]
    · intro k hk hkl
      have hne : l ≠ k := fun h => hkl (by simp [h])
      change (t.frame.registers.setIfInBounds l v)[k]? = _
      rw [Array.getElem?_setIfInBounds_ne hne, hkeep k hk (by simp)]

end Computed

end Izmir
