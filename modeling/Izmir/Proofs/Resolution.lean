import Izmir.Proofs.Semantics
import Izmir.Proofs.Trees

/-!
# Names and slots

A program executed on slots does what it does on names. A scope only grows while a routine is
resolved, so that each of its bindings holds in the scope at the end, `final`, which is what
the variables of an activation are compared by: in a loop, a name may be bound by a statement
that comes later in the text.
-/

namespace Izmir

/-! ### Executions in step -/

/-- Two results that differ at most in their values, which are related. -/
inductive Result.Agrees {α β : Type} (R : α → β → Prop) : Result α → Result β → Prop
  | done {a b} (w : World) : R a b → Agrees R (.done a w) (.done b w)
  | failed (e : RuntimeError) (w : World) : Agrees R (.failed e w) (.failed e w)
  | stuck (w : World) : Agrees R (.stuck w) (.stuck w)
  | outOfFuel (w : World) : Agrees R (.outOfFuel w) (.outOfFuel w)

def Action.Agrees {α β : Type} (R : α → β → Prop) (m : Action α) (n : Action β) : Prop :=
  ∀ w, Result.Agrees R (m w) (n w)

namespace Action.Agrees

variable {α β γ δ : Type} {R : α → β → Prop} {S : γ → δ → Prop}

lemma pure {a : α} {b : β} (h : R a b) : Action.Agrees R (Pure.pure a) (Pure.pure b) :=
  fun w => .done w h

lemma outOfFuel : Action.Agrees R Action.outOfFuel Action.outOfFuel :=
  fun w => .outOfFuel w

lemma bind {m : Action α} {n : Action β} {f : α → Action γ} {g : β → Action δ}
    (h : Action.Agrees R m n) (hfg : ∀ a b, R a b → Action.Agrees S (f a) (g b)) :
    Action.Agrees S (m >>= f) (n >>= g) := by
  intro w
  change Result.Agrees S (Action.bind m f w) (Action.bind n g w)
  unfold Action.bind
  have hw := h w
  generalize m w = q, n w = r at hw
  cases hw with
  | done w hab => exact hfg _ _ hab w
  | failed e w => exact .failed e w
  | stuck w => exact .stuck w
  | outOfFuel w => exact .outOfFuel w

lemma refl (m : Action α) : Action.Agrees Eq m m := by
  intro w
  cases m w with
  | done a w => exact .done w rfl
  | failed e w => exact .failed e w
  | stuck w => exact .stuck w
  | outOfFuel w => exact .outOfFuel w

lemma mono {T : α → β → Prop} {m : Action α} {n : Action β} (h : Action.Agrees R m n)
    (hRT : ∀ a b, R a b → T a b) : Action.Agrees T m n := by
  intro w
  have hw := h w
  generalize m w = q, n w = r at hw
  cases hw with
  | done w hab => exact .done w (hRT _ _ hab)
  | failed e w => exact .failed e w
  | stuck w => exact .stuck w
  | outOfFuel w => exact .outOfFuel w

/-- Actions with the same values are the same. -/
lemma eq {m n : Action α} (h : Action.Agrees Eq m n) : m = n := by
  funext w
  have hw := h w
  generalize m w = q, n w = r at hw
  cases hw with
  | done w hab => rw [hab]
  | failed e w => rfl
  | stuck w => rfl
  | outOfFuel w => rfl

end Action.Agrees

/-- Two flows that go to the same place. -/
inductive Flow.Agrees {σ τ : Type} (R : σ → τ → Prop) : Flow σ → Flow τ → Prop
  | next {a b} : R a b → Agrees R (.next a) (.next b)
  | returned (v : Value) : Agrees R (.returned v) (.returned v)

inductive Round.Agrees {σ τ : Type} (R : σ → τ → Prop) : Round σ → Round τ → Prop
  | again {a b} : R a b → Agrees R (.again a) (.again b)
  | over {f g} : Flow.Agrees R f g → Agrees R (.over f) (.over g)

lemma loop_agrees {σ τ : Type} {R : σ → τ → Prop} {f : σ → Action (Round σ)}
    {g : τ → Action (Round τ)}
    (h : ∀ a b, R a b → Action.Agrees (Round.Agrees R) (f a) (g b)) (fuel : Nat) {a : σ} {b : τ}
    (hab : R a b) : Action.Agrees (Flow.Agrees R) (loop f fuel a) (loop g fuel b) := by
  induction fuel generalizing a b with
  | zero => exact .outOfFuel
  | succ fuel ih =>
    refine (h a b hab).bind ?_
    rintro _ _ (hab | hfg)
    · exact ih hab
    · exact .pure hfg

/-! ### Growing scopes -/

namespace Scope

/-- The slots of a scope are in use, each for one variable. -/
structure Wf (s : Scope) : Prop where
  below : ∀ p ∈ s.blocks ++ s.routine, p.2 < s.size
  distinct : ((s.blocks ++ s.routine).map Prod.snd).Nodup

/-- The next slot is not in use. -/
lemma Wf.size_notMem {s : Scope} (h : s.Wf) :
    s.size ∉ (s.blocks ++ s.routine).map Prod.snd := by
  intro hmem
  obtain ⟨p, hp, heq⟩ := List.mem_map.mp hmem
  exact absurd heq (Nat.ne_of_lt (h.below p hp))

/-- Bindings of a routine that come later than those of a scope: their slots are new, and
their names are not bound in the routine yet. -/
def Extends (s : Scope) (final : List (String × Nat)) : Prop :=
  ∃ new, final = new ++ s.routine ∧
    ∀ p ∈ new, s.size ≤ p.2 ∧ s.routine.lookup p.1 = none

/-- One scope comes out of another, at the same place among the blocks. -/
structure Grows (s t : Scope) : Prop where
  blocks : t.blocks = s.blocks
  size : s.size ≤ t.size
  routine : s.Extends t.routine
  wf : s.Wf → t.Wf

lemma Extends.self (s : Scope) : s.Extends s.routine :=
  ⟨[], rfl, by simp⟩

lemma Extends.trans {s t : Scope} {final : List (String × Nat)} (hst : s.Extends t.routine)
    (hsize : s.size ≤ t.size) (ht : t.Extends final) : s.Extends final := by
  obtain ⟨new, hr, hnew⟩ := hst
  obtain ⟨new', rfl, hnew'⟩ := ht
  refine ⟨new' ++ new, by rw [hr, List.append_assoc], ?_⟩
  intro p hp
  rcases List.mem_append.mp hp with hp | hp
  · obtain ⟨hle, hnone⟩ := hnew' p hp
    rw [hr, List.lookup_append, Option.or_eq_none_iff] at hnone
    exact ⟨hsize.trans hle, hnone.2⟩
  · exact hnew p hp

namespace Grows

variable {s t u : Scope}

lemma refl (s : Scope) : s.Grows s :=
  ⟨rfl, le_rfl, .self s, id⟩

lemma trans (hst : s.Grows t) (htu : t.Grows u) : s.Grows u :=
  ⟨htu.blocks.trans hst.blocks, hst.size.trans htu.size, hst.routine.trans hst.size htu.routine,
    fun hs => htu.wf (hst.wf hs)⟩

lemma extended {final : List (String × Nat)} (h : s.Grows t) (ht : t.Extends final) :
    s.Extends final :=
  h.routine.trans h.size ht

end Grows

lemma wf_bind {s : Scope} (hs : s.Wf) (x : String) : (s.bind x).Wf := by
  have hperm : ((s.bind x).blocks ++ (s.bind x).routine).Perm
      ((x, s.size) :: (s.blocks ++ s.routine)) := List.perm_middle
  constructor
  · intro p hp
    rcases List.mem_cons.mp (hperm.mem_iff.mp hp) with rfl | hp
    · exact Nat.lt_succ_self _
    · exact (hs.below p hp).trans (Nat.lt_succ_self _)
  · rw [(hperm.map Prod.snd).nodup_iff, List.map_cons, List.nodup_cons]
    exact ⟨hs.size_notMem, hs.distinct⟩

lemma grows_bind {s : Scope} {x : String} (hx : s.find? x = none) : s.Grows (s.bind x) := by
  have hx' : s.routine.lookup x = none := by
    rw [find?, List.lookup_append, Option.or_eq_none_iff] at hx
    exact hx.2
  exact ⟨rfl, Nat.le_succ _, ⟨[(x, s.size)], rfl, by simpa using hx'⟩, fun hs => wf_bind hs x⟩

lemma grows_slot (s : Scope) (x : String) : s.Grows (s.slot x).2 := by
  unfold slot
  cases hx : s.find? x with
  | some n => exact .refl s
  | none => exact grows_bind hx

/-- A name that is bound already is not bound again. -/
lemma lookup_new {s : Scope} {new : List (String × Nat)} {x : String} {n : Nat}
    (hnew : ∀ p ∈ new, s.size ≤ p.2 ∧ s.routine.lookup p.1 = none)
    (hx : s.routine.lookup x = some n) : new.lookup x = none := by
  rw [List.lookup_eq_none_iff]
  intro p hp
  by_contra hne
  have heq : x = p.1 := by simpa using hne
  have hnone := (hnew p hp).2
  rw [← heq, hx] at hnone
  cases hnone

/-- The slot of a name is what the name is bound to in the end. -/
lemma lookup_slot {s : Scope} {x : String} {final : List (String × Nat)}
    (h : (s.slot x).2.Extends final) :
    (s.blocks ++ final).lookup x = some (s.slot x).1 := by
  unfold slot at h ⊢
  cases hx : s.find? x with
  | some n =>
    simp only [hx] at h ⊢
    obtain ⟨new, rfl, hnew⟩ := h
    rw [find?, List.lookup_append] at hx
    rw [List.lookup_append, List.lookup_append]
    cases hb : s.blocks.lookup x with
    | some m => simpa [hb] using hx
    | none =>
      rw [hb, Option.none_or] at hx
      rw [Option.none_or, lookup_new hnew hx, Option.none_or, hx]
  | none =>
    simp only [hx] at h ⊢
    obtain ⟨new, rfl, hnew⟩ := h
    rw [find?, List.lookup_append, Option.or_eq_none_iff] at hx
    have hbound : (s.bind x).routine.lookup x = some s.size := by simp [bind]
    rw [List.lookup_append, hx.1, Option.none_or, List.lookup_append, lookup_new hnew hbound,
      Option.none_or, hbound]

lemma wf_enter {s : Scope} (h : s.Wf) (x : String) : (s.enter x).Wf := by
  constructor
  · intro p hp
    rcases List.mem_cons.mp hp with rfl | hp
    · exact Nat.lt_succ_self _
    · exact (h.below p hp).trans (Nat.lt_succ_self _)
  · change (((x, s.size) :: (s.blocks ++ s.routine)).map Prod.snd).Nodup
    rw [List.map_cons, List.nodup_cons]
    exact ⟨h.size_notMem, h.distinct⟩

/-- A block leaves the scope as it was, apart from what was bound in it. -/
lemma grows_block {s t : Scope} {x : String} (h : (s.enter x).Grows t) : s.Grows t.leave := by
  refine ⟨?_, (Nat.le_succ _).trans h.size, ?_, ?_⟩
  · rw [leave, h.blocks]
    rfl
  · obtain ⟨new, hr, hnew⟩ := h.routine
    exact ⟨new, hr, fun p hp => ⟨(Nat.le_succ _).trans (hnew p hp).1, (hnew p hp).2⟩⟩
  · intro hs
    obtain ⟨hbelow, hdistinct⟩ := h.wf (wf_enter hs x)
    rw [h.blocks] at hbelow hdistinct
    rw [leave, h.blocks]
    constructor
    · exact fun p hp => hbelow p (List.mem_cons_of_mem _ hp)
    · exact (List.nodup_cons.mp hdistinct).2

end Scope

lemma Expr.grows_listWithSlots {es : List (Expr String)}
    (h : ∀ e ∈ es, ∀ s : Scope, s.Grows (e.withSlots s).2) (s : Scope) :
    s.Grows (Expr.listWithSlots es s).2 := by
  induction es generalizing s with
  | nil => exact .refl s
  | cons e es ih =>
    exact (h e (by simp) s).trans (ih (fun e' he' => h e' (List.mem_cons_of_mem e he')) _)

lemma Expr.grows_withSlots (e : Expr String) (s : Scope) : s.Grows (e.withSlots s).2 := by
  induction e generalizing s with
  | literal v => exact .refl s
  | var x => exact s.grows_slot x
  | ifElse c a b hc ha hb => exact ((hc s).trans (ha _)).trans (hb _)
  | apply p es hes => exact Expr.grows_listWithSlots hes s
  | call f es hes => exact Expr.grows_listWithSlots hes s

lemma Stmt.grows_withSlots (st : Stmt String) (s : Scope) : s.Grows (st.withSlots s).2 := by
  induction st generalizing s with
  | skip => exact .refl s
  | block x a ha => exact Scope.grows_block (ha (s.enter x))
  | assign x e => exact (e.grows_withSlots s).trans (Scope.grows_slot _ x)
  | print e => exact e.grows_withSlots s
  | seq a b ha hb => exact (ha s).trans (hb _)
  | ifElse c a b ha hb => exact ((c.grows_withSlots s).trans (ha _)).trans (hb _)
  | ifThen c a ha => exact (c.grows_withSlots s).trans (ha _)
  | whileDo c a ha => exact (c.grows_withSlots s).trans (ha _)
  | repeatUntil a c ha => exact (ha s).trans (c.grows_withSlots _)
  | ret e => exact e.grows_withSlots s
  | call f es => exact Expr.grows_listWithSlots (fun e _ => e.grows_withSlots) s

/-! ### Variables by name and by slot -/

/-- The variables of an activation by their slots. -/
abbrev Slots : Type :=
  Nat → Value

namespace Slots

/-- The slots at the start of an activation. -/
def start (args : List Value) : Slots := fun n => args.getD n 0

instance : Variables Slots Nat where
  get vars n := vars n
  set vars n v := Function.update vars n v
  enter vars n := Function.update vars n 0
  leave vars := vars

end Slots

/-- Names and slots hold the same values, under the bindings of the blocks around and those
that the routine has in the end. -/
structure Bindings.Agrees (blocks final : List (String × Nat)) (vars : Bindings)
    (slots : Slots) : Prop where
  blocks : List.Forall₂ (fun p q => p.1 = q.1 ∧ slots p.2 = q.2) blocks vars.blocks
  routine : ∀ x n, final.lookup x = some n → slots n = vars.routine x

namespace Bindings.Agrees

variable {blocks final : List (String × Nat)} {vars : Bindings} {slots : Slots}

lemma lookup_blocks {bs : List (String × Value)} {x : String}
    (h : List.Forall₂ (fun p q => p.1 = q.1 ∧ slots p.2 = q.2) blocks bs) :
    bs.lookup x = (blocks.lookup x).map slots := by
  induction h with
  | nil => rfl
  | @cons p q ps qs hpq _ ih =>
    obtain ⟨y, n⟩ := p
    obtain ⟨z, v⟩ := q
    obtain ⟨rfl, rfl⟩ := hpq
    simp only [List.lookup_cons]
    by_cases hx : x = y
    · simp [hx]
    · simp [beq_eq_false_iff_ne.mpr hx, ih]

lemma get (h : Agrees blocks final vars slots) {x : String} {n : Nat}
    (hx : (blocks ++ final).lookup x = some n) :
    Variables.get slots n = Variables.get vars x := by
  change slots n = (vars.blocks.lookup x).getD (vars.routine x)
  rw [List.lookup_append] at hx
  rw [lookup_blocks h.blocks]
  cases hb : blocks.lookup x with
  | some m =>
    rw [hb] at hx
    cases hx
    rfl
  | none =>
    rw [hb, Option.none_or] at hx
    exact h.routine x n hx

/-- A value in a slot that no block has changes nothing for the blocks. -/
lemma blocks_update {bs : List (String × Value)} {n : Nat} {v : Value}
    (h : List.Forall₂ (fun p q => p.1 = q.1 ∧ slots p.2 = q.2) blocks bs)
    (hn : n ∉ blocks.map Prod.snd) :
    List.Forall₂ (fun p q => p.1 = q.1 ∧ Function.update slots n v p.2 = q.2) blocks bs := by
  induction h with
  | nil => exact .nil
  | @cons p q ps qs hpq _ ih =>
    simp only [List.map_cons, List.mem_cons, not_or] at hn
    refine .cons ⟨hpq.1, ?_⟩ (ih hn.2)
    rw [Function.update_of_ne (Ne.symm hn.1)]
    exact hpq.2

lemma blocks_setFirst {bs : List (String × Value)} {x : String} {n : Nat} {v : Value}
    (h : List.Forall₂ (fun p q => p.1 = q.1 ∧ slots p.2 = q.2) blocks bs)
    (hnd : (blocks.map Prod.snd).Nodup) (hx : blocks.lookup x = some n) :
    List.Forall₂ (fun p q => p.1 = q.1 ∧ Function.update slots n v p.2 = q.2) blocks
      (setFirst x v bs) := by
  induction h with
  | nil => cases hx
  | @cons p q ps qs hpq htail ih =>
    obtain ⟨y, m⟩ := p
    obtain ⟨z, u⟩ := q
    obtain ⟨rfl, rfl⟩ := hpq
    rw [List.map_cons, List.nodup_cons] at hnd
    rw [List.lookup_cons] at hx
    rw [setFirst]
    by_cases hxy : x = y
    · simp only [hxy, beq_self_eq_true, Option.some.injEq] at hx
      subst hx
      rw [if_pos hxy.symm]
      exact .cons ⟨rfl, Function.update_self ..⟩ (blocks_update htail hnd.1)
    · simp only [beq_eq_false_iff_ne.mpr hxy] at hx
      rw [if_neg (Ne.symm hxy)]
      have hmn : m ≠ n := by
        rintro rfl
        obtain ⟨l₁, l₂, rfl, -⟩ := List.lookup_eq_some_iff.mp hx
        exact hnd.1 (by simp)
      exact .cons ⟨rfl, Function.update_of_ne hmn ..⟩ (ih hnd.2 hx)

lemma mem_of_lookup {bs : List (String × Nat)} {x : String} {n : Nat}
    (h : bs.lookup x = some n) : (x, n) ∈ bs := by
  obtain ⟨l₁, l₂, rfl, -⟩ := List.lookup_eq_some_iff.mp h
  simp

lemma mem_slots_of_lookup {bs : List (String × Nat)} {x : String} {n : Nat}
    (h : bs.lookup x = some n) : n ∈ bs.map Prod.snd :=
  List.mem_map_of_mem (f := Prod.snd) (mem_of_lookup h)

/-- Where slots are distinct, a slot belongs to one name. -/
lemma name_unique {bs : List (String × Nat)} {x y : String} {n : Nat}
    (hnd : (bs.map Prod.snd).Nodup) (hx : bs.lookup x = some n) (hy : bs.lookup y = some n) :
    x = y := by
  have heq := List.inj_on_of_nodup_map hnd (mem_of_lookup hx) (mem_of_lookup hy) rfl
  exact (Prod.mk.inj heq).1

lemma set (h : Agrees blocks final vars slots) (hnd : ((blocks ++ final).map Prod.snd).Nodup)
    {x : String} {n : Nat} (hx : (blocks ++ final).lookup x = some n) (v : Value) :
    Agrees blocks final (Variables.set vars x v) (Variables.set slots n v) := by
  rw [List.map_append, List.nodup_append] at hnd
  obtain ⟨hndb, hndf, hdisj⟩ := hnd
  rw [List.lookup_append] at hx
  change Agrees blocks final (if (vars.blocks.lookup x).isSome then _ else _)
    (Function.update slots n v)
  rw [lookup_blocks h.blocks, Option.isSome_map]
  cases hb : blocks.lookup x with
  | some m =>
    rw [hb] at hx
    cases hx
    rw [if_pos (by simp)]
    refine ⟨blocks_setFirst h.blocks hndb hb, ?_⟩
    intro y k hy
    have hne := hdisj n (mem_slots_of_lookup hb) k (mem_slots_of_lookup hy)
    rw [Function.update_of_ne hne.symm]
    exact h.routine y k hy
  | none =>
    rw [hb, Option.none_or] at hx
    rw [if_neg (by simp)]
    constructor
    · refine blocks_update h.blocks ?_
      intro hn
      exact hdisj n hn n (mem_slots_of_lookup hx) rfl
    · intro y k hy
      change Function.update slots n v k = Function.update vars.routine x v y
      by_cases hxy : y = x
      · subst hxy
        obtain rfl : n = k := Option.some.inj (hx.symm.trans hy)
        rw [Function.update_self, Function.update_self]
      · have hkn : k ≠ n := by
          rintro rfl
          exact hxy (name_unique hndf hy hx)
        rw [Function.update_of_ne hkn, Function.update_of_ne hxy]
        exact h.routine y k hy

lemma enter (h : Agrees blocks final vars slots) {n : Nat}
    (hn : n ∉ (blocks ++ final).map Prod.snd) (x : String) :
    Agrees ((x, n) :: blocks) final (Variables.enter vars x) (Variables.enter slots n) := by
  rw [List.map_append, List.mem_append, not_or] at hn
  constructor
  · exact .cons ⟨rfl, Function.update_self ..⟩ (blocks_update h.blocks hn.1)
  · intro y k hy
    have hkn : k ≠ n := by
      rintro rfl
      exact hn.2 (mem_slots_of_lookup hy)
    change Function.update slots n 0 k = vars.routine y
    rw [Function.update_of_ne hkn]
    exact h.routine y k hy

lemma leave {p : String × Nat} (h : Agrees (p :: blocks) final vars slots) :
    Agrees blocks final (Variables.leave vars) (Variables.leave slots) := by
  obtain ⟨hblocks, hroutine⟩ := h
  refine ⟨?_, hroutine⟩
  change List.Forall₂ _ blocks vars.blocks.tail
  cases hv : vars.blocks with
  | nil => rw [hv] at hblocks; cases hblocks
  | cons q qs =>
    rw [hv] at hblocks
    exact (List.forall₂_cons.mp hblocks).2

end Bindings.Agrees

namespace Scope

lemma Wf.nodup_final {s : Scope} {final : List (String × Nat)} (h : s.Wf)
    (hext : s.Extends final) (hnd : (final.map Prod.snd).Nodup) :
    ((s.blocks ++ final).map Prod.snd).Nodup := by
  obtain ⟨hbelow, hdistinct⟩ := h
  obtain ⟨new, rfl, hnew⟩ := hext
  rw [List.map_append, List.nodup_append] at hdistinct
  rw [List.map_append, List.nodup_append]
  refine ⟨hdistinct.1, hnd, ?_⟩
  intro n hn m hm
  rw [List.map_append, List.mem_append] at hm
  rcases hm with hm | hm
  · obtain ⟨p, hp, rfl⟩ := List.mem_map.mp hn
    obtain ⟨q, hq, rfl⟩ := List.mem_map.mp hm
    have hp' := hbelow p (List.mem_append_left _ hp)
    have hq' := (hnew q hq).1
    omega
  · exact hdistinct.2.2 n hn m hm

/-- The slot of a block is its own in the whole routine. -/
lemma Wf.block_slot {s : Scope} {x : String} {final : List (String × Nat)} (h : s.Wf)
    (hext : (s.enter x).Extends final) : s.size ∉ (s.blocks ++ final).map Prod.snd := by
  obtain ⟨new, rfl, hnew⟩ := hext
  intro hmem
  rw [← List.append_assoc] at hmem
  have hor : s.size ∈ new.map Prod.snd ∨ s.size ∈ (s.blocks ++ s.routine).map Prod.snd := by
    simp only [List.map_append, List.mem_append] at hmem ⊢
    tauto
  rcases hor with hnew' | hold
  · obtain ⟨p, hp, heq⟩ := List.mem_map.mp hnew'
    have hle : s.size + 1 ≤ p.2 := (hnew p hp).1
    omega
  · exact h.size_notMem hold

end Scope

section

variable {call : String → List Value → Action Value} {routine : String}
  {final : List (String × Nat)} {vars : Bindings} {slots : Slots}

lemma Expr.evalAll_listWithSlots {es : List (Expr String)} {s : Scope}
    (hes : ∀ e ∈ es, ∀ s : Scope, (e.withSlots s).2.Extends final →
      Bindings.Agrees s.blocks final vars slots →
      (e.withSlots s).1.eval call routine slots = e.eval call routine vars)
    (hext : (Expr.listWithSlots es s).2.Extends final)
    (h : Bindings.Agrees s.blocks final vars slots) :
    Expr.evalAll call routine slots (Expr.listWithSlots es s).1 =
      Expr.evalAll call routine vars es := by
  induction es generalizing s with
  | nil => rfl
  | cons e es ih =>
    have hgrows := e.grows_withSlots s
    have hrest : (e.withSlots s).2.Grows (Expr.listWithSlots es (e.withSlots s).2).2 :=
      Expr.grows_listWithSlots (fun e _ => e.grows_withSlots) _
    simp only [Expr.listWithSlots, Expr.evalAll]
    rw [hes e (by simp) s (hrest.extended hext) h]
    rw [ih (fun e' he' => hes e' (List.mem_cons_of_mem e he')) hext (hgrows.blocks ▸ h)]

/-- An expression has the same value on slots as on names. -/
lemma Expr.eval_withSlots (e : Expr String) {s : Scope} (hext : (e.withSlots s).2.Extends final)
    (h : Bindings.Agrees s.blocks final vars slots) :
    (e.withSlots s).1.eval call routine slots = e.eval call routine vars := by
  induction e generalizing s with
  | literal v => rfl
  | var x =>
    simp only [Expr.withSlots, Expr.eval]
    rw [h.get (Scope.lookup_slot hext)]
  | ifElse c a b hc ha hb =>
    have hgc := c.grows_withSlots s
    have hga := a.grows_withSlots (c.withSlots s).2
    have hgb := b.grows_withSlots (a.withSlots (c.withSlots s).2).2
    simp only [Expr.withSlots, Expr.eval]
    rw [hc ((hga.trans hgb).extended hext) h, ha (hgb.extended hext) (hgc.blocks ▸ h),
      hb hext ((hgc.trans hga).blocks ▸ h)]
  | apply p es hes =>
    simp only [Expr.withSlots, Expr.eval]
    rw [Expr.evalAll_listWithSlots (fun e he s => hes e he) hext h]
  | call f es hes =>
    simp only [Expr.withSlots, Expr.eval]
    rw [Expr.evalAll_listWithSlots (fun e he s => hes e he) hext h]

end

/-- A statement does on slots what it does on names. -/
lemma Stmt.exec_withSlots {call : String → List Value → Action Value} {routine : String}
    {final : List (String × Nat)} {fuel : Nat} (hnd : (final.map Prod.snd).Nodup)
    (st : Stmt String) {s : Scope} (hs : s.Wf) (hext : (st.withSlots s).2.Extends final)
    {vars : Bindings} {slots : Slots} (h : Bindings.Agrees s.blocks final vars slots) :
    Action.Agrees (Flow.Agrees (Bindings.Agrees s.blocks final))
      (st.exec call routine fuel vars) ((st.withSlots s).1.exec call routine fuel slots) := by
  induction st generalizing s vars slots with
  | skip => exact .pure (.next h)
  | block x a ha =>
    have hgrows := a.grows_withSlots (s.enter x)
    simp only [Stmt.withSlots, Stmt.exec]
    refine Action.Agrees.bind
      (ha (Scope.wf_enter hs x) hext (h.enter (hs.block_slot (hgrows.extended hext)) x)) ?_
    rintro _ _ (hvars | v)
    · exact .pure (.next hvars.leave)
    · exact .pure (.returned v)
  | assign x e =>
    have hgrows := e.grows_withSlots s
    have hslot := (e.withSlots s).2.grows_slot x
    have hlookup := Scope.lookup_slot hext
    rw [hgrows.blocks] at hlookup
    simp only [Stmt.withSlots, Stmt.exec]
    rw [e.eval_withSlots (hslot.extended hext) h]
    refine Action.Agrees.bind (.refl _) ?_
    rintro v _ rfl
    exact .pure (.next (h.set (hs.nodup_final ((hgrows.trans hslot).extended hext) hnd) hlookup v))
  | print e =>
    simp only [Stmt.withSlots, Stmt.exec]
    rw [e.eval_withSlots hext h]
    refine Action.Agrees.bind (.refl _) ?_
    rintro v _ rfl
    refine Action.Agrees.bind (.refl _) ?_
    rintro _ _ -
    exact .pure (.next h)
  | seq a b ha hb =>
    have hga := a.grows_withSlots s
    have hgb := b.grows_withSlots (a.withSlots s).2
    simp only [Stmt.withSlots, Stmt.exec]
    refine Action.Agrees.bind (ha hs (hgb.extended hext) h) ?_
    rintro _ _ (hvars | v)
    · have hb' := hb (hga.wf hs) hext (hga.blocks ▸ hvars)
      rw [hga.blocks] at hb'
      exact hb'
    · exact .pure (.returned v)
  | ifElse c a b ha hb =>
    have hgc := c.grows_withSlots s
    have hga := a.grows_withSlots (c.withSlots s).2
    have hgb := b.grows_withSlots (a.withSlots (c.withSlots s).2).2
    have hab := hgc.trans hga
    simp only [Stmt.withSlots, Stmt.exec]
    rw [c.eval_withSlots ((hga.trans hgb).extended hext) h]
    refine Action.Agrees.bind (.refl _) ?_
    rintro v _ rfl
    split
    · rw [← hgc.blocks]
      exact ha (hgc.wf hs) (hgb.extended hext) (hgc.blocks ▸ h)
    · rw [← hab.blocks]
      exact hb (hab.wf hs) hext (hab.blocks ▸ h)
  | ifThen c a ha =>
    have hgc := c.grows_withSlots s
    have hga := a.grows_withSlots (c.withSlots s).2
    simp only [Stmt.withSlots, Stmt.exec]
    rw [c.eval_withSlots (hga.extended hext) h]
    refine Action.Agrees.bind (.refl _) ?_
    rintro v _ rfl
    split
    · rw [← hgc.blocks]
      exact ha (hgc.wf hs) hext (hgc.blocks ▸ h)
    · exact .pure (.next h)
  | whileDo c a ha =>
    have hgc := c.grows_withSlots s
    have hga := a.grows_withSlots (c.withSlots s).2
    simp only [Stmt.withSlots, Stmt.exec]
    refine loop_agrees ?_ fuel h
    intro vars slots h
    rw [c.eval_withSlots (hga.extended hext) h]
    refine Action.Agrees.bind (.refl _) ?_
    rintro v _ rfl
    split
    · have ha' := ha (hgc.wf hs) hext (hgc.blocks ▸ h)
      rw [hgc.blocks] at ha'
      refine ha'.bind ?_
      rintro _ _ (hvars | v)
      · exact .pure (.again hvars)
      · exact .pure (.over (.returned v))
    · exact .pure (.over (.next h))
  | repeatUntil a c ha =>
    have hga := a.grows_withSlots s
    have hgc := c.grows_withSlots (a.withSlots s).2
    simp only [Stmt.withSlots, Stmt.exec]
    refine loop_agrees ?_ fuel h
    intro vars slots h
    refine (ha hs (hgc.extended hext) h).bind ?_
    rintro _ _ (hvars | v)
    · dsimp only
      rw [c.eval_withSlots hext (hga.blocks ▸ hvars)]
      refine Action.Agrees.bind (.refl _) ?_
      rintro v _ rfl
      split
      · exact .pure (.over (.next hvars))
      · exact .pure (.again hvars)
    · exact .pure (.over (.returned v))
  | ret e =>
    simp only [Stmt.withSlots, Stmt.exec]
    rw [e.eval_withSlots hext h]
    refine Action.Agrees.bind (.refl _) ?_
    rintro v _ rfl
    exact .pure (.returned v)
  | call f es =>
    simp only [Stmt.withSlots, Stmt.exec]
    rw [Expr.evalAll_listWithSlots (fun e _ s => e.eval_withSlots) hext h]
    refine Action.Agrees.bind (.refl _) ?_
    rintro vs _ rfl
    refine Action.Agrees.bind (.refl _) ?_
    rintro _ _ -
    exact .pure (.next h)

/-! ### Activations -/

namespace Scope

lemma wf_empty : empty.Wf :=
  ⟨by simp [empty], by simp [empty]⟩

/-- Binding formals one after the other: each takes the next slot, and with it the argument in
that place. -/
lemma foldl_bind_spec (args : List Value) (formals : List String) {s : Scope} {vals : List Value}
    {vars : String → Value} (hs : s.Wf) (hblocks : s.blocks = [])
    (hlen : formals.length = vals.length) (hvals : args.drop s.size = vals)
    (hvars : ∀ x, vars x = ((s.routine.lookup x).map (Slots.start args)).getD 0) :
    (formals.foldl bind s).Wf ∧ (formals.foldl bind s).blocks = [] ∧
      (formals.foldl bind s).size = s.size + formals.length ∧
      ∀ x, (formals.zip vals).foldl (fun vars (x, v) => Function.update vars x v) vars x =
        (((formals.foldl bind s).routine.lookup x).map (Slots.start args)).getD 0 := by
  induction formals generalizing s vals vars with
  | nil => exact ⟨hs, hblocks, rfl, hvars⟩
  | cons y formals ih =>
    cases vals with
    | nil => simp at hlen
    | cons v vals =>
      have hv : Slots.start args s.size = v := by
        have hget : args[s.size]? = some v := by
          rw [← List.head?_drop, hvals]
          rfl
        simp [Slots.start, hget]
      have hrest : args.drop (s.bind y).size = vals := by
        change args.drop (s.size + 1) = vals
        rw [← List.tail_drop, hvals]
        rfl
      have hvars' : ∀ x, Function.update vars y v x =
          (((s.bind y).routine.lookup x).map (Slots.start args)).getD 0 := by
        intro x
        by_cases hx : x = y
        · simp [bind, hx, hv]
        · rw [Function.update_of_ne hx, hvars x]
          simp [bind, List.lookup_cons, beq_eq_false_iff_ne.mpr hx]
      obtain ⟨hwf, hb, hsize, hlookup⟩ :=
        ih (wf_bind hs y) hblocks (by simpa using hlen) hrest hvars'
      refine ⟨hwf, hb, ?_, hlookup⟩
      rw [List.foldl_cons, hsize]
      simp only [bind, List.length_cons]
      omega

/-- Formals have the first slots, and a name among them has the value of its last one. -/
lemma ofFormals_spec {formals : List String} {args : List Value}
    (hlen : formals.length = args.length) :
    (ofFormals formals).Wf ∧ (ofFormals formals).blocks = [] ∧
      (ofFormals formals).size = args.length ∧
      ∀ x, (Bindings.start formals args).routine x =
        (((ofFormals formals).routine.lookup x).map (Slots.start args)).getD 0 := by
  obtain ⟨hwf, hblocks, hsize, hlookup⟩ := @foldl_bind_spec args formals empty args (fun _ => 0)
    wf_empty rfl hlen rfl (by simp [empty])
  refine ⟨hwf, hblocks, ?_, hlookup⟩
  rw [ofFormals, hsize, hlen]
  exact Nat.zero_add _

end Scope

/-- At the start of an activation, names and slots hold the same values. -/
lemma Bindings.start_agrees {formals : List String} {args : List Value}
    {final : List (String × Nat)} (hlen : formals.length = args.length)
    (hext : (Scope.ofFormals formals).Extends final) :
    Bindings.Agrees [] final (.start formals args) (.start args) := by
  obtain ⟨-, -, hsize, hlookup⟩ := Scope.ofFormals_spec hlen
  obtain ⟨new, rfl, hnew⟩ := hext
  refine ⟨.nil, ?_⟩
  intro x n hx
  rw [List.lookup_append] at hx
  rw [hlookup x]
  cases hn : new.lookup x with
  | some m =>
    rw [hn, Option.some_or] at hx
    cases hx
    obtain ⟨hle, hnone⟩ := hnew _ (Bindings.Agrees.mem_of_lookup hn)
    rw [hsize] at hle
    have hle' : args.length ≤ n := hle
    simp [hnone, Slots.start, hle']
  | none =>
    rw [hn, Option.none_or] at hx
    simp [hx]

namespace Program

/-- The activation of a procedure on slots. -/
def activateSlots? (p : Program) (f : String) (args : List Value) :
    Option (Activation Slots Nat) :=
  match p.procedures.find? (·.name == f) with
  | none => none
  | some q =>
    if q.arity = args.length then
      some ⟨q.name, .start args, (q.body.withSlots (.ofFormals q.formals)).1⟩
    else none

/-- Execute the main statement on slots. -/
def execSlots (p : Program) (fuel : Nat) : Action (Flow Slots) :=
  (p.main.withSlots .empty).1.exec (callWith p.activateSlots? fuel) "main" fuel (.start [])

/-- A routine does on slots what it does on names. -/
lemma body_agrees {call : String → List Value → Action Value} {routine : String} {fuel : Nat}
    (body : Stmt String) {formals : List String} {args : List Value}
    (hlen : formals.length = args.length) :
    Action.Agrees (Flow.Agrees fun _ _ => True)
      (body.exec call routine fuel (Bindings.start formals args))
      ((body.withSlots (.ofFormals formals)).1.exec call routine fuel (Slots.start args)) := by
  obtain ⟨hwf, hblocks, -, -⟩ := Scope.ofFormals_spec hlen
  have hgrows := body.grows_withSlots (Scope.ofFormals formals)
  have hext := Scope.Extends.self (body.withSlots (.ofFormals formals)).2
  have hnd := (hgrows.wf hwf).distinct
  rw [List.map_append, List.nodup_append] at hnd
  have hstart := Bindings.start_agrees hlen (hgrows.extended hext)
  rw [← hblocks] at hstart
  refine (body.exec_withSlots hnd.2.1 hwf hext hstart).mono ?_
  rintro _ _ (- | v)
  · exact .next trivial
  · exact .returned v

/-- Calls have the same results on slots as on names. -/
lemma callWith_activateSlots? (p : Program) (fuel : Nat) :
    callWith p.activateSlots? fuel = callWith p.activate? fuel := by
  induction fuel with
  | zero => rfl
  | succ fuel ih =>
    funext f args
    simp only [callWith, ih]
    unfold activateSlots? activate?
    cases hq : p.procedures.find? (·.name == f) with
    | none => rfl
    | some q =>
      by_cases hlen : q.arity = args.length
      · simp only [hlen, if_true]
        refine (Action.Agrees.eq ?_).symm
        refine Action.Agrees.bind (body_agrees q.body hlen) ?_
        rintro _ _ (- | v)
        · exact .refl _
        · exact .refl _
      · simp [hlen]

/-- A program does on slots what it does on names. -/
lemma exec_agrees (p : Program) (fuel : Nat) :
    Action.Agrees (Flow.Agrees fun _ _ => True) (p.exec fuel) (p.execSlots fuel) := by
  unfold execSlots exec
  rw [callWith_activateSlots?]
  exact body_agrees p.main rfl

end Program

end Izmir
