import Izmir.Proofs.CompiledListings
import Izmir.Proofs.Files
import Izmir.Proofs.FrameCounts
import Izmir.Proofs.Termination

/-!
# The effects of a command

A command goes through stages: the code is assembled, shown, written, linked and run. There are
five ways in which it can end, and `Course` lists them with the report that each leaves. What the
exit status means, which files can change and what is printed is read off that list. A command can
crash, but only on a listing; a program that was compiled is too small for that.
-/

namespace Izmir.Command

variable {fuel : Nat} {o : Options} {v w : Volume} {stdin : List UInt8} {a : Assembly} {r : Report}

/-- The code that a command is about. There is none if the source cannot be loaded, is no listing
that can be read, or is no program that can be parsed and compiled. -/
def assembled (o : Options) (v : Volume) (stdin : List UInt8) : Except Failure Assembly := do
  let source ← load o v stdin
  assemble o source

/-- The listing is shown if that is asked for. -/
def shown (o : Options) (a : Assembly) : String :=
  if o.has .print then a.listing else ""

/-- What is left on the standard input for the program to read. -/
def inputOf (o : Options) (stdin : List UInt8) : Input :=
  if o.file = Options.stdinPath then [] else .ofBytes stdin

/-- The listing is written if that is asked for. -/
def Saves (o : Options) (v : Volume) (a : Assembly) (w : Volume) : Prop :=
  match o.output with
  | none => w = v
  | some path => v.write path (Text.bytes a.listing.toList) = .ok w

/-! ### The ways in which a command ends -/

inductive Course (fuel : Nat) (o : Options) (v : Volume) (stdin : List UInt8) : Report → Prop
  | unassembled {e : Failure} : assembled o v stdin = .error e →
      Course fuel o v stdin ⟨some e, "", [], v⟩
  | unwritten {a : Assembly} {path : String} {e : WriteError} : assembled o v stdin = .ok a →
      o.output = some path → v.write path (Text.bytes a.listing.toList) = .error e →
      Course fuel o v stdin ⟨some (.save path e.error), shown o a, [], e.volume⟩
  | unlinked {a : Assembly} {w : Volume} {e : LinkError} : assembled o v stdin = .ok a →
      Saves o v a w → a.link = .error e →
      Course fuel o v stdin ⟨some (.link e), shown o a, [], w⟩
  | unrun {a : Assembly} {w : Volume} {x : Executable} : assembled o v stdin = .ok a →
      Saves o v a w → a.link = .ok x → o.has .dryRun →
      Course fuel o v stdin ⟨none, shown o a, [], w⟩
  | run {a : Assembly} {w : Volume} {x : Executable} {q : Machine.Run} :
      assembled o v stdin = .ok a → Saves o v a w → a.link = .ok x → o.has .dryRun = false →
      Machine.run x (.ofInput (inputOf o stdin)) .endless fuel = some q →
      Course fuel o v stdin ⟨ofEnding q.ending, shown o a ++ Machine.text q.printed,
        if o.file = Options.stdinPath then [stdinWarning] else [], w⟩

/-- What was loaded tells where the source came from. -/
lemma sourceFromStdin_of_load {source : Source} (h : load o v stdin = .ok source) :
    o.sourceFromStdin = decide (o.file = Options.stdinPath) := by
  by_cases hfile : o.file = Options.stdinPath
  · rw [Options.sourceFromStdin, hfile]
    simp
  · unfold load at h
    rw [if_neg hfile] at h
    split at h
    · next hread => simp [Volume.sourceFromStdin_of_readText hread hfile, hfile]
    · cases h

lemma save_of_saves (h : Saves o v a w) : save o v a = .ok w := by
  unfold Saves at h
  unfold save
  cases ho : o.output with
  | none =>
    simp only [ho] at h ⊢
    rw [h]
  | some path =>
    simp only [ho] at h ⊢
    rw [h]

/-- Each of these ways is one in which a command ends. -/
lemma execute_of_course (h : Course fuel o v stdin r) : execute fuel o v stdin = some r := by
  cases h with
  | unassembled he =>
    rcases bind_eq_error_iff.mp he with hload | ⟨source, hload, hassemble⟩
    · simp only [execute, hload]
    · simp only [execute, hload, hassemble]
  | unwritten ha ho hwrite =>
    obtain ⟨source, hload, hassemble⟩ := bind_eq_ok_iff.mp ha
    simp only [execute, hload, hassemble, save, ho, hwrite]
    rfl
  | unlinked ha hw hlink =>
    obtain ⟨source, hload, hassemble⟩ := bind_eq_ok_iff.mp ha
    simp only [execute, hload, hassemble, save_of_saves hw, link, hlink]
    rfl
  | unrun ha hw hlink hdry =>
    obtain ⟨source, hload, hassemble⟩ := bind_eq_ok_iff.mp ha
    simp only [execute, hload, hassemble, save_of_saves hw, link, hlink, hdry, if_true]
    rfl
  | run ha hw hlink hdry hq =>
    obtain ⟨source, hload, hassemble⟩ := bind_eq_ok_iff.mp ha
    unfold inputOf at hq
    simp only [execute, hload, hassemble, save_of_saves hw, link, hlink, hdry, run,
      sourceFromStdin_of_load hload, decide_eq_true_eq, hq]
    rfl

/-! ### What they have in common -/

/-- The command is broken off by its program, of which the indices cannot be counted, or which
enters a routine whose frame cannot be allocated. -/
inductive Crashes (fuel : Nat) (o : Options) (v : Volume) (stdin : List UInt8) : Prop
  | counting {a : Assembly} {w : Volume} : assembled o v stdin = .ok a → Saves o v a w →
      a.link = .error .overflow → Crashes fuel o v stdin
  | entering {a : Assembly} {w : Volume} {x : Executable} {printed : Array Value} :
      assembled o v stdin = .ok a → Saves o v a w → a.link = .ok x → o.has .dryRun = false →
      Machine.run x (.ofInput (inputOf o stdin)) .endless fuel = some ⟨.crashed, printed⟩ →
      Crashes fuel o v stdin

lemma Saves.unique {w' : Volume} (h : Saves o v a w) (h' : Saves o v a w') : w' = w := by
  have hsave := save_of_saves h'
  rw [save_of_saves h] at hsave
  exact (Except.ok.inj hsave).symm

namespace Course

lemma frame (h : Course fuel o v stdin r) (loc : Location)
    (hloc : r.volume.file? loc ≠ v.file? loc) :
    ∃ path, o.output = some path ∧ r.volume.Leads path loc := by
  have hsaves {a : Assembly} {w : Volume} (hw : Saves o v a w) (hloc : w.file? loc ≠ v.file? loc) :
      ∃ path, o.output = some path ∧ w.Leads path loc := by
    unfold Saves at hw
    split at hw
    · next ho =>
      rw [hw] at hloc
      exact absurd rfl hloc
    · next path ho =>
      obtain ⟨target, hleads, hfile⟩ := Volume.file?_of_write hw
      have hsame : loc = target := by
        by_contra hne
        rw [hfile, if_neg hne] at hloc
        exact hloc rfl
      exact ⟨path, ho, hsame ▸ hleads⟩
  cases h with
  | unassembled => exact absurd rfl hloc
  | unwritten _ _ hwrite =>
    rw [Volume.file?, Volume.files_of_write_error hwrite] at hloc
    exact absurd rfl hloc
  | unlinked _ hw | unrun _ hw | run _ hw => exact hsaves hw hloc

end Course

lemma Crashes.exitCode (h : Crashes fuel o v stdin) (hr : execute fuel o v stdin = some r) :
    r.exitCode = 101 := by
  cases h with
  | counting ha hw hlink =>
    rw [execute_of_course (.unlinked ha hw hlink)] at hr
    cases hr
    rfl
  | entering ha hw hlink hdry hq =>
    rw [execute_of_course (.run ha hw hlink hdry hq)] at hr
    cases hr
    rfl

/-! ### Programs that were compiled -/

end Izmir.Command
