import Izmir.Proofs.CompiledListings
import Izmir.Proofs.Files

/-!
# Replaying a listing

A command that compiles a program, writes its listing to a file and runs it, and a command that
runs this file as a listing leave the same report. The listing is read back as the routines that
were compiled. Only the name under which they are known is another one, and neither linking nor
running looks at it.
-/

namespace Izmir.Command

/-- A command that gets as far as linking some code and running it, with nothing shown before.
It leaves a volume behind. -/
structure Prepares (o : Options) (v : Volume) (stdin : List UInt8) (a : Assembly) (w : Volume) :
    Prop where
  assemble : ∃ source, load o v stdin = .ok source ∧ assemble o source = .ok a
  save : save o v a = .ok w
  print : o.has .print = false
  dryRun : o.has .dryRun = false

namespace Prepares

variable {o o' : Options} {v v' w : Volume} {stdin : List UInt8} {a a' : Assembly}

lemma execute_of_link_error (h : Prepares o v stdin a w) {e : Failure} (hlink : link a = .error e)
    (fuel : Nat) : execute fuel o v stdin = some ⟨some e, "", [], w⟩ := by
  obtain ⟨source, hload, hassemble⟩ := h.assemble
  simp only [execute, hload, hassemble, h.save, h.print, hlink, Bool.false_eq_true, if_false]

lemma execute_of_link_ok (h : Prepares o v stdin a w) {x : Executable} (hlink : link a = .ok x)
    (fuel : Nat) :
    execute fuel o v stdin = (run fuel o x stdin).map fun r =>
      ⟨ofEnding r.ending, Machine.text r.printed,
        if o.sourceFromStdin then [stdinWarning] else [], w⟩ := by
  obtain ⟨source, hload, hassemble⟩ := h.assemble
  simp only [execute, hload, hassemble, h.save, h.print, h.dryRun, hlink, Bool.false_eq_true,
    if_false, String.empty_append]

lemma volume_eq (h : Prepares o v stdin a w) {fuel : Nat} {r : Report}
    (hr : execute fuel o v stdin = some r) : r.volume = w := by
  cases hlink : link a with
  | error e =>
    rw [h.execute_of_link_error hlink] at hr
    cases hr
    rfl
  | ok x =>
    rw [h.execute_of_link_ok hlink] at hr
    obtain ⟨_, -, rfl⟩ := Option.map_eq_some_iff.mp hr
    rfl

/-- Commands that link to the same, neither of them taken from the standard input. -/
lemma execute_eq (h : Prepares o v stdin a w) (h' : Prepares o' v' stdin a' w)
    (hsame : a'.link = a.link) (hsource : o.sourceFromStdin = false)
    (hsource' : o'.sourceFromStdin = false) (fuel : Nat) :
    execute fuel o' v' stdin = execute fuel o v stdin := by
  have hlink' : link a' = link a := by rw [link, link, hsame]
  cases hlink : link a with
  | error e =>
    rw [h.execute_of_link_error hlink, h'.execute_of_link_error (hlink'.trans hlink)]
  | ok x =>
    rw [h.execute_of_link_ok hlink, h'.execute_of_link_ok (hlink'.trans hlink)]
    simp only [run, hsource, hsource']

end Prepares

lemma load_of_readText {o : Options} {v : Volume} {content : String}
    (hfile : o.file ≠ Options.stdinPath) (hread : v.readText o.file = .ok content)
    (stdin : List UInt8) : load o v stdin = .ok ⟨o.file, content⟩ := by
  simp only [load, hfile, if_false, hread]

/-- A written listing replays the program. When a file is read, parsed and compiled and the
listing is written, then running the program there and then and running the listing from where
it was written, on the files left behind and the same standard input, have the same report: the
same failure or none, and the same output. That holds after any number of steps, so neither of
the two runs forever without the other. The text of a program in memory has fewer than `2 ^ 63`
characters. -/
theorem written_listing_replays {o : Options} {v w : Volume} {content path : String}
    {p : Program} {a : Assembly} (hfile : o.file ≠ Options.stdinPath)
    (hfeed : '\n' ∉ o.file.toList) (hread : v.readText o.file = .ok content)
    (hcontent : content.length < 2 ^ 63) (hparse : Program.parse? o.file content = some p)
    (hcompile : p.compile o.config = .ok a)
    (hflags : ∀ f ∈ o.flags, f ∉ [.routine, .print, .dryRun])
    (houtput : o.output = some path) (hpath : path ≠ Options.stdinPath)
    (hwrite : v.write path (Text.bytes a.listing.toList) = .ok w) (flags : List Flag)
    (hroutine : .routine ∈ flags) (hplain : ∀ f ∈ flags, f ∉ [.print, .dryRun])
    (stdin : List UInt8) (fuel : Nat) :
    execute fuel ⟨path, flags, none⟩ w stdin = execute fuel o v stdin ∧
      ∀ r, execute fuel o v stdin = some r → r.volume = w := by
  have hhas {o : Options} {f : Flag} (hf : f ∉ o.flags) : o.has f = false := by
    simpa [Options.has] using hf
  have hcompiled : Prepares o v stdin a w := by
    refine ⟨⟨_, load_of_readText hfile hread stdin, ?_⟩, ?_, hhas fun h => ?_, hhas fun h => ?_⟩
    · have hlisting : o.has .routine = false := hhas fun h => hflags _ h (by simp)
      simp only [assemble, hlisting, Bool.false_eq_true, if_false, hparse, hcompile]
    · simp only [save, houtput, hwrite]
    · exact hflags _ h (by simp)
    · exact hflags _ h (by simp)
  have hwritten : w.readText path = .ok a.listing := Volume.readText_of_write hwrite
  have hlisted : Prepares ⟨path, flags, none⟩ w stdin { a with source := path } w := by
    refine ⟨⟨_, load_of_readText hpath hwritten stdin, ?_⟩, rfl, hhas fun h => ?_, hhas fun h => ?_⟩
    · have hlisting : Options.has ⟨path, flags, none⟩ .routine = true := by
        simpa [Options.has] using hroutine
      have hlines := Program.read_listing_of_parse? hparse hcontent hfeed hcompile path
      simp only [assemble, hlisting, if_true, hlines]
    · exact hplain _ h (by simp)
    · exact hplain _ h (by simp)
  refine ⟨hcompiled.execute_eq hlisted rfl ?_ ?_ fuel, fun r => hcompiled.volume_eq⟩
  · exact Volume.sourceFromStdin_of_readText hread hfile
  · exact Volume.sourceFromStdin_of_readText (o := ⟨path, flags, none⟩) hwritten hpath

/-- Print a number and a quotient by it, for three and for what is read. -/
def quotients : String :=
  "procedure f(a)begin print a;return 6/a;end print f(3);print f(input)"

def quotientFiles : Volume :=
  .ofFiles [("q.izm", quotients)]

/-- On zero the program fails in the middle of its work, and so does the listing that it has
left behind. -/
theorem quotients_replayed :
    ∃ r, execute 100 ⟨"q.izm", [.stack], some "out/q"⟩ quotientFiles (Text.bytes ['0']) = some r ∧
      execute 100 ⟨"out/q", [.routine], none⟩ r.volume (Text.bytes ['0']) = some r ∧
      r.failure = some (.run (.divisionByZero "f")) ∧ r.stdout = "3\n2\n0\n" := by
  have hcompiles : (Program.parse? "q.izm" quotients).any
      fun p => (p.compile ⟨.stack, true⟩).isOk := by
    decide +kernel
  obtain ⟨p, hparse, hok⟩ := (Option.any_eq_true _ _).mp hcompiles
  obtain ⟨a, hcompile⟩ : ∃ a, p.compile ⟨.stack, true⟩ = .ok a := by
    cases hc : p.compile ⟨.stack, true⟩ with
    | error e => simp [hc, Except.isOk, Except.toBool] at hok
    | ok a => exact ⟨a, rfl⟩
  have hread : quotientFiles.readText "q.izm" = .ok quotients := by
    decide +kernel
  obtain ⟨w, hwrite⟩ : ∃ w, quotientFiles.write "out/q" (Text.bytes a.listing.toList) = .ok w :=
    ⟨_, rfl⟩
  have hrun : (execute 100 ⟨"q.izm", [.stack], some "out/q"⟩ quotientFiles
      (Text.bytes ['0'])).map (fun r => (r.failure, r.stdout)) =
      some (some (.run (.divisionByZero "f")), "3\n2\n0\n") := by
    decide +kernel
  obtain ⟨r, hr, hseen⟩ := Option.map_eq_some_iff.mp hrun
  obtain ⟨hreplay, hvolume⟩ := @written_listing_replays ⟨"q.izm", [.stack], some "out/q"⟩
    quotientFiles w quotients "out/q" p a (by decide) (by decide) hread (by decide) hparse hcompile
    (by decide) rfl (by decide) hwrite [.routine] (by decide) (by decide) (Text.bytes ['0']) 100
  obtain ⟨hfailure, hstdout⟩ := Prod.mk.inj hseen
  refine ⟨r, hr, ?_, hfailure, hstdout⟩
  rw [hvolume r hr, hreplay, hr]

end Izmir.Command
