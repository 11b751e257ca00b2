import Izmir.Command
import Izmir.Proofs.Linking
import Izmir.Proofs.PrintedValues

/-!
# Files that were written

A file that was written is read back from the same path, and all other files stay as they are.
All files do if it cannot be written, but directories on the way to it may have been made. Putting
a file somewhere takes nothing away: directories stay directories and what was there is still
there, so a walk that succeeded before leads to the same place afterwards. A path from which a
file can be read is not taken for the standard input, unless it is the one that stands for it.
-/

namespace Izmir.Command

namespace Volume

variable {v w : Volume} {loc target next : Location} {content : List UInt8}

/-! ### Putting a file -/

lemma lookup_filter_of_ne (files : List (Location × List UInt8)) (h : loc ≠ target) :
    (files.filter (·.1 ≠ target)).lookup loc = files.lookup loc := by
  induction files with
  | nil => rfl
  | cons f files ih =>
    by_cases hf : f.1 = target
    · have hloc : (loc == f.1) = false := by simpa [hf] using h
      rw [List.filter_cons_of_neg (by simpa using hf), ih, List.lookup_cons, hloc]
    · rw [List.filter_cons_of_pos (by simpa using hf), List.lookup_cons, List.lookup_cons, ih]

lemma node?_put_self : (v.put loc content).node? loc = some (.file content) := by
  simp [node?, put]

/-- What stands elsewhere stays what it is. -/
lemma node?_put_of_ne (h : loc ≠ target) {n : Node} (hn : v.node? loc = some n) :
    (v.put target content).node? loc = some n := by
  have hlookup : (v.put target content).files.lookup loc = v.files.lookup loc := by
    have hne : (loc == target) = false := by simpa using h
    rw [put, List.lookup_cons, hne, lookup_filter_of_ne _ h]
  unfold node? at hn ⊢
  rw [hlookup]
  cases hfile : v.files.lookup loc with
  | some old => simpa [hfile] using hn
  | none =>
    simp only [hfile] at hn ⊢
    split at hn
    · rename_i hdirectory
      rw [if_pos]
      · exact hn
      · -- A file below `loc` is still there, or another one has taken its place.
        simp only [Bool.or_eq_true, decide_eq_true_eq, List.any_eq_true] at hdirectory ⊢
        refine hdirectory.imp_right ?_
        rintro ⟨f, hf, hleads⟩
        by_cases hft : f.1 = target
        · exact ⟨(target, content), List.mem_cons_self, by rwa [← hft]⟩
        · exact ⟨f, List.mem_cons_of_mem _ (List.mem_filter.mpr ⟨hf, by simpa using hft⟩), hleads⟩
    · cases hn

lemma isSome_node?_put (h : (v.node? loc).isSome) : ((v.put target content).node? loc).isSome := by
  by_cases hloc : loc = target
  · rw [hloc, node?_put_self, Option.isSome_some]
  · obtain ⟨n, hn⟩ := Option.isSome_iff_exists.mp h
    rw [node?_put_of_ne hloc hn, Option.isSome_some]

lemma isDirectory_put (htarget : v.isDirectory target = false) (h : v.isDirectory loc) :
    (v.put target content).isDirectory loc := by
  have hne : loc ≠ target := by
    rintro rfl
    rw [htarget] at h
    cases h
  simp only [isDirectory, decide_eq_true_eq] at h ⊢
  exact node?_put_of_ne hne h

/-! ### Walking -/

lemma entry_eq_ok_iff {name : String} :
    v.entry loc name = .ok next ↔
      v.isDirectory loc ∧ name.utf8ByteSize ≤ 255 ∧ next = loc.child name := by
  unfold entry
  cases v.isDirectory loc with
  | false => simp
  | true =>
    by_cases hname : 255 < name.utf8ByteSize
    · simp [hname]
    · simp [hname, Nat.le_of_not_lt hname, eq_comm]

lemma walk_into_eq_ok_iff {name : String} {steps : List Step} :
    v.walk loc (.into name :: steps) = .ok next ↔
      ∃ entry, v.entry loc name = .ok entry ∧ (v.node? entry).isSome ∧
        v.walk entry steps = .ok next := by
  rw [walk, bind_eq_ok_iff]
  refine exists_congr fun entry => and_congr_right fun _ => ?_
  cases (v.node? entry).isSome <;> simp

lemma walk_append {steps steps' : List Step} :
    v.walk loc (steps ++ steps') = .ok next ↔
      ∃ middle, v.walk loc steps = .ok middle ∧ v.walk middle steps' = .ok next := by
  induction steps generalizing loc with
  | nil => simp [walk]
  | cons step steps ih =>
    cases step with
    | here | up =>
      rw [List.cons_append, walk, walk]
      cases v.isDirectory loc with
      | false => simp
      | true => simpa using ih
    | into name =>
      simp only [List.cons_append, walk_into_eq_ok_iff, ih]
      constructor
      · rintro ⟨entry, hentry, hnode, middle, hmiddle, hnext⟩
        exact ⟨middle, ⟨entry, hentry, hnode, hmiddle⟩, hnext⟩
      · rintro ⟨middle, ⟨entry, hentry, hnode, hmiddle⟩, hnext⟩
        exact ⟨entry, hentry, hnode, middle, hmiddle, hnext⟩

/-- A walk still leads where it led after a file was put somewhere. -/
lemma walk_put (htarget : v.isDirectory target = false) {steps : List Step}
    (h : v.walk loc steps = .ok next) : (v.put target content).walk loc steps = .ok next := by
  induction steps generalizing loc with
  | nil => exact h
  | cons step steps ih =>
    cases step with
    | here | up =>
      rw [walk] at h ⊢
      split at h
      · rename_i hdirectory
        rw [if_pos (isDirectory_put htarget hdirectory)]
        exact ih h
      · cases h
    | into name =>
      obtain ⟨entry, hentry, hnode, hwalk⟩ := walk_into_eq_ok_iff.mp h
      obtain ⟨hdirectory, hname⟩ := entry_eq_ok_iff.mp hentry
      refine walk_into_eq_ok_iff.mpr ⟨entry, ?_, isSome_node?_put hnode, ih hwalk⟩
      exact entry_eq_ok_iff.mpr ⟨isDirectory_put htarget hdirectory, hname⟩

/-! ### Writing and reading -/

/-- What it takes to replace a file. -/
lemma replace_eq_ok {path : String} (h : v.replace path content = .ok w) :
    Path.fits path ∧ Path.endsInSlash path = false ∧ ∃ before name loc next,
      Path.steps path = before ++ [.into name] ∧ v.walk (.start path) before = .ok loc ∧
        v.entry loc name = .ok next ∧ v.isDirectory next = false ∧ w = v.put next content := by
  unfold replace at h
  split at h
  · cases h
  · rename_i hfits
    split at h
    · cases h
    · rename_i last before hsteps
      obtain ⟨loc, hwalk, h⟩ := bind_eq_ok_iff.mp h
      have hsplit : Path.steps path = before.reverse ++ [last] := by
        rw [← List.reverse_cons, ← hsteps, List.reverse_reverse]
      split at h
      · cases h
      · cases last with
        | here | up => cases h
        | into name =>
          simp only at h
          split at h
          · cases h
          · rename_i hslash
            obtain ⟨next, hentry, h⟩ := bind_eq_ok_iff.mp h
            split at h
            · cases h
            · rename_i hdirectory
              cases h
              exact ⟨by simpa using hfits, by simpa using hslash, _, name, loc, next, hsplit,
                hwalk, hentry, by simpa using hdirectory, rfl⟩

/-- A path leads to a place. -/
def Leads (v : Volume) (path : String) (loc : Location) : Prop :=
  v.walk (.start path) (Path.steps path) = .ok loc

/-- A file that was replaced stands where its path leads. -/
lemma leads_of_replace {path : String} (h : v.replace path content = .ok w) :
    ∃ target, w = v.put target content ∧ w.Leads path target := by
  obtain ⟨-, -, before, name, loc, next, hsteps, hwalk, hentry, hnew, rfl⟩ := replace_eq_ok h
  obtain ⟨hdirectory, hname⟩ := entry_eq_ok_iff.mp hentry
  have hfound : ((v.put next content).node? next).isSome := by
    rw [node?_put_self, Option.isSome_some]
  have hlast : (v.put next content).walk loc [.into name] = .ok next := by
    refine walk_into_eq_ok_iff.mpr ⟨next, ?_, hfound, rfl⟩
    exact entry_eq_ok_iff.mpr ⟨isDirectory_put hnew hdirectory, hname⟩
  refine ⟨next, rfl, ?_⟩
  rw [Leads, hsteps]
  exact walk_append.mpr ⟨loc, walk_put hnew hwalk, hlast⟩

lemma orLeave_eq_ok_iff {α : Type} {attempt : Except FileError α} {a : α} :
    v.orLeave attempt = .ok a ↔ attempt = .ok a := by
  cases attempt <;> simp [orLeave, Except.mapError]

/-- What was written to a path is read from it. -/
lemma read_of_write {path : String} (h : v.write path content = .ok w) :
    w.read path = .ok content := by
  obtain ⟨u, -, h⟩ := bind_eq_ok_iff.mp h
  rw [orLeave_eq_ok_iff] at h
  obtain ⟨hfits, hslash, -⟩ := replace_eq_ok h
  obtain ⟨target, rfl, hleads⟩ := leads_of_replace h
  rw [read, hfits, hleads]
  simp [node?_put_self, hslash, bind, Except.bind]

lemma readText_eq_ok_iff {path text : String} :
    v.readText path = .ok text ↔
      ∃ bytes, v.read path = .ok bytes ∧ Text.ofBytes? bytes = some text := by
  rw [readText, bind_eq_ok_iff]
  refine exists_congr fun bytes => and_congr_right fun _ => ?_
  rw [decode]
  cases Text.ofBytes? bytes <;> simp

/-- A text that was written is read as a text. -/
lemma readText_of_write {path text : String} (h : v.write path (Text.bytes text.toList) = .ok w) :
    w.readText path = .ok text := by
  refine readText_eq_ok_iff.mpr ⟨_, read_of_write h, ?_⟩
  rw [Text.ofBytes?_bytes, String.ofList_toList]

/-! ### All other files -/

/-- The content of the file at a place. -/
def file? (v : Volume) (loc : Location) : Option (List UInt8) :=
  v.files.lookup loc

lemma file?_put :
    (v.put target content).file? loc = if loc = target then some content else v.file? loc := by
  rw [file?, put, List.lookup_cons]
  by_cases h : loc = target
  · simp [h]
  · have hne : (loc == target) = false := by simpa using h
    rw [hne, lookup_filter_of_ne _ h, if_neg h]
    rfl

/-- The volume that an attempt leaves, whether or not it succeeds. -/
def leftBy : Except WriteError Volume → Volume
  | .ok w => w
  | .error e => e.volume

/-- If all that may follow on a step leaves the files, then so does the failure of the step. -/
lemma files_leftBy_orLeave {α : Type} {attempt : Except FileError α}
    {next : α → Except WriteError Volume} (h : ∀ a, (leftBy (next a)).files = v.files) :
    (leftBy (v.orLeave attempt >>= next)).files = v.files := by
  cases attempt with
  | ok a => exact h a
  | error e => rfl

/-- Making directories leaves all files as they are. -/
lemma files_makeEach (v : Volume) (loc : Location) (steps : List Step) :
    (leftBy (v.makeEach loc steps)).files = v.files := by
  induction steps generalizing v loc with
  | nil => rfl
  | cons step steps ih =>
    cases step with
    | here | up => exact ih v _
    | into name =>
      refine files_leftBy_orLeave fun next => ?_
      split
      · exact ih v next
      · rfl
      · exact ih (v.addDirectory next) next

lemma files_makeDirectories (v : Volume) (loc : Location) (steps : List Step) :
    (leftBy (v.makeDirectories loc steps)).files = v.files := by
  induction steps generalizing loc with
  | nil => rfl
  | cons step steps ih =>
    cases step with
    | here | up => exact ih _
    | into name =>
      refine files_leftBy_orLeave fun next => ?_
      split
      · exact ih next
      · rfl
      · exact files_makeEach v loc _

lemma files_makePath (v : Volume) (path : String) :
    (leftBy (v.makePath path)).files = v.files := by
  unfold makePath
  split
  · exact files_makeDirectories v _ _
  · rfl

/-- Writing a file changes the file at the place where its path leads, and no other. -/
lemma file?_of_write {path : String} (h : v.write path content = .ok w) :
    ∃ target, w.Leads path target ∧
      ∀ loc, w.file? loc = if loc = target then some content else v.file? loc := by
  obtain ⟨u, hmake, h⟩ := bind_eq_ok_iff.mp h
  have hfiles : u.files = v.files := by
    rw [← v.files_makePath (Path.parent path), hmake]
    rfl
  obtain ⟨target, rfl, hleads⟩ := leads_of_replace (orLeave_eq_ok_iff.mp h)
  refine ⟨target, hleads, fun loc => ?_⟩
  rw [file?_put, file?, file?, hfiles]

/-- A file that could not be written has changed no file. -/
lemma files_of_write_error {path : String} {e : WriteError}
    (h : v.write path content = .error e) : e.volume.files = v.files := by
  have hfiles := v.files_makePath (Path.parent path)
  rcases bind_eq_error_iff.mp h with hmake | ⟨u, hmake, h⟩
  · rw [hmake] at hfiles
    exact hfiles
  · rw [hmake] at hfiles
    cases hreplace : u.replace path content with
    | ok w =>
      rw [hreplace] at h
      cases h
    | error e =>
      rw [hreplace] at h
      cases h
      exact hfiles

/-! ### Files that can be read -/

/-- The path of a file does not end by staying where it is. -/
lemma steps_ne_of_read {path : String} (h : v.read path = .ok content) (before : List Step) :
    Path.steps path ≠ before ++ [.here] := by
  intro hsteps
  unfold read at h
  split at h
  · cases h
  · obtain ⟨loc, hwalk, h⟩ := bind_eq_ok_iff.mp h
    rw [hsteps, walk_append] at hwalk
    obtain ⟨middle, -, hlast⟩ := hwalk
    rw [walk] at hlast
    split at hlast
    · rename_i hdirectory
      cases hlast
      simp only [isDirectory, decide_eq_true_eq] at hdirectory
      rw [hdirectory] at h
      cases h
    · cases hlast

lemma endsInSlash_of_read {path : String} (h : v.read path = .ok content) :
    Path.endsInSlash path = false := by
  unfold read at h
  split at h
  · cases h
  · obtain ⟨loc, -, h⟩ := bind_eq_ok_iff.mp h
    split at h
    · split at h
      · cases h
      · rename_i hslash
        simpa using hslash
    · cases h
    · cases h

end Volume

/-! ### The path of the standard input -/

section

open Text

lemma exists_pieces_eq_cons {separator c : Char} (hc : c ≠ separator) (cs : List Char) :
    ∃ p ps, pieces separator (c :: cs) = (c :: p) :: ps := by
  rw [pieces, if_neg hc]
  cases pieces separator cs with
  | nil => exact ⟨[], [], rfl⟩
  | cons p ps => exact ⟨p, ps, rfl⟩

/-- A text that does not end in a separator does not end in an empty piece. -/
lemma getLast?_pieces_ne {separator : Char} {cs : List Char} (hne : cs ≠ [])
    (h : cs.getLast? ≠ some separator) : (pieces separator cs).getLast? ≠ some [] := by
  induction cs with
  | nil => exact absurd rfl hne
  | cons c cs ih =>
    cases cs with
    | nil =>
      have hc : c ≠ separator := by simpa using h
      simp [pieces, hc]
    | cons d cs =>
      have hrest := ih (List.cons_ne_nil d cs) (by simpa [List.getLast?_cons_cons] using h)
      rw [pieces]
      split
      · cases hps : pieces separator (d :: cs) with
        | nil => simp [pieces_eq_splitOn, List.splitOn_ne_nil] at hps
        | cons p ps =>
          rw [hps] at hrest
          rwa [List.getLast?_cons_cons]
      · cases hps : pieces separator (d :: cs) with
        | nil => simp
        | cons p ps =>
          rw [hps] at hrest
          cases ps with
          | nil => simp
          | cons q ps => rwa [List.getLast?_cons_cons] at hrest ⊢

end

namespace Path

lemma step?_eq_none_iff {piece : List Char} : step? piece = none ↔ piece = [] := by
  unfold step?
  split
  · simpa
  · split
    · simp_all
    · split <;> simp_all

lemma ofList_of_step? {piece : List Char} {name : String} (h : step? piece = some (.into name)) :
    String.ofList piece = name := by
  unfold step? at h
  split at h
  · cases h
  · split at h
    · cases h
    · split at h
      · cases h
      · exact Step.into.inj (Option.some.inj h)

/-- A relative path of one step that does not end in a slash is the name itself. -/
lemma eq_of_steps {path name : String} (habsolute : isAbsolute path = false)
    (hslash : endsInSlash path = false) (h : steps path = [.into name]) : path = name := by
  cases hcs : path.toList with
  | nil => simp [steps, hcs, Text.pieces, step?] at h
  | cons c cs =>
    have hc : c ≠ '/' := by simpa [isAbsolute, hcs] using habsolute
    obtain ⟨p, ps, hps⟩ := exists_pieces_eq_cons hc cs
    have hlast := getLast?_pieces_ne (List.cons_ne_nil c cs) (by
      simpa [endsInSlash, hcs] using hslash)
    rw [steps, hcs, hps, List.filterMap_cons] at h
    cases hstep : step? (c :: p) with
    | none => exact absurd (step?_eq_none_iff.mp hstep) (List.cons_ne_nil c p)
    | some s =>
      simp only [hstep, List.cons.injEq, List.filterMap_eq_nil_iff, step?_eq_none_iff] at h
      obtain ⟨rfl, hempty⟩ := h
      -- All further pieces are empty, and the last one is not.
      have hps' : ps = [] := by
        rw [hps] at hlast
        rcases List.eq_nil_or_concat' ps with rfl | ⟨qs, q, rfl⟩
        · rfl
        · rw [← List.cons_append, List.getLast?_concat, hempty q (by simp)] at hlast
          exact absurd rfl hlast
      have hjoin : ['/'].intercalate ((c :: cs).splitOn '/') = c :: cs :=
        List.intercalate_splitOn '/'
      rw [← Text.pieces_eq_splitOn, hps, hps', List.intercalate_singleton] at hjoin
      rw [← String.ofList_toList (s := path), hcs, ← hjoin]
      exact ofList_of_step? hstep

/-- Slashes and dots at the end make a path of one component, but no path of a file. -/
lemma eq_of_components {path name : String} (h : components path = (false, [.into name]))
    (hslash : endsInSlash path = false) (hhere : ∀ before, steps path ≠ before ++ [.here]) :
    path = name := by
  unfold components at h
  cases habsolute : isAbsolute path with
  | true => simp [habsolute] at h
  | false =>
    cases hsteps : steps path with
    | nil => simp [habsolute, hsteps] at h
    | cons s ss =>
      cases s with
      | here => simp [habsolute, hsteps] at h
      | up => simp [habsolute, hsteps] at h
      | into first =>
        have hfilter : first = name ∧ ∀ s ∈ ss, s = .here := by
          simpa [habsolute, hsteps] using h
        obtain ⟨rfl, hss⟩ := hfilter
        rcases List.eq_nil_or_concat' ss with rfl | ⟨before, last, rfl⟩
        · exact eq_of_steps habsolute hslash hsteps
        · rw [hss last (by simp), ← List.cons_append] at hsteps
          exact absurd hsteps (hhere _)

end Path

lemma Volume.sourceFromStdin_of_readText {v : Volume} {text : String} {o : Options}
    (h : v.readText o.file = .ok text) (hfile : o.file ≠ Options.stdinPath) :
    o.sourceFromStdin = false := by
  obtain ⟨bytes, h, -⟩ := readText_eq_ok_iff.mp h
  rw [Options.sourceFromStdin, beq_eq_false_iff_ne]
  intro hcomponents
  exact hfile (Path.eq_of_components hcomponents (endsInSlash_of_read h) (steps_ne_of_read h))

end Izmir.Command
