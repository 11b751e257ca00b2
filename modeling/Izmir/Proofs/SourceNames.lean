import Izmir.Proofs.CompiledListings

/-!
# Source names in listings

The title of a listing is a comment that holds the name of the source as it stands. A name with
line feeds in it puts all but its first line below the comment, where the reader takes them for
lines of the listing. Such a name is inert when those lines are blank or comments themselves.
A listing is read back as the code that was compiled exactly when its source name is inert.
Otherwise it is refused, or it is read with more procedures than were compiled.
-/

namespace Izmir

open Text

namespace Listing

/-- The lines of a source name that end up below the title of a listing. -/
def overflow (source : String) : List (List Char) :=
  (pieces '\n' source.toList).tail

/-- Nothing of a source name counts in a listing. -/
def Inert (source : String) : Prop :=
  ∀ l ∈ overflow source, content l = []

instance : DecidablePred Inert :=
  fun source => inferInstanceAs (Decidable (∀ l ∈ overflow source, content l = []))

lemma inert_of_feed_notMem {source : String} (h : '\n' ∉ source.toList) : Inert source := by
  rw [Inert, overflow, pieces_of_notMem h]
  exact List.forall_mem_nil _

/-- What the reader sees of a listing, whatever the source is called. -/
lemma exists_lines_listing {a : Assembly} (h : a.WellSpelled) :
    ∃ first : List Char, lines '\n' a.listing.toList =
      ("# compiled from ".toList ++ first) :: (overflow a.source ++ codeRows a) := by
  have hrows : rows a = ("# compiled from ".toList ++ a.source.toList) :: codeRows a := rfl
  have hlast : ∀ c ∈ ("# compiled from ".toList ++ a.source.toList ++ ['\n']).getLast?,
      c = '\n' := by
    rw [List.getLast?_concat]
    rintro _ ⟨⟩
    rfl
  rw [Assembly.listing, String.toList_ofList, listingChars_eq, hrows, List.flatMap_cons,
    lines_append hlast, lines_flatMap (feed_notMem_codeRows h), List.append_assoc,
    lines_append_left (by simp) (by simp), lines_concat_feed, List.cons_append]
  exact ⟨_, rfl⟩

namespace Draft

lemma readContent_of_content_eq_nil {d : Draft} {l : List Char} (h : content l = []) :
    d.readContent l = .ok d := by
  rw [readContent, h]

lemma foldlM_of_content_eq_nil {ls : List (List Char)} (h : ∀ l ∈ ls, content l = [])
    (d : Draft) : ls.foldlM readContent d = .ok d := by
  induction ls with
  | nil => rfl
  | cons l ls ih =>
    obtain ⟨hl, hls⟩ := List.forall_mem_cons.mp h
    exact bind_eq_ok_iff.mpr ⟨d, readContent_of_content_eq_nil hl, ih hls⟩

/-- A routine was started. -/
def Started (d : Draft) : Prop :=
  d.procedures ≠ [] ∨ d.main ≠ none

lemma started_append {d : Draft} {code : List Line} (h : d.currentCode? = some code)
    (line : Line) : (d.append line).Started := by
  obtain ⟨ps, main, current⟩ := d
  rcases current with _ | _ | i
  · cases h
  · obtain ⟨r, rfl, -⟩ := Option.map_eq_some_iff.mp h
    exact .inr (Option.some_ne_none _)
  · obtain ⟨p, hp, -⟩ := Option.map_eq_some_iff.mp h
    have hps : ps ≠ [] := List.ne_nil_of_mem (List.mem_of_getElem? hp)
    exact .inl (by simpa [append, List.modify_eq_nil_iff] using hps)

/-- A line that counts starts a routine or goes to one that was started. -/
lemma started_of_readContent {d e : Draft} {l : List Char} (hl : content l ≠ [])
    (h : d.readContent l = .ok e) : e.Started := by
  rcases readContent_cases h with ⟨hnil, -⟩ | rfl | ⟨name, arity, -, -, rfl⟩ |
    ⟨code, line, hcode, -, -, rfl⟩
  · exact absurd hnil hl
  · exact .inr (Option.some_ne_none _)
  · exact .inl (List.append_ne_nil_of_right_ne_nil _ (List.cons_ne_nil _ _))
  · exact started_append hcode line

lemma Started.readContent {d e : Draft} {l : List Char} (hd : d.Started)
    (h : d.readContent l = .ok e) : e.Started := by
  by_cases hl : content l = []
  · rw [readContent_of_content_eq_nil hl] at h
    cases h
    exact hd
  · exact started_of_readContent hl h

lemma Started.foldlM {d e : Draft} {ls : List (List Char)} (hd : d.Started)
    (h : ls.foldlM Draft.readContent d = .ok e) : e.Started := by
  induction ls generalizing d with
  | nil =>
    cases h
    exact hd
  | cons l ls ih =>
    obtain ⟨d', hl, h⟩ := bind_eq_ok_iff.mp h
    exact ih (hd.readContent hl) h

/-- Lines that start no routine do not count at all. -/
lemma content_eq_nil_of_foldlM {ls : List (List Char)} {d e : Draft}
    (h : ls.foldlM readContent d = .ok e) (he : ¬e.Started) : ∀ l ∈ ls, content l = [] := by
  induction ls generalizing d with
  | nil => exact List.forall_mem_nil _
  | cons l ls ih =>
    obtain ⟨d', hl, h⟩ := bind_eq_ok_iff.mp h
    refine List.forall_mem_cons.mpr ⟨?_, ih h⟩
    by_contra hcontent
    exact he ((started_of_readContent hcontent hl).foldlM h)

end Draft

variable {a b : Assembly} {file : String}

/-- The procedures in the overflow of a source name come before those of the program, and main is
not among them. -/
lemma read_listing_eq_ok_iff (h : a.WellSpelled) (hnames : a.NamesOperands) :
    Assembly.read file a.listing = .ok b ↔
      ∃ d : Draft, (overflow a.source).foldlM Draft.readContent .empty = .ok d ∧ d.main = none ∧
        b = ⟨file, d.procedures ++ a.procedures, a.main⟩ := by
  obtain ⟨first, hlines⟩ := exists_lines_listing h
  rw [read_eq_ok_iff, hlines, List.foldlM_cons, Draft.readContent_title]
  constructor
  · rintro ⟨e, he, hsource, hprocedures, hmain⟩
    obtain ⟨d, hd, he⟩ := bind_eq_ok_iff.mp ((List.foldlM_append ..).symm.trans he)
    obtain ⟨hnone, rfl⟩ := (foldlM_codeRows_eq_ok_iff h hnames).mp he
    refine ⟨d, hd, hnone, ?_⟩
    obtain ⟨source, procedures, main⟩ := b
    cases hsource
    cases hprocedures
    cases hmain
    rfl
  · rintro ⟨d, hd, hnone, rfl⟩
    have hcode := (foldlM_codeRows_eq_ok_iff (d := d) h hnames).mpr ⟨hnone, rfl⟩
    exact ⟨_, (List.foldlM_append ..).trans (bind_eq_ok_iff.mpr ⟨d, hd, hcode⟩), rfl, rfl, rfl⟩

/-- The code that was listed is read back exactly when nothing of the source name counts. -/
lemma read_listing_eq_self_iff (h : a.WellSpelled) (hnames : a.NamesOperands) :
    Assembly.read file a.listing = .ok ⟨file, a.procedures, a.main⟩ ↔ Inert a.source := by
  rw [read_listing_eq_ok_iff h hnames]
  constructor
  · rintro ⟨d, hd, hnone, heq⟩
    have hps : d.procedures = [] :=
      List.self_eq_append_left.mp (congrArg Assembly.procedures heq)
    refine Draft.content_eq_nil_of_foldlM hd ?_
    rintro (hstarted | hstarted)
    · exact hstarted hps
    · exact hstarted hnone
  · intro hinert
    exact ⟨.empty, Draft.foldlM_of_content_eq_nil hinert _, rfl, rfl⟩

end Listing

namespace Program

open Listing

variable {p : Program} {config : Config} {a : Assembly}

/-- The source name goes into the compiled program and has no part in compiling it. -/
lemma compile_withSource (hc : p.compile config = .ok a) (source : String) :
    { p with source }.compile config = .ok { a with source } := by
  obtain ⟨hchecked, rfl⟩ := compile_eq_ok_iff.mp hc
  exact compile_eq_ok_iff.mpr ⟨hchecked, rfl⟩

/-- A program that compiles does so under every source name. Of the listings under two names both
are read back as the code that was compiled exactly when both names are inert, which holds of
every name without a line feed. Under any name, what is read is that code, with procedures in
front that were not compiled if the name is not inert. -/
theorem listings_read_alike_iff_inert (hc : p.compile config = .ok a) (hp : p.Listable)
    (hsize : p.size ≤ 2 ^ 63) (s₁ s₂ file₁ file₂ : String) :
    ∃ a₁ a₂, { p with source := s₁ }.compile config = .ok a₁ ∧
      { p with source := s₂ }.compile config = .ok a₂ ∧
      (Assembly.read file₁ a₁.listing = .ok ⟨file₁, a.procedures, a.main⟩ ∧
        Assembly.read file₂ a₂.listing = .ok ⟨file₂, a.procedures, a.main⟩ ↔
          Inert s₁ ∧ Inert s₂) ∧
      ('\n' ∉ s₁.toList → Inert s₁) ∧
      ∀ b, Assembly.read file₁ a₁.listing = .ok b →
        ∃ added, b = ⟨file₁, added ++ a.procedures, a.main⟩ ∧ (added = [] ↔ Inert s₁) := by
  obtain ⟨h, hnames⟩ := wellSpelled_compile hc hp hsize
  -- Spelling is a matter of the code alone, so it is the same under every name.
  have hspelled (s : String) : ({ a with source := s } : Assembly).WellSpelled :=
    ⟨h.procedures, h.name, h.arity, h.main⟩
  have hnamed (s : String) : ({ a with source := s } : Assembly).NamesOperands :=
    ⟨hnames.procedures, hnames.main⟩
  have hself (s file : String) :
      Assembly.read file ({ a with source := s } : Assembly).listing =
        .ok ⟨file, a.procedures, a.main⟩ ↔ Inert s :=
    read_listing_eq_self_iff (hspelled s) (hnamed s)
  refine ⟨_, _, compile_withSource hc s₁, compile_withSource hc s₂,
    and_congr (hself s₁ file₁) (hself s₂ file₂), inert_of_feed_notMem, ?_⟩
  intro b hread
  obtain ⟨d, hd, hnone, rfl⟩ := (read_listing_eq_ok_iff (hspelled s₁) (hnamed s₁)).mp hread
  refine ⟨d.procedures, rfl, ?_⟩
  rw [← hself s₁ file₁, hread]
  simp

lemma listable_countdown : countdown.Listable where
  names := by decide
  callees := by decide
  main := by decide

/-- One name has signs of listings in its only line, the other has further lines of comment and
white space. -/
theorem countdown_listings_read_alike :
    ∃ a, countdown.compile .default = .ok a ∧ countdown.Listable ∧ countdown.size ≤ 2 ^ 63 ∧
      Inert ".main # $l: .izm" ∧ Inert "down.izm\n# .procedure down 1\n \t\r\n" ∧
      ∃ a₁ a₂, { countdown with source := ".main # $l: .izm" }.compile .default = .ok a₁ ∧
        { countdown with source := "down.izm\n# .procedure down 1\n \t\r\n" }.compile .default =
          .ok a₂ ∧
        Assembly.read "1" a₁.listing = .ok ⟨"1", a.procedures, a.main⟩ ∧
        Assembly.read "2" a₂.listing = .ok ⟨"2", a.procedures, a.main⟩ := by
  obtain ⟨a, hc⟩ : ∃ a, countdown.compile .default = .ok a := ⟨_, rfl⟩
  have hsize : countdown.size ≤ 2 ^ 63 := by decide
  have hfirst : Inert ".main # $l: .izm" := by decide +kernel
  have hsecond : Inert "down.izm\n# .procedure down 1\n \t\r\n" := by decide +kernel
  obtain ⟨a₁, a₂, h₁, h₂, hread, -⟩ :=
    listings_read_alike_iff_inert hc listable_countdown hsize ".main # $l: .izm"
      "down.izm\n# .procedure down 1\n \t\r\n" "1" "2"
  exact ⟨a, hc, listable_countdown, hsize, hfirst, hsecond, a₁, a₂, h₁, h₂,
    hread.mpr ⟨hfirst, hsecond⟩⟩

/-- Print a number. -/
def printOne : Program where
  source := "one"
  procedures := []
  main := .print (.literal 1)

/-- The second line of a source name is read as a line of the listing. It is refused as an
instruction that no routine holds, or it starts a procedure that was never compiled. -/
theorem listings_of_broken_names :
    (∃ a, { printOne with source := "a\nb" }.compile .default = .ok a ∧
      Assembly.read "a\nb" a.listing = .error ⟨"a\nb", 2, "b", .instructionOutsideRoutine⟩) ∧
    ∃ a, { printOne with source := "a\n.procedure f 0" }.compile .default = .ok a ∧
      a.procedures = [] ∧
      Assembly.read "a" a.listing = .ok ⟨"a", [⟨.procedure "f", 0, []⟩], a.main⟩ :=
  ⟨⟨_, rfl, by decide +kernel⟩, ⟨_, rfl, rfl, by decide +kernel⟩⟩

end Program

end Izmir
