import Mathlib.Tactic.SplitIfs
import StreamingFft.Command.Run
import StreamingFft.Proofs.TwiddleTable.Acceptance
/-!
A run of the command makes the whole text or none of it. The text that is made arrives unchanged, at the
standard output or in one file, and all other files stay; a run that is refused leaves no trace.
-/
namespace StreamingFft

namespace Command

namespace Volume

/-- A path to a file that takes data. -/
def Writable (v : Volume) (path : String) : Prop := ∃ l, v.locate path = .ok l ∧ l ∉ v.full

/-- The same directories, whatever the files in them. -/
structure SameDirectories (v w : Volume) : Prop where
  directories : w.directories = v.directories
  working : w.working = v.working

theorem SameDirectories.symm {v w : Volume} (h : SameDirectories v w) : SameDirectories w v :=
  ⟨h.directories.symm, h.working.symm⟩

/-- A file in the way changes the fault of a step, but no step leads through a file. -/
theorem SameDirectories.enter {v w : Volume} (h : SameDirectories v w) {dir l : Location}
    {name : String} (hl : v.enter dir name = .ok l) : w.enter dir name = .ok l := by
  unfold Volume.enter at hl ⊢
  rw [h.directories]
  split_ifs at hl ⊢ with hstay hup hlong hdir hfile
  · exact hl
  · exact hl
  · exact hl

theorem SameDirectories.follow {v w : Volume} (h : SameDirectories v w) {dir l : Location}
    {names : List String} (hl : v.follow dir names = .ok l) : w.follow dir names = .ok l := by
  fun_induction Volume.follow v dir names with
  | case1 dir => cases hl
  | case2 dir name =>
    rw [Volume.follow, Volume.entry, h.directories]
    exact hl
  | case3 dir name rest hrest hempty => cases hl
  | case4 dir name rest hrest hempty ih =>
    cases henter : v.enter dir name with
    | error f =>
      rw [henter] at hl
      cases hl
    | ok sub =>
      rw [henter] at hl
      rw [Volume.follow, if_neg hempty, h.enter henter]
      · exact ih sub hl
      · exact hrest

theorem SameDirectories.locate {v w : Volume} (h : SameDirectories v w) {path : String}
    {l : Location} (hl : v.locate path = .ok l) : w.locate path = .ok l := by
  unfold Volume.locate at hl ⊢
  rw [h.working]
  split at hl
  · cases hl
  · next hshort =>
    rw [if_neg hshort]
    exact h.follow hl

/-- The volume with a file at a location. -/
def withFile (v : Volume) (l : Location) (text : String) : Volume :=
  { v with files := (l, text) :: v.files }

theorem sameDirectories_withFile (v : Volume) (l : Location) (text : String) :
    SameDirectories v (v.withFile l text) := ⟨rfl, rfl⟩

theorem write_eq_ok {v : Volume} {path : String} {l : Location} (hl : v.locate path = .ok l)
    (hfull : l ∉ v.full) (text : String) : v.write path text = .ok (v.withFile l text) := by
  unfold write
  rw [hl]
  exact if_neg hfull

theorem read?_withFile {v : Volume} {path : String} {l : Location} (hl : v.locate path = .ok l)
    (text : String) : (v.withFile l text).read? path = some text := by
  rw [read?, (v.sameDirectories_withFile l text).locate hl]
  exact List.lookup_cons_self

/-- A file at a location is seen at the paths to it only. -/
theorem read?_withFile_of_ne {v : Volume} {path : String} {l : Location}
    (hl : v.locate path ≠ .ok l) (text : String) :
    (v.withFile l text).read? path = v.read? path := by
  have hsame := v.sameDirectories_withFile l text
  cases hother : v.locate path with
  | error f =>
    cases hnew : (v.withFile l text).locate path with
    | error g => rw [read?, read?, hother, hnew]
    | ok m =>
      -- a path that led nowhere leads nowhere now
      rw [hsame.symm.locate hnew] at hother
      cases hother
  | ok m =>
    have hne : m ≠ l := by
      rintro rfl
      exact hl hother
    rw [read?, read?, hother, hsame.locate hother]
    change List.lookup m ((l, text) :: v.files) = List.lookup m v.files
    rw [List.lookup_cons, beq_false_of_ne hne]

end Volume

namespace TableRequest

/-- The table, with the modulus that is asked for or the one that goes with its size. -/
def parameters (r : TableRequest) : Except Fault TwiddleTable :=
  match r.modulus with
  | none => TwiddleTable.ofSize r.size
  | some m => TwiddleTable.ofModulus r.size m

/-- The module of the table, with samples of the kind that is asked for. -/
def rendered (r : TableRequest) (t : TwiddleTable) : Except Fault String :=
  (t.withReduced r.reduced).render r.widths

theorem table_eq (r : TableRequest) :
    r.table = r.parameters.map (·.withReduced r.reduced) := by
  rw [table, parameters]
  cases r.modulus with
  | none => cases TwiddleTable.ofSize r.size <;> rfl
  | some m => cases TwiddleTable.ofModulus r.size m <;> rfl

theorem entityName_of_parameters {r : TableRequest} {t : TwiddleTable}
    (h : r.parameters = .ok t) :
    (t.withReduced r.reduced).entityName = s!"twiddleGeneratorPartial{r.size}" := by
  have hsize : t.size = r.size := by
    unfold parameters at h
    split at h
    · exact (TwiddleTable.ofModulus_eq_ok h).1
    · exact (TwiddleTable.ofModulus_eq_ok h).1
  rw [← hsize]
  rfl

/-- Bad parameters are found first, whatever the widths are. -/
theorem text_of_parameters_error {r : TableRequest} {f : Fault} (h : r.parameters = .error f) :
    r.text = .error (.table r.size f) := by
  rw [text, table_eq, h]
  rfl

theorem text_of_rendered_error {r : TableRequest} {t : TwiddleTable} {f : Fault}
    (h : r.parameters = .ok t) (hf : r.rendered t = .error f) :
    r.text = .error (.emission s!"twiddleGeneratorPartial{r.size}" f) := by
  rw [rendered] at hf
  rw [text, table_eq, h, Except.map]
  dsimp only
  rw [hf, entityName_of_parameters h]

theorem text_of_rendered {r : TableRequest} {t : TwiddleTable} {text : String}
    (h : r.parameters = .ok t) (htext : r.rendered t = .ok text) : r.text = .ok text := by
  rw [rendered] at htext
  rw [TableRequest.text, table_eq, h, Except.map]
  dsimp only
  rw [htext]

end TableRequest

/-- A run that has made a text: the text is on the standard output, or it is in the file and nowhere
else. -/
structure Delivered (i : Invocation) (v : Volume) (text : String) (outcome : Outcome)
    (after : Volume) : Prop where
  exitCode : outcome.exitCode = 0
  printed : i.output = none → outcome.stdout = text ∧ after = v
  written : ∀ path ∈ i.output, outcome.stdout = "" ∧ after.read? path = some text ∧
    ∀ other, v.locate other ≠ v.locate path → after.read? other = v.read? other

/-- A run that has failed: nothing is printed, no file is created or changed, and the failure is the one
that goes with the fault. Its report says what was refused and why. -/
structure Refused (v : Volume) (failure : Failure) (context : String) (fault : Fault)
    (outcome : Outcome) (after : Volume) : Prop where
  exitCode : outcome.exitCode = 1
  stdout : outcome.stdout = ""
  unchanged : after = v
  failed : outcome = .failure failure
  context_eq : failure.context = context
  cause_eq : failure.cause = fault.message

theorem delivered_run {i : Invocation} {v : Volume} (hpath : ∀ path ∈ i.output, v.Writable path)
    {text : String} (htext : i.request.text = .ok text) :
    Delivered i v text (i.run v).1 (i.run v).2 := by
  cases houtput : i.output with
  | none =>
    rw [Invocation.run, htext, houtput]
    refine ⟨rfl, fun _ => ⟨rfl, rfl⟩, ?_⟩
    intro path hp
    rw [houtput] at hp
    cases hp
  | some path =>
    obtain ⟨l, hl, hfull⟩ := hpath path houtput
    rw [Invocation.run, htext, houtput]
    dsimp only
    rw [Volume.write_eq_ok hl hfull]
    refine ⟨rfl, ?_, ?_⟩
    · intro hnone
      rw [houtput] at hnone
      cases hnone
    · intro path' hp
      cases houtput.symm.trans hp
      refine ⟨rfl, Volume.read?_withFile hl text, ?_⟩
      intro other hother
      rw [hl] at hother
      exact Volume.read?_withFile_of_ne hother text

theorem refused_run {i : Invocation} {v : Volume} {f : Failure} {fault : Fault}
    (htext : i.request.text = .error f) (hcause : f.cause = fault.message) :
    Refused v f f.context fault (i.run v).1 (i.run v).2 := by
  rw [Invocation.run, htext]
  exact ⟨rfl, rfl, rfl, rfl, rfl, hcause⟩

/-- A run succeeds just when the table and its widths are accepted. Then the whole text is delivered;
otherwise nothing is, and the table is blamed before the widths. -/
theorem run_delivers_or_refuses (i : Invocation) (v : Volume)
    (hpath : ∀ path ∈ i.output, v.Writable path) :
    ((i.run v).1.exitCode = 0 ↔
        ∃ t text, i.request.parameters = .ok t ∧ i.request.rendered t = .ok text) ∧
      (∀ t text, i.request.parameters = .ok t → i.request.rendered t = .ok text →
        Delivered i v text (i.run v).1 (i.run v).2) ∧
      (∀ fault, i.request.parameters = .error fault →
        Refused v (.table i.request.size fault) s!"invalid twiddle table of size {i.request.size}" fault
          (i.run v).1 (i.run v).2) ∧
      ∀ t fault, i.request.parameters = .ok t → i.request.rendered t = .error fault →
        Refused v (.emission s!"twiddleGeneratorPartial{i.request.size}" fault)
          s!"cannot emit twiddleGeneratorPartial{i.request.size}" fault (i.run v).1 (i.run v).2 := by
  have hdelivered : ∀ t text, i.request.parameters = .ok t → i.request.rendered t = .ok text →
      Delivered i v text (i.run v).1 (i.run v).2 := fun t text ht htext =>
    delivered_run hpath (TableRequest.text_of_rendered ht htext)
  have htable : ∀ fault, i.request.parameters = .error fault →
      Refused v (.table i.request.size fault) s!"invalid twiddle table of size {i.request.size}" fault
        (i.run v).1 (i.run v).2 := fun fault hf =>
    refused_run (TableRequest.text_of_parameters_error hf) rfl
  have hwidths : ∀ t fault, i.request.parameters = .ok t → i.request.rendered t = .error fault →
      Refused v (.emission s!"twiddleGeneratorPartial{i.request.size}" fault)
        s!"cannot emit twiddleGeneratorPartial{i.request.size}" fault (i.run v).1 (i.run v).2 :=
    fun t fault ht hf => refused_run (TableRequest.text_of_rendered_error ht hf) rfl
  refine ⟨⟨?_, ?_⟩, hdelivered, htable, hwidths⟩
  · intro hcode
    -- a refusal has another exit code
    cases ht : i.request.parameters with
    | error fault => exact absurd ((htable fault ht).exitCode.symm.trans hcode) Nat.one_ne_zero
    | ok t =>
      cases htext : i.request.rendered t with
      | error fault =>
        exact absurd ((hwidths t fault ht htext).exitCode.symm.trans hcode) Nat.one_ne_zero
      | ok text => exact ⟨t, text, rfl, htext⟩
  · rintro ⟨t, text, ht, htext⟩
    exact (hdelivered t text ht htext).exitCode

/-- A directory in which an older module stands. -/
def buildDirectory : Volume where
  directories := [["build"]]
  files := [(["build", "rom.vhd"], "end a;")]
  full := []
  working := ["build"]

/-- Sixteen entries in two widths, to the place of the older module. -/
def sixteenEntries : Invocation := ⟨0, ⟨16, [12, 18], true, some 4096⟩, some "./rom.vhd"⟩

def sixteenTable : TwiddleTable := ⟨4, 4096, false, by decide, by decide, by decide⟩

/-- No power of two, and a width twice. -/
def twelveEntries : Invocation := ⟨0, ⟨12, [8, 8], false, none⟩, some "./rom.vhd"⟩

theorem run_sixteenEntries_twelveEntries :
    (∀ path ∈ sixteenEntries.output, buildDirectory.Writable path) ∧
      (∃ t text, sixteenEntries.request.parameters = .ok t ∧
        sixteenEntries.request.rendered t = .ok text ∧
        Delivered sixteenEntries buildDirectory text (sixteenEntries.run buildDirectory).1
          (sixteenEntries.run buildDirectory).2) ∧
      twelveEntries.request.parameters = .error (.noPowerOfTwo 12) ∧
      Refused buildDirectory (.table 12 (.noPowerOfTwo 12)) "invalid twiddle table of size 12"
        (.noPowerOfTwo 12) (twelveEntries.run buildDirectory).1 (twelveEntries.run buildDirectory).2 := by
  have hpath : ∀ path ∈ some "./rom.vhd", buildDirectory.Writable path := by
    intro path hp
    cases hp
    exact ⟨["build", "rom.vhd"], rfl, by decide⟩
  have hsixteen : sixteenEntries.request.parameters = .ok sixteenTable := rfl
  obtain ⟨text, htext⟩ : ∃ text, sixteenEntries.request.rendered sixteenTable = .ok text := ⟨_, rfl⟩
  obtain ⟨-, hdelivered, -, -⟩ := run_delivers_or_refuses sixteenEntries buildDirectory hpath
  have htwelve : twelveEntries.request.parameters = .error (.noPowerOfTwo 12) := rfl
  obtain ⟨-, -, htable, -⟩ := run_delivers_or_refuses twelveEntries buildDirectory hpath
  exact ⟨hpath, ⟨sixteenTable, text, hsixteen, htext, hdelivered _ _ hsixteen htext⟩, htwelve,
    htable _ htwelve⟩

end Command
end StreamingFft
