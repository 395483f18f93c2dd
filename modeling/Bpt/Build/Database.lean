-- SUMMARY: The build database: recorded compilations and the inputs each output depends on.
import Bpt.Base.Keyed
import Bpt.Util.Path

/-!
# The build database

The tables of the build database, as lists of rows. A file has an id, and the
other tables name files by these. Paths are in canonical form, which
`normalize_path` and `weakly_canonical` keep.
-/

namespace Bpt.Build

open Keyed

/-! ## Tables -/

/-- A row of `bpt_source_files`. -/
structure SourceFileRow where
  fileId : Nat
  path : Path
  deriving DecidableEq

/-- A row of `bpt_compilations`. -/
structure CompilationRow where
  fileId : Nat
  command : String
  output : String
  toolchainHash : Int
  nCompilations : Int
  avgDuration : Int
  deriving DecidableEq

/-- A row of `bpt_compile_deps`. -/
structure CompileDepRow where
  inputFileId : Nat
  outputFileId : Nat
  inputMtime : Int
  deriving DecidableEq

structure Database where
  sourceFiles : List SourceFileRow := []
  compilations : List CompilationRow := []
  compileDeps : List CompileDepRow := []
  /-- The ids that this connection has asked for. -/
  storedFileIdsCache : List (Path × Nat) := []

structure CompletedCompilation where
  quotedCommand : String
  output : String
  toolchainHash : Int
  /-- The milliseconds that the command took. -/
  duration : Int
  deriving DecidableEq

structure InputFileInfo where
  path : Path
  prevMtime : Int
  deriving DecidableEq

namespace Database

/-- A new connection to the database that an earlier one has left. -/
def reopen (db : Database) : Database := { db with storedFileIdsCache := [] }

/-! ## Statements -/

/-- The id of a file, which gets a row if it has none. -/
def recordFile (path : Path) (db : Database) : Nat × Database :=
  match db.storedFileIdsCache.lookup path with
  | some fileId => (fileId, db)
  | none =>
    match db.sourceFiles.find? fun row => row.path = path with
    | some row =>
      (row.fileId, { db with storedFileIdsCache := (path, row.fileId) :: db.storedFileIdsCache })
    | none =>
      let fileId := freshRowid (db.sourceFiles.map (·.fileId))
      (fileId, { db with
        sourceFiles := db.sourceFiles ++ [⟨fileId, path⟩]
        storedFileIdsCache := (path, fileId) :: db.storedFileIdsCache })

def recordDep (input output : Path) (inputMtime : Int) (db : Database) : Database :=
  let (inId, db) := db.recordFile input
  let (outId, db) := db.recordFile output
  { db with
    compileDeps :=
      (db.compileDeps.filter fun row => ¬(row.inputFileId = inId ∧ row.outputFileId = outId)) ++
        [⟨inId, outId, inputMtime⟩] }

/-- The row of an output's first compilation. -/
def newCompilation (fileId : Nat) (cmd : CompletedCompilation) : CompilationRow where
  fileId := fileId
  command := cmd.quotedCommand
  output := cmd.output
  toolchainHash := cmd.toolchainHash
  nCompilations := 1
  avgDuration := cmd.duration

/-- The row after a further compilation. One of less than half a second does not
count towards the average. -/
def updateCompilation (cmd : CompletedCompilation) (row : CompilationRow) : CompilationRow :=
  { row with
    command := cmd.quotedCommand
    output := cmd.output
    toolchainHash := cmd.toolchainHash
    nCompilations := if cmd.duration < 500 then row.nCompilations else min 10 (row.nCompilations + 1)
    avgDuration :=
      if cmd.duration < 500 then row.avgDuration
      else row.avgDuration + (cmd.duration - row.avgDuration).tdiv (min 10 (row.nCompilations + 1)) }

def recordCompilation (file : Path) (cmd : CompletedCompilation) (db : Database) : Database :=
  let (fileId, db) := db.recordFile file
  { db with
    compilations :=
      upsert (·.fileId) fileId (updateCompilation cmd) (newCompilation fileId cmd) db.compilations }

/-- The id of a file that has a row. -/
def fileIdOf (db : Database) (path : Path) : Option Nat :=
  (db.sourceFiles.find? fun row => row.path = path).map (·.fileId)

def forgetInputsOf (file : Path) (db : Database) : Database :=
  { db with compileDeps := db.compileDeps.filter fun row => db.fileIdOf file ≠ some row.outputFileId }

def inputsOf (db : Database) (file : Path) : Option (List InputFileInfo) :=
  let deps := db.compileDeps.filter fun row => db.fileIdOf file = some row.outputFileId
  let ret := deps.filterMap fun dep =>
    (db.sourceFiles.find? fun row => row.fileId = dep.inputFileId).map fun row =>
      ⟨row.path, dep.inputMtime⟩
  if ret.isEmpty then none else some ret

def commandOf (db : Database) (file : Path) : Option CompletedCompilation :=
  (db.compilations.find? fun row => db.fileIdOf file = some row.fileId).map fun row =>
    ⟨row.command, row.output, row.toolchainHash, row.avgDuration⟩

/-! ## Validity -/

/-- The constraints of the tables. -/
structure Valid (db : Database) : Prop where
  fileIds : Unique (·.fileId) db.sourceFiles
  paths : Unique (·.path) db.sourceFiles
  compilationFiles : Unique (·.fileId) db.compilations
  compilationFile : ∀ row ∈ db.compilations, ∃ file ∈ db.sourceFiles, file.fileId = row.fileId
  depInput : ∀ row ∈ db.compileDeps, ∃ file ∈ db.sourceFiles, file.fileId = row.inputFileId
  depOutput : ∀ row ∈ db.compileDeps, ∃ file ∈ db.sourceFiles, file.fileId = row.outputFileId
  cached : ∀ path fileId, db.storedFileIdsCache.lookup path = some fileId →
    ⟨fileId, path⟩ ∈ db.sourceFiles

theorem valid_empty : Valid {} where
  fileIds := List.nodup_nil
  paths := List.nodup_nil
  compilationFiles := List.nodup_nil
  compilationFile _ h := nomatch h
  depInput _ h := nomatch h
  depOutput _ h := nomatch h
  cached _ _ h := nomatch h

variable {db db' : Database} {path file out : Path} {fileId : Nat}

theorem Valid.reopen (h : db.Valid) : db.reopen.Valid :=
  { h with cached := fun _ _ hnone => nomatch hnone }

theorem Valid.id_unique (h : db.Valid) {fileId' : Nat} (hmem : ⟨fileId, path⟩ ∈ db.sourceFiles)
    (hmem' : ⟨fileId', path⟩ ∈ db.sourceFiles) : fileId = fileId' :=
  congrArg SourceFileRow.fileId (h.paths.eq_of_key hmem hmem' rfl)

theorem Valid.path_unique (h : db.Valid) {path' : Path} (hmem : ⟨fileId, path⟩ ∈ db.sourceFiles)
    (hmem' : ⟨fileId, path'⟩ ∈ db.sourceFiles) : path = path' :=
  congrArg SourceFileRow.path (h.fileIds.eq_of_key hmem hmem' rfl)

theorem Valid.fileIdOf_eq_some (h : db.Valid) :
    db.fileIdOf path = some fileId ↔ ⟨fileId, path⟩ ∈ db.sourceFiles := by
  unfold fileIdOf
  rw [Option.map_eq_some_iff]
  constructor
  · rintro ⟨row, hfind, rfl⟩
    obtain ⟨hrow, rfl⟩ := h.paths.find?_eq_some.mp hfind
    exact hrow
  · intro hmem
    exact ⟨_, h.paths.find?_eq_some.mpr ⟨hmem, rfl⟩, rfl⟩

/-! ## What is recorded for an output -/

/-- The row of the compilation recorded for an output. -/
def Compiled (db : Database) (out : Path) (row : CompilationRow) : Prop :=
  row ∈ db.compilations ∧ ⟨row.fileId, out⟩ ∈ db.sourceFiles

/-- The output is recorded to depend on an input with the given mtime. -/
def Dep (db : Database) (out input : Path) (mtime : Int) : Prop :=
  ∃ row ∈ db.compileDeps, row.inputMtime = mtime ∧
    ⟨row.inputFileId, input⟩ ∈ db.sourceFiles ∧ ⟨row.outputFileId, out⟩ ∈ db.sourceFiles

theorem Valid.commandOf_eq_some (h : db.Valid) {cmd : CompletedCompilation} :
    db.commandOf out = some cmd ↔
      ∃ row, db.Compiled out row ∧
        cmd = ⟨row.command, row.output, row.toolchainHash, row.avgDuration⟩ := by
  unfold commandOf
  rw [Option.map_eq_some_iff]
  constructor
  · rintro ⟨row, hfind, rfl⟩
    refine ⟨row, ⟨List.mem_of_find?_eq_some hfind, ?_⟩, rfl⟩
    exact h.fileIdOf_eq_some.mp (by simpa using List.find?_some hfind)
  · rintro ⟨row, ⟨hrow, hmem⟩, rfl⟩
    refine ⟨row, ?_, rfl⟩
    rw [h.fileIdOf_eq_some.mpr hmem]
    simp only [Option.some.injEq, eq_comm (a := row.fileId)]
    exact h.compilationFiles.find?_eq_some.mpr ⟨hrow, rfl⟩

/-- The inputs of an output are the files it is recorded to depend on. -/
theorem Valid.inputsOf_eq_some (h : db.Valid) {inputs : List InputFileInfo}
    (hinputs : db.inputsOf out = some inputs) :
    inputs ≠ [] ∧ ∀ input mtime, ⟨input, mtime⟩ ∈ inputs ↔ db.Dep out input mtime := by
  unfold inputsOf at hinputs
  dsimp only at hinputs
  split at hinputs
  next => cases hinputs
  next hne =>
    cases hinputs
    refine ⟨by simpa using hne, fun input mtime => ?_⟩
    simp only [List.mem_filterMap, List.mem_filter, decide_eq_true_eq, Option.map_eq_some_iff,
      InputFileInfo.mk.injEq]
    constructor
    · rintro ⟨dep, ⟨hdep, hout⟩, row, hfind, rfl, rfl⟩
      obtain ⟨hrow, hid⟩ := h.fileIds.find?_eq_some.mp hfind
      exact ⟨dep, hdep, rfl, hid ▸ hrow, h.fileIdOf_eq_some.mp hout⟩
    · rintro ⟨dep, hdep, hmtime, hin, hout⟩
      exact ⟨dep, ⟨hdep, h.fileIdOf_eq_some.mpr hout⟩, _,
        h.fileIds.find?_eq_some.mpr ⟨hin, rfl⟩, rfl, hmtime⟩

theorem Valid.inputsOf_isSome (h : db.Valid) {input : Path} {mtime : Int}
    (hdep : db.Dep out input mtime) : ∃ inputs, db.inputsOf out = some inputs := by
  obtain ⟨dep, hdep, _, hin, hout⟩ := hdep
  unfold inputsOf
  dsimp only
  rw [if_neg]
  · exact ⟨_, rfl⟩
  · rw [List.isEmpty_iff, List.filterMap_eq_nil_iff]
    intro hnone
    have hdrop := hnone dep (List.mem_filter.mpr
      ⟨hdep, decide_eq_true_eq.mpr (h.fileIdOf_eq_some.mpr hout)⟩)
    rw [h.fileIds.find?_eq_some.mpr ⟨hin, rfl⟩] at hdrop
    cases hdrop

/-- The same compilation and the same inputs are recorded for an output. -/
structure SameRecord (db db' : Database) (out : Path) : Prop where
  compiled : ∀ row, db'.Compiled out row ↔ db.Compiled out row
  dep : ∀ input mtime, db'.Dep out input mtime ↔ db.Dep out input mtime

theorem SameRecord.refl (db : Database) (out : Path) : SameRecord db db out :=
  ⟨fun _ => Iff.rfl, fun _ _ => Iff.rfl⟩

theorem SameRecord.symm (h : SameRecord db db' out) : SameRecord db' db out :=
  ⟨fun row => (h.compiled row).symm, fun input mtime => (h.dep input mtime).symm⟩

theorem SameRecord.trans {db'' : Database} (h : SameRecord db db' out)
    (h' : SameRecord db' db'' out) : SameRecord db db'' out :=
  ⟨fun row => (h'.compiled row).trans (h.compiled row),
    fun input mtime => (h'.dep input mtime).trans (h.dep input mtime)⟩

/-! ## What the statements record -/

/-- A file has a row, and nothing else has changed. -/
structure FileRecorded (db db' : Database) (path : Path) (fileId : Nat) : Prop where
  valid : db'.Valid
  mem : ⟨fileId, path⟩ ∈ db'.sourceFiles
  known : db.sourceFiles ⊆ db'.sourceFiles
  compilations : db'.compilations = db.compilations
  compileDeps : db'.compileDeps = db.compileDeps

theorem Valid.recordFile (h : db.Valid) (path : Path) :
    FileRecorded db (db.recordFile path).2 path (db.recordFile path).1 := by
  unfold Database.recordFile
  cases hcache : db.storedFileIdsCache.lookup path with
  | some fileId => exact ⟨h, h.cached path fileId hcache, List.Subset.refl _, rfl, rfl⟩
  | none =>
      dsimp only
      cases hfind : db.sourceFiles.find? fun row => row.path = path with
      | some row =>
          obtain ⟨hrow, rfl⟩ := h.paths.find?_eq_some.mp hfind
          refine ⟨{ h with cached := fun path' fileId hlookup => ?_ }, hrow, List.Subset.refl _,
            rfl, rfl⟩
          rw [List.lookup_cons] at hlookup
          split at hlookup
          next heq =>
            cases hlookup
            rwa [eq_of_beq heq]
          next => exact h.cached path' fileId hlookup
      | none =>
          let fileId := freshRowid (db.sourceFiles.map (·.fileId))
          have hold : db.sourceFiles ⊆ db.sourceFiles ++ [⟨fileId, path⟩] :=
            List.subset_append_left _ _
          have hnew : ⟨fileId, path⟩ ∈ db.sourceFiles ++ [⟨fileId, path⟩] := by simp
          have hpath : path ∉ db.sourceFiles.map (·.path) := by
            intro hmem
            obtain ⟨row, hrow, hp⟩ := List.mem_map.mp hmem
            exact List.find?_eq_none.mp hfind row hrow (decide_eq_true hp)
          have hkeep : ∀ k, (∃ file ∈ db.sourceFiles, file.fileId = k) →
              ∃ file ∈ db.sourceFiles ++ [⟨fileId, path⟩], file.fileId = k :=
            fun _ ⟨file, hfile, hk⟩ => ⟨file, hold hfile, hk⟩
          refine ⟨?_, hnew, hold, rfl, rfl⟩
          exact {
            fileIds := h.fileIds.append_singleton (freshRowid_not_mem _)
            paths := h.paths.append_singleton hpath
            compilationFiles := h.compilationFiles
            compilationFile := fun row hrow => hkeep _ (h.compilationFile row hrow)
            depInput := fun row hrow => hkeep _ (h.depInput row hrow)
            depOutput := fun row hrow => hkeep _ (h.depOutput row hrow)
            cached := fun path' fileId' hlookup => by
              rw [List.lookup_cons] at hlookup
              split at hlookup
              next heq =>
                cases hlookup
                rw [eq_of_beq heq]
                exact hnew
              next => exact hold (h.cached path' fileId' hlookup) }

/-- A new row of a file belongs to no compilation and no dependency. -/
theorem FileRecorded.mem_iff (h : FileRecorded db db' path fileId) {k : Nat}
    (hk : ∃ file ∈ db.sourceFiles, file.fileId = k) (out : Path) :
    ⟨k, out⟩ ∈ db'.sourceFiles ↔ ⟨k, out⟩ ∈ db.sourceFiles := by
  refine ⟨fun hmem => ?_, fun hmem => h.known hmem⟩
  obtain ⟨file, hfile, rfl⟩ := hk
  rwa [h.valid.path_unique hmem (h.known hfile)]

theorem FileRecorded.sameRecord (h : FileRecorded db db' path fileId) (hdb : db.Valid) (out : Path) :
    SameRecord db db' out where
  compiled row := by
    unfold Compiled
    rw [h.compilations]
    exact and_congr_right fun hrow => h.mem_iff (hdb.compilationFile row hrow) out
  dep input mtime := by
    unfold Dep
    rw [h.compileDeps]
    refine exists_congr fun row => and_congr_right fun hrow => and_congr_right fun _ => ?_
    exact and_congr (h.mem_iff (hdb.depInput row hrow) input)
      (h.mem_iff (hdb.depOutput row hrow) out)

/-- What is left after the inputs of an output are forgotten. -/
theorem Valid.forgetInputsOf (h : db.Valid) (file : Path) :
    (db.forgetInputsOf file).Valid ∧ (∀ out row, (db.forgetInputsOf file).Compiled out row ↔
        db.Compiled out row) ∧
      ∀ out input mtime, (db.forgetInputsOf file).Dep out input mtime ↔
        out ≠ file ∧ db.Dep out input mtime := by
  have hsub : (db.forgetInputsOf file).compileDeps ⊆ db.compileDeps :=
    fun _ hrow => (List.mem_filter.mp hrow).1
  refine ⟨{ h with
    depInput := fun row hrow => h.depInput row (hsub hrow)
    depOutput := fun row hrow => h.depOutput row (hsub hrow) }, fun _ _ => Iff.rfl, ?_⟩
  intro out input mtime
  unfold Dep Database.forgetInputsOf
  simp only [List.mem_filter, decide_eq_true_eq]
  constructor
  · rintro ⟨row, ⟨hrow, hne⟩, hmtime, hin, hout⟩
    refine ⟨?_, row, hrow, hmtime, hin, hout⟩
    rintro rfl
    exact hne (h.fileIdOf_eq_some.mpr hout)
  · rintro ⟨hne, row, hrow, hmtime, hin, hout⟩
    refine ⟨row, ⟨hrow, fun heq => hne ?_⟩, hmtime, hin, hout⟩
    exact h.path_unique hout (h.fileIdOf_eq_some.mp heq)

/-- After a dependency is recorded, it is the one of its input and output. -/
theorem Valid.recordDep (h : db.Valid) (input output : Path) (mtime : Int) :
    (db.recordDep input output mtime).Valid ∧
      (∀ out row, (db.recordDep input output mtime).Compiled out row ↔ db.Compiled out row) ∧
      ∀ out input' mtime', (db.recordDep input output mtime).Dep out input' mtime' ↔
        if out = output ∧ input' = input then mtime' = mtime else db.Dep out input' mtime' := by
  have hin := h.recordFile input
  have hout := hin.valid.recordFile output
  have hsame := fun out => (hin.sameRecord h out).trans (hout.sameRecord hin.valid out)
  unfold Database.recordDep
  dsimp only
  generalize db.recordFile input = recorded at *
  obtain ⟨inId, db₁⟩ := recorded
  generalize Database.recordFile output db₁ = recorded at *
  obtain ⟨outId, db₂⟩ := recorded
  dsimp only at *
  have hinMem := hout.known hin.mem
  have hsplit : ∀ row : CompileDepRow, row ∈ (db₂.compileDeps.filter fun row =>
      ¬(row.inputFileId = inId ∧ row.outputFileId = outId)) ++ [⟨inId, outId, mtime⟩] →
      row ∈ db₂.compileDeps ∨ row = ⟨inId, outId, mtime⟩ := by
    intro row hrow
    rcases List.mem_append.mp hrow with hrow | hrow
    · exact .inl (List.mem_filter.mp hrow).1
    · exact .inr (List.mem_singleton.mp hrow)
  refine ⟨{ hout.valid with
    depInput := fun row hrow => ?_
    depOutput := fun row hrow => ?_ }, fun out row => (hsame out).compiled row, ?_⟩
  · rcases hsplit row hrow with hrow | rfl
    · exact hout.valid.depInput row hrow
    · exact ⟨_, hinMem, rfl⟩
  · rcases hsplit row hrow with hrow | rfl
    · exact hout.valid.depOutput row hrow
    · exact ⟨_, hout.mem, rfl⟩
  · intro out input' mtime'
    split
    next heq =>
      obtain ⟨rfl, rfl⟩ := heq
      constructor
      · rintro ⟨row, hrow, hmtime, hin', hout'⟩
        rcases List.mem_append.mp hrow with hrow | hrow
        · have hne := (List.mem_filter.mp hrow).2
          simp [hout.valid.id_unique hin' hinMem, hout.valid.id_unique hout' hout.mem] at hne
        · rw [← hmtime, List.mem_singleton.mp hrow]
      · rintro rfl
        exact ⟨⟨inId, outId, mtime'⟩, by simp, rfl, hinMem, hout.mem⟩
    next hne =>
      rw [← (hsame out).dep]
      constructor
      · rintro ⟨row, hrow, hmtime, hin', hout'⟩
        rcases hsplit row hrow with hrow | rfl
        · exact ⟨row, hrow, hmtime, hin', hout'⟩
        · exact absurd ⟨hout.valid.path_unique hout' hout.mem,
            hout.valid.path_unique hin' hinMem⟩ hne
      · rintro ⟨row, hrow, hmtime, hin', hout'⟩
        refine ⟨row, List.mem_append_left _ (List.mem_filter.mpr ⟨hrow, ?_⟩), hmtime, hin', hout'⟩
        rw [decide_eq_true_eq]
        rintro ⟨hinId, houtId⟩
        rw [hinId] at hin'
        rw [houtId] at hout'
        exact hne ⟨hout.valid.path_unique hout' hout.mem, hout.valid.path_unique hin' hinMem⟩

/-- The row of a compilation holds the command, what it printed and the toolchain. -/
structure RowHolds (row : CompilationRow) (cmd : CompletedCompilation) : Prop where
  command : row.command = cmd.quotedCommand
  output : row.output = cmd.output
  toolchainHash : row.toolchainHash = cmd.toolchainHash

/-- After a compilation is recorded, it is the one of its output. -/
theorem Valid.recordCompilation (h : db.Valid) (file : Path) (cmd : CompletedCompilation) :
    (db.recordCompilation file cmd).Valid ∧
      (∃ row, (db.recordCompilation file cmd).Compiled file row) ∧
      (∀ row, (db.recordCompilation file cmd).Compiled file row → RowHolds row cmd) ∧
      (∀ out, out ≠ file → SameRecord db (db.recordCompilation file cmd) out) := by
  have hfile := h.recordFile file
  have hsame := fun out => hfile.sameRecord h out
  unfold Database.recordCompilation
  dsimp only
  generalize db.recordFile file = recorded at *
  obtain ⟨fileId, db₁⟩ := recorded
  dsimp only at *
  have hupdate : ∀ row : CompilationRow, row.fileId = fileId →
      (updateCompilation cmd row).fileId = fileId := fun _ hrow => hrow
  have hnew : (newCompilation fileId cmd).fileId = fileId := rfl
  refine ⟨{ hfile.valid with
    compilationFiles := hfile.valid.compilationFiles.upsert hupdate hnew
    compilationFile := fun row hrow => ?_ }, ?_, fun row hrow => ?_, fun out hne => ?_⟩
  · by_cases hid : row.fileId = fileId
    · exact ⟨_, hfile.mem, hid.symm⟩
    · exact hfile.valid.compilationFile row ((mem_upsert_of_ne hupdate hnew hid).mp hrow)
  · obtain ⟨row, hrow, hid⟩ := exists_mem_upsert (l := db₁.compilations) hupdate hnew
    exact ⟨row, hrow, hid ▸ hfile.mem⟩
  · obtain ⟨hrow, hmem⟩ := hrow
    rcases of_mem_upsert hrow (hfile.valid.id_unique hmem hfile.mem) with rfl | ⟨old, _, _, rfl⟩
    · exact ⟨rfl, rfl, rfl⟩
    · exact ⟨rfl, rfl, rfl⟩
  · refine ⟨fun row => ?_, (hsame out).dep⟩
    rw [← (hsame out).compiled]
    refine and_congr_left fun hmem => mem_upsert_of_ne hupdate hnew fun hid => hne ?_
    rw [hid] at hmem
    exact hfile.valid.path_unique hmem hfile.mem

/-! ## What is returned for other outputs -/

theorem commandOf_congr (h : db.Valid) (h' : db'.Valid) (hsame : SameRecord db db' out) :
    db'.commandOf out = db.commandOf out := by
  refine Option.ext fun cmd => ?_
  rw [h'.commandOf_eq_some, h.commandOf_eq_some]
  exact exists_congr fun row => and_congr_left fun _ => hsame.compiled row

/-- The rows of an output's inputs. -/
def depRows (db : Database) (file : Path) : List CompileDepRow :=
  db.compileDeps.filter fun row => db.fileIdOf file = some row.outputFileId

theorem inputsOf_congr (hrows : db'.depRows out = db.depRows out)
    (hfiles : ∀ row ∈ db.depRows out,
      (db'.sourceFiles.find? fun file => file.fileId = row.inputFileId) =
        db.sourceFiles.find? fun file => file.fileId = row.inputFileId) :
    db'.inputsOf out = db.inputsOf out := by
  have hret : (db'.depRows out).filterMap (fun dep =>
        (db'.sourceFiles.find? fun row => row.fileId = dep.inputFileId).map fun row =>
          (⟨row.path, dep.inputMtime⟩ : InputFileInfo)) =
      (db.depRows out).filterMap fun dep =>
        (db.sourceFiles.find? fun row => row.fileId = dep.inputFileId).map fun row =>
          ⟨row.path, dep.inputMtime⟩ := by
    rw [hrows]
    exact List.filterMap_congr fun row hrow => by rw [hfiles row hrow]
  unfold inputsOf
  dsimp only
  unfold depRows at hret
  rw [hret]

theorem FileRecorded.inputsOf (h : FileRecorded db db' path fileId) (hdb : db.Valid) (out : Path) :
    db'.inputsOf out = db.inputsOf out := by
  refine inputsOf_congr ?_ fun row hrow => ?_
  · unfold depRows
    rw [h.compileDeps]
    refine List.filter_congr fun row hrow => ?_
    rw [decide_eq_decide, h.valid.fileIdOf_eq_some, hdb.fileIdOf_eq_some]
    exact h.mem_iff (hdb.depOutput row hrow) out
  · obtain ⟨file, hfile, hid⟩ := hdb.depInput row (List.mem_filter.mp hrow).1
    rw [hdb.fileIds.find?_eq_some.mpr ⟨hfile, hid⟩,
      h.valid.fileIds.find?_eq_some.mpr ⟨h.known hfile, hid⟩]

theorem Valid.recordDep_inputsOf (h : db.Valid) (input output : Path) (mtime : Int)
    (hne : out ≠ output) : (db.recordDep input output mtime).inputsOf out = db.inputsOf out := by
  have hin := h.recordFile input
  have hout := hin.valid.recordFile output
  rw [← hin.inputsOf h, ← hout.inputsOf hin.valid]
  unfold Database.recordDep
  dsimp only
  generalize db.recordFile input = recorded at *
  obtain ⟨inId, db₁⟩ := recorded
  generalize Database.recordFile output db₁ = recorded at *
  obtain ⟨outId, db₂⟩ := recorded
  dsimp only at *
  -- the rows of the output that is asked for are not those that are replaced
  have hother : db₂.fileIdOf out ≠ some outId := fun hid =>
    hne (hout.valid.path_unique (hout.valid.fileIdOf_eq_some.mp hid) hout.mem)
  refine inputsOf_congr ?_ fun _ _ => rfl
  unfold depRows
  show List.filter (fun row : CompileDepRow => decide (db₂.fileIdOf out = some row.outputFileId)) _ = _
  rw [List.filter_append, List.filter_filter, List.filter_cons_of_neg (by simpa using hother),
    List.filter_nil, List.append_nil]
  refine List.filter_congr fun row _ => ?_
  rw [Bool.eq_iff_iff, Bool.and_eq_true, decide_eq_true_iff, decide_eq_true_iff]
  refine and_iff_left_of_imp fun hrow heq => ?_
  rw [heq.2] at hrow
  exact hother hrow

theorem Valid.forgetInputsOf_inputsOf (h : db.Valid) (file : Path) (hne : out ≠ file) :
    (db.forgetInputsOf file).inputsOf out = db.inputsOf out := by
  refine inputsOf_congr ?_ fun _ _ => rfl
  unfold depRows Database.forgetInputsOf
  show List.filter (fun row : CompileDepRow => decide (db.fileIdOf out = some row.outputFileId)) _ = _
  rw [List.filter_filter]
  refine List.filter_congr fun row _ => ?_
  rw [Bool.eq_iff_iff, Bool.and_eq_true, decide_eq_true_iff, decide_eq_true_iff]
  refine and_iff_left_of_imp fun hrow heq => hne ?_
  exact h.path_unique (h.fileIdOf_eq_some.mp hrow) (h.fileIdOf_eq_some.mp heq)

theorem Valid.recordCompilation_inputsOf (h : db.Valid) (file : Path) (cmd : CompletedCompilation)
    (out : Path) : (db.recordCompilation file cmd).inputsOf out = db.inputsOf out :=
  (h.recordFile file).inputsOf h out

end Database

end Bpt.Build
