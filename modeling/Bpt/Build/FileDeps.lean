-- SUMMARY: The dependency information of outputs: storing it, and looking up what has changed since.
import Bpt.Base.Transaction
import Bpt.Build.Database

namespace Bpt.Build

open Transaction

/-! ## Files -/

/-- A file. One that is missing keeps the mtime it had last. -/
structure FileState (C : Type) where
  content : Option C
  mtime : Int

abbrev Files (C : Type) := Path → FileState C

variable {C : Type}

def Files.fileExists (files : Files C) (path : Path) : Bool := (files path).content.isSome

/-- The mtime of a file, if there is one (`fs::last_write_time`, which throws otherwise). -/
def Files.lastWriteTime (files : Files C) (path : Path) : Option Int :=
  if files.fileExists path then some (files path).mtime else none

/-! ## Dependency information -/

inductive FileDepsMode where
  | none
  | msvc
  | gnu
  deriving DecidableEq

structure FileDepsInfo where
  output : Path
  inputs : List Path
  command : CompletedCompilation
  compileStartTime : Int

/-- How recording dependency information fails. -/
inductive RecordError where
  /-- `fs::last_write_time` finds no file. -/
  | lastWriteTime (path : Path)
  | userCancelled
  deriving DecidableEq

abbrev Statement (α : Type) := Action RecordError Database α

def recordInput (files : Files C) (deps : FileDepsInfo) (inp : Path) : Statement Unit :=
  match files.lastWriteTime inp with
  | none => throw (.lastWriteTime inp)
  | some mtime => modify (Database.recordDep inp deps.output (min mtime deps.compileStartTime))

def updateDepsInfo (files : Files C) (deps : FileDepsInfo) : Statement Unit := do
  modify (Database.recordCompilation deps.output deps.command)
  modify (Database.forgetInputsOf deps.output)
  forEach (recordInput files deps) deps.inputs

/-- `.syncheck` files are always written anew and have no content of interest. -/
def isSyncheck (path : Path) : Bool := path.extension = ".syncheck"

/-- An input is missing or modified since it was recorded. -/
def isNewer (files : Files C) (input : InputFileInfo) : Bool :=
  if isSyncheck input.path then false
  else files.lastWriteTime input.path ≠ some input.prevMtime

structure PriorCompilation where
  newerInputs : List Path
  previousCommand : CompletedCompilation

def getPriorCompilation (files : Files C) (db : Database) (outputPath : Path) :
    Option PriorCompilation := do
  let cmd ← db.commandOf outputPath
  let inputs ← db.inputsOf outputPath
  return { newerInputs := (inputs.filter (isNewer files)).map (·.path), previousCommand := cmd }

/-! ## Records that stand -/

/-- The record of an output has the given command, and each of its inputs is as
it was recorded. -/
structure RecordStands (files : Files C) (db : Database) (out : Path) (command : String) : Prop where
  command : ∃ row, db.Compiled out row ∧ row.command = command
  depends : ∃ input mtime, db.Dep out input mtime
  current : ∀ input mtime, db.Dep out input mtime → isSyncheck input = false →
    files.lastWriteTime input = some mtime

theorem RecordStands.congr {files : Files C} {db db' : Database} {out : Path} {command : String}
    (h : RecordStands files db out command) (hsame : db.SameRecord db' out) :
    RecordStands files db' out command where
  command := h.command.imp fun row hrow => ⟨(hsame.compiled row).mpr hrow.1, hrow.2⟩
  depends := h.depends.imp fun input => Exists.imp fun mtime => (hsame.dep input mtime).mpr
  current input mtime hdep := h.current input mtime ((hsame.dep input mtime).mp hdep)

/-- The command of the record of an output, when that record stands. -/
def standingCommand (files : Files C) (db : Database) (out : Path) : Option String :=
  match db.commandOf out, db.inputsOf out with
  | some cmd, some inputs => if inputs.any (isNewer files) then none else some cmd.quotedCommand
  | _, _ => none

theorem isNewer_eq_false {files : Files C} {input : Path} {mtime : Int} :
    isNewer files ⟨input, mtime⟩ = false ↔
      (isSyncheck input = false → files.lastWriteTime input = some mtime) := by
  unfold isNewer
  cases isSyncheck input <;> simp

theorem standingCommand_eq_some {files : Files C} {db : Database} (hdb : db.Valid) {out : Path}
    {command : String} :
    standingCommand files db out = some command ↔ RecordStands files db out command := by
  unfold standingCommand
  constructor
  · intro hsome
    split at hsome
    next cmd inputs hcommand hinputs =>
      split at hsome
      next => cases hsome
      next hcurrent =>
        cases hsome
        obtain ⟨row, hrow, rfl⟩ := hdb.commandOf_eq_some.mp hcommand
        obtain ⟨hne, hdeps⟩ := hdb.inputsOf_eq_some hinputs
        obtain ⟨input, hinput⟩ := List.exists_mem_of_ne_nil _ hne
        refine ⟨⟨row, hrow, rfl⟩, ⟨_, _, (hdeps _ _).mp hinput⟩, fun input mtime hdep => ?_⟩
        refine isNewer_eq_false.mp (Bool.eq_false_iff.mpr fun hnewer => hcurrent ?_)
        exact List.any_eq_true.mpr ⟨_, (hdeps _ _).mpr hdep, hnewer⟩
    next => cases hsome
  · rintro ⟨⟨row, hrow, rfl⟩, ⟨input, mtime, hdep⟩, hcurrent⟩
    obtain ⟨inputs, hinputs⟩ := hdb.inputsOf_isSome hdep
    rw [hdb.commandOf_eq_some.mpr ⟨row, hrow, rfl⟩, hinputs]
    dsimp only
    rw [if_neg]
    rw [List.any_eq_true]
    rintro ⟨⟨input, mtime⟩, hinput, hnewer⟩
    have hdep := ((hdb.inputsOf_eq_some hinputs).2 _ _).mp hinput
    rw [isNewer_eq_false.mpr (hcurrent input mtime hdep)] at hnewer
    cases hnewer

/-! ## What is stored -/

/-- The dependency information is what the database has recorded for its output. -/
structure Stored (files : Files C) (deps : FileDepsInfo) (db : Database) : Prop where
  compiled : ∃ row, db.Compiled deps.output row
  command : ∀ row, db.Compiled deps.output row → row.command = deps.command.quotedCommand
  there : ∀ input ∈ deps.inputs, files.fileExists input = true
  dep : ∀ input mtime, db.Dep deps.output input mtime ↔
    input ∈ deps.inputs ∧ mtime = min (files input).mtime deps.compileStartTime

theorem Stored.congr {files : Files C} {deps : FileDepsInfo} {db db' : Database}
    (h : Stored files deps db) (hsame : db.SameRecord db' deps.output) : Stored files deps db' where
  compiled := h.compiled.imp fun row => (hsame.compiled row).mpr
  command row hrow := h.command row ((hsame.compiled row).mp hrow)
  there := h.there
  dep input mtime := (hsame.dep input mtime).trans (h.dep input mtime)

theorem exec_recordInput_eq_ok {files : Files C} {deps : FileDepsInfo} {inp : Path}
    {db db' : Database} (h : exec (recordInput files deps inp) db = (.ok (), db')) :
    files.fileExists inp = true ∧
      db' = db.recordDep inp deps.output (min (files inp).mtime deps.compileStartTime) := by
  unfold recordInput Files.lastWriteTime at h
  cases hthere : files.fileExists inp with
  | false =>
      rw [hthere] at h
      cases h
  | true =>
      rw [hthere] at h
      exact ⟨rfl, (Prod.mk.inj h).2.symm⟩

/-- Updating replaces the record of its output and keeps all others. -/
theorem exec_updateDepsInfo_eq_ok {files : Files C} {deps : FileDepsInfo} {db db' : Database}
    (hdb : db.Valid) (h : exec (updateDepsInfo files deps) db = (.ok (), db')) :
    db'.Valid ∧ Stored files deps db' ∧ ∀ out, out ≠ deps.output → db.SameRecord db' out := by
  obtain ⟨hvalid₁, hrow₁, hcommand₁, hothers₁⟩ := hdb.recordCompilation deps.output deps.command
  obtain ⟨hvalid₂, hcompiled₂, hdep₂⟩ := hvalid₁.forgetInputsOf deps.output
  have hloop : exec (forEach (recordInput files deps) deps.inputs)
      ((db.recordCompilation deps.output deps.command).forgetInputsOf deps.output) =
      (.ok (), db') := h
  -- the inputs handled so far are those of the output
  have hend := exec_forEach_eq_ok (P := fun handled t =>
      t.Valid ∧ (∀ out row, t.Compiled out row ↔
        (db.recordCompilation deps.output deps.command).Compiled out row) ∧
      (∀ input ∈ handled, files.fileExists input = true) ∧
      (∀ input mtime, t.Dep deps.output input mtime ↔
        input ∈ handled ∧ mtime = min (files input).mtime deps.compileStartTime) ∧
      ∀ out, out ≠ deps.output → ∀ input mtime, t.Dep out input mtime ↔ db.Dep out input mtime)
    ⟨hvalid₂, hcompiled₂, by simp, fun input mtime => by simp [hdep₂],
      fun out hne input mtime => by rw [hdep₂, (hothers₁ out hne).dep]; simp [hne]⟩
    (by
      rintro handled inp rest t t' - ⟨hvalid, hcompiled, hthere, hown, hothers⟩ hinput
      obtain ⟨hinp, rfl⟩ := exec_recordInput_eq_ok hinput
      obtain ⟨hvalid', hcompiled', hdep'⟩ :=
        hvalid.recordDep inp deps.output (min (files inp).mtime deps.compileStartTime)
      refine ⟨hvalid', fun out row => (hcompiled' out row).trans (hcompiled out row), ?_, ?_, ?_⟩
      · intro input hinput
        rcases List.mem_append.mp hinput with hinput | hinput
        · exact hthere input hinput
        · rwa [List.mem_singleton.mp hinput]
      · intro input mtime
        rw [hdep', List.mem_append, List.mem_singleton]
        by_cases heq : input = inp
        · simp [heq]
        · simp [heq, hown]
      · intro out hne input mtime
        rw [hdep', if_neg fun heq => hne heq.1]
        exact hothers out hne input mtime)
    hloop
  obtain ⟨hvalid, hcompiled, hthere, hown, hothers⟩ := hend
  refine ⟨hvalid, ⟨hrow₁.imp fun row => (hcompiled _ row).mpr, fun row hrow => ?_, hthere, hown⟩, ?_⟩
  · exact (hcommand₁ row ((hcompiled _ row).mp hrow)).command
  · intro out hne
    exact ⟨fun row => (hcompiled out row).trans ((hothers₁ out hne).compiled row), hothers out hne⟩

/-- Updating succeeds when the inputs are there. -/
theorem exec_updateDepsInfo_ok {files : Files C} {deps : FileDepsInfo}
    (hthere : ∀ inp ∈ deps.inputs, files.fileExists inp = true) (db : Database) :
    ∃ db', exec (updateDepsInfo files deps) db = (.ok (), db') := by
  refine exec_forEach_ok (fun _ => True) (fun inp hinp t _ => ?_) trivial
  refine ⟨t.recordDep inp deps.output (min (files inp).mtime deps.compileStartTime), ?_, trivial⟩
  simp [recordInput, Files.lastWriteTime, hthere inp hinp]

end Bpt.Build
