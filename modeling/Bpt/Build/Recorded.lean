-- SUMMARY: What the build database returns after a sequence of updates, with paths in any spelling.
import Bpt.Build.FileDeps

/-!
# Recorded dependency information

An update names files by any spelling of their paths. What is stored is in normal
form, and what is asked for is resolved against the files. The updates are those
that were committed, from any number of connections.
-/

namespace Bpt.Build

open Transaction Keyed

/-! ## Updates -/

inductive UpdateError where
  | record (err : RecordError)
  /-- `normalize_path` does not return. -/
  | noNormalForm (path : Path)
  deriving DecidableEq

abbrev UpdateAction (α : Type) := Action UpdateError Database α

def normalForm (path : Path) : UpdateAction Path :=
  match path.normalizePath with
  | some p => pure p
  | none => throw (.noNormalForm path)

def recordDep (input output : Path) (inputMtime : Int) : UpdateAction Unit := do
  let input ← normalForm input
  let output ← normalForm output
  modify (Database.recordDep input output inputMtime)

def recordCompilation (file : Path) (cmd : CompletedCompilation) : UpdateAction Unit := do
  let file ← normalForm file
  modify (Database.recordCompilation file cmd)

/-- A call of `update_deps_info`, with the files, under any spelling of their
paths, and what `fs::weakly_canonical` makes of paths when it is called. -/
structure Update (C : Type) where
  files : Files C
  weaklyCanonical : Path → Path
  deps : FileDepsInfo

variable {C : Type}

namespace Update

def output (u : Update C) : Path := u.deps.output

def recordInput (u : Update C) (inp : Path) : UpdateAction Unit :=
  match u.files.lastWriteTime inp with
  | none => throw (.record (.lastWriteTime inp))
  | some mtime => recordDep inp u.deps.output (min mtime u.deps.compileStartTime)

/-- `update_deps_info`. -/
def run (u : Update C) : UpdateAction Unit := do
  recordCompilation u.deps.output u.deps.command
  modify (Database.forgetInputsOf (u.weaklyCanonical u.deps.output))
  forEach u.recordInput u.deps.inputs

end Update

/-- `command_of`. -/
def commandOf (weaklyCanonical : Path → Path) (db : Database) (file : Path) :
    Option CompletedCompilation :=
  db.commandOf (weaklyCanonical file)

/-- `inputs_of`. -/
def inputsOf (weaklyCanonical : Path → Path) (db : Database) (file : Path) :
    Option (List InputFileInfo) :=
  db.inputsOf (weaklyCanonical file)

/-- The path is its own normal form, and is resolved to itself. -/
structure Canonical (weaklyCanonical : Path → Path) (path : Path) : Prop where
  resolved : weaklyCanonical path = path
  normal : path.normalizePath = some path

/-- What happens to a database: an update is committed, or a new connection is opened. -/
inductive RecordStep (C : Type) where
  | update (u : Update C)
  | reopen

def RecordStep.run : RecordStep C → UpdateAction Unit
  | .update u => u.run
  | .reopen => modify Database.reopen

/-- The updates among the steps. -/
def updates (steps : List (RecordStep C)) : List (Update C) :=
  steps.filterMap fun
    | .update u => some u
    | .reopen => none

/-- One of the inputs has the normal form, and the mtime is the one recorded for
it. Where the inputs spell a path in several ways, the last of them counts. -/
def Update.Records (u : Update C) (inputs : List Path) (path : Path) (mtime : Int) : Prop :=
  ∃ inp, IsLast Path.normalizePath inputs inp ∧ inp.normalizePath = some path ∧
    ∃ lastWrite, u.files.lastWriteTime inp = some lastWrite ∧
      mtime = min lastWrite u.deps.compileStartTime

/-! ## One update -/

theorem exec_normalForm_eq_ok {path p : Path} {db db' : Database} :
    exec (normalForm path) db = (.ok p, db') ↔ path.normalizePath = some p ∧ db' = db := by
  unfold normalForm
  cases path.normalizePath with
  | none => simp
  | some q => simp [eq_comm]

theorem exec_recordCompilation_eq_ok {file : Path} {cmd : CompletedCompilation} {db db' : Database}
    (hfile : file.normalizePath = some file)
    (h : exec (recordCompilation file cmd) db = (.ok (), db')) :
    db' = db.recordCompilation file cmd := by
  obtain ⟨p, t, hp, hmodify⟩ := exec_bind_eq_ok.mp h
  obtain ⟨hnormal, rfl⟩ := exec_normalForm_eq_ok.mp hp
  obtain rfl : file = p := Option.some.inj (hfile.symm.trans hnormal)
  exact (Prod.mk.inj hmodify).2.symm

theorem exec_recordDep_eq_ok {input output : Path} {mtime : Int} {db db' : Database}
    (houtput : output.normalizePath = some output)
    (h : exec (recordDep input output mtime) db = (.ok (), db')) :
    ∃ p, input.normalizePath = some p ∧ db' = db.recordDep p output mtime := by
  obtain ⟨p, t, hp, hrest⟩ := exec_bind_eq_ok.mp h
  obtain ⟨hinput, rfl⟩ := exec_normalForm_eq_ok.mp hp
  obtain ⟨q, t, hq, hmodify⟩ := exec_bind_eq_ok.mp hrest
  obtain ⟨hnormal, rfl⟩ := exec_normalForm_eq_ok.mp hq
  obtain rfl : output = q := Option.some.inj (houtput.symm.trans hnormal)
  exact ⟨p, hinput, (Prod.mk.inj hmodify).2.symm⟩

theorem Update.exec_recordInput_eq_ok {u : Update C} {inp : Path} {db db' : Database}
    (houtput : u.output.normalizePath = some u.output)
    (h : exec (u.recordInput inp) db = (.ok (), db')) :
    ∃ p lastWrite, inp.normalizePath = some p ∧ u.files.lastWriteTime inp = some lastWrite ∧
      db' = db.recordDep p u.output (min lastWrite u.deps.compileStartTime) := by
  unfold recordInput at h
  cases hmtime : u.files.lastWriteTime inp with
  | none =>
      rw [hmtime] at h
      cases h
  | some lastWrite =>
      rw [hmtime] at h
      obtain ⟨p, hinp, hdb⟩ := Build.exec_recordDep_eq_ok houtput h
      exact ⟨p, lastWrite, hinp, rfl, hdb⟩

/-- A further input replaces what was recorded for its normal form. -/
theorem Update.records_concat {u : Update C} {handled : List Path} {inp p : Path} {lastWrite : Int}
    (hinp : inp.normalizePath = some p) (hlast : u.files.lastWriteTime inp = some lastWrite)
    (path : Path) (mtime : Int) :
    u.Records (handled ++ [inp]) path mtime ↔
      if path = p then mtime = min lastWrite u.deps.compileStartTime
      else u.Records handled path mtime := by
  unfold Records
  simp only [isLast_concat]
  split
  next heq =>
    subst heq
    constructor
    · rintro ⟨other, rfl | ⟨_, hne⟩, hother, written, hwritten, rfl⟩
      · rw [Option.some.inj (hlast.symm.trans hwritten)]
      · exact absurd (hother.trans hinp.symm) hne
    · intro hmtime
      exact ⟨inp, .inl rfl, hinp, lastWrite, hlast, hmtime⟩
  next hne =>
    constructor
    · rintro ⟨other, rfl | ⟨hother, _⟩, hpath, hmtime⟩
      · exact absurd (Option.some.inj (hpath.symm.trans hinp)) hne
      · exact ⟨other, hother, hpath, hmtime⟩
    · rintro ⟨other, hother, hpath, hmtime⟩
      refine ⟨other, .inr ⟨hother, fun heq => hne ?_⟩, hpath, hmtime⟩
      exact Option.some.inj (hpath.symm.trans (heq.trans hinp))

/-- The database holds what the update has recorded for its output. -/
structure RecordedAs (u : Update C) (inputs : List Path) (db : Database) : Prop where
  compiled : ∃ row, db.Compiled u.output row
  holds : ∀ row, db.Compiled u.output row → Database.RowHolds row u.deps.command
  dep : ∀ path mtime, db.Dep u.output path mtime ↔ u.Records inputs path mtime
  records : inputs ≠ [] → ∃ path mtime, u.Records inputs path mtime

theorem RecordedAs.congr {u : Update C} {inputs : List Path} {db db' : Database}
    (h : RecordedAs u inputs db) (hsame : db.SameRecord db' u.output) : RecordedAs u inputs db' where
  compiled := h.compiled.imp fun row => (hsame.compiled row).mpr
  holds row hrow := h.holds row ((hsame.compiled row).mp hrow)
  dep path mtime := (hsame.dep path mtime).trans (h.dep path mtime)
  records := h.records

/-- The record of an output and what `inputs_of` returns for it are the same. -/
structure Untouched (db db' : Database) (out : Path) : Prop where
  record : db.SameRecord db' out
  inputsOf : db'.inputsOf out = db.inputsOf out

theorem Untouched.trans {db db' db'' : Database} {out : Path} (h : Untouched db db' out)
    (h' : Untouched db' db'' out) : Untouched db db'' out :=
  ⟨h.record.trans h'.record, h'.inputsOf.trans h.inputsOf⟩

/-- An input of an update goes to its output's record and to no other. -/
theorem RecordedAs.recordDep {u : Update C} {handled : List Path} {db : Database} {inp p : Path}
    {lastWrite : Int} (hdb : db.Valid) (h : RecordedAs u handled db)
    (hinp : inp.normalizePath = some p) (hlast : u.files.lastWriteTime inp = some lastWrite) :
    let db' := db.recordDep p u.output (min lastWrite u.deps.compileStartTime)
    db'.Valid ∧ RecordedAs u (handled ++ [inp]) db' ∧
      ∀ out, out ≠ u.output → Untouched db db' out := by
  obtain ⟨hvalid, hcompiled, hdep⟩ :=
    hdb.recordDep p u.output (min lastWrite u.deps.compileStartTime)
  refine ⟨hvalid, ⟨h.compiled.imp fun row => (hcompiled _ row).mpr,
    fun row hrow => h.holds row ((hcompiled _ row).mp hrow), fun path mtime => ?_,
    fun _ => ⟨p, _, (Update.records_concat hinp hlast p _).mpr (by rw [if_pos rfl])⟩⟩, ?_⟩
  · rw [hdep, Update.records_concat hinp hlast, h.dep]
    simp only [true_and]
  · intro out hne
    refine ⟨⟨hcompiled out, fun path mtime => ?_⟩, hdb.recordDep_inputsOf p u.output _ hne⟩
    rw [hdep, if_neg fun heq => hne heq.1]

/-- An update replaces the record of its output and touches no other. -/
theorem Update.exec_run_eq_ok {u : Update C} {db db' : Database} (hdb : db.Valid)
    (hout : Canonical u.weaklyCanonical u.output) (h : exec u.run db = (.ok (), db')) :
    db'.Valid ∧ RecordedAs u u.deps.inputs db' ∧
      ∀ out, out ≠ u.output → Untouched db db' out := by
  obtain ⟨_, t, hcompilation, h⟩ := exec_bind_eq_ok.mp h
  obtain rfl := exec_recordCompilation_eq_ok hout.normal hcompilation
  obtain ⟨_, t, hforget, hloop⟩ := exec_bind_eq_ok.mp h
  obtain rfl := (Prod.mk.inj hforget).2
  rw [show u.weaklyCanonical u.deps.output = u.output from hout.resolved] at hloop
  obtain ⟨hvalid₁, hrow₁, hholds₁, hothers₁⟩ := hdb.recordCompilation u.output u.deps.command
  obtain ⟨hvalid₂, hcompiled₂, hdep₂⟩ := hvalid₁.forgetInputsOf u.output
  -- before the loop, the output has its compilation and no input
  refine exec_forEach_eq_ok (P := fun handled t => t.Valid ∧ RecordedAs u handled t ∧
    ∀ out, out ≠ u.output → Untouched db t out) ⟨hvalid₂, ⟨?_, ?_, ?_, absurd rfl⟩, ?_⟩ ?_ hloop
  · exact hrow₁.imp fun row => (hcompiled₂ _ row).mpr
  · exact fun row hrow => hholds₁ row ((hcompiled₂ _ row).mp hrow)
  · intro path mtime
    rw [hdep₂]
    refine iff_of_false (fun hdep => hdep.1 rfl) ?_
    rintro ⟨inp, hlast, _⟩
    exact not_isLast_nil hlast
  · intro out hne
    refine Untouched.trans ⟨hothers₁ out hne, hdb.recordCompilation_inputsOf _ _ _⟩
      ⟨⟨hcompiled₂ out, fun path mtime => ?_⟩, hvalid₁.forgetInputsOf_inputsOf _ hne⟩
    rw [hdep₂]
    exact and_iff_right hne
  · rintro handled inp rest t t' - ⟨hvalid, hrecorded, hothers⟩ hinput
    obtain ⟨p, lastWrite, hinp, hlast, rfl⟩ := u.exec_recordInput_eq_ok hout.normal hinput
    obtain ⟨hvalid', hrecorded', hothers'⟩ := hrecorded.recordDep hvalid hinp hlast
    exact ⟨hvalid', hrecorded', fun out hne => (hothers out hne).trans (hothers' out hne)⟩

/-! ## Any number of updates -/

theorem updates_concat_update (steps : List (RecordStep C)) (u : Update C) :
    updates (steps ++ [.update u]) = updates steps ++ [u] := by
  simp [updates]

theorem updates_concat_reopen (steps : List (RecordStep C)) :
    updates (steps ++ [.reopen]) = updates steps := by
  simp [updates]

theorem mem_updates {steps : List (RecordStep C)} {u : Update C} :
    u ∈ updates steps ↔ .update u ∈ steps := by
  unfold updates
  rw [List.mem_filterMap]
  constructor
  · rintro ⟨step, hstep, hu⟩
    cases step with
    | update v =>
        cases hu
        exact hstep
    | reopen => cases hu
  · exact fun hstep => ⟨_, hstep, rfl⟩

/-- Nothing is recorded for the output. -/
structure Unrecorded (db : Database) (out : Path) : Prop where
  compiled : ∀ row, ¬ db.Compiled out row
  dep : ∀ input mtime, ¬ db.Dep out input mtime

theorem Unrecorded.congr {db db' : Database} {out : Path} (h : Unrecorded db out)
    (hsame : db.SameRecord db' out) : Unrecorded db' out where
  compiled row hrow := h.compiled row ((hsame.compiled row).mp hrow)
  dep input mtime hdep := h.dep input mtime ((hsame.dep input mtime).mp hdep)

/-- The record of every output is that of the last update for it. -/
structure LastRecorded (us : List (Update C)) (db : Database) : Prop where
  valid : db.Valid
  recorded : ∀ u, IsLast Update.output us u → RecordedAs u u.deps.inputs db
  unrecorded : ∀ out, (∀ u ∈ us, u.output ≠ out) → Unrecorded db out

theorem lastRecorded_empty : LastRecorded (C := C) [] {} where
  valid := Database.valid_empty
  recorded _ hu := absurd hu not_isLast_nil
  unrecorded _ _ := {
    compiled := fun _ hrow => nomatch hrow.1
    dep := fun _ _ hdep => nomatch hdep.choose_spec.1 }

theorem LastRecorded.reopen {us : List (Update C)} {db : Database} (h : LastRecorded us db) :
    LastRecorded us db.reopen where
  valid := h.valid.reopen
  recorded u hu := (h.recorded u hu).congr ⟨fun _ => Iff.rfl, fun _ _ => Iff.rfl⟩
  unrecorded out hout := (h.unrecorded out hout).congr ⟨fun _ => Iff.rfl, fun _ _ => Iff.rfl⟩

theorem LastRecorded.update {us : List (Update C)} {db db' : Database} (h : LastRecorded us db)
    {u : Update C} (hout : Canonical u.weaklyCanonical u.output)
    (hexec : exec u.run db = (.ok (), db')) : LastRecorded (us ++ [u]) db' := by
  obtain ⟨hvalid, hrecorded, hothers⟩ := u.exec_run_eq_ok h.valid hout hexec
  refine ⟨hvalid, fun v hv => ?_, fun out hnone => ?_⟩
  · rcases isLast_concat.mp hv with rfl | ⟨hv, hne⟩
    · exact hrecorded
    · exact (h.recorded v hv).congr (hothers v.output hne).record
  · have hne : u.output ≠ out := hnone u (by simp)
    refine (h.unrecorded out fun v hv => hnone v (by simp [hv])).congr ?_
    exact (hothers out hne.symm).record

theorem lastRecorded_of_exec {steps : List (RecordStep C)} {db : Database}
    (hout : ∀ u ∈ updates steps, Canonical u.weaklyCanonical u.output)
    (hexec : exec (forEach RecordStep.run steps) {} = (.ok (), db)) :
    LastRecorded (updates steps) db := by
  refine exec_forEach_eq_ok (P := fun handled t => LastRecorded (updates handled) t)
    lastRecorded_empty ?_ hexec
  rintro handled step rest t t' hsteps hlast hstep
  cases step with
  | update u =>
      rw [updates_concat_update]
      refine hlast.update (hout u (mem_updates.mpr ?_)) hstep
      simp [hsteps]
  | reopen =>
      rw [updates_concat_reopen]
      obtain rfl := (Prod.mk.inj hstep).2
      exact hlast.reopen

/-! ## What is returned -/

/-- The command, what it printed and the toolchain are those of the update, and the
inputs are the ones it has recorded. -/
structure Returns (weaklyCanonical : Path → Path) (db : Database) (file : Path) (u : Update C) :
    Prop where
  command : ∃ cmd, commandOf weaklyCanonical db file = some cmd ∧
    cmd.quotedCommand = u.deps.command.quotedCommand ∧ cmd.output = u.deps.command.output ∧
    cmd.toolchainHash = u.deps.command.toolchainHash
  inputs : ∃ inputs, inputsOf weaklyCanonical db file = some inputs ∧
    ∀ path mtime, ⟨path, mtime⟩ ∈ inputs ↔ u.Records u.deps.inputs path mtime

theorem LastRecorded.returns {us : List (Update C)} {db : Database} (h : LastRecorded us db)
    {u : Update C} (hu : IsLast Update.output us u) (hne : u.deps.inputs ≠ [])
    {weaklyCanonical : Path → Path} {file : Path} (hfile : u.output = weaklyCanonical file) :
    Returns weaklyCanonical db file u := by
  have hrecorded := h.recorded u hu
  obtain ⟨row, hrow⟩ := hrecorded.compiled
  obtain ⟨path, mtime, hrecords⟩ := hrecorded.records hne
  obtain ⟨inputs, hinputs⟩ := h.valid.inputsOf_isSome ((hrecorded.dep path mtime).mpr hrecords)
  have hholds := hrecorded.holds row hrow
  refine ⟨⟨⟨row.command, row.output, row.toolchainHash, row.avgDuration⟩, ?_, hholds.command, hholds.output, hholds.toolchainHash⟩, inputs, ?_, ?_⟩
  · unfold commandOf
    rw [← hfile]
    exact h.valid.commandOf_eq_some.mpr ⟨row, hrow, rfl⟩
  · unfold Build.inputsOf
    rw [← hfile]
    exact hinputs
  · intro path mtime
    rw [(h.valid.inputsOf_eq_some hinputs).2, hrecorded.dep]

theorem Unrecorded.returns {db : Database} {weaklyCanonical : Path → Path} {file : Path}
    (h : Unrecorded db (weaklyCanonical file)) (hdb : db.Valid) :
    commandOf weaklyCanonical db file = none ∧ inputsOf weaklyCanonical db file = none := by
  constructor
  · refine Option.eq_none_iff_forall_ne_some.mpr fun cmd hcmd => ?_
    obtain ⟨row, hrow, _⟩ := hdb.commandOf_eq_some.mp hcmd
    exact h.compiled row hrow
  · refine Option.eq_none_iff_forall_ne_some.mpr fun inputs hinputs => ?_
    obtain ⟨hne, hdeps⟩ := hdb.inputsOf_eq_some hinputs
    obtain ⟨input, hinput⟩ := List.exists_mem_of_ne_nil _ hne
    exact h.dep _ _ ((hdeps _ _).mp hinput)

/-- For a file asked for, what is returned is what the last update for it has
recorded, and nothing if there was none. A further update for another output
changes neither. -/
theorem lastRecorded_returned {steps : List (RecordStep C)} {db : Database}
    (hupdates : ∀ u ∈ updates steps,
      Canonical u.weaklyCanonical u.output ∧ u.deps.inputs ≠ [])
    (hexec : exec (forEach RecordStep.run steps) {} = (.ok (), db))
    (weaklyCanonical : Path → Path) (file : Path) :
    (∀ u, IsLast Update.output (updates steps) u → u.output = weaklyCanonical file →
      Returns weaklyCanonical db file u) ∧
    ((∀ u ∈ updates steps, u.output ≠ weaklyCanonical file) →
      commandOf weaklyCanonical db file = none ∧ inputsOf weaklyCanonical db file = none) ∧
    ∀ (u : Update C) db', Canonical u.weaklyCanonical u.output → u.output ≠ weaklyCanonical file →
      exec u.run db = (.ok (), db') →
      commandOf weaklyCanonical db' file = commandOf weaklyCanonical db file ∧
        inputsOf weaklyCanonical db' file = inputsOf weaklyCanonical db file := by
  have hlast := lastRecorded_of_exec (fun u hu => (hupdates u hu).1) hexec
  refine ⟨fun u hu hfile => ?_, fun hnone => ?_, fun u db' hout hne hrun => ?_⟩
  · refine hlast.returns hu (hupdates u hu.mem).2 hfile
  · exact (hlast.unrecorded _ hnone).returns hlast.valid
  · obtain ⟨hvalid, _, hothers⟩ := u.exec_run_eq_ok hlast.valid hout hrun
    exact ⟨Database.commandOf_congr hlast.valid hvalid (hothers _ hne.symm).record,
      (hothers _ hne.symm).inputsOf⟩

/-- A header is shared by two outputs, one of which is an input of the other. -/
theorem lastRecorded_returned_app :
    let files : Files Unit := fun _ => ⟨some (), 7⟩
    let main : Update Unit := ⟨files, id, ⟨.ofString "/main.o",
      [.ofString "/main.c", .ofString "/src/../foo.h"], ⟨"cc main.c", "", 1, 900⟩, 5⟩⟩
    let app : Update Unit := ⟨files, id, ⟨.ofString "/app",
      [.ofString "/main.o", .ofString "/foo.h"], ⟨"cc main.o", "", 1, 900⟩, 9⟩⟩
    ∃ db, exec (forEach RecordStep.run [.update main, .reopen, .update app]) {} = (.ok (), db) ∧
      Returns id db (.ofString "/main.o") main ∧ Returns id db (.ofString "/app") app ∧
      commandOf id db (.ofString "/foo.h") = none ∧ inputsOf id db (.ofString "/foo.h") = none := by
  intro files main app
  let steps : List (RecordStep Unit) := [.update main, .reopen, .update app]
  have hexec := exec_of_fst (x := forEach RecordStep.run steps) (s := {}) (r := .ok ()) (by rfl)
  have hupdates : ∀ u ∈ updates steps, Canonical u.weaklyCanonical u.output ∧ u.deps.inputs ≠ [] := by
    intro u hu
    rcases List.mem_cons.mp hu with rfl | hu
    · exact ⟨⟨rfl, by decide +kernel⟩, by decide +kernel⟩
    · obtain rfl := List.mem_singleton.mp hu
      exact ⟨⟨rfl, by decide +kernel⟩, by decide +kernel⟩
  have hreturned := lastRecorded_returned hupdates hexec id
  refine ⟨_, hexec, (hreturned _).1 main ⟨[], [app], rfl, ?_⟩ rfl,
    (hreturned _).1 app ⟨[main], [], rfl, by simp⟩ rfl, (hreturned (.ofString "/foo.h")).2.1 ?_⟩
  · intro u hu
    rw [List.mem_singleton.mp hu]
    decide +kernel
  · intro u hu
    rcases List.mem_cons.mp hu with rfl | hu
    · decide +kernel
    · obtain rfl := List.mem_singleton.mp hu
      decide +kernel

end Bpt.Build
