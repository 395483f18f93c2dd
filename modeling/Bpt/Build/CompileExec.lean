-- SUMMARY: Compiling files: when a compile is skipped, what it leaves behind, and how it is recorded.
import Bpt.Build.FileDeps
import Bpt.Util.Proc

/-!
# Executing compiles

A compiler is a function of its command and of the contents of the files it
reports to have read, `.syncheck` files aside. A plan comes with the command and
the object file path that a build environment gives it.
-/

namespace Bpt.Build

open Transaction

/-! ## Compilers and plans -/

structure Compiler (C : Type) where
  /-- The outcome of a command: none when it fails, and otherwise the object file
  that it writes, if it writes one. -/
  run : List String → (Path → Option C) → Option (Option C)
  /-- The files that the command reports to have read. -/
  reads : List String → (Path → Option C) → List Path
  run_congr : ∀ command contents contents',
    (∀ p ∈ reads command contents, isSyncheck p = false → contents' p = contents p) →
    run command contents' = run command contents

variable {C : Type} {compiler : Compiler C}

structure CompileFilePlan (compiler : Compiler C) where
  sourcePath : Path
  command : List String
  objectFilePath : Path
  syntaxOnly : Bool
  command_ne : command ≠ []
  /-- A syntax-only command writes no object file, and every other one does. -/
  syntaxOnly_iff : ∀ contents object, compiler.run command contents = some object →
    (object = none ↔ syntaxOnly = true)

structure CompileTicket (compiler : Compiler C) where
  plan : CompileFilePlan compiler
  needsRecompile : Bool
  priorCommand : Option CompletedCompilation

/-- Whether a plan has to be compiled, by what the database has recorded. -/
def mkCompileTicket (plan : CompileFilePlan compiler) (files : Files C) (db : Database) :
    CompileTicket compiler :=
  let rbInfo := getPriorCompilation files db plan.objectFilePath
  { plan := plan
    needsRecompile := match rbInfo with
      | none => true
      | some rb =>
        if !files.fileExists plan.objectFilePath && !plan.syntaxOnly then true
        else if !rb.newerInputs.isEmpty then true
        else if quoteCommand plan.command ≠ rb.previousCommand.quotedCommand then true
        else false
    priorCommand := rbInfo.map (·.previousCommand) }

/-! ## Dependency information of a compile -/

/-- What is left of a compiler run besides the object file. -/
structure ProcResult where
  output : String
  durMs : Int
  /-- The GNU-style dependency file is a regular file. -/
  depfile : Bool

/-- The dependency information that a successful compile gives, from what the
compiler saw of the files. The depfile, or the list of includes, is taken to name
the files that were read. -/
def newDepsInfo (mode : FileDepsMode) (toolchainHash : Int) (plan : CompileFilePlan compiler)
    (startTime : Int) (seen : Path → Option C) (proc : ProcResult) : Option FileDepsInfo :=
  let info inputs : FileDepsInfo :=
    { output := plan.objectFilePath
      inputs := inputs
      command :=
        { quotedCommand := quoteCommand plan.command
          output := proc.output
          toolchainHash := toolchainHash
          duration := proc.durMs }
      compileStartTime := startTime }
  let reads := compiler.reads plan.command seen
  match mode with
  | .gnu => if proc.depfile then some (info reads) else none
  | .msvc =>
    -- the source file is not listed by /showIncludes
    let includes := reads.filter (· ≠ plan.sourcePath)
    if includes.isEmpty then none else some (info (includes ++ [plan.sourcePath]))
  | .none => none

/-- What is stored of a compile names its output and its command, and the inputs
that the compiler has read are among those stored. -/
theorem newDepsInfo_eq_some {mode : FileDepsMode} {toolchainHash : Int}
    {plan : CompileFilePlan compiler} {startTime : Int} {seen : Path → Option C}
    {proc : ProcResult} {info : FileDepsInfo}
    (h : newDepsInfo mode toolchainHash plan startTime seen proc = some info) :
    info.output = plan.objectFilePath ∧
      info.command.quotedCommand = quoteCommand plan.command ∧
      info.compileStartTime = startTime ∧
      ∀ p ∈ compiler.reads plan.command seen, p ∈ info.inputs := by
  unfold newDepsInfo at h
  cases mode with
  | none => cases h
  | gnu =>
      dsimp only at h
      split at h
      next =>
        cases h
        exact ⟨rfl, rfl, rfl, fun _ hp => hp⟩
      next => cases h
  | msvc =>
      dsimp only at h
      split at h
      next => cases h
      next =>
        cases h
        refine ⟨rfl, rfl, rfl, fun p hp => ?_⟩
        by_cases hsource : p = plan.sourcePath
        · exact List.mem_append_right _ (List.mem_singleton.mpr hsource)
        · exact List.mem_append_left _ (List.mem_filter.mpr ⟨hp, by simpa using hsource⟩)

/-- The transaction at the end of `compile_all`. A cancellation undoes it too. -/
def recordNewDeps (files : Files C) (allNewDeps : List FileDepsInfo) (cancelled : Bool) :
    Statement Unit :=
  transaction do
    forEach (updateDepsInfo files) allNewDeps
    if cancelled then throw .userCancelled

/-! ## Skipped compiles -/

/-- A compile is skipped only when the record of its output stands, has its
command, and the object file is there unless none is written. -/
theorem standingCommand_of_skip {plan : CompileFilePlan compiler} {files : Files C}
    {db : Database} (hskip : (mkCompileTicket plan files db).needsRecompile = false) :
    standingCommand files db plan.objectFilePath = some (quoteCommand plan.command) ∧
      (plan.syntaxOnly = false → files.fileExists plan.objectFilePath = true) := by
  unfold mkCompileTicket getPriorCompilation at hskip
  unfold standingCommand
  cases hcmd : db.commandOf plan.objectFilePath with
  | none => simp [hcmd] at hskip
  | some cmd =>
      cases hinputs : db.inputsOf plan.objectFilePath with
      | none => simp [hcmd, hinputs] at hskip
      | some inputs =>
          simp only [hcmd, hinputs, Option.bind_eq_bind, Option.bind_some, Option.pure_def] at hskip
          split at hskip
          next => cases hskip
          next hthere =>
            split at hskip
            next => cases hskip
            next hnewer =>
              split at hskip
              next => cases hskip
              next hcommand =>
                have hnone : inputs.any (isNewer files) = false := by
                  simpa [List.filter_eq_nil_iff] using hnewer
                dsimp only
                rw [hnone, not_not.mp hcommand]
                exact ⟨rfl, fun hobj => by simpa [hobj] using hthere⟩

/-! ## Recording -/

/-- Recording replaces the records of the outputs and keeps all others. -/
theorem exec_recordNewDeps_eq_ok {files : Files C} {allNewDeps : List FileDepsInfo}
    {cancelled : Bool} {db db' : Database} (hdb : db.Valid)
    (hnodup : (allNewDeps.map (·.output)).Nodup)
    (h : exec (recordNewDeps files allNewDeps cancelled) db = (.ok (), db')) :
    db'.Valid ∧ (∀ info ∈ allNewDeps, Stored files info db') ∧
      ∀ out, out ∉ allNewDeps.map (·.output) → db.SameRecord db' out := by
  unfold recordNewDeps at h
  obtain ⟨_, t, hloop, hcancel⟩ := exec_bind_eq_ok.mp (exec_transaction_eq_ok.mp h)
  have ht : t = db' := by
    cases cancelled with
    | false => exact (Prod.mk.inj hcancel).2
    | true => cases hcancel
  subst ht
  refine exec_forEach_eq_ok (P := fun handled t => t.Valid ∧ (∀ info ∈ handled, Stored files info t) ∧
      ∀ out, out ∉ handled.map (·.output) → db.SameRecord t out)
    ⟨hdb, by simp, fun out _ => .refl db out⟩ ?_ hloop
  rintro handled info rest t t' hitems ⟨hvalid, hstored, hsame⟩ hupdate
  obtain ⟨hvalid', hnew, hothers⟩ := exec_updateDepsInfo_eq_ok hvalid hupdate
  -- no output is recorded twice
  have hdistinct : info.output ∉ handled.map (·.output) := by
    intro hmem
    rw [hitems, List.map_append, List.map_cons] at hnodup
    exact List.disjoint_of_nodup_append hnodup hmem List.mem_cons_self
  refine ⟨hvalid', fun info' hinfo' => ?_, fun out hout => ?_⟩
  · rcases List.mem_append.mp hinfo' with hinfo' | hinfo'
    · refine (hstored info' hinfo').congr (hothers _ fun heq => hdistinct ?_)
      exact heq ▸ List.mem_map_of_mem hinfo'
    · rw [List.mem_singleton.mp hinfo']
      exact hnew
  · rw [List.map_append, List.mem_append, not_or] at hout
    exact (hsame out hout.1).trans (hothers out (by simpa using hout.2))

/-- Recording succeeds when it is not cancelled and all inputs are there. -/
theorem exec_recordNewDeps_ok {files : Files C} {allNewDeps : List FileDepsInfo}
    (hthere : ∀ info ∈ allNewDeps, ∀ inp ∈ info.inputs, files.fileExists inp = true)
    (db : Database) : ∃ db', exec (recordNewDeps files allNewDeps false) db = (.ok (), db') := by
  have hstep : ∀ info ∈ allNewDeps, ∀ t : Database, True →
      ∃ t', exec (updateDepsInfo files info) t = (.ok (), t') ∧ True := by
    intro info hinfo t _
    obtain ⟨t', hupdate⟩ := exec_updateDepsInfo_ok (hthere info hinfo) t
    exact ⟨t', hupdate, trivial⟩
  obtain ⟨db', hloop⟩ := exec_forEach_ok (fun _ => True) hstep trivial
  exact ⟨db', exec_transaction_eq_ok.mpr (exec_bind_eq_ok.mpr ⟨(), db', hloop, rfl⟩)⟩

end Bpt.Build
