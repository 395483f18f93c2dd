-- SUMMARY: Histories of file edits and builds, step by step.
import Mathlib.Logic.Function.Basic
import Bpt.Base.Reach
import Bpt.Build.CompileExec

/-!
# Build histories

A history is a run of edits and builds. Edits come at any time, also while a
build is compiling. A build makes the tickets of its plans, runs the compiles
that are needed, several at a time, and records them in one transaction.
-/

namespace Bpt.Build

open Transaction

/-! ## States -/

/-- The files and the database. The last three fields belong to the history and
are not seen by the program: it counts the changes of files, and keeps the count
at which each file last changed and at which the recorded compile started. -/
structure Disk (C : Type) where
  files : Files C
  db : Database
  now : Nat
  changed : Path → Nat
  recordedStart : Path → Nat

variable {C : Type} {compiler : Compiler C}

namespace Disk

def contents (disk : Disk C) (path : Path) : Option C := (disk.files path).content

def standing (disk : Disk C) (out : Path) : Option String := standingCommand disk.files disk.db out

/-- Change a file. One that has content gets a strictly newer mtime. -/
def put (disk : Disk C) (path : Path) (content : Option C) (mtime : Int) : Option (Disk C) :=
  if content.isSome ∧ mtime ≤ (disk.files path).mtime then none
  else some { disk with
    files := Function.update disk.files path
      ⟨content, if content.isSome then mtime else (disk.files path).mtime⟩
    now := disk.now + 1
    changed := Function.update disk.changed path (disk.now + 1) }

end Disk

/-- A running compile. -/
structure Compile (compiler : Compiler C) where
  plan : CompileFilePlan compiler
  startTime : Int
  /-- The count of changes when it started. -/
  started : Nat

/-- What the compiler sees. A file that changes while it runs may be read in any state. -/
def Compile.seen (compile : Compile compiler) (disk : Disk C) (reading : Path → Option C)
    (path : Path) : Option C :=
  if compile.started < disk.changed path then reading path else disk.contents path

/-- An element of `all_new_deps`, with the compile it comes from. -/
structure NewDeps (compiler : Compiler C) where
  plan : CompileFilePlan compiler
  started : Nat
  info : FileDepsInfo

/-- The build that is running. -/
structure BuildRun (compiler : Compiler C) where
  depsMode : FileDepsMode
  toolchainHash : Int
  /-- The plans that have no ticket yet. -/
  plans : List (CompileFilePlan compiler)
  /-- The tickets that no thread has taken yet. -/
  tickets : List (CompileTicket compiler) := []
  running : List (Compile compiler) := []
  allNewDeps : List (NewDeps compiler) := []
  failed : Bool := false

/-- The outputs of the compiles that are running or waiting to be recorded. -/
def BuildRun.outputs (build : BuildRun compiler) : List Path :=
  build.running.map (·.plan.objectFilePath) ++ build.allNewDeps.map (·.info.output)

structure State (compiler : Compiler C) where
  disk : Disk C
  build : Option (BuildRun compiler)

def State.initial (files : Files C) : State compiler where
  disk := ⟨files, {}, 0, fun _ => 0, fun _ => 0⟩
  build := none

/-! ## Steps -/

inductive Event (compiler : Compiler C) where
  /-- Write a file, or delete it. The mtime is that of the written file. -/
  | edit (path : Path) (content : Option C) (mtime : Int)
  | beginBuild (depsMode : FileDepsMode) (toolchainHash : Int)
      (plans : List (CompileFilePlan compiler))
  /-- Make the next ticket. -/
  | ticket
  /-- A thread takes the next ticket and starts its compile if it needs one. -/
  | take (startTime : Int)
  /-- The compile of the given position returns. A compile that fails leaves its
  object file as it was, or in the state `left`. -/
  | finish (index : Nat) (reading : Path → Option C) (left : Option (Option C)) (mtime : Int)
      (proc : ProcResult)
  /-- Record the new dependency information. -/
  | commit (cancelled : Bool)

/-- The build after the compile of the given position has returned and given `news`. -/
def BuildRun.returned (build : BuildRun compiler) (index : Nat) (news : List (NewDeps compiler))
    (failed : Bool) : BuildRun compiler :=
  { build with
    running := build.running.eraseIdx index
    allNewDeps := build.allNewDeps ++ news
    failed := failed }

/-- Write the object file of a compile, if it is written. -/
def Disk.write (disk : Disk C) (out : Path) (written : Option (Option C)) (mtime : Int) :
    Option (Disk C) :=
  match written with
  | none => some disk
  | some content => disk.put out content mtime

/-- A compile returns, after the compiler has seen the files like this. -/
def BuildRun.finish (build : BuildRun compiler) (disk : Disk C) (index : Nat)
    (compile : Compile compiler) (seen : Path → Option C) (left : Option (Option C)) (mtime : Int)
    (proc : ProcResult) : Option (State compiler) :=
  let out := compile.plan.objectFilePath
  match compiler.run compile.plan.command seen with
  | none =>
    (disk.write out left mtime).map fun disk => ⟨disk, some (build.returned index [] true)⟩
  | some object =>
    let newDeps := newDepsInfo build.depsMode build.toolchainHash compile.plan compile.startTime
      seen proc
    let news := (newDeps.map (⟨compile.plan, compile.started, ·⟩)).toList
    (disk.write out (object.map some) mtime).map fun disk =>
      ⟨disk, some (build.returned index news build.failed)⟩

/-- The disk after the new dependency information is recorded. -/
def BuildRun.recorded (build : BuildRun compiler) (disk : Disk C) (db : Database) : Disk C :=
  { disk with
    db := db
    recordedStart := fun out =>
      match build.allNewDeps.find? fun n => n.info.output = out with
      | some n => n.started
      | none => disk.recordedStart out }

/-- Record what the compiles gave. The connection to the database ends with the build. -/
def BuildRun.commit (build : BuildRun compiler) (disk : Disk C) (cancelled : Bool) : State compiler :=
  let infos := build.allNewDeps.map (·.info)
  match exec (recordNewDeps disk.files infos cancelled) disk.db with
  | (.ok _, db) => ⟨build.recorded disk db, none⟩
  | (.error _, db) => ⟨{ disk with db := db }, none⟩

/-- The state after an event, if it can happen. -/
def step (s : State compiler) : Event compiler → Option (State compiler)
  | .edit path content mtime => (s.disk.put path content mtime).map fun disk => { s with disk := disk }
  | .beginBuild depsMode toolchainHash plans =>
    match s.build with
    | some _ => none
    | none =>
      some ⟨{ s.disk with db := s.disk.db.reopen }, some
        { depsMode := depsMode, toolchainHash := toolchainHash, plans := plans }⟩
  | .ticket =>
    match s.build with
    | none => none
    | some build =>
      match build.plans with
      | [] => none
      | plan :: plans =>
        some { s with build := some { build with
          plans := plans
          tickets := build.tickets ++ [mkCompileTicket plan s.disk.files s.disk.db] } }
  | .take startTime =>
    match s.build with
    | none => none
    | some build =>
      match build.plans, build.tickets with
      | [], ticket :: tickets =>
        -- a failure only shows once its exception is kept, so a thread may still take a ticket
        some { s with build := some { build with
          tickets := tickets
          running :=
            if ticket.needsRecompile then build.running ++ [⟨ticket.plan, startTime, s.disk.now⟩]
            else build.running } }
      | _, _ => none
  | .finish index reading left mtime proc =>
    match s.build with
    | none => none
    | some build =>
      match build.running[index]? with
      | none => none
      | some compile =>
        build.finish s.disk index compile (compile.seen s.disk reading) left mtime proc
  | .commit cancelled =>
    match s.build with
    | none => none
    | some build =>
      if build.plans.isEmpty && build.running.isEmpty && (build.tickets.isEmpty || build.failed) then
        some (build.commit s.disk cancelled)
      else none

/-- The states that histories reach, from any files and an empty database. -/
def HistoryReachable : State compiler → Prop :=
  Reach.Reachable (fun s => ∃ files, s = .initial files) fun s t => ∃ event, step s event = some t

/-- The state after a list of events, if they can all happen. -/
def run (s : State compiler) (events : List (Event compiler)) : Option (State compiler) :=
  events.foldlM step s

theorem HistoryReachable.run {s t : State compiler} {events : List (Event compiler)}
    (h : HistoryReachable s) (hrun : run s events = some t) : HistoryReachable t := by
  induction events generalizing s with
  | nil =>
      cases hrun
      exact h
  | cons event events ih =>
      obtain ⟨u, hstep, hrest⟩ := Option.bind_eq_some_iff.mp hrun
      exact ih (h.step ⟨event, hstep⟩) hrest

end Bpt.Build
