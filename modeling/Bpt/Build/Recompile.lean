-- SUMMARY: Skipping a compile is sound in every history whose steps leave no stale record standing.
import Mathlib.Data.List.Perm.Basic
import Bpt.Build.History

/-!
# Skipped compiles

A compile is skipped when the record of its output stands. The object file is
overwritten before the record is, and the record may never be. `Safe` is the
condition under which that does no harm: an object file that is written without
being recorded must not have a standing record of another command.
-/

namespace Bpt.Build

open Transaction

variable {C : Type} {compiler : Compiler C}

/-! ## Safe steps -/

/-- Nothing stands in the way of recording: all inputs are there, and no
cancellation comes. -/
def canRecord (disk : Disk C) (allNewDeps : List (NewDeps compiler)) (cancelled : Bool) : Prop :=
  cancelled = false ∧ ∀ n ∈ allNewDeps, ∀ p ∈ n.info.inputs, disk.contents p ≠ none

/-- The record of an output does not stand, or is of the given command. -/
def StandsOnlyFor (disk : Disk C) (out : Path) (command : List String) : Prop :=
  ∀ q ∈ disk.standing out, q = quoteCommand command

/-- A compile may return like this: one that fails leaves a new object file only
when no record stands, and one that succeeds without giving dependency information
writes one only when no record of another command stands. -/
def SafeFinish (build : BuildRun compiler) (disk : Disk C) (compile : Compile compiler)
    (seen : Path → Option C) (left : Option (Option C)) (proc : ProcResult) : Prop :=
  let result := compiler.run compile.plan.command seen
  let out := compile.plan.objectFilePath
  (result = none → left.join = none ∨ disk.standing out = none) ∧
  ∀ object ∈ result, object ≠ none →
    newDepsInfo build.depsMode build.toolchainHash compile.plan compile.startTime seen proc ≠ none ∨
      StandsOnlyFor disk out compile.plan.command

/-- A build may end like this. -/
def SafeCommit (build : BuildRun compiler) (disk : Disk C) (cancelled : Bool) : Prop :=
  (∀ n ∈ build.allNewDeps, ∀ p ∈ n.info.inputs, isSyncheck p = false →
    n.started < disk.changed p → n.info.compileStartTime < (disk.files p).mtime) ∧
  (canRecord disk build.allNewDeps cancelled ∨ ∀ n ∈ build.allNewDeps, n.plan.syntaxOnly = false →
    StandsOnlyFor disk n.info.output n.plan.command)

/-- The condition on one step. -/
def Safe (s : State compiler) : Event compiler → Prop
  | .edit path content _ =>
    content = none ∨ (s.disk.standing path = none ∧
      ∀ build ∈ s.build, ∀ n ∈ build.allNewDeps, n.info.output ≠ path)
  | .take _ =>
    ∀ build ∈ s.build, ∀ ticket ∈ build.tickets.head?,
      ticket.plan.objectFilePath ∉ build.outputs
  | .finish index reading left _ proc =>
    ∀ build ∈ s.build, ∀ compile ∈ build.running[index]?,
      SafeFinish build s.disk compile (compile.seen s.disk reading) left proc
  | .commit cancelled => ∀ build ∈ s.build, SafeCommit build s.disk cancelled
  | .beginBuild _ _ _ => True
  | .ticket => True

/-- The states that histories of safe steps reach. -/
def SafelyReachable : State compiler → Prop :=
  Reach.Reachable (fun s => ∃ files, s = .initial files) fun s t =>
    ∃ event, Safe s event ∧ step s event = some t

/-- Each event of a list is safe when it happens. -/
def SafeRun (s : State compiler) : List (Event compiler) → Prop
  | [] => True
  | event :: events => Safe s event ∧ ∀ t ∈ step s event, SafeRun t events

theorem SafelyReachable.run {s t : State compiler} {events : List (Event compiler)}
    (h : SafelyReachable s) (hsafe : SafeRun s events) (hrun : run s events = some t) :
    SafelyReachable t := by
  induction events generalizing s with
  | nil =>
      cases hrun
      exact h
  | cons event events ih =>
      obtain ⟨u, hstep, hrest⟩ := Option.bind_eq_some_iff.mp hrun
      exact ih (h.step ⟨event, hsafe.1, hstep⟩) (hsafe.2 u hstep) hrest

instance (disk : Disk C) (allNewDeps : List (NewDeps compiler)) (cancelled : Bool) :
    Decidable (canRecord disk allNewDeps cancelled) :=
  inferInstanceAs (Decidable (_ ∧ ∀ n ∈ allNewDeps, ∀ p ∈ n.info.inputs, disk.contents p ≠ none))

instance (disk : Disk C) (out : Path) (command : List String) :
    Decidable (StandsOnlyFor disk out command) :=
  inferInstanceAs (Decidable (∀ q ∈ disk.standing out, q = quoteCommand command))

instance (build : BuildRun compiler) (disk : Disk C) (compile : Compile compiler)
    (seen : Path → Option C) (left : Option (Option C)) (proc : ProcResult) :
    Decidable (SafeFinish build disk compile seen left proc) :=
  inferInstanceAs (Decidable (_ ∧ ∀ object ∈ compiler.run compile.plan.command seen,
    object ≠ none → _))

instance (build : BuildRun compiler) (disk : Disk C) (cancelled : Bool) :
    Decidable (SafeCommit build disk cancelled) :=
  inferInstanceAs (Decidable ((∀ n ∈ build.allNewDeps, ∀ p ∈ n.info.inputs, _ → _ → _) ∧
    (_ ∨ ∀ n ∈ build.allNewDeps, _ → _)))

instance (s : State compiler) (event : Event compiler) : Decidable (Safe s event) :=
  match event with
  | .edit path content _ =>
    inferInstanceAs (Decidable (content = none ∨ (s.disk.standing path = none ∧
      ∀ build ∈ s.build, ∀ n ∈ build.allNewDeps, n.info.output ≠ path)))
  | .take _ =>
    inferInstanceAs (Decidable (∀ build ∈ s.build, ∀ ticket ∈ build.tickets.head?,
      ticket.plan.objectFilePath ∉ build.outputs))
  | .finish index reading left _ proc =>
    inferInstanceAs (Decidable (∀ build ∈ s.build, ∀ compile ∈ build.running[index]?,
      SafeFinish build s.disk compile (compile.seen s.disk reading) left proc))
  | .commit cancelled =>
    inferInstanceAs (Decidable (∀ build ∈ s.build, SafeCommit build s.disk cancelled))
  | .beginBuild _ _ _ => isTrue trivial
  | .ticket => isTrue trivial

def decideSafeRun (s : State compiler) : (events : List (Event compiler)) →
    Decidable (SafeRun s events)
  | [] => isTrue trivial
  | event :: events =>
    have := fun t : State compiler => decideSafeRun t events
    inferInstanceAs (Decidable (Safe s event ∧ ∀ t ∈ step s event, SafeRun t events))

instance (s : State compiler) (events : List (Event compiler)) : Decidable (SafeRun s events) :=
  decideSafeRun s events

/-! ## Changing files -/

/-- What changing a file does. -/
structure Put (disk disk' : Disk C) (path : Path) (content : Option C) : Prop where
  db : disk'.db = disk.db
  recordedStart : disk'.recordedStart = disk.recordedStart
  now : disk'.now = disk.now + 1
  file : ∀ p, p ≠ path → disk'.files p = disk.files p
  changed : ∀ p, p ≠ path → disk'.changed p = disk.changed p
  changed_path : disk'.changed path = disk.now + 1
  contents_path : disk'.contents path = content
  mtime_le : (disk.files path).mtime ≤ (disk'.files path).mtime
  mtime_lt : content ≠ none → (disk.files path).mtime < (disk'.files path).mtime

theorem put_eq_some {disk disk' : Disk C} {path : Path} {content : Option C} {mtime : Int}
    (h : disk.put path content mtime = some disk') : Put disk disk' path content := by
  unfold Disk.put at h
  split at h
  next => cases h
  next hnewer =>
    cases h
    refine ⟨rfl, rfl, rfl, fun p hp => Function.update_of_ne hp _ _,
      fun p hp => Function.update_of_ne hp _ _, Function.update_self .., ?_, ?_, ?_⟩
    · simp [Disk.contents]
    · dsimp only
      rw [Function.update_self]
      cases content with
      | none => exact le_refl _
      | some c => simpa using le_of_lt (by simpa using hnewer)
    · intro hne
      dsimp only
      rw [Function.update_self]
      cases content with
      | none => exact absurd rfl hne
      | some c => simpa using hnewer

namespace Disk

/-- The recorded mtimes are not ahead of the files, and behind those that have
changed since the recorded compile started. -/
structure Inv (disk : Disk C) : Prop where
  valid : disk.db.Valid
  changed_le : ∀ p, disk.changed p ≤ disk.now
  recorded_le : ∀ out, disk.recordedStart out ≤ disk.now
  dep_le : ∀ out p m, disk.db.Dep out p m → m ≤ (disk.files p).mtime
  dep_changed : ∀ out p m, disk.db.Dep out p m → isSyncheck p = false →
    disk.recordedStart out < disk.changed p → disk.contents p = none ∨ m < (disk.files p).mtime

def Stands (disk : Disk C) (out : Path) : Prop :=
  ∃ command, RecordStands disk.files disk.db out command

variable {disk disk' : Disk C} {path out : Path} {content : Option C}

theorem Inv.standing_eq_none (h : disk.Inv) : disk.standing out = none ↔ ¬ disk.Stands out := by
  unfold Stands standing
  rw [Option.eq_none_iff_forall_not_mem]
  simp only [Option.mem_def, standingCommand_eq_some h.valid, not_exists]

theorem lastWriteTime_eq_some {p : Path} {m : Int} :
    disk.files.lastWriteTime p = some m ↔ disk.contents p ≠ none ∧ (disk.files p).mtime = m := by
  unfold Files.lastWriteTime Files.fileExists contents
  cases (disk.files p).content <;> simp

/-- The inputs of a record that stands have not changed since its compile started. -/
theorem Inv.changed_le_recorded (h : disk.Inv) (hstands : disk.Stands out) {p : Path} {m : Int}
    (hdep : disk.db.Dep out p m) (hp : isSyncheck p = false) :
    disk.changed p ≤ disk.recordedStart out := by
  obtain ⟨_, hcommand, hdepends, hcurrent⟩ := hstands
  obtain ⟨hthere, htime⟩ := lastWriteTime_eq_some.mp (hcurrent p m hdep hp)
  by_contra hlt
  rcases h.dep_changed out p m hdep hp (not_le.mp hlt) with hnone | hlt
  · exact hthere hnone
  · omega

theorem Inv.put (h : disk.Inv) (hput : Put disk disk' path content) : disk'.Inv where
  valid := hput.db ▸ h.valid
  changed_le p := by
    have := h.changed_le p
    by_cases hp : p = path
    · rw [hp, hput.changed_path, hput.now]
    · rw [hput.changed p hp, hput.now]
      omega
  recorded_le out := by
    have := h.recorded_le out
    rw [hput.recordedStart, hput.now]
    omega
  dep_le out p m hdep := by
    have hle := h.dep_le out p m (hput.db ▸ hdep)
    by_cases hp : p = path
    · subst hp
      exact le_trans hle hput.mtime_le
    · rwa [hput.file p hp]
  dep_changed out p m hdep hsync hlt := by
    rw [hput.db] at hdep
    by_cases hp : p = path
    · subst hp
      by_cases hcontent : content = none
      · exact .inl (hcontent ▸ hput.contents_path)
      · exact .inr (lt_of_le_of_lt (h.dep_le out p m hdep) (hput.mtime_lt hcontent))
    · rw [hput.recordedStart, hput.changed p hp] at hlt
      rw [contents, hput.file p hp]
      exact h.dep_changed out p m hdep hsync hlt

/-- A record that stands after a file has changed stood before. -/
theorem Inv.recordStands_of_put (h : disk.Inv) (hput : Put disk disk' path content) {q : String}
    (hstands : RecordStands disk'.files disk'.db out q) :
    RecordStands disk.files disk.db out q := by
  obtain ⟨hcommand, hdepends, hcurrent⟩ := hstands
  rw [hput.db] at hcommand hdepends hcurrent
  refine ⟨hcommand, hdepends, fun p m hdep hsync => ?_⟩
  have htime := hcurrent p m hdep hsync
  by_cases hp : p = path
  · subst hp
    obtain ⟨hthere, htime⟩ := lastWriteTime_eq_some.mp htime
    have hle := h.dep_le out p m hdep
    have hlt := hput.mtime_lt (hput.contents_path ▸ hthere)
    omega
  · unfold Files.lastWriteTime Files.fileExists at htime ⊢
    rwa [hput.file p hp] at htime

theorem Inv.stands_of_put (h : disk.Inv) (hput : Put disk disk' path content)
    (hstands : disk'.Stands out) : disk.Stands out :=
  hstands.imp fun _ => h.recordStands_of_put hput

end Disk

/-! ## What is known of an object file -/

/-- A command has run since a count of changes, when the compiler saw the files
that have not changed again as they are. -/
structure Ran (compiler : Compiler C) (disk : Disk C) (started : Nat) (command : List String)
    (seen : Path → Option C) (object : Option C) : Prop where
  run : compiler.run command seen = some object
  seen : ∀ p, disk.changed p ≤ started → seen p = disk.contents p

/-- The object file is gone or is what a run has written, if it wrote one. -/
def Holds (disk : Disk C) (out : Path) (object : Option C) : Prop :=
  ∀ o, object = some o → disk.contents out = none ∨ disk.contents out = some o

/-- Where the record of an output comes from. While it stands, the object file is
what its command has written, unless the output is exempt. -/
def RecordInv (compiler : Compiler C) (disk : Disk C) (exempt : Path → Prop) (out : Path) : Prop :=
  ∀ row, disk.db.Compiled out row → ∃ command seen object, command ≠ [] ∧
    row.command = quoteCommand command ∧
    Ran compiler disk (disk.recordedStart out) command seen object ∧
    (∀ p ∈ compiler.reads command seen, isSyncheck p = false → ∃ m, disk.db.Dep out p m) ∧
    (¬ exempt out → disk.Stands out → Holds disk out object)

/-- What is known of dependency information that waits to be recorded. -/
structure NewDepsInv (disk : Disk C) (n : NewDeps compiler) : Prop where
  output : n.info.output = n.plan.objectFilePath
  command : n.info.command.quotedCommand = quoteCommand n.plan.command
  started_le : n.started ≤ disk.now
  recorded_le : disk.recordedStart n.info.output ≤ n.started
  ran : ∃ seen object, Ran compiler disk n.started n.plan.command seen object ∧
    (∀ p ∈ compiler.reads n.plan.command seen, p ∈ n.info.inputs) ∧
    Holds disk n.info.output object

section

variable {disk disk' : Disk C} {path out : Path} {content : Option C} {started : Nat}
  {command : List String} {seen seen' : Path → Option C} {object object' : Option C}
  {exempt exempt' : Path → Prop}

theorem Ran.put (h : Ran compiler disk started command seen object) (hstarted : started ≤ disk.now)
    (hput : Put disk disk' path content) : Ran compiler disk' started command seen object where
  run := h.run
  seen p hp := by
    have hne : p ≠ path := by
      rintro rfl
      rw [hput.changed_path] at hp
      omega
    rw [hput.changed p hne] at hp
    rw [h.seen p hp, Disk.contents, Disk.contents, hput.file p hne]

theorem Holds.put (h : Holds disk out object) (hput : Put disk disk' path content)
    (hpath : out = path → content = none) : Holds disk' out object := by
  intro o ho
  by_cases hp : out = path
  · subst hp
    exact .inl (hpath rfl ▸ hput.contents_path)
  · have hsame : disk'.contents out = disk.contents out := by
      rw [Disk.contents, Disk.contents, hput.file out hp]
    rw [hsame]
    exact h o ho

theorem RecordInv.mono (h : RecordInv compiler disk exempt out) (hle : exempt out → exempt' out) :
    RecordInv compiler disk exempt' out := by
  intro row hrow
  obtain ⟨command, seen, object, hne, hcommand, hran, hreads, hholds⟩ := h row hrow
  exact ⟨command, seen, object, hne, hcommand, hran, hreads, fun hnot => hholds fun hex => hnot (hle hex)⟩

/-- A new connection reads the same records. -/
theorem RecordInv.reopen (h : RecordInv compiler disk exempt out) :
    RecordInv compiler { disk with db := disk.db.reopen } exempt out := by
  intro row hrow
  obtain ⟨command, seen, object, hne, hcommand, hran, hreads, hholds⟩ := h row hrow
  refine ⟨command, seen, object, hne, hcommand, ⟨hran.run, hran.seen⟩, hreads, fun hex hstands => ?_⟩
  exact hholds hex (hstands.imp fun q hq => ⟨hq.command, hq.depends, hq.current⟩)

/-- A changed file keeps the origin of a record, and its object file when that is
another file, is deleted, or the record does not stand. -/
theorem RecordInv.put (h : RecordInv compiler disk exempt out) (hdisk : disk.Inv)
    (hput : Put disk disk' path content)
    (hpath : out = path → content = none ∨ exempt out ∨ ¬ disk.Stands out) :
    RecordInv compiler disk' exempt out := by
  intro row hrow
  rw [hput.db] at hrow
  obtain ⟨command, seen, object, hne, hcommand, hran, hreads, hholds⟩ := h row hrow
  refine ⟨command, seen, object, hne, hcommand, ?_, hput.db.symm ▸ hreads, fun hex hstands => ?_⟩
  · rw [hput.recordedStart]
    exact hran.put (hdisk.recorded_le out) hput
  · have hstood := hdisk.stands_of_put hput hstands
    refine (hholds hex hstood).put hput fun hp => ?_
    rcases hpath hp with hnone | hexempt | hnot
    · exact hnone
    · exact absurd hexempt hex
    · exact absurd hstood hnot

theorem NewDepsInv.put {n : NewDeps compiler} (h : NewDepsInv disk n)
    (hput : Put disk disk' path content) (hpath : n.info.output = path → content = none) :
    NewDepsInv disk' n where
  output := h.output
  command := h.command
  started_le := by
    have := h.started_le
    rw [hput.now]
    omega
  recorded_le := hput.recordedStart ▸ h.recorded_le
  ran := by
    obtain ⟨seen, object, hran, hreads, hholds⟩ := h.ran
    exact ⟨seen, object, hran.put h.started_le hput, hreads, hholds.put hput hpath⟩

/-- While the record of an output stands, a later run of its command writes what
the recorded run has written. -/
theorem Ran.eq_of_stands (hdisk : disk.Inv) (hstands : disk.Stands out)
    (hold : Ran compiler disk (disk.recordedStart out) command seen object)
    (hreads : ∀ p ∈ compiler.reads command seen, isSyncheck p = false → ∃ m, disk.db.Dep out p m)
    (hnew : Ran compiler disk started command seen' object')
    (hstarted : disk.recordedStart out ≤ started) : object' = object := by
  have hrun := compiler.run_congr command seen seen' fun p hp hsync => by
    obtain ⟨m, hdep⟩ := hreads p hp hsync
    have hle := hdisk.changed_le_recorded hstands hdep hsync
    rw [hnew.seen p (le_trans hle hstarted), hold.seen p hle]
  exact Option.some.inj (hnew.run.symm.trans (hrun.trans hold.run))

/-- The record of an output that a later run of its command has written. -/
theorem RecordInv.of_ran (h : RecordInv compiler disk exempt out) (hdisk : disk.Inv)
    (hne : command ≠ []) (honly : StandsOnlyFor disk out command)
    (hnew : Ran compiler disk started command seen' object')
    (hstarted : disk.recordedStart out ≤ started) (hholds : Holds disk out object') :
    RecordInv compiler disk exempt' out := by
  intro row hrow
  obtain ⟨command', seen, object, hne', hcommand, hran, hreads, _⟩ := h row hrow
  refine ⟨command', seen, object, hne', hcommand, hran, hreads, fun _ hstands => ?_⟩
  obtain ⟨q, hstands'⟩ := hstands
  obtain ⟨row', hrow', hq⟩ := hstands'.command
  have hsame : row' = row := hdisk.valid.compilationFiles.eq_of_key hrow'.1 hrow.1
    (hdisk.valid.id_unique hrow'.2 hrow.2)
  have hquote : quoteCommand command' = quoteCommand command := by
    rw [← hcommand, ← hsame, hq]
    exact honly q ((standingCommand_eq_some hdisk.valid).mpr hstands')
  obtain rfl := quoteCommand_injective hne' hne hquote
  rwa [hran.eq_of_stands hdisk ⟨q, hstands'⟩ hreads hnew hstarted] at hholds

end

/-! ## Steps keep what is known -/

/-- The outputs whose object files are written but not recorded yet. -/
def BuildRun.Written (build : BuildRun compiler) (out : Path) : Prop :=
  ∃ n ∈ build.allNewDeps, n.info.output = out ∧ n.plan.syntaxOnly = false

structure BuildInv (disk : Disk C) (build : BuildRun compiler) : Prop where
  running : ∀ compile ∈ build.running, compile.started ≤ disk.now ∧
    disk.recordedStart compile.plan.objectFilePath ≤ compile.started
  newDeps : ∀ n ∈ build.allNewDeps, NewDepsInv disk n
  outputs : build.outputs.Nodup
  record : ∀ out, RecordInv compiler disk build.Written out

/-- What holds in every state that safe steps reach. -/
structure State.Inv (s : State compiler) : Prop where
  disk : s.disk.Inv
  build : ∀ build, s.build = some build → BuildInv s.disk build
  record : s.build = none → ∀ out, RecordInv compiler s.disk (fun _ => False) out

theorem inv_initial (files : Files C) : (State.initial files : State compiler).Inv where
  disk :=
    { valid := Database.valid_empty
      changed_le := fun _ => le_refl _
      recorded_le := fun _ => le_refl _
      dep_le := fun _ _ _ ⟨_, h, _⟩ => nomatch h
      dep_changed := fun _ _ _ ⟨_, h, _⟩ => nomatch h }
  build _ h := nomatch h
  record _ _ _ h := nomatch h.1

section

variable {disk disk' : Disk C} {path : Path} {content : Option C} {build build' : BuildRun compiler}

/-- A changed file keeps what is known of a build, when it is not an object file
that waits to be recorded, and its record does not stand. -/
theorem BuildInv.put (h : BuildInv disk build) (hdisk : disk.Inv)
    (hput : Put disk disk' path content)
    (hpath : content = none ∨ (¬ disk.Stands path ∧ ∀ n ∈ build.allNewDeps, n.info.output ≠ path)) :
    BuildInv disk' build where
  running compile hcompile := by
    obtain ⟨hnow, hrecorded⟩ := h.running compile hcompile
    rw [hput.now, hput.recordedStart]
    exact ⟨by omega, hrecorded⟩
  newDeps n hn := (h.newDeps n hn).put hput fun hp =>
    hpath.resolve_right fun hright => hright.2 n hn hp
  outputs := h.outputs
  record out := (h.record out).put hdisk hput fun hp => hp ▸ hpath.imp_right fun hright =>
    .inr hright.1

variable {index : Nat} {compile : Compile compiler} {seen : Path → Option C} {o : C}

theorem nodup_outputs_returned (h : build.outputs.Nodup)
    (hcompile : build.running[index]? = some compile) (failed : Bool)
    (info : Option FileDepsInfo) (hinfo : ∀ i ∈ info, i.output = compile.plan.objectFilePath) :
    (build.returned index (info.map (⟨compile.plan, compile.started, ·⟩)).toList failed).outputs.Nodup := by
  obtain ⟨hindex, hget⟩ := List.getElem?_eq_some_iff.mp hcompile
  have hperm : List.Perm build.outputs ((build.running.eraseIdx index).map (·.plan.objectFilePath) ++
      (build.allNewDeps.map (·.info.output) ++ [compile.plan.objectFilePath])) := by
    have herase := (List.getElem_cons_eraseIdx_perm hindex).symm.map (·.plan.objectFilePath)
    rw [hget, List.map_cons] at herase
    refine (herase.append_right _).trans ?_
    rw [← List.append_assoc]
    exact (List.perm_append_singleton _ _).symm
  have hall := hperm.nodup_iff.mp h
  unfold BuildRun.outputs BuildRun.returned
  cases info with
  | none =>
      refine hall.sublist (List.Sublist.append_left ?_ _)
      simp
  | some i =>
      simpa [hinfo i rfl] using hall

/-- The outputs that wait to be recorded are not the output of a running compile. -/
theorem output_ne_of_running (h : build.outputs.Nodup)
    (hcompile : build.running[index]? = some compile) {n : NewDeps compiler}
    (hn : n ∈ build.allNewDeps) : n.info.output ≠ compile.plan.objectFilePath := by
  intro heq
  have hrunning : compile.plan.objectFilePath ∈ build.running.map (·.plan.objectFilePath) :=
    List.mem_map_of_mem (List.mem_of_getElem? hcompile)
  exact List.disjoint_of_nodup_append h hrunning (heq ▸ List.mem_map_of_mem hn)

theorem BuildInv.running_returned (h : BuildInv disk build) (news : List (NewDeps compiler))
    (failed : Bool) : ∀ c ∈ (build.returned index news failed).running, c.started ≤ disk.now ∧
      disk.recordedStart c.plan.objectFilePath ≤ c.started := fun c hc =>
  h.running c (List.mem_of_mem_eraseIdx hc)

/-- A compile that fails. -/
theorem BuildInv.fails (h : BuildInv disk build) (hcompile : build.running[index]? = some compile)
    (failed : Bool) : BuildInv disk (build.returned index [] failed) where
  running := h.running_returned [] failed
  newDeps n hn := h.newDeps n (by simpa [BuildRun.returned] using hn)
  outputs := nodup_outputs_returned h.outputs hcompile failed none (by simp)
  record out := (h.record out).mono fun ⟨n, hn, hout⟩ =>
    ⟨n, List.mem_append_left _ hn, hout⟩

theorem newDepsInv_of_ran {mode : FileDepsMode} {toolchainHash : Int} {proc : ProcResult}
    {info : FileDepsInfo} {object : Option C}
    (hinfo : newDepsInfo mode toolchainHash compile.plan compile.startTime seen proc = some info)
    (hran : Ran compiler disk compile.started compile.plan.command seen object)
    (hholds : Holds disk compile.plan.objectFilePath object)
    (hstarted : compile.started ≤ disk.now ∧
      disk.recordedStart compile.plan.objectFilePath ≤ compile.started) :
    NewDepsInv disk ⟨compile.plan, compile.started, info⟩ := by
  obtain ⟨hout, hcommand, _, hreads⟩ := newDepsInfo_eq_some hinfo
  exact {
    output := hout
    command := hcommand
    started_le := hstarted.1
    recorded_le := hout ▸ hstarted.2
    ran := ⟨seen, object, hran, hreads, hout ▸ hholds⟩ }

theorem newDeps_returned (hold : ∀ n ∈ build.allNewDeps, NewDepsInv disk n)
    {info : Option FileDepsInfo} (failed : Bool)
    (hnew : ∀ i ∈ info, NewDepsInv disk ⟨compile.plan, compile.started, i⟩) :
    ∀ n ∈ (build.returned index
      (info.map (⟨compile.plan, compile.started, ·⟩)).toList failed).allNewDeps,
      NewDepsInv disk n := by
  intro n hn
  rcases List.mem_append.mp hn with hn | hn
  · exact hold n hn
  · obtain ⟨i, hi, rfl⟩ := Option.map_eq_some_iff.mp (Option.mem_toList.mp hn)
    exact hnew i hi

/-- The record of an object file that a compile has written: the file is recorded later,
or is what the standing record says. -/
theorem BuildInv.record_written (h : BuildInv disk build) (hdisk : disk.Inv)
    (hput : Put disk disk' compile.plan.objectFilePath (some o)) {proc : ProcResult}
    (hrun : compiler.run compile.plan.command seen = some (some o))
    (hran : Ran compiler disk' compile.started compile.plan.command seen (some o))
    (hstarted : disk'.recordedStart compile.plan.objectFilePath ≤ compile.started)
    (honly : newDepsInfo build.depsMode build.toolchainHash compile.plan compile.startTime seen
      proc = none → StandsOnlyFor disk compile.plan.objectFilePath compile.plan.command) :
    RecordInv compiler disk' (build.returned index ((newDepsInfo build.depsMode
      build.toolchainHash compile.plan compile.startTime seen proc).map
        (⟨compile.plan, compile.started, ·⟩)).toList build.failed).Written
      compile.plan.objectFilePath := by
  cases hinfo : newDepsInfo build.depsMode build.toolchainHash compile.plan compile.startTime seen
      proc with
  | some info =>
      have hobj : compile.plan.syntaxOnly = false := by
        simpa using compile.plan.syntaxOnly_iff seen (some o) hrun
      have hnew : (build.returned index [⟨compile.plan, compile.started, info⟩]
          build.failed).Written compile.plan.objectFilePath :=
        ⟨_, List.mem_append_right _ List.mem_cons_self, (newDepsInfo_eq_some hinfo).1, hobj⟩
      exact ((h.record _).mono fun _ => hnew).put hdisk hput fun _ => .inr (.inl hnew)
  | none =>
      have hexempt : RecordInv compiler disk (fun _ => True) compile.plan.objectFilePath :=
        (h.record _).mono fun _ => trivial
      have hany := hexempt.put hdisk hput fun _ => .inr (.inl trivial)
      have hholds : Holds disk' compile.plan.objectFilePath (some o) := fun o' ho' =>
        .inr (ho' ▸ hput.contents_path)
      refine hany.of_ran (hdisk.put hput) compile.plan.command_ne (fun q hq => ?_) hran hstarted
        hholds
      -- what stands after the file is written stood before
      have hstands := (standingCommand_eq_some (hdisk.put hput).valid).mp hq
      refine honly hinfo q ?_
      exact (standingCommand_eq_some hdisk.valid).mpr (hdisk.recordStands_of_put hput hstands)

/-- A compile that returns keeps what is known, when it returns safely. -/
theorem BuildInv.finish {s' : State compiler} (h : BuildInv disk build) (hdisk : disk.Inv)
    (hcompile : build.running[index]? = some compile)
    (hseen : ∀ p, disk.changed p ≤ compile.started → seen p = disk.contents p)
    {left : Option (Option C)} {mtime : Int} {proc : ProcResult}
    (hsafe : SafeFinish build disk compile seen left proc)
    (hfinish : build.finish disk index compile seen left mtime proc = some s') :
    s'.disk.Inv ∧ ∃ build', s'.build = some build' ∧ BuildInv s'.disk build' := by
  have hstarted := h.running compile (List.mem_of_getElem? hcompile)
  have hothers := fun n => output_ne_of_running h.outputs hcompile (n := n)
  unfold BuildRun.finish at hfinish
  unfold SafeFinish at hsafe
  dsimp only at hfinish hsafe
  cases hrun : compiler.run compile.plan.command seen with
  | none =>
      rw [hrun] at hfinish hsafe
      obtain ⟨disk', hwrite, rfl⟩ := Option.map_eq_some_iff.mp hfinish
      have hfails := h.fails hcompile true
      cases left with
      | none =>
          cases hwrite
          exact ⟨hdisk, _, rfl, hfails⟩
      | some content =>
          have hput := put_eq_some hwrite
          refine ⟨hdisk.put hput, _, rfl, hfails.put hdisk hput ?_⟩
          rcases hsafe.1 rfl with hnone | hstanding
          · exact .inl hnone
          · refine .inr ⟨hdisk.standing_eq_none.mp hstanding, fun n hn => hothers n ?_⟩
            simpa [BuildRun.returned] using hn
  | some object =>
      rw [hrun] at hfinish hsafe
      obtain ⟨disk', hwrite, rfl⟩ := Option.map_eq_some_iff.mp hfinish
      have hran : Ran compiler disk compile.started compile.plan.command seen object := ⟨hrun, hseen⟩
      have hwritten : ∀ out, build.Written out → ∀ news failed,
          (build.returned index news failed).Written out :=
        fun out ⟨n, hn, hout⟩ news failed => ⟨n, List.mem_append_left _ hn, hout⟩
      have hnodup := nodup_outputs_returned h.outputs hcompile build.failed
        (newDepsInfo build.depsMode build.toolchainHash compile.plan compile.startTime seen proc)
        fun i hi => (newDepsInfo_eq_some hi).1
      cases object with
      | none =>
          cases hwrite
          refine ⟨hdisk, _, rfl, ?_⟩
          exact {
            running := h.running_returned _ _
            newDeps := newDeps_returned h.newDeps _ fun i hi =>
              newDepsInv_of_ran hi hran (fun o ho => nomatch ho) hstarted
            outputs := hnodup
            record := fun out => (h.record out).mono fun hout => hwritten out hout _ _ }
      | some o =>
          have hput := put_eq_some hwrite
          have hran' := hran.put hstarted.1 hput
          have hholds : Holds disk' compile.plan.objectFilePath (some o) := fun o' ho' =>
            .inr (ho' ▸ hput.contents_path)
          have hstarted' : compile.started ≤ disk'.now ∧
              disk'.recordedStart compile.plan.objectFilePath ≤ compile.started := by
            rw [hput.now, hput.recordedStart]
            exact ⟨by omega, hstarted.2⟩
          refine ⟨hdisk.put hput, _, rfl, ?_⟩
          refine {
            running := fun c hc => ?_
            newDeps := newDeps_returned (fun n hn => (h.newDeps n hn).put hput fun hp =>
                absurd hp (hothers n hn)) _ fun i hi => newDepsInv_of_ran hi hran' hholds hstarted'
            outputs := hnodup
            record := fun out => ?_ }
          · obtain ⟨hnow, hrecorded⟩ := h.running_returned _ _ c hc
            rw [hput.now, hput.recordedStart]
            exact ⟨by omega, hrecorded⟩
          · by_cases hout : out = compile.plan.objectFilePath
            · subst hout
              refine h.record_written hdisk hput hrun hran' hstarted'.2 fun hinfo => ?_
              exact (hsafe.2 _ rfl (by simp)).resolve_left (not_not.mpr hinfo)
            · exact ((h.record out).mono fun hw => hwritten out hw _ _).put hdisk hput fun hp =>
                absurd hp hout

/-! ## Recording -/

theorem find?_newDeps (hnodup : (build.allNewDeps.map (·.info.output)).Nodup) {n : NewDeps compiler}
    (hn : n ∈ build.allNewDeps) :
    build.allNewDeps.find? (fun n' => n'.info.output = n.info.output) = some n := by
  have hunique : Keyed.Unique (fun n : NewDeps compiler => n.info.output) build.allNewDeps := hnodup
  exact hunique.find?_eq_some.mpr ⟨hn, rfl⟩

theorem recordedStart_new (db : Database) (hnodup : (build.allNewDeps.map (·.info.output)).Nodup)
    {n : NewDeps compiler} (hn : n ∈ build.allNewDeps) :
    (build.recorded disk db).recordedStart n.info.output = n.started := by
  unfold BuildRun.recorded
  dsimp only
  rw [find?_newDeps hnodup hn]

theorem recordedStart_other (db : Database) {out : Path}
    (hout : ∀ n ∈ build.allNewDeps, n.info.output ≠ out) :
    (build.recorded disk db).recordedStart out = disk.recordedStart out := by
  unfold BuildRun.recorded
  dsimp only
  rw [List.find?_eq_none.mpr fun n hn => by simpa using hout n hn]

/-- Recording keeps what is known, when each input that changed while its compile
ran has an mtime after the start. -/
theorem BuildInv.commit_ok {db : Database} {cancelled : Bool} (h : BuildInv disk build)
    (hdisk : disk.Inv)
    (hmtime : ∀ n ∈ build.allNewDeps, ∀ p ∈ n.info.inputs, isSyncheck p = false →
      n.started < disk.changed p → n.info.compileStartTime < (disk.files p).mtime)
    (hexec : exec (recordNewDeps disk.files (build.allNewDeps.map (·.info)) cancelled) disk.db =
      (.ok (), db)) :
    (build.recorded disk db).Inv ∧
      ∀ out, RecordInv compiler (build.recorded disk db) (fun _ => False) out := by
  have hnodup : (build.allNewDeps.map (·.info.output)).Nodup :=
    h.outputs.sublist (List.sublist_append_right _ _)
  have hnodup' : ((build.allNewDeps.map (·.info)).map (·.output)).Nodup := by
    rwa [List.map_map]
  obtain ⟨hvalid, hstored, hsame⟩ := exec_recordNewDeps_eq_ok hdisk.valid hnodup' hexec
  replace hstored : ∀ n ∈ build.allNewDeps, Stored disk.files n.info db := fun n hn =>
    hstored n.info (List.mem_map_of_mem hn)
  have hsplit : ∀ out, (∃ n ∈ build.allNewDeps, n.info.output = out) ∨
      (∀ n ∈ build.allNewDeps, n.info.output ≠ out) ∧ disk.db.SameRecord db out := by
    intro out
    by_cases hout : ∃ n ∈ build.allNewDeps, n.info.output = out
    · exact .inl hout
    · refine .inr ⟨fun n hn heq => hout ⟨n, hn, heq⟩, hsame out fun hmem => hout ?_⟩
      rw [List.map_map] at hmem
      exact List.mem_map.mp hmem
  constructor
  · refine {
      valid := hvalid
      changed_le := hdisk.changed_le
      recorded_le := fun out => ?_
      dep_le := fun out p m hdep => ?_
      dep_changed := fun out p m hdep hsync hlt => ?_ }
    · rcases hsplit out with ⟨n, hn, rfl⟩ | ⟨hout, _⟩
      · rw [recordedStart_new db hnodup hn]
        exact (h.newDeps n hn).started_le
      · rw [recordedStart_other db hout]
        exact hdisk.recorded_le out
    · rcases hsplit out with ⟨n, hn, rfl⟩ | ⟨_, hsame⟩
      · obtain ⟨_, rfl⟩ := ((hstored n hn).dep p m).mp hdep
        exact min_le_left _ _
      · exact hdisk.dep_le out p m ((hsame.dep p m).mp hdep)
    · rcases hsplit out with ⟨n, hn, rfl⟩ | ⟨hout, hsame⟩
      · rw [recordedStart_new db hnodup hn] at hlt
        obtain ⟨hinput, rfl⟩ := ((hstored n hn).dep p m).mp hdep
        exact .inr (lt_of_le_of_lt (min_le_right _ _) (hmtime n hn p hinput hsync hlt))
      · rw [recordedStart_other db hout] at hlt
        exact hdisk.dep_changed out p m ((hsame.dep p m).mp hdep) hsync hlt
  · intro out row hrow
    rcases hsplit out with ⟨n, hn, rfl⟩ | ⟨hout, hsame⟩
    · obtain ⟨seen, object, hran, hreads, hholds⟩ := (h.newDeps n hn).ran
      refine ⟨n.plan.command, seen, object, n.plan.command_ne, ?_, ?_, ?_, fun _ _ => hholds⟩
      · rw [(hstored n hn).command row hrow, (h.newDeps n hn).command]
      · rw [recordedStart_new db hnodup hn]
        exact ⟨hran.run, hran.seen⟩
      · exact fun p hp _ => ⟨_, ((hstored n hn).dep p _).mpr ⟨hreads p hp, rfl⟩⟩
    · obtain ⟨command, seen, object, hne, hcommand, hran, hreads, hholds⟩ :=
        h.record out row ((hsame.compiled row).mp hrow)
      refine ⟨command, seen, object, hne, hcommand, ?_, ?_, fun _ hstands => ?_⟩
      · rw [recordedStart_other db hout]
        exact ⟨hran.run, hran.seen⟩
      · exact fun p hp hsync => (hreads p hp hsync).imp fun m => (hsame.dep p m).mpr
      · refine hholds (fun ⟨n, hn, heq, _⟩ => hout n hn heq) (hstands.imp fun q hq => ?_)
        exact hq.congr hsame.symm

/-- A transaction that is undone keeps what is known, when no object file was
written whose record stands for another command. -/
theorem BuildInv.commit_error (h : BuildInv disk build) (hdisk : disk.Inv)
    (honly : ∀ n ∈ build.allNewDeps, n.plan.syntaxOnly = false →
      StandsOnlyFor disk n.info.output n.plan.command) (out : Path) :
    RecordInv compiler disk (fun _ => False) out := by
  by_cases hwritten : build.Written out
  · obtain ⟨n, hn, rfl, hobj⟩ := hwritten
    have hnew := h.newDeps n hn
    obtain ⟨seen, object, hran, _, hholds⟩ := hnew.ran
    exact (h.record n.info.output).of_ran hdisk n.plan.command_ne (honly n hn hobj) hran
      hnew.recorded_le hholds
  · exact (h.record out).mono fun hw => absurd hw hwritten

/-! ## Whole histories -/

theorem exec_recordNewDeps_of_canRecord {allNewDeps : List (NewDeps compiler)} {cancelled : Bool}
    (hcan : canRecord disk allNewDeps cancelled) (db : Database) :
    ∃ db', exec (recordNewDeps disk.files (allNewDeps.map (·.info)) cancelled) db = (.ok (), db') := by
  obtain ⟨rfl, hthere⟩ := hcan
  refine exec_recordNewDeps_ok (fun info hinfo p hp => ?_) db
  obtain ⟨n, hn, rfl⟩ := List.mem_map.mp hinfo
  exact Option.isSome_iff_ne_none.mpr (hthere n hn p hp)

theorem BuildInv.commit {cancelled : Bool} (h : BuildInv disk build) (hdisk : disk.Inv)
    (hsafe : SafeCommit build disk cancelled) : (build.commit disk cancelled).Inv := by
  unfold BuildRun.commit
  dsimp only
  cases hexec : exec (recordNewDeps disk.files (build.allNewDeps.map (·.info)) cancelled) disk.db with
  | mk result db =>
      cases result with
      | ok _ =>
          obtain ⟨hinv, hrecord⟩ := h.commit_ok hdisk hsafe.1 hexec
          exact ⟨hinv, fun _ hb => (nomatch hb), fun _ => hrecord⟩
      | error err =>
          -- the transaction has left the database as it was
          obtain rfl := exec_transaction_error hexec
          refine ⟨hdisk, fun _ hb => (nomatch hb), fun _ => h.commit_error hdisk ?_⟩
          refine hsafe.2.resolve_left fun hcan => ?_
          obtain ⟨db', hok⟩ := exec_recordNewDeps_of_canRecord hcan disk.db
          rw [hexec] at hok
          cases hok

end

/-- Tickets, made or taken, change no file and no record. -/
theorem BuildInv.of_running {disk : Disk C} {build build' : BuildRun compiler}
    (h : BuildInv disk build) (hdeps : build'.allNewDeps = build.allNewDeps)
    (hrunning : ∀ c ∈ build'.running, c.started ≤ disk.now ∧
      disk.recordedStart c.plan.objectFilePath ≤ c.started)
    (houtputs : build'.outputs.Nodup) : BuildInv disk build' where
  running := hrunning
  newDeps n hn := h.newDeps n (hdeps ▸ hn)
  outputs := houtputs
  record out := (h.record out).mono fun ⟨n, hn, hout⟩ => ⟨n, hdeps.symm ▸ hn, hout⟩

/-- A thread that takes a ticket starts a compile of an output that no other compile has. -/
theorem BuildInv.start {disk : Disk C} {build build' : BuildRun compiler}
    (h : BuildInv disk build) (hdisk : disk.Inv) {compile : Compile compiler}
    (hdeps : build'.allNewDeps = build.allNewDeps)
    (hrunning : build'.running = build.running ++ [compile]) (hnow : compile.started = disk.now)
    (hout : compile.plan.objectFilePath ∉ build.outputs) : BuildInv disk build' := by
  refine h.of_running hdeps (fun c hc => ?_) ?_
  · rw [hrunning] at hc
    rcases List.mem_append.mp hc with hc | hc
    · exact h.running c hc
    · rw [List.mem_singleton.mp hc, hnow]
      exact ⟨le_refl _, hdisk.recorded_le _⟩
  · have hperm : List.Perm (build.running.map (·.plan.objectFilePath) ++
        compile.plan.objectFilePath :: build.allNewDeps.map (·.info.output))
        (compile.plan.objectFilePath :: build.outputs) := List.perm_middle
    have hnodup := hperm.nodup_iff.mpr (List.nodup_cons.mpr ⟨hout, h.outputs⟩)
    simpa [BuildRun.outputs, hdeps, hrunning] using hnodup

/-- While a build runs, what is known is what is known of the build. -/
theorem BuildInv.state {disk : Disk C} {build : BuildRun compiler} (h : BuildInv disk build)
    (hdisk : disk.Inv) : State.Inv ⟨disk, some build⟩ where
  disk := hdisk
  build build' hbuild' := by
    cases hbuild'
    exact h
  record hnone := nomatch hnone

theorem State.Inv.step {s t : State compiler} {event : Event compiler} (h : s.Inv)
    (hsafe : Safe s event) (hstep : step s event = some t) : t.Inv := by
  obtain ⟨disk, running⟩ := s
  have hdisk : disk.Inv := h.disk
  cases event with
  | edit path content mtime =>
      obtain ⟨disk', hput, rfl⟩ := Option.map_eq_some_iff.mp hstep
      replace hput := put_eq_some hput
      have hpath := hsafe.imp_right fun hright => And.imp_left hdisk.standing_eq_none.mp hright
      refine ⟨hdisk.put hput, fun build hbuild => ?_, fun hnone out => ?_⟩
      · refine (h.build build hbuild).put hdisk hput ?_
        exact hpath.imp_right fun hright => ⟨hright.1, fun n hn => hright.2 build hbuild n hn⟩
      · exact (h.record hnone out).put hdisk hput fun hp => hp ▸ hpath.imp_right fun hright =>
          .inr hright.1
  | beginBuild depsMode toolchainHash plans =>
      cases running with
      | some build => cases hstep
      | none =>
          cases hstep
          have hbuild : BuildInv { disk with db := disk.db.reopen }
              { depsMode, toolchainHash, plans } :=
            { running := fun c hc => (nomatch hc)
              newDeps := fun n hn => (nomatch hn)
              outputs := List.nodup_nil
              record := fun out => (h.record rfl out).reopen.mono fun hfalse => hfalse.elim }
          exact hbuild.state { hdisk with valid := hdisk.valid.reopen }
  | ticket =>
      cases running with
      | none => cases hstep
      | some build =>
          have hbuild := h.build build rfl
          cases hplans : build.plans with
          | nil => simp [Build.step, hplans] at hstep
          | cons plan plans =>
              simp only [Build.step, hplans, Option.some.injEq] at hstep
              subst hstep
              apply BuildInv.state _ hdisk
              exact hbuild.of_running rfl hbuild.running hbuild.outputs
  | take startTime =>
      cases running with
      | none => cases hstep
      | some build =>
          have hbuild := h.build build rfl
          simp only [Build.step] at hstep
          split at hstep
          next ticket tickets hplans htickets =>
            cases hstep
            have hout : ticket.plan.objectFilePath ∉ build.outputs := hsafe build rfl ticket (by
              rw [htickets]
              rfl)
            apply BuildInv.state _ hdisk
            split
            next =>
              have hnow : (⟨ticket.plan, startTime, disk.now⟩ : Compile compiler).started =
                disk.now := rfl
              exact hbuild.start hdisk rfl rfl hnow hout
            next => exact hbuild.of_running rfl hbuild.running hbuild.outputs
          next => cases hstep
  | finish index reading left mtime proc =>
      cases running with
      | none => cases hstep
      | some build =>
          have hbuild := h.build build rfl
          cases hcompile : build.running[index]? with
          | none => simp [Build.step, hcompile] at hstep
          | some compile =>
              simp only [Build.step, hcompile] at hstep
              have hseen : ∀ p, disk.changed p ≤ compile.started →
                  compile.seen disk reading p = disk.contents p := fun p hp =>
                if_neg (not_lt.mpr hp)
              obtain ⟨hdisk', build', hsome, hbuild'⟩ := hbuild.finish hdisk hcompile hseen
                (hsafe build rfl compile hcompile) hstep
              obtain ⟨disk', running'⟩ := t
              cases hsome
              exact hbuild'.state hdisk'
  | commit cancelled =>
      cases running with
      | none => cases hstep
      | some build =>
          simp only [Build.step] at hstep
          split at hstep
          next =>
            cases hstep
            exact (h.build build rfl).commit hdisk (hsafe build rfl)
          next => cases hstep

theorem SafelyReachable.inv {s : State compiler} (h : SafelyReachable s) : s.Inv := by
  refine Reach.Reachable.invariant ?_ ?_ h
  · rintro _ ⟨files, rfl⟩
    exact inv_initial files
  · rintro s t hs ⟨event, hsafe, hstep⟩
    exact hs.step hsafe hstep

/-- No compile of the running build has been started: tickets are made only then. -/
def State.Idle (s : State compiler) : Prop :=
  ∀ build ∈ s.build, build.running = [] ∧ build.allNewDeps = []

/-- Skipping a compile is sound: in every history of safe steps, when the ticket
of a plan says that it need not be compiled, its object file is there and is what
its command would write now, and no recorded input has changed since the compile
that read it started. -/
theorem mkCompileTicket_skip_sound {s : State compiler} (hreach : SafelyReachable s)
    (hidle : s.Idle) (plan : CompileFilePlan compiler) (hobj : plan.syntaxOnly = false)
    (hskip : (mkCompileTicket plan s.disk.files s.disk.db).needsRecompile = false) :
    (∃ object, s.disk.contents plan.objectFilePath = some object ∧
      compiler.run plan.command s.disk.contents = some (some object)) ∧
    ∀ p m, s.disk.db.Dep plan.objectFilePath p m → isSyncheck p = false →
      s.disk.changed p ≤ s.disk.recordedStart plan.objectFilePath := by
  have hinv := hreach.inv
  obtain ⟨hstanding, hthere⟩ := standingCommand_of_skip hskip
  have hrecord : RecordInv compiler s.disk (fun _ => False) plan.objectFilePath := by
    cases hbuild : s.build with
    | none => exact hinv.record hbuild _
    | some build =>
        refine ((hinv.build build hbuild).record _).mono fun ⟨n, hn, _⟩ => ?_
        rw [(hidle build hbuild).2] at hn
        cases hn
  have hrow := (standingCommand_eq_some hinv.disk.valid).mp hstanding
  have hstands : s.disk.Stands plan.objectFilePath := ⟨_, hrow⟩
  obtain ⟨row, hcompiled, hquote⟩ := hrow.command
  obtain ⟨command, seen, object, hne, hcommand, hran, hreads, hholds⟩ := hrecord row hcompiled
  obtain rfl : plan.command = command :=
    quoteCommand_injective plan.command_ne hne (hquote.symm.trans hcommand)
  refine ⟨?_, fun p m hdep hsync => hinv.disk.changed_le_recorded hstands hdep hsync⟩
  have hsome : object ≠ none := fun hnone => by
    simpa [hobj] using (plan.syntaxOnly_iff seen object hran.run).mp hnone
  obtain ⟨o, rfl⟩ := Option.ne_none_iff_exists'.mp hsome
  have hobject : s.disk.contents plan.objectFilePath = some o := by
    refine (hholds (fun hfalse => hfalse) hstands o rfl).resolve_left ?_
    exact Option.isSome_iff_ne_none.mp (hthere hobj)
  refine ⟨o, hobject, ?_⟩
  rw [← hran.run]
  exact compiler.run_congr plan.command seen s.disk.contents fun p hp hsync => by
    obtain ⟨m, hdep⟩ := hreads p hp hsync
    exact (hran.seen p (hinv.disk.changed_le_recorded hstands hdep hsync)).symm

/-! ## Changed commands -/

/-- A command line stands for one command only, so a compile is skipped only when
its command is the one whose command line is recorded. -/
theorem quotedCommand_determines (recorded : List String) (hne : recorded ≠ []) :
    (∀ command, command ≠ [] → quoteCommand command = quoteCommand recorded →
      command = recorded) ∧
    ∀ (plan : CompileFilePlan compiler) (files : Files C) (db : Database) (cmd : CompletedCompilation),
      db.commandOf plan.objectFilePath = some cmd → cmd.quotedCommand = quoteCommand recorded →
      (mkCompileTicket plan files db).needsRecompile = false → plan.command = recorded := by
  refine ⟨fun command hcommand heq => quoteCommand_injective hcommand hne heq, ?_⟩
  intro plan files db cmd hcmd hquoted hskip
  have hstanding := (standingCommand_of_skip hskip).1
  have hrecord : cmd.quotedCommand = quoteCommand plan.command := by
    unfold standingCommand at hstanding
    rw [hcmd] at hstanding
    cases hinputs : db.inputsOf plan.objectFilePath with
    | none => simp [hinputs] at hstanding
    | some inputs =>
        simp only [hinputs] at hstanding
        split at hstanding
        next => cases hstanding
        next => exact Option.some.inj hstanding
  exact quoteCommand_injective plan.command_ne hne (hrecord.symm.trans hquoted)

/-! ### A compiler of one source file -/

def sourceFile : Path := Path.ofString "/a.c"

/-- Writes the content of the source file and the number of its arguments. -/
def countArguments : Compiler Nat where
  run command contents := (contents sourceFile).map fun n => some (n + command.length)
  reads _ _ := [sourceFile]
  run_congr command contents contents' h := by
    rw [h sourceFile (by simp) (by decide)]

def planOf (command : List String) (hne : command ≠ []) : CompileFilePlan countArguments where
  sourcePath := sourceFile
  command := command
  objectFilePath := Path.ofString "/a.o"
  syntaxOnly := false
  command_ne := hne
  syntaxOnly_iff contents object hrun := by
    obtain ⟨_, _, rfl⟩ := Option.map_eq_some_iff.mp hrun
    simp

def plainPlan : CompileFilePlan countArguments := planOf ["cc", "-MD"] (by simp)

/-- The same file compiled by a toolchain whose deps mode gives no information. -/
def otherPlan : CompileFilePlan countArguments := planOf ["cc"] (by simp)

/-- Compile a plan in a build of its own. -/
def buildEvents (mode : FileDepsMode) (plan : CompileFilePlan countArguments) (time : Int) :
    List (Event countArguments) :=
  [.beginBuild mode 0 [plan], .ticket, .take time,
    .finish 0 (fun _ => none) none (time + 1) ⟨"", 600, true⟩, .commit false]

/-- Write the source file and compile it once. -/
def compiledOnce : List (Event countArguments) :=
  .edit sourceFile (some 5) 1 :: buildEvents .gnu plainPlan 2

/-- Then compile it with another command, without dependency information. -/
def compiledTwice : List (Event countArguments) := compiledOnce ++ buildEvents .none otherPlan 4

def noFiles : Files Nat := fun _ => ⟨none, 0⟩

/-- What holds after some events. -/
def After (events : List (Event countArguments)) (P : State countArguments → Prop) : Prop :=
  ∃ s, run (.initial noFiles) events = some s ∧ P s

instance (events : List (Event countArguments)) (P : State countArguments → Prop)
    [DecidablePred P] : Decidable (After events P) :=
  match h : run (.initial noFiles) events with
  | none => isFalse fun ⟨s, hs, _⟩ => by rw [h] at hs; cases hs
  | some s =>
    if hP : P s then isTrue ⟨s, h, hP⟩
    else isFalse fun ⟨t, ht, hPt⟩ => by
      rw [h] at ht
      cases ht
      exact hP hPt

instance (s : State compiler) : Decidable s.Idle :=
  inferInstanceAs (Decidable (∀ build ∈ s.build, build.running = [] ∧ build.allNewDeps = []))

theorem mkCompileTicket_skip_sound_once : ∃ s : State countArguments, SafelyReachable s ∧
    ((∃ object, s.disk.contents plainPlan.objectFilePath = some object ∧
      countArguments.run plainPlan.command s.disk.contents = some (some object)) ∧
    ∀ p m, s.disk.db.Dep plainPlan.objectFilePath p m → isSyncheck p = false →
      s.disk.changed p ≤ s.disk.recordedStart plainPlan.objectFilePath) := by
  have hsafe : SafeRun (.initial noFiles) compiledOnce := by decide +kernel
  obtain ⟨s, hrun, hidle, hskip⟩ : After compiledOnce fun s => s.Idle ∧
      (mkCompileTicket plainPlan s.disk.files s.disk.db).needsRecompile = false := by
    decide +kernel
  have hreach : SafelyReachable s := SafelyReachable.run (.init ⟨noFiles, rfl⟩) hsafe hrun
  exact ⟨s, hreach, mkCompileTicket_skip_sound hreach hidle plainPlan rfl hskip⟩

theorem quotedCommand_determines_once : ∃ s : State countArguments, ∃ cmd,
    s.disk.db.commandOf plainPlan.objectFilePath = some cmd ∧
    (mkCompileTicket plainPlan s.disk.files s.disk.db).needsRecompile = false ∧
    plainPlan.command = ["cc", "-MD"] := by
  obtain ⟨s, -, hrecord, hskip⟩ : After compiledOnce fun s =>
      (s.disk.db.commandOf plainPlan.objectFilePath).map (·.quotedCommand) =
        some (quoteCommand ["cc", "-MD"]) ∧
      (mkCompileTicket plainPlan s.disk.files s.disk.db).needsRecompile = false := by
    decide +kernel
  obtain ⟨cmd, hcmd, hquoted⟩ := Option.map_eq_some_iff.mp hrecord
  have hdetermines := @quotedCommand_determines _ countArguments ["cc", "-MD"] (by simp)
  exact ⟨s, cmd, hcmd, hskip, hdetermines.2 plainPlan _ _ cmd hcmd hquoted hskip⟩

/-- The object file of the other command is taken for that of the first. -/
theorem mkCompileTicket_skip_not_sound : ∃ s : State countArguments, HistoryReachable s ∧ s.Idle ∧
    (mkCompileTicket plainPlan s.disk.files s.disk.db).needsRecompile = false ∧
    ¬ ∃ object, s.disk.contents plainPlan.objectFilePath = some object ∧
      countArguments.run plainPlan.command s.disk.contents = some (some object) := by
  obtain ⟨s, hrun, hidle, hskip, hother, hplain⟩ : After compiledTwice fun s => s.Idle ∧
      (mkCompileTicket plainPlan s.disk.files s.disk.db).needsRecompile = false ∧
      s.disk.contents plainPlan.objectFilePath = some 6 ∧
      countArguments.run plainPlan.command s.disk.contents = some (some 7) := by
    decide +kernel
  refine ⟨s, HistoryReachable.run (.init ⟨noFiles, rfl⟩) hrun, hidle, hskip, ?_⟩
  rintro ⟨object, hobject, hrun⟩
  rw [hother] at hobject
  rw [hplain] at hrun
  cases hobject
  cases hrun

end Bpt.Build
