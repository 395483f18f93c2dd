-- SUMMARY: After a build that has recorded all of its compiles, further builds of its plans run no compiler.
import Mathlib.Algebra.Order.Group.Multiset
import Mathlib.Tactic.Abel
import Bpt.Build.Recompile

/-!
# Building again

Skipping has to be sound, but it also has to happen. A build leaves every plan fresh when
its compiles succeed with dependency information, nothing is edited meanwhile, and no compile
reads what another one writes.
-/

namespace Bpt.Build

open Transaction

variable {C : Type} {compiler : Compiler C}

/-! ## Fresh plans -/

/-- The record of the plan stands, and its object file is there. -/
structure Fresh (disk : Disk C) (plan : CompileFilePlan compiler) : Prop where
  stands : RecordStands disk.files disk.db plan.objectFilePath (quoteCommand plan.command)
  object : plan.syntaxOnly = false → disk.contents plan.objectFilePath ≠ none

section

variable {disk disk' : Disk C} {plan : CompileFilePlan compiler} {path : Path} {o : C}

/-- A fresh plan is not compiled again. -/
theorem needsRecompile_eq_false_iff (hvalid : disk.db.Valid) :
    (mkCompileTicket plan disk.files disk.db).needsRecompile = false ↔ Fresh disk plan := by
  constructor
  · intro hskip
    obtain ⟨hstands, hobject⟩ := standingCommand_of_skip hskip
    refine ⟨(standingCommand_eq_some hvalid).mp hstands, fun honly => ?_⟩
    exact Option.isSome_iff_ne_none.mp (hobject honly)
  · rintro ⟨hstands, hobject⟩
    have hstanding := (standingCommand_eq_some hvalid).mpr hstands
    unfold standingCommand at hstanding
    split at hstanding
    next cmd inputs hcmd hinputs =>
      split at hstanding
      next => cases hstanding
      next hnewer =>
        have hnone : (inputs.filter (isNewer disk.files)).map (·.path) = [] := by
          simpa [List.filter_eq_nil_iff] using hnewer
        have hthere : (!disk.files.fileExists plan.objectFilePath && !plan.syntaxOnly) = false := by
          cases honly : plan.syntaxOnly with
          | true => simp
          | false => simpa [Files.fileExists, Disk.contents, Option.isSome_iff_ne_none] using hobject honly
        unfold mkCompileTicket getPriorCompilation
        simp only [hcmd, hinputs, Option.bind_eq_bind, Option.bind_some, Option.pure_def, hnone,
          hthere, Option.some.inj hstanding]
        simp
    next => cases hstanding

theorem Fresh.congr (h : Fresh disk plan) (hfiles : disk'.files = disk.files)
    (hsame : disk.db.SameRecord disk'.db plan.objectFilePath) : Fresh disk' plan where
  stands := by
    rw [hfiles]
    exact h.stands.congr hsame
  object honly := by
    rw [Disk.contents, hfiles]
    exact h.object honly

/-- Writing an object file leaves a plan fresh whose inputs are other files. -/
theorem Fresh.put (h : Fresh disk plan) (hput : Put disk disk' path (some o))
    (hinputs : ∀ p m, disk.db.Dep plan.objectFilePath p m → isSyncheck p = false → p ≠ path) :
    Fresh disk' plan where
  stands := by
    rw [hput.db]
    refine ⟨h.stands.command, h.stands.depends, fun p m hdep hsync => ?_⟩
    rw [← h.stands.current p m hdep hsync, Files.lastWriteTime, Files.lastWriteTime,
      Files.fileExists, Files.fileExists, hput.file p (hinputs p m hdep hsync)]
  object honly := by
    by_cases hpath : plan.objectFilePath = path
    · rw [hpath, hput.contents_path]
      exact Option.some_ne_none o
    · rw [Disk.contents, hput.file _ hpath]
      exact h.object honly

end

/-! ## Undisturbed builds -/

/-- The files that are written by the compiles of the plans. -/
def outputsOf (plans : List (CompileFilePlan compiler)) : List Path := plans.map (·.objectFilePath)

/-- Dependency information that can be recorded, and stands afterwards: the inputs are there,
have not been modified since the compile started, and are not written by the build. -/
structure Recordable (outputs : List Path) (disk : Disk C) (info : FileDepsInfo) : Prop where
  inputs : info.inputs ≠ []
  apart : ∀ p ∈ info.inputs, p ∉ outputs
  there : ∀ p ∈ info.inputs, disk.contents p ≠ none
  older : ∀ p ∈ info.inputs, isSyncheck p = false → (disk.files p).mtime ≤ info.compileStartTime

/-- A step of a build whose compiles succeed and whose files are not edited. -/
def Undisturbed (outputs : List Path) (s : State compiler) : Event compiler → Prop
  | .edit _ _ _ => False
  | .beginBuild _ _ _ => False
  | .commit _ => False
  | .ticket => True
  | .take _ => True
  | .finish index reading _ _ proc =>
    ∀ build ∈ s.build, ∀ compile ∈ build.running[index]?,
      compiler.run compile.plan.command (compile.seen s.disk reading) ≠ none ∧
        ∃ info ∈ newDepsInfo build.depsMode build.toolchainHash compile.plan compile.startTime
          (compile.seen s.disk reading) proc, Recordable outputs s.disk info

/-- Each event of a list is such a step when it happens. -/
def UndisturbedRun (outputs : List Path) (s : State compiler) : List (Event compiler) → Prop
  | [] => True
  | event :: events =>
    Undisturbed outputs s event ∧ ∀ t ∈ step s event, UndisturbedRun outputs t events

/-- The plans of a build that have not been skipped, in the order of their stages. -/
def BuildRun.stages (build : BuildRun compiler) : List (CompileFilePlan compiler) :=
  build.plans ++ build.tickets.map (·.plan) ++ build.running.map (·.plan) ++
    build.allNewDeps.map (·.plan)

/-- The plan has been compiled, and its dependency information waits to be recorded. -/
structure Done (outputs : List Path) (disk : Disk C) (n : NewDeps compiler) : Prop where
  output : n.info.output = n.plan.objectFilePath
  command : n.info.command.quotedCommand = quoteCommand n.plan.command
  recordable : Recordable outputs disk n.info
  object : n.plan.syntaxOnly = false → disk.contents n.plan.objectFilePath ≠ none

/-- The plan is on its way to be compiled. -/
def BuildRun.Awaits (build : BuildRun compiler) (plan : CompileFilePlan compiler) : Prop :=
  plan ∈ build.plans ∨ (∃ ticket ∈ build.tickets, ticket.plan = plan ∧ ticket.needsRecompile = true) ∨
    ∃ compile ∈ build.running, compile.plan = plan

/-- What holds while a build of the plans is at work. -/
structure Working (plans : List (CompileFilePlan compiler)) (db : Database) (disk : Disk C)
    (build : BuildRun compiler) : Prop where
  db : disk.db = db
  nodup : (outputsOf build.stages).Nodup
  stages : ∀ plan ∈ build.stages, plan ∈ plans
  covered : ∀ plan ∈ plans,
    Fresh disk plan ∨ build.Awaits plan ∨ ∃ n ∈ build.allNewDeps, n.plan = plan
  done : ∀ n ∈ build.allNewDeps, Done (outputsOf plans) disk n
  failed : build.failed = false

/-! ## One step -/

section

variable {plans : List (CompileFilePlan compiler)} {db : Database} {disk disk' : Disk C}
  {build build' : BuildRun compiler}

theorem Recordable.put {outputs : List Path} {info : FileDepsInfo} {path : Path} {o : C}
    (h : Recordable outputs disk info) (hpath : path ∈ outputs)
    (hput : Put disk disk' path (some o)) : Recordable outputs disk' info := by
  have hsame : ∀ p ∈ info.inputs, disk'.files p = disk.files p := fun p hp =>
    hput.file p fun heq => h.apart p hp (heq ▸ hpath)
  refine ⟨h.inputs, h.apart, fun p hp => ?_, fun p hp hsync => ?_⟩
  · rw [Disk.contents, hsame p hp]
    exact h.there p hp
  · rw [hsame p hp]
    exact h.older p hp hsync

theorem Done.put {outputs : List Path} {n : NewDeps compiler} {path : Path} {o : C}
    (h : Done outputs disk n) (hpath : path ∈ outputs) (hput : Put disk disk' path (some o)) :
    Done outputs disk' n where
  output := h.output
  command := h.command
  recordable := h.recordable.put hpath hput
  object honly := by
    by_cases heq : n.plan.objectFilePath = path
    · rw [heq, hput.contents_path]
      exact Option.some_ne_none o
    · rw [Disk.contents, hput.file _ heq]
      exact h.object honly

/-- What a build has planned stays as it is while its files are written. -/
theorem Working.put {path : Path} {o : C} (h : Working plans db disk build)
    (hinputs : ∀ plan ∈ plans, ∀ p m, db.Dep plan.objectFilePath p m → isSyncheck p = false →
      p ∉ outputsOf plans)
    (hpath : path ∈ outputsOf plans) (hput : Put disk disk' path (some o)) :
    Working plans db disk' build where
  db := hput.db.trans h.db
  nodup := h.nodup
  stages := h.stages
  covered plan hplan := (h.covered plan hplan).imp_left fun hfresh =>
    hfresh.put hput fun p m hdep hsync heq =>
      hinputs plan hplan p m (h.db ▸ hdep) hsync (heq ▸ hpath)
  done n hn := (h.done n hn).put hpath hput
  failed := h.failed

/-- A step keeps what holds of a build when it only moves plans from stage to stage, or out of
them, and loses sight of none. -/
theorem Working.of_perm (h : Working plans db disk build) (rest : List (CompileFilePlan compiler))
    (hperm : (rest ++ build'.stages).Perm build.stages)
    (hcovered : ∀ plan ∈ plans, build.Awaits plan → Fresh disk plan ∨ build'.Awaits plan ∨
      ∃ n ∈ build'.allNewDeps, n.plan = plan)
    (hkept : ∀ n ∈ build.allNewDeps, n ∈ build'.allNewDeps)
    (hdone : ∀ n ∈ build'.allNewDeps, Done (outputsOf plans) disk n)
    (hfailed : build'.failed = build.failed) : Working plans db disk build' where
  db := h.db
  nodup := by
    have hnodup := (hperm.map CompileFilePlan.objectFilePath).nodup_iff.mpr h.nodup
    rw [List.map_append] at hnodup
    exact (List.nodup_append.mp hnodup).2.1
  stages p hp := h.stages p (hperm.mem_iff.mp (List.mem_append_right _ hp))
  covered p hp := by
    rcases h.covered p hp with hfresh | hawaits | ⟨n, hn, heq⟩
    · exact .inl hfresh
    · exact hcovered p hp hawaits
    · exact .inr (.inr ⟨n, hkept n hn, heq⟩)
  done := hdone
  failed := hfailed.trans h.failed

/-- The next ticket is made. -/
theorem Working.ticket {plan : CompileFilePlan compiler} {rest : List (CompileFilePlan compiler)}
    (h : Working plans db disk build) (hvalid : db.Valid) (hplans : build.plans = plan :: rest) :
    Working plans db disk { build with
      plans := rest
      tickets := build.tickets ++ [mkCompileTicket plan disk.files disk.db] } := by
  refine h.of_perm [] ?_ (fun p _ hawaits => ?_) (fun n hn => hn) h.done rfl
  · unfold BuildRun.stages
    rw [List.nil_append, hplans, List.map_append]
    refine ((?_ : List.Perm _ _).append_right _).append_right _
    rw [← List.append_assoc]
    exact List.perm_append_singleton _ _
  · rcases hawaits with hwait | ⟨ticket, hticket, heq, hneeds⟩ | hrunning
    · rw [hplans] at hwait
      rcases List.mem_cons.mp hwait with rfl | hwait
      · cases hneeds : (mkCompileTicket p disk.files disk.db).needsRecompile with
        | false => exact .inl ((needsRecompile_eq_false_iff (h.db ▸ hvalid)).mp hneeds)
        | true => exact .inr (.inl (.inr (.inl ⟨_, by simp, rfl, hneeds⟩)))
      · exact .inr (.inl (.inl hwait))
    · exact .inr (.inl (.inr (.inl ⟨ticket, List.mem_append_left _ hticket, heq, hneeds⟩)))
    · exact .inr (.inl (.inr (.inr hrunning)))

/-- A thread takes a ticket, and starts a compile if it needs one. -/
theorem Working.take {ticket : CompileTicket compiler} {tickets : List (CompileTicket compiler)}
    {compile : Compile compiler} (h : Working plans db disk build)
    (htickets : build.tickets = ticket :: tickets) (hcompile : compile.plan = ticket.plan) :
    Working plans db disk { build with
      tickets := tickets
      running := if ticket.needsRecompile then build.running ++ [compile] else build.running } := by
  have hawaits : ∀ p, build.Awaits p → (ticket.plan = p ∧ ticket.needsRecompile = true) ∨
      ({ build with tickets := tickets } : BuildRun compiler).Awaits p := by
    rintro p (hwait | ⟨t, ht, heq, hneeds⟩ | hrunning)
    · exact .inr (.inl hwait)
    · rw [htickets] at ht
      rcases List.mem_cons.mp ht with rfl | ht
      · exact .inl ⟨heq, hneeds⟩
      · exact .inr (.inr (.inl ⟨t, ht, heq, hneeds⟩))
    · exact .inr (.inr (.inr hrunning))
  cases hneeds : ticket.needsRecompile with
  | false =>
    refine h.of_perm [ticket.plan] ?_ (fun p _ hp => ?_) (fun n hn => hn) h.done rfl
    · unfold BuildRun.stages
      rw [htickets, List.map_cons]
      simp only [Bool.false_eq_true, if_false]
      rw [← Multiset.coe_eq_coe]
      simp only [← Multiset.coe_add, ← Multiset.cons_coe, ← Multiset.singleton_add,
        Multiset.coe_nil, add_zero]
      abel
    · rcases hawaits p hp with ⟨-, hneeds'⟩ | hp
      · rw [hneeds] at hneeds'
        cases hneeds'
      · exact .inr (.inl hp)
  | true =>
    refine h.of_perm [] ?_ (fun p _ hp => ?_) (fun n hn => hn) h.done rfl
    · unfold BuildRun.stages
      rw [htickets, List.map_cons]
      simp only [if_true, List.map_append, List.map_singleton, hcompile, List.nil_append]
      rw [← Multiset.coe_eq_coe]
      simp only [← Multiset.coe_add, ← Multiset.cons_coe, ← Multiset.singleton_add]
      abel
    · rcases hawaits p hp with ⟨heq, -⟩ | hwait | hticket | ⟨c, hc, heq⟩
      · exact .inr (.inl (.inr (.inr ⟨compile, by simp, hcompile.trans heq⟩)))
      · exact .inr (.inl (.inl hwait))
      · exact .inr (.inl (.inr (.inl hticket)))
      · exact .inr (.inl (.inr (.inr ⟨c, by simpa using .inl hc, heq⟩)))

/-- A compile returns with dependency information. -/
theorem Working.returned {index : Nat} {compile : Compile compiler} {n : NewDeps compiler}
    (h : Working plans db disk build) (hcompile : build.running[index]? = some compile)
    (hplan : n.plan = compile.plan) (hdone : Done (outputsOf plans) disk n) :
    Working plans db disk (build.returned index [n] build.failed) := by
  obtain ⟨hindex, hget⟩ := List.getElem?_eq_some_iff.mp hcompile
  have herase : (compile :: build.running.eraseIdx index).Perm build.running := by
    rw [← hget]
    exact List.getElem_cons_eraseIdx_perm hindex
  refine h.of_perm [] ?_ (fun p _ hawaits => ?_)
    (fun n hn => List.mem_append_left _ hn) (fun m hm => ?_) rfl
  · have hmap := herase.map (·.plan)
    rw [← Multiset.coe_eq_coe] at hmap ⊢
    unfold BuildRun.stages BuildRun.returned
    simp only [List.nil_append, List.map_append, hplan, List.map_cons,
      ← Multiset.coe_add, ← Multiset.cons_coe, ← Multiset.singleton_add] at hmap ⊢
    rw [← hmap]
    abel
  · rcases hawaits with hwait | hticket | ⟨c, hc, rfl⟩
    · exact .inr (.inl (.inl hwait))
    · exact .inr (.inl (.inr (.inl hticket)))
    · rcases List.mem_cons.mp (herase.mem_iff.mpr hc) with rfl | hc
      · exact .inr (.inr ⟨n, List.mem_append_right _ (List.mem_singleton_self n), hplan⟩)
      · exact .inr (.inl (.inr (.inr ⟨c, hc, rfl⟩)))
  · rcases List.mem_append.mp hm with hm | hm
    · exact h.done m hm
    · rw [List.mem_singleton.mp hm]
      exact hdone

variable {mode : FileDepsMode} {toolchainHash : Int}

theorem done_of_newDepsInfo {compile : Compile compiler} {seen : Path → Option C}
    {proc : ProcResult} {info : FileDepsInfo}
    (hinfo : newDepsInfo mode toolchainHash compile.plan compile.startTime seen proc = some info)
    (hrecordable : Recordable (outputsOf plans) disk info)
    (hobject : compile.plan.syntaxOnly = false → disk.contents compile.plan.objectFilePath ≠ none) :
    Done (outputsOf plans) disk ⟨compile.plan, compile.started, info⟩ := by
  obtain ⟨houtput, hcommand, -, -⟩ := newDepsInfo_eq_some hinfo
  exact ⟨houtput, hcommand, hrecordable, hobject⟩

/-- A compile that succeeds with dependency information is done. -/
theorem Working.finish {index : Nat} {compile : Compile compiler} {seen : Path → Option C}
    {left : Option (Option C)} {mtime : Int} {proc : ProcResult} {object : Option C}
    {info : FileDepsInfo} {t : State compiler} (h : Working plans db disk build)
    (hinputs : ∀ plan ∈ plans, ∀ p m, db.Dep plan.objectFilePath p m → isSyncheck p = false →
      p ∉ outputsOf plans)
    (hcompile : build.running[index]? = some compile)
    (hrun : compiler.run compile.plan.command seen = some object)
    (hinfo : newDepsInfo build.depsMode build.toolchainHash compile.plan compile.startTime seen proc =
      some info)
    (hrecordable : Recordable (outputsOf plans) disk info)
    (hfinish : build.finish disk index compile seen left mtime proc = some t) :
    ∃ build', t.build = some build' ∧ Working plans db t.disk build' := by
  unfold BuildRun.finish at hfinish
  simp only [hrun, hinfo, Option.map_some, Option.toList_some] at hfinish
  have honly := compile.plan.syntaxOnly_iff seen object hrun
  cases object with
  | none =>
    cases hfinish
    refine ⟨_, rfl, h.returned hcompile rfl (done_of_newDepsInfo hinfo hrecordable fun hfalse => ?_)⟩
    rw [honly.mp rfl] at hfalse
    cases hfalse
  | some o =>
    obtain ⟨disk', hput, rfl⟩ := Option.map_eq_some_iff.mp hfinish
    replace hput := put_eq_some hput
    have hplan : compile.plan ∈ plans := by
      refine h.stages _ (List.mem_append_left _ (List.mem_append_right _ ?_))
      exact List.mem_map_of_mem (List.mem_of_getElem? hcompile)
    have hpath : compile.plan.objectFilePath ∈ outputsOf plans := List.mem_map_of_mem hplan
    refine ⟨_, rfl, (h.put hinputs hpath hput).returned hcompile rfl
      (done_of_newDepsInfo hinfo (hrecordable.put hpath hput) fun _ => ?_)⟩
    rw [hput.contents_path]
    exact Option.some_ne_none o

/-- An undisturbed step goes on with the build. -/
theorem Working.step {s t : State compiler} {event : Event compiler}
    (h : Working plans db s.disk build) (hbuild : s.build = some build) (hvalid : db.Valid)
    (hinputs : ∀ plan ∈ plans, ∀ p m, db.Dep plan.objectFilePath p m → isSyncheck p = false →
      p ∉ outputsOf plans)
    (hundisturbed : Undisturbed (outputsOf plans) s event) (hstep : step s event = some t) :
    ∃ build', t.build = some build' ∧ Working plans db t.disk build' := by
  obtain ⟨disk, running⟩ := s
  cases hbuild
  cases event with
  | edit => exact hundisturbed.elim
  | beginBuild => exact hundisturbed.elim
  | commit => exact hundisturbed.elim
  | ticket =>
    cases hplans : build.plans with
    | nil => simp [Build.step, hplans] at hstep
    | cons plan rest =>
      simp only [Build.step, hplans, Option.some.injEq] at hstep
      subst hstep
      exact ⟨_, rfl, h.ticket hvalid hplans⟩
  | take startTime =>
    simp only [Build.step] at hstep
    split at hstep
    next ticket tickets hplans htickets =>
      cases hstep
      exact ⟨_, rfl, h.take htickets rfl⟩
    next => cases hstep
  | finish index reading left mtime proc =>
    cases hcompile : build.running[index]? with
    | none => simp [Build.step, hcompile] at hstep
    | some compile =>
      simp only [Build.step, hcompile] at hstep
      obtain ⟨hsome, info, hinfo, hrecordable⟩ := hundisturbed build rfl compile hcompile
      obtain ⟨object, hrun⟩ := Option.ne_none_iff_exists'.mp hsome
      exact h.finish hinputs hcompile hrun hinfo hrecordable hstep

/-! ## Whole builds -/

/-- What was done is fresh once it is recorded. -/
theorem Done.fresh {outputs : List Path} {n : NewDeps compiler} (h : Done outputs disk n)
    (hfiles : disk'.files = disk.files) (hstored : Stored disk.files n.info disk'.db) :
    Fresh disk' n.plan := by
  obtain ⟨row, hrow⟩ := hstored.compiled
  obtain ⟨p, hp⟩ := List.exists_mem_of_ne_nil _ h.recordable.inputs
  refine ⟨⟨⟨row, h.output ▸ hrow, (hstored.command row hrow).trans h.command⟩, ⟨p, min (disk.files p).mtime n.info.compileStartTime, ?_⟩,
    fun p m hdep hsync => ?_⟩, fun honly => ?_⟩
  · exact h.output ▸ (hstored.dep p _).mpr ⟨hp, rfl⟩
  · obtain ⟨hp, rfl⟩ := (hstored.dep p m).mp (h.output ▸ hdep)
    rw [min_eq_left (h.recordable.older p hp hsync), hfiles, Files.lastWriteTime,
      if_pos (hstored.there p hp)]
  · rw [Disk.contents, hfiles]
    exact h.object honly

/-- When the new dependency information is recorded, all plans are fresh. -/
theorem Working.commit (h : Working plans db disk build) (hvalid : db.Valid)
    (hnodup : (outputsOf plans).Nodup) (hplans : build.plans = []) (htickets : build.tickets = [])
    (hrunning : build.running = []) :
    (build.commit disk false).build = none ∧ (build.commit disk false).disk.db.Valid ∧
      ∀ plan ∈ plans, Fresh (build.commit disk false).disk plan := by
  have hstages : build.stages = build.allNewDeps.map (·.plan) := by
    simp [BuildRun.stages, hplans, htickets, hrunning]
  have houtputs : build.allNewDeps.map (·.info.output) = outputsOf build.stages := by
    rw [hstages, outputsOf, List.map_map]
    exact List.map_congr_left fun n hn => (h.done n hn).output
  have hcan : canRecord disk build.allNewDeps false :=
    ⟨rfl, fun n hn => (h.done n hn).recordable.there⟩
  obtain ⟨db', hexec⟩ := exec_recordNewDeps_of_canRecord hcan disk.db
  have hinfos : ((build.allNewDeps.map (·.info)).map (·.output)).Nodup := by
    rw [List.map_map]
    exact houtputs ▸ h.nodup
  obtain ⟨hvalid', hstored, hsame⟩ := exec_recordNewDeps_eq_ok (h.db ▸ hvalid) hinfos hexec
  have hcommit : build.commit disk false = ⟨build.recorded disk db', none⟩ := by
    rw [BuildRun.commit, hexec]
  rw [hcommit]
  refine ⟨rfl, hvalid', fun plan hplan => ?_⟩
  by_cases hnew : ∃ n ∈ build.allNewDeps, n.plan = plan
  · obtain ⟨n, hn, rfl⟩ := hnew
    exact (h.done n hn).fresh rfl (hstored n.info (List.mem_map_of_mem hn))
  · have hfresh : Fresh disk plan := by
      rcases h.covered plan hplan with hfresh | hawaits | hdone
      · exact hfresh
      · simp [BuildRun.Awaits, hplans, htickets, hrunning] at hawaits
      · exact absurd hdone hnew
    refine hfresh.congr rfl (hsame _ fun hmem => hnew ?_)
    rw [List.map_map] at hmem
    obtain ⟨n, hn, heq⟩ := List.mem_map.mp hmem
    have hstage : n.plan ∈ plans := h.stages _ (hstages ▸ List.mem_map_of_mem hn)
    exact ⟨n, hn, List.inj_on_of_nodup_map hnodup hstage hplan ((h.done n hn).output.symm.trans heq)⟩

end

/-! ### Histories -/

/-- Recording keeps the constraints of the tables, also when it fails. -/
theorem keeps_recordNewDeps (files : Files C) (allNewDeps : List FileDepsInfo) (cancelled : Bool) :
    Keeps Database.Valid (recordNewDeps files allNewDeps cancelled) := by
  have hinput : ∀ (deps : FileDepsInfo) (inp : Path),
      Keeps Database.Valid (recordInput files deps inp) := by
    intro deps inp
    unfold recordInput
    cases files.lastWriteTime inp with
    | none => exact Keeps.throw _
    | some mtime => exact Keeps.modify fun db hdb => (hdb.recordDep _ _ _).1
  have hupdate : ∀ deps : FileDepsInfo, Keeps Database.Valid (updateDepsInfo files deps) := by
    intro deps
    refine (Keeps.modify fun db hdb => (hdb.recordCompilation _ _).1).bind fun _ => ?_
    refine (Keeps.modify fun db hdb => (hdb.forgetInputsOf _).1).bind fun _ => ?_
    exact Keeps.forEach (hinput deps) _
  refine ((Keeps.forEach hupdate _).bind fun _ => ?_).transaction
  cases cancelled with
  | false => exact Keeps.pure _
  | true => exact Keeps.throw _

theorem valid_commit {disk : Disk C} (h : disk.db.Valid) (build : BuildRun compiler)
    (cancelled : Bool) : (build.commit disk cancelled).disk.db.Valid := by
  have hkeeps := keeps_recordNewDeps disk.files (build.allNewDeps.map (·.info)) cancelled disk.db h
  unfold BuildRun.commit
  dsimp only
  cases hexec : exec (recordNewDeps disk.files (build.allNewDeps.map (·.info)) cancelled) disk.db with
  | mk result db =>
    rw [hexec] at hkeeps
    cases result <;> exact hkeeps

theorem db_finish {disk : Disk C} {build : BuildRun compiler} {index : Nat} {compile : Compile compiler}
    {seen : Path → Option C} {left : Option (Option C)} {mtime : Int} {proc : ProcResult}
    {t : State compiler} (h : build.finish disk index compile seen left mtime proc = some t) :
    t.disk.db = disk.db := by
  have hwrite : ∀ {disk' : Disk C} {out : Path} {written : Option (Option C)},
      disk.write out written mtime = some disk' → disk'.db = disk.db := by
    intro disk' out written hsome
    cases written with
    | none => cases hsome; rfl
    | some content => exact (put_eq_some hsome).db
  unfold BuildRun.finish at h
  dsimp only at h
  split at h
  all_goals
    obtain ⟨disk', hdisk', rfl⟩ := Option.map_eq_some_iff.mp h
    exact hwrite hdisk'

/-- A step changes the database only when a build begins or ends. -/
theorem valid_step {s t : State compiler} {event : Event compiler} (h : s.disk.db.Valid)
    (hstep : step s event = some t) : t.disk.db.Valid := by
  obtain ⟨disk, running⟩ := s
  cases event with
  | edit path content mtime =>
    obtain ⟨disk', hput, rfl⟩ := Option.map_eq_some_iff.mp hstep
    exact (put_eq_some hput).db ▸ h
  | beginBuild mode toolchainHash plans =>
    cases running with
    | some build => cases hstep
    | none =>
      cases hstep
      exact h.reopen
  | ticket =>
    simp only [step] at hstep
    split at hstep
    next => cases hstep
    next =>
      split at hstep
      next => cases hstep
      next =>
        cases hstep
        exact h
  | take startTime =>
    simp only [step] at hstep
    split at hstep
    next => cases hstep
    next =>
      split at hstep
      next =>
        cases hstep
        exact h
      next => cases hstep
  | finish index reading left mtime proc =>
    simp only [step] at hstep
    split at hstep
    next => cases hstep
    next =>
      split at hstep
      next => cases hstep
      next build _ compile _ => exact (db_finish hstep) ▸ h
  | commit cancelled =>
    cases running with
    | none => cases hstep
    | some build =>
      simp only [step] at hstep
      split at hstep
      next =>
        cases hstep
        exact valid_commit h build cancelled
      next => cases hstep

/-- The database of every history keeps the constraints of its tables. -/
theorem HistoryReachable.valid {s : State compiler} (h : HistoryReachable s) : s.disk.db.Valid := by
  refine Reach.Reachable.invariant (I := fun s : State compiler => s.disk.db.Valid) ?_ ?_ h
  · rintro _ ⟨files, rfl⟩
    exact Database.valid_empty
  · rintro s t hs ⟨event, hstep⟩
    exact valid_step hs hstep

/-- No compile reads an object file of the plans, as far as the database knows. -/
def ReadsNoOutput (plans : List (CompileFilePlan compiler)) (db : Database) : Prop :=
  ∀ plan ∈ plans, ∀ p m, db.Dep plan.objectFilePath p m → isSyncheck p = false → p ∉ outputsOf plans

section

variable {plans : List (CompileFilePlan compiler)} {s t : State compiler} {mode : FileDepsMode}
  {toolchainHash : Int}

theorem Working.run {db : Database} {build : BuildRun compiler} {body : List (Event compiler)}
    (h : Working plans db s.disk build) (hbuild : s.build = some build) (hvalid : db.Valid)
    (hinputs : ReadsNoOutput plans db) (hundisturbed : UndisturbedRun (outputsOf plans) s body)
    (hrun : run s body = some t) :
    ∃ build', t.build = some build' ∧ Working plans db t.disk build' := by
  induction body generalizing s build with
  | nil =>
    cases hrun
    exact ⟨build, hbuild, h⟩
  | cons event rest ih =>
    obtain ⟨u, hstep, hrest⟩ := Option.bind_eq_some_iff.mp hrun
    obtain ⟨build', hbuild', h'⟩ := h.step hbuild hvalid hinputs hundisturbed.1 hstep
    exact ih h' hbuild' (hundisturbed.2 u hstep) hrest

/-- An event of a history in which nothing is edited and only the given plans are built. -/
def BuildsOnly (plans : List (CompileFilePlan compiler)) : Event compiler → Prop
  | .edit _ _ _ => False
  | .beginBuild _ _ plans' => ∀ plan ∈ plans', plan ∈ plans
  | _ => True

/-- Nothing is left to do for the plans, and nothing is being done. -/
structure Idling (plans : List (CompileFilePlan compiler)) (files : Files C) (s : State compiler) :
    Prop where
  files : s.disk.files = files
  valid : s.disk.db.Valid
  fresh : ∀ plan ∈ plans, Fresh s.disk plan
  plans : ∀ build ∈ s.build, ∀ plan ∈ build.plans, plan ∈ plans
  tickets : ∀ build ∈ s.build, ∀ ticket ∈ build.tickets, ticket.needsRecompile = false
  idle : s.Idle

/-- A build that has compiled nothing records nothing. -/
theorem commit_of_idle {disk : Disk C} {build : BuildRun compiler} (cancelled : Bool)
    (hvalid : disk.db.Valid) (hidle : build.allNewDeps = []) :
    (build.commit disk cancelled).build = none ∧
      (build.commit disk cancelled).disk.files = disk.files ∧
      ∀ out, disk.db.SameRecord (build.commit disk cancelled).disk.db out := by
  unfold BuildRun.commit
  dsimp only
  cases hexec : exec (recordNewDeps disk.files (build.allNewDeps.map (·.info)) cancelled) disk.db with
  | mk result db =>
    cases result with
    | ok _ =>
      rw [hidle] at hexec
      have hnil : (([] : List FileDepsInfo).map (·.output)).Nodup := List.nodup_nil
      obtain ⟨-, -, hsame⟩ := exec_recordNewDeps_eq_ok hvalid hnil hexec
      exact ⟨rfl, rfl, fun out => hsame out List.not_mem_nil⟩
    | error err =>
      obtain rfl := exec_transaction_error hexec
      exact ⟨rfl, rfl, fun out => .refl _ out⟩

theorem Idling.step {files : Files C} {event : Event compiler} (h : Idling plans files s)
    (honly : BuildsOnly plans event) (hstep : step s event = some t) : Idling plans files t := by
  have hvalid := valid_step h.valid hstep
  obtain ⟨disk, running⟩ := s
  cases event with
  | edit => exact honly.elim
  | beginBuild mode toolchainHash plans' =>
    cases running with
    | some build => cases hstep
    | none =>
      cases hstep
      refine ⟨h.files, hvalid, fun plan hplan => (h.fresh plan hplan).congr rfl ?_, ?_, ?_, ?_⟩
      · exact ⟨fun _ => Iff.rfl, fun _ _ => Iff.rfl⟩
      all_goals rintro _ ⟨⟩
      · exact honly
      · exact fun ticket hticket => nomatch hticket
      · exact ⟨rfl, rfl⟩
  | ticket =>
    cases running with
    | none => cases hstep
    | some build =>
      have hplans := h.plans build rfl
      have htickets := h.tickets build rfl
      cases hwait : build.plans with
      | nil => simp [Build.step, hwait] at hstep
      | cons plan rest =>
        simp only [Build.step, hwait, Option.some.injEq] at hstep
        subst hstep
        rw [hwait] at hplans
        refine ⟨h.files, hvalid, h.fresh, ?_, ?_, ?_⟩
        all_goals rintro _ ⟨⟩
        · exact fun p hp => hplans p (List.mem_cons_of_mem _ hp)
        · intro ticket hticket
          rcases List.mem_append.mp hticket with hticket | hticket
          · exact htickets ticket hticket
          · rw [List.mem_singleton.mp hticket]
            exact (needsRecompile_eq_false_iff h.valid).mpr (h.fresh plan (hplans plan List.mem_cons_self))
        · exact h.idle build rfl
  | take startTime =>
    cases running with
    | none => cases hstep
    | some build =>
      have hplans := h.plans build rfl
      have htickets := h.tickets build rfl
      simp only [Build.step] at hstep
      split at hstep
      next ticket rest _ htake =>
        cases hstep
        rw [htake] at htickets
        refine ⟨h.files, hvalid, h.fresh, ?_, ?_, ?_⟩
        all_goals rintro _ ⟨⟩
        · exact hplans
        · exact fun t ht => htickets t (List.mem_cons_of_mem _ ht)
        · rw [htickets ticket List.mem_cons_self]
          exact h.idle build rfl
      next => cases hstep
  | finish index reading left mtime proc =>
    cases running with
    | none => cases hstep
    | some build => simp [Build.step, (h.idle build rfl).1] at hstep
  | commit cancelled =>
    cases running with
    | none => cases hstep
    | some build =>
      simp only [Build.step] at hstep
      split at hstep
      next =>
        cases hstep
        obtain ⟨hnone, hfiles, hsame⟩ := commit_of_idle cancelled h.valid (h.idle build rfl).2
        refine ⟨hfiles.trans h.files, hvalid, fun plan hplan => (h.fresh plan hplan).congr hfiles
          (hsame _), ?_, ?_, ?_⟩
        all_goals
          intro build' hbuild'
          rw [hnone] at hbuild'
          cases hbuild'
      next => cases hstep

theorem Idling.run {files : Files C} {events : List (Event compiler)} (h : Idling plans files s)
    (honly : ∀ event ∈ events, BuildsOnly plans event) (hrun : run s events = some t) :
    Idling plans files t := by
  induction events generalizing s with
  | nil =>
    cases hrun
    exact h
  | cons event rest ih =>
    obtain ⟨u, hstep, hrest⟩ := Option.bind_eq_some_iff.mp hrun
    exact ih (h.step (honly event List.mem_cons_self) hstep)
      (fun event hevent => honly event (List.mem_cons_of_mem _ hevent)) hrest

end

/-! ### A second build -/

instance (outputs : List Path) (disk : Disk C) (info : FileDepsInfo) :
    Decidable (Recordable outputs disk info) :=
  decidable_of_iff (info.inputs ≠ [] ∧ (∀ p ∈ info.inputs, p ∉ outputs) ∧
      (∀ p ∈ info.inputs, disk.contents p ≠ none) ∧
      ∀ p ∈ info.inputs, isSyncheck p = false → (disk.files p).mtime ≤ info.compileStartTime)
    ⟨fun ⟨hne, hapart, hthere, holder⟩ => ⟨hne, hapart, hthere, holder⟩,
      fun ⟨hne, hapart, hthere, holder⟩ => ⟨hne, hapart, hthere, holder⟩⟩

instance (outputs : List Path) (s : State compiler) (event : Event compiler) :
    Decidable (Undisturbed outputs s event) :=
  match event with
  | .edit _ _ _ => isFalse id
  | .beginBuild _ _ _ => isFalse id
  | .commit _ => isFalse id
  | .ticket => isTrue trivial
  | .take _ => isTrue trivial
  | .finish index reading _ _ proc =>
    inferInstanceAs (Decidable (∀ build ∈ s.build, ∀ compile ∈ build.running[index]?,
      compiler.run compile.plan.command (compile.seen s.disk reading) ≠ none ∧
        ∃ info ∈ newDepsInfo build.depsMode build.toolchainHash compile.plan compile.startTime
          (compile.seen s.disk reading) proc, Recordable outputs s.disk info))

def decideUndisturbedRun (outputs : List Path) (s : State compiler) :
    (events : List (Event compiler)) → Decidable (UndisturbedRun outputs s events)
  | [] => isTrue trivial
  | event :: events =>
    have := fun t : State compiler => decideUndisturbedRun outputs t events
    inferInstanceAs (Decidable (Undisturbed outputs s event ∧
      ∀ t ∈ step s event, UndisturbedRun outputs t events))

instance (outputs : List Path) (s : State compiler) (events : List (Event compiler)) :
    Decidable (UndisturbedRun outputs s events) :=
  decideUndisturbedRun outputs s events

end Bpt.Build
