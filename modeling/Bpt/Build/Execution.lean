-- SUMMARY: The phases of a build, and that what they leave depends neither on the order of the steps nor on which up-to-date compiles are skipped.
import Bpt.Base.Phases
import Bpt.Build.CompileCommand
import Bpt.Build.EmitIndex
import Bpt.UsageReqs.Paths

/-!
# Executing a plan

`build_plan::compile_all`, `archive_all` and `link_all` run the commands of a plan, several
at a time. Each of them waits for the last command of its phase. Which compiles are skipped is
given here, and not how that follows from the recorded dependency information. The files that
only messages name are left out.
-/

namespace Bpt.Plan

open Fallible Phases

abbrev FileKey := List String × String

/-- The programs that commands run, for what they leave in the file they write. -/
structure Tools where
  opens : Path → List String → Disk → List FileKey
  run : Path → List String → Disk → Option String
  congr : ∀ cwd command disk disk', (∀ k ∈ opens cwd command disk, disk' k = disk k) →
    opens cwd command disk' = opens cwd command disk ∧ run cwd command disk' = run cwd command disk

/-- The disk after one file was written or removed. -/
def prepared (prep : Option (FileKey × Option String)) (disk : Disk) : Disk :=
  match prep with
  | none => disk
  | some (file, text) => Function.update disk file text

/-- A command that is run after one file was prepared. -/
def Tools.job (tools : Tools) (cwd : Path) (command : List String)
    (prep : Option (FileKey × Option String)) (target : Option FileKey) :
    Job FileKey (Option String) where
  target := target
  reads disk := (tools.opens cwd command (prepared prep disk)).filter fun k => prep.map Prod.fst ≠ some k
  make disk := (tools.run cwd command (prepared prep disk)).map some
  congr disk disk' h := by
    have hsame : ∀ k ∈ tools.opens cwd command (prepared prep disk),
        prepared prep disk' k = prepared prep disk k := by
      intro k hk
      cases prep with
      | none => exact h k (List.mem_filter.mpr ⟨hk, by simp⟩)
      | some fileText =>
        obtain ⟨file, text⟩ := fileText
        by_cases heq : k = file
        · rw [heq, prepared, prepared, Function.update_self, Function.update_self]
        · rw [prepared, prepared, Function.update_of_ne heq, Function.update_of_ne heq]
          exact h k (List.mem_filter.mpr ⟨hk, by simpa using Ne.symm heq⟩)
    obtain ⟨hopens, hrun⟩ := tools.congr cwd command _ _ hsame
    exact ⟨by rw [hopens], by rw [hrun]⟩

section

variable (tree : FileTree) (env : CompileEnv) (tools : Tools) (fuel : Nat)

def CompileFilePlan.objectFile (plan : CompileFilePlan) : FileKey :=
  tree.fileAt (plan.calcObjectFilePath tree env.toBuildEnv)

/-- A check of the syntax writes no object. The file that includes the header is written
before it. -/
def CompileFilePlan.job (plan : CompileFilePlan) :
    Option (Except UsageError (Job FileKey (Option String))) :=
  (plan.generateCompileCommand tree env fuel).map <| Except.map fun info =>
    tools.job (currentPath tree) info.command
      (info.syncheck.map fun syncheck => (tree.fileAt syncheck.1, some syncheck.2))
      (if plan.rules.syntaxOnly then none else some (plan.objectFile tree env))

def CreateArchivePlan.outPath (ar : CreateArchivePlan) : Path :=
  env.outputRoot / ar.calcArchiveFilePath env.toolchain

/-- A prior archive is removed. -/
def CreateArchivePlan.job (ar : CreateArchivePlan) : Job FileKey (Option String) :=
  let spec : ArchiveSpec :=
    { inputFiles := ar.compileFiles.map fun cf => cf.calcObjectFilePath tree env.toBuildEnv
      outPath := ar.outPath env }
  tools.job env.outputRoot (env.tc.createArchiveCommand spec env.outputRoot)
    (some (tree.fileAt (ar.outPath env), none)) (some (tree.fileAt (ar.outPath env)))

/-- The inputs of a link: the entry point, the archive of its library, and those of what it
is linked with. -/
def LinkExecutablePlan.inputs (exe : LinkExecutablePlan) (lib : LibraryPlan) :
    Option (Except UsageError (List Path)) :=
  (collectAll (env.ureqs.linkPaths fuel) exe.links).map <| Except.map fun paths =>
    exe.mainCompile.calcObjectFilePath tree env.toBuildEnv ::
      ((lib.createArchive.map fun ar => ar.outPath env).toList ++ paths.flatten)

def LinkExecutablePlan.outputFile (exe : LinkExecutablePlan) : FileKey :=
  tree.fileAt (exe.calcExecutablePath env.toBuildEnv)

def LinkExecutablePlan.job (exe : LinkExecutablePlan) (lib : LibraryPlan) :
    Option (Except UsageError (Job FileKey (Option String))) :=
  (exe.inputs tree env fuel lib).map <| Except.map fun inputs =>
    tools.job (currentPath tree)
      (env.tc.createLinkExecutableCommand ⟨inputs, exe.calcExecutablePath env.toBuildEnv⟩
        (currentPath tree)) none (some (exe.outputFile tree env))

/-- The executables with the libraries that own them. -/
def BuildPlan.linkPairs (plan : BuildPlan) : List (LibraryPlan × LinkExecutablePlan) :=
  plan.libraries.flatMap fun lib => lib.linkExes.map fun exe => (lib, exe)

def BuildPlan.compileJobs (plan : BuildPlan) :
    Option (Except UsageError (List (Job FileKey (Option String)))) :=
  collectAll (fun cf => CompileFilePlan.job tree env tools fuel cf) plan.compilations

def BuildPlan.linkJobs (plan : BuildPlan) :
    Option (Except UsageError (List (Job FileKey (Option String)))) :=
  collectAll (fun pair => pair.2.job tree env tools fuel pair.1) plan.linkPairs

/-- The jobs of the compiles whose tickets say so. -/
def BuildPlan.recompiled (plan : BuildPlan) (needsRecompile : CompileFilePlan → Bool)
    (compiles : List (Job FileKey (Option String))) : List (Job FileKey (Option String)) :=
  ((plan.compilations.zip compiles).filter fun tkt => needsRecompile tkt.1).map Prod.snd

/-- `compile_all`, `archive_all` and `link_all`. Every compile has its command, and those that
need to be recompiled are made. -/
def BuildPlan.phases (plan : BuildPlan) (needsRecompile : CompileFilePlan → Bool) :
    Option (Except UsageError (List (List (Job FileKey (Option String))))) :=
  match plan.compileJobs tree env tools fuel with
  | none => none
  | some (.error e) => some (.error e)
  | some (.ok compiles) =>
    (plan.linkJobs tree env tools fuel).map <| Except.map fun links =>
      [plan.recompiled needsRecompile compiles, plan.archives.map (·.job tree env tools), links]

/-- The files that the steps of a plan leave. -/
def BuildPlan.outputs (plan : BuildPlan) : List FileKey :=
  (plan.compilations.filter (!·.rules.syntaxOnly)).map (·.objectFile tree env) ++
    (plan.archives.map fun ar => tree.fileAt (ar.outPath env)) ++
    plan.executables.map (·.outputFile tree env)

end

/-! ## What is planned -/

/-- What is compiled for an archive or an executable is an object, and an executable is linked
with all that its library uses. -/
structure LibraryPlan.Linkable (lib : LibraryPlan) : Prop where
  sources : ∀ cf ∈ lib.fileCompilations, cf.rules.syntaxOnly = false
  mains : ∀ exe ∈ lib.linkExes, exe.mainCompile.rules.syntaxOnly = false
  links : ∀ exe ∈ lib.linkExes, lib.libUses ⊆ exe.links

/-- The compilations of an archive that is only created when there are some. -/
theorem mem_of_mem_archived {name qualName : String} {subdir : Path} {files : List CompileFilePlan}
    {cf : CompileFilePlan}
    (h : cf ∈ ((if files = [] then none else some (CreateArchivePlan.mk name qualName subdir files)).map
      CreateArchivePlan.compileFiles).getD []) : cf ∈ files := by
  split at h
  next => cases h
  next => exact h

theorem linkable_of_create {V S : Type} {tree : FileTree} {pkgBase : Path}
    {pkg : Crs.PackageInfo V S} {lib : Crs.LibraryInfo S} {params : LibraryBuildParams}
    {plan : LibraryPlan} (h : LibraryPlan.create tree pkgBase pkg lib params = .ok plan) :
    plan.Linkable := by
  simp only [LibraryPlan.create, bind_eq_ok] at h
  obtain ⟨_, -, _, -, libUses, -, testUses, -, h⟩ := h
  cases h
  refine ⟨fun cf hcf => ?_, fun exe hexe => ?_, fun exe hexe => ?_⟩
  · obtain ⟨sf, -, rfl⟩ := List.mem_map.mp (mem_of_mem_archived hcf)
    rfl
  · obtain ⟨sf, -, rfl⟩ := List.mem_map.mp hexe
    dsimp only [planExecutable]
    split <;> rfl
  · obtain ⟨sf, -, rfl⟩ := List.mem_map.mp hexe
    dsimp only [planExecutable]
    split
    · exact List.subset_append_left _ _
    · exact List.Subset.refl _

theorem linkable_of_prepareBuildPlan {V S : Type} {tree : FileTree}
    {sdists : List (SdistTarget V S)} {plan : BuildPlan}
    (h : prepareBuildPlan tree sdists = .ok plan) : ∀ lib ∈ plan.libraries, lib.Linkable := by
  unfold prepareBuildPlan at h
  obtain ⟨packages, hpackages, hplan⟩ := bind_eq_ok.mp h
  cases hplan
  intro lib hlib
  obtain ⟨package, hpackage, hlib⟩ := List.mem_flatMap.mp hlib
  obtain ⟨sdt, -, hone⟩ := exists_mem_of_mem_mapM hpackages hpackage
  unfold prepareOne at hone
  obtain ⟨libraries, hlibraries, hone⟩ := bind_eq_ok.mp hone
  cases hone
  obtain ⟨info, -, hprepare⟩ := exists_mem_of_mem_mapM hlibraries hlib
  unfold prepareLibrary at hprepare
  split at hprepare
  next => cases hprepare
  next => exact linkable_of_create hprepare

section

variable {plan : BuildPlan}

theorem mem_archives {ar : CreateArchivePlan} :
    ar ∈ plan.archives ↔ ∃ lib ∈ plan.libraries, lib.createArchive = some ar := by
  unfold BuildPlan.archives
  rw [List.mem_filterMap]

theorem mem_linkPairs {lib : LibraryPlan} {exe : LinkExecutablePlan} :
    (lib, exe) ∈ plan.linkPairs ↔ lib ∈ plan.libraries ∧ exe ∈ lib.linkExes := by
  unfold BuildPlan.linkPairs
  simp only [List.mem_flatMap, List.mem_map, Prod.mk.injEq]
  constructor
  · rintro ⟨_, hlib, _, hexe, rfl, rfl⟩
    exact ⟨hlib, hexe⟩
  · rintro ⟨hlib, hexe⟩
    exact ⟨lib, hlib, exe, hexe, rfl, rfl⟩

theorem map_snd_linkPairs : plan.linkPairs.map Prod.snd = plan.executables := by
  unfold BuildPlan.linkPairs BuildPlan.executables
  rw [List.map_flatMap]
  refine List.flatMap_congr fun lib _ => ?_
  rw [List.map_map]
  exact List.map_id _

theorem mem_compilations_of_archive {lib : LibraryPlan} (hlib : lib ∈ plan.libraries)
    {cf : CompileFilePlan} (hcf : cf ∈ lib.fileCompilations) : cf ∈ plan.compilations := by
  unfold BuildPlan.compilations
  exact List.mem_append_left _ (List.mem_append_left _ (List.mem_flatMap.mpr ⟨lib, hlib, hcf⟩))

theorem mainCompile_mem_compilations {lib : LibraryPlan} (hlib : lib ∈ plan.libraries)
    {exe : LinkExecutablePlan} (hexe : exe ∈ lib.linkExes) : exe.mainCompile ∈ plan.compilations := by
  unfold BuildPlan.compilations
  exact List.mem_append_right _ (List.mem_map_of_mem (List.mem_flatMap.mpr ⟨lib, hlib, hexe⟩))

end

/-! ## What the phases read -/

section

variable (tree : FileTree) (env : CompileEnv) (tools : Tools) (fuel : Nat) (plan : BuildPlan)

/-- No two libraries have one archive, and no executable is written over one. -/
structure ArchivesApart : Prop where
  archives : (plan.archives.map fun ar => tree.fileAt (ar.outPath env)).Nodup
  executables : ∀ ar ∈ plan.archives, ∀ exe ∈ plan.executables,
    tree.fileAt (ar.outPath env) ≠ exe.outputFile tree env

/-- The file is the same on both disks, and no step writes it. -/
def Settled (disk disk' : Disk) (k : FileKey) : Prop := disk' k = disk k ∧ k ∉ plan.outputs tree env

/-- The programs open the inputs that the commands name, and settled files such as sources,
headers and system libraries. -/
structure OpenOnlyInputs (disk disk' : Disk) : Prop where
  compiles : ∀ cf ∈ plan.compilations, ∀ job, cf.job tree env tools fuel = some (.ok job) →
    ∀ k ∈ job.reads disk, Settled tree env plan disk disk' k
  archives : ∀ ar ∈ plan.archives, ∀ d : Disk,
    (∀ k, Settled tree env plan disk disk' k → d k = disk k) →
    ∀ k ∈ (ar.job tree env tools).reads d,
      Settled tree env plan disk disk' k ∨ ∃ cf ∈ ar.compileFiles, k = cf.objectFile tree env
  links : ∀ lib exe, (lib, exe) ∈ plan.linkPairs → ∀ inputs job,
    exe.inputs tree env fuel lib = some (.ok inputs) →
    exe.job tree env tools fuel lib = some (.ok job) → ∀ d : Disk,
    (∀ k, Settled tree env plan disk disk' k → d k = disk k) →
    ∀ k ∈ job.reads d, Settled tree env plan disk disk' k ∨ ∃ p ∈ inputs, k = tree.fileAt p

end

section

variable {tree : FileTree} {env : CompileEnv} {tools : Tools} {fuel : Nat} {plan : BuildPlan}
  {disk disk' : Disk} {job : Job FileKey (Option String)}

theorem target_compileJob {cf : CompileFilePlan} (h : cf.job tree env tools fuel = some (.ok job)) :
    job.target = if cf.rules.syntaxOnly then none else some (cf.objectFile tree env) := by
  obtain ⟨r, -, h⟩ := Option.map_eq_some_iff.mp h
  obtain ⟨info, -, rfl⟩ := map_eq_ok.mp h
  rfl

theorem target_linkJob {lib : LibraryPlan} {exe : LinkExecutablePlan}
    (h : exe.job tree env tools fuel lib = some (.ok job)) :
    job.target = some (exe.outputFile tree env) ∧
      ∃ inputs, exe.inputs tree env fuel lib = some (.ok inputs) := by
  obtain ⟨r, hr, h⟩ := Option.map_eq_some_iff.mp h
  obtain ⟨inputs, rfl, rfl⟩ := map_eq_ok.mp h
  exact ⟨rfl, inputs, hr⟩

theorem compileJobs_eq_ok {compiles : List (Job FileKey (Option String))}
    (h : plan.compileJobs tree env tools fuel = some (.ok compiles)) :
    List.Forall₂ (fun cf job => CompileFilePlan.job tree env tools fuel cf = some (.ok job))
      plan.compilations compiles :=
  collectAll_eq_ok h

theorem linkJobs_eq_ok {links : List (Job FileKey (Option String))}
    (h : plan.linkJobs tree env tools fuel = some (.ok links)) :
    List.Forall₂ (fun pair job => LinkExecutablePlan.job tree env tools fuel pair.2 pair.1 =
      some (.ok job)) plan.linkPairs links :=
  collectAll_eq_ok h

/-- The phases, each with the jobs of its steps. -/
theorem phases_eq_ok {needsRecompile : CompileFilePlan → Bool}
    {phases : List (List (Job FileKey (Option String)))}
    (h : plan.phases tree env tools fuel needsRecompile = some (.ok phases)) :
    ∃ compiles links, plan.compileJobs tree env tools fuel = some (.ok compiles) ∧
      plan.linkJobs tree env tools fuel = some (.ok links) ∧
      phases = [plan.recompiled needsRecompile compiles, plan.archives.map (·.job tree env tools),
        links] := by
  unfold BuildPlan.phases at h
  split at h
  next => cases h
  next => cases h
  next compiles hcompiles =>
    obtain ⟨r, hr, h⟩ := Option.map_eq_some_iff.mp h
    obtain ⟨links, rfl, rfl⟩ := map_eq_ok.mp h
    exact ⟨compiles, links, hcompiles, hr, rfl⟩

/-- What is recompiled keeps the order of the compiles. -/
theorem recompiled_sublist (plan : BuildPlan) (needsRecompile : CompileFilePlan → Bool)
    {compiles : List (Job FileKey (Option String))}
    (hlength : plan.compilations.length = compiles.length) :
    (plan.recompiled needsRecompile compiles).Sublist compiles := by
  have hsub := (List.filter_sublist (p := fun tkt => needsRecompile tkt.1)
    (l := plan.compilations.zip compiles)).map Prod.snd
  rwa [List.map_snd_zip hlength.ge] at hsub

/-- A compile that is not recompiled is skipped by its ticket. -/
theorem skipped_of_not_mem {needsRecompile : CompileFilePlan → Bool}
    {compiles : List (Job FileKey (Option String))}
    {R : CompileFilePlan → Job FileKey (Option String) → Prop}
    (h : List.Forall₂ R plan.compilations compiles) (hjob : job ∈ compiles)
    (hskip : job ∉ plan.recompiled needsRecompile compiles) :
    ∃ cf ∈ plan.compilations, R cf job ∧ needsRecompile cf = false := by
  obtain ⟨hlength, hzip⟩ := List.forall₂_iff_zip.mp h
  rw [← List.map_snd_zip hlength.ge] at hjob
  obtain ⟨⟨cf, _⟩, hmem, rfl⟩ := List.mem_map.mp hjob
  refine ⟨cf, (List.of_mem_zip hmem).1, hzip hmem, Bool.eq_false_iff.mpr fun hneeds => ?_⟩
  exact hskip (List.mem_map_of_mem (List.mem_filter.mpr ⟨hmem, hneeds⟩))

/-- Every job runs a command. -/
theorem eq_job_of_compileJobs {compiles : List (Job FileKey (Option String))}
    (h : plan.compileJobs tree env tools fuel = some (.ok compiles)) :
    ∀ job ∈ compiles, ∃ cwd command prep target, job = tools.job cwd command prep target := by
  intro job hjob
  obtain ⟨cf, -, hcf⟩ := Traversal.forall₂_exists_right (compileJobs_eq_ok h).flip hjob
  obtain ⟨r, -, hcf⟩ := Option.map_eq_some_iff.mp hcf
  obtain ⟨info, -, rfl⟩ := map_eq_ok.mp hcf
  exact ⟨_, _, _, _, rfl⟩

theorem eq_job_of_linkJobs {links : List (Job FileKey (Option String))}
    (h : plan.linkJobs tree env tools fuel = some (.ok links)) :
    ∀ job ∈ links, ∃ cwd command prep target, job = tools.job cwd command prep target := by
  intro job hjob
  obtain ⟨pair, -, hpair⟩ := Traversal.forall₂_exists_right (linkJobs_eq_ok h).flip hjob
  obtain ⟨r, -, hpair⟩ := Option.map_eq_some_iff.mp hpair
  obtain ⟨inputs, -, rfl⟩ := map_eq_ok.mp hpair
  exact ⟨_, _, _, _, rfl⟩

/-- What the traversals of the usage requirements yield are archives of the plan. -/
theorem archive_of_mem_linkPaths
    (hureqs : prepareUreqs tree plan env.toolchain env.outputRoot = .ok env.ureqs) {use : Usage}
    {paths : List Path} (h : env.ureqs.linkPaths fuel use = some (.ok paths)) {p : Path}
    (hp : p ∈ paths) : ∃ ar ∈ plan.archives, p = ar.outPath env := by
  obtain ⟨r, hr, h⟩ := Option.map_eq_some_iff.mp h
  obtain rfl := mapError_eq_ok.mp h
  obtain ⟨b, own, next, -, hb, hown⟩ := (Traversal.mem_traverse_iff hr).mp hp
  obtain ⟨lib, hlib, rfl, -⟩ := UsageRequirementMap.pathNode_eq_some.mp hb
  rw [UsageRequirementMap.get_eq_some, (UsageRequirementMap.foldlM_add_perm hureqs).mem_iff] at hlib
  rcases List.mem_append.mp hlib with hlib | hlib
  · obtain ⟨pkg, hpkg, hlib⟩ := List.mem_flatMap.mp hlib
    obtain ⟨libPlan, hlibPlan, heq⟩ := List.mem_map.mp hlib
    cases heq
    obtain ⟨ar, har, rfl⟩ := Option.map_eq_some_iff.mp (Option.mem_toList.mp hown)
    exact ⟨ar, mem_archives.mpr ⟨libPlan, List.mem_flatMap.mpr ⟨pkg, hpkg, hlibPlan⟩, har⟩, rfl⟩
  · cases hlib

/-- What a link is given: the object of its entry point, and archives of the plan. -/
theorem mem_inputs
    (hureqs : prepareUreqs tree plan env.toolchain env.outputRoot = .ok env.ureqs)
    {lib : LibraryPlan} (hlib : lib ∈ plan.libraries) {exe : LinkExecutablePlan} {inputs : List Path}
    (h : exe.inputs tree env fuel lib = some (.ok inputs)) {p : Path} (hp : p ∈ inputs) :
    p = exe.mainCompile.calcObjectFilePath tree env.toBuildEnv ∨
      ∃ ar ∈ plan.archives, p = ar.outPath env := by
  obtain ⟨r, hr, h⟩ := Option.map_eq_some_iff.mp h
  obtain ⟨parts, rfl, rfl⟩ := map_eq_ok.mp h
  rcases List.mem_cons.mp hp with rfl | hp
  · exact .inl rfl
  · refine .inr ?_
    rcases List.mem_append.mp hp with hp | hp
    · obtain ⟨ar, har, rfl⟩ := Option.map_eq_some_iff.mp (Option.mem_toList.mp hp)
      exact ⟨ar, mem_archives.mpr ⟨lib, hlib, har⟩, rfl⟩
    · obtain ⟨part, hpart, hp⟩ := List.mem_flatten.mp hp
      obtain ⟨use, -, huse⟩ := Traversal.forall₂_exists_right (collectAll_eq_ok hr).flip hpart
      exact archive_of_mem_linkPaths hureqs huse hp

/-! ## Outputs of the phases -/

theorem object_mem_outputs {cf : CompileFilePlan} (hcf : cf ∈ plan.compilations)
    (hobject : cf.rules.syntaxOnly = false) : cf.objectFile tree env ∈ plan.outputs tree env := by
  unfold BuildPlan.outputs
  refine List.mem_append_left _ (List.mem_append_left _ (List.mem_map_of_mem ?_))
  exact List.mem_filter.mpr ⟨hcf, by rw [hobject]; rfl⟩

theorem archive_mem_outputs {ar : CreateArchivePlan} (har : ar ∈ plan.archives) :
    tree.fileAt (ar.outPath env) ∈ plan.outputs tree env := by
  unfold BuildPlan.outputs
  refine List.mem_append_left _ (List.mem_append_right _ ?_)
  exact List.mem_map_of_mem (f := fun ar : CreateArchivePlan => tree.fileAt (ar.outPath env)) har

theorem executable_mem_outputs {exe : LinkExecutablePlan} (hexe : exe ∈ plan.executables) :
    exe.outputFile tree env ∈ plan.outputs tree env := by
  unfold BuildPlan.outputs
  exact List.mem_append_right _ (List.mem_map_of_mem hexe)

/-! ## Each phase -/

theorem Settled.not_compiled {k : FileKey} (hk : Settled tree env plan disk disk' k)
    {compiles : List (Job FileKey (Option String))}
    (h : List.Forall₂ (fun cf job => CompileFilePlan.job tree env tools fuel cf = some (.ok job))
      plan.compilations compiles) : ∀ job ∈ compiles, job.target ≠ some k := by
  intro job hjob htarget
  obtain ⟨cf, hcf, hcfJob⟩ := Traversal.forall₂_exists_right h.flip hjob
  rw [target_compileJob hcfJob] at htarget
  split at htarget
  next => cases htarget
  next honly =>
    cases htarget
    exact hk.2 (object_mem_outputs hcf (by simpa using honly))

theorem Settled.not_archived {k : FileKey} (hk : Settled tree env plan disk disk' k) :
    ∀ job ∈ plan.archives.map (·.job tree env tools), job.target ≠ some k := by
  intro job hjob htarget
  obtain ⟨ar, har, rfl⟩ := List.mem_map.mp hjob
  cases htarget
  exact hk.2 (archive_mem_outputs har)

section

variable (hlinkable : ∀ lib ∈ plan.libraries, lib.Linkable)
  (hwrites : WritesOnce tree env.toBuildEnv plan) (harchives : ArchivesApart tree env plan)
  (hopens : OpenOnlyInputs tree env tools fuel plan disk disk')

include hwrites hopens

theorem selfContained_compiles {compiles : List (Job FileKey (Option String))}
    (h : List.Forall₂ (fun cf job => CompileFilePlan.job tree env tools fuel cf = some (.ok job))
      plan.compilations compiles) : SelfContained (Settled tree env plan disk disk') compiles disk := by
  have hreads : ∀ job ∈ compiles, ∀ k ∈ job.reads disk, Settled tree env plan disk disk' k := by
    intro job hjob
    obtain ⟨cf, hcf, hcfJob⟩ := Traversal.forall₂_exists_right h.flip hjob
    exact hopens.compiles cf hcf job hcfJob
  refine ⟨⟨?_, fun job hjob other hother k hk hread => ?_⟩, hreads⟩
  · refine targets_of_nodup h (fun cf job k hcf hk => ?_) hwrites.objects
    rw [target_compileJob hcf] at hk
    split at hk
    next => cases hk
    next => exact Option.some.inj hk
  · exact (hreads other hother k hread).not_compiled h job hjob hk

include hlinkable harchives

/-- The objects that an archive is made of are outputs of the compilations. -/
theorem selfContained_archives {d : Disk} (hd : ∀ k, Settled tree env plan disk disk' k → d k = disk k)
    {known : FileKey → Prop} (hsettled : ∀ k, Settled tree env plan disk disk' k → known k)
    (hobjects : ∀ cf ∈ plan.compilations, cf.rules.syntaxOnly = false →
      known (cf.objectFile tree env)) :
    SelfContained known (plan.archives.map (·.job tree env tools)) d := by
  have hcompiled : ∀ ar ∈ plan.archives, ∀ cf ∈ ar.compileFiles,
      cf ∈ plan.compilations ∧ cf.rules.syntaxOnly = false := by
    intro ar har cf hcf
    obtain ⟨lib, hlib, hsome⟩ := mem_archives.mp har
    have hfile : cf ∈ lib.fileCompilations := by
      rw [LibraryPlan.fileCompilations, hsome]
      exact hcf
    exact ⟨mem_compilations_of_archive hlib hfile, (hlinkable lib hlib).sources cf hfile⟩
  refine ⟨⟨?_, fun job hjob other hother k hk hread => ?_⟩, fun job hjob k hk => ?_⟩
  · refine targets_of_nodup (R := fun ar job => job = ar.job tree env tools) ?_ ?_ harchives.archives
    · rw [List.forall₂_map_right_iff, List.forall₂_same]
      exact fun _ _ => rfl
    · rintro ar job k rfl hk
      exact Option.some.inj hk
  · obtain ⟨ar, har, rfl⟩ := List.mem_map.mp hjob
    obtain ⟨ar', har', rfl⟩ := List.mem_map.mp hother
    cases hk
    rcases hopens.archives ar' har' d hd _ hread with hk | ⟨cf, hcf, heq⟩
    · exact hk.2 (archive_mem_outputs har)
    · exact (hwrites.apart cf (hcompiled ar' har' cf hcf).1).2 ar har heq.symm
  · obtain ⟨ar, har, rfl⟩ := List.mem_map.mp hjob
    rcases hopens.archives ar har d hd k hk with hk | ⟨cf, hcf, rfl⟩
    · exact hsettled k hk
    · exact hobjects cf (hcompiled ar har cf hcf).1 (hcompiled ar har cf hcf).2

/-- What an executable is linked from are outputs of the phases before. -/
theorem selfContained_links (hureqs : prepareUreqs tree plan env.toolchain env.outputRoot = .ok env.ureqs)
    {links : List (Job FileKey (Option String))}
    (h : List.Forall₂ (fun pair job => LinkExecutablePlan.job tree env tools fuel pair.2 pair.1 =
      some (.ok job)) plan.linkPairs links) {d : Disk}
    (hd : ∀ k, Settled tree env plan disk disk' k → d k = disk k) {known : FileKey → Prop}
    (hsettled : ∀ k, Settled tree env plan disk disk' k → known k)
    (hobjects : ∀ cf ∈ plan.compilations, cf.rules.syntaxOnly = false →
      known (cf.objectFile tree env))
    (hknown : ∀ ar ∈ plan.archives, known (tree.fileAt (ar.outPath env))) :
    SelfContained known links d := by
  have hreads : ∀ job ∈ links, ∀ k ∈ job.reads d, Settled tree env plan disk disk' k ∨
      (∃ cf ∈ plan.compilations, cf.rules.syntaxOnly = false ∧ k = cf.objectFile tree env) ∨
        ∃ ar ∈ plan.archives, k = tree.fileAt (ar.outPath env) := by
    intro job hjob k hk
    obtain ⟨⟨lib, exe⟩, hpair, hpairJob⟩ := Traversal.forall₂_exists_right h.flip hjob
    obtain ⟨hlib, hexe⟩ := mem_linkPairs.mp hpair
    obtain ⟨-, inputs, hinputs⟩ := target_linkJob hpairJob
    rcases hopens.links lib exe hpair inputs job hinputs hpairJob d hd k hk with hk | ⟨p, hp, rfl⟩
    · exact .inl hk
    · rcases mem_inputs hureqs hlib hinputs hp with rfl | ⟨ar, har, rfl⟩
      · exact .inr (.inl ⟨exe.mainCompile, mainCompile_mem_compilations hlib hexe,
          (hlinkable lib hlib).mains exe hexe, rfl⟩)
      · exact .inr (.inr ⟨ar, har, rfl⟩)
  refine ⟨⟨?_, fun job hjob other hother k hk hread => ?_⟩, fun job hjob k hk => ?_⟩
  · have hnodup : (plan.linkPairs.map fun pair => pair.2.outputFile tree env).Nodup := by
      have hexecutables := hwrites.executables
      rwa [← map_snd_linkPairs, List.map_map] at hexecutables
    refine targets_of_nodup h (fun pair job k hpair hk => ?_) hnodup
    rw [(target_linkJob hpair).1] at hk
    exact Option.some.inj hk
  · obtain ⟨⟨lib, exe⟩, hpair, hpairJob⟩ := Traversal.forall₂_exists_right h.flip hjob
    obtain ⟨hlib, hexe⟩ := mem_linkPairs.mp hpair
    have hexecutable : exe ∈ plan.executables := List.mem_flatMap.mpr ⟨lib, hlib, hexe⟩
    rw [(target_linkJob hpairJob).1] at hk
    cases hk
    rcases hreads other hother _ hread with hk | ⟨cf, hcf, -, heq⟩ | ⟨ar, har, heq⟩
    · exact hk.2 (executable_mem_outputs hexecutable)
    · exact (hwrites.apart cf hcf).1 exe hexecutable heq.symm
    · exact harchives.executables ar har exe hexecutable heq.symm
  · rcases hreads job hjob k hk with hk | ⟨cf, hcf, honly, rfl⟩ | ⟨ar, har, rfl⟩
    · exact hsettled k hk
    · exact hobjects cf hcf honly
    · exact hknown ar har

end

/-! ## Whole builds -/

theorem written_of_mem_outputs {compiles links : List (Job FileKey (Option String))}
    (hcompiles : List.Forall₂ (fun cf job => CompileFilePlan.job tree env tools fuel cf =
      some (.ok job)) plan.compilations compiles)
    (hlinks : List.Forall₂ (fun pair job => LinkExecutablePlan.job tree env tools fuel pair.2 pair.1 =
      some (.ok job)) plan.linkPairs links) {k : FileKey} (hk : k ∈ plan.outputs tree env) :
    Written compiles k ∨ Written (plan.archives.map (·.job tree env tools)) k ∨ Written links k := by
  unfold BuildPlan.outputs at hk
  rcases List.mem_append.mp hk with hk | hk
  · rcases List.mem_append.mp hk with hk | hk
    · obtain ⟨cf, hcf, rfl⟩ := List.mem_map.mp hk
      obtain ⟨hcf, honly⟩ := List.mem_filter.mp hcf
      obtain ⟨job, hjob, h⟩ := Traversal.forall₂_exists_right hcompiles hcf
      refine .inl ⟨job, hjob, ?_⟩
      rw [target_compileJob h, if_neg (by simpa using honly)]
    · obtain ⟨ar, har, rfl⟩ := List.mem_map.mp hk
      exact .inr (.inl ⟨_, List.mem_map_of_mem har, rfl⟩)
  · obtain ⟨exe, hexe, rfl⟩ := List.mem_map.mp hk
    rw [← map_snd_linkPairs] at hexe
    obtain ⟨pair, hpair, rfl⟩ := List.mem_map.mp hexe
    obtain ⟨job, hjob, h⟩ := Traversal.forall₂_exists_right hlinks hpair
    exact .inr (.inr ⟨job, hjob, (target_linkJob h).1⟩)

/-- What each phase reads is settled or was written in an earlier phase. -/
theorem ordered_phases {V S : Type} {sdists : List (SdistTarget V S)}
    (hplan : prepareBuildPlan tree sdists = .ok plan)
    (hureqs : prepareUreqs tree plan env.toolchain env.outputRoot = .ok env.ureqs)
    (hwrites : WritesOnce tree env.toBuildEnv plan) (harchives : ArchivesApart tree env plan)
    (hopens : OpenOnlyInputs tree env tools fuel plan disk disk')
    {compiles links : List (Job FileKey (Option String))}
    (hcompileJobs : plan.compileJobs tree env tools fuel = some (.ok compiles))
    (hlinkJobs : plan.linkJobs tree env tools fuel = some (.ok links)) :
    Ordered (Settled tree env plan disk disk')
      [compiles, plan.archives.map (·.job tree env tools), links] disk := by
  have hlinkable := linkable_of_prepareBuildPlan hplan
  have hcompiles := compileJobs_eq_ok hcompileJobs
  refine ⟨selfContained_compiles hwrites hopens hcompiles, fun d₁ hd₁ => ?_⟩
  have hobjects : ∀ cf ∈ plan.compilations, cf.rules.syntaxOnly = false →
      Written compiles (cf.objectFile tree env) := by
    intro cf hcf honly
    obtain ⟨job, hjob, h⟩ := Traversal.forall₂_exists_right hcompiles hcf
    exact ⟨job, hjob, by rw [target_compileJob h, honly]; rfl⟩
  have hsame : ∀ k, Settled tree env plan disk disk' k → d₁ k = disk k := fun k hk =>
    hd₁.others k (hk.not_compiled hcompiles)
  refine ⟨selfContained_archives hlinkable hwrites harchives hopens hsame (fun _ => .inl)
    fun cf hcf honly => .inr (hobjects cf hcf honly), fun d₂ hd₂ => ?_⟩
  have hsame₂ : ∀ k, Settled tree env plan disk disk' k → d₂ k = disk k := fun k hk =>
    (hd₂.others k hk.not_archived).trans (hsame k hk)
  exact ⟨selfContained_links hlinkable hwrites harchives hopens hureqs (linkJobs_eq_ok hlinkJobs)
    hsame₂ (fun _ hk => .inl (.inl hk)) (fun cf hcf honly => .inl (.inr (hobjects cf hcf honly)))
    fun ar har => .inr ⟨_, List.mem_map_of_mem har, rfl⟩, fun _ _ => trivial⟩

/-- A compile that is skipped would leave on the disk what is there. -/
def SkipsUpToDate (tree : FileTree) (env : CompileEnv) (tools : Tools) (fuel : Nat)
    (plan : BuildPlan) (needsRecompile : CompileFilePlan → Bool) (disk : Disk) : Prop :=
  ∀ cf ∈ plan.compilations, needsRecompile cf = false →
    ∀ job, cf.job tree env tools fuel = some (.ok job) →
      ∃ v, job.make disk = some v ∧ ∀ k, job.target = some k → disk k = v

theorem SkipsUpToDate.upToDate {needsRecompile : CompileFilePlan → Bool}
    (h : SkipsUpToDate tree env tools fuel plan needsRecompile disk)
    {compiles : List (Job FileKey (Option String))}
    (hcompiles : plan.compileJobs tree env tools fuel = some (.ok compiles)) :
    UpToDate compiles (plan.recompiled needsRecompile compiles) disk := by
  intro job hjob hskip
  obtain ⟨cf, hcf, hcfJob, hneeds⟩ := skipped_of_not_mem (compileJobs_eq_ok hcompiles) hjob hskip
  exact h cf hcf hneeds job hcfJob

/-- When a build ends in some order of its steps, then it ends in every order and from every
disk with the same sources, and always leaves the same objects, archives and executables,
whatever earlier builds have left in their place. Compiles may be skipped, and others in the
one build than in the other, as long as they would leave what is there. -/
theorem build_deterministic {V S : Type} {sdists : List (SdistTarget V S)}
    (hplan : prepareBuildPlan tree sdists = .ok plan)
    (hureqs : prepareUreqs tree plan env.toolchain env.outputRoot = .ok env.ureqs)
    (hwrites : WritesOnce tree env.toBuildEnv plan) (harchives : ArchivesApart tree env plan)
    (hopens : OpenOnlyInputs tree env tools fuel plan disk disk')
    {needsRecompile needsRecompile' : CompileFilePlan → Bool}
    (hskips : SkipsUpToDate tree env tools fuel plan needsRecompile disk)
    (hskips' : SkipsUpToDate tree env tools fuel plan needsRecompile' disk')
    {phases phases' : List (List (Job FileKey (Option String)))}
    (hphases : plan.phases tree env tools fuel needsRecompile = some (.ok phases))
    (hphases' : plan.phases tree env tools fuel needsRecompile' = some (.ok phases')) {d : Disk}
    (hrun : Runs phases disk d) :
    (∃ d', Runs phases' disk' d') ∧
      ∀ d', Runs phases' disk' d' → ∀ k ∈ plan.outputs tree env, d' k = d k := by
  obtain ⟨compiles, links, hcompileJobs, hlinkJobs, rfl⟩ := phases_eq_ok hphases
  obtain ⟨compiles', links', hcompileJobs', hlinkJobs', rfl⟩ := phases_eq_ok hphases'
  cases hcompileJobs.symm.trans hcompileJobs'
  cases hlinkJobs.symm.trans hlinkJobs'
  have hcompiles := compileJobs_eq_ok hcompileJobs
  have hordered := ordered_phases hplan hureqs hwrites harchives hopens hcompileJobs hlinkJobs
  obtain ⟨hexists, hagree⟩ := hrun.deterministic_of_due hordered (fun k hk => hk.1)
    (recompiled_sublist plan _ hcompiles.length_eq) (recompiled_sublist plan _ hcompiles.length_eq)
    (hskips.upToDate hcompileJobs) (hskips'.upToDate hcompileJobs)
  refine ⟨hexists, fun d' hrun' k hk => hagree d' hrun' k (.inr ?_)⟩
  rcases written_of_mem_outputs hcompiles (linkJobs_eq_ok hlinkJobs) hk with h | h | h
  · exact ⟨_, by simp, h⟩
  · exact ⟨_, by simp, h⟩
  · exact ⟨_, by simp, h⟩

end

/-! ## Two libraries and an app -/

namespace TwoLibraries

def tree : FileTree where
  currentPath := ["proj"]
  directories := []
  files :=
    [["proj", "core", "src", "core.cpp"], ["proj", "app", "src", "app.cpp"],
     ["proj", "app", "src", "run.main.cpp"]]
  nodup := by decide
  plain := by decide

/-- The library of the app uses the other one. -/
def target : SdistTarget ℕ ℕ :=
  projectTarget [libraryAt "core" "core", { libraryAt "app" "app" with intraUsing := [⟨"core"⟩] }]

def plan : BuildPlan := (prepareBuildPlan tree [target]).toOption.getD ⟨[]⟩

def outputRoot : Path := .ofString "/proj/_build"

def ureqs : UsageRequirementMap :=
  (prepareUreqs tree plan gnuToolchain outputRoot).toOption.getD .empty

def env : CompileEnv := { ChangedDefinition.env with outputRoot := outputRoot, ureqs := ureqs }

/-- The files among the arguments of a command. -/
def fileArguments : List String → List String
  | [] => []
  | [arg] => if arg.startsWith "-" then [] else [arg]
  | arg :: next :: rest =>
    if arg ∈ ["-I", "-isystem", "-MF", "-MQ"] then fileArguments rest
    else if arg.startsWith "-" then fileArguments (next :: rest)
    else arg :: fileArguments (next :: rest)

def opened (cwd : Path) (command : List String) : List FileKey :=
  (fileArguments (command.drop 1)).map fun arg => tree.fileAt (cwd / .ofString arg)

/-- Programs that put the files of their arguments together. -/
def tools : Tools where
  opens cwd command _ := opened cwd command
  run cwd command disk := some (String.join ((opened cwd command).map fun k => (disk k).getD ""))
  congr cwd command disk disk' h := by
    refine ⟨rfl, ?_⟩
    rw [List.map_congr_left fun k hk => congrArg (Option.getD · "") (h k hk)]

def coreSource : FileKey := (["proj", "core", "src"], "core.cpp")

def coreArchive : FileKey := (["proj", "_build", "core"], "libcore.a")

def coreObject : FileKey := (["proj", "_build", "core", "obj"], "core.cpp.o")

def clean : Disk := fun k => if k = coreSource then some "core" else none

/-- An earlier build has left an object, and another archive. -/
def stale : Disk := fun k =>
  if k = coreArchive then some "old" else if k = coreObject then some "core" else clean k

/-- The object that is there is not compiled again. -/
def allButCore (cf : CompileFilePlan) : Bool := cf.objectFile tree env ≠ coreObject

/-- The sources, and what the archiver's word of options would be as a file. -/
def settled : List FileKey :=
  [coreSource, (["proj", "app", "src"], "app.cpp"), (["proj", "app", "src"], "run.main.cpp"),
    (["proj", "_build"], "rcs")]

/-- What is computed of the example: it is planned, and its outputs are apart. -/
theorem computed :
    (prepareBuildPlan tree [target]).toOption.isSome = true ∧
    (prepareUreqs tree plan env.toolchain env.outputRoot).toOption.isSome = true ∧
    (plan.phases tree env tools 3 allButCore).any (·.toOption.isSome) = true ∧
    (plan.phases tree env tools 3 fun _ => true).any (·.toOption.isSome) = true ∧
    WritesOnce tree env.toBuildEnv plan ∧
    (plan.archives.map fun ar => tree.fileAt (ar.outPath env)).Nodup ∧
    (∀ ar ∈ plan.archives, ∀ exe ∈ plan.executables,
      tree.fileAt (ar.outPath env) ≠ exe.outputFile tree env) ∧
    ∀ k ∈ settled, clean k = stale k ∧ k ∉ plan.outputs tree env := by
  decide +kernel

def compileOpens (cf : CompileFilePlan) : List FileKey :=
  match cf.generateCompileCommand tree env 3 with
  | some (.ok info) => opened (currentPath tree) info.command
  | _ => []

def archiveOpens (ar : CreateArchivePlan) : List FileKey :=
  opened env.outputRoot (env.tc.createArchiveCommand
    ⟨ar.compileFiles.map fun cf => cf.calcObjectFilePath tree env.toBuildEnv, ar.outPath env⟩
    env.outputRoot)

def linkInputs (pair : LibraryPlan × LinkExecutablePlan) : List Path :=
  match pair.2.inputs tree env 3 pair.1 with
  | some (.ok inputs) => inputs
  | _ => []

def linkOpens (pair : LibraryPlan × LinkExecutablePlan) : List FileKey :=
  opened (currentPath tree) (env.tc.createLinkExecutableCommand
    ⟨linkInputs pair, pair.2.calcExecutablePath env.toBuildEnv⟩ (currentPath tree))

/-- Each command of the example names its inputs and settled files. -/
theorem computed_commands :
    (∀ cf ∈ plan.compilations, ∀ k ∈ compileOpens cf, k ∈ settled) ∧
    (∀ ar ∈ plan.archives, ∀ k ∈ archiveOpens ar, k ≠ tree.fileAt (ar.outPath env) →
      k ∈ settled ∨ ∃ cf ∈ ar.compileFiles, k = cf.objectFile tree env) ∧
    ∀ pair ∈ plan.linkPairs, ∀ k ∈ linkOpens pair, ∃ p ∈ linkInputs pair, k = tree.fileAt p := by
  decide +kernel

theorem prepareBuildPlan_plan : prepareBuildPlan tree [target] = .ok plan :=
  eq_ok_getD computed.1 _

theorem prepareUreqs_ureqs : prepareUreqs tree plan env.toolchain env.outputRoot = .ok env.ureqs :=
  eq_ok_getD computed.2.1 .empty

theorem exists_phases {needsRecompile : CompileFilePlan → Bool}
    (h : (plan.phases tree env tools 3 needsRecompile).any (·.toOption.isSome) = true) :
    ∃ phases, plan.phases tree env tools 3 needsRecompile = some (.ok phases) := by
  obtain ⟨r, hr, hok⟩ := (Option.any_eq_true _ _).mp h
  cases r with
  | error e => cases hok
  | ok phases => exact ⟨phases, hr⟩

theorem writesOnce : WritesOnce tree env.toBuildEnv plan := computed.2.2.2.2.1

theorem archivesApart : ArchivesApart tree env plan := by
  obtain ⟨-, -, -, -, -, harchives, hexecutables, -⟩ := computed
  exact ⟨harchives, hexecutables⟩

theorem openOnlyInputs : OpenOnlyInputs tree env tools 3 plan stale clean := by
  obtain ⟨-, -, -, -, -, -, -, hsettled⟩ := computed
  obtain ⟨hcompiles, harchives, hlinks⟩ := computed_commands
  refine ⟨fun cf hcf job hjob k hk => ?_, fun ar har d _ k hk => ?_,
    fun lib exe hpair inputs job hinputs hjob d _ k hk => ?_⟩
  · obtain ⟨r, hr, hjob⟩ := Option.map_eq_some_iff.mp hjob
    obtain ⟨info, rfl, rfl⟩ := map_eq_ok.mp hjob
    have hopens : compileOpens cf = opened (currentPath tree) info.command := by
      rw [compileOpens, hr]
    exact hsettled k (hcompiles cf hcf k (hopens ▸ (List.mem_filter.mp hk).1))
  · obtain ⟨hk, hout⟩ := List.mem_filter.mp hk
    exact (harchives ar har k hk fun heq => by simp [heq] at hout).imp_left (hsettled k)
  · obtain ⟨r, hr, hjob⟩ := Option.map_eq_some_iff.mp hjob
    obtain ⟨inputs', rfl, rfl⟩ := map_eq_ok.mp hjob
    cases hinputs.symm.trans hr
    have hgiven : linkInputs (lib, exe) = inputs := by
      rw [linkInputs, hr]
    have hmem : k ∈ linkOpens (lib, exe) := by
      rw [linkOpens, hgiven]
      exact (List.mem_filter.mp hk).1
    exact .inr (hgiven ▸ hlinks (lib, exe) hpair k hmem)

def makesOf (cf : CompileFilePlan) : Option (Option String) :=
  match cf.job tree env tools 3 with
  | some (.ok job) => job.make stale
  | _ => none

/-- The object that is there is what its compile would write. -/
theorem computed_skips : ∀ cf ∈ plan.compilations, allButCore cf = false →
    makesOf cf = some (stale (cf.objectFile tree env)) := by
  decide +kernel

theorem skipsUpToDate : SkipsUpToDate tree env tools 3 plan allButCore stale := by
  intro cf hcf hneeds job hjob
  have hmake := computed_skips cf hcf hneeds
  rw [makesOf, hjob] at hmake
  refine ⟨_, hmake, fun k hk => ?_⟩
  rw [target_compileJob hjob] at hk
  split at hk
  next => cases hk
  next => rw [Option.some.inj hk]

/-- The build that skips a compile ends. -/
theorem exists_runs_stale {phases : List (List (Job FileKey (Option String)))}
    (h : plan.phases tree env tools 3 allButCore = some (.ok phases)) : ∃ d, Runs phases stale d := by
  obtain ⟨compiles, links, hcompiles, hlinks, rfl⟩ := phases_eq_ok h
  have hordered := ordered_phases prepareBuildPlan_plan prepareUreqs_ureqs writesOnce archivesApart
    openOnlyInputs hcompiles hlinks
  have hjobs : ∀ jobs ∈ [compiles, plan.archives.map (·.job tree env tools), links],
      ∀ job ∈ jobs, ∀ cells, ∃ v, job.make cells = some v := by
    have hmake : ∀ job, (∃ cwd command prep target, job = tools.job cwd command prep target) →
        ∀ cells, ∃ v, job.make cells = some v := by
      rintro _ ⟨cwd, command, prep, target, rfl⟩ cells
      exact ⟨_, rfl⟩
    simp only [List.forall_mem_cons, List.not_mem_nil, false_imp_iff, implies_true, and_true]
    refine ⟨fun job hjob => hmake job (eq_job_of_compileJobs hcompiles job hjob), fun job hjob => ?_,
      fun job hjob => hmake job (eq_job_of_linkJobs hlinks job hjob)⟩
    obtain ⟨ar, -, rfl⟩ := List.mem_map.mp hjob
    exact hmake _ ⟨_, _, _, _, rfl⟩
  obtain ⟨d, hd⟩ := exists_runs hordered hjobs
  exact (hd.deterministic_of_due hordered (fun _ _ => rfl) (List.Sublist.refl _)
    (recompiled_sublist plan _ (compileJobs_eq_ok hcompiles).length_eq)
    (fun job hjob hskip => absurd hjob hskip) (skipsUpToDate.upToDate hcompiles)).1

/-- A build that skips a compile, and one from scratch. -/
theorem build_deterministic_clean : ∃ phases phases' d d',
    plan.phases tree env tools 3 allButCore = some (.ok phases) ∧
    plan.phases tree env tools 3 (fun _ => true) = some (.ok phases') ∧
      Runs phases stale d ∧ Runs phases' clean d' ∧ ∀ k ∈ plan.outputs tree env, d' k = d k := by
  obtain ⟨phases, hphases⟩ := exists_phases computed.2.2.1
  obtain ⟨phases', hphases'⟩ := exists_phases computed.2.2.2.1
  obtain ⟨d, hd⟩ := exists_runs_stale hphases
  have hall : SkipsUpToDate tree env tools 3 plan (fun _ => true) clean := fun _ _ => nofun
  obtain ⟨⟨d', hd'⟩, hagree⟩ := build_deterministic prepareBuildPlan_plan prepareUreqs_ureqs
    writesOnce archivesApart openOnlyInputs skipsUpToDate hall hphases hphases' hd
  exact ⟨phases, phases', d, d', hphases, hphases', hd, hd', hagree d' hd'⟩

end TwoLibraries

end Bpt.Plan
