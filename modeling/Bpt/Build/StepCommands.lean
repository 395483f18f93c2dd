-- SUMMARY: The commands of archives and links name the files that the steps before them have written.
import Bpt.Build.LinkLine
import Bpt.Util.NormalizePath

/-!
# Commands that read what other steps write

An archive is made in the output directory, an executable is linked in the working
directory, and the commands spell their files from there. Each spelling has to lead to the
file that an earlier step has written.
-/

namespace Bpt

open Bpt.Path

/-! ## Legible paths -/

namespace Path

theorem legible_parentPath {p : Path} (hp : p.Legible) : p.parentPath.Legible := by
  unfold parentPath
  split
  next => exact ⟨hp.names, nofun⟩
  next => exact ⟨fun name hname => hp.names name (List.mem_of_mem_dropLast hname), nofun⟩

theorem legible_ofNames {names : List String} (h : ∀ name ∈ names, PlainName name) :
    Legible ⟨false, names, false⟩ where
  names name hname := ⟨(h name hname).1, (h name hname).2.2.2⟩
  trailing := nofun

theorem legible_replaceFilename {p q : Path} (hp : p.Legible) (hq : q.Legible) :
    (p.replaceFilename q).Legible := by
  unfold replaceFilename
  refine Plan.legible_div ?_ hq
  split
  next => exact hp
  next =>
    exact ⟨fun name hname => hp.names name (List.mem_of_mem_dropLast hname),
      fun htrailing => of_decide_eq_true htrailing⟩

theorem legible_lexicallyRelative {p base : Path} (hp : p.Legible) :
    (p.lexicallyRelative base).Legible := by
  obtain ⟨common, hrest, -⟩ := exists_common p.names base.names
  unfold lexicallyRelative
  dsimp only
  split
  next => exact ⟨by decide, nofun⟩
  next =>
    refine ⟨fun name hname => ?_, nofun⟩
    rcases List.mem_append.mp hname with hname | hname
    · rw [List.eq_of_mem_replicate hname]
      decide
    · exact hp.names name (hrest ▸ List.mem_append_right _ hname)

end Path

/-! ## Spelled files -/

namespace FileTree

variable {tree : FileTree}

theorem resolve_of_root {p : Path} (h : p.root = true) : tree.resolve p = p.lexicallyNormal.names := by
  rw [resolve_eq, if_pos h, names_lexicallyNormal h]

/-- A text that spells a path leads to the same file. -/
theorem resolve_of_spells {cwd p : Path} (hcwd : cwd.root = true) {text : String}
    (h : Spells cwd text p) : tree.resolve (cwd / ofString text) = tree.resolve p := by
  have hroot : (cwd / ofString text).root = true := by
    rw [div_root, hcwd]
    rfl
  rw [resolve_of_root hroot, resolve_of_root (h.same.root.symm.trans hroot), h.same.names]

end FileTree

namespace Plan

open Fallible UsageRequirementMap

/-- The command is its template with texts that lead from `cwd` to the inputs, in order, and
to the output. -/
def NamesFiles (tree : FileTree) (cwd : Path) (template : List String) (inputs : List Path)
    (output : Path) (command : List String) : Prop :=
  ∃ ins out,
    List.Forall₂ (fun text p => tree.resolve (cwd / ofString text) = tree.resolve p) ins inputs ∧
    tree.resolve (cwd / ofString out) = tree.resolve output ∧
    command = template.flatMap fun arg =>
      if arg = "[in]" then ins else [Bpt.Toolchain.replaceIn arg "[out]" out]

theorem namesFiles_of_names {tree : FileTree} {cwd : Path} (hcwd : cwd.root = true)
    {template : List String} {inputs : List Path} {output : Path} {command : List String}
    (h : Bpt.Toolchain.Names cwd template inputs output command) :
    NamesFiles tree cwd template inputs output command := by
  obtain ⟨ins, out, hins, hout, hcommand⟩ := h
  exact ⟨ins, out, hins.imp fun _ _ hspells => FileTree.resolve_of_spells hcwd hspells,
    FileTree.resolve_of_spells hcwd hout, hcommand⟩

/-! ## Legible plans -/

/-- All paths of a compilation can be spelled. -/
structure CompileFilePlan.Legible (cf : CompileFilePlan) : Prop where
  path : cf.source.path.Legible
  basisPath : cf.source.basisPath.Legible
  subdir : cf.subdir.Legible

structure LibraryPlan.Legible (lib : LibraryPlan) : Prop where
  compiles : ∀ cf ∈ lib.fileCompilations, cf.Legible
  archive : ∀ ar, lib.createArchive = some ar → ar.subdir.Legible
  mains : ∀ exe ∈ lib.linkExes, exe.mainCompile.Legible
  exes : ∀ exe ∈ lib.linkExes, exe.outSubdir.Legible

/-- The directories that a build is given can be spelled, and its output directory is absolute. -/
structure SpellableBuild {V S : Type} (tree : FileTree) (env : CompileEnv)
    (sdists : List (SdistTarget V S)) : Prop where
  currentPath : ∀ name ∈ tree.currentPath, PlainName name
  outputRoot : env.outputRoot.IsWorkingDir
  outputRoot_legible : env.outputRoot.Legible
  sdists : ∀ sdt ∈ sdists, sdt.sd.path.Legible ∧ sdt.params.subdir.Legible ∧
    ∀ lib ∈ sdt.sd.pkg.libraries, lib.path.Legible

section

variable {tree : FileTree} {env : CompileEnv}

theorem legible_subdirectory {name : String} (h : PlainName name) : (subdirectory name).Legible := by
  rw [subdirectory_eq h.1]
  exact legible_ofNames fun n hn => List.mem_singleton.mp hn ▸ h

theorem legible_of_mem_sourcesOf {dir : Path} (hdir : dir.Legible) {sources : List SourceFile}
    (h : sourcesOf tree dir = .ok sources) {sf : SourceFile} (hsf : sf ∈ sources) :
    sf.path.Legible ∧ sf.basisPath.Legible := by
  unfold sourcesOf at h
  split at h
  next => cases h
  next =>
    split at h
    next =>
      cases h
      obtain ⟨rel, hrel, hfrom⟩ := List.mem_filterMap.mp hsf
      obtain ⟨kind, -, rfl⟩ := Option.map_eq_some_iff.mp hfrom
      exact ⟨legible_div hdir (legible_ofNames (FileTree.plain_of_mem_below hrel)), hdir⟩
    next =>
      cases h
      cases hsf

theorem legible_relative (h : ∀ name ∈ tree.currentPath, PlainName name) {p base : Path}
    (hp : p.Legible) : (tree.relative p base).Legible :=
  legible_lexicallyRelative (legible_weaklyCanonical h hp)

theorem subdir_of_archived {name qualName : String} {subdir : Path} {files : List CompileFilePlan}
    {ar : CreateArchivePlan}
    (h : (if files = [] then none else some (CreateArchivePlan.mk name qualName subdir files)) =
      some ar) : ar.subdir = subdir := by
  split at h
  next => cases h
  next =>
    cases h
    rfl

theorem legible_of_create {V S : Type} {pkgBase : Path} {pkg : Crs.PackageInfo V S}
    {lib : Crs.LibraryInfo S} {params : LibraryBuildParams} {plan : LibraryPlan}
    (hcwd : ∀ name ∈ tree.currentPath, PlainName name) (hbase : pkgBase.Legible)
    (hlib : lib.path.Legible) (hsubdir : params.outSubdir.Legible)
    (h : LibraryPlan.create tree pkgBase pkg lib params = .ok plan) : plan.Legible := by
  simp only [LibraryPlan.create, bind_eq_ok] at h
  obtain ⟨sources, hsources, _, -, _, -, _, -, h⟩ := h
  cases h
  have hsource : ∀ sf ∈ sources, sf.path.Legible ∧ sf.basisPath.Legible := fun sf hsf =>
    legible_of_mem_sourcesOf
      (legible_div (legible_div hbase hlib) (legible_subdirectory (by decide))) hsources hsf
  have hobj : (params.outSubdir / subdirectory "obj").Legible :=
    legible_div hsubdir (legible_subdirectory (by decide))
  refine ⟨fun cf hcf => ?_, fun ar har => ?_, fun exe hexe => ?_, fun exe hexe => ?_⟩
  · obtain ⟨sf, hsf, rfl⟩ := List.mem_map.mp (mem_of_mem_archived hcf)
    obtain ⟨hpath, hbasis⟩ := hsource sf (List.mem_of_mem_filter hsf)
    exact ⟨hpath, hbasis, hobj⟩
  · rw [subdir_of_archived har]
    exact hsubdir
  · obtain ⟨sf, hsf, rfl⟩ := List.mem_map.mp hexe
    have hmem := List.mem_of_mem_filter hsf
    obtain ⟨hpath, hbasis⟩ : sf.path.Legible ∧ sf.basisPath.Legible := by
      rcases List.mem_append.mp hmem with hmem | hmem
      · exact hsource sf (List.mem_of_mem_filter hmem)
      · exact hsource sf (List.mem_of_mem_filter hmem)
    exact ⟨hpath, hbasis, hobj⟩
  · obtain ⟨sf, hsf, rfl⟩ := List.mem_map.mp hexe
    have hmem := List.mem_of_mem_filter hsf
    obtain ⟨hpath, -⟩ : sf.path.Legible ∧ sf.basisPath.Legible := by
      rcases List.mem_append.mp hmem with hmem | hmem
      · exact hsource sf (List.mem_of_mem_filter hmem)
      · exact hsource sf (List.mem_of_mem_filter hmem)
    refine legible_div ?_ (legible_parentPath (legible_relative hcwd hpath))
    split
    · exact legible_div hsubdir (legible_subdirectory (by decide))
    · exact hsubdir

theorem legible_of_prepareBuildPlan {V S : Type} {sdists : List (SdistTarget V S)} {plan : BuildPlan}
    (hspell : SpellableBuild tree env sdists) (h : prepareBuildPlan tree sdists = .ok plan) :
    ∀ lib ∈ plan.libraries, lib.Legible := by
  unfold prepareBuildPlan at h
  obtain ⟨packages, hpackages, hplan⟩ := bind_eq_ok.mp h
  cases hplan
  intro lib hlib
  obtain ⟨package, hpackage, hlib⟩ := List.mem_flatMap.mp hlib
  obtain ⟨sdt, hsdt, hone⟩ := exists_mem_of_mem_mapM hpackages hpackage
  obtain ⟨hpath, hsubdir, hlibs⟩ := hspell.sdists sdt hsdt
  unfold prepareOne at hone
  obtain ⟨libraries, hlibraries, hone⟩ := bind_eq_ok.mp hone
  cases hone
  obtain ⟨info, hinfo, hprepare⟩ := exists_mem_of_mem_mapM hlibraries hlib
  unfold prepareLibrary at hprepare
  split at hprepare
  next => cases hprepare
  next outSubdir hnormal =>
    exact legible_of_create hspell.currentPath hpath (hlibs info hinfo)
      (legible_normalizePath (legible_div hsubdir (hlibs info hinfo)) hnormal) hprepare

/-! ## Absolute outputs -/

theorem absolute_object (hcwd : ∀ name ∈ tree.currentPath, PlainName name)
    (houtput : env.outputRoot.Legible) {cf : CompileFilePlan} (h : cf.Legible) :
    (cf.calcObjectFilePath tree env.toBuildEnv).root = true ∧
      (cf.calcObjectFilePath tree env.toBuildEnv).Legible := by
  refine ⟨root_weaklyCanonical _, legible_weaklyCanonical hcwd ?_⟩
  exact legible_replaceFilename
    (legible_div (legible_div houtput h.subdir) (legible_relative hcwd h.path)) (legible_ofString _)

theorem absolute_div {base p : Path} (hbase : base.root = true) (hlegible : base.Legible)
    (hp : p.Legible) : (base / p).root = true ∧ (base / p).Legible := by
  refine ⟨?_, legible_div hlegible hp⟩
  rw [div_root, hbase]
  rfl

variable {V S : Type} {sdists : List (SdistTarget V S)} {plan : BuildPlan}
  (hspell : SpellableBuild tree env sdists) (hplan : prepareBuildPlan tree sdists = .ok plan)

include hspell hplan

theorem absolute_outPath {ar : CreateArchivePlan} (har : ar ∈ plan.archives) :
    (ar.outPath env).root = true ∧ (ar.outPath env).Legible := by
  obtain ⟨lib, hlib, hcreate⟩ := mem_archives.mp har
  have hlegible := (legible_of_prepareBuildPlan hspell hplan lib hlib).archive ar hcreate
  exact absolute_div hspell.outputRoot.root hspell.outputRoot_legible
    (legible_div hlegible (legible_ofString _))

/-- The commands of a plan name what its other steps write: that of an archive the objects of
its library, and that of an executable its object and the archives that it is linked with. -/
theorem commands_name_outputs {fuel : Nat}
    (hureqs : prepareUreqs tree plan env.toolchain env.outputRoot = .ok env.ureqs) :
    (∀ ar ∈ plan.archives,
      NamesFiles tree env.outputRoot env.tc.linkArchive
        (ar.compileFiles.map fun cf => cf.calcObjectFilePath tree env.toBuildEnv) (ar.outPath env)
        (env.tc.createArchiveCommand
          ⟨ar.compileFiles.map fun cf => cf.calcObjectFilePath tree env.toBuildEnv, ar.outPath env⟩
          env.outputRoot)) ∧
    ∀ lib exe inputs, (lib, exe) ∈ plan.linkPairs → exe.inputs tree env fuel lib = some (.ok inputs) →
      NamesFiles tree (currentPath tree) env.tc.linkExe inputs (exe.calcExecutablePath env.toBuildEnv)
        (env.tc.createLinkExecutableCommand ⟨inputs, exe.calcExecutablePath env.toBuildEnv⟩
          (currentPath tree)) := by
  have hlegible := legible_of_prepareBuildPlan hspell hplan
  have hobject : ∀ cf : CompileFilePlan, cf.Legible →
      (cf.calcObjectFilePath tree env.toBuildEnv).root = true ∧
        (cf.calcObjectFilePath tree env.toBuildEnv).Legible := fun cf hcf =>
    absolute_object hspell.currentPath hspell.outputRoot_legible hcf
  have hcwd := isWorkingDir_currentPath hspell.currentPath
  refine ⟨fun ar har => ?_, fun lib exe inputs hpair hinputs => ?_⟩
  · obtain ⟨lib, hlib, hcreate⟩ := mem_archives.mp har
    apply namesFiles_of_names hspell.outputRoot.root
    apply Bpt.Toolchain.names_expandFiles hspell.outputRoot
    refine List.forall_mem_cons.mpr ⟨absolute_outPath hspell hplan har, fun p hp => ?_⟩
    obtain ⟨cf, hcf, rfl⟩ := List.mem_map.mp hp
    refine hobject cf ((hlegible lib hlib).compiles cf ?_)
    rw [LibraryPlan.fileCompilations, hcreate]
    exact hcf
  · obtain ⟨hlib, hexe⟩ := mem_linkPairs.mp hpair
    apply namesFiles_of_names hcwd.root
    apply Bpt.Toolchain.names_expandFiles hcwd
    refine List.forall_mem_cons.mpr ⟨?_, fun p hp => ?_⟩
    · have hdir := absolute_div hspell.outputRoot.root hspell.outputRoot_legible
        ((hlegible lib hlib).exes exe hexe)
      exact absolute_div hdir.1 hdir.2 (legible_ofString _)
    · rcases mem_inputs hureqs hlib hinputs hp with rfl | ⟨ar, har, rfl⟩
      · exact hobject exe.mainCompile ((hlegible lib hlib).mains exe hexe)
      · exact absolute_outPath hspell hplan har

end

namespace TwoLibraries

theorem spellableBuild : SpellableBuild tree env [target] where
  currentPath := by decide
  outputRoot := by
    refine ⟨rfl, fun name hname => ?_⟩
    rcases List.mem_pair.mp hname with rfl | rfl <;> decide
  outputRoot_legible := legible_ofString "/proj/_build"
  sdists := by
    intro sdt hsdt
    obtain rfl := List.mem_singleton.mp hsdt
    refine ⟨legible_ofString "/proj", legible_ofString "", fun lib hlib => ?_⟩
    rcases List.mem_pair.mp hlib with rfl | rfl
    · exact legible_ofString "core"
    · exact legible_ofString "app"

/-- The link of the app spells its inputs so that they lead to what was written. -/
theorem link_names_inputs : ∃ lib exe inputs, (lib, exe) ∈ plan.linkPairs ∧
    exe.inputs tree env 3 lib = some (.ok inputs) ∧
    NamesFiles tree (currentPath tree) ["g++", "[in]", "-o[out]"] inputs
      (exe.calcExecutablePath env.toBuildEnv)
      (env.tc.createLinkExecutableCommand ⟨inputs, exe.calcExecutablePath env.toBuildEnv⟩
        (currentPath tree)) := by
  obtain ⟨-, -, -, ⟨key, lib⟩, hlib, -, exe, hexe, -, hany⟩ := computed_app
  obtain ⟨r, hr, hok⟩ := (Option.any_eq_true _ _).mp hany
  cases r with
  | error e => cases hok
  | ok inputs =>
    have hlibrary : lib ∈ plan.libraries := map_snd_keyed ▸ List.mem_map_of_mem hlib
    have hpair : (lib, exe) ∈ plan.linkPairs := mem_linkPairs.mpr ⟨hlibrary, hexe⟩
    obtain ⟨-, hnames⟩ := @commands_name_outputs _ _ _ _ _ _ spellableBuild prepareBuildPlan_plan 3
      prepareUreqs_ureqs
    exact ⟨lib, exe, inputs, hpair, hr, hnames lib exe inputs hpair hr⟩

end TwoLibraries

end Plan

end Bpt
