-- SUMMARY: The files that the steps of a build plan write, told from the source trees of the libraries.
import Bpt.Build.Plan

/-!
# The output files of a plan

A library writes below one directory. Where in it a step writes follows from the
source file that the step is for: objects go to `obj`, the checks of headers to
`timestamps`, tests to `test` and apps to the directory itself, each below it as
the source file is below its source root.
-/

namespace Bpt.Plan

/-! ## The source files of a library -/

/-- A file that a library compiles: the directory for its object, and the names
that lead to it from its source root. -/
structure Compiled where
  folder : String
  file : List String

/-- Where the object goes, in the directory of the library. -/
def Compiled.within (c : Compiled) : List String := c.folder :: c.file.dropLast

/-- An entry point: where its executable goes, and what it is called. -/
structure Entry where
  within : List String
  name : String

/-- The source files that a library is built from. -/
structure LibraryFiles where
  name : String
  /-- The directory that the path of the library leads to from the output root. -/
  dir : List String
  sources : List (List String)
  apps : List (List String)
  tests : List (List String)
  headers : List (List String)
  publicHeaders : List (List String)

def leaf (file : List String) : String := file.getLast?.getD ""

/-- The name of a file without its extension and the `.main` or `.test` before that. -/
def mainName (file : List String) : String := Path.filenameStem (Path.filenameStem (leaf file))

namespace LibraryFiles

def compiled (lib : LibraryFiles) : List Compiled :=
  lib.sources.map (⟨"obj", ·⟩) ++ (lib.headers ++ lib.publicHeaders).map (⟨"timestamps", ·⟩) ++
    (lib.apps ++ lib.tests).map (⟨"obj", ·⟩)

def appEntry (file : List String) : Entry := ⟨file.dropLast, mainName file⟩

def testEntry (file : List String) : Entry := ⟨"test" :: file.dropLast, mainName file⟩

def entries (lib : LibraryFiles) : List Entry :=
  lib.apps.map appEntry ++ lib.tests.map testEntry

/-! ## The files written -/

def objectFile (tc : Toolchain) (lib : LibraryFiles) (c : Compiled) : List String × String :=
  (lib.dir ++ c.within, leaf c.file ++ tc.objectSuffix)

def executableFile (tc : Toolchain) (lib : LibraryFiles) (e : Entry) : List String × String :=
  (lib.dir ++ e.within, e.name ++ tc.executableSuffix)

/-- The archive, when the library has sources of its own. -/
def archiveFile (tc : Toolchain) (lib : LibraryFiles) : Option (List String × String) :=
  if lib.sources = [] then none else some (lib.dir, "lib" ++ lib.name ++ tc.archiveSuffix)

end LibraryFiles

/-- The files of one kind below a directory. -/
def filesOf (tree : FileTree) (dir : Path) (kind : SourceKind) : List (List String) :=
  (tree.below (tree.resolve dir)).filter fun rel => kindAt rel = some kind

variable {V S : Type}

/-- The source files of a library, less those that the parameters leave out. -/
def libraryFiles (tree : FileTree) (env : BuildEnv) (sdt : SdistTarget V S)
    (lib : Crs.LibraryInfo S) : LibraryFiles :=
  let srcDir := sdt.sd.path / lib.path / subdirectory "src"
  let includeDir := sdt.sd.path / lib.path / subdirectory "include"
  { name := lib.name.str
    dir := tree.resolve (env.outputRoot / (sdt.params.subdir / lib.path))
    sources := filesOf tree srcDir .source
    apps := if sdt.params.buildApps then filesOf tree srcDir .app else []
    tests := if sdt.params.buildTests then filesOf tree srcDir .test else []
    headers := if sdt.params.buildTests then filesOf tree srcDir .header else []
    publicHeaders := if sdt.params.buildTests then filesOf tree includeDir .header else [] }

/-- The libraries of all packages, in the order they are planned. -/
def allFiles (tree : FileTree) (env : BuildEnv) (sdists : List (SdistTarget V S)) :
    List LibraryFiles :=
  sdists.flatMap fun sdt => sdt.sd.pkg.libraries.map (libraryFiles tree env sdt)

/-! ## Source files of the tree -/

/-- The source file that these names lead to from its root. -/
def sourceAt (root : Path) (kind : SourceKind) (rel : List String) : SourceFile :=
  ⟨root / ⟨false, rel, false⟩, root, kind⟩

theorem kindAt_ne_nil {rel : List String} {kind : SourceKind} (h : kindAt rel = some kind) :
    rel ≠ [] := by
  rintro rfl
  exact absurd h (by simp [show kindAt [] = none from by decide])

theorem collectSources_filter (tree : FileTree) (root : Path) (kind : SourceKind) :
    (collectSources tree root).filter (·.kind = kind) =
      (filesOf tree root kind).map (sourceAt root kind) := by
  unfold collectSources filesOf
  induction tree.below (tree.resolve root) with
  | nil => rfl
  | cons rel rels ih =>
    have hkind : inferSourceKind (root / ⟨false, rel, false⟩) = kindAt rel :=
      inferSourceKind_congr Path.filename_div
    rw [List.filterMap_cons, List.filter_cons, SourceFile.fromPath, hkind]
    cases hrel : kindAt rel with
    | none =>
      rw [if_neg (by simp)]
      exact ih
    | some found =>
      dsimp only [Option.map_some]
      rw [List.filter_cons]
      by_cases heq : found = kind
      · subst heq
        simp only [decide_true, if_true, List.map_cons, ih]
        rfl
      · simp only [heq, decide_false, Bool.false_eq_true, if_false, Option.some.injEq, ih]

/-- Of the sources of a directory, those of one kind. -/
theorem sourcesOf_filter {tree : FileTree} {dir : Path} {sources : List SourceFile}
    (h : sourcesOf tree dir = .ok sources) (kind : SourceKind) :
    sources.filter (·.kind = kind) = (filesOf tree dir kind).map (sourceAt dir kind) := by
  unfold sourcesOf at h
  split at h
  · cases h
  · split at h
    · cases h
      exact collectSources_filter tree dir kind
    next hexists =>
      cases h
      have hnone : tree.below (tree.resolve dir) = [] := by
        apply List.eq_nil_iff_forall_not_mem.2
        intro rel hrel
        apply hexists
        unfold FileTree.exists_
        rw [Bool.or_eq_true, List.any_eq_true]
        exact .inr ⟨_, FileTree.mem_below.1 hrel, List.isPrefixOf_iff_prefix.2 ⟨rel, rfl⟩⟩
      unfold filesOf
      rw [hnone]
      rfl

/-- What is known of a source file below a directory. -/
structure IsSource (file : List String) : Prop where
  plain : ∀ name ∈ file, PlainName name
  split : file = file.dropLast ++ [leaf file]
  leaf_plain : PlainName (leaf file)
  leaf_noDots : ∃ c ∈ (leaf file).toList, c ≠ '.'

theorem isSource_of_mem_filesOf {tree : FileTree} {dir : Path} {kind : SourceKind}
    {file : List String} (h : file ∈ filesOf tree dir kind) : IsSource file := by
  obtain ⟨hbelow, hkind⟩ := List.mem_filter.1 h
  have hkind : kindAt file = some kind := by simpa using hkind
  have hne := kindAt_ne_nil hkind
  have hleaf : leaf file = file.getLast hne := by
    rw [leaf, List.getLast?_eq_getLast_of_ne_nil hne]
    rfl
  have hplain := FileTree.plain_of_mem_below hbelow
  refine ⟨hplain, ?_, ?_, ?_⟩
  · rw [hleaf]
    exact (List.dropLast_append_getLast hne).symm
  · rw [hleaf]
    exact hplain _ (List.getLast_mem hne)
  · exact exists_ne_dot_of_kind hkind

theorem IsSource.plain_dropLast {file : List String} (h : IsSource file) :
    ∀ name ∈ file.dropLast, PlainName name := fun name hname =>
  h.plain name (List.mem_of_mem_dropLast hname)

theorem relativePath_sourceAt {tree : FileTree} {root : Path} {kind : SourceKind}
    {file : List String} (h : IsSource file) :
    (sourceAt root kind file).relativePath tree = ⟨false, file, false⟩ := by
  apply FileTree.relative_div _ _ h.plain
  intro hnil
  have := h.split
  rw [hnil] at this
  cases this

theorem subdirectory_eq {name : String} (h : name ≠ "") :
    subdirectory name = ⟨false, [name], false⟩ := by
  unfold subdirectory Path.ofFilename
  rw [if_neg h]

/-- A compilation writes next to where its source file is in the source root. -/
theorem fileAt_calcObjectFilePath {tree : FileTree} {env : BuildEnv} {root outDir : Path}
    {kind : SourceKind} {file : List String} {folder : String} {rules : CompileFileRules}
    {qualifier : String} (h : IsSource file) (hfolder : PlainName folder) :
    tree.fileAt (CompileFilePlan.calcObjectFilePath
        ⟨rules, sourceAt root kind file, qualifier, outDir / subdirectory folder⟩ tree env) =
      (tree.resolve (env.outputRoot / outDir) ++ folder :: file.dropLast,
        leaf file ++ env.toolchain.objectSuffix) := by
  have hname := plainName_append h.leaf_plain h.leaf_noDots env.toolchain.object_noSeparator
  have hfilename : (⟨false, file, false⟩ : Path).filename = leaf file := rfl
  have hdir : tree.resolve (env.outputRoot / (outDir / subdirectory folder)) =
      tree.resolve (env.outputRoot / outDir) ++ [folder] := by
    rw [Path.div_assoc, subdirectory_eq hfolder.1]
    exact FileTree.resolve_div fun name hn => List.mem_singleton.1 hn ▸ hfolder
  unfold CompileFilePlan.calcObjectFilePath
  dsimp only
  rw [relativePath_sourceAt h, hfilename,
    Path.ofString_of_noSeparator hname.2.2.2 hname.1]
  generalize hs : leaf file ++ env.toolchain.objectSuffix = name at hname ⊢
  rw [h.split, Path.replaceFilename_div hname.1,
    FileTree.fileAt_weaklyCanonical tree _ h.plain_dropLast hname, hdir]
  simp

theorem mainName_ne_empty {file : List String} (h : IsSource file) : mainName file ≠ "" :=
  filenameStem_ne_empty (filenameStem_ne_empty h.leaf_plain.1)

theorem mainName_noSeparator {file : List String} (h : IsSource file) :
    '/' ∉ (mainName file).toList := fun hsep =>
  h.leaf_plain.2.2.2 (mem_filenameStem (mem_filenameStem hsep))

/-- The name that an executable is given. -/
theorem name_planExecutable {root : Path} {kind : SourceKind} {file : List String}
    (h : IsSource file) :
    (sourceAt root kind file).path.stem.stem.toGenericString = mainName file := by
  have hfilename : (sourceAt root kind file).path.filename = leaf file := Path.filename_div
  have hof : ∀ {name : String}, name ≠ "" → (Path.ofFilename name).filename = name := by
    intro name hne
    simp [Path.ofFilename, Path.filename, hne]
  have hne := filenameStem_ne_empty h.leaf_plain.1
  unfold Path.stem
  rw [hfilename, hof hne]
  unfold Path.ofFilename
  rw [if_neg (filenameStem_ne_empty hne)]
  simp [Path.toGenericString, mainName]

/-- An executable is written below its directory, where its source file is in
the source root. -/
theorem fileAt_calcExecutablePath {tree : FileTree} {env : BuildEnv} {root base : Path}
    {kind : SourceKind} {file : List String} {links : List Usage} {main : CompileFilePlan}
    (h : IsSource file) :
    tree.fileAt (LinkExecutablePlan.calcExecutablePath
        ⟨links, main, base / ((sourceAt root kind file).relativePath tree).parentPath,
          (sourceAt root kind file).path.stem.stem.toGenericString⟩ env) =
      (tree.resolve (env.outputRoot / base) ++ file.dropLast,
        mainName file ++ env.toolchain.executableSuffix) := by
  have hne : mainName file ++ env.toolchain.executableSuffix ≠ "" := fun hnil =>
    mainName_ne_empty h (String.append_eq_empty_iff.1 hnil).1
  have hsep : '/' ∉ (mainName file ++ env.toolchain.executableSuffix).toList := by
    rw [String.toList_append]
    exact fun hs => (List.mem_append.1 hs).elim (mainName_noSeparator h)
      env.toolchain.executable_noSeparator
  have hparent : (⟨false, file, false⟩ : Path).parentPath = ⟨false, file.dropLast, false⟩ := rfl
  unfold LinkExecutablePlan.calcExecutablePath
  dsimp only
  rw [name_planExecutable h, Path.ofString_of_noSeparator hsep hne,
    FileTree.fileAt_div_ofFilename tree _ hne, relativePath_sourceAt h, hparent, Path.div_assoc,
    FileTree.resolve_div h.plain_dropLast]

theorem fileAt_calcArchiveFilePath {tree : FileTree} {env : BuildEnv} {archive : CreateArchivePlan}
    (h : '/' ∉ archive.name.toList) :
    tree.fileAt (env.outputRoot / archive.calcArchiveFilePath env.toolchain) =
      (tree.resolve (env.outputRoot / archive.subdir),
        "lib" ++ archive.name ++ env.toolchain.archiveSuffix) := by
  have hne : "lib" ++ archive.name ++ env.toolchain.archiveSuffix ≠ "" := fun hnil =>
    absurd (String.append_eq_empty_iff.1 (String.append_eq_empty_iff.1 hnil).1).1 (by decide)
  have hsep : '/' ∉ ("lib" ++ archive.name ++ env.toolchain.archiveSuffix).toList := by
    have := env.toolchain.archive_noSeparator
    simp [h, this]
  unfold CreateArchivePlan.calcArchiveFilePath
  rw [Path.ofString_of_noSeparator hsep hne, Path.div_assoc,
    FileTree.fileAt_div_ofFilename tree _ hne]

/-! ## The plan of a library -/

/-- The steps of a library plan write what the source files of the library say. -/
structure Writes (tree : FileTree) (env : BuildEnv) (plan : LibraryPlan) (lib : LibraryFiles) :
    Prop where
  sources : plan.fileCompilations.map (fun c => tree.fileAt (c.calcObjectFilePath tree env)) =
    lib.sources.map fun file => lib.objectFile env.toolchain ⟨"obj", file⟩
  headers : plan.headers.map (fun c => tree.fileAt (c.calcObjectFilePath tree env)) =
    (lib.headers ++ lib.publicHeaders).map fun file =>
      lib.objectFile env.toolchain ⟨"timestamps", file⟩
  mains : (plan.linkExes.map LinkExecutablePlan.mainCompile).map
      (fun c => tree.fileAt (c.calcObjectFilePath tree env)) =
    (lib.apps ++ lib.tests).map fun file => lib.objectFile env.toolchain ⟨"obj", file⟩
  executables : plan.linkExes.map (fun exe => tree.fileAt (exe.calcExecutablePath env)) =
    lib.entries.map (lib.executableFile env.toolchain)
  archive : plan.createArchive.map (fun ar =>
      tree.fileAt (env.outputRoot / ar.calcArchiveFilePath env.toolchain)) =
    lib.archiveFile env.toolchain

/-- The compilations of source files of one kind. -/
theorem map_compile {tree : FileTree} {env : BuildEnv} {root outDir : Path} {kind : SourceKind}
    {files : List (List String)} {folder : String} {rules : CompileFileRules} {qualifier : String}
    (h : ∀ file ∈ files, IsSource file) (hfolder : PlainName folder) {lib : LibraryFiles}
    (hdir : lib.dir = tree.resolve (env.outputRoot / outDir)) :
    ((files.map (sourceAt root kind)).map fun sf =>
        (⟨rules, sf, qualifier, outDir / subdirectory folder⟩ : CompileFilePlan)).map
      (fun c => tree.fileAt (c.calcObjectFilePath tree env)) =
    files.map fun file => lib.objectFile env.toolchain ⟨folder, file⟩ := by
  rw [List.map_map, List.map_map]
  apply List.map_congr_left
  intro file hfile
  rw [LibraryFiles.objectFile, hdir]
  exact fileAt_calcObjectFilePath (h file hfile) hfolder

/-- The entry points that are built, of the two kinds. -/
theorem filter_built {apps tests : List SourceFile} {buildTests buildApps : Bool}
    (happs : ∀ sf ∈ apps, sf.kind = .app) (htests : ∀ sf ∈ tests, sf.kind = .test) :
    (apps ++ tests).filter (fun sf => if sf.kind = .test then buildTests else buildApps) =
      (if buildApps then apps else []) ++ (if buildTests then tests else []) := by
  have happs' : apps.filter (fun sf => if sf.kind = .test then buildTests else buildApps) =
      if buildApps then apps else [] := by
    cases buildApps with
    | true => exact List.filter_eq_self.2 fun sf hsf => by simp [happs sf hsf]
    | false => exact List.filter_eq_nil_iff.2 fun sf hsf => by simp [happs sf hsf]
  have htests' : tests.filter (fun sf => if sf.kind = .test then buildTests else buildApps) =
      if buildTests then tests else [] := by
    cases buildTests with
    | true => exact List.filter_eq_self.2 fun sf hsf => by simp [htests sf hsf]
    | false => exact List.filter_eq_nil_iff.2 fun sf hsf => by simp [htests sf hsf]
  rw [List.filter_append, happs', htests']

theorem kind_of_mem_map_sourceAt (root : Path) (kind : SourceKind) (files : List (List String)) :
    ∀ sf ∈ files.map (sourceAt root kind), sf.kind = kind := by
  intro sf hsf
  obtain ⟨_, _, rfl⟩ := List.mem_map.1 hsf
  rfl

theorem map_ite {α β : Type} {c : Bool} {xs : List α} {f : α → β} :
    (if c then xs.map f else []) = (if c then xs else []).map f := by
  cases c <;> rfl

theorem create_ok {tree : FileTree} {pkgBase : Path} {pkg : Crs.PackageInfo V S}
    {lib : Crs.LibraryInfo S} {params : LibraryBuildParams} {plan : LibraryPlan}
    (h : LibraryPlan.create tree pkgBase pkg lib params = .ok plan) :
    ∃ (qualName : String) (rules srcHeaderRules publicHeaderRules testRules : CompileFileRules)
        (links testLinks : List Usage),
      let srcDir := pkgBase / lib.path / subdirectory "src"
      let includeDir := pkgBase / lib.path / subdirectory "include"
      let outDir := params.outSubdir
      let libCompileFiles := ((filesOf tree srcDir .source).map (sourceAt srcDir .source)).map
        fun sf => (⟨rules, sf, qualName, outDir / subdirectory "obj"⟩ : CompileFilePlan)
      let executable := planExecutable tree outDir qualName rules testRules links testLinks
      plan.createArchive = (if libCompileFiles = [] then none
        else some ⟨lib.name.str, qualName, outDir, libCompileFiles⟩) ∧
      plan.headers =
        ((if params.buildTests then filesOf tree srcDir .header else []).map
          (sourceAt srcDir .header)).map
            (fun sf => ⟨srcHeaderRules, sf, qualName, outDir / subdirectory "timestamps"⟩) ++
        ((if params.buildTests then filesOf tree includeDir .header else []).map
          (sourceAt includeDir .header)).map
            (fun sf => ⟨publicHeaderRules, sf, qualName, outDir / subdirectory "timestamps"⟩) ∧
      plan.linkExes =
        ((if params.buildApps then filesOf tree srcDir .app else []).map
          (sourceAt srcDir .app)).map executable ++
        ((if params.buildTests then filesOf tree srcDir .test else []).map
          (sourceAt srcDir .test)).map executable := by
  simp only [LibraryPlan.create, Fallible.bind_eq_ok] at h
  obtain ⟨sources, hsources, publicSources, hpublic, libUses, -, testUses, -, h⟩ := h
  have happs := kind_of_mem_map_sourceAt (pkgBase / lib.path / subdirectory "src") .app
    (filesOf tree (pkgBase / lib.path / subdirectory "src") .app)
  have htests := kind_of_mem_map_sourceAt (pkgBase / lib.path / subdirectory "src") .test
    (filesOf tree (pkgBase / lib.path / subdirectory "src") .test)
  simp only [sourcesOf_filter hsources, sourcesOf_filter hpublic, filter_built happs htests,
    map_ite, List.map_append] at h
  cases h
  exact ⟨_, _, _, _, _, _, _, rfl, rfl, rfl⟩

theorem mem_filesOf_ite {tree : FileTree} {dir : Path} {kind : SourceKind} {c : Bool}
    {file : List String} (h : file ∈ if c then filesOf tree dir kind else []) : IsSource file := by
  cases c with
  | true => exact isSource_of_mem_filesOf h
  | false => cases h

/-- The executables of one kind of entry point. -/
theorem map_planExecutable {tree : FileTree} {env : BuildEnv} {root outDir : Path}
    {kind : SourceKind} {files : List (List String)} {qualName : String}
    {rules testRules : CompileFileRules} {links testLinks : List Usage}
    (h : ∀ file ∈ files, IsSource file) {lib : LibraryFiles}
    (hdir : lib.dir = tree.resolve (env.outputRoot / outDir)) {entry : List String → Entry}
    (hentry : entry = if kind = .test then LibraryFiles.testEntry else LibraryFiles.appEntry) :
    ((files.map (sourceAt root kind)).map
        (planExecutable tree outDir qualName rules testRules links testLinks)).map
      (fun exe => tree.fileAt (exe.calcExecutablePath env)) =
    (files.map entry).map (lib.executableFile env.toolchain) := by
  have htest : tree.resolve (env.outputRoot / (outDir / subdirectory "test")) =
      tree.resolve (env.outputRoot / outDir) ++ ["test"] := by
    rw [Path.div_assoc, subdirectory_eq (by decide)]
    exact FileTree.resolve_div (by decide)
  rw [List.map_map, List.map_map, List.map_map]
  apply List.map_congr_left
  intro file hfile
  change tree.fileAt (LinkExecutablePlan.calcExecutablePath ⟨_, _, _ / _, _⟩ env) = _
  rw [fileAt_calcExecutablePath (h file hfile), hentry]
  by_cases hkind : kind = .test
  · simp [hkind, sourceAt, htest, LibraryFiles.executableFile, LibraryFiles.testEntry, hdir]
  · simp [hkind, sourceAt, LibraryFiles.executableFile, LibraryFiles.appEntry, hdir]

/-- Their entry points are compiled next to the other sources. -/
theorem map_mainCompile {tree : FileTree} {env : BuildEnv} {root outDir : Path}
    {kind : SourceKind} {files : List (List String)} {qualName : String}
    {rules testRules : CompileFileRules} {links testLinks : List Usage}
    (h : ∀ file ∈ files, IsSource file) {lib : LibraryFiles}
    (hdir : lib.dir = tree.resolve (env.outputRoot / outDir)) :
    (((files.map (sourceAt root kind)).map
        (planExecutable tree outDir qualName rules testRules links testLinks)).map
      LinkExecutablePlan.mainCompile).map (fun c => tree.fileAt (c.calcObjectFilePath tree env)) =
    files.map fun file => lib.objectFile env.toolchain ⟨"obj", file⟩ := by
  have hmain : ((files.map (sourceAt root kind)).map
        (planExecutable tree outDir qualName rules testRules links testLinks)).map
      LinkExecutablePlan.mainCompile =
      (files.map (sourceAt root kind)).map fun sf =>
        ⟨if kind = .test then testRules else rules, sf, qualName, outDir / subdirectory "obj"⟩ := by
    simp only [List.map_map]
    rfl
  rw [hmain]
  exact map_compile h (by decide) hdir

/-- A library is planned from its source files. -/
theorem writes_of_prepareLibrary {tree : FileTree} {env : BuildEnv} {sdt : SdistTarget V S}
    {lib : Crs.LibraryInfo S} {pkg : Crs.PackageInfo V S} {plan : LibraryPlan}
    (hname : '/' ∉ lib.name.str.toList) (h : prepareLibrary tree sdt lib pkg = .ok plan) :
    Writes tree env plan (libraryFiles tree env sdt lib) := by
  unfold prepareLibrary at h
  cases hpath : (sdt.params.subdir / lib.path).normalizePath with
  | none => simp [hpath] at h
  | some outSubdir =>
    rw [hpath] at h
    have hdir : (libraryFiles tree env sdt lib).dir = tree.resolve (env.outputRoot / outSubdir) :=
      (tree.resolve_normalizePath env.outputRoot hpath).symm
    obtain ⟨qualName, rules, srcHeaderRules, publicHeaderRules, testRules, links, testLinks,
      harchive, hheaders, hexes⟩ := create_ok h
    dsimp only at harchive hheaders hexes
    have hsources : plan.fileCompilations =
        ((filesOf tree (sdt.sd.path / lib.path / subdirectory "src") .source).map
          (sourceAt (sdt.sd.path / lib.path / subdirectory "src") .source)).map
            fun sf => ⟨rules, sf, qualName, outSubdir / subdirectory "obj"⟩ := by
      unfold LibraryPlan.fileCompilations
      rw [harchive]
      split
      next hnil => rw [hnil]; rfl
      next => rfl
    have hobj : PlainName "obj" := by decide
    have htimestamps : PlainName "timestamps" := by decide
    refine ⟨?_, ?_, ?_, ?_, ?_⟩
    · rw [hsources]
      exact map_compile (fun _ hfile => isSource_of_mem_filesOf hfile) hobj hdir
    · rw [hheaders, List.map_append,
        map_compile (fun _ hfile => mem_filesOf_ite hfile) htimestamps hdir,
        map_compile (fun _ hfile => mem_filesOf_ite hfile) htimestamps hdir, ← List.map_append]
      rfl
    · rw [hexes, List.map_append, List.map_append,
        map_mainCompile (fun _ hfile => mem_filesOf_ite hfile) hdir,
        map_mainCompile (fun _ hfile => mem_filesOf_ite hfile) hdir, ← List.map_append]
      rfl
    · rw [hexes, List.map_append,
        map_planExecutable (fun _ hfile => mem_filesOf_ite hfile) hdir rfl,
        map_planExecutable (fun _ hfile => mem_filesOf_ite hfile) hdir rfl, ← List.map_append]
      rfl
    · have hfiles : (libraryFiles tree env sdt lib).sources =
          filesOf tree (sdt.sd.path / lib.path / subdirectory "src") .source := rfl
      rw [harchive]
      unfold LibraryFiles.archiveFile
      rw [hfiles]
      by_cases hnil : filesOf tree (sdt.sd.path / lib.path / subdirectory "src") .source = []
      · rw [if_pos (by rw [hnil]; rfl), if_pos hnil]
        rfl
      · rw [if_neg (by simp [hnil]), if_neg hnil, Option.map_some,
          fileAt_calcArchiveFilePath hname, hdir]
        rfl

end Bpt.Plan
