-- SUMMARY: The libman files that a build writes for its libraries, and when its usage requirements are read back from them.
import Bpt.Build.PlanOutputs
import Bpt.Libman.Index
import Bpt.Util.PathText

/-!
# The emitted index

A build writes an index of its packages for other build systems: one file for each
library, one for each package with the paths of its libraries, and the index with
the paths of the packages.
-/

namespace Bpt.Plan

open Libman

/-! ## The usage requirements of a build -/

def LibraryPlan.publicIncludeDir (tree : FileTree) (lib : LibraryPlan) : Path :=
  let p := lib.libRoot / subdirectory "include"
  if tree.exists_ p then p else lib.libRoot / subdirectory "src"

/-- What the build says of a library. The links are not listed. -/
def LibraryPlan.libReqs (tree : FileTree) (tc : Toolchain) (outRoot : Path) (lib : LibraryPlan) :
    LmLibrary :=
  { linkablePath := lib.createArchive.map fun arc => outRoot / arc.calcArchiveFilePath tc
    includePaths := [lib.publicIncludeDir tree]
    uses := lib.libUses
    links := [] }

/-- The map that the constructor of `usage_requirements` is given. -/
def prepareUreqs (tree : FileTree) (plan : BuildPlan) (tc : Toolchain) (outRoot : Path) :
    Except UsageError UsageRequirementMap :=
  (plan.packages.flatMap fun pkg => pkg.libraries.map fun lib =>
    (Usage.mk pkg.name lib.name, lib.libReqs tree tc outRoot)).foldlM
      (fun ureqs entry => ureqs.add entry.1 entry.2) .empty

/-! ## The files written -/

/-- The texts of the files. -/
abbrev Disk := List String × String → Option String

def Disk.readFile (disk : Disk) (tree : FileTree) (p : Path) : Option String := disk (tree.fileAt p)

/-- A file is opened empty, and holds the text when it is closed. -/
def Disk.writeFile (disk : Disk) (tree : FileTree) (p : Path) (text : String) : Disk :=
  fun file => if file = tree.fileAt p then some text else disk file

/-- The type, the name and the directory of headers are commented out. -/
def lmlPairs (env : BuildEnv) (lib : LibraryPlan) : List Pair :=
  lib.libUses.map (fun use => ⟨"Uses", use.namespace_ ++ "/" ++ use.name⟩) ++
    (lib.createArchive.map fun arc => Pair.mk "Path"
      (env.outputRoot / arc.calcArchiveFilePath env.toolchain).toGenericString).toList

def writeLml (tree : FileTree) (env : BuildEnv) (lib : LibraryPlan) (lmlPath : Path) (disk : Disk) :
    Disk :=
  disk.writeFile tree lmlPath (writePairs (lmlPairs env lib))

def lmlPathOf (lmpPath : Path) (lib : LibraryPlan) : Path :=
  lmpPath.parentPath / Path.ofString (lib.qualName ++ ".lml")

def lmpPairs (pkg : PackagePlan) (lmpPath : Path) : List Pair :=
  [⟨"Type", "Package"⟩, ⟨"Name", pkg.name⟩, ⟨"Namespace", pkg.name⟩] ++
    pkg.libraries.map fun lib => ⟨"Library", (lmlPathOf lmpPath lib).toGenericString⟩

def writeLmp (tree : FileTree) (env : BuildEnv) (pkg : PackagePlan) (lmpPath : Path) (disk : Disk) :
    Disk :=
  let disk := pkg.libraries.foldl (fun disk lib => writeLml tree env lib (lmlPathOf lmpPath lib) disk)
    disk
  disk.writeFile tree lmpPath (writePairs (lmpPairs pkg lmpPath))

def lmpPathOf (baseDir : Path) (pkg : PackagePlan) : Path :=
  baseDir / Path.ofString "_libman" / Path.ofString (pkg.name ++ ".lmp")

def lmiPairs (plan : BuildPlan) (baseDir : Path) : List Pair :=
  ⟨"Type", "Index"⟩ :: plan.packages.map fun pkg =>
    ⟨"Package", pkg.name ++ "; " ++ (lmpPathOf baseDir pkg).toGenericString⟩

def writeLmi (tree : FileTree) (env : BuildEnv) (plan : BuildPlan) (baseDir lmiPath : Path)
    (disk : Disk) : Disk :=
  let disk := plan.packages.foldl
    (fun disk pkg => writeLmp tree env pkg (lmpPathOf baseDir pkg) disk) disk
  disk.writeFile tree lmiPath (writePairs (lmiPairs plan baseDir))

/-! ## Reading back -/

/-- A library with its paths followed. -/
def resolved (tree : FileTree) (lib : LmLibrary) :
    List Usage × Option (List String) × List (List String) :=
  (lib.uses, lib.linkablePath.map tree.resolve, lib.includePaths.map tree.resolve)

/-- The index that a build writes is read, with the usage requirements of the build. -/
def ReadsBack (tree : FileTree) (env : BuildEnv) (plan : BuildPlan) (ureqs : UsageRequirementMap)
    (lmiPath : Path) (disk : Disk) : Prop :=
  ∃ index m,
    Index.fromFile ((writeLmi tree env plan env.outputRoot lmiPath disk).readFile tree) lmiPath =
      .ok index ∧
    UsageRequirementMap.fromLmIndex index.usagePackages = .ok m ∧
    ∀ key, (m.get key).map (resolved tree) = (ureqs.get key).map (resolved tree)

/-! ## Names on one line -/

/-- No name of the build holds a line break. -/
structure BuildPlan.OneLine (plan : BuildPlan) (env : BuildEnv) : Prop where
  outputRoot : Path.OneLine env.outputRoot
  archiveSuffix : '\n' ∉ env.toolchain.archiveSuffix.toList
  packages : ∀ pkg ∈ plan.packages, '\n' ∉ pkg.name.toList
  libraries : ∀ lib ∈ plan.libraries, '\n' ∉ lib.qualName.toList
  uses : ∀ lib ∈ plan.libraries, ∀ use ∈ lib.libUses,
    '\n' ∉ use.namespace_.toList ∧ '\n' ∉ use.name.toList
  archives : ∀ arc ∈ plan.archives, '\n' ∉ arc.name.toList ∧ Path.OneLine arc.subdir

/-! ## No directory of headers is written -/

/-- No file names a directory of headers. -/
def NoIncludePaths (disk : Disk) : Prop :=
  ∀ file text pairs, disk file = some text → parseString text = .ok pairs →
    ∀ pair ∈ pairs, pair.key ≠ "Include-Path"

/-- A pair on one line that does not name a directory of headers. -/
def NoIncludePath (pair : Pair) : Prop := pair.OneLine ∧ pair.key ≠ "Include-Path"

theorem noIncludePath_pair {key value : String} (hkey : PlainKey key ∧ key ≠ "Include-Path")
    (hvalue : '\n' ∉ value.toList) : NoIncludePath ⟨key, value⟩ :=
  ⟨⟨hkey.1, hvalue⟩, hkey.2⟩

theorem NoIncludePaths.writeFile {disk : Disk} (h : NoIncludePaths disk) (tree : FileTree) (p : Path)
    {pairs : List Pair} (hpairs : ∀ pair ∈ pairs, NoIncludePath pair) :
    NoIncludePaths (disk.writeFile tree p (writePairs pairs)) := by
  intro file text found htext hparse pair hpair
  unfold Disk.writeFile at htext
  split at htext
  · cases htext
    rw [parseString_writePairs fun pair hpair => (hpairs pair hpair).1] at hparse
    cases hparse
    obtain ⟨written, hwritten, rfl⟩ := List.mem_map.mp hpair
    exact (hpairs written hwritten).2
  · exact h file text found htext hparse pair hpair

variable {tree : FileTree} {env : BuildEnv} {plan : BuildPlan}

theorem noIncludePath_lml (h : plan.OneLine env) {pkg : PackagePlan} (hpkg : pkg ∈ plan.packages)
    {lib : LibraryPlan} (hlib : lib ∈ pkg.libraries) :
    ∀ pair ∈ lmlPairs env lib, NoIncludePath pair := by
  have hmem : lib ∈ plan.libraries := List.mem_flatMap.mpr ⟨pkg, hpkg, hlib⟩
  intro pair hpair
  rcases List.mem_append.mp hpair with hpair | hpair
  · obtain ⟨use, huse, rfl⟩ := List.mem_map.mp hpair
    obtain ⟨hns, hname⟩ := h.uses lib hmem use huse
    exact noIncludePath_pair (by decide) (by simp [String.toList_append, hns, hname])
  · obtain ⟨arc, harc, rfl⟩ := Option.map_eq_some_iff.mp (Option.mem_toList.mp hpair)
    obtain ⟨hname, hsubdir⟩ := h.archives arc (List.mem_filterMap.mpr ⟨lib, hmem, harc⟩)
    have hfile : Path.OneLine (Path.ofString ("lib" ++ arc.name ++ env.toolchain.archiveSuffix)) :=
      Path.oneLine_ofString (by simp [String.toList_append, hname, h.archiveSuffix])
    have hpath := h.outputRoot.div (hsubdir.div hfile)
    exact noIncludePath_pair (by decide) hpath.noBreak

theorem oneLine_lmp (h : plan.OneLine env) {pkg : PackagePlan} (hpkg : pkg ∈ plan.packages) :
    Path.OneLine (lmpPathOf env.outputRoot pkg) := by
  have hname := h.packages pkg hpkg
  have hfile : Path.OneLine (Path.ofString (pkg.name ++ ".lmp")) :=
    Path.oneLine_ofString (by simp [String.toList_append, hname])
  exact (h.outputRoot.div (Path.oneLine_ofString (by decide))).div hfile

theorem noIncludePath_lmp (h : plan.OneLine env) {pkg : PackagePlan} (hpkg : pkg ∈ plan.packages) :
    ∀ pair ∈ lmpPairs pkg (lmpPathOf env.outputRoot pkg), NoIncludePath pair := by
  have hname := h.packages pkg hpkg
  intro pair hpair
  rcases List.mem_append.mp hpair with hpair | hpair
  · simp only [List.mem_cons, List.not_mem_nil, or_false] at hpair
    rcases hpair with rfl | rfl | rfl
    · exact noIncludePath_pair (by decide) (by decide)
    · exact noIncludePath_pair (by decide) hname
    · exact noIncludePath_pair (by decide) hname
  · obtain ⟨lib, hlib, rfl⟩ := List.mem_map.mp hpair
    have hqual := h.libraries lib (List.mem_flatMap.mpr ⟨pkg, hpkg, hlib⟩)
    have hfile : Path.OneLine (Path.ofString (lib.qualName ++ ".lml")) :=
      Path.oneLine_ofString (by simp [String.toList_append, hqual])
    have hpath := (oneLine_lmp h hpkg).parentPath.div hfile
    exact noIncludePath_pair (by decide) hpath.noBreak

theorem noIncludePath_lmi (h : plan.OneLine env) :
    ∀ pair ∈ lmiPairs plan env.outputRoot, NoIncludePath pair := by
  intro pair hpair
  rcases List.mem_cons.mp hpair with rfl | hpair
  · exact noIncludePath_pair (by decide) (by decide)
  · obtain ⟨pkg, hpkg, rfl⟩ := List.mem_map.mp hpair
    have hname := h.packages pkg hpkg
    have hpath := (oneLine_lmp h hpkg).noBreak
    exact noIncludePath_pair (by decide) (by simp [String.toList_append, hname, hpath])

/-- The files of a build name no directories of headers. -/
theorem NoIncludePaths.writeLmi (h : plan.OneLine env) {disk : Disk} (hdisk : NoIncludePaths disk)
    (tree : FileTree) (lmiPath : Path) :
    NoIncludePaths (writeLmi tree env plan env.outputRoot lmiPath disk) := by
  have hpackages : NoIncludePaths (plan.packages.foldl
      (fun disk pkg => writeLmp tree env pkg (lmpPathOf env.outputRoot pkg) disk) disk) := by
    apply List.foldlRecOn _ _ hdisk
    intro disk hdisk pkg hpkg
    have hlibraries : NoIncludePaths (pkg.libraries.foldl
        (fun disk lib => writeLml tree env lib (lmlPathOf (lmpPathOf env.outputRoot pkg) lib) disk)
        disk) := by
      apply List.foldlRecOn _ _ hdisk
      intro disk hdisk lib hlib
      exact hdisk.writeFile tree _ (noIncludePath_lml h hpkg hlib)
    exact hlibraries.writeFile tree _ (noIncludePath_lmp h hpkg)
  exact hpackages.writeFile tree lmiPath (noIncludePath_lmi h)

/-! ## The index read back -/

/-- The usage requirements of a build list each of its libraries. -/
theorem get_of_prepareUreqs {tc : Toolchain} {outRoot : Path} {ureqs : UsageRequirementMap}
    (h : prepareUreqs tree plan tc outRoot = .ok ureqs) {pkg : PackagePlan}
    (hpkg : pkg ∈ plan.packages) {lib : LibraryPlan} (hlib : lib ∈ pkg.libraries) :
    ureqs.get ⟨pkg.name, lib.name⟩ = some (lib.libReqs tree tc outRoot) := by
  rw [UsageRequirementMap.get_eq_some, (UsageRequirementMap.foldlM_add_perm h).mem_iff]
  apply List.mem_append_left
  exact List.mem_flatMap.mpr ⟨pkg, hpkg, List.mem_map_of_mem hlib⟩

/-- A library that is read from such files has no directory of headers. -/
theorem includePaths_of_fromLmIndex {disk : Disk} (hdisk : NoIncludePaths disk) {lmiPath : Path}
    {index : Index} (hindex : Index.fromFile (disk.readFile tree) lmiPath = .ok index)
    {m : UsageRequirementMap} (hm : UsageRequirementMap.fromLmIndex index.usagePackages = .ok m)
    {key : Usage} {lib : LmLibrary} (hlib : m.get key = some lib) : lib.includePaths = [] := by
  rw [UsageRequirementMap.get_eq_some, (UsageRequirementMap.foldlM_add_perm hm).mem_iff] at hlib
  rcases List.mem_append.mp hlib with hlib | hlib
  · obtain ⟨_, hentry, hlib⟩ := List.mem_flatMap.mp hlib
    obtain ⟨pkg, hpkg, rfl⟩ := List.mem_map.mp hentry
    obtain ⟨_, hentry, hlib⟩ := List.mem_map.mp hlib
    obtain ⟨read, hread, rfl⟩ := List.mem_map.mp hentry
    cases hlib
    obtain ⟨path, hpath⟩ := Index.exists_fromFile hindex hpkg hread
    apply Library.includePaths_eq_nil hpath
    intro pairs hpairs
    unfold parseFile at hpairs
    split at hpairs
    next => cases hpairs
    next text htext => exact hdisk _ text pairs htext hpairs
  · cases hlib

/-- Without packages the index is read back. -/
theorem readsBack_of_no_packages {ureqs : UsageRequirementMap} (hplan : plan.packages = [])
    (hureqs : prepareUreqs tree plan env.toolchain env.outputRoot = .ok ureqs) (lmiPath : Path)
    (disk : Disk) : ReadsBack tree env plan ureqs lmiPath disk := by
  have hempty : ureqs = .empty := by
    unfold prepareUreqs at hureqs
    rw [hplan] at hureqs
    cases hureqs
    rfl
  have hfile : (writeLmi tree env plan env.outputRoot lmiPath disk).readFile tree lmiPath =
      some (writePairs [⟨"Type", "Index"⟩]) := by
    unfold writeLmi lmiPairs
    rw [hplan]
    exact if_pos rfl
  refine ⟨⟨[]⟩, .empty, ?_, rfl, fun key => by rw [hempty]⟩
  unfold Index.fromFile parseFile
  rw [hfile]
  rfl

theorem not_readsBack {ureqs : UsageRequirementMap}
    (hureqs : prepareUreqs tree plan env.toolchain env.outputRoot = .ok ureqs)
    (hlibs : ∀ pkg ∈ plan.packages, pkg.libraries ≠ []) (hlines : plan.OneLine env) (lmiPath : Path)
    {disk : Disk} (hdisk : NoIncludePaths disk)
    (h : ReadsBack tree env plan ureqs lmiPath disk) : plan.packages = [] := by
  obtain ⟨index, m, hindex, hm, hsame⟩ := h
  apply List.eq_nil_iff_forall_not_mem.mpr
  intro pkg hpkg
  obtain ⟨lib, hlib⟩ := List.exists_mem_of_ne_nil _ (hlibs pkg hpkg)
  have hkey := hsame ⟨pkg.name, lib.name⟩
  rw [get_of_prepareUreqs hureqs hpkg hlib] at hkey
  obtain ⟨found, hfound, hresolved⟩ := Option.map_eq_some_iff.mp hkey
  have hnone := includePaths_of_fromLmIndex (hdisk.writeLmi hlines tree lmiPath) hindex hm hfound
  -- the build has one directory of headers, the index none
  have hpaths : found.includePaths.map tree.resolve = [lib.publicIncludeDir tree].map tree.resolve :=
    congrArg (fun r => r.2.2) hresolved
  rw [hnone] at hpaths
  cases hpaths

/-- The emitted index is read back, whatever files were there before, only when
the plan has no packages. Older files do not help, unless one of them names a
directory of headers. -/
theorem writeLmi_reads_back_iff {ureqs : UsageRequirementMap}
    (hureqs : prepareUreqs tree plan env.toolchain env.outputRoot = .ok ureqs)
    (hlibs : ∀ pkg ∈ plan.packages, pkg.libraries ≠ []) (hlines : plan.OneLine env)
    (lmiPath : Path) :
    ((∀ disk, ReadsBack tree env plan ureqs lmiPath disk) ↔ plan.packages = []) ∧
      ∀ disk, NoIncludePaths disk →
        (ReadsBack tree env plan ureqs lmiPath disk ↔ plan.packages = []) := by
  have hback : plan.packages = [] → ∀ disk, ReadsBack tree env plan ureqs lmiPath disk :=
    fun hplan => readsBack_of_no_packages hplan hureqs lmiPath
  have hempty : NoIncludePaths fun _ => none := nofun
  constructor
  · exact ⟨fun h => not_readsBack hureqs hlibs hlines lmiPath hempty (h _), hback⟩
  · intro disk hdisk
    exact ⟨not_readsBack hureqs hlibs hlines lmiPath hdisk, fun hplan => hback hplan disk⟩

/-! ### A library of headers -/

def headersTree : FileTree :=
  ⟨["work"], [], [["src", "foo", "include", "foo.hpp"]], by decide, by decide⟩

def headersEnv : BuildEnv := ⟨gnuToolchain, Path.ofString "/out"⟩

def headersPlan : BuildPlan :=
  ⟨[⟨"foo",
     [{ name := "foo"
        libRoot := Path.ofString "/src/foo"
        qualName := "foo/foo"
        subdir := Path.ofString "foo"
        createArchive := none
        linkExes := []
        headers := []
        libUses := [] }]⟩]⟩

theorem headersPlan_oneLine : headersPlan.OneLine headersEnv where
  outputRoot := by decide
  archiveSuffix := by decide
  packages := by decide
  libraries := by decide
  uses := by decide
  archives := by decide

theorem writeLmi_reads_back_iff_headers :
    ∃ ureqs,
      prepareUreqs headersTree headersPlan headersEnv.toolchain headersEnv.outputRoot = .ok ureqs ∧
      ((∀ disk, ReadsBack headersTree headersEnv headersPlan ureqs (Path.ofString "INDEX.lmi") disk) ↔
        headersPlan.packages = []) ∧
      ∀ disk, NoIncludePaths disk →
        (ReadsBack headersTree headersEnv headersPlan ureqs (Path.ofString "INDEX.lmi") disk ↔
          headersPlan.packages = []) :=
  ⟨_, rfl, writeLmi_reads_back_iff rfl (by decide) headersPlan_oneLine _⟩

/-- The file of the library does not say that it is one. -/
theorem writeLmi_not_read_back :
    (∃ ureqs,
      prepareUreqs headersTree headersPlan headersEnv.toolchain headersEnv.outputRoot = .ok ureqs) ∧
    Index.fromFile
        ((writeLmi headersTree headersEnv headersPlan headersEnv.outputRoot
          (Path.ofString "INDEX.lmi") fun _ => none).readFile headersTree)
        (Path.ofString "INDEX.lmi") =
      .error (.missingKey "Reading library manifest file '/out/_libman/foo/foo.lml'" "Type") := by
  exact ⟨⟨_, rfl⟩, by decide +kernel⟩

end Bpt.Plan
