-- SUMMARY: The libraries, packages and indexes that are read from libman files, each from the files that it names.
import Bpt.Libman.Parse

/-!
# Libman indexes

An index file names the files of its packages, and a package file those of its
libraries. A path in a file starts in the directory of that file.
-/

namespace Bpt.Libman

structure Library extends LmLibrary where
  name : String
  preprocDefs : List String
  specialUses : List String
  deriving DecidableEq

structure Package where
  name : String
  namespace_ : String
  requires_ : List String
  libraries : List Library

structure Index where
  packages : List Package

/-! ## Libraries -/

/-- The values read from a library file. -/
structure LibraryValues where
  type : Option String := none
  name : Option String := none
  linkablePath : Option Path := none
  includePaths : List Path := []
  preprocDefs : List String := []
  uses : List Usage := []
  links : List Usage := []
  specialUses : List String := []

def libraryReaders : List (Reader LibraryValues) :=
  [readRequired "Type" (·.type) (fun value ret => { ret with type := some value }),
   readCheckEq "Type" "Library",
   readRequired "Name" (·.name) (fun value ret => { ret with name := some value }),
   readOpt "Path" (fun value ret => { ret with linkablePath := some (Path.ofString value) }),
   readAccumulate "Include-Path" (fun value ret =>
     .ok { ret with includePaths := ret.includePaths ++ [Path.ofString value] }),
   readAccumulate "Preprocessor-Define" (fun value ret =>
     .ok { ret with preprocDefs := ret.preprocDefs ++ [value] }),
   readAccumulate "Uses" (fun value ret => do
     return { ret with uses := ret.uses ++ [← splitUsageString value] }),
   readAccumulate "Links" (fun value ret => do
     return { ret with links := ret.links ++ [← splitUsageString value] }),
   readAccumulate "Special-Uses" (fun value ret =>
     .ok { ret with specialUses := ret.specialUses ++ [value] })]

variable (readFile : Path → Option String)

def Library.fromFile (fpath : Path) : Except LibmanError Library := do
  let pairs ← parseFile readFile fpath
  let context := "Reading library manifest file '" ++ fpath.toGenericString ++ "'"
  let ret ← read context pairs libraryReaders {}
  let _ ← validate context "Type" ret.type
  let name ← validate context "Name" ret.name
  let makeAbsolute := fun p => fpath.parentPath / p
  return { name := name
           linkablePath := ret.linkablePath.map makeAbsolute
           includePaths := ret.includePaths.map makeAbsolute
           preprocDefs := ret.preprocDefs
           uses := ret.uses
           links := ret.links
           specialUses := ret.specialUses }

/-! ## Packages -/

/-- The values read from a package file. -/
structure PackageValues where
  type : Option String := none
  name : Option String := none
  namespace_ : Option String := none
  requires_ : List String := []
  libraries : List Path := []

def packageReaders : List (Reader PackageValues) :=
  [readRequired "Type" (·.type) (fun value ret => { ret with type := some value }),
   readCheckEq "Type" "Package",
   readRequired "Name" (·.name) (fun value ret => { ret with name := some value }),
   readRequired "Namespace" (·.namespace_) (fun value ret => { ret with namespace_ := some value }),
   readAccumulate "Requires" (fun value ret =>
     .ok { ret with requires_ := ret.requires_ ++ [value] }),
   readAccumulate "Library" (fun value ret =>
     .ok { ret with libraries := ret.libraries ++ [Path.ofString value] })]

def Package.fromFile (fpath : Path) : Except LibmanError Package := do
  let pairs ← parseFile readFile fpath
  let context := "Reading package file '" ++ fpath.toGenericString ++ "'"
  let ret ← read context pairs packageReaders {}
  let _ ← validate context "Type" ret.type
  let name ← validate context "Name" ret.name
  let namespace_ ← validate context "Namespace" ret.namespace_
  let libraries ← ret.libraries.mapM fun libPath =>
    Library.fromFile readFile (fpath.parentPath / libPath)
  return ⟨name, namespace_, ret.requires_, libraries⟩

/-! ## Indexes -/

/-- The values read from an index file. -/
structure IndexValues where
  type : Option String := none
  packageLines : List String := []

def indexReaders : List (Reader IndexValues) :=
  [readRequired "Type" (·.type) (fun value ret => { ret with type := some value }),
   readCheckEq "Type" "Index",
   readAccumulate "Package" (fun value ret =>
     .ok { ret with packageLines := ret.packageLines ++ [value] })]

/-- The package of a line of an index: a name, which is not compared with that of
the package, and the path of its file. -/
def packageOfLine (fpath : Path) (pkgLine : String) : Except LibmanError Package :=
  match (splitView pkgLine.toList ";".toList).map trimView with
  | [_, path] => Package.fromFile readFile (fpath.parentPath / Path.ofString (String.ofList path))
  | _ => .error (.invalidPackage fpath pkgLine)

def Index.fromFile (fpath : Path) : Except LibmanError Index := do
  let pairs ← parseFile readFile fpath
  let context := "Reading libman index file '" ++ fpath.toGenericString ++ "'"
  let ret ← read context pairs indexReaders {}
  let _ ← validate context "Type" ret.type
  return ⟨← ret.packageLines.mapM (packageOfLine readFile fpath)⟩

/-- The libraries of an index as the usage requirements take them. -/
def Index.usagePackages (index : Index) : List (String × List (String × LmLibrary)) :=
  index.packages.map fun pkg => (pkg.name, pkg.libraries.map fun lib => (lib.name, lib.toLmLibrary))

/-! ## What a file that is read has given -/

variable {readFile}

theorem Library.fromFile_eq_ok {fpath : Path} {lib : Library} :
    Library.fromFile readFile fpath = .ok lib ↔
      ∃ pairs ret type name,
        parseFile readFile fpath = .ok pairs ∧
        read ("Reading library manifest file '" ++ fpath.toGenericString ++ "'") pairs
          libraryReaders {} = .ok ret ∧
        ret.type = some type ∧
        ret.name = some name ∧
        lib =
          { name := name
            linkablePath := ret.linkablePath.map fun p => fpath.parentPath / p
            includePaths := ret.includePaths.map fun p => fpath.parentPath / p
            preprocDefs := ret.preprocDefs
            uses := ret.uses
            links := ret.links
            specialUses := ret.specialUses } := by
  simp only [Library.fromFile, Fallible.bind_eq_ok, validate_eq_ok, Fallible.pure_eq_ok]
  constructor
  · rintro ⟨pairs, hpairs, ret, hread, type, htype, name, hname, rfl⟩
    exact ⟨pairs, ret, type, name, hpairs, hread, htype, hname, rfl⟩
  · rintro ⟨pairs, ret, type, name, hpairs, hread, htype, hname, rfl⟩
    exact ⟨pairs, hpairs, ret, hread, type, htype, name, hname, rfl⟩

theorem Package.fromFile_eq_ok {fpath : Path} {pkg : Package} :
    Package.fromFile readFile fpath = .ok pkg ↔
      ∃ pairs ret type,
        parseFile readFile fpath = .ok pairs ∧
        read ("Reading package file '" ++ fpath.toGenericString ++ "'") pairs packageReaders {} =
          .ok ret ∧
        ret.type = some type ∧
        ret.name = some pkg.name ∧
        ret.namespace_ = some pkg.namespace_ ∧
        ret.requires_ = pkg.requires_ ∧
        (ret.libraries.mapM fun libPath =>
          Library.fromFile readFile (fpath.parentPath / libPath)) = .ok pkg.libraries := by
  simp only [Package.fromFile, Fallible.bind_eq_ok, validate_eq_ok, Fallible.pure_eq_ok]
  constructor
  · rintro ⟨pairs, hpairs, ret, hread, type, htype, _, hname, _, hnamespace, _, hlibraries, rfl⟩
    exact ⟨pairs, ret, type, hpairs, hread, htype, hname, hnamespace, rfl, hlibraries⟩
  · rintro ⟨pairs, ret, type, hpairs, hread, htype, hname, hnamespace, hrequires, hlibraries⟩
    refine ⟨pairs, hpairs, ret, hread, type, htype, _, hname, _, hnamespace, _, hlibraries, ?_⟩
    rw [hrequires]

theorem Index.fromFile_eq_ok {fpath : Path} {index : Index} :
    Index.fromFile readFile fpath = .ok index ↔
      ∃ pairs ret type,
        parseFile readFile fpath = .ok pairs ∧
        read ("Reading libman index file '" ++ fpath.toGenericString ++ "'") pairs indexReaders {} =
          .ok ret ∧
        ret.type = some type ∧
        ret.packageLines.mapM (packageOfLine readFile fpath) = .ok index.packages := by
  simp only [Index.fromFile, Fallible.bind_eq_ok, validate_eq_ok, Fallible.pure_eq_ok]
  constructor
  · rintro ⟨pairs, hpairs, ret, hread, type, htype, _, hpackages, rfl⟩
    exact ⟨pairs, ret, type, hpairs, hread, htype, hpackages⟩
  · rintro ⟨pairs, ret, type, hpairs, hread, htype, hpackages⟩
    exact ⟨pairs, hpairs, ret, hread, type, htype, _, hpackages, rfl⟩

/-! ## The files behind an index -/

theorem libraryReaders_keep_includePaths {context : String} {pairs : List Pair}
    {s s' : LibraryValues} (h : read context pairs libraryReaders s = .ok s')
    (hkeys : ∀ pair ∈ pairs, pair.key ≠ "Include-Path") : s'.includePaths = s.includePaths := by
  apply read_keeps (P := fun r => r.includePaths = s.includePaths) ?_ h rfl
  intro pair hpair reader hreader r r' hr htaken
  have hkey := hkeys pair hpair
  simp only [libraryReaders, List.mem_cons, List.not_mem_nil, or_false] at hreader
  rcases hreader with rfl | rfl | rfl | rfl | rfl | rfl | rfl | rfl | rfl
  · obtain ⟨-, -, rfl⟩ := readRequired_eq_some.mp htaken
    exact hr
  · obtain ⟨-, -, rfl⟩ := readCheckEq_eq_some.mp htaken
    exact hr
  · obtain ⟨-, -, rfl⟩ := readRequired_eq_some.mp htaken
    exact hr
  · obtain ⟨-, rfl⟩ := readOpt_eq_some.mp htaken
    exact hr
  · exact absurd (readAccumulate_eq_some.mp htaken).1 hkey
  · obtain ⟨-, hpush⟩ := readAccumulate_eq_some.mp htaken
    cases hpush
    exact hr
  · obtain ⟨-, hpush⟩ := readAccumulate_eq_some.mp htaken
    obtain ⟨_, -, hpush⟩ := Fallible.bind_eq_ok.mp hpush
    cases hpush
    exact hr
  · obtain ⟨-, hpush⟩ := readAccumulate_eq_some.mp htaken
    obtain ⟨_, -, hpush⟩ := Fallible.bind_eq_ok.mp hpush
    cases hpush
    exact hr
  · obtain ⟨-, hpush⟩ := readAccumulate_eq_some.mp htaken
    cases hpush
    exact hr

/-- A library file without the key names no directory of headers. -/
theorem Library.includePaths_eq_nil {fpath : Path} {lib : Library}
    (h : Library.fromFile readFile fpath = .ok lib)
    (hkeys : ∀ pairs, parseFile readFile fpath = .ok pairs →
      ∀ pair ∈ pairs, pair.key ≠ "Include-Path") : lib.includePaths = [] := by
  obtain ⟨pairs, ret, _, _, hpairs, hread, -, -, rfl⟩ := Library.fromFile_eq_ok.mp h
  have hnone := libraryReaders_keep_includePaths hread (hkeys pairs hpairs)
  exact List.map_eq_nil_iff.mpr hnone

/-- Every library of an index was read from a library file. -/
theorem Index.exists_fromFile {fpath : Path} {index : Index}
    (h : Index.fromFile readFile fpath = .ok index) {pkg : Package} (hpkg : pkg ∈ index.packages)
    {lib : Library} (hlib : lib ∈ pkg.libraries) :
    ∃ path, Library.fromFile readFile path = .ok lib := by
  obtain ⟨_, _, _, -, -, -, hpackages⟩ := Index.fromFile_eq_ok.mp h
  obtain ⟨pkgLine, -, hpackage⟩ := Fallible.exists_mem_of_mem_mapM hpackages hpkg
  unfold packageOfLine at hpackage
  split at hpackage
  next =>
    obtain ⟨_, _, _, -, -, -, -, -, -, hlibraries⟩ := Package.fromFile_eq_ok.mp hpackage
    obtain ⟨libPath, -, hlibrary⟩ := Fallible.exists_mem_of_mem_mapM hlibraries hlib
    exact ⟨_, hlibrary⟩
  next => cases hpackage

end Bpt.Libman
