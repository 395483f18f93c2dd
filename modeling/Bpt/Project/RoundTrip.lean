-- SUMMARY: Which projects can be distributed: the package of a project is read back exactly when its manifest leaves nothing open.
import Bpt.Crs.Info.RoundTrip
import Bpt.Project.Valid

/-!
# Distributing a project

A source distribution holds the metadata of the project as a package, and is
read back from it. A manifest may say more than package metadata can: it may
leave uses open, accept no version of a dependency, and place a library anywhere.
-/

namespace Bpt.Project

open Fallible Walk

variable {V S U L : Type} [Semver V] [VersionRangeSet S V] [SemverRange V] [NeoUrl U]
  [SpdxLicense L]

/-- The uses of the dependency are listed, and it accepts some version. -/
def ProjectDependency.Closed (dep : ProjectDependency S) : Prop :=
  dep.explicitUses ≠ none ∧ IntervalOps.iterIntervals dep.acceptableVersions ≠ []

omit [SemverRange V] in
theorem ProjectDependency.asCrsDependency_valid_iff {dep : ProjectDependency S}
    (h : dep.Valid) : dep.asCrsDependency.Valid ↔ dep.Closed := by
  constructor
  · rintro ⟨_, hversions, uses, huses, _⟩
    refine ⟨fun hnone => ?_, hversions⟩
    simp [asCrsDependency, hnone] at huses
  · rintro ⟨hsome, hversions⟩
    obtain ⟨uses, huses⟩ := Option.ne_none_iff_exists'.mp hsome
    exact ⟨h.depName, hversions, uses, by simp [asCrsDependency, huses], h.explicitUses uses huses⟩

namespace ProjectManifest

variable {m : ProjectManifest V S U L}

/-- The manifest leaves nothing open, and its libraries are inside the project. -/
structure Distributable (m : ProjectManifest V S U L) : Prop where
  dependencies : ∀ dep ∈ m.dependencies, dep.Closed
  testDependencies : ∀ dep ∈ m.testDependencies, dep.Closed
  libraries : ∀ lib ∈ m.libraries, Crs.InnerPath lib.relpath

omit [SemverRange V] [Semver V] [VersionRangeSet S V] in
/-- The libraries of the package, with the one that stands for the project itself. -/
theorem mem_asCrsPackageMeta_libraries {lib : Crs.LibraryInfo S}
    (h : lib ∈ m.asCrsPackageMeta.libraries) :
    ∃ lib' : ProjectLibrary S, lib = m.asCrsLibrary lib' ∧
      (lib' ∈ m.libraries ∨ lib' = ⟨m.name, Path.ofString ".", [], [], [], []⟩) := by
  unfold asCrsPackageMeta at h
  dsimp only at h
  split at h
  · exact ⟨_, List.mem_singleton.mp h, .inr rfl⟩
  · obtain ⟨lib', hlib', rfl⟩ := List.mem_map.mp h
    exact ⟨lib', rfl, .inl hlib'⟩

section

omit [SemverRange V] [Semver V] [VersionRangeSet S V] [NeoUrl U] [SpdxLicense L]

/-- The dependencies that are declared are valid, whether for tests or not. -/
theorem Valid.dependencies (h : m.Valid) : ∀ dep ∈ m.dependencies, dep.Valid := by
  intro dep hdep
  obtain hdep | hdep := List.mem_append.mp hdep
  · exact h.rootDependencies dep hdep
  · obtain ⟨lib, hlib, hdep⟩ := List.mem_flatMap.mp hdep
    exact (h.libraries lib hlib).libDependencies dep hdep

theorem Valid.testDependencies (h : m.Valid) : ∀ dep ∈ m.testDependencies, dep.Valid := by
  intro dep hdep
  obtain hdep | hdep := List.mem_append.mp hdep
  · exact h.rootTestDependencies dep hdep
  · obtain ⟨lib, hlib, hdep⟩ := List.mem_flatMap.mp hdep
    exact (h.libraries lib hlib).testDependencies dep hdep

end

omit [SemverRange V] in
theorem asCrsPackageMeta_valid_iff (h : m.Valid) :
    m.asCrsPackageMeta.Valid ↔ m.Distributable := by
  constructor
  · intro hpkg
    constructor
    · intro dep hdep
      obtain ⟨lib, hlib, hmem⟩ := List.mem_flatMap.mp (mem_flatMap_dependencies.mpr ⟨dep, hdep, rfl⟩)
      exact (ProjectDependency.asCrsDependency_valid_iff (h.dependencies dep hdep)).mp
        ((hpkg.libraries lib hlib).dependencies _ hmem)
    · intro dep hdep
      obtain ⟨lib, hlib, hmem⟩ :=
        List.mem_flatMap.mp (mem_flatMap_testDependencies.mpr ⟨dep, hdep, rfl⟩)
      exact (ProjectDependency.asCrsDependency_valid_iff (h.testDependencies dep hdep)).mp
        ((hpkg.libraries lib hlib).testDependencies _ hmem)
    · intro lib hlib
      have hmem : m.asCrsLibrary lib ∈ m.asCrsPackageMeta.libraries := by
        unfold asCrsPackageMeta
        dsimp only
        rw [if_neg (by simpa using List.ne_nil_of_mem hlib)]
        exact List.mem_map_of_mem hlib
      exact (hpkg.libraries _ hmem).path
  · intro hm
    have hrevision : Crs.IntRange 1 := by decide
    have hdot : Crs.InnerPath (Path.ofString ".") := by decide +kernel
    refine ⟨h.name, hrevision, ?_, fun lib hlib => ?_⟩
    · unfold asCrsPackageMeta
      cases hlibs : m.libraries <;> simp
    · have hdeps : ∀ dep ∈ lib.dependencies, dep.Valid := by
        intro dep hdep
        obtain ⟨dep', hdep', rfl⟩ :=
          mem_flatMap_dependencies.mp (List.mem_flatMap.mpr ⟨lib, hlib, hdep⟩)
        exact (ProjectDependency.asCrsDependency_valid_iff (h.dependencies dep' hdep')).mpr
          (hm.dependencies dep' hdep')
      have htestDeps : ∀ dep ∈ lib.testDependencies, dep.Valid := by
        intro dep hdep
        obtain ⟨dep', hdep', rfl⟩ :=
          mem_flatMap_testDependencies.mp (List.mem_flatMap.mpr ⟨lib, hlib, hdep⟩)
        exact (ProjectDependency.asCrsDependency_valid_iff (h.testDependencies dep' hdep')).mpr
          (hm.testDependencies dep' hdep')
      obtain ⟨lib', rfl, hlib' | rfl⟩ := mem_asCrsPackageMeta_libraries hlib
      · have hvalid := h.libraries lib' hlib'
        exact ⟨hvalid.name, hvalid.relpath, hm.libraries lib' hlib', hvalid.intraUsing,
          hvalid.intraTestUsing, hdeps, htestDeps⟩
      · exact ⟨h.name, Path.legible_ofString ".", hdot, nofun, nofun, hdeps, htestDeps⟩

variable [LeafResult]

/-- The package of a project can be printed and is read back, and the same, just
when the manifest is distributable. -/
theorem asCrsPackageMeta_reads_back_iff [Semester] (hnormal : Crs.NonemptyIntervals S)
    (json : NlohmannJson) (indent : Int) {tree : FileTree} {projDir : Option Path} {data : Json}
    (hread : fromJsonData tree projDir data = .ok m)
    (hjson : ∀ doc, m.asCrsPackageMeta.toJsonDoc = some doc →
      json.ParsesDumped (Crs.PackageInfo.indentation indent) doc) :
    (∃ text pkg, m.asCrsPackageMeta.toJsonText json indent = some text ∧
      Crs.PackageInfo.fromJsonText json text = .ok pkg ∧ pkg.Same m.asCrsPackageMeta) ↔
      m.Distributable :=
  (Crs.PackageInfo.reads_back_iff hnormal hjson).trans
    (asCrsPackageMeta_valid_iff (valid_of_fromJsonData hread))

end ProjectManifest

/-! ### A project with a dependency -/

section

/-- `^0.0.1` accepts that release. -/
@[reducible]
def fooRange : SemverRange PatchRelease where
  parseRestricted str := if str = "^0.0.1" then some (⟨1⟩, ⟨2⟩) else none

@[reducible]
def fooUrls : NeoUrl String := ⟨some, id⟩

@[reducible]
def fooLicenses : SpdxLicense String := ⟨.ok, id⟩

attribute [local instance] Semester.permissive fooRange fooUrls fooLicenses

abbrev FooManifest : Type := ProjectManifest PatchRelease (Finset Nat) String String

theorem noFiles_nodup : ([] : List (List String)).Nodup := List.nodup_nil

theorem noFiles_plain : ∀ file ∈ ([] : List (List String)), ∀ name ∈ file, PlainName name :=
  List.forall_mem_nil _

def noFiles : FileTree := ⟨[], [], [], noFiles_nodup, noFiles_plain⟩

/-- The manifest of a project that depends on `foo`. -/
def dependingOn (dep : Json) : Json := .obj
  [("dependencies", .arr [dep]), ("name", .str "proj"), ("version", .str "0.0.1")]

/-- The text of its package, when the uses of `foo` are listed. -/
def projText : String :=
  "\x7b\"name\":\"proj\",\"version\":\"0.0.1\",\"pkg-version\":1," ++
  "\"extra\":null,\"meta\":null," ++
  "\"libraries\":[\x7b\"name\":\"proj\",\"path\":\".\",\"using\":[],\"test-using\":[]," ++
  "\"dependencies\":[\x7b\"name\":\"foo\"," ++
  "\"versions\":[\x7b\"low\":\"0.0.1\",\"high\":\"0.0.2\"\x7d],\"using\":[\"foo\"]\x7d]," ++
  "\"test-dependencies\":[]\x7d],\"schema-version\":1\x7d"

def projParsed : Json := .obj
  [("extra", .null),
   ("libraries", .arr [.obj
     [("dependencies", .arr [.obj
       [("name", .str "foo"),
        ("using", .arr [.str "foo"]),
        ("versions", .arr [.obj [("high", .str "0.0.2"), ("low", .str "0.0.1")]])]]),
      ("name", .str "proj"),
      ("path", .str "."),
      ("test-dependencies", .arr []),
      ("test-using", .arr []),
      ("using", .arr [])]]),
   ("meta", .null),
   ("name", .str "proj"),
   ("pkg-version", .num 1),
   ("schema-version", .num 1),
   ("version", .str "0.0.1")]

def projNlohmann : NlohmannJson where
  dump _ _ := projText
  parse text := if text = projText then some projParsed else none

theorem asCrsPackageMeta_reads_back_iff_foo :
    ∃ m : FooManifest,
      ProjectManifest.fromJsonData noFiles none (dependingOn (.str "foo@0.0.1 using foo")) = .ok m ∧
      ((∃ text pkg, m.asCrsPackageMeta.toJsonText projNlohmann 0 = some text ∧
        Crs.PackageInfo.fromJsonText projNlohmann text = .ok pkg ∧ pkg.Same m.asCrsPackageMeta) ↔
        m.Distributable) := by
  obtain ⟨m, hm, hparsed⟩ : ∃ m : FooManifest,
      ProjectManifest.fromJsonData noFiles none (dependingOn (.str "foo@0.0.1 using foo")) = .ok m ∧
      m.asCrsPackageMeta.toJsonDoc.map Json.convert = some projParsed :=
    exists_ok (by decide +kernel)
  refine ⟨m, hm, ?_⟩
  refine ProjectManifest.asCrsPackageMeta_reads_back_iff Crs.nonemptyIntervals_patchRelease
    projNlohmann 0 hm ?_
  intro doc hdoc
  rw [hdoc, Option.map_some, Option.some.injEq] at hparsed
  rw [NlohmannJson.ParsesDumped, hparsed]
  simp [projNlohmann]

/-- A project whose dependency leaves its uses open is accepted, and printing its
package fails an assertion. -/
theorem asCrsPackageMeta_not_printed :
    ∃ m : FooManifest,
      ProjectManifest.fromJsonData noFiles none (dependingOn (.str "foo@0.0.1")) = .ok m ∧
      ∀ json indent, m.asCrsPackageMeta.toJsonText json indent = none := by
  obtain ⟨m, hm, hnone⟩ : ∃ m : FooManifest,
      ProjectManifest.fromJsonData noFiles none (dependingOn (.str "foo@0.0.1")) = .ok m ∧
      m.asCrsPackageMeta.toJsonDoc = none := exists_ok (by decide +kernel)
  refine ⟨m, hm, fun json indent => ?_⟩
  rw [Crs.PackageInfo.toJsonText, hnone]
  rfl

end

end Bpt.Project
