-- SUMMARY: The requirements of a package are the dependencies of the libraries that are reached from the uses.
import Bpt.Crs.BadEntries
import Bpt.Solve.Assertions

/-!
# The closure of the uses

`requirementsOf` looks a library up by its name and adds the siblings that it
uses, until nothing is added. The cache stores no two libraries of one name in a
package, so what is added is everything that can be reached.
-/

namespace Bpt.Solve

open Crs Keyed

variable {V S : Type}

/-! ## Reached libraries -/

/-- A library of the package uses a sibling. -/
def IntraUses (pkg : PackageInfo V S) (name used : Name) : Prop :=
  ∃ lib ∈ pkg.libraries, lib.name = name ∧ used ∈ lib.intraUsing

/-- The uses name a library; implicit uses name every library of the package. -/
def NamedBy (pkg : PackageInfo V S) : DependencyUses → Name → Prop
  | .implicitUsesAll, name => ∃ lib ∈ pkg.libraries, lib.name = name
  | .explicitUsesList names, name => name ∈ names

/-- A library that is reached from those named by the uses. -/
def ReachedFrom (pkg : PackageInfo V S) (uses : DependencyUses) (name : Name) : Prop :=
  ∃ start, NamedBy pkg uses start ∧ Relation.ReflTransGen (IntraUses pkg) start name

theorem mem_initialUses {pkg : PackageInfo V S} {uses : DependencyUses} {name : Name} :
    name ∈ initialUses pkg uses ↔ NamedBy pkg uses name := by
  cases uses with
  | implicitUsesAll => simp [initialUses, NamedBy]
  | explicitUsesList names => simp [initialUses, NamedBy]

/-- With distinct names a search finds the library that has the name. -/
theorem edge_intraUsing {pkg : PackageInfo V S} (hnames : Keyed.Unique (·.name) pkg.libraries) :
    Saturate.Edge (intraUsing pkg) = IntraUses pkg := by
  funext name used
  refine propext ⟨?_, ?_⟩
  · rintro ⟨_, hsome, hused⟩
    obtain ⟨lib, hfind, rfl⟩ := Option.map_eq_some_iff.mp hsome
    obtain ⟨hlib, hname⟩ := PackageInfo.findLibrary_some hfind
    exact ⟨lib, hlib, hname, List.mem_toFinset.mp hused⟩
  · rintro ⟨lib, hlib, hname, hused⟩
    have hfind : pkg.findLibrary name = some lib := hnames.find?_eq_some.mpr ⟨hlib, hname⟩
    exact ⟨lib.intraUsing.toFinset, by rw [intraUsing, hfind]; rfl, List.mem_toFinset.mpr hused⟩

theorem usedBy_iff {pkg : PackageInfo V S} (hnames : Keyed.Unique (·.name) pkg.libraries)
    {uses : DependencyUses} {name : Name} :
    UsedBy pkg uses name ↔ ReachedFrom pkg uses name := by
  simp only [UsedBy, Saturate.Reach, edge_intraUsing hnames, mem_initialUses, ReachedFrom]

/-- The loop ends with the set of the reached libraries. -/
theorem requirementsFrom_closure {pkg : PackageInfo V S} {uses : DependencyUses}
    (hnames : Keyed.Unique (·.name) pkg.libraries) (hsiblings : SiblingsExist pkg)
    (huses : hasAllLibraries uses pkg = true) :
    ∃ reached : Finset Name, (∀ name, name ∈ reached ↔ ReachedFrom pkg uses name) ∧
      requirementsFrom pkg uses = .ok (dependenciesOf pkg reached) := by
  obtain ⟨reached, hreached⟩ := usedLibraries_isSome hsiblings huses
  refine ⟨reached, fun name => ?_, by rw [requirementsFrom, hreached]⟩
  rw [Saturate.mem_saturate _ hreached]
  exact usedBy_iff hnames

/-! ## Names in the cache -/

section

variable [Semver V] [VersionRangeSet S V] [Semester]

omit [Semver V] [VersionRangeSet S V] [Semester] in
theorem SameUses.names_eq {pkg pkg' : PackageInfo V S} (h : SameUses pkg pkg') :
    pkg'.libraries.map (·.name) = pkg.libraries.map (·.name) := by
  have hlibs := h.2
  generalize pkg.libraries = libs at hlibs
  generalize pkg'.libraries = libs' at hlibs
  induction hlibs with
  | nil => rfl
  | cons hlib _ ih => rw [List.map_cons, List.map_cons, hlib.1, ih]

omit [Semver V] [VersionRangeSet S V] [Semester] in
theorem nodup_librariesOf {db : CacheDb} (h : LibNamesUnique db) (pkgId : Nat) :
    ((librariesOf db pkgId).map Prod.fst).Nodup := by
  have hrows := Keyed.Unique.filter h fun l => l.pkgId = pkgId
  unfold librariesOf
  rw [List.map_map]
  refine List.Nodup.map_on ?_ (List.Nodup.of_map _ hrows)
  intro l hl l' hl' hname
  have hpkg : l.pkgId = l'.pkgId := by
    rw [of_decide_eq_true (List.mem_filter.mp hl).2, of_decide_eq_true (List.mem_filter.mp hl').2]
  exact hrows.eq_of_key hl hl' (Prod.ext hpkg hname)

/-- The libraries of stored metadata have distinct names. -/
theorem unique_names_of_reachable {db : CacheDb} (hreach : CacheReachable V S db)
    {pkg : PackageInfo V S} (hloaded : Loaded V S db pkg) :
    Keyed.Unique (·.name) pkg.libraries := by
  obtain ⟨row, hrow, hload⟩ := hloaded
  obtain ⟨printed, hjson⟩ := hreach.printed row hrow
  have hcolumns := hreach.valid.libs row hrow
  rw [libraryColumns_toJson hjson, Option.some.injEq] at hcolumns
  have hstrs := nodup_librariesOf hreach.libNamesUnique row.pkgId
  rw [← hcolumns, List.map_map] at hstrs
  unfold Keyed.Unique
  rw [SameUses.names_eq (PackageInfo.fromJsonData_toJson hjson hload)]
  refine List.Nodup.of_map Name.str ?_
  rwa [List.map_map]

/-! ## The requirements of a stored package -/

/-- The requirements of a package of the cache are the dependencies of the
libraries that are reached from the uses: of every such library, and of no other. -/
theorem requirementsOf_closure (db : CacheDb) (hreach : CacheReachable V S db)
    (view : CacheView V S) (req : Requirement S) (row : PackageEntry V S)
    (hshows : Shows db view req.name) (hrow : metadataRow view req = some row)
    (hsiblings : SiblingsExist row.pkg) (huses : hasAllLibraries req.uses row.pkg = true) :
    ∃ reached : Finset Name,
      (∀ name, name ∈ reached ↔ ReachedFrom row.pkg req.uses name) ∧
      requirementsOf view req = .ok
        (((row.pkg.libraries.filter fun lib => lib.name ∈ reached).flatMap
          fun lib => lib.dependencies).map Requirement.fromCrsDep) := by
  rw [requirementsOf_of_metadataRow hrow]
  obtain ⟨version, -, hhead⟩ := Option.bind_eq_some_iff.mp hrow
  have hmem := (CacheView.mem_forPackageVersion.mp (List.mem_of_mem_head? hhead)).1
  have hnames := unique_names_of_reachable hreach (loaded_of_shows hshows hmem)
  exact requirementsFrom_closure hnames hsiblings huses

end

/-! ### Two libraries that use each other, and a third

The first is asked for and uses the second, which has a dependency and uses the
first. The dependency of the third is not required. -/

section

attribute [local instance] Semester.permissive

def meshDependency (name : String) : Dependency (Finset Nat) :=
  ⟨⟨name⟩, {1}, .explicitUsesList [⟨name⟩]⟩

def meshPackage : PackageInfo PatchRelease (Finset Nat) where
  id := ⟨⟨"mesh"⟩, ⟨1⟩, 1⟩
  libraries :=
    [⟨⟨"io"⟩, ⟨false, ["."], false⟩, [⟨"core"⟩], [], [], []⟩,
     ⟨⟨"core"⟩, ⟨false, ["."], false⟩, [⟨"io"⟩], [], [meshDependency "zlib"], []⟩,
     ⟨⟨"view"⟩, ⟨false, ["."], false⟩, [⟨"core"⟩], [], [meshDependency "glfw"], []⟩]
  extra := .null
  meta_ := .null

def meshLibrary (name : String) (uses deps : List String) : Json := .obj
  [("name", .str name), ("path", .str "."), ("using", .arr (uses.map .str)),
   ("test-using", .arr []),
   ("dependencies", .arr (deps.map fun dep => .obj
     [("name", .str dep), ("versions", .arr [.obj [("low", .str "0.0.1"), ("high", .str "0.0.2")]]),
      ("using", .arr [.str dep])])),
   ("test-dependencies", .arr [])]

def meshJson : Json := .obj
  [("name", .str "mesh"), ("version", .str "0.0.1"), ("pkg-version", .num 1), ("extra", .null),
   ("meta", .null),
   ("libraries", .arr [meshLibrary "io" ["core"] [], meshLibrary "core" ["io"] ["zlib"],
     meshLibrary "view" ["core"] ["glfw"]]),
   ("schema-version", .num 1)]

def meshDb : CacheDb := (enableRemote fooUrl (syncFoo [some meshJson] {}).2).2

def meshEntry : PackageEntry PatchRelease (Finset Nat) := ⟨1, 1, meshPackage⟩

def meshUsing : Requirement (Finset Nat) :=
  .make ⟨"mesh"⟩ {1} (Requirement.listed ["io"]) none

theorem siblingsExist_mesh : SiblingsExist meshPackage := by
  unfold SiblingsExist
  decide

theorem shows_mesh : Shows meshDb (.ofRows [meshEntry]) ⟨"mesh"⟩ := by
  have henabled : enabledPackages meshDb = [⟨1, meshJson, 1, 1⟩] := by
    decide +kernel
  have hload : PackageInfo.fromJsonData meshJson = .ok meshPackage := by
    decide +kernel
  refine CacheView.shows_ofRows ?_ ⟨"mesh"⟩
  rw [henabled]
  refine .cons ⟨pkgEntryFromRow_eq_ok.mpr ⟨hload, rfl, rfl⟩, rfl, ?_⟩ .nil
  show some "0.0.1" = some (Semver.toStr (⟨1⟩ : PatchRelease))
  decide +kernel

theorem requirementsOf_closure_mesh :
    ∃ reached : Finset Name,
      (∀ name, name ∈ reached ↔ ReachedFrom meshPackage (Requirement.listed ["io"]) name) ∧
      requirementsOf (.ofRows [meshEntry]) (candidate meshUsing meshEntry) = .ok
        (((meshPackage.libraries.filter fun lib => lib.name ∈ reached).flatMap
          fun lib => lib.dependencies).map Requirement.fromCrsDep) := by
  have huses : (candidate meshUsing meshEntry).uses = Requirement.listed ["io"] := by
    decide
  rw [← huses]
  refine requirementsOf_closure meshDb ?_ (.ofRows [meshEntry]) (candidate meshUsing meshEntry)
    meshEntry shows_mesh ?_ siblingsExist_mesh (by decide)
  · exact .step (.step (.init rfl) (.sync {} (fooRepo [some meshJson]) fooUrl trivial))
      (.enable _ fooUrl)
  · rw [metadataRow, soleVersion_candidate, Option.bind_some]
    rfl

end

end Bpt.Solve
