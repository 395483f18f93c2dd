-- SUMMARY: When every dependency of the packages of a builder lists what it uses, so that planning does not stop at an open one.
import Bpt.Cli.BuildCommon
import Bpt.Project.RoundTrip

/-!
# Resolved uses

A package from the cache lists what each dependency uses. The project leaves a
dependency open until a package of that name is loaded, and loading only closes
the dependencies that are not of tests. Planning goes over both kinds, also when
no tests are built.
-/

namespace Bpt.Cli

open Fallible Plan Project

variable {V S U L : Type}

/-! ## Open dependencies -/

/-- A dependency of this name, not one of tests, leaves open what it uses. -/
def LeavesOpen (pkg : Crs.PackageInfo V S) (name : Name) : Prop :=
  ∃ dep ∈ pkg.libraries.flatMap (·.dependencies), dep.uses.isImplicit = true ∧ dep.name = name

/-- A dependency of tests leaves open what it uses. -/
def TestsLeaveOpen (pkg : Crs.PackageInfo V S) : Prop :=
  ∃ dep ∈ pkg.libraries.flatMap (·.testDependencies), dep.uses.isImplicit = true

/-- No dependency of a package is open, and planning never stops at one, whatever
the source trees hold. -/
structure UsesResolved (sdists : List (SdistTarget V S)) : Prop where
  explicit : ∀ sdt ∈ sdists, ∀ lib ∈ sdt.sd.pkg.libraries, lib.Explicit
  noAssertion : ∀ tree name, prepareBuildPlan tree sdists ≠ .error (.implicitUses name)

theorem exists_uses_iff {uses : Crs.DependencyUses} :
    (∃ libs, uses = .explicitUsesList libs) ↔ uses.isImplicit ≠ true := by
  cases uses with
  | implicitUsesAll => simp [Crs.DependencyUses.isImplicit]
  | explicitUsesList libs => simp [Crs.DependencyUses.isImplicit]

/-- A package lists all uses when neither kind of dependency is open. -/
theorem explicit_iff {pkg : Crs.PackageInfo V S} :
    (∀ lib ∈ pkg.libraries, lib.Explicit) ↔
      (∀ name, ¬ LeavesOpen pkg name) ∧ ¬ TestsLeaveOpen pkg := by
  simp only [Crs.LibraryInfo.Explicit, exists_uses_iff, LeavesOpen, TestsLeaveOpen,
    List.mem_flatMap, List.mem_append]
  constructor
  · intro h
    constructor
    · rintro name ⟨dep, ⟨lib, hlib, hdep⟩, himplicit, -⟩
      exact h lib hlib dep (.inl hdep) himplicit
    · rintro ⟨dep, ⟨lib, hlib, hdep⟩, himplicit⟩
      exact h lib hlib dep (.inr hdep) himplicit
  · rintro ⟨hdeps, htests⟩ lib hlib dep (hdep | hdep) himplicit
    · exact hdeps dep.name ⟨dep, ⟨lib, hlib, hdep⟩, himplicit, rfl⟩
    · exact htests ⟨dep, ⟨lib, hlib, hdep⟩, himplicit⟩

/-! ## Loading closes dependencies -/

/-- A loaded package closes the dependencies on it, and no other. -/
theorem leavesOpen_resolveImplicitUsages {proj dep : Crs.PackageInfo V S} {name : Name} :
    LeavesOpen (resolveImplicitUsages proj dep) name ↔
      LeavesOpen proj name ∧ dep.id.name ≠ name := by
  have hitems : (resolveImplicitUsages proj dep).libraries.flatMap (·.dependencies) =
      (proj.libraries.flatMap (·.dependencies)).map fun item =>
        if item.name = dep.id.name ∧ item.uses.isImplicit then
          { item with uses := .explicitUsesList (dep.libraries.map (·.name)) }
        else item := by
    unfold resolveImplicitUsages
    rw [List.flatMap_map, List.map_flatMap]
  unfold LeavesOpen
  rw [hitems]
  constructor
  · rintro ⟨_, hmem, himplicit, hname⟩
    obtain ⟨item, hitem, rfl⟩ := List.mem_map.1 hmem
    split at himplicit
    · cases himplicit
    next hother =>
      rw [if_neg hother] at hname
      exact ⟨⟨item, hitem, himplicit, hname⟩, fun hdep =>
        hother ⟨hname.trans hdep.symm, himplicit⟩⟩
  · rintro ⟨⟨item, hitem, himplicit, hname⟩, hother⟩
    have hkept : ¬ (item.name = dep.id.name ∧ item.uses.isImplicit = true) := fun h =>
      hother (h.1.symm.trans hname)
    exact ⟨item, List.mem_map.2 ⟨item, hitem, if_neg hkept⟩, himplicit, hname⟩

theorem testsLeaveOpen_resolveImplicitUsages {proj dep : Crs.PackageInfo V S} :
    TestsLeaveOpen (resolveImplicitUsages proj dep) ↔ TestsLeaveOpen proj := by
  unfold TestsLeaveOpen resolveImplicitUsages
  rw [List.flatMap_map]

section Loading

variable [Semver V] [VersionRangeSet S V] [Semester]

/-- The name in the `pkg.json` of a package in the cache, when it can be read. -/
def loadedName (cache : Cache V S) (pkg : Crs.PkgId V) : Option Name :=
  (cache.prefetched pkg).bind fun found =>
    (Crs.PackageInfo.fromJsonStr (V := V) (S := S) found.2).toOption.map fun crsMeta =>
      crsMeta.id.name

/-- A loaded package lists what its dependencies use. -/
theorem fetchCacheLoadDependency_eq_ok {cache : Cache V S} {pkg : Crs.PkgId V}
    {builder builder' : List (SdistTarget V S)} {base : Path} {depMeta : Crs.PackageInfo V S}
    (h : fetchCacheLoadDependency cache pkg builder base = .ok (depMeta, builder')) :
    loadedName cache pkg = some depMeta.id.name ∧
      ∃ sdt, builder' = builder ++ [sdt] ∧ ∀ lib ∈ sdt.sd.pkg.libraries, lib.Explicit := by
  unfold fetchCacheLoadDependency at h
  unfold loadedName
  split at h
  · cases h
  next localDir text hfound =>
    simp only [bind_eq_ok, mapError_eq_ok, pure_eq_ok, Prod.mk.injEq] at h
    obtain ⟨crsMeta, hread, rfl, rfl⟩ := h
    constructor
    · rw [hfound, Option.bind_some, hread]
      rfl
    · exact ⟨_, rfl, fun lib hlib =>
        ((Crs.PackageInfo.valid_of_fromJsonStr hread).libraries lib hlib).explicit⟩

/-- The loop over the solution closes the dependencies on the packages it loads. -/
theorem loadSolution_eq_ok {cache : Cache V S} {sln : List (Crs.PkgId V)}
    {proj proj' : Crs.PackageInfo V S} {builder builder' : List (SdistTarget V S)}
    (h : loadSolution cache sln proj builder = .ok (proj', builder')) :
    (∀ name, LeavesOpen proj' name ↔
        LeavesOpen proj name ∧ ¬ ∃ pkg ∈ sln, loadedName cache pkg = some name) ∧
      (TestsLeaveOpen proj' ↔ TestsLeaveOpen proj) ∧
      ∃ loaded, builder' = builder ++ loaded ∧
        ∀ sdt ∈ loaded, ∀ lib ∈ sdt.sd.pkg.libraries, lib.Explicit := by
  induction sln generalizing proj builder with
  | nil =>
    cases h
    refine ⟨?_, Iff.rfl, [], (List.append_nil _).symm, ?_⟩
    · simp
    · simp
  | cons pkg sln ih =>
    simp only [loadSolution, bind_eq_ok] at h
    obtain ⟨⟨depMeta, added⟩, hfetch, hrest⟩ := h
    obtain ⟨hname, sdt, rfl, hsdt⟩ := fetchCacheLoadDependency_eq_ok hfetch
    obtain ⟨hopen, htests, loaded, rfl, hloaded⟩ := ih hrest
    refine ⟨?_, htests.trans testsLeaveOpen_resolveImplicitUsages, sdt :: loaded, ?_, ?_⟩
    · intro name
      rw [hopen, leavesOpen_resolveImplicitUsages, and_assoc]
      simp only [List.mem_cons, exists_eq_or_imp, hname, Option.some.injEq, not_or, ne_eq]
    · rw [List.append_assoc, List.singleton_append]
    · exact List.forall_mem_cons.2 ⟨hsdt, hloaded⟩

end Loading

/-! ## Planning listed uses -/

theorem sourcesOf_ne_implicitUses {tree : FileTree} {dir : Path} {name : Name} :
    sourcesOf tree dir ≠ .error (.implicitUses name) := by
  unfold sourcesOf
  split
  · simp
  · split
    · simp
    · simp

theorem usagesOfKind_ne_implicitUses {pkg : Crs.PackageInfo V S} {intra : List Name}
    {deps : List (Crs.Dependency S)} {name : Name}
    (h : ∀ dep ∈ deps, ∃ uses, dep.uses = .explicitUsesList uses) :
    usagesOfKind pkg intra deps ≠ .error (.implicitUses name) := by
  intro herr
  rcases bind_eq_error.1 herr with herr | ⟨_, -, herr⟩
  · obtain ⟨dep, hdep, herr⟩ := exists_of_mapM_eq_error herr
    obtain ⟨uses, huses⟩ := h dep hdep
    rw [pkgDepToUsages, huses] at herr
    cases herr
  · cases herr

theorem create_ne_implicitUses {tree : FileTree} {pkgBase : Path} {pkg : Crs.PackageInfo V S}
    {lib : Crs.LibraryInfo S} {params : LibraryBuildParams} {name : Name} (h : lib.Explicit) :
    LibraryPlan.create tree pkgBase pkg lib params ≠ .error (.implicitUses name) := by
  intro herr
  rcases bind_eq_error.1 herr with herr | ⟨_, -, herr⟩
  · exact sourcesOf_ne_implicitUses herr
  rcases bind_eq_error.1 herr with herr | ⟨_, -, herr⟩
  · exact sourcesOf_ne_implicitUses herr
  rcases bind_eq_error.1 herr with herr | ⟨_, -, herr⟩
  · exact usagesOfKind_ne_implicitUses
      (fun dep hdep => h dep (List.mem_append_left _ hdep)) herr
  rcases bind_eq_error.1 herr with herr | ⟨_, -, herr⟩
  · exact usagesOfKind_ne_implicitUses
      (fun dep hdep => h dep (List.mem_append_right _ hdep)) herr
  · cases herr

/-- Planning does not stop at an open dependency when there is none. -/
theorem prepareBuildPlan_ne_implicitUses {tree : FileTree} {sdists : List (SdistTarget V S)}
    {name : Name} (h : ∀ sdt ∈ sdists, ∀ lib ∈ sdt.sd.pkg.libraries, lib.Explicit) :
    prepareBuildPlan tree sdists ≠ .error (.implicitUses name) := by
  intro herr
  rcases bind_eq_error.1 herr with herr | ⟨_, -, herr⟩
  · obtain ⟨sdt, hsdt, herr⟩ := exists_of_mapM_eq_error herr
    rcases bind_eq_error.1 herr with herr | ⟨_, -, herr⟩
    · obtain ⟨lib, hlib, herr⟩ := exists_of_mapM_eq_error herr
      unfold prepareLibrary at herr
      split at herr
      · cases herr
      · exact create_ne_implicitUses (h sdt hsdt lib hlib) herr
    · cases herr
  · cases herr

theorem usesResolved_iff_explicit {sdists : List (SdistTarget V S)} :
    UsesResolved sdists ↔ ∀ sdt ∈ sdists, ∀ lib ∈ sdt.sd.pkg.libraries, lib.Explicit :=
  ⟨UsesResolved.explicit, fun h => ⟨h, fun _ _ => prepareBuildPlan_ne_implicitUses h⟩⟩

/-! ## The builder of a manifest -/

section Builder

variable [Semver V] [VersionRangeSet S V] [NeoUrl U] [SpdxLicense L] [Semester]
  {pubgrub : Solve.PubgrubSolve S} {cache : Cache V S} {opts : Options}
  {m : ProjectManifest V S U L} {sln : List (Crs.PkgId V)} {sdists : List (SdistTarget V S)}

/-- No test dependency is open, and an open dependency has a package of its name
in the solution, which is not looked for when there is an index. -/
structure Resolvable (m : ProjectManifest V S U L) (opts : Options) (cache : Cache V S)
    (sln : List (Crs.PkgId V)) : Prop where
  tests : ∀ dep ∈ m.testDependencies, dep.explicitUses ≠ none
  loaded : ∀ dep ∈ m.dependencies, dep.explicitUses = none →
    opts.lmIndex = none ∧ ∃ pkg ∈ sln, loadedName cache pkg = some dep.depName

omit [Semver V] [VersionRangeSet S V] [Semester] in
theorem leavesOpen_asCrsPackageMeta {name : Name} :
    LeavesOpen m.asCrsPackageMeta name ↔
      ∃ dep ∈ m.dependencies, dep.explicitUses = none ∧ dep.depName = name := by
  simp only [LeavesOpen, ProjectManifest.mem_flatMap_dependencies]
  constructor
  · rintro ⟨_, ⟨dep, hdep, rfl⟩, himplicit, hname⟩
    exact ⟨dep, hdep, ProjectDependency.asCrsDependency_isImplicit.1 himplicit, hname⟩
  · rintro ⟨dep, hdep, hnone, hname⟩
    exact ⟨_, ⟨dep, hdep, rfl⟩, ProjectDependency.asCrsDependency_isImplicit.2 hnone, hname⟩

omit [Semver V] [VersionRangeSet S V] [Semester] in
theorem not_testsLeaveOpen_asCrsPackageMeta :
    ¬ TestsLeaveOpen m.asCrsPackageMeta ↔ ∀ dep ∈ m.testDependencies, dep.explicitUses ≠ none := by
  simp only [TestsLeaveOpen, ProjectManifest.mem_flatMap_testDependencies]
  constructor
  · intro h dep hdep hnone
    exact h ⟨_, ⟨dep, hdep, rfl⟩, ProjectDependency.asCrsDependency_isImplicit.2 hnone⟩
  · rintro h ⟨_, ⟨dep, hdep, rfl⟩, himplicit⟩
    exact h dep hdep (ProjectDependency.asCrsDependency_isImplicit.1 himplicit)

/-- Without an index the packages are those of the solution. -/
theorem createProjectBuilder_solution (hindex : opts.lmIndex = none)
    (hsln : Solve.solve pubgrub cache.view (crsDeps opts m.asCrsPackageMeta) = .ok sln)
    (h : createProjectBuilder pubgrub cache opts (.manifest m) = .ok sdists) :
    ∃ proj params loaded, loadSolution cache sln m.asCrsPackageMeta [] = .ok (proj, loaded) ∧
      sdists = loaded ++ [⟨⟨proj, opts.projectDir⟩, params⟩] := by
  obtain ⟨proj, hproj, h⟩ := bind_eq_ok.1 h
  cases hproj
  rw [hindex, Option.isSome_none, if_neg Bool.false_ne_true, hsln] at h
  obtain ⟨ids, hids, h⟩ := bind_eq_ok.1 h
  cases hids
  obtain ⟨⟨proj, loaded⟩, hload, h⟩ := bind_eq_ok.1 h
  cases h
  exact ⟨proj, _, loaded, hload, rfl⟩

/-- The builder has the loaded packages, all explicit, and then the project. What
is open in it was open before, and was not loaded. -/
theorem createProjectBuilder_eq_ok
    (hsln : opts.lmIndex = none →
      Solve.solve pubgrub cache.view (crsDeps opts m.asCrsPackageMeta) = .ok sln)
    (h : createProjectBuilder pubgrub cache opts (.manifest m) = .ok sdists) :
    ∃ proj params loaded, sdists = loaded ++ [⟨⟨proj, opts.projectDir⟩, params⟩] ∧
      (∀ sdt ∈ loaded, ∀ lib ∈ sdt.sd.pkg.libraries, lib.Explicit) ∧
      (∀ name, LeavesOpen proj name ↔ LeavesOpen m.asCrsPackageMeta name ∧
        ¬ (opts.lmIndex = none ∧ ∃ pkg ∈ sln, loadedName cache pkg = some name)) ∧
      (TestsLeaveOpen proj ↔ TestsLeaveOpen m.asCrsPackageMeta) := by
  cases hindex : opts.lmIndex with
  | some index =>
    obtain ⟨proj, hproj, h⟩ := bind_eq_ok.1 h
    cases hproj
    rw [hindex, Option.isSome_some, if_pos rfl] at h
    cases h
    exact ⟨_, _, [], rfl, by simp, by simp, Iff.rfl⟩
  | none =>
    obtain ⟨proj, params, loaded, hload, rfl⟩ :=
      createProjectBuilder_solution hindex (hsln hindex) h
    obtain ⟨hopen, htests, added, rfl, hadded⟩ := loadSolution_eq_ok hload
    refine ⟨proj, params, _, rfl, hadded, ?_, htests⟩
    simpa using hopen

omit [NeoUrl U] [SpdxLicense L] in
theorem exists_loadedName {proj : Crs.PackageInfo V S} {builder : List (SdistTarget V S)}
    {r : Crs.PackageInfo V S × List (SdistTarget V S)}
    (h : loadSolution cache sln proj builder = .ok r) {pkg : Crs.PkgId V} (hpkg : pkg ∈ sln) :
    ∃ name, loadedName cache pkg = some name := by
  induction sln generalizing proj builder with
  | nil => cases hpkg
  | cons pkg' sln ih =>
    obtain ⟨⟨depMeta, added⟩, hfetch, hrest⟩ := bind_eq_ok.1 h
    rcases List.mem_cons.1 hpkg with rfl | hpkg
    · exact ⟨_, (fetchCacheLoadDependency_eq_ok hfetch).1⟩
    · exact ih hrest hpkg

omit [Semester] in
/-- A solution has a package of the name of each dependency. -/
theorem exists_name_of_solve {deps : List (Crs.Dependency S)}
    (hpubgrub : ∀ roots provider sln, pubgrub roots provider = .ok sln →
      Solve.IsSolution provider roots sln)
    (hsln : Solve.solve pubgrub cache.view deps = .ok sln) {dep : Crs.Dependency S}
    (hdep : dep ∈ deps) : ∃ pkg ∈ sln, pkg.name = dep.name := by
  obtain ⟨cands, hcands, hids⟩ := bind_eq_ok.1 hsln
  obtain ⟨c, hc, hname, -⟩ := (hpubgrub _ _ _ hcands).roots _ (List.mem_map_of_mem hdep)
  obtain ⟨pkg, hpkg, hid⟩ := exists_mem_of_mapM_eq_ok hids hc
  refine ⟨pkg, hpkg, ?_⟩
  unfold Solve.toPkgId at hid
  split at hid
  · cases hid
  · cases hid
  · cases hid
    exact hname

/-- When the solver returns solutions and the packages of the cache carry their own
names, it is enough that no test dependency is open, and with an index no
dependency. -/
theorem resolvable_iff
    (hpubgrub : ∀ roots provider sln, pubgrub roots provider = .ok sln →
      Solve.IsSolution provider roots sln)
    (hnames : ∀ pkg name, loadedName cache pkg = some name → pkg.name = name)
    (hsln : opts.lmIndex = none →
      Solve.solve pubgrub cache.view (crsDeps opts m.asCrsPackageMeta) = .ok sln)
    (h : createProjectBuilder pubgrub cache opts (.manifest m) = .ok sdists) :
    Resolvable m opts cache sln ↔
      (∀ dep ∈ m.testDependencies, dep.explicitUses ≠ none) ∧
        (opts.lmIndex ≠ none → ∀ dep ∈ m.dependencies, dep.explicitUses ≠ none) := by
  constructor
  · intro hres
    exact ⟨hres.tests, fun hindex dep hdep hnone => hindex (hres.loaded dep hdep hnone).1⟩
  · rintro ⟨htests, hdeps⟩
    refine ⟨htests, fun dep hdep hnone => ?_⟩
    have hindex : opts.lmIndex = none := by
      by_contra hindex
      exact hdeps hindex dep hdep hnone
    obtain ⟨proj, params, loaded, hload, -⟩ :=
      createProjectBuilder_solution hindex (hsln hindex) h
    have hsolved : dep.asCrsDependency ∈ crsDeps opts m.asCrsPackageMeta :=
      List.mem_append_left _ (ProjectManifest.mem_flatMap_dependencies.2 ⟨dep, hdep, rfl⟩)
    obtain ⟨pkg, hpkg, hname⟩ := exists_name_of_solve hpubgrub (hsln hindex) hsolved
    obtain ⟨name, hloaded⟩ := exists_loadedName hload hpkg
    refine ⟨hindex, pkg, hpkg, hloaded.trans ?_⟩
    rw [← hnames pkg name hloaded, hname]
    rfl

/-- For every manifest, choice of options and solution: the packages handed to the
builder list all uses, and planning does not stop, exactly when nothing in the
manifest is left open that loading the solution does not close. -/
theorem usesResolved_iff
    (hsln : opts.lmIndex = none →
      Solve.solve pubgrub cache.view (crsDeps opts m.asCrsPackageMeta) = .ok sln)
    (h : createProjectBuilder pubgrub cache opts (.manifest m) = .ok sdists) :
    UsesResolved sdists ↔ Resolvable m opts cache sln := by
  obtain ⟨proj, params, loaded, rfl, hloaded, hopen, htests⟩ := createProjectBuilder_eq_ok hsln h
  have hproj : UsesResolved (loaded ++ [⟨⟨proj, opts.projectDir⟩, params⟩]) ↔
      ∀ lib ∈ proj.libraries, lib.Explicit := by
    rw [usesResolved_iff_explicit, List.forall_mem_append, List.forall_mem_singleton]
    exact and_iff_right hloaded
  rw [hproj, explicit_iff, htests, not_testsLeaveOpen_asCrsPackageMeta]
  simp only [hopen, leavesOpen_asCrsPackageMeta]
  constructor
  · rintro ⟨hdeps, htests⟩
    refine ⟨htests, fun dep hdep hnone => ?_⟩
    by_contra hkept
    exact hdeps dep.depName ⟨⟨dep, hdep, hnone, rfl⟩, hkept⟩
  · rintro ⟨htests, hdeps⟩
    refine ⟨?_, htests⟩
    rintro name ⟨⟨dep, hdep, hnone, rfl⟩, hkept⟩
    exact hkept (hdeps dep hdep hnone)

end Builder

/-! ### A project with one open dependency -/

section

/-- `^0.0.n` and `=0.0.n` accept one release. -/
@[reducible]
def patchRange : SemverRange PatchRelease where
  parseRestricted str :=
    match str.toList with
    | '^' :: version | '=' :: version =>
      (PatchRelease.parse (String.ofList version)).map fun v => (v, Semver.nextAfter v)
    | _ => none

attribute [local instance] Semester.permissive patchRange fooUrls fooLicenses

/-- The manifest of a project that depends on `foo` under the given key. -/
def dependingOnFoo (key : String) : Json := .obj
  [("name", .str "proj"), ("version", .str "0.0.1"), (key, .arr [.str "foo@0.0.1"])]

def defaultOptions : Options := ⟨true, true, false, none, Path.ofString "."⟩

/-- A cache with one revision of `foo`. -/
def fooCache : Cache PatchRelease (Finset Nat) where
  view := .ofRows [Solve.fooRevision 1 1 []]
  prefetched pkg :=
    if pkg.name = ⟨"foo"⟩ then some (Path.ofString "foo", Crs.fooText 1 "." []) else none

def fooId : Crs.PkgId PatchRelease := ⟨⟨"foo"⟩, ⟨1⟩, 1⟩

/-- A dependency that the solution closes. -/
theorem usesResolved_iff_foo :
    ∃ m : FooManifest,
      ProjectManifest.fromJsonData noFiles none (dependingOnFoo "dependencies") = .ok m ∧
      (∃ dep ∈ m.dependencies, dep.explicitUses = none) ∧
      ∃ sdists, createProjectBuilder Solve.solveRoots fooCache defaultOptions (.manifest m) =
        .ok sdists ∧ UsesResolved sdists := by
  obtain ⟨m, hm, hopen, htests, hdeps, hsln, hbuilder⟩ : ∃ m : FooManifest,
      ProjectManifest.fromJsonData noFiles none (dependingOnFoo "dependencies") = .ok m ∧
      (∃ dep ∈ m.dependencies, dep.explicitUses = none) ∧
      (∀ dep ∈ m.testDependencies, dep.explicitUses ≠ none) ∧
      (∀ dep ∈ m.dependencies, dep.explicitUses = none →
        defaultOptions.lmIndex = none ∧
          ∃ pkg ∈ [fooId], loadedName fooCache pkg = some dep.depName) ∧
      Solve.solve Solve.solveRoots fooCache.view (crsDeps defaultOptions m.asCrsPackageMeta) =
        .ok [fooId] ∧
      (createProjectBuilder Solve.solveRoots fooCache defaultOptions (.manifest m)).toOption.any
        (fun _ => decide True) = true := exists_ok (by decide +kernel)
  obtain ⟨sdists, hsdists, -⟩ := exists_ok hbuilder
  exact ⟨m, hm, hopen, sdists, hsdists,
    (usesResolved_iff (fun _ => hsln) hsdists).2 ⟨htests, hdeps⟩⟩

/-- The same dependency of the tests stays open, and planning stops at it. -/
theorem not_usesResolved :
    ¬ ∀ (data : Json) (m : FooManifest) (cache : Cache PatchRelease (Finset Nat)) (opts : Options)
        (sdists : List (SdistTarget PatchRelease (Finset Nat))),
      ProjectManifest.fromJsonData noFiles none data = .ok m →
      createProjectBuilder Solve.solveRoots cache opts (.manifest m) = .ok sdists →
      UsesResolved sdists := by
  intro h
  obtain ⟨m, hm, hbuilder⟩ : ∃ m : FooManifest,
      ProjectManifest.fromJsonData noFiles none (dependingOnFoo "test-dependencies") = .ok m ∧
      (createProjectBuilder Solve.solveRoots fooCache defaultOptions (.manifest m)).toOption.any
        (fun sdists => decide (prepareBuildPlan noFiles sdists =
          .error (.implicitUses ⟨"foo"⟩))) = true := exists_ok (by decide +kernel)
  obtain ⟨sdists, hsdists, hstops⟩ := exists_ok hbuilder
  exact (h _ m fooCache defaultOptions sdists hm hsdists).noAssertion _ _ hstops

end

end Bpt.Cli
