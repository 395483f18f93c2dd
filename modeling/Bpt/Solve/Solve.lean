-- SUMMARY: Dependency solving over the package cache, and when its result satisfies every used dependency.
import Bpt.Solve.Metadata

/-!
# Solving

`pubgrub::solve` comes from outside the repository and is a parameter. A solution
it returns consists of candidates, and every requirement of a root or of a
selected candidate is implied by a selected candidate of its package.
-/

namespace Bpt.Solve

open Crs

variable {V S : Type} [Semver V] [VersionRangeSet S V]

/-- The two callbacks that `pubgrub::solve` is given. -/
structure MetadataProvider (S : Type) where
  bestCandidate : Requirement S → Option (Requirement S)
  requirementsOf : Requirement S → Except AssertionFailure (List (Requirement S))

def metadataProvider (view : CacheView V S) : MetadataProvider S :=
  ⟨bestCandidate view, requirementsOf view⟩

inductive SolveError where
  /-- `e_dependency_solve_failure`. -/
  | solveFailure
  | assertion (failure : AssertionFailure)
  /-- `std::bad_optional_access`. -/
  | noPkgVersion
  deriving DecidableEq

abbrev PubgrubSolve (S : Type) :=
  List (Requirement S) → MetadataProvider S → Except SolveError (List (Requirement S))

def toPkgId (c : Requirement S) : Except SolveError (PkgId V) :=
  match soleVersion c.versions, c.pkgVersion with
  | none, _ => .error (.assertion .soleVersion)
  | some _, none => .error .noPkgVersion
  | some version, some revision => .ok ⟨c.name, version, revision⟩

def roots (deps : List (Dependency S)) : List (Requirement S) := deps.map Requirement.fromCrsDep

def solve (pubgrub : PubgrubSolve S) (view : CacheView V S) (deps : List (Dependency S)) :
    Except SolveError (List (PkgId V)) := do
  let sln ← pubgrub (roots deps) (metadataProvider view)
  sln.mapM toPkgId

/-- What `pubgrub::solve` promises of a solution. -/
structure IsSolution (provider : MetadataProvider S) (roots sln : List (Requirement S)) : Prop where
  candidates : ∀ c ∈ sln, ∃ r, provider.bestCandidate r = some c
  roots : ∀ r ∈ roots, ∃ c ∈ sln, c.name = r.name ∧ r.impliedBy c = true
  requirements : ∀ c ∈ sln, ∃ reqs, provider.requirementsOf c = .ok reqs ∧
    ∀ r ∈ reqs, ∃ c' ∈ sln, c'.name = r.name ∧ r.impliedBy c' = true

/-! ## What a solution should satisfy -/

/-- The entry is of the package, has an accepted version, and has every library
that the dependency lists. -/
def Satisfies (e : PackageEntry V S) (dep : Dependency S) : Prop :=
  e.pkg.id.name = dep.name ∧ IntervalOps.Mem dep.acceptableVersions e.pkg.id.version ∧
    hasAllLibraries dep.uses e.pkg = true

/-- The libraries in use, when `serve` tells which package serves a dependency:
those a root dependency or a dependency of a used library uses, and the siblings
that used libraries use. -/
inductive Used (deps : List (Dependency S)) (serve : Dependency S → PackageEntry V S) :
    PackageEntry V S → Name → Prop where
  | root {dep : Dependency S} {lib : Name} (hdep : dep ∈ deps)
      (hlib : lib ∈ initialUses (serve dep).pkg dep.uses) : Used deps serve (serve dep) lib
  | dependency {e : PackageEntry V S} {lib : LibraryInfo S} {dep : Dependency S} {lib' : Name}
      (hused : Used deps serve e lib.name) (hmem : lib ∈ e.pkg.libraries)
      (hdep : dep ∈ lib.dependencies) (hlib : lib' ∈ initialUses (serve dep).pkg dep.uses) :
      Used deps serve (serve dep) lib'
  | intra {e : PackageEntry V S} {lib lib' : Name} (hused : Used deps serve e lib)
      (husing : Saturate.Edge (intraUsing e.pkg) lib lib') : Used deps serve e lib'

/-- Every returned id is that of an enabled entry, and among these entries one
serves each root dependency and each dependency of a used library. -/
def SatisfiesAll (view : CacheView V S) (deps : List (Dependency S)) (ids : List (PkgId V)) :
    Prop :=
  ∃ (pkgs : List (PackageEntry V S)) (serve : Dependency S → PackageEntry V S),
    pkgs.map (fun e => e.pkg.id) = ids ∧ (∀ e ∈ pkgs, view.Enabled e) ∧
    (∀ dep ∈ deps, serve dep ∈ pkgs ∧ Satisfies (serve dep) dep) ∧
    ∀ e ∈ pkgs, ∀ lib ∈ e.pkg.libraries, Used deps serve e lib.name →
      ∀ dep ∈ lib.dependencies, serve dep ∈ pkgs ∧ Satisfies (serve dep) dep

/-! ## When it does -/

/-- A requirement the solver saw: of a root, or of a selected candidate. -/
def Required (view : CacheView V S) (deps : List (Dependency S)) (sln : List (Requirement S))
    (r : Requirement S) : Prop :=
  r ∈ roots deps ∨ ∃ c ∈ sln, ∃ reqs, requirementsOf view c = .ok reqs ∧ r ∈ reqs

/-- Each selected candidate is planned with metadata of its own revision. Where a
requirement and the candidate it implies differ in whether they list libraries,
the candidate uses what the requirement uses. -/
structure PlansWhatIsUsed (view : CacheView V S) (deps : List (Dependency S))
    (sln : List (Requirement S)) : Prop where
  ownRevision : ∀ c ∈ sln, ∀ row, metadataRow view c = some row →
    c.pkgVersion = some row.pkg.id.revision
  covers : ∀ r, Required view deps sln r → ∀ c ∈ sln, c.name = r.name → r.impliedBy c = true →
    r.uses.isImplicit ≠ c.uses.isImplicit → ∀ row, metadataRow view c = some row →
    ∀ lib ∈ initialUses row.pkg r.uses, UsedBy row.pkg c.uses lib

omit [Semver V] [VersionRangeSet S V] in
theorem initialUses_sort {pkg : PackageInfo V S} {uses : DependencyUses} :
    initialUses pkg uses.sort = initialUses pkg uses := by
  cases uses with
  | implicitUsesAll => rfl
  | explicitUsesList l =>
      ext lib
      simp [initialUses, DependencyUses.sort]

omit [Semver V] [VersionRangeSet S V] in
theorem hasAllLibraries_sort {pkg : PackageInfo V S} {uses : DependencyUses} :
    hasAllLibraries uses.sort pkg = hasAllLibraries uses pkg := by
  cases uses with
  | implicitUsesAll => rfl
  | explicitUsesList l =>
      rw [Bool.eq_iff_iff]
      simp [hasAllLibraries, DependencyUses.sort]

omit [Semver V] [VersionRangeSet S V] in
/-- The listed libraries all exist when the used ones do. -/
theorem hasAllLibraries_of_used {pkg : PackageInfo V S} {uses : DependencyUses}
    (h : ∀ lib ∈ initialUses pkg uses, pkg.hasLibrary lib = true) :
    hasAllLibraries uses pkg = true := by
  cases uses with
  | implicitUsesAll => rfl
  | explicitUsesList l =>
      refine hasAllLibraries_iff.mpr fun libs hlibs lib hlib => ?_
      cases hlibs
      exact h lib (by simpa [initialUses] using hlib)

/-- What a requirement uses is used by a candidate that it implies, also when
both list libraries. -/
theorem used_of_impliedBy {view : CacheView V S} {deps : List (Dependency S)}
    {sln : List (Requirement S)} (hplans : PlansWhatIsUsed view deps sln) {r c : Requirement S}
    (hr : Required view deps sln r) (hc : c ∈ sln) (hname : c.name = r.name)
    (himp : r.impliedBy c = true) {row : PackageEntry V S} (hrow : metadataRow view c = some row) :
    ∀ lib ∈ initialUses row.pkg r.uses, UsedBy row.pkg c.uses lib := by
  by_cases hkind : r.uses.isImplicit = c.uses.isImplicit
  · intro lib hlib
    apply Saturate.Reach.of_mem
    cases hru : r.uses with
    | implicitUsesAll =>
        cases hcu : c.uses with
        | implicitUsesAll => rwa [hru] at hlib
        | explicitUsesList m => rw [hru, hcu] at hkind; cases hkind
    | explicitUsesList l =>
        cases hcu : c.uses with
        | implicitUsesAll => rw [hru, hcu] at hkind; cases hkind
        | explicitUsesList m =>
            have huses := (Requirement.impliedBy_iff.mp himp).2
            rw [hru, hcu] at huses
            have hl : (DependencyUses.explicitUsesList l).Sorted := hru ▸ r.sorted
            have hm : (DependencyUses.explicitUsesList m).Sorted := hcu ▸ c.sorted
            have hsub := (DependencyUses.impliedBy_explicit hl hm).mp huses
            rw [hru] at hlib
            simp only [initialUses, List.mem_toFinset] at hlib ⊢
            exact hsub.subset hlib
  · exact hplans.covers r hr c hc hname himp hkind row hrow

theorem metadataRow_spec {view : CacheView V S} {c : Requirement S} {row : PackageEntry V S}
    (h : metadataRow view c = some row) :
    row ∈ view.forPackage c.name ∧ soleVersion c.versions = some row.pkg.id.version := by
  obtain ⟨version, hversion, hhead⟩ := Option.bind_eq_some_iff.mp h
  obtain ⟨hmem, rfl⟩ := CacheView.mem_forPackageVersion.mp (List.mem_of_mem_head? hhead)
  exact ⟨hmem, hversion⟩

/-- The version of a candidate lies in every set that contains its versions. -/
theorem mem_of_contains_candidate {view : CacheView V S} {r c : Requirement S} {v : V} {s : S}
    (hcand : bestCandidate view r = some c) (hversion : soleVersion c.versions = some v)
    (h : IntervalOps.contains s c.versions = true) : IntervalOps.Mem s v := by
  obtain ⟨e, _, rfl⟩ := bestCandidate_eq_some.mp hcand
  rw [soleVersion_candidate] at hversion
  cases hversion
  exact (VersionRangeSet.contains_iff _ _).mp h _ (VersionRangeSet.mem_single _)

section

variable {view : CacheView V S} {deps : List (Dependency S)} {sln : List (Requirement S)}

/-- A dependency whose requirement implies a selected candidate is satisfied by
the row that candidate is planned with. -/
theorem satisfies_of_impliedBy (hsln : IsSolution (metadataProvider view) (roots deps) sln)
    (hplans : PlansWhatIsUsed view deps sln) {dep : Dependency S} {c : Requirement S}
    (hr : Required view deps sln (Requirement.fromCrsDep dep)) (hc : c ∈ sln)
    (hname : c.name = dep.name) (himp : (Requirement.fromCrsDep dep).impliedBy c = true)
    {row : PackageEntry V S} (hrow : metadataRow view c = some row) : Satisfies row dep := by
  obtain ⟨hmem, hversion⟩ := metadataRow_spec hrow
  obtain ⟨r, hcand⟩ := hsln.candidates c hc
  obtain ⟨reqs, hreqs, _⟩ := hsln.requirements c hc
  obtain ⟨row', hrow', hexists, _⟩ := requirementsOf_eq_ok hreqs
  obtain rfl : row = row' := Option.some.inj (hrow.symm.trans hrow')
  refine ⟨(view.name_of_mem hmem).trans hname, ?_, ?_⟩
  · exact mem_of_contains_candidate hcand hversion (Requirement.impliedBy_iff.mp himp).1
  · rw [← hasAllLibraries_sort]
    refine hasAllLibraries_of_used fun lib hlib => hexists lib ?_
    exact used_of_impliedBy hplans hr hc hname himp hrow lib hlib

/-- A dependency of a used library of a selected candidate implies a selected
candidate. -/
theorem required_of_used (hsln : IsSolution (metadataProvider view) (roots deps) sln)
    {c : Requirement S} (hc : c ∈ sln) {row : PackageEntry V S}
    (hrow : metadataRow view c = some row) {lib : LibraryInfo S} (hlib : lib ∈ row.pkg.libraries)
    (hused : UsedBy row.pkg c.uses lib.name) {dep : Dependency S} (hdep : dep ∈ lib.dependencies) :
    Required view deps sln (Requirement.fromCrsDep dep) ∧
      ∃ c' ∈ sln, c'.name = dep.name ∧ (Requirement.fromCrsDep dep).impliedBy c' = true := by
  obtain ⟨reqs, hreqs, hserved⟩ := hsln.requirements c hc
  obtain ⟨row', hrow', _, hdeps⟩ := requirementsOf_eq_ok hreqs
  obtain rfl : row = row' := Option.some.inj (hrow.symm.trans hrow')
  have hmem := hdeps lib hlib hused dep hdep
  exact ⟨.inr ⟨c, hc, reqs, hreqs, hmem⟩, hserved _ hmem⟩

theorem required_of_root (hsln : IsSolution (metadataProvider view) (roots deps) sln)
    {dep : Dependency S} (hdep : dep ∈ deps) :
    Required view deps sln (Requirement.fromCrsDep dep) ∧
      ∃ c' ∈ sln, c'.name = dep.name ∧ (Requirement.fromCrsDep dep).impliedBy c' = true := by
  have hmem : Requirement.fromCrsDep dep ∈ roots deps := List.mem_map_of_mem hdep
  exact ⟨.inl hmem, hsln.roots _ hmem⟩

/-- The library is used by a selected candidate, in the row it is planned with. -/
def UsedByPlan (view : CacheView V S) (sln : List (Requirement S)) (e : PackageEntry V S)
    (lib : Name) : Prop :=
  ∃ c ∈ sln, metadataRow view c = some e ∧ UsedBy e.pkg c.uses lib

/-- Every library in use is planned for. -/
theorem usedByPlan_of_used (hsln : IsSolution (metadataProvider view) (roots deps) sln)
    (hplans : PlansWhatIsUsed view deps sln) {serve : Dependency S → PackageEntry V S}
    (hserve : ∀ dep, (∃ c ∈ sln, c.name = dep.name ∧
        (Requirement.fromCrsDep dep).impliedBy c = true) →
      ∃ c ∈ sln, c.name = dep.name ∧ (Requirement.fromCrsDep dep).impliedBy c = true ∧
        metadataRow view c = some (serve dep))
    {e : PackageEntry V S} {lib : Name} (h : Used deps serve e lib) :
    UsedByPlan view sln e lib := by
  induction h with
  | root hdep hlib =>
      obtain ⟨hr, hserved⟩ := required_of_root hsln hdep
      obtain ⟨c, hc, hname, himp, hrow⟩ := hserve _ hserved
      rw [← initialUses_sort] at hlib
      exact ⟨c, hc, hrow, used_of_impliedBy hplans hr hc hname himp hrow _ hlib⟩
  | dependency _ hmem hdep hlib ih =>
      obtain ⟨c₀, hc₀, hrow₀, hused⟩ := ih
      obtain ⟨hr, hserved⟩ := required_of_used hsln hc₀ hrow₀ hmem hused hdep
      obtain ⟨c, hc, hname, himp, hrow⟩ := hserve _ hserved
      rw [← initialUses_sort] at hlib
      exact ⟨c, hc, hrow, used_of_impliedBy hplans hr hc hname himp hrow _ hlib⟩
  | intra _ husing ih =>
      obtain ⟨c, hc, hrow, hused⟩ := ih
      exact ⟨c, hc, hrow, hused.tail husing⟩

end

/-- The returned ids are those of the rows, when each id is. -/
theorem mapM_toPkgId {view : CacheView V S} {sln : List (Requirement S)}
    (h : ∀ c ∈ sln, ∃ row, metadataRow view c = some row ∧ toPkgId c = .ok row.pkg.id) :
    sln.mapM toPkgId = .ok ((sln.filterMap (metadataRow view)).map fun e => e.pkg.id) := by
  induction sln with
  | nil => rfl
  | cons c sln ih =>
      obtain ⟨row, hrow, hid⟩ := h c List.mem_cons_self
      rw [List.mapM_cons, hid, ih fun c' hc' => h c' (List.mem_cons_of_mem c hc'),
        List.filterMap_cons_some hrow]
      rfl

/-- A normal return of `solve` satisfies the roots and every used dependency, if
the selected candidates are planned with their own metadata and what is used. -/
theorem solve_satisfiesAll (pubgrub : PubgrubSolve S)
    (hpubgrub : ∀ roots provider sln, pubgrub roots provider = .ok sln →
      IsSolution provider roots sln)
    (view : CacheView V S) (deps : List (Dependency S)) (sln : List (Requirement S))
    (ids : List (PkgId V)) (hsln : pubgrub (roots deps) (metadataProvider view) = .ok sln)
    (hids : solve pubgrub view deps = .ok ids) (hplans : PlansWhatIsUsed view deps sln) :
    SatisfiesAll view deps ids := by
  have hsol := hpubgrub _ _ _ hsln
  have hrows : ∀ c ∈ sln, ∃ row, metadataRow view c = some row := by
    intro c hc
    obtain ⟨reqs, hreqs, _⟩ := hsol.requirements c hc
    obtain ⟨row, hrow, _⟩ := requirementsOf_eq_ok hreqs
    exact ⟨row, hrow⟩
  have hown : ∀ c ∈ sln, ∃ row, metadataRow view c = some row ∧ toPkgId c = .ok row.pkg.id := by
    intro c hc
    obtain ⟨row, hrow⟩ := hrows c hc
    obtain ⟨hmem, hversion⟩ := metadataRow_spec hrow
    refine ⟨row, hrow, ?_⟩
    simp only [toPkgId, hversion, hplans.ownRevision c hc row hrow, ← view.name_of_mem hmem]
  have hids' : sln.mapM toPkgId = .ok ids := by
    rw [← hids, solve, hsln]
    rfl
  rw [mapM_toPkgId hown, Except.ok.injEq] at hids'
  -- a dependency that implies a selected candidate is served by that candidate's row
  have hchoice : ∀ dep : Dependency S, ∃ e : PackageEntry V S,
      (∃ c ∈ sln, c.name = dep.name ∧ (Requirement.fromCrsDep dep).impliedBy c = true) →
      ∃ c ∈ sln, c.name = dep.name ∧ (Requirement.fromCrsDep dep).impliedBy c = true ∧
        metadataRow view c = some e := by
    intro dep
    by_cases h : ∃ c ∈ sln, c.name = dep.name ∧ (Requirement.fromCrsDep dep).impliedBy c = true
    · obtain ⟨c, hc, hname, himp⟩ := h
      obtain ⟨row, hrow⟩ := hrows c hc
      exact ⟨row, fun _ => ⟨c, hc, hname, himp, hrow⟩⟩
    · exact ⟨⟨0, 0, ⟨⟨dep.name, default, 0⟩, [], .null, .null⟩⟩, fun h' => absurd h' h⟩
  choose serve hserve using hchoice
  have hserves : ∀ dep, Required view deps sln (Requirement.fromCrsDep dep) ∧
      (∃ c ∈ sln, c.name = dep.name ∧ (Requirement.fromCrsDep dep).impliedBy c = true) →
      serve dep ∈ sln.filterMap (metadataRow view) ∧ Satisfies (serve dep) dep := by
    rintro dep ⟨hr, hserved⟩
    obtain ⟨c, hc, hname, himp, hrow⟩ := hserve dep hserved
    exact ⟨List.mem_filterMap.mpr ⟨c, hc, hrow⟩,
      satisfies_of_impliedBy hsol hplans hr hc hname himp hrow⟩
  refine ⟨sln.filterMap (metadataRow view), serve, hids', ?_, ?_, ?_⟩
  · intro e he
    obtain ⟨c, _, hrow⟩ := List.mem_filterMap.mp he
    exact CacheView.enabled_of_mem (metadataRow_spec hrow).1
  · intro dep hdep
    exact hserves dep (required_of_root hsol hdep)
  · intro e _ lib hlib hused dep hdep
    obtain ⟨c, hc, hrow, husedBy⟩ := usedByPlan_of_used hsol hplans hserve hused
    exact hserves dep (required_of_used hsol hc hrow hlib husedBy hdep)

/-! ## A solver for the candidates of the roots -/

/-- Whether a candidate of the requirement's package is implied. -/
def servedBy (cands : List (Requirement S)) (r : Requirement S) : Bool :=
  cands.any fun c => c.name = r.name && r.impliedBy c

/-- A solver that only tries the candidates of the roots: it returns them when
their own requirements add nothing. -/
def solveRoots : PubgrubSolve S := fun roots provider =>
  let cands := roots.filterMap provider.bestCandidate
  let served := roots.all (servedBy cands) && cands.all fun c =>
    match provider.requirementsOf c with
    | .ok reqs => reqs.all (servedBy cands)
    | .error _ => false
  if served then .ok cands else .error .solveFailure

theorem servedBy_iff {cands : List (Requirement S)} {r : Requirement S} :
    servedBy cands r = true ↔ ∃ c ∈ cands, c.name = r.name ∧ r.impliedBy c = true := by
  simp [servedBy]

theorem solveRoots_isSolution (roots : List (Requirement S)) (provider : MetadataProvider S)
    (sln : List (Requirement S)) (h : solveRoots roots provider = .ok sln) :
    IsSolution provider roots sln := by
  simp only [solveRoots] at h
  split at h
  next hserved =>
    cases h
    simp only [Bool.and_eq_true, List.all_eq_true, servedBy_iff] at hserved
    obtain ⟨hroots, hcands⟩ := hserved
    refine ⟨fun c hc => ?_, hroots, fun c hc => ?_⟩
    · obtain ⟨r, _, hr⟩ := List.mem_filterMap.mp hc
      exact ⟨r, hr⟩
    · have hreqs := hcands c hc
      split at hreqs
      next reqs heq => exact ⟨reqs, heq, fun r hr => servedBy_iff.mp (List.all_eq_true.mp hreqs r hr)⟩
      next => cases hreqs
  next => cases h

/-- A dependency on one release of a package. -/
def dependsOn (name lib : String) : Dependency (Finset Nat) :=
  ⟨⟨name⟩, {1}, .explicitUsesList [⟨lib⟩]⟩

/-- Two revisions of a package, of which the second has a dependency. -/
def twoRevisions : CacheView PatchRelease (Finset Nat) :=
  .ofRows [fooRevision 1 1 [], fooRevision 2 2 [dependsOn "bar" "bar"]]

private theorem requirementsFrom_foo :
    requirementsFrom (fooRevision 1 1 []).pkg (.explicitUsesList [⟨"main"⟩]) = .ok [] := by
  have hround : Saturate.round (intraUsing (fooRevision 1 1 []).pkg) {⟨"main"⟩} =
      some {⟨"main"⟩} := by decide
  have hused : usedLibraries (fooRevision 1 1 []).pkg (.explicitUsesList [⟨"main"⟩]) =
      some {⟨"main"⟩} := Saturate.saturate_of_round _ hround (Finset.Subset.refl _)
  rw [requirementsFrom, hused]
  rfl

/-- When the metadata is that of the first revision, it is the whole solution. -/
private theorem solveRoots_foo {view : CacheView PatchRelease (Finset Nat)}
    {c : Requirement (Finset Nat)}
    (hcand : bestCandidate view (Requirement.fromCrsDep (dependsOn "foo" "main")) = some c)
    (hrow : metadataRow view c = some (fooRevision 1 1 [])) (hname : c.name = ⟨"foo"⟩)
    (huses : c.uses = .explicitUsesList [⟨"main"⟩])
    (himp : (Requirement.fromCrsDep (dependsOn "foo" "main")).impliedBy c = true) :
    solveRoots (roots [dependsOn "foo" "main"]) (metadataProvider view) = .ok [c] := by
  have hcands : (roots [dependsOn "foo" "main"]).filterMap (bestCandidate view) = [c] := by
    simp [roots, hcand]
  have hreqs : requirementsOf view c = .ok [] := by
    rw [requirementsOf_of_metadataRow hrow, huses, requirementsFrom_foo]
  have hserved : servedBy [c] (Requirement.fromCrsDep (dependsOn "foo" "main")) = true :=
    servedBy_iff.mpr ⟨c, List.mem_cons_self, hname, himp⟩
  simp only [solveRoots, metadataProvider, hcands]
  simp [hreqs, roots, hserved]

/-- One revision is returned and planned with its own metadata. -/
theorem solve_satisfiesAll_foo :
    SatisfiesAll (CacheView.ofRows [fooRevision 1 1 []]) [dependsOn "foo" "main"]
      [⟨⟨"foo"⟩, ⟨1⟩, 1⟩] := by
  have hroots : solveRoots (roots [dependsOn "foo" "main"])
      (metadataProvider (CacheView.ofRows [fooRevision 1 1 []])) = .ok [_] :=
    solveRoots_foo rfl rfl rfl rfl (by decide)
  refine solve_satisfiesAll solveRoots solveRoots_isSolution _ _ _ _ hroots
    (by rw [solve, hroots]; rfl) ⟨?_, ?_⟩
  · rintro c hc row hrow
    rw [List.mem_singleton.mp hc] at hrow ⊢
    cases (hrow : some (fooRevision 1 1 []) = some row)
    rfl
  · rintro r (hr | ⟨c, hc, reqs, hreqs, hr⟩) c' hc' _ _ hkind
    · rw [List.mem_singleton.mp hr, List.mem_singleton.mp hc'] at hkind
      exact absurd rfl hkind
    · rw [List.mem_singleton.mp hc, requirementsOf_of_metadataRow rfl] at hreqs
      cases hreqs.symm.trans requirementsFrom_foo
      cases hr

/-- The second revision is returned with what the first one needs, which leaves
out its dependency. -/
theorem solve_not_satisfiesAll :
    (∀ (roots : List (Requirement (Finset Nat))) provider sln,
        solveRoots roots provider = .ok sln → IsSolution provider roots sln) ∧
      solve solveRoots twoRevisions [dependsOn "foo" "main"] = .ok [⟨⟨"foo"⟩, ⟨1⟩, 2⟩] ∧
      ¬ SatisfiesAll twoRevisions [dependsOn "foo" "main"] [⟨⟨"foo"⟩, ⟨1⟩, 2⟩] := by
  refine ⟨solveRoots_isSolution, ?_, ?_⟩
  · have hroots : solveRoots (roots [dependsOn "foo" "main"]) (metadataProvider twoRevisions) =
        .ok [_] := solveRoots_foo rfl rfl rfl rfl (by decide)
    rw [solve, hroots]
    rfl
  · rintro ⟨pkgs, serve, hids, henabled, hroots, hused⟩
    -- the only package is the second revision, with its dependency
    obtain ⟨e, rfl, hid⟩ := List.map_eq_singleton_iff.mp hids
    have he : e = fooRevision 2 2 [dependsOn "bar" "bar"] := by
      have hmem : e ∈ twoRevisions.forPackage ⟨"foo"⟩ := by
        have := henabled e List.mem_cons_self
        rwa [CacheView.Enabled, hid] at this
      rcases List.mem_cons.mp hmem with rfl | hmem
      · cases hid
      · exact List.mem_singleton.mp hmem
    have hserve : serve (dependsOn "foo" "main") = e :=
      List.mem_singleton.mp (hroots _ List.mem_cons_self).1
    have hmain : Used [dependsOn "foo" "main"] serve e ⟨"main"⟩ := by
      rw [← hserve]
      exact .root List.mem_cons_self (List.mem_toFinset.mpr List.mem_cons_self)
    have hbar := hused e List.mem_cons_self ⟨⟨"main"⟩, ⟨false, ["."], false⟩, [], [],
      [dependsOn "bar" "bar"], []⟩ (by rw [he]; exact List.mem_cons_self) hmain
      (dependsOn "bar" "bar") List.mem_cons_self
    rw [List.mem_singleton.mp hbar.1] at hbar
    have hname := hbar.2.1
    rw [hid] at hname
    exact absurd hname (by decide)

end Bpt.Solve
