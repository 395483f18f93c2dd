-- SUMMARY: Whether the metadata read for a chosen candidate is that of the entry it was chosen from.
import Bpt.Solve.Provider

/-!
# The metadata of a candidate

`bestCandidate` chooses an entry from all enabled ones of a package, while
`requirementsOf` reads the first row of the chosen name and version, whatever
its revision.
-/

namespace Bpt.Solve

open Crs

variable {V S : Type} [Semver V] [VersionRangeSet S V]

/-- The requirements of a candidate are computed from an entry with the name, the
version and the revision of the candidate that has the libraries it lists. -/
def PlansWithSelected (view : CacheView V S) (c : Requirement S) : Prop :=
  ∃ row, metadataRow view c = some row ∧
    requirementsOf view c = requirementsFrom row.pkg c.uses ∧
    row.pkg.id.name = c.name ∧ soleVersion c.versions = some row.pkg.id.version ∧
    c.pkgVersion = some row.pkg.id.revision ∧ hasAllLibraries c.uses row.pkg = true

/-- The first row returned for the selected version has the libraries that the
requirement lists, and of the rows of that version that have them it has the
highest revision. -/
def FirstRowIsBest (view : CacheView V S) (req : Requirement S) : Prop :=
  ∃ e, Selected view req e ∧
    ∃ row rows, view.forPackageVersion req.name e.pkg.id.version = row :: rows ∧
      hasAllLibraries req.uses row.pkg = true ∧
      ∀ other ∈ row :: rows, hasAllLibraries req.uses other.pkg = true →
        other.pkg.id.revision ≤ row.pkg.id.revision

theorem Selected.unique {view : CacheView V S} {req : Requirement S} {e e' : PackageEntry V S}
    (h : Selected view req e) (h' : Selected view req e') : e = e' := by
  have hfind := SortedSearch.find?_insertionSort.mpr h
  rw [SortedSearch.find?_insertionSort.mpr h'] at hfind
  exact (Option.some.inj hfind).symm

theorem Selected.hasLibraries {view : CacheView V S} {req : Requirement S}
    {e : PackageEntry V S} (h : Selected view req e) :
    hasAllLibraries req.uses e.pkg = true := by
  have hholds := h.holds
  simp only [qualifies, Bool.and_eq_true] at hholds
  exact hholds.2

/-- The row read for a candidate is the first one of the selected version. -/
theorem metadataRow_candidate {view : CacheView V S} {req : Requirement S} {e : PackageEntry V S}
    (h : Selected view req e) :
    metadataRow view (candidate req e) =
      (view.forPackageVersion req.name e.pkg.id.version).head? := by
  rw [metadataRow, soleVersion_candidate, Option.bind_some]
  exact congrArg (fun n => (view.forPackageVersion n _).head?) (view.name_of_mem h.mem)

/-- An entry of the selected version qualifies when it has the listed libraries. -/
theorem Selected.qualifies_of_version {view : CacheView V S} {req : Requirement S}
    {e other : PackageEntry V S} (h : Selected view req e)
    (hversion : other.pkg.id.version = e.pkg.id.version)
    (hlibs : hasAllLibraries req.uses other.pkg = true) : qualifies req other = true := by
  have hholds := h.holds
  simp only [qualifies, Bool.and_eq_true] at hholds ⊢
  rw [hversion]
  exact ⟨hholds.1, hlibs⟩

/-- Of the entries of the selected version that have the listed libraries, the
selected one has the highest revision. -/
theorem Selected.revision_le {view : CacheView V S} {req : Requirement S}
    {e other : PackageEntry V S} (h : Selected view req e)
    (hmem : other ∈ view.forPackageVersion req.name e.pkg.id.version)
    (hlibs : hasAllLibraries req.uses other.pkg = true) :
    other.pkg.id.revision ≤ e.pkg.id.revision := by
  obtain ⟨hmem, hversion⟩ := CacheView.mem_forPackageVersion.mp hmem
  rcases h.le other hmem (h.qualifies_of_version hversion hlibs) with hlt | ⟨_, hrev⟩
  · rw [hversion] at hlt
    exact absurd hlt (lt_irrefl _)
  · exact hrev

theorem Selected.mem_forPackageVersion {view : CacheView V S} {req : Requirement S}
    {e : PackageEntry V S} (h : Selected view req e) :
    e ∈ view.forPackageVersion req.name e.pkg.id.version :=
  CacheView.mem_forPackageVersion.mpr ⟨h.mem, rfl⟩

/-- A candidate is planned with its own metadata exactly when the first row of
the selected version is one of those with its highest revision. -/
theorem plansWithSelected_iff (view : CacheView V S) (req c : Requirement S)
    (hcand : bestCandidate view req = some c) :
    PlansWithSelected view c ↔ FirstRowIsBest view req := by
  obtain ⟨e, he, rfl⟩ := bestCandidate_eq_some.mp hcand
  have huses := candidate_uses req e
  constructor
  · rintro ⟨row, hrow, _, _, _, hrev, hlibs⟩
    rw [metadataRow_candidate he, List.head?_eq_some_iff] at hrow
    obtain ⟨rows, hrows⟩ := hrow
    have hrev : e.pkg.id.revision = row.pkg.id.revision := Option.some.inj hrev
    rw [huses] at hlibs
    refine ⟨e, he, row, rows, hrows, hlibs, fun other hother hlibs' => ?_⟩
    rw [← hrev]
    exact he.revision_le (hrows ▸ hother) hlibs'
  · rintro ⟨e', he', row, rows, hrows, hlibs, hbest⟩
    obtain rfl := he.unique he'
    have hrow : metadataRow view (candidate req e) = some row := by
      rw [metadataRow_candidate he, hrows, List.head?_cons]
    have hmem : row ∈ view.forPackageVersion req.name e.pkg.id.version := by simp [hrows]
    obtain ⟨hmem', hversion⟩ := CacheView.mem_forPackageVersion.mp hmem
    have hrev : e.pkg.id.revision = row.pkg.id.revision :=
      le_antisymm (hbest e (hrows ▸ he.mem_forPackageVersion) he.hasLibraries) (he.revision_le hmem hlibs)
    refine ⟨row, hrow, requirementsOf_of_metadataRow hrow, ?_, ?_, ?_, ?_⟩
    · exact (view.name_of_mem hmem').trans (view.name_of_mem he.mem).symm
    · rw [soleVersion_candidate, hversion]
    · exact congrArg some hrev
    · rwa [huses]

/-- A revision of a package with one library. -/
def fooRevision (id : Nat) (revision : Int) (deps : List (Dependency (Finset Nat))) :
    PackageEntry PatchRelease (Finset Nat) where
  packageId := id
  remoteId := 1
  pkg := {
    id := ⟨⟨"foo"⟩, ⟨1⟩, revision⟩
    libraries := [⟨⟨"main"⟩, ⟨false, ["."], false⟩, [], [], deps, []⟩]
    extra := .null
    meta_ := .null }

theorem plansWithSelected_iff_foo :
    let view := CacheView.ofRows [fooRevision 1 2 [], fooRevision 2 1 []]
    let req := Requirement.fooUsing .implicitUsesAll
    PlansWithSelected view (candidate req (fooRevision 1 2 [])) ↔ FirstRowIsBest view req :=
  plansWithSelected_iff _ (Requirement.fooUsing .implicitUsesAll) _ rfl

/-- Of two revisions in one remote the candidate is the second, and the metadata
is that of the first. -/
theorem not_plansWithSelected :
    let view := CacheView.ofRows [fooRevision 1 1 [], fooRevision 2 2 []]
    let req := Requirement.fooUsing .implicitUsesAll
    let c := candidate req (fooRevision 2 2 [])
    bestCandidate view req = some c ∧ ¬ PlansWithSelected view c := by
  refine ⟨rfl, ?_⟩
  rintro ⟨row, hrow, _, _, _, hrev, _⟩
  cases (hrow : some (fooRevision 1 1 []) = some row)
  cases hrev

end Bpt.Solve
