-- SUMMARY: The candidates that the provider finds through its table of sorted packages.
import Bpt.Base.Fallible
import Bpt.Crs.CacheQuery
import Bpt.Solve.Provider

/-!
# The table of sorted packages

The provider asks the cache once for each package name, sorts the entries and
keeps them in `pkgs_by_name`. Sorting is not stable, so the entries of one
version and revision may come in any order.
-/

namespace Bpt.Solve

open Crs

variable {V S : Type} [Semver V] [VersionRangeSet S V] [Semester]

/-! ## Sorted packages -/

/-- A sorting of entries by version and descending revision. -/
structure EntrySort (V S : Type) [Semver V] where
  sort : List (PackageEntry V S) → List (PackageEntry V S)
  perm : ∀ entries, (sort entries).Perm entries
  pairwise : ∀ entries, (sort entries).Pairwise EntryLE

omit [VersionRangeSet S V] [Semester] in
/-- What is found first in sorted entries is the least one that is found. -/
theorem EntrySort.find?_le (sorting : EntrySort V S) {entries : List (PackageEntry V S)}
    {p : PackageEntry V S → Bool} {e other : PackageEntry V S}
    (hfind : (sorting.sort entries).find? p = some e) (hmem : other ∈ entries)
    (hother : p other = true) : other = e ∨ EntryLE e other := by
  obtain ⟨-, before, after, hsplit, hbefore⟩ := List.find?_eq_some_iff_append.mp hfind
  have hsorted := sorting.pairwise entries
  have hmem' := (sorting.perm entries).mem_iff.mpr hmem
  rw [hsplit] at hsorted hmem'
  rcases List.mem_append.mp hmem' with hmem' | hmem'
  · exact absurd hother (by simpa using hbefore other hmem')
  · rcases List.mem_cons.mp hmem' with rfl | hmem'
    · exact .inl rfl
    · exact .inr ((List.pairwise_cons.mp (List.pairwise_append.mp hsorted).2.1).1 other hmem')

/-- `cache_db::for_package`: the entries of the enabled rows of a package. -/
def forPackage (V S : Type) [Semver V] [VersionRangeSet S V] (db : CacheDb) (name : Name) :
    Except PackageInfo.LoadError (List (PackageEntry V S)) :=
  (packageRows db name).mapM (pkgEntryFromRow V S)

/-- An entry of a package that an enabled row of the cache loads as. -/
def EnabledEntry (db : CacheDb) (name : Name) (e : PackageEntry V S) : Prop :=
  ∃ row ∈ packageRows db name, pkgEntryFromRow V S row = .ok e

theorem mem_forPackage {db : CacheDb} {name : Name} {entries : List (PackageEntry V S)}
    (h : forPackage V S db name = .ok entries) {e : PackageEntry V S} :
    e ∈ entries ↔ EnabledEntry db name e := by
  constructor
  · intro he
    exact Fallible.exists_mem_of_mem_mapM h he
  · rintro ⟨row, hrow, hload⟩
    obtain ⟨e', he', hload'⟩ := Fallible.exists_mem_of_mapM_eq_ok h hrow
    rw [hload] at hload'
    cases hload'
    exact he'

/-! ## The provider -/

/-- A `metadata_provider` with its table: every name of the table has the sorted answer of the
cache. -/
structure MemoProvider (sorting : EntrySort V S) (db : CacheDb) where
  pkgsByName : List (Name × List (PackageEntry V S))
  sorted : ∀ named ∈ pkgsByName, ∃ entries,
    forPackage V S db named.1 = .ok entries ∧ named.2 = sorting.sort entries

variable {sorting : EntrySort V S} {db : CacheDb}

namespace MemoProvider

def new (sorting : EntrySort V S) (db : CacheDb) : MemoProvider sorting db where
  pkgsByName := []
  sorted := by simp

/-- The provider with a further name in its table. -/
def emplace (provider : MemoProvider sorting db) (name : Name)
    (entries : List (PackageEntry V S)) (h : forPackage V S db name = .ok entries) :
    MemoProvider sorting db where
  pkgsByName := (name, sorting.sort entries) :: provider.pkgsByName
  sorted := by
    intro named hnamed
    rcases List.mem_cons.mp hnamed with rfl | hnamed
    · exact ⟨entries, h, rfl⟩
    · exact provider.sorted named hnamed

def packagesForName (provider : MemoProvider sorting db) (name : Name) :
    Except PackageInfo.LoadError (List (PackageEntry V S) × MemoProvider sorting db) :=
  match provider.pkgsByName.find? (fun named => named.1 = name) with
  | some found => .ok (found.2, provider)
  | none =>
    match h : forPackage V S db name with
    | .error err => .error err
    | .ok entries => .ok (sorting.sort entries, provider.emplace name entries h)

def bestCandidate (provider : MemoProvider sorting db) (req : Requirement S) :
    Except PackageInfo.LoadError (Option (Requirement S) × MemoProvider sorting db) :=
  match provider.packagesForName req.name with
  | .error err => .error err
  | .ok (pkgs, provider') =>
    .ok ((pkgs.find? fun entry => qualifies req entry).map (candidate req), provider')

/-- Whatever was asked before, the table gives the sorted answer of the cache. -/
theorem packagesForName_eq_ok {provider provider' : MemoProvider sorting db} {name : Name}
    {pkgs : List (PackageEntry V S)} (h : provider.packagesForName name = .ok (pkgs, provider')) :
    ∃ entries, forPackage V S db name = .ok entries ∧ pkgs = sorting.sort entries := by
  unfold packagesForName at h
  split at h
  next found hfound =>
    cases h
    have hname : found.1 = name := by simpa using List.find?_some hfound
    obtain ⟨entries, hentries, hsorted⟩ := provider.sorted found (List.mem_of_find?_eq_some hfound)
    exact ⟨entries, hname ▸ hentries, hsorted⟩
  next =>
    split at h
    next => cases h
    next entries hentries =>
      cases h
      exact ⟨entries, hentries, rfl⟩

theorem packagesForName_eq_error {provider : MemoProvider sorting db} {name : Name}
    {err : PackageInfo.LoadError} (h : provider.packagesForName name = .error err) :
    forPackage V S db name = .error err := by
  unfold packagesForName at h
  split at h
  next => cases h
  next =>
    split at h
    next err' herr =>
      cases h
      exact herr
    next => cases h

theorem bestCandidate_eq_error {provider : MemoProvider sorting db} {req : Requirement S}
    {err : PackageInfo.LoadError} (h : provider.bestCandidate req = .error err) :
    forPackage V S db req.name = .error err := by
  unfold bestCandidate at h
  split at h
  next err' hpkgs =>
    cases h
    exact packagesForName_eq_error hpkgs
  next => cases h

theorem bestCandidate_eq_ok {provider provider' : MemoProvider sorting db}
    {req : Requirement S} {result : Option (Requirement S)}
    (h : provider.bestCandidate req = .ok (result, provider')) :
    ∃ entries, forPackage V S db req.name = .ok entries ∧
      result = ((sorting.sort entries).find? fun entry => qualifies req entry).map
        (candidate req) := by
  unfold bestCandidate at h
  split at h
  next => cases h
  next pkgs provider'' hpkgs =>
    cases h
    obtain ⟨entries, hentries, rfl⟩ := packagesForName_eq_ok hpkgs
    exact ⟨entries, hentries, rfl⟩

end MemoProvider

/-! ## The documented candidate -/

/-- The entry is in the range of the requirement and has every library that the
requirement lists. -/
def Qualifying (req : Requirement S) (e : PackageEntry V S) : Prop :=
  IntervalOps.Mem req.versions e.pkg.id.version ∧
    ∀ libs, req.uses = .explicitUsesList libs → ∀ lib ∈ libs, ∃ l ∈ e.pkg.libraries, l.name = lib

omit [Semester] in
theorem qualifies_iff {req : Requirement S} {e : PackageEntry V S} :
    qualifies req e = true ↔ Qualifying req e := by
  simp only [qualifies, Bool.and_eq_true, VersionRangeSet.containsVersion_iff, hasAllLibraries_iff,
    PackageInfo.hasLibrary_iff, Qualifying]

/-- The candidate is a qualifying entry of the lowest version that qualifies, with
the highest revision that does of that version. -/
structure LowestMatching (db : CacheDb) (req c : Requirement S) (e : PackageEntry V S) : Prop where
  enabled : EnabledEntry db req.name e
  qualifying : Qualifying req e
  name : c.name = e.pkg.id.name
  version : soleVersion c.versions = some e.pkg.id.version
  revision : c.pkgVersion = some e.pkg.id.revision
  version_le : ∀ other : PackageEntry V S, EnabledEntry db req.name other → Qualifying req other →
    e.pkg.id.version ≤ other.pkg.id.version
  revision_le : ∀ other : PackageEntry V S, EnabledEntry db req.name other → Qualifying req other →
    other.pkg.id.version ≤ e.pkg.id.version → other.pkg.id.revision ≤ e.pkg.id.revision

/-- Whatever was asked before, there is no candidate exactly when no enabled entry
qualifies, and otherwise it is the lowest match. Only metadata that does not load
keeps the provider from an answer. -/
theorem bestCandidate_lowest (provider : MemoProvider sorting db) (req : Requirement S) :
    match provider.bestCandidate req with
    | .error err => ∃ row ∈ packageRows db req.name, pkgEntryFromRow V S row = .error err
    | .ok (result, _) =>
      (result = none ↔ ∀ e : PackageEntry V S, EnabledEntry db req.name e → ¬ Qualifying req e) ∧
        ∀ c, result = some c → ∃ e : PackageEntry V S, LowestMatching db req c e := by
  split
  next err herr => exact Fallible.exists_of_mapM_eq_error (MemoProvider.bestCandidate_eq_error herr)
  next result provider' hok =>
    obtain ⟨entries, hentries, rfl⟩ := MemoProvider.bestCandidate_eq_ok hok
    have hmem : ∀ e, e ∈ sorting.sort entries ↔ EnabledEntry db req.name e := fun e =>
      (sorting.perm entries).mem_iff.trans (mem_forPackage hentries)
    constructor
    · simp only [Option.map_eq_none_iff, List.find?_eq_none, hmem, qualifies_iff]
    · intro c hc
      obtain ⟨e, hfind, rfl⟩ := Option.map_eq_some_iff.mp hc
      have hle : ∀ other, EnabledEntry db req.name other → Qualifying req other →
          other = e ∨ EntryLE e other := fun other hother hqualifying =>
        sorting.find?_le hfind ((mem_forPackage hentries).mpr hother) (qualifies_iff.mpr hqualifying)
      refine ⟨e, (hmem e).mp (List.mem_of_find?_eq_some hfind), ?_, rfl, soleVersion_single _, rfl,
        fun other hother hqualifying => ?_, fun other hother hqualifying hversion => ?_⟩
      · exact qualifies_iff.mp (List.find?_some hfind)
      · rcases hle other hother hqualifying with rfl | hlt | ⟨hversion, -⟩
        · exact le_rfl
        · exact hlt.le
        · exact hversion
      · rcases hle other hother hqualifying with rfl | hlt | ⟨-, hrevision⟩
        · exact le_rfl
        · exact absurd hlt (not_lt_of_ge hversion)
        · exact hrevision

/-! ## The stable sorting -/

/-- The sorting that keeps the order of equal entries. -/
def EntrySort.stable : EntrySort V S where
  sort entries := entries.insertionSort EntryLE
  perm entries := List.perm_insertionSort EntryLE entries
  pairwise entries := List.pairwise_insertionSort EntryLE entries

/-- With the stable sorting the candidates are those of the answers alone: the
table makes no difference. -/
theorem MemoProvider.bestCandidate_stable {view : CacheView V S} {req : Requirement S}
    {provider provider' : MemoProvider EntrySort.stable db} {result : Option (Requirement S)}
    (hview : forPackage V S db req.name = .ok (view.forPackage req.name))
    (h : provider.bestCandidate req = .ok (result, provider')) :
    result = Solve.bestCandidate view req := by
  obtain ⟨entries, hentries, rfl⟩ := bestCandidate_eq_ok h
  rw [hview] at hentries
  cases hentries
  rfl

end Bpt.Solve
