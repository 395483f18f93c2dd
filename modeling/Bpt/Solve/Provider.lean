-- SUMMARY: The two questions the dependency solver asks about the package cache.
import Bpt.Base.SortedSearch
import Bpt.Base.Saturate
import Bpt.Crs.CacheView
import Bpt.Solve.Requirement

/-!
# The metadata provider

`bestCandidate` chooses a package for a requirement, and `requirementsOf` gives
the requirements of a chosen package. The two look the package up separately.
-/

namespace Bpt.Solve

open Crs

variable {V S : Type} [Semver V] [VersionRangeSet S V]

/-- The only version of a set of one version. The assertion asks for one
interval; the version is where it begins. -/
def soleVersion (versions : S) : Option V :=
  match IntervalOps.iterIntervals versions with
  | [iv] => some iv.1
  | _ => none

theorem soleVersion_single (v : V) : soleVersion (VersionRangeSet.single v : S) = some v := by
  simp [soleVersion, VersionRangeSet.iterIntervals_single]

/-! ## Candidates -/

/-- Order entries by version, and the entries of one version from the highest
revision down. -/
def EntryLE (a b : PackageEntry V S) : Prop :=
  a.pkg.id.version < b.pkg.id.version ∨
    (a.pkg.id.version ≤ b.pkg.id.version ∧ b.pkg.id.revision ≤ a.pkg.id.revision)

instance (a b : PackageEntry V S) : Decidable (EntryLE a b) :=
  inferInstanceAs (Decidable (_ ∨ _))

instance : IsTrans (PackageEntry V S) EntryLE where
  trans a b c hab hbc := by
    rcases hab with hab | ⟨hab, hab'⟩ <;> rcases hbc with hbc | ⟨hbc, hbc'⟩
    · exact .inl (hab.trans hbc)
    · exact .inl (hab.trans_le hbc)
    · exact .inl (lt_of_le_of_lt hab hbc)
    · exact .inr ⟨hab.trans hbc, hbc'.trans hab'⟩

instance : Std.Total (EntryLE : PackageEntry V S → PackageEntry V S → Prop) where
  total a b := by
    by_cases hab : a.pkg.id.version < b.pkg.id.version
    · exact .inl (.inl hab)
    · by_cases hba : b.pkg.id.version < a.pkg.id.version
      · exact .inr (.inl hba)
      · rcases le_total a.pkg.id.revision b.pkg.id.revision with hrev | hrev
        · exact .inr (.inr ⟨Semver.le_of_not_gt hab, hrev⟩)
        · exact .inl (.inr ⟨Semver.le_of_not_gt hba, hrev⟩)

def packagesForName (view : CacheView V S) (name : Name) : List (PackageEntry V S) :=
  (view.forPackage name).insertionSort EntryLE

/-- The entry has every library that the uses list. -/
def hasAllLibraries (uses : DependencyUses) (pkg : PackageInfo V S) : Bool :=
  match uses with
  | .implicitUsesAll => true
  | .explicitUsesList u => u.all fun lib => pkg.hasLibrary lib

/-- The test of `best_candidate` on an entry of the package. -/
def qualifies (req : Requirement S) (entry : PackageEntry V S) : Bool :=
  IntervalOps.containsVersion req.versions entry.pkg.id.version &&
    hasAllLibraries req.uses entry.pkg

/-- The requirement that stands for a chosen entry. -/
def candidate (req : Requirement S) (cand : PackageEntry V S) : Requirement S :=
  Requirement.make cand.pkg.id.name (VersionRangeSet.single cand.pkg.id.version) req.uses
    (some cand.pkg.id.revision)

def bestCandidate (view : CacheView V S) (req : Requirement S) : Option (Requirement S) :=
  ((packagesForName view req.name).find? fun entry => qualifies req entry).map (candidate req)

/-- The entry that comes first among those that qualify: no version below its
version qualifies, and no higher revision of it. -/
def Selected (view : CacheView V S) (req : Requirement S) (entry : PackageEntry V S) : Prop :=
  SortedSearch.IsFirst EntryLE (fun e => qualifies req e) (view.forPackage req.name) entry

theorem bestCandidate_eq_some {view : CacheView V S} {req c : Requirement S} :
    bestCandidate view req = some c ↔ ∃ e, Selected view req e ∧ candidate req e = c := by
  simp only [bestCandidate, packagesForName, Option.map_eq_some_iff, Selected,
    SortedSearch.find?_insertionSort]

theorem candidate_uses (req : Requirement S) (e : PackageEntry V S) :
    (candidate req e).uses = req.uses :=
  Requirement.make_uses req.sorted

theorem soleVersion_candidate (req : Requirement S) (e : PackageEntry V S) :
    soleVersion (candidate req e).versions = some e.pkg.id.version :=
  soleVersion_single _

omit [Semver V] [VersionRangeSet S V] in
theorem hasAllLibraries_iff {uses : DependencyUses} {pkg : PackageInfo V S} :
    hasAllLibraries uses pkg = true ↔
      ∀ libs, uses = .explicitUsesList libs → ∀ lib ∈ libs, pkg.hasLibrary lib = true := by
  cases uses with
  | implicitUsesAll => simp [hasAllLibraries]
  | explicitUsesList u => simp [hasAllLibraries]

/-! ## Requirements of a package -/

/-- The assertions of `requirements_of`. -/
inductive AssertionFailure where
  /-- `sole_version` was given another number of intervals than one. -/
  | soleVersion
  /-- No metadata for the name and version. -/
  | emptyMetadata
  /-- A used library does not exist. -/
  | invalidUsing
  deriving DecidableEq

/-- The sibling libraries that a library of the package uses, if it exists. -/
def intraUsing (pkg : PackageInfo V S) (lib : Name) : Option (Finset Name) :=
  (pkg.findLibrary lib).map fun l => l.intraUsing.toFinset

/-- Every library name that `using` lists mention. -/
def mentioned (pkg : PackageInfo V S) : Finset Name :=
  (pkg.libraries.flatMap fun l => l.intraUsing).toFinset

omit [Semver V] [VersionRangeSet S V] in
theorem intraUsing_subset (pkg : PackageInfo V S) (lib : Name) (used : Finset Name)
    (h : intraUsing pkg lib = some used) : used ⊆ mentioned pkg := by
  obtain ⟨l, hl, rfl⟩ := Option.map_eq_some_iff.mp h
  intro n hn
  have hmem := (PackageInfo.findLibrary_some hl).1
  simp only [mentioned, List.mem_toFinset, List.mem_flatMap] at hn ⊢
  exact ⟨l, hmem, hn⟩

/-- The libraries named by the uses: all of the package when they are not listed. -/
def initialUses (pkg : PackageInfo V S) : DependencyUses → Finset Name
  | .implicitUsesAll => (pkg.libraries.map fun l => l.name).toFinset
  | .explicitUsesList u => u.toFinset

/-- The libraries used directly or through siblings. -/
def usedLibraries (pkg : PackageInfo V S) (uses : DependencyUses) : Option (Finset Name) :=
  Saturate.saturate (intraUsing pkg) (mentioned pkg) (intraUsing_subset pkg) (initialUses pkg uses)

/-- The dependencies of the given libraries, as requirements. -/
def dependenciesOf (pkg : PackageInfo V S) (uses : Finset Name) : List (Requirement S) :=
  ((pkg.libraries.filter fun l => l.name ∈ uses).flatMap fun l => l.dependencies).map
    Requirement.fromCrsDep

/-- The part of `requirements_of` after the metadata is read. -/
def requirementsFrom (pkg : PackageInfo V S) (uses : DependencyUses) :
    Except AssertionFailure (List (Requirement S)) :=
  match usedLibraries pkg uses with
  | none => .error .invalidUsing
  | some used => .ok (dependenciesOf pkg used)

def requirementsOf (view : CacheView V S) (req : Requirement S) :
    Except AssertionFailure (List (Requirement S)) :=
  match soleVersion req.versions with
  | none => .error .soleVersion
  | some version =>
    match view.forPackageVersion req.name version with
    | [] => .error .emptyMetadata
    | row :: _ => requirementsFrom row.pkg req.uses

/-- The row whose metadata `requirements_of` reads. -/
def metadataRow (view : CacheView V S) (req : Requirement S) : Option (PackageEntry V S) :=
  (soleVersion req.versions).bind fun version => (view.forPackageVersion req.name version).head?

/-- `lib` is used when the uses are: it is named by them, or used by a sibling. -/
def UsedBy (pkg : PackageInfo V S) (uses : DependencyUses) (lib : Name) : Prop :=
  Saturate.Reach (intraUsing pkg) (initialUses pkg uses) lib

omit [Semver V] [VersionRangeSet S V] in
theorem intraUsing_eq_none {pkg : PackageInfo V S} {lib : Name} :
    intraUsing pkg lib = none ↔ pkg.hasLibrary lib = false := by
  rw [← PackageInfo.findLibrary_isSome]
  simp [intraUsing]

omit [Semver V] [VersionRangeSet S V] in
theorem usedLibraries_eq_none {pkg : PackageInfo V S} {uses : DependencyUses} :
    usedLibraries pkg uses = none ↔ ∃ lib, UsedBy pkg uses lib ∧ pkg.hasLibrary lib = false := by
  simp only [usedLibraries, Saturate.saturate_eq_none, intraUsing_eq_none, UsedBy]

omit [Semver V] [VersionRangeSet S V] in
theorem mem_dependenciesOf {pkg : PackageInfo V S} {uses : Finset Name} {r : Requirement S} :
    r ∈ dependenciesOf pkg uses ↔
      ∃ lib ∈ pkg.libraries, lib.name ∈ uses ∧
        ∃ dep ∈ lib.dependencies, Requirement.fromCrsDep dep = r := by
  simp only [dependenciesOf, List.mem_map, List.mem_flatMap, List.mem_filter, decide_eq_true_eq]
  constructor
  · rintro ⟨dep, ⟨lib, ⟨hlib, huses⟩, hdep⟩, rfl⟩
    exact ⟨lib, hlib, huses, dep, hdep, rfl⟩
  · rintro ⟨lib, hlib, huses, dep, hdep, rfl⟩
    exact ⟨dep, ⟨lib, ⟨hlib, huses⟩, hdep⟩, rfl⟩

/-- The requirements depend on the cache through the row that is read. -/
theorem requirementsOf_of_metadataRow {view : CacheView V S} {req : Requirement S}
    {row : PackageEntry V S} (h : metadataRow view req = some row) :
    requirementsOf view req = requirementsFrom row.pkg req.uses := by
  obtain ⟨version, hversion, hhead⟩ := Option.bind_eq_some_iff.mp h
  obtain ⟨rows, hrows⟩ := List.head?_eq_some_iff.mp hhead
  simp only [requirementsOf, hversion, hrows]

omit [Semver V] [VersionRangeSet S V] in
theorem requirementsFrom_eq_ok {pkg : PackageInfo V S} {uses : DependencyUses}
    {reqs : List (Requirement S)} (h : requirementsFrom pkg uses = .ok reqs) :
    (∀ lib, UsedBy pkg uses lib → pkg.hasLibrary lib = true) ∧
      ∀ lib ∈ pkg.libraries, UsedBy pkg uses lib.name →
        ∀ dep ∈ lib.dependencies, Requirement.fromCrsDep dep ∈ reqs := by
  unfold requirementsFrom at h
  cases hused : usedLibraries pkg uses with
  | none => simp [hused] at h
  | some used =>
      simp only [hused, Except.ok.injEq] at h
      refine ⟨fun lib hlib => ?_, fun lib hmem hlib dep hdep => ?_⟩
      · by_contra hno
        have hnone := usedLibraries_eq_none.mpr ⟨lib, hlib, by simpa using hno⟩
        simp [hused] at hnone
      · rw [← h, mem_dependenciesOf]
        have huses := (Saturate.mem_saturate _ hused lib.name).mpr hlib
        exact ⟨lib, hmem, huses, dep, hdep, rfl⟩

omit [Semver V] [VersionRangeSet S V] in
theorem requirementsFrom_eq_error {pkg : PackageInfo V S} {uses : DependencyUses}
    {err : AssertionFailure} :
    requirementsFrom pkg uses = .error err ↔ usedLibraries pkg uses = none ∧ err = .invalidUsing := by
  unfold requirementsFrom
  cases usedLibraries pkg uses with
  | none => simp [eq_comm]
  | some used => simp

/-- What a normal return of `requirementsOf` says: every used library of the row
it reads exists, and the requirements contain those libraries' dependencies. -/
theorem requirementsOf_eq_ok {view : CacheView V S} {req : Requirement S}
    {reqs : List (Requirement S)} (h : requirementsOf view req = .ok reqs) :
    ∃ row, metadataRow view req = some row ∧
      (∀ lib, UsedBy row.pkg req.uses lib → row.pkg.hasLibrary lib = true) ∧
      ∀ lib ∈ row.pkg.libraries, UsedBy row.pkg req.uses lib.name →
        ∀ dep ∈ lib.dependencies, Requirement.fromCrsDep dep ∈ reqs := by
  cases hrow : metadataRow view req with
  | none =>
      unfold requirementsOf at h
      unfold metadataRow at hrow
      split at h
      · cases h
      next version hversion =>
        rw [hversion, Option.bind_some, List.head?_eq_none_iff] at hrow
        simp [hrow] at h
  | some row =>
      rw [requirementsOf_of_metadataRow hrow] at h
      exact ⟨row, rfl, requirementsFrom_eq_ok h⟩

end Bpt.Solve
