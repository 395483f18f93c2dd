-- SUMMARY: The two maps of the libraries of an index, and when they give a library the same identity.
import Bpt.Base.UniqueMap
import Bpt.Libman.Index

/-!
# The libraries of an index

The usage requirements and the library index both keep the libraries of all packages of
an index. The usage requirements take the name of the package for the first part of a key,
and the library index its namespace, as the entries `Uses` do.
-/

namespace Bpt.Libman

open Fallible

/-- The libraries of an index under their own names and what `first` reads of their package,
in the order of the two loops. -/
def Index.entries (index : Index) (first : Package → String) : List (Usage × Library) :=
  index.packages.flatMap fun pkg =>
    pkg.libraries.map fun lib => (⟨first pkg, lib.name⟩, lib)

/-- How a call ends: it returns, it throws, or it ends the program. -/
inductive CallEnd (ε α : Type) where
  | returned (a : α)
  | threw (e : ε)
  | terminated

/-- A `noexcept` function that meets an exception ends the program. -/
def CallEnd.ofNoexcept {ε α : Type} : Except ε α → CallEnd ε α
  | .ok a => .returned a
  | .error _ => .terminated

/-- `usage_requirement_map::from_lm_index`. -/
def fromLmIndex (index : Index) : CallEnd UsageError (UniqueMap Usage Library) :=
  .ofNoexcept ((UniqueMap.ofEntries (index.entries (·.name))).mapError .dupLibraryId)

/-- The pair of strings that is the key is written as a usage. -/
def Index.buildLibraryIndex (index : Index) : Except String (UniqueMap Usage Library) :=
  (UniqueMap.ofEntries (index.entries (·.namespace_))).mapError fun pair =>
    "Duplicate library '" ++ pair.namespace_ ++ "/" ++ pair.name ++ "' defined in the libman tree"

variable {index : Index} {first : Package → String}
  {requirements libraries : UniqueMap Usage Library}

/-! ## What the maps hold -/

/-- A package of which `first` reads `s` lists the library. -/
def Index.Lists (index : Index) (first : Package → String) (s : String) (lib : Library) : Prop :=
  ∃ pkg ∈ index.packages, first pkg = s ∧ lib ∈ pkg.libraries

/-- Two places of the index list a library of the same name under the same string. -/
def Index.Repeats (index : Index) (first : Package → String) : Prop :=
  ¬ (index.packages.flatMap fun pkg => pkg.libraries.map fun lib => (first pkg, lib.name)).Nodup

theorem Index.mem_entries {key : Usage} {lib : Library} :
    (key, lib) ∈ index.entries first ↔
      index.Lists first key.namespace_ lib ∧ lib.name = key.name := by
  unfold entries Lists
  rw [List.mem_flatMap]
  constructor
  · rintro ⟨pkg, hpkg, hmem⟩
    obtain ⟨lib', hlib', hentry⟩ := List.mem_map.mp hmem
    cases hentry
    exact ⟨⟨pkg, hpkg, rfl, hlib'⟩, rfl⟩
  · rintro ⟨⟨pkg, hpkg, hfirst, hlib⟩, hname⟩
    refine ⟨pkg, hpkg, List.mem_map.mpr ⟨lib, hlib, ?_⟩⟩
    rw [hfirst, hname]

theorem Index.unique_entries :
    Keyed.Unique Prod.fst (index.entries first) ↔ ¬ index.Repeats first := by
  have hkeys : (index.entries first).map Prod.fst =
      (index.packages.flatMap fun pkg => pkg.libraries.map fun lib => (first pkg, lib.name)).map
        fun key => ⟨key.1, key.2⟩ := by
    unfold entries
    rw [List.map_flatMap, List.map_flatMap]
    simp only [List.map_map, Function.comp_def]
  have hinj : Function.Injective fun key : String × String => Usage.mk key.1 key.2 := by
    rintro ⟨s, n⟩ ⟨s', n'⟩ h
    cases h
    rfl
  unfold Keyed.Unique Repeats
  rw [hkeys, List.nodup_map_iff hinj, not_not]

theorem Index.exists_entries : (∃ m, UniqueMap.ofEntries (index.entries first) = .ok m) ↔
    ¬ index.Repeats first :=
  UniqueMap.exists_ofEntries_iff.trans unique_entries

/-- Two readings of the packages give the same entries when they list the same libraries. -/
theorem Index.mem_entries_iff {first' : Package → String} :
    (∀ entry, entry ∈ index.entries first ↔ entry ∈ index.entries first') ↔
      ∀ s lib, index.Lists first s lib ↔ index.Lists first' s lib := by
  constructor
  · intro h s lib
    have hentry := h (⟨s, lib.name⟩, lib)
    rw [mem_entries, mem_entries, and_iff_left rfl, and_iff_left rfl] at hentry
    exact hentry
  · rintro h ⟨key, lib⟩
    rw [mem_entries, mem_entries, h]

theorem fromLmIndex_eq_returned :
    fromLmIndex index = .returned requirements ↔ requirements.entries = index.entries (·.name) := by
  unfold fromLmIndex
  rw [← UniqueMap.ofEntries_eq_ok]
  cases UniqueMap.ofEntries (index.entries (·.name)) <;> simp [Except.mapError, CallEnd.ofNoexcept]

/-- What `add` throws does not leave `from_lm_index`. -/
theorem fromLmIndex_ne_threw {e : UsageError} : fromLmIndex index ≠ .threw e := by
  unfold fromLmIndex CallEnd.ofNoexcept
  split <;> exact nofun

theorem Index.buildLibraryIndex_eq_ok :
    index.buildLibraryIndex = .ok libraries ↔ libraries.entries = index.entries (·.namespace_) :=
  mapError_eq_ok.trans UniqueMap.ofEntries_eq_ok

theorem exists_fromLmIndex :
    (∃ requirements, fromLmIndex index = .returned requirements) ↔ ¬ index.Repeats (·.name) :=
  (exists_congr fun _ => fromLmIndex_eq_returned.trans UniqueMap.ofEntries_eq_ok.symm).trans
    Index.exists_entries

theorem Index.exists_buildLibraryIndex :
    (∃ libraries, index.buildLibraryIndex = .ok libraries) ↔ ¬ index.Repeats (·.namespace_) :=
  (exists_congr fun _ => mapError_eq_ok).trans exists_entries

/-! ## The map that is traversed -/

theorem usagePackages_entries : (index.usagePackages.flatMap fun pkg =>
    pkg.2.map fun lib => (Usage.mk pkg.1 lib.1, lib.2)) =
      (index.entries (·.name)).map fun entry => (entry.1, entry.2.toLmLibrary) := by
  unfold Index.usagePackages Index.entries
  rw [List.flatMap_map, List.map_flatMap]
  simp only [List.map_map, Function.comp_def]

/-- A traversal reads of every library what it needs, from a map with the same keys. -/
theorem fromLmIndex_usagePackages {m : UsageRequirementMap}
    (h : UsageRequirementMap.fromLmIndex index.usagePackages = .ok m) :
    ∃ requirements, fromLmIndex index = .returned requirements ∧
      ∀ key, m.get key = (requirements.get key).map (·.toLmLibrary) := by
  have hperm := UsageRequirementMap.foldlM_add_perm h
  rw [usagePackages_entries, UsageRequirementMap.empty, List.append_nil] at hperm
  have hunique : Keyed.Unique Prod.fst (index.entries (·.name)) := by
    have hkeys := (hperm.map Prod.fst).nodup_iff.mp m.unique
    rw [List.map_map] at hkeys
    exact hkeys
  refine ⟨⟨_, hunique⟩, fromLmIndex_eq_returned.mpr rfl, fun key => Option.ext fun lib => ?_⟩
  rw [UsageRequirementMap.get_eq_some, hperm.mem_iff, List.mem_map, Option.map_eq_some_iff]
  constructor
  · rintro ⟨⟨key', lib'⟩, hmem, hentry⟩
    cases hentry
    exact ⟨lib', UniqueMap.get_eq_some.mpr hmem, rfl⟩
  · rintro ⟨lib', hget, rfl⟩
    exact ⟨(key, lib'), UniqueMap.get_eq_some.mp hget, rfl⟩

/-! ## The identity of a library -/

/-- Every entry `Uses` names a library of the index, by the namespace of its package. -/
def Index.ClosedUnderUses (index : Index) : Prop :=
  ∀ pkg ∈ index.packages, ∀ lib ∈ pkg.libraries, ∀ key ∈ lib.uses,
    ∃ used, index.Lists (·.namespace_) key.namespace_ used ∧ used.name = key.name

/-- The two maps of an index give its libraries the same identities. -/
structure SameIdentity (index : Index) : Prop where
  duplicate : (∃ e, fromLmIndex index = .threw e) ↔ ∃ e, index.buildLibraryIndex = .error e
  same : ∀ libraries, index.buildLibraryIndex = .ok libraries →
    ∃ requirements, fromLmIndex index = .returned requirements ∧
      ∀ key, requirements.get key = libraries.get key
  found : index.ClosedUnderUses → ∀ requirements, fromLmIndex index = .returned requirements →
    ∀ pkg ∈ index.packages, ∀ lib ∈ pkg.libraries, ∀ key ∈ lib.uses,
      (requirements.get key).isSome = true

/-- The packages that list the library. -/
def Index.packagesOf (index : Index) (lib : Library) : List Package :=
  index.packages.filter fun pkg => lib ∈ pkg.libraries

/-- No two libraries of one name are in one namespace, and the packages that list
a library have their namespaces for names. -/
structure NamedByNamespace (index : Index) : Prop where
  inPackage : ∀ pkg ∈ index.packages, (pkg.libraries.map (·.name)).Nodup
  acrossPackages : index.packages.Pairwise fun pkg pkg' => pkg.namespace_ = pkg'.namespace_ →
    ∀ lib ∈ pkg.libraries, ∀ lib' ∈ pkg'.libraries, lib.name ≠ lib'.name
  /-- For a library that one package lists: its name is its namespace. -/
  names : ∀ lib, ((index.packagesOf lib).map (·.name)).Perm ((index.packagesOf lib).map (·.namespace_))

theorem Index.not_repeats_iff : ¬ index.Repeats first ↔
    (∀ pkg ∈ index.packages, (pkg.libraries.map (·.name)).Nodup) ∧
      index.packages.Pairwise fun pkg pkg' => first pkg = first pkg' →
        ∀ lib ∈ pkg.libraries, ∀ lib' ∈ pkg'.libraries, lib.name ≠ lib'.name := by
  unfold Repeats
  rw [not_not, List.nodup_flatMap]
  refine and_congr (forall₂_congr fun pkg _ => ?_) (List.Pairwise.iff fun pkg pkg' => ?_)
  · have hinj : Function.Injective (Prod.mk (first pkg) : String → String × String) :=
      Prod.mk_right_injective _
    rw [← List.nodup_map_iff hinj, List.map_map]
    rfl
  · rw [Function.onFun, List.disjoint_left]
    constructor
    · intro h hfirst lib hlib lib' hlib' hname
      exact h (List.mem_map_of_mem hlib) (List.mem_map.mpr ⟨lib', hlib', by rw [hfirst, hname]⟩)
    · intro h key hkey hkey'
      obtain ⟨lib, hlib, rfl⟩ := List.mem_map.mp hkey
      obtain ⟨lib', hlib', heq⟩ := List.mem_map.mp hkey'
      exact h (Prod.mk.inj heq).1.symm lib hlib lib' hlib' (Prod.mk.inj heq).2.symm

theorem Index.lists_iff {s : String} {lib : Library} :
    index.Lists first s lib ↔ s ∈ (index.packagesOf lib).map first := by
  unfold Lists packagesOf
  simp only [List.mem_map, List.mem_filter, decide_eq_true_eq, and_assoc, and_comm]

/-- In a namespace without repeated names a library is listed by one package. -/
theorem Index.nodup_packagesOf (hrepeats : ¬ index.Repeats first) (lib : Library) :
    ((index.packagesOf lib).map first).Nodup := by
  have hacross := (not_repeats_iff.mp hrepeats).2
  refine List.pairwise_map.mpr ((hacross.filter fun pkg => lib ∈ pkg.libraries).imp_of_mem ?_)
  intro pkg pkg' hpkg hpkg' hne hfirst
  have hlib : lib ∈ pkg.libraries := by simpa using (List.mem_filter.mp hpkg).2
  have hlib' : lib ∈ pkg'.libraries := by simpa using (List.mem_filter.mp hpkg').2
  exact hne hfirst lib hlib lib hlib' rfl

/-- Without repeated keys the same libraries are listed under the same strings if
the packages of each library have the same strings. -/
theorem Index.lists_iff_perm {first' : Package → String} (hrepeats : ¬ index.Repeats first') :
    (∀ s lib, index.Lists first s lib ↔ index.Lists first' s lib) ↔
      ∀ lib, ((index.packagesOf lib).map first).Perm ((index.packagesOf lib).map first') := by
  simp only [lists_iff]
  rw [forall_comm]
  refine forall_congr' fun lib => ⟨fun h => ?_, fun h s => h.mem_iff⟩
  have hsub : (index.packagesOf lib).map first' ⊆ (index.packagesOf lib).map first :=
    fun s hs => (h s).mpr hs
  have hsubperm := List.subperm_of_subset (nodup_packagesOf hrepeats lib) hsub
  exact (hsubperm.perm_of_length_le (by simp)).symm

/-- Keys that are not repeated stay so when the same libraries are listed. -/
theorem Index.not_repeats_of_lists {first' : Package → String} (hrepeats : ¬ index.Repeats first')
    (hlists : ∀ s lib, index.Lists first s lib ↔ index.Lists first' s lib) :
    ¬ index.Repeats first := by
  have hunique := unique_entries.mpr hrepeats
  have hsub : index.entries first' ⊆ index.entries first :=
    fun entry hentry => (mem_entries_iff.mpr hlists entry).mpr hentry
  have hlength : (index.entries first).length ≤ (index.entries first').length := by
    simp [entries, List.length_flatMap]
  have hperm := (List.subperm_of_subset hunique.of_map hsub).perm_of_length_le hlength
  exact unique_entries.mp ((hperm.map Prod.fst).nodup_iff.mp hunique)

/-- The identities are the same when the packages that list a library have their
namespaces for names and no key is repeated, and only then. -/
theorem sameIdentity_iff : SameIdentity index ↔ NamedByNamespace index := by
  constructor
  · intro h
    have hnamespace : ¬ index.Repeats (·.namespace_) := by
      rw [← Index.exists_buildLibraryIndex, ← not_not (a := ∃ libraries, _), ← exists_error_iff,
        ← h.duplicate]
      rintro ⟨e, he⟩
      exact fromLmIndex_ne_threw he
    obtain ⟨libraries, hlibraries⟩ := Index.exists_buildLibraryIndex.mpr hnamespace
    obtain ⟨requirements, hrequirements, hsame⟩ := h.same libraries hlibraries
    rw [UniqueMap.get_eq_iff, fromLmIndex_eq_returned.mp hrequirements,
      Index.buildLibraryIndex_eq_ok.mp hlibraries, Index.mem_entries_iff] at hsame
    obtain ⟨hin, hacross⟩ := Index.not_repeats_iff.mp hnamespace
    exact ⟨hin, hacross, (Index.lists_iff_perm hnamespace).mp hsame⟩
  · intro h
    have hnamespace : ¬ index.Repeats (·.namespace_) :=
      Index.not_repeats_iff.mpr ⟨h.inPackage, h.acrossPackages⟩
    have hlists := (Index.lists_iff_perm hnamespace).mpr h.names
    refine ⟨iff_of_false ?_ ?_, ?_, ?_⟩
    · rintro ⟨e, he⟩
      exact fromLmIndex_ne_threw he
    · rw [exists_error_iff, not_not, Index.exists_buildLibraryIndex]
      exact hnamespace
    · intro libraries hlibraries
      obtain ⟨requirements, hrequirements⟩ :=
        exists_fromLmIndex.mpr (Index.not_repeats_of_lists hnamespace hlists)
      refine ⟨requirements, hrequirements, ?_⟩
      rw [UniqueMap.get_eq_iff, fromLmIndex_eq_returned.mp hrequirements,
        Index.buildLibraryIndex_eq_ok.mp hlibraries, Index.mem_entries_iff]
      exact hlists
    · intro hclosed requirements hrequirements pkg hpkg lib hlib key hkey
      obtain ⟨used, hused, hname⟩ := hclosed pkg hpkg lib hlib key hkey
      have hget : requirements.get key = some used := by
        rw [UniqueMap.get_eq_some, fromLmIndex_eq_returned.mp hrequirements]
        exact Index.mem_entries.mpr ⟨(hlists _ _).mpr hused, hname⟩
      rw [hget]
      rfl

/-- A package whose namespace is not its name, and a library that uses one of it. -/
def splitIndex : Index where
  packages := [
    { name := "neo-sqlite3", namespace_ := "neo", requires_ := [], libraries := [
        { name := "sqlite3", linkablePath := none, includePaths := [], uses := [], links := []
          preprocDefs := [], specialUses := [] }] },
    { name := "app", namespace_ := "app", requires_ := [], libraries := [
        { name := "app", linkablePath := none, includePaths := [], uses := [⟨"neo", "sqlite3"⟩]
          links := [], preprocDefs := [], specialUses := [] }] }]

/-- The library that is used is in the index, but not in the usage requirements. -/
theorem splitIndex_not_sameIdentity : ¬ SameIdentity splitIndex := by
  intro h
  have hclosed : splitIndex.ClosedUnderUses := by
    simp [splitIndex, Index.ClosedUnderUses, Index.Lists]
  obtain ⟨requirements, hrequirements⟩ := exists_fromLmIndex.mpr
    (show ¬ splitIndex.Repeats (·.name) by simp [splitIndex, Index.Repeats])
  have hfound := h.found hclosed requirements hrequirements _ (.tail _ (.head _)) _ (.head _)
    ⟨"neo", "sqlite3"⟩ (.head _)
  obtain ⟨lib, hlib⟩ := Option.isSome_iff_exists.mp hfound
  rw [UniqueMap.get_eq_some, fromLmIndex_eq_returned.mp hrequirements, Index.mem_entries] at hlib
  obtain ⟨⟨pkg, hpkg, hname, -⟩, -⟩ := hlib
  simp only [splitIndex, List.mem_cons, List.not_mem_nil, or_false] at hpkg
  obtain rfl | rfl := hpkg
  · exact absurd hname (by decide)
  · exact absurd hname (by decide)

end Bpt.Libman
