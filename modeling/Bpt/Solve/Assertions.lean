-- SUMMARY: When the assertions on the metadata of a candidate hold, over whole runs of the package cache.
import Bpt.Crs.CacheQuery
import Bpt.Solve.Metadata

/-!
# Assertions of `requirementsOf`

Nothing that stores metadata checks that a library uses existing siblings, and
two entries of one version may have different libraries. The assertions hold in
every run that only imports repositories without such packages.
-/

namespace Bpt.Solve

open Crs Transaction Keyed Reach

variable {V S : Type}

/-! ## Agreeing metadata -/

/-- Every sibling that a library of the package uses exists. -/
def SiblingsExist (pkg : PackageInfo V S) : Prop :=
  ∀ lib ∈ pkg.libraries, ∀ used ∈ lib.intraUsing, pkg.hasLibrary used = true

/-- Two packages of one name and version have libraries of the same names. -/
def SameLibraries (pkg pkg' : PackageInfo V S) : Prop :=
  pkg.id.name = pkg'.id.name → pkg.id.version = pkg'.id.version →
    ∀ lib, pkg.hasLibrary lib = pkg'.hasLibrary lib

/-- The packages agree on their libraries. -/
structure Agreeing (loaded : PackageInfo V S → Prop) : Prop where
  siblings : ∀ pkg, loaded pkg → SiblingsExist pkg
  libraries : ∀ pkg, loaded pkg → ∀ pkg', loaded pkg' → SameLibraries pkg pkg'

/-- Packages that differ in nothing that `requirementsOf` looks up. -/
def SameUses (pkg pkg' : PackageInfo V S) : Prop :=
  pkg'.id = pkg.id ∧ List.Forall₂ LibraryInfo.SameUsing pkg.libraries pkg'.libraries

theorem sameUses_refl (pkg : PackageInfo V S) : SameUses pkg pkg :=
  ⟨rfl, List.forall₂_same.mpr fun _ _ => ⟨rfl, rfl⟩⟩

theorem SameUses.hasLibrary {pkg pkg' : PackageInfo V S} (h : SameUses pkg pkg') (lib : Name) :
    pkg'.hasLibrary lib = pkg.hasLibrary lib := by
  have hlibs := h.2
  unfold PackageInfo.hasLibrary
  generalize pkg.libraries = libs at hlibs
  generalize pkg'.libraries = libs' at hlibs
  induction hlibs with
  | nil => rfl
  | cons hlib _ ih => simp only [List.any_cons, hlib.1, ih]

theorem SameUses.exists_library {pkg pkg' : PackageInfo V S} (h : SameUses pkg pkg')
    {lib' : LibraryInfo S} (hlib' : lib' ∈ pkg'.libraries) :
    ∃ lib ∈ pkg.libraries, lib'.intraUsing = lib.intraUsing := by
  have hlibs := h.2
  generalize pkg.libraries = libs at hlibs
  generalize pkg'.libraries = libs' at hlibs hlib'
  induction hlibs with
  | nil => cases hlib'
  | cons hlib _ ih =>
      rcases List.mem_cons.mp hlib' with rfl | hlib'
      · exact ⟨_, List.mem_cons_self, hlib.2⟩
      · obtain ⟨lib, hmem, heq⟩ := ih hlib'
        exact ⟨lib, List.mem_cons_of_mem _ hmem, heq⟩

theorem SameUses.siblingsExist {pkg pkg' : PackageInfo V S} (h : SameUses pkg pkg')
    (hpkg : SiblingsExist pkg) : SiblingsExist pkg' := by
  intro lib' hlib' used hused
  obtain ⟨lib, hlib, heq⟩ := h.exists_library hlib'
  rw [h.hasLibrary]
  exact hpkg lib hlib used (heq ▸ hused)

/-- Packages agree when they look up like packages that agree. -/
theorem Agreeing.of_sameUses {loaded loaded' : PackageInfo V S → Prop} (h : Agreeing loaded)
    (hsame : ∀ pkg', loaded' pkg' → ∃ pkg, loaded pkg ∧ SameUses pkg pkg') : Agreeing loaded' where
  siblings pkg' hpkg' := by
    obtain ⟨pkg, hpkg, hsame⟩ := hsame pkg' hpkg'
    exact hsame.siblingsExist (h.siblings pkg hpkg)
  libraries a' ha' b' hb' hname hversion lib := by
    obtain ⟨a, ha, hsame_a⟩ := hsame a' ha'
    obtain ⟨b, hb, hsame_b⟩ := hsame b' hb'
    rw [hsame_a.1, hsame_b.1] at hname hversion
    rw [hsame_a.hasLibrary, hsame_b.hasLibrary]
    exact h.libraries a ha b hb hname hversion lib

/-- The libraries that are used exist, when the listed ones do and every sibling
that a library uses. -/
theorem usedLibraries_isSome {pkg : PackageInfo V S} {uses : DependencyUses}
    (hsiblings : SiblingsExist pkg) (huses : hasAllLibraries uses pkg = true) :
    ∃ used, usedLibraries pkg uses = some used := by
  rw [← Option.isSome_iff_exists, ← Option.ne_none_iff_isSome]
  intro hnone
  obtain ⟨lib, hused, hmissing⟩ := usedLibraries_eq_none.mp hnone
  have hexists : pkg.hasLibrary lib = true := by
    refine Saturate.Reach.induction (P := fun lib => pkg.hasLibrary lib = true) ?_ ?_ hused
    · intro lib hlib
      cases uses with
      | implicitUsesAll =>
          simp only [initialUses, List.mem_toFinset, List.mem_map] at hlib
          exact PackageInfo.hasLibrary_iff.mpr hlib
      | explicitUsesList u =>
          exact hasAllLibraries_iff.mp huses u rfl lib (List.mem_toFinset.mp hlib)
    · rintro lib used _ ⟨_, hsome, hused⟩
      obtain ⟨l, hl, rfl⟩ := Option.map_eq_some_iff.mp hsome
      exact hsiblings l (PackageInfo.findLibrary_some hl).1 used (List.mem_toFinset.mp hused)
  rw [hmissing] at hexists
  cases hexists

/-! ## Runs -/

section

variable [Semver V] [VersionRangeSet S V] [Semester]

/-- The metadata that the rows of the cache load as. -/
def Loaded (V S : Type) [Semver V] [VersionRangeSet S V] (db : CacheDb)
    (pkg : PackageInfo V S) : Prop :=
  ∃ row ∈ db.packages, PackageInfo.fromJsonData row.json = .ok pkg

/-- The packages of a remote that does not have the given name. -/
def LoadedFromOthers (V S : Type) [Semver V] [VersionRangeSet S V] (db : CacheDb)
    (selfName : Option String) (pkg : PackageInfo V S) : Prop :=
  ∃ r ∈ db.remotes, selfName ≠ some r.uniqueName ∧
    ∃ row ∈ db.packages, row.remoteId = r.remoteId ∧ PackageInfo.fromJsonData row.json = .ok pkg

/-- A synchronisation that imports a repository imports one whose packages agree
with each other and with those of the other remotes. -/
def ImportsAgreeing (V S : Type) [Semver V] [VersionRangeSet S V] (db : CacheDb)
    (outside : Outside) (url : Url) : Prop :=
  ∀ info remote, exec (getRemoteDb outside url) db = (.ok info, db) → info.upToDate = false →
    info.repo = some remote →
    Agreeing fun pkg : PackageInfo V S =>
      IsLast (·.id) (publishedPackages V S remote.metaJsons) pkg ∨
        LoadedFromOthers V S db remote.selfName pkg

theorem agreeing_of_imported {db db' : CacheDb} {url : Url} {remote : RemoteDb} {r : RemoteRow}
    (h : Imported V S db db' url remote r)
    (hagree : Agreeing fun pkg : PackageInfo V S =>
      IsLast (·.id) (publishedPackages V S remote.metaJsons) pkg ∨
        LoadedFromOthers V S db remote.selfName pkg) :
    Agreeing (Loaded V S db') := by
  refine hagree.of_sameUses ?_
  rintro pkg' ⟨row, hrow, hload⟩
  by_cases hremote : row.remoteId = r.remoteId
  · obtain ⟨pkg, hlast, hjson⟩ := (h.exact_.rows row.json).mp ⟨row, hrow, hremote, rfl⟩
    exact ⟨pkg, .inl hlast, PackageInfo.fromJsonData_toJson hjson hload⟩
  · obtain ⟨r', hr', hid⟩ := h.valid.pkgRemote row hrow
    have hname : r'.uniqueName ≠ r.uniqueName := by
      intro hname
      rw [h.valid.uniqueNames.eq_of_key hr' h.mem hname] at hid
      exact hremote hid.symm
    refine ⟨pkg', .inr ⟨r', (h.otherRemotes r' hname).mp hr', ?_, row, ?_, hid.symm, hload⟩,
      sameUses_refl pkg'⟩
    · rw [h.name]
      exact fun heq => hname (Option.some.inj heq).symm
    · exact (h.others.packages row hremote).mp hrow

theorem agreeing_of_reachable {db : CacheDb} (h : CacheReachableBy V S (ImportsAgreeing V S) db) :
    Agreeing (Loaded V S db) := by
  have hboth : db.Valid ∧ Agreeing (Loaded V S db) := by
    refine Reachable.invariant (I := fun db => db.Valid ∧ Agreeing (Loaded V S db)) ?_ ?_ h
    · rintro _ rfl
      refine ⟨CacheDb.valid_empty, ?_, ?_⟩ <;> rintro _ ⟨_, hrow, _⟩ <;> cases hrow
    · rintro s t ⟨hvalid, hagree⟩ hstep
      refine ⟨hstep.valid hvalid, ?_⟩
      rcases hstep.packages hvalid with
        hsub | ⟨outside, url, hallowed, info, remote, hfetch, hstale, hrepo, r, himported⟩
      · refine hagree.of_sameUses ?_
        rintro pkg ⟨row, hrow, hload⟩
        exact ⟨pkg, ⟨row, hsub hrow, hload⟩, sameUses_refl pkg⟩
      · exact agreeing_of_imported himported (hallowed info remote hfetch hstale hrepo)
  exact hboth.2

theorem loaded_of_shows {db : CacheDb} {view : CacheView V S} {name : Name} (h : Shows db view name)
    {e : PackageEntry V S} (he : e ∈ view.forPackage name) : Loaded V S db e.pkg := by
  obtain ⟨row, hrow, hload⟩ := h.forPackage.exists_row he
  exact ⟨row, mem_enabledPackages (List.mem_filter.mp hrow).1, (pkgEntryFromRow_eq_ok.mp hload).1⟩

/-- In every run that only imports agreeing packages, the requirements of every
candidate are found: no assertion fails. -/
theorem requirementsOf_candidate_ok (db : CacheDb)
    (hreach : CacheReachableBy V S (ImportsAgreeing V S) db) (view : CacheView V S)
    (req c : Requirement S) (hshows : Shows db view req.name)
    (hcand : bestCandidate view req = some c) : ∃ reqs, requirementsOf view c = .ok reqs := by
  have hagree := agreeing_of_reachable hreach
  obtain ⟨e, he, rfl⟩ := bestCandidate_eq_some.mp hcand
  obtain ⟨row, rows, hrows⟩ :=
    List.exists_cons_of_ne_nil (List.ne_nil_of_mem he.mem_forPackageVersion)
  have hrow : metadataRow view (candidate req e) = some row := by
    rw [metadataRow_candidate he, hrows, List.head?_cons]
  obtain ⟨hmem, hversion⟩ := CacheView.mem_forPackageVersion.mp
    (show row ∈ view.forPackageVersion req.name e.pkg.id.version by simp [hrows])
  have hloaded := loaded_of_shows hshows hmem
  have hsame := hagree.libraries e.pkg (loaded_of_shows hshows he.mem) row.pkg hloaded
    ((view.name_of_mem he.mem).trans (view.name_of_mem hmem).symm) hversion.symm
  have huses : hasAllLibraries req.uses row.pkg = true := by
    have hlibs := he.hasLibraries
    rw [hasAllLibraries_iff] at hlibs ⊢
    intro libs heq lib hlib
    rw [← hsame]
    exact hlibs libs heq lib hlib
  obtain ⟨used, hused⟩ := usedLibraries_isSome (hagree.siblings row.pkg hloaded) huses
  refine ⟨dependenciesOf row.pkg used, ?_⟩
  rw [requirementsOf_of_metadataRow hrow, candidate_uses, requirementsFrom, hused]

end

/-! ### A package with one library -/

section

attribute [local instance] Semester.permissive

def fooPackage (uses : List Name) : PackageInfo PatchRelease (Finset Nat) where
  id := ⟨⟨"foo"⟩, ⟨1⟩, 1⟩
  libraries := [⟨⟨"main"⟩, ⟨false, ["."], false⟩, uses, [], [], []⟩]
  extra := .null
  meta_ := .null

/-- The cache that has synchronised and enabled a repository of the package. -/
def fooDb (uses : List String) : CacheDb :=
  (enableRemote fooUrl (syncFoo [fooText 1 "." uses] {}).2).2

/-- The row of the package in this cache. -/
def fooRow (uses : List String) : PackageRow where
  pkgId := 1
  json := .obj
    [("name", .str "foo"), ("version", .str "0.0.1"), ("pkg-version", .num 1), ("extra", .null),
     ("meta", .null),
     ("libraries", .arr [.obj
       [("name", .str "main"), ("path", .str "."), ("using", .arr (uses.map .str)),
        ("test-using", .arr []), ("dependencies", .arr []), ("test-dependencies", .arr [])]]),
     ("schema-version", .num 1)]
  remoteId := 1
  remoteRevno := 1

def fooEntry (uses : List Name) : PackageEntry PatchRelease (Finset Nat) := ⟨1, 1, fooPackage uses⟩

theorem shows_foo {uses : List String} {names : List Name}
    (henabled : enabledPackages (fooDb uses) = [fooRow uses])
    (hload : PackageInfo.fromJsonData (fooRow uses).json = .ok (fooPackage names)) :
    Shows (fooDb uses) (.ofRows [fooEntry names]) ⟨"foo"⟩ := by
  refine CacheView.shows_ofRows ?_ ⟨"foo"⟩
  rw [henabled]
  refine .cons ⟨pkgEntryFromRow_eq_ok.mpr ⟨hload, rfl, rfl⟩, rfl, ?_⟩ .nil
  show some "0.0.1" = some (Semver.toStr (⟨1⟩ : PatchRelease))
  decide +kernel

theorem requirementsOf_candidate_ok_foo :
    ∃ reqs, requirementsOf (.ofRows [fooEntry []])
      (candidate (Requirement.fooUsing .implicitUsesAll) (fooEntry [])) = .ok reqs := by
  have hpublished : publishedPackages PatchRelease (Finset Nat) [fooText 1 "." []] =
      [fooPackage []] := by
    decide +kernel
  have hagree : ImportsAgreeing PatchRelease (Finset Nat) {} (fooRepo [fooText 1 "." []]) fooUrl := by
    intro info remote hfetch _ hrepo
    have hrepo' : info.repo = some ⟨some "foo-repo", [fooText 1 "." []]⟩ := by
      cases hfetch
      rfl
    cases hrepo.symm.trans hrepo'
    have hfoo : Agreeing (· = fooPackage []) := by
      constructor
      · rintro _ rfl lib hlib used hused
        cases List.mem_singleton.mp hlib
        cases hused
      · rintro _ rfl _ rfl _ _ lib
        rfl
    refine hfoo.of_sameUses ?_
    rintro pkg (hlast | ⟨_, hr, _⟩)
    · rw [hpublished] at hlast
      exact ⟨pkg, List.mem_singleton.mp hlast.mem, sameUses_refl pkg⟩
    · cases hr
  refine requirementsOf_candidate_ok (fooDb []) ?_ _ (Requirement.fooUsing .implicitUsesAll) _
    (shows_foo (by decide +kernel) (by decide +kernel)) rfl
  exact .step (.step (.init rfl) (.sync {} (fooRepo [fooText 1 "." []]) fooUrl hagree))
    (.enable _ fooUrl)

/-- A library that uses a sibling which does not exist is imported, and the
assertion on its candidate fails. -/
theorem requirementsOf_candidate_not_ok :
    ∃ db, CacheReachable PatchRelease (Finset Nat) db ∧
      ∃ (view : CacheView PatchRelease (Finset Nat)) (req c : Requirement (Finset Nat)),
        Shows db view req.name ∧ bestCandidate view req = some c ∧
          requirementsOf view c = .error .invalidUsing := by
  let req := Requirement.fooUsing .implicitUsesAll
  refine ⟨fooDb ["ghost"], ?_, .ofRows [fooEntry [⟨"ghost"⟩]], req, candidate req _, ?_, rfl, ?_⟩
  · exact .step (.step (.init rfl) (.sync {} (fooRepo [fooText 1 "." ["ghost"]]) fooUrl trivial))
      (.enable _ fooUrl)
  · exact shows_foo (by decide +kernel) (by decide +kernel)
  · have hrow : metadataRow (.ofRows [fooEntry [⟨"ghost"⟩]])
        (candidate req (fooEntry [⟨"ghost"⟩])) = some (fooEntry [⟨"ghost"⟩]) := by
      rw [metadataRow, soleVersion_candidate, Option.bind_some]
      simp [CacheView.ofRows, show (candidate req (fooEntry [⟨"ghost"⟩])).name = ⟨"foo"⟩ from rfl,
        show (fooEntry [⟨"ghost"⟩]).pkg.id.name = ⟨"foo"⟩ from rfl]
    have hmissing : usedLibraries (fooPackage [⟨"ghost"⟩]) .implicitUsesAll = none := by
      refine usedLibraries_eq_none.mpr ⟨⟨"ghost"⟩, ?_, by decide⟩
      refine Saturate.Reach.tail (b := ⟨"main"⟩) (.of_mem (by decide)) ⟨{⟨"ghost"⟩}, ?_, by decide⟩
      decide
    rw [requirementsOf_of_metadataRow hrow]
    exact requirementsFrom_eq_error.mpr ⟨hmissing, rfl⟩

end

end Bpt.Solve
