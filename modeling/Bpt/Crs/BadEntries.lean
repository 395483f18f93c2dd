-- SUMMARY: What a malformed entry of a remote repository does to a synchronisation.
import Bpt.Crs.CacheRuns
import Bpt.Crs.Info.Valid

/-!
# Malformed entries

A synchronisation skips the entries whose metadata is invalid. An entry that is
not JSON, that fails in another way, or whose libraries do not have distinct
names is not skipped: it ends the synchronisation.
-/

namespace Bpt.Crs

open Fallible Transaction Keyed Walk

/-! ## Distinct library names -/

/-- The constraint `UNIQUE (pkg_id, name)` of the libraries. -/
def LibNamesUnique (db : CacheDb) : Prop :=
  Unique (fun l : LibraryRow => (l.pkgId, l.name)) db.libraries

theorem keeps_insertLibrary (pkgId : Nat) (columns : String × String) :
    Keeps LibNamesUnique (insertLibrary pkgId columns) := by
  refine Keeps.get_bind fun db hdb => ?_
  split
  next => exact hdb
  next hnew =>
    refine Unique.append_singleton hdb fun hmem => hnew ?_
    obtain ⟨l, hl, hkey⟩ := List.mem_map.mp hmem
    rw [Prod.mk.injEq] at hkey
    exact List.any_eq_true.mpr ⟨l, hl, by simp [hkey.1, hkey.2]⟩

theorem keeps_insertLibraries (pkgId : Nat) (json : Json) :
    Keeps LibNamesUnique (insertLibraries pkgId json) := by
  unfold insertLibraries
  split
  · exact Keeps.throw _
  · exact Keeps.forEach (keeps_insertLibrary pkgId) _

theorem keeps_librariesAutoUpdate (old new : PackageRow) :
    Keeps LibNamesUnique (librariesAutoUpdate old new) := by
  unfold librariesAutoUpdate
  split
  · exact (Keeps.modify fun _ h => Unique.filter h _).bind fun _ => keeps_insertLibraries _ _
  · exact Keeps.pure ()

theorem keeps_updatePackage (json : Json) (remoteId remoteRevno : Nat) :
    Keeps LibNamesUnique (updatePackage json remoteId remoteRevno) := by
  refine Keeps.get_bind fun db hdb => ?_
  dsimp only
  split
  · exact hdb
  split
  next old _ =>
    rw [exec_bind, exec_set]
    exact keeps_librariesAutoUpdate _ _ _ hdb
  next =>
    rw [exec_bind, exec_set]
    exact keeps_insertLibraries _ _ _ hdb

theorem keeps_updateRemote (url : Url) (info : RemoteRepoDbInfo) (remote : RemoteDb) :
    Keeps LibNamesUnique (updateRemote url info remote) := by
  refine Keeps.get_bind fun db hdb => ?_
  split
  · exact hdb
  · split <;> exact hdb

theorem libNamesUnique_deletePackages {db : CacheDb} (h : LibNamesUnique db)
    (test : PackageRow → Bool) : LibNamesUnique (deletePackages test db) :=
  Unique.filter h _

section

variable {V S : Type} [Semver V] [VersionRangeSet S V] [Semester] {db db' : CacheDb}

theorem keeps_importEntry (remoteId remoteRevno : Nat) (text : JsonText) :
    Keeps LibNamesUnique (importEntry V S remoteId remoteRevno text) := by
  unfold importEntry
  split
  · exact Keeps.throw _
  · exact Keeps.pure ()
  · split
    · exact Keeps.throw _
    · exact keeps_updatePackage _ _ _

theorem keeps_syncRemote (outside : Outside) (url : Url) :
    Keeps LibNamesUnique (syncRemote V S outside url) := by
  refine Keeps.bind (fun db hdb => ?_) fun info => ?_
  · rwa [exec_getRemoteDb]
  · split
    · exact Keeps.modify fun _ h => h
    · split
      · exact Keeps.throw _
      · refine Keeps.transaction ((keeps_updateRemote _ _ _).bind fun row => ?_)
        refine (Keeps.forEach (keeps_importEntry row.1 row.2) _).bind fun _ => ?_
        exact Keeps.modify fun _ h => libNamesUnique_deletePackages h _

theorem CacheReachable.libNamesUnique (h : CacheReachable V S db) : LibNamesUnique db := by
  refine Reach.Reachable.invariant ?_ ?_ h
  · rintro _ rfl
    exact List.nodup_nil
  · intro s t hs hstep
    cases hstep with
    | sync outside url => exact keeps_syncRemote outside url s hs
    | enable url => exact hs
    | forget => exact libNamesUnique_deletePackages hs _
    | reopen => exact hs

/-! ## Storing succeeds -/

omit [Semver V] [VersionRangeSet S V] [Semester] in
/-- Libraries of distinct names are inserted, when the package has none yet. -/
theorem exec_insertLibrary_loop_ok {pkgId : Nat} {columns : List (String × String)}
    (hnames : (columns.map (·.1)).Nodup)
    (hnew : ∀ l ∈ db.libraries, l.pkgId = pkgId → l.name ∉ columns.map (·.1)) :
    ∃ db', exec (Transaction.forEach (insertLibrary pkgId) columns) db = (.ok (), db') := by
  induction columns generalizing db with
  | nil => exact ⟨db, rfl⟩
  | cons column columns ih =>
      rw [List.map_cons, List.nodup_cons] at hnames
      let row : LibraryRow :=
        ⟨freshRowid (db.libraries.map (·.libId)), pkgId, column.1, column.2⟩
      have hfresh : (db.libraries.any fun l => l.pkgId = pkgId && l.name = column.1) = false := by
        rw [List.any_eq_false]
        intro l hl hkey
        simp only [Bool.and_eq_true, decide_eq_true_eq] at hkey
        exact hnew l hl hkey.1 (by simp [hkey.2])
      have hinsert : exec (insertLibrary pkgId column) db =
          (.ok (), { db with libraries := db.libraries ++ [row] }) := by
        unfold insertLibrary
        rw [exec_bind, exec_get]
        dsimp only
        rw [hfresh]
        rfl
      let db₁ : CacheDb := { db with libraries := db.libraries ++ [row] }
      have hnew' : ∀ l ∈ db₁.libraries, l.pkgId = pkgId → l.name ∉ columns.map (·.1) := by
        intro l hl hpkg hmem
        rcases List.mem_append.mp hl with hl | hl
        · exact hnew l hl hpkg (by simp [hmem])
        · rw [List.mem_singleton.mp hl] at hmem
          exact hnames.1 hmem
      obtain ⟨db', hrest⟩ := ih hnames.2 hnew'
      exact ⟨db', exec_bind_eq_ok.mpr ⟨(), db₁, hinsert, hrest⟩⟩

omit [Semester] in
/-- A package whose libraries have distinct names is stored. -/
theorem exec_updatePackage_ok {pkg : PackageInfo V S} {json : Json} (hdb : db.Valid)
    (hjson : pkg.toJson = some json) (hnames : (pkg.libraries.map (·.name)).Nodup)
    (remoteId remoteRevno : Nat) :
    ∃ db', exec (updatePackage json remoteId remoteRevno) db = (.ok (), db') := by
  have hcolumns := libraryColumns_toJson hjson
  have hnodup : ((pkg.libraries.map fun lib => (lib.name.str, lib.path.toGenericString)).map
      (·.1)).Nodup := by
    rw [List.map_map]
    have := hnames.map Name.str_injective
    rwa [List.map_map] at this
  have hinsert : ∀ (db : CacheDb) (pkgId : Nat), (∀ l ∈ db.libraries, l.pkgId ≠ pkgId) →
      ∃ db', exec (insertLibraries pkgId json) db = (.ok (), db') := by
    intro db pkgId hnone
    unfold insertLibraries
    rw [hcolumns]
    exact exec_insertLibrary_loop_ok hnodup fun l hl hpkg => absurd hpkg (hnone l hl)
  unfold updatePackage
  rw [exec_bind, exec_get, packageColumns_toJson hjson]
  dsimp only
  split
  next hnull => cases hnull
  next =>
    split
    next old hfind =>
      rw [exec_bind, exec_set]
      dsimp only
      unfold librariesAutoUpdate
      split
      next =>
        obtain ⟨db', hrest⟩ := hinsert { db with
          packages := db.packages.map fun row =>
            if row.pkgId = old.pkgId then { old with json, remoteRevno } else row
          libraries := db.libraries.filter fun l => l.pkgId ≠ old.pkgId } old.pkgId (by
            intro l hl
            simpa using (List.mem_filter.mp hl).2)
        exact ⟨db', exec_bind_eq_ok.mpr ⟨⟨⟩, _, rfl, hrest⟩⟩
      next => exact ⟨_, rfl⟩
    next =>
      rw [exec_bind, exec_set]
      refine hinsert _ _ fun l hl heq => ?_
      obtain ⟨row, hrow, hpkg⟩ := hdb.libPkg l hl
      refine freshRowid_not_mem (db.packages.map (·.pkgId)) ?_
      rw [← heq, ← hpkg]
      exact List.mem_map_of_mem hrow

/-! ## Entries that are not skipped -/

/-- The entry neither is stored nor skipped: it is not JSON, it fails to load with
another error than invalid metadata, or its libraries do not have distinct names. -/
def BlocksSync (V S : Type) [Semver V] [VersionRangeSet S V] (text : JsonText) : Prop :=
  match (PackageInfo.fromJsonStr text : Except _ (PackageInfo V S)) with
  | .ok pkg => ¬ pkg.id.revision < 1 ∧ ¬ (pkg.libraries.map (·.name)).Nodup
  | .error (.invalidMetaData _) => False
  | .error _ => True

/-- The packages of the well-formed entries: those that load, with a positive
revision and distinct library names. -/
def wellFormedPackages (V S : Type) [Semver V] [VersionRangeSet S V] (texts : List JsonText) :
    List (PackageInfo V S) :=
  (publishedPackages V S texts).filter fun pkg => (pkg.libraries.map (·.name)).Nodup

theorem wellFormedPackages_eq {texts : List JsonText} (h : ∀ text ∈ texts, ¬ BlocksSync V S text) :
    wellFormedPackages V S texts = publishedPackages V S texts := by
  unfold wellFormedPackages
  rw [List.filter_eq_self]
  intro pkg hpkg
  obtain ⟨text, htext, hload⟩ := List.mem_filterMap.mp hpkg
  have hnot := h text htext
  unfold BlocksSync at hnot
  cases hread : (PackageInfo.fromJsonStr text : Except _ (PackageInfo V S)) with
  | error err => simp [hread] at hload
  | ok pkg' =>
      simp only [hread] at hload hnot
      split at hload
      next => cases hload
      next hrevision =>
        cases hload
        simpa [hrevision] using hnot

/-- An entry that is stored or skipped does not block. -/
theorem not_blocksSync_of_exec {text : JsonText} {remoteId revno : Nat} (hdb : db.Valid)
    (hunique : LibNamesUnique db)
    (hexec : exec (importEntry V S remoteId revno text) db = (.ok (), db')) :
    ¬ BlocksSync V S text := by
  have hunique' := keeps_importEntry (V := V) (S := S) remoteId revno text db hunique
  rw [hexec] at hunique'
  unfold importEntry readMetaJson at hexec
  unfold BlocksSync
  cases hread : (PackageInfo.fromJsonStr text : Except _ (PackageInfo V S)) with
  | error err =>
      cases err with
      | invalidMetaData value => exact fun hfalse => hfalse
      | jsonParse => simp [hread] at hexec
      | uncaught exn => simp [hread] at hexec
  | ok pkg =>
      rintro ⟨hrevision, hdup⟩
      obtain ⟨json, hjson⟩ := PackageInfo.exists_toJson hread
      simp only [hread, hrevision, if_false, hjson] at hexec
      obtain ⟨pkgId, hstored⟩ := exec_updatePackage hdb hexec
      -- the stored libraries have distinct names
      refine hdup (List.Nodup.of_map Name.str ?_)
      have hlibs := hstored.libs
      rw [libraryColumns_toJson hjson, Option.some.injEq] at hlibs
      have hnames : (pkg.libraries.map (·.name)).map Name.str =
          (libraryRowsOf db' pkgId).map (·.name) := by
        have := congrArg (List.map (·.1)) hlibs
        rw [librariesOf, List.map_map, List.map_map] at this
        rw [List.map_map]
        exact this
      rw [hnames]
      have hkeys := Unique.filter hunique' fun l => decide (l.pkgId = pkgId)
      refine List.Nodup.map_on (fun l hl l' hl' heq => ?_) hkeys.of_map
      refine hkeys.eq_of_key hl hl' (Prod.ext ?_ heq)
      rw [(mem_libraryRowsOf.mp hl).2, (mem_libraryRowsOf.mp hl').2]

/-- An entry that does not block is stored or skipped. -/
theorem exec_importEntry_ok {text : JsonText} {remoteId revno : Nat} (hdb : db.Valid)
    (hnot : ¬ BlocksSync V S text) :
    ∃ db', exec (importEntry V S remoteId revno text) db = (.ok (), db') := by
  unfold importEntry readMetaJson
  unfold BlocksSync at hnot
  cases hread : (PackageInfo.fromJsonStr text : Except _ (PackageInfo V S)) with
  | error err =>
      cases err with
      | invalidMetaData value => exact ⟨db, rfl⟩
      | jsonParse => simp [hread] at hnot
      | uncaught exn => simp [hread] at hnot
  | ok pkg =>
      simp only [hread] at hnot
      by_cases hrevision : pkg.id.revision < 1
      · simp only [if_pos hrevision]
        exact ⟨db, rfl⟩
      · have hnames : (pkg.libraries.map (·.name)).Nodup := by simpa [hrevision] using hnot
        obtain ⟨json, hjson⟩ := PackageInfo.exists_toJson hread
        simp only [if_neg hrevision, hjson]
        exact exec_updatePackage_ok hdb hjson hnames remoteId revno

omit [Semver V] [VersionRangeSet S V] [Semester] in
theorem exec_updateRemote_ok {remote : RemoteDb} {name : String}
    (hname : remote.selfName = some name) (url : Url) (info : RemoteRepoDbInfo) (db : CacheDb) :
    ∃ row db', exec (updateRemote url info remote) db = (.ok row, db') := by
  unfold updateRemote
  rw [exec_bind, exec_get, hname]
  dsimp only
  cases db.remotes.find? fun row => row.uniqueName = name with
  | some row => exact ⟨_, _, rfl⟩
  | none => exact ⟨_, _, rfl⟩

/-- The import of a named repository succeeds exactly when no entry blocks. -/
theorem exec_importRemote_ok_iff {url : Url} {info : RemoteRepoDbInfo} {remote : RemoteDb}
    {name : String} (hdb : db.Valid) (hunique : LibNamesUnique db)
    (hname : remote.selfName = some name) :
    (∃ db', exec (importRemote V S url info remote) db = (.ok (), db')) ↔
      ∀ text ∈ remote.metaJsons, ¬ BlocksSync V S text := by
  obtain ⟨⟨remoteId, revno⟩, db₁, hupdate⟩ := exec_updateRemote_ok hname url info db
  obtain ⟨_, _, hupdated⟩ := exec_updateRemote hdb hupdate
  obtain ⟨r, hr, hid, hrevno, _, _⟩ := hupdated.row
  have holder : ∀ row ∈ db₁.packages, row.remoteId = remoteId → row.remoteRevno < revno := by
    rw [hupdated.packages]
    exact hupdated.older
  have hstart := importing_nil (V := V) (S := S) hupdated.valid holder
  have hunique₁ : LibNamesUnique db₁ := by
    have := keeps_updateRemote url info remote db hunique
    rwa [hupdate] at this
  unfold importRemote
  constructor
  · rintro ⟨db', hexec⟩
    obtain ⟨row, db₁', hupdate', hrest⟩ := exec_bind_eq_ok.mp hexec
    rw [hupdate] at hupdate'
    cases hupdate'
    obtain ⟨_, db₂, hloop, _⟩ := exec_bind_eq_ok.mp hrest
    have hend := exec_forEach_eq_ok (P := fun handled t =>
        Importing V S db₁ remoteId revno handled t ∧ LibNamesUnique t ∧
          ∀ text ∈ handled, ¬ BlocksSync V S text)
      ⟨hstart, hunique₁, by simp⟩
      (by
        rintro handled text rest t t' - ⟨himporting, hunique, hnot⟩ hstep
        refine ⟨himporting.step ⟨r, hr, hid, hrevno⟩ hstep, ?_, fun text' htext' => ?_⟩
        · have := keeps_importEntry (V := V) (S := S) remoteId revno text t hunique
          rwa [hstep] at this
        · rcases List.mem_append.mp htext' with htext' | htext'
          · exact hnot text' htext'
          · rw [List.mem_singleton.mp htext']
            exact not_blocksSync_of_exec himporting.valid hunique hstep)
      hloop
    exact hend.2.2
  · intro hnot
    obtain ⟨db₂, hloop⟩ := exec_forEach_ok
      (fun t => ∃ handled, Importing V S db₁ remoteId revno handled t)
      (fun text htext t ⟨handled, himporting⟩ => by
        obtain ⟨t', hstep⟩ := exec_importEntry_ok himporting.valid (hnot text htext)
        exact ⟨t', hstep, _, himporting.step ⟨r, hr, hid, hrevno⟩ hstep⟩)
      ⟨[], hstart⟩
    exact ⟨_, exec_bind_eq_ok.mpr ⟨_, db₁, hupdate, exec_bind_eq_ok.mpr ⟨(), db₂, hloop, rfl⟩⟩⟩

/-- The synchronisation returns normally, and stores under its remote exactly the
packages of the well-formed entries. -/
def BadEntriesSkipped (V S : Type) [Semver V] [VersionRangeSet S V] (db : CacheDb)
    (outside : Outside) (url : Url) (remote : RemoteDb) : Prop :=
  ∃ db' r, exec (syncRemote V S outside url) db = (.ok (), db') ∧ r ∈ db'.remotes ∧
    r.url = url.str ∧ remote.selfName = some r.uniqueName ∧
    HoldsExactly V S db' r (wellFormedPackages V S remote.metaJsons)

/-- Malformed entries are skipped exactly when no entry blocks. -/
theorem badEntriesSkipped_iff (db : CacheDb) (hreach : CacheReachable V S db) (outside : Outside)
    (url : Url) (info : RemoteRepoDbInfo) (remote : RemoteDb)
    (hfetch : exec (getRemoteDb outside url) db = (.ok info, db)) (hstale : info.upToDate = false)
    (hrepo : info.repo = some remote) (hname : remote.selfName.isSome) :
    BadEntriesSkipped V S db outside url remote ↔
      ∀ text ∈ remote.metaJsons, ¬ BlocksSync V S text := by
  obtain ⟨name, hname⟩ := Option.isSome_iff_exists.mp hname
  have himport : (∃ db', exec (importRemote V S url info remote) db = (.ok (), db')) ↔ _ :=
    exec_importRemote_ok_iff hreach.valid hreach.libNamesUnique hname
  constructor
  · rintro ⟨db', r, hsync, _⟩
    exact himport.mp ⟨db', exec_importRemote_of_syncRemote hfetch hstale hrepo hsync⟩
  · intro hnot
    obtain ⟨db', hexec⟩ := himport.mpr hnot
    obtain ⟨r, himported⟩ := exec_importRemote hreach.valid hexec
    refine ⟨db', r, ?_, himported.mem, himported.url, himported.name, ?_⟩
    · unfold syncRemote
      rw [exec_bind, hfetch]
      dsimp only
      rw [hstale, hrepo]
      exact exec_transaction_eq_ok.mpr hexec
    · rw [wellFormedPackages_eq hnot]
      exact himported.exact_

end

/-! ### A repository with an entry that is not JSON -/

section

attribute [local instance] Semester.permissive

/-- A good entry between one of the wrong shape and one without a positive revision. -/
def skippedTexts : List JsonText := [some (.str "foo"), fooText 1 "." [], fooText 0 "." []]

theorem badEntriesSkipped_iff_foo :
    BadEntriesSkipped PatchRelease (Finset Nat) {} (fooRepo skippedTexts) fooUrl
        ⟨some "foo-repo", skippedTexts⟩ ↔
      ∀ text ∈ skippedTexts, ¬ BlocksSync PatchRelease (Finset Nat) text :=
  badEntriesSkipped_iff {} (.init rfl) (fooRepo skippedTexts) fooUrl
    ⟨some ⟨some "foo-repo", skippedTexts⟩, none, none, none, none, false⟩
    ⟨some "foo-repo", skippedTexts⟩ rfl rfl rfl rfl

/-- An entry that is not JSON ends the synchronisation. -/
theorem not_badEntriesSkipped :
    ¬ BadEntriesSkipped PatchRelease (Finset Nat) {} (fooRepo [none]) fooUrl
      ⟨some "foo-repo", [none]⟩ := by
  rintro ⟨db', r, hsync, _⟩
  have hfails : (syncFoo [none] {}).1 = .error (.load .jsonParse) := by decide +kernel
  unfold syncFoo at hfails
  rw [hsync] at hfails
  cases hfails

end

end Bpt.Crs
