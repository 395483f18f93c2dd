-- SUMMARY: What a synchronisation does to the package cache, on each of its paths.
import Bpt.Crs.CacheInvariant

/-!
# Importing a repository

The import loop is described by the entries it has handled: the packages stored
so far are the last ones published under each id. `exec_syncRemote` tells the
paths of a synchronisation apart.
-/

namespace Bpt.Crs

open Transaction Keyed

variable {V S : Type} [Semver V] [VersionRangeSet S V] {db db' : CacheDb}

/-! ## The columns of printed metadata -/

theorem packageColumns_toJson {pkg : PackageInfo V S} {json : Json} (h : pkg.toJson = some json) :
    packageColumns json =
      (some pkg.id.name.str, some (Semver.toStr pkg.id.version), some (pkg.id.revision : ℚ)) := by
  simp only [PackageInfo.toJson, Option.bind_eq_bind, Option.bind_eq_some_iff, Option.pure_def,
    Option.some.injEq] at h
  obtain ⟨libs, _, rfl⟩ := h
  rfl

/-- Printed packages have the same key columns exactly when they have one id. -/
theorem packageColumns_eq_iff {pkg pkg' : PackageInfo V S} {json json' : Json}
    (h : pkg.toJson = some json) (h' : pkg'.toJson = some json') :
    packageColumns json = packageColumns json' ↔ pkg.id = pkg'.id := by
  rw [packageColumns_toJson h, packageColumns_toJson h']
  constructor
  · intro heq
    simp only [Prod.mk.injEq, Option.some.injEq, Rat.intCast_inj] at heq
    obtain ⟨hname, hversion, hrevision⟩ := heq
    have hname := Name.str_injective hname
    have hversion := Semver.toStr_injective hversion
    cases hid : pkg.id
    cases hid' : pkg'.id
    simp_all
  · rintro heq
    rw [heq]

theorem libraryColumns_of_libraries {libs : List (LibraryInfo S)} {jsons : List Json}
    (h : libs.mapM LibraryInfo.toJson = some jsons) :
    (jsons.mapM fun lib => do
      let name ← jsonText "name" lib
      let path ← jsonText "path" lib
      return (name, path)) = some (libs.map fun lib => (lib.name.str, lib.path.toGenericString)) := by
  induction libs generalizing jsons with
  | nil =>
      cases h
      rfl
  | cons lib libs ih =>
      simp only [List.mapM_cons, Option.bind_eq_bind, Option.bind_eq_some_iff, Option.pure_def,
        Option.some.injEq] at h
      obtain ⟨json, hjson, rest, hrest, rfl⟩ := h
      simp only [LibraryInfo.toJson, Option.bind_eq_bind, Option.bind_eq_some_iff, Option.pure_def,
        Option.some.injEq] at hjson
      obtain ⟨deps, _, testDeps, _, rfl⟩ := hjson
      rw [List.mapM_cons, ih hrest]
      rfl

theorem libraryColumns_toJson {pkg : PackageInfo V S} {json : Json} (h : pkg.toJson = some json) :
    libraryColumns json =
      some (pkg.libraries.map fun lib => (lib.name.str, lib.path.toGenericString)) := by
  simp only [PackageInfo.toJson, Option.bind_eq_bind, Option.bind_eq_some_iff, Option.pure_def,
    Option.some.injEq] at h
  obtain ⟨libs, hlibs, rfl⟩ := h
  exact libraryColumns_of_libraries hlibs

/-! ## Storing one package -/

/-- The packages of other remotes than the given one, and their libraries, are
as they were. -/
structure OthersKept (start db : CacheDb) (remoteId : Nat) : Prop where
  packages : ∀ row, row.remoteId ≠ remoteId → (row ∈ db.packages ↔ row ∈ start.packages)
  libraries : ∀ row ∈ start.packages, row.remoteId ≠ remoteId →
    libraryRowsOf db row.pkgId = libraryRowsOf start row.pkgId

/-- Storing a package of the remote keeps the packages of the others. -/
theorem OthersKept.stored {start : CacheDb} {new : PackageRow}
    (h : OthersKept start db new.remoteId) (hdb : db.Valid) (hstored : Stored db db' new) :
    OthersKept start db' new.remoteId where
  packages := by
    intro row hremote
    rw [hstored.mem_packages hdb, ← h.packages row hremote]
    constructor
    · rintro (⟨hrow, _⟩ | rfl)
      · exact hrow
      · exact absurd rfl hremote
    · intro hrow
      exact .inl ⟨hrow, fun hkey => hremote (congrArg Prod.snd hkey)⟩
  libraries := by
    intro row hrow hremote
    rw [hstored.otherLibs, h.libraries row hrow hremote]
    refine hstored.pkgId_ne hdb ((h.packages row hremote).mpr hrow) fun hkey => ?_
    exact hremote (congrArg Prod.snd hkey)

/-- The rows of the stored revision after a package is stored. -/
theorem Stored.current_iff {json : Json} {pkgId remoteId revno : Nat} {json' : Json}
    (h : Stored db db' ⟨pkgId, json, remoteId, revno⟩) (hdb : db.Valid) :
    (∃ row ∈ db'.packages, row.remoteId = remoteId ∧ row.remoteRevno = revno ∧ row.json = json') ↔
      json' = json ∨ ((∃ row ∈ db.packages, row.remoteId = remoteId ∧ row.remoteRevno = revno ∧
        row.json = json') ∧ packageColumns json' ≠ packageColumns json) := by
  constructor
  · rintro ⟨row, hrow, hremote, hrevno, rfl⟩
    rcases (h.mem_packages hdb).mp hrow with ⟨hrow, hkey⟩ | rfl
    · refine .inr ⟨⟨row, hrow, hremote, hrevno, rfl⟩, fun hcolumns => hkey ?_⟩
      exact Prod.ext hcolumns hremote
    · exact .inl rfl
  · rintro (rfl | ⟨⟨row, hrow, hremote, hrevno, rfl⟩, hcolumns⟩)
    · exact ⟨_, (h.mem_packages hdb).mpr (.inr rfl), rfl, rfl, rfl⟩
    · refine ⟨row, (h.mem_packages hdb).mpr (.inl ⟨hrow, fun hkey => hcolumns ?_⟩), hremote,
        hrevno, rfl⟩
      exact congrArg Prod.fst hkey

/-- A further package replaces the printed one of its id. -/
theorem exists_isLast_concat_iff {pkgs : List (PackageInfo V S)} {pkg : PackageInfo V S}
    {json json' : Json} (hjson : pkg.toJson = some json) :
    (∃ p, IsLast (·.id) (pkgs ++ [pkg]) p ∧ p.toJson = some json') ↔
      json' = json ∨ ((∃ p, IsLast (·.id) pkgs p ∧ p.toJson = some json') ∧
        packageColumns json' ≠ packageColumns json) := by
  simp only [isLast_concat]
  constructor
  · rintro ⟨p, rfl | ⟨hlast, hid⟩, hp⟩
    · rw [hjson] at hp
      exact .inl (Option.some.inj hp).symm
    · exact .inr ⟨⟨p, hlast, hp⟩, fun h => hid ((packageColumns_eq_iff hp hjson).mp h)⟩
  · rintro (rfl | ⟨⟨p, hlast, hp⟩, hcolumns⟩)
    · exact ⟨pkg, .inl rfl, hjson⟩
    · exact ⟨p, .inr ⟨hlast, fun h => hcolumns ((packageColumns_eq_iff hp hjson).mpr h)⟩, hp⟩

/-! ## The import loop -/

variable [Semester]

/-- The packages of the entries that load and whose revision is positive. -/
def publishedPackages (V S : Type) [Semver V] [VersionRangeSet S V] (texts : List JsonText) :
    List (PackageInfo V S) :=
  texts.filterMap fun text => match PackageInfo.fromJsonStr text with
    | .ok pkg => if pkg.id.revision < 1 then none else some pkg
    | .error _ => none

theorem publishedPackages_concat {handled : List JsonText} {text : JsonText}
    {result : Option (PackageInfo V S)} (h : readMetaJson V S text = .ok result) :
    publishedPackages V S (handled ++ [text]) = publishedPackages V S handled ++ result.toList := by
  rw [publishedPackages, List.filterMap_append]
  congr 1
  unfold readMetaJson at h
  cases hload : (PackageInfo.fromJsonStr text : Except _ (PackageInfo V S)) with
  | ok pkg =>
      simp only [hload] at h
      split at h <;> cases h <;> simp_all
  | error err => cases err <;> simp_all

/-- The state of the import after the handled entries: the rows of the current
revision are the last packages published under each id. -/
structure Importing (V S : Type) [Semver V] [VersionRangeSet S V] (start : CacheDb)
    (remoteId revno : Nat) (handled : List JsonText) (db : CacheDb) : Prop where
  valid : db.Valid
  remotes : db.remotes = start.remotes
  enabled : db.enabled = start.enabled
  current : ∀ json,
    (∃ row ∈ db.packages, row.remoteId = remoteId ∧ row.remoteRevno = revno ∧ row.json = json) ↔
      ∃ pkg, IsLast (·.id) (publishedPackages V S handled) pkg ∧ pkg.toJson = some json
  others : OthersKept start db remoteId

/-- Before the first entry no row is of the current revision. -/
theorem importing_nil {remoteId revno : Nat} (hdb : db.Valid)
    (holder : ∀ row ∈ db.packages, row.remoteId = remoteId → row.remoteRevno < revno) :
    Importing V S db remoteId revno [] db where
  valid := hdb
  remotes := rfl
  enabled := rfl
  current := by
    intro json
    refine iff_of_false ?_ ?_
    · rintro ⟨row, hrow, hremote, hrevno, _⟩
      have := holder row hrow hremote
      omega
    · rintro ⟨pkg, hlast, _⟩
      exact not_isLast_nil hlast
  others := ⟨fun _ _ => Iff.rfl, fun _ _ _ => rfl⟩

/-- One round of the loop keeps the description. -/
theorem Importing.step {start : CacheDb} {remoteId revno : Nat} {handled : List JsonText}
    {text : JsonText} (h : Importing V S start remoteId revno handled db)
    (hremote : ∃ r ∈ start.remotes, r.remoteId = remoteId ∧ r.revno = revno)
    (hexec : exec (importEntry V S remoteId revno text) db = (.ok (), db')) :
    Importing V S start remoteId revno (handled ++ [text]) db' := by
  unfold importEntry at hexec
  cases hread : readMetaJson V S text with
  | error err =>
      rw [hread] at hexec
      cases hexec
  | ok result =>
      have hpublished : publishedPackages V S (handled ++ [text]) = _ :=
        publishedPackages_concat hread
      rw [hread] at hexec
      cases result with
      | none =>
          cases hexec
          rw [Option.toList_none, List.append_nil] at hpublished
          exact ⟨h.valid, h.remotes, h.enabled, hpublished ▸ h.current, h.others⟩
      | some pkg =>
          dsimp only at hexec
          cases hjson : pkg.toJson with
          | none =>
              rw [hjson] at hexec
              cases hexec
          | some json =>
              rw [hjson] at hexec
              obtain ⟨pkgId, hstored⟩ := exec_updatePackage h.valid hexec
              refine ⟨?_, ?_, ?_, ?_, ?_⟩
              · refine hstored.valid h.valid ?_ ?_
                · obtain ⟨r, hr, hid, _⟩ := hremote
                  exact ⟨r, h.remotes ▸ hr, hid⟩
                · intro r hr hid
                  obtain ⟨r', hr', hid', hrevno⟩ := hremote
                  rw [← h.remotes] at hr'
                  rw [h.valid.remoteIds.eq_of_key hr hr' (hid.trans hid'.symm), hrevno]
              · rw [hstored.remotes, h.remotes]
              · rw [hstored.enabled, h.enabled]
              · intro json'
                rw [hpublished, hstored.current_iff h.valid, h.current json']
                exact (exists_isLast_concat_iff hjson).symm
              · exact h.others.stored h.valid hstored

/-- The rows of a remote are the packages that its repository publishes, each
with its libraries, in the revision of the remote. -/
structure HoldsExactly (V S : Type) [Semver V] [VersionRangeSet S V] (db : CacheDb) (r : RemoteRow)
    (pkgs : List (PackageInfo V S)) : Prop where
  rows : ∀ json, (∃ row ∈ db.packages, row.remoteId = r.remoteId ∧ row.json = json) ↔
    ∃ pkg, IsLast (·.id) pkgs pkg ∧ pkg.toJson = some json
  oneRow : ∀ row ∈ db.packages, ∀ row' ∈ db.packages, row.remoteId = r.remoteId →
    row'.remoteId = r.remoteId → packageColumns row.json = packageColumns row'.json → row = row'
  revno : ∀ row ∈ db.packages, row.remoteId = r.remoteId → row.remoteRevno = r.revno
  libraries : ∀ row ∈ db.packages, row.remoteId = r.remoteId → ∀ pkg : PackageInfo V S,
    pkg.toJson = some row.json →
    librariesOf db row.pkgId = pkg.libraries.map fun lib => (lib.name.str, lib.path.toGenericString)

omit [Semester] in
theorem OthersKept.deleteOld {start : CacheDb} {remoteId revno : Nat}
    (h : OthersKept start db remoteId) (hdb : db.Valid) :
    OthersKept start
      (deletePackages (fun row => row.remoteId = remoteId && row.remoteRevno < revno) db)
      remoteId where
  packages := by
    intro row hremote
    rw [mem_deletePackages, h.packages row hremote]
    simp [hremote]
  libraries := by
    intro row hrow hremote
    rw [libraryRowsOf_deletePackages hdb, h.libraries row hrow hremote]
    rw [mem_deletePackages, h.packages row hremote]
    simp [hrow, hremote]

/-- After an import the rows of the remote are what it publishes, and the other
remotes and their packages are as they were. -/
structure Imported (V S : Type) [Semver V] [VersionRangeSet S V] (db db' : CacheDb) (url : Url)
    (remote : RemoteDb) (r : RemoteRow) : Prop where
  valid : db'.Valid
  enabled : db'.enabled = db.enabled
  mem : r ∈ db'.remotes
  url : r.url = url.str
  name : remote.selfName = some r.uniqueName
  exact_ : HoldsExactly V S db' r (publishedPackages V S remote.metaJsons)
  otherRemotes : ∀ r', r'.uniqueName ≠ r.uniqueName → (r' ∈ db'.remotes ↔ r' ∈ db.remotes)
  others : OthersKept db db' r.remoteId

theorem exec_importRemote {url : Url} {info : RemoteRepoDbInfo} {remote : RemoteDb}
    (hdb : db.Valid) (h : exec (importRemote V S url info remote) db = (.ok (), db')) :
    ∃ r, Imported V S db db' url remote r := by
  unfold importRemote at h
  obtain ⟨⟨remoteId, revno⟩, db₁, hupdate, h⟩ := exec_bind_eq_ok.mp h
  obtain ⟨_, db₂, hloop, hdelete⟩ := exec_bind_eq_ok.mp h
  obtain ⟨name, hname, hupdated⟩ := exec_updateRemote hdb hupdate
  obtain ⟨r, hr, hid, hrevno, hrname, hurl⟩ := hupdated.row
  have holder : ∀ row ∈ db₁.packages, row.remoteId = remoteId → row.remoteRevno < revno := by
    rw [hupdated.packages]
    exact hupdated.older
  have himported : Importing V S db₁ remoteId revno remote.metaJsons db₂ := by
    refine exec_forEach_eq_ok (importing_nil hupdated.valid holder) ?_ hloop
    intro handled text rest t t' _ ht hexec
    exact ht.step ⟨r, hr, hid, hrevno⟩ hexec
  cases hdelete
  have hmem : ∀ row, row ∈ (deletePackages
      (fun row => row.remoteId = remoteId && row.remoteRevno < revno) db₂).packages ↔
      row ∈ db₂.packages ∧ ¬ (row.remoteId = remoteId ∧ row.remoteRevno < revno) := by
    intro row
    rw [mem_deletePackages]
    simp
  have hr₂ : r ∈ db₂.remotes := himported.remotes ▸ hr
  -- a row that stays is not older than the remote, and none is newer
  have hcurrent : ∀ row ∈ db₂.packages, row.remoteId = remoteId →
      ¬ (row.remoteId = remoteId ∧ row.remoteRevno < revno) → row.remoteRevno = revno := by
    intro row hrow hremote hold
    have hle := himported.valid.revno row hrow r hr₂ (hid.trans hremote.symm)
    rw [hrevno] at hle
    by_contra hne
    exact hold ⟨hremote, lt_of_le_of_ne hle hne⟩
  have hvalid := himported.valid.deletePackages
    fun row => row.remoteId = remoteId && row.remoteRevno < revno
  refine ⟨r, hvalid, ?_, hr₂, hurl, hrname ▸ hname, ⟨?_, ?_, ?_, ?_⟩, ?_, ?_⟩
  · exact himported.enabled.trans hupdated.enabled
  · intro json
    rw [← himported.current json, hid]
    constructor
    · rintro ⟨row, hrow, hremote, rfl⟩
      obtain ⟨hrow, hold⟩ := (hmem row).mp hrow
      exact ⟨row, hrow, hremote, hcurrent row hrow hremote hold, rfl⟩
    · rintro ⟨row, hrow, hremote, hrow_revno, rfl⟩
      refine ⟨row, (hmem row).mpr ⟨hrow, ?_⟩, hremote, rfl⟩
      rw [hrow_revno]
      exact fun hold => lt_irrefl _ hold.2
  · intro row hrow row' hrow' hremote hremote' hcolumns
    exact hvalid.pkgKeys.eq_of_key hrow hrow' (Prod.ext hcolumns (hremote.trans hremote'.symm))
  · intro row hrow hremote
    obtain ⟨hrow, hold⟩ := (hmem row).mp hrow
    rw [hrevno]
    exact hcurrent row hrow (hremote.trans hid) hold
  · intro row hrow _ pkg hpkg
    have hlibs := hvalid.libs row hrow
    rw [libraryColumns_toJson hpkg] at hlibs
    exact (Option.some.inj hlibs).symm
  · intro r' hr'
    rw [← hupdated.others r' (hrname ▸ hr')]
    exact himported.remotes ▸ Iff.rfl
  · rw [hid]
    constructor
    · intro row hremote
      rw [← hupdated.packages]
      exact (himported.others.deleteOld himported.valid).packages row hremote
    · intro row hrow hremote
      have hrows : libraryRowsOf db row.pkgId = libraryRowsOf db₁ row.pkgId := by
        rw [libraryRowsOf, libraryRowsOf, hupdated.libraries]
      rw [hrows]
      exact (himported.others.deleteOld himported.valid).libraries row (hupdated.packages ▸ hrow)
        hremote

/-! ## The paths of a synchronisation -/

omit [Semester] in
/-- Fetching a repository changes nothing in the cache. -/
theorem exec_requestRemoteDb (outside : Outside) (prior : Option RemoteRow) (db : CacheDb) :
    (exec (requestRemoteDb outside prior) db).2 = db := by
  unfold requestRemoteDb
  split
  · rfl
  · dsimp only
    split
    · rfl
    · split <;> rfl

omit [Semester] in
theorem exec_getRemoteDb (outside : Outside) (url : Url) (db : CacheDb) :
    (exec (getRemoteDb outside url) db).2 = db := by
  unfold getRemoteDb
  split
  · rfl
  · rw [exec_bind, exec_get]
    dsimp only
    split
    · exact exec_requestRemoteDb outside none db
    · split
      · rfl
      · exact exec_requestRemoteDb outside _ db

/-- A synchronisation fails and changes nothing, or it writes the caching
metadata of every remote, or it imports the fetched repository. -/
theorem exec_syncRemote {outside : Outside} {url : Url} {result : Except SyncError Unit}
    (h : exec (syncRemote V S outside url) db = (result, db')) :
    (∃ err, result = .error err ∧ db' = db ∧
      ∀ info, exec (getRemoteDb outside url) db = (.ok info, db) → info.upToDate = false) ∨
    ∃ info, exec (getRemoteDb outside url) db = (.ok info, db) ∧ result = .ok () ∧
      ((info.upToDate = true ∧ exec (updateUpToDate info) db = (.ok (), db')) ∨
        (info.upToDate = false ∧ ∃ remote, info.repo = some remote ∧
          exec (importRemote V S url info remote) db = (.ok (), db'))) := by
  unfold syncRemote at h
  rw [exec_bind] at h
  have hsame := exec_getRemoteDb outside url db
  cases hfetch : exec (getRemoteDb outside url) db with
  | mk fetched db₁ =>
      rw [hfetch] at h hsame
      obtain rfl : db = db₁ := hsame.symm
      cases fetched with
      | error err =>
          cases h
          exact .inl ⟨err, rfl, rfl, by simp⟩
      | ok info =>
          dsimp only at h
          split at h
          next hfresh =>
            cases h
            exact .inr ⟨info, rfl, rfl, .inl ⟨hfresh, rfl⟩⟩
          next hstale =>
            have hstale : ∀ info', ((.ok info, db) : Except SyncError _ × CacheDb) = (.ok info', db) →
                info'.upToDate = false := by
              rintro _ ⟨⟩
              simpa using hstale
            cases hrepo : info.repo with
            | none =>
                rw [hrepo] at h
                cases h
                exact .inl ⟨_, rfl, rfl, hstale⟩
            | some remote =>
                rw [hrepo] at h
                dsimp only at h
                cases result with
                | error err => exact .inl ⟨err, rfl, exec_transaction_error h, hstale⟩
                | ok _ =>
                    refine .inr ⟨info, rfl, rfl, .inr ⟨hstale info rfl, remote, hrepo, ?_⟩⟩
                    exact exec_transaction_eq_ok.mp h

/-- A synchronisation that fetches a repository and returns normally has imported it. -/
theorem exec_importRemote_of_syncRemote {outside : Outside} {url : Url} {info : RemoteRepoDbInfo}
    {remote : RemoteDb} (hfetch : exec (getRemoteDb outside url) db = (.ok info, db))
    (hstale : info.upToDate = false) (hrepo : info.repo = some remote)
    (hsync : exec (syncRemote V S outside url) db = (.ok (), db')) :
    exec (importRemote V S url info remote) db = (.ok (), db') := by
  rcases exec_syncRemote hsync with ⟨_, h, _⟩ | ⟨info', hfetch', _, hpaths⟩
  · cases h
  cases hfetch'.symm.trans hfetch
  rcases hpaths with ⟨hfresh, _⟩ | ⟨_, remote', hrepo', himport⟩
  · rw [hstale] at hfresh
    cases hfresh
  · cases hrepo'.symm.trans hrepo
    exact himport

end Bpt.Crs
