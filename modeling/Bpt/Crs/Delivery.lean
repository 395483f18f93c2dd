-- SUMMARY: A repository and a client that synchronises with it while packages are imported and removed.
import Bpt.Base.Traversal
import Bpt.Crs.BadEntries
import Bpt.Crs.RepoIndex
import Bpt.Crs.Info.RoundTrip

/-!
# Delivery

A repository has two copies of its database, and both change while clients read them. A
client takes over one copy in one transaction. What it has of the repository is therefore
always one copy as it was when the client fetched it, whatever the repository does
meanwhile and whatever else the client does with its cache.
-/

namespace Bpt.Crs

open Transaction Keyed

variable {V S : Type} [Semver V] [VersionRangeSet S V]

/-! ## Published packages -/

/-- A package that can be imported, and read by the clients of its repository. -/
structure Publishable (pkg : PackageInfo V S) : Prop where
  valid : pkg.Valid
  revision : 1 ≤ pkg.id.revision
  distinct : (pkg.libraries.map (·.name)).Nodup

/-- The package that is read from what is printed of a package. -/
def PackageInfo.asRead (pkg : PackageInfo V S) : PackageInfo V S :=
  { pkg with
    extra := pkg.extra.convert
    meta_ := pkg.meta_.convert }

/-- The dumped document and the stored one differ in the order of fields only. -/
theorem PackageInfo.convert_toJsonDoc {pkg : PackageInfo V S} {json doc : Json}
    (hjson : pkg.toJson = some json) (hdoc : pkg.toJsonDoc = some doc) :
    doc.convert = json.convert := by
  simp only [toJsonDoc, toJson, Option.bind_eq_bind, Option.bind_eq_some_iff, Option.pure_def,
    Option.some.injEq, Json.json5AsNlohmannJson] at hdoc hjson
  obtain ⟨libs, hlibs, rfl⟩ := hdoc
  obtain ⟨libs', hlibs', rfl⟩ := hjson
  obtain rfl : libs = libs' := Option.some.inj (hlibs.symm.trans hlibs')
  have hconvert : ∀ extra meta_ : Json, Json.convert (.obj
      [("name", .str pkg.id.name.str),
       ("version", .str (Semver.toStr pkg.id.version)),
       ("pkg-version", .num pkg.id.revision),
       ("extra", extra),
       ("meta", meta_),
       ("libraries", .arr libs),
       ("schema-version", .num 1)]) =
      .obj
      [("extra", extra.convert),
       ("libraries", .arr (Json.convertElems libs)),
       ("meta", meta_.convert),
       ("name", .str pkg.id.name.str),
       ("pkg-version", .num pkg.id.revision),
       ("schema-version", .num 1),
       ("version", .str (Semver.toStr pkg.id.version))] := fun _ _ => rfl
  rw [hconvert, hconvert, Json.convert_convert, Json.convert_convert]

/-- The text of a row, as a client parses it. -/
def RepoRow.metaJson (row : RepoRow) : JsonText := some row.json.convert

namespace RepoDb

/-- What a client finds in the database. -/
def remote (db : RepoDb) : RemoteDb := ⟨db.selfName, db.rows.map RepoRow.metaJson⟩

/-- The database has a row of the package. -/
def Holds (db : RepoDb) (pkg : PackageInfo V S) : Prop :=
  Publishable pkg ∧ ∃ row ∈ db.rows, pkg.toJson = some row.json

/-- Every row is printed from a package, and no two have the same id. -/
structure Readable (V S : Type) [Semver V] [VersionRangeSet S V] (db : RepoDb) : Prop where
  printed : ∀ row ∈ db.rows, ∃ pkg : PackageInfo V S, Publishable pkg ∧ pkg.toJson = some row.json
  unique : Unique RepoRow.columns db.rows

end RepoDb

section

variable [Semester]

theorem fromJsonStr_metaJson (hnormal : NonemptyIntervals S) {pkg : PackageInfo V S}
    (h : pkg.Valid) {row : RepoRow} (hrow : pkg.toJson = some row.json) :
    PackageInfo.fromJsonStr row.metaJson = .ok pkg.asRead := by
  obtain ⟨doc, hdoc⟩ := PackageInfo.exists_toJsonDoc h
  rw [RepoRow.metaJson, ← PackageInfo.convert_toJsonDoc hrow hdoc]
  exact PackageInfo.fromJsonData_convert hnormal h hdoc

namespace RepoDb

variable {db : RepoDb}

theorem Readable.not_blocksSync (h : db.Readable V S) (hnormal : NonemptyIntervals S) :
    ∀ text ∈ db.remote.metaJsons, ¬ BlocksSync V S text := by
  rintro _ htext hblocks
  obtain ⟨row, hrow, rfl⟩ := List.mem_map.mp htext
  obtain ⟨pkg, hpkg, hjson⟩ := h.printed row hrow
  unfold BlocksSync at hblocks
  rw [fromJsonStr_metaJson hnormal hpkg.valid hjson] at hblocks
  exact hblocks.2 hpkg.distinct

/-- A client reads the packages of the rows. -/
theorem publishedPackages_rows (hnormal : NonemptyIntervals S) {rows : List RepoRow}
    (hprinted : ∀ row ∈ rows, ∃ pkg : PackageInfo V S, Publishable pkg ∧ pkg.toJson = some row.json) :
    ∃ pkgs : List (PackageInfo V S),
      List.Forall₂ (fun row pkg => Publishable pkg ∧ pkg.toJson = some row.json) rows pkgs ∧
      publishedPackages V S (rows.map RepoRow.metaJson) = pkgs.map PackageInfo.asRead := by
  unfold publishedPackages
  induction rows with
  | nil => exact ⟨[], .nil, rfl⟩
  | cons row rows ih =>
    obtain ⟨pkg, hpkg, hjson⟩ := hprinted row List.mem_cons_self
    obtain ⟨pkgs, hpkgs, hread⟩ := ih fun row hrow => hprinted row (List.mem_cons_of_mem _ hrow)
    refine ⟨pkg :: pkgs, .cons ⟨hpkg, hjson⟩ hpkgs, ?_⟩
    have hrevision : ¬ pkg.asRead.id.revision < 1 := not_lt.mpr hpkg.revision
    rw [List.map_cons, List.filterMap_cons, fromJsonStr_metaJson hnormal hpkg.valid hjson, hread]
    dsimp only
    rw [if_neg hrevision]
    rfl

omit [Semester] in
theorem columns_of_printed {rows : List RepoRow} {pkgs : List (PackageInfo V S)}
    (h : List.Forall₂ (fun row pkg => Publishable pkg ∧ pkg.toJson = some row.json) rows pkgs) :
    pkgs.map (fun pkg => pkg.id.columns) = rows.map RepoRow.columns := by
  induction h with
  | nil => rfl
  | cons hrow _ ih =>
    rw [List.map_cons, List.map_cons, ih]
    exact congrArg (· :: _) (packageColumns_toJson hrow.2).symm

/-- What a client stores of the database is what its packages print. -/
theorem Readable.exists_isLast_iff (h : db.Readable V S) (hnormal : NonemptyIntervals S)
    {json : Json} :
    (∃ p, IsLast (·.id) (publishedPackages V S db.remote.metaJsons) p ∧ p.toJson = some json) ↔
      ∃ pkg : PackageInfo V S, db.Holds pkg ∧ pkg.asRead.toJson = some json := by
  obtain ⟨pkgs, hpkgs, hread⟩ := publishedPackages_rows (V := V) (S := S) hnormal h.printed
  have hids : Keyed.Unique (·.id) (pkgs.map PackageInfo.asRead) := by
    have hcolumns := h.unique
    unfold Keyed.Unique at hcolumns ⊢
    rw [← columns_of_printed hpkgs] at hcolumns
    rw [List.map_map]
    apply List.Nodup.of_map PkgId.columns
    rw [List.map_map]
    exact hcolumns
  have hlast : ∀ p, IsLast (·.id) (publishedPackages V S db.remote.metaJsons) p ↔
      ∃ pkg : PackageInfo V S, db.Holds pkg ∧ pkg.asRead = p := by
    intro p
    have hsame : publishedPackages V S db.remote.metaJsons = pkgs.map PackageInfo.asRead := hread
    rw [hsame, hids.isLast_iff, List.mem_map]
    constructor
    · rintro ⟨pkg, hpkg, rfl⟩
      obtain ⟨row, hrow, hpublishable, hjson⟩ := Traversal.forall₂_exists_right hpkgs.flip hpkg
      exact ⟨pkg, ⟨hpublishable, row, hrow, hjson⟩, rfl⟩
    · rintro ⟨pkg, ⟨hpublishable, row, hrow, hjson⟩, rfl⟩
      obtain ⟨pkg', hpkg', hpublishable', hjson'⟩ := Traversal.forall₂_exists_right hpkgs hrow
      -- both are read from the text of the row
      have hreads := fromJsonStr_metaJson hnormal hpublishable.valid hjson
      rw [fromJsonStr_metaJson hnormal hpublishable'.valid hjson'] at hreads
      exact ⟨pkg', hpkg', Except.ok.inj hreads⟩
  constructor
  · rintro ⟨p, hp, hjson⟩
    obtain ⟨pkg, hholds, rfl⟩ := (hlast p).mp hp
    exact ⟨pkg, hholds, hjson⟩
  · rintro ⟨pkg, hholds, hjson⟩
    exact ⟨pkg.asRead, (hlast _).mpr ⟨pkg, hholds, rfl⟩, hjson⟩

end RepoDb

end

/-! ## The repository -/

/-- Both copies of the database can be read. -/
structure Repo.Readable (V S : Type) [Semver V] [VersionRangeSet S V] (s : Repo) : Prop where
  db : s.db.Readable V S
  index : ∀ index ∈ s.index, index.Readable V S

/-- One of the two copies of the database. -/
def Repo.Publishes (s : Repo) (copy : RepoDb) : Prop := copy = s.db ∨ s.index = some copy

theorem Repo.Readable.publishes {s : Repo} (h : s.Readable V S) {copy : RepoDb}
    (hcopy : s.Publishes copy) : copy.Readable V S := by
  rcases hcopy with rfl | hcopy
  · exact h.db
  · exact h.index copy hcopy

/-- A package to import has valid metadata, and libraries of distinct names. -/
def RepoOp.ImportsReadable : RepoOp V S → Prop
  | .importDir _ package _ => ∀ pkg ∈ package, pkg.Valid ∧ (pkg.libraries.map (·.name)).Nodup
  | _ => True

section

variable {io : RepoIo} {tmpTgz : String} {destDir : String × String}

theorem keeps_check (P : Repo → Prop) (step : RepoStep) : Keeps P (check io step) := by
  unfold check
  split
  · exact Keeps.throw _
  · exact Keeps.pure ()

theorem keeps_files (f : Repo → Repo) (hdb : ∀ s, (f s).db = s.db) (hindex : ∀ s, (f s).index = s.index) :
    Keeps (Repo.Readable V S) (modify f : RepoAction PUnit) := by
  refine Keeps.modify fun s hs => ⟨?_, ?_⟩
  · rw [hdb]
    exact hs.db
  · rw [hindex]
    exact hs.index

theorem keeps_vacuumAndCompress : Keeps (Repo.Readable V S) (vacuumAndCompress io) := by
  refine (keeps_check _ _).bind fun _ => ?_
  split
  · refine (Keeps.modify fun s hs => ?_).bind fun _ => Keeps.throw _
    exact ⟨hs.db, fun _ hindex => nomatch hindex⟩
  · refine Keeps.modify fun s hs => ⟨hs.db, ?_⟩
    rintro _ ⟨⟩
    exact hs.db

theorem keeps_create (name : String) : Keeps (Repo.Readable V S) (create io name) := by
  refine (keeps_check _ _).bind fun _ => (keeps_check _ _).bind fun _ => ?_
  refine Keeps.get_bind fun s hs => ?_
  split
  · exact hs
  · refine Keeps.bind (keeps_check _ _) (fun _ => ?_) s hs
    refine (Keeps.modify fun s hs => ?_).bind fun _ => keeps_vacuumAndCompress
    exact ⟨⟨hs.db.printed, hs.db.unique⟩, hs.index⟩

theorem keeps_insertPackage {pkg : PackageInfo V S} {json : Json} (hpkg : Publishable pkg)
    (hjson : pkg.toJson = some json) : Keeps (Repo.Readable V S) (insertPackage io json) := by
  refine (keeps_check _ _).bind fun _ => Keeps.get_bind fun s hs => ?_
  split
  · exact hs
  next hnew =>
    refine ⟨⟨fun row hrow => ?_, ?_⟩, hs.index⟩
    · rcases List.mem_append.mp hrow with hrow | hrow
      · exact hs.db.printed row hrow
      · rw [List.mem_singleton.mp hrow]
        exact ⟨pkg, hpkg, hjson⟩
    · refine hs.db.unique.append_singleton fun hmem => hnew ?_
      obtain ⟨row, hrow, hcolumns⟩ := List.mem_map.mp hmem
      exact List.any_eq_true.mpr ⟨row, hrow, decide_eq_true hcolumns⟩

theorem keeps_dbTransaction {x : RepoAction Unit} (hx : Keeps (Repo.Readable V S) x) :
    Keeps (Repo.Readable V S) (dbTransaction x) := by
  intro s hs
  have hend := hx s hs
  rw [exec_dbTransaction]
  cases hexec : exec x s with
  | mk result t =>
    rw [hexec] at hend
    cases result with
    | ok _ => exact hend
    | error e => exact ⟨hs.db, hend.index⟩

theorem keeps_compressTgz : Keeps (Repo.Readable V S) (compressTgz io tmpTgz) := by
  unfold compressTgz
  split
  · split
    · refine Keeps.bind (keeps_files (Repo.withArchive tmpTgz) (fun _ => rfl) fun _ => rfl) fun _ => ?_
      exact Keeps.throw _
    · exact Keeps.throw _
  · exact keeps_files _ (fun _ => rfl) fun _ => rfl

theorem keeps_moveArchive : Keeps (Repo.Readable V S) (moveArchive io tmpTgz destDir) := by
  unfold moveArchive
  split
  · exact keeps_files _ (fun _ => rfl) fun _ => rfl
  · exact (keeps_check _ _).bind fun _ => keeps_files _ (fun _ => rfl) fun _ => rfl

theorem keeps_copyJson : Keeps (Repo.Readable V S) (copyJson io destDir) := by
  refine (keeps_check _ _).bind fun _ => Keeps.get_bind fun s hs => ?_
  split
  · exact hs
  · exact keeps_files (Repo.addJson destDir) (fun _ => rfl) (fun _ => rfl) s hs

theorem keeps_importDir {package : Option (PackageInfo V S)}
    (h : ∀ pkg ∈ package, pkg.Valid ∧ (pkg.libraries.map (·.name)).Nodup) :
    Keeps (Repo.Readable V S) (importDir io package tmpTgz) := by
  cases package with
  | none => exact Keeps.throw _
  | some pkg =>
    obtain ⟨hvalid, hdistinct⟩ := h pkg rfl
    refine (keeps_check _ _).bind fun _ => ?_
    refine Keeps.bind (keeps_files (Repo.withDir (subdirOf pkg.id)) (fun _ => rfl) fun _ => rfl) fun _ => ?_
    refine (keeps_check _ _).bind fun _ => ?_
    cases hjson : pkg.toJson with
    | none => exact Keeps.throw _
    | some json =>
      refine keeps_compressTgz.bind fun _ => ?_
      unfold checkRevision
      split
      next => exact fun s hs => hs
      next hrevision =>
        refine (Keeps.pure ()).bind fun _ => (keeps_check _ _).bind fun _ => ?_
        refine Keeps.bind (keeps_dbTransaction ?_) fun _ => keeps_vacuumAndCompress
        refine (keeps_insertPackage ⟨hvalid, not_lt.mp hrevision, hdistinct⟩ hjson).bind fun _ => ?_
        exact keeps_moveArchive.bind fun _ => keeps_copyJson.bind fun _ => keeps_check _ _

theorem keeps_removePkg (id : PkgId V) : Keeps (Repo.Readable V S) (removePkg io id) := by
  refine (keeps_check _ _).bind fun _ => ?_
  refine (Keeps.modify fun s hs => ?_).bind fun _ => (keeps_check _ _).bind fun _ => ?_
  · refine ⟨⟨fun row hrow => ?_, hs.db.unique.filter _⟩, hs.index⟩
    exact hs.db.printed row (List.mem_of_mem_filter hrow)
  · exact keeps_files _ (fun _ => rfl) fun _ => rfl

/-- No operation leaves a copy that cannot be read, whether it succeeds or fails. -/
theorem RepoOp.keeps_readable {op : RepoOp V S} (h : op.ImportsReadable) :
    Keeps (Repo.Readable V S) op.run := by
  cases op with
  | create io name => exact keeps_create name
  | openExisting io => exact keeps_check _ _
  | importDir io package tmpTgz => exact keeps_importDir h
  | removePkg io id => exact keeps_removePkg id

end

/-! ## The client -/

section

variable [Semester] {client client' : CacheDb} {r : RemoteRow} {copy : RepoDb}

/-- The cached packages of a remote are those of a database, with the metadata that is read
there, and none is cached twice. -/
structure Mirrors (V S : Type) [Semver V] [VersionRangeSet S V] (client : CacheDb) (r : RemoteRow)
    (copy : RepoDb) : Prop where
  rows : ∀ json, (∃ row ∈ client.packages, row.remoteId = r.remoteId ∧ row.json = json) ↔
    ∃ pkg : PackageInfo V S, copy.Holds pkg ∧ pkg.asRead.toJson = some json
  once : ∀ row ∈ client.packages, ∀ row' ∈ client.packages, row.remoteId = r.remoteId →
    row'.remoteId = r.remoteId → packageColumns row.json = packageColumns row'.json → row = row'

omit [Semester] in
theorem Mirrors.congr (h : Mirrors V S client r copy) {r' : RemoteRow} (hid : r'.remoteId = r.remoteId)
    (hsame : ∀ row, row.remoteId = r.remoteId → (row ∈ client'.packages ↔ row ∈ client.packages)) :
    Mirrors V S client' r' copy where
  rows json := by
    rw [← h.rows json, hid]
    constructor
    · rintro ⟨row, hrow, hrowId, rfl⟩
      exact ⟨row, (hsame row hrowId).mp hrow, hrowId, rfl⟩
    · rintro ⟨row, hrow, hrowId, rfl⟩
      exact ⟨row, (hsame row hrowId).mpr hrow, hrowId, rfl⟩
  once row hrow row' hrow' hrowId hrowId' := by
    rw [hid] at hrowId hrowId'
    exact h.once row ((hsame row hrowId).mp hrow) row' ((hsame row' hrowId').mp hrow') hrowId hrowId'

theorem HoldsExactly.mirrors (h : HoldsExactly V S client r (publishedPackages V S copy.remote.metaJsons))
    (hcopy : copy.Readable V S) (hnormal : NonemptyIntervals S) : Mirrors V S client r copy where
  rows json := (h.rows json).trans (hcopy.exists_isLast_iff hnormal)
  once := h.oneRow

/-- What a synchronisation fetches. -/
def Fetches (outside : Outside) (url : Url) (client : CacheDb) (remote : RemoteDb) : Prop :=
  ∃ info, exec (getRemoteDb outside url) client = (.ok info, client) ∧ info.upToDate = false ∧
    info.repo = some remote

/-- A copy that can be read is taken over. -/
theorem exec_syncRemote_of_fetches {outside : Outside} {url : Url} {name : String}
    (hreach : CacheReachable V S client) (hnormal : NonemptyIntervals S) (hcopy : copy.Readable V S)
    (hname : copy.selfName = some name) (hfetches : Fetches outside url client copy.remote) :
    ∃ client' r, exec (syncRemote V S outside url) client = (.ok (), client') ∧
      Imported V S client client' url copy.remote r := by
  obtain ⟨info, hfetch, hstale, hrepo⟩ := hfetches
  have himport : (∃ db', exec (importRemote V S url info copy.remote) client = (.ok (), db')) ↔ _ :=
    exec_importRemote_ok_iff hreach.valid hreach.libNamesUnique hname
  obtain ⟨client', hexec⟩ := himport.mpr (hcopy.not_blocksSync hnormal)
  obtain ⟨r, himported⟩ := exec_importRemote hreach.valid hexec
  refine ⟨client', r, ?_, himported⟩
  unfold syncRemote
  rw [exec_bind, hfetch]
  dsimp only
  rw [hstale, hrepo]
  exact exec_transaction_eq_ok.mpr hexec

/-! ## Repository and client -/

/-- A repository and the cache of a client, with the copy that the client has fetched last. -/
structure Deployment where
  repo : Repo
  client : CacheDb
  fetched : Option RepoDb

/-- What the repository of a name and a client do. The client may synchronise with other
repositories too, and its requests to this one may fail or be answered from its cache. -/
inductive DeploymentStep (V S : Type) [Semver V] [VersionRangeSet S V] (name : String) :
    Deployment → Deployment → Prop where
  | repo (s : Deployment) (op : RepoOp V S) (h : op.ImportsReadable) :
      DeploymentStep V S name s { s with repo := (exec op.run s.repo).2 }
  | fetch (s : Deployment) (outside : Outside) (url : Url) (copy : RepoDb)
      (hcopy : s.repo.Publishes copy) (hname : copy.selfName = some name)
      (hfetches : Fetches outside url s.client copy.remote) :
      DeploymentStep V S name s
        { s with client := (exec (syncRemote V S outside url) s.client).2, fetched := some copy }
  | other (s : Deployment) (outside : Outside) (url : Url)
      (h : ∀ remote, Fetches outside url s.client remote → remote.selfName ≠ some name) :
      DeploymentStep V S name s
        { s with client := (exec (syncRemote V S outside url) s.client).2 }
  | enable (s : Deployment) (url : Url) :
      DeploymentStep V S name s { s with client := (enableRemote url s.client).2 }
  | reopen (s : Deployment) :
      DeploymentStep V S name s { s with client := { s.client with enabled := [] } }
  | forget (s : Deployment) :
      DeploymentStep V S name s { s with client := forgetAll s.client, fetched := none }

/-- What a repository and a client reach from nothing. -/
def DeploymentReachable (V S : Type) [Semver V] [VersionRangeSet S V] (name : String) :
    Deployment → Prop :=
  Reach.Reachable (· = ⟨{}, {}, none⟩) (DeploymentStep V S name)

/-- The client has nothing of the repository before it has fetched it, and afterwards what
it has fetched last. -/
structure Deployment.Inv (V S : Type) [Semver V] [VersionRangeSet S V] (name : String)
    (s : Deployment) : Prop where
  repo : s.repo.Readable V S
  client : CacheReachable V S s.client
  mirrors : ∀ r ∈ s.client.remotes, r.uniqueName = name →
    ∃ copy, s.fetched = some copy ∧ Mirrors V S s.client r copy
  remains : s.fetched.isSome → ∃ r ∈ s.client.remotes, r.uniqueName = name

variable {name : String} {s t : Deployment}

/-- A synchronisation with another repository, or one that fetches nothing, keeps the rows of
the repository and their packages. -/
theorem kept_of_other {outside : Outside} {url : Url} (hvalid : client.Valid)
    (hother : ∀ remote, Fetches outside url client remote → remote.selfName ≠ some name) :
    let client' := (exec (syncRemote V S outside url) client).2
    (∀ r' ∈ client'.remotes, r'.uniqueName = name → ∃ r ∈ client.remotes, r.uniqueName = name ∧
      r'.remoteId = r.remoteId ∧
      ∀ row, row.remoteId = r.remoteId → (row ∈ client'.packages ↔ row ∈ client.packages)) ∧
    ((∃ r ∈ client.remotes, r.uniqueName = name) → ∃ r ∈ client'.remotes, r.uniqueName = name) := by
  cases hexec : exec (syncRemote V S outside url) client with
  | mk result client' =>
    dsimp only
    rcases exec_syncRemote hexec with
      ⟨_, _, rfl, _⟩ | ⟨info, hfetch, _, ⟨_, hup⟩ | ⟨hstale, remote, hrepo, himport⟩⟩
    · exact ⟨fun r hr hname => ⟨r, hr, hname, rfl, fun _ _ => Iff.rfl⟩, id⟩
    · -- only the caching metadata is written
      cases hup
      constructor
      · intro r' hr' hname
        obtain ⟨r, hr, rfl⟩ := List.mem_map.mp hr'
        exact ⟨r, hr, hname, rfl, fun _ _ => Iff.rfl⟩
      · rintro ⟨r, hr, hname⟩
        exact ⟨_, List.mem_map_of_mem hr, hname⟩
    · obtain ⟨new, himported⟩ := exec_importRemote hvalid himport
      have hne : new.uniqueName ≠ name := by
        rintro rfl
        exact hother remote ⟨info, hfetch, hstale, hrepo⟩ himported.name
      constructor
      · intro r hr hname
        refine ⟨r, (himported.otherRemotes r (hname ▸ hne.symm)).mp hr, hname, rfl, fun row hrow => ?_⟩
        refine himported.others.packages row fun hid => hne ?_
        have hrow := himported.valid.remoteIds.eq_of_key hr himported.mem (hrow.symm.trans hid)
        rw [← hrow, hname]
      · rintro ⟨r, hr, hname⟩
        exact ⟨r, (himported.otherRemotes r (hname ▸ hne.symm)).mpr hr, hname⟩

theorem Deployment.Inv.step (h : s.Inv V S name) (hnormal : NonemptyIntervals S)
    (hstep : DeploymentStep V S name s t) : t.Inv V S name := by
  cases hstep with
  | repo op hop => exact ⟨RepoOp.keeps_readable hop _ h.repo, h.client, h.mirrors, h.remains⟩
  | fetch outside url copy hcopy hname hfetches =>
    have hreadable := h.repo.publishes hcopy
    obtain ⟨client', r, hsync, himported⟩ :=
      exec_syncRemote_of_fetches (V := V) (S := S) h.client hnormal hreadable hname hfetches
    have hrname : r.uniqueName = name := Option.some.inj (himported.name.symm.trans hname)
    refine ⟨h.repo, h.client.step (.sync _ outside url trivial), ?_, fun _ => ?_⟩
    · intro r' hr' hname'
      rw [hsync] at hr' ⊢
      obtain rfl := himported.valid.uniqueNames.eq_of_key hr' himported.mem (hname'.trans hrname.symm)
      exact ⟨copy, rfl, himported.exact_.mirrors hreadable hnormal⟩
    · rw [hsync]
      exact ⟨r, himported.mem, hrname⟩
  | other outside url hother =>
    obtain ⟨hback, hforth⟩ := kept_of_other (V := V) (S := S) h.client.valid hother
    refine ⟨h.repo, h.client.step (.sync _ outside url trivial), ?_, fun hsome => hforth (h.remains hsome)⟩
    intro r' hr' hname
    obtain ⟨r, hr, hname, hid, hsame⟩ := hback r' hr' hname
    obtain ⟨copy, hfetched, hmirrors⟩ := h.mirrors r hr hname
    exact ⟨copy, hfetched, hmirrors.congr hid hsame⟩
  | enable url =>
    refine ⟨h.repo, h.client.step (.enable _ url), fun r hr hname => ?_, h.remains⟩
    obtain ⟨copy, hfetched, hmirrors⟩ := h.mirrors r hr hname
    exact ⟨copy, hfetched, hmirrors.congr rfl fun _ _ => Iff.rfl⟩
  | reopen =>
    refine ⟨h.repo, h.client.step (.reopen _), fun r hr hname => ?_, h.remains⟩
    obtain ⟨copy, hfetched, hmirrors⟩ := h.mirrors r hr hname
    exact ⟨copy, hfetched, hmirrors.congr rfl fun _ _ => Iff.rfl⟩
  | forget =>
    refine ⟨h.repo, h.client.step (.forget _), fun r hr => ?_, fun hsome => ?_⟩
    · cases hr
    · cases hsome

theorem DeploymentReachable.inv (h : DeploymentReachable V S name s) (hnormal : NonemptyIntervals S) :
    s.Inv V S name := by
  refine Reach.Reachable.invariant (I := Deployment.Inv V S name) ?_ ?_ h
  · rintro _ rfl
    refine ⟨⟨⟨?_, List.nodup_nil⟩, ?_⟩, .init rfl, ?_, ?_⟩
    · exact fun row hrow => nomatch hrow
    · exact fun index hindex => nomatch hindex
    · exact fun r hr => nomatch hr
    · exact fun hsome => nomatch hsome
  · exact fun s t hs hstep => hs.step hnormal hstep

/-- However the operations of a repository and the synchronisations of a client come, the
client has exactly the packages of the copy that it has fetched last, and none of the
repository before that. A copy that it fetches is always taken over. -/
theorem delivered (hnormal : NonemptyIntervals S) (hreach : DeploymentReachable V S name s) :
    (∀ r ∈ s.client.remotes, r.uniqueName = name →
      ∃ copy, s.fetched = some copy ∧ Mirrors V S s.client r copy) ∧
    (s.fetched.isSome → ∃ r ∈ s.client.remotes, r.uniqueName = name) ∧
    ∀ outside url copy, s.repo.Publishes copy → copy.selfName = some name →
      Fetches outside url s.client copy.remote →
      ∃ client' r, exec (syncRemote V S outside url) s.client = (.ok (), client') ∧
        r ∈ client'.remotes ∧ r.uniqueName = name ∧ r.url = url.str ∧ Mirrors V S client' r copy := by
  have hinv := hreach.inv hnormal
  refine ⟨hinv.mirrors, hinv.remains, fun outside url copy hcopy hname hfetches => ?_⟩
  have hreadable := hinv.repo.publishes hcopy
  obtain ⟨client', r, hsync, himported⟩ :=
    exec_syncRemote_of_fetches (V := V) (S := S) hinv.client hnormal hreadable hname hfetches
  refine ⟨client', r, hsync, himported.mem, ?_, himported.url, ?_⟩
  · exact Option.some.inj (himported.name.symm.trans hname)
  · exact himported.exact_.mirrors hreadable hnormal

end

/-! ### A client of one package -/

section

attribute [local instance] Semester.permissive

theorem publishable_foo : Publishable (fooInfo 1) where
  valid := by
    have hread : PackageInfo.fromJsonStr (((fooInfo 1).toJson).map Json.convert) = .ok (fooInfo 1) := by
      decide +kernel
    exact PackageInfo.valid_of_fromJsonStr hread
  revision := by decide
  distinct := by decide

/-- The client of a new repository that has imported the package. -/
def fooDeployment : Deployment where
  repo := fooImported
  client := (exec (syncRemote PatchRelease (Finset Nat) (fooRepo fooImported.db.remote.metaJsons)
    fooUrl) {}).2
  fetched := some fooImported.db

theorem selfName_fooImported : fooImported.db.selfName = some "foo-repo" := by decide +kernel

theorem fetches_foo (client : CacheDb) :
    Fetches (fooRepo fooImported.db.remote.metaJsons) fooUrl client fooImported.db.remote := by
  refine ⟨_, rfl, rfl, ?_⟩
  unfold RepoDb.remote
  rw [selfName_fooImported]
  rfl

theorem deploymentReachable_foo :
    DeploymentReachable PatchRelease (Finset Nat) "foo-repo" fooDeployment := by
  have hcreated : DeploymentReachable PatchRelease (Finset Nat) "foo-repo"
      ⟨(exec createFoo.run {}).2, {}, none⟩ := .step (.init rfl) (.repo _ createFoo trivial)
  have himported : DeploymentReachable PatchRelease (Finset Nat) "foo-repo" ⟨fooImported, {}, none⟩ := by
    refine hcreated.step (.repo _ importFoo ?_)
    rintro _ ⟨⟩
    exact ⟨publishable_foo.valid, publishable_foo.distinct⟩
  exact himported.step (.fetch _ _ fooUrl _ (.inl rfl) selfName_fooImported (fetches_foo _))

theorem delivered_foo :
    (∀ r ∈ fooDeployment.client.remotes, r.uniqueName = "foo-repo" →
      ∃ copy, fooDeployment.fetched = some copy ∧
        Mirrors PatchRelease (Finset Nat) fooDeployment.client r copy) ∧
    (fooDeployment.fetched.isSome → ∃ r ∈ fooDeployment.client.remotes, r.uniqueName = "foo-repo") ∧
    ∀ outside url copy, fooDeployment.repo.Publishes copy → copy.selfName = some "foo-repo" →
      Fetches outside url fooDeployment.client copy.remote →
      ∃ client' r, exec (syncRemote PatchRelease (Finset Nat) outside url) fooDeployment.client =
          (.ok (), client') ∧
        r ∈ client'.remotes ∧ r.uniqueName = "foo-repo" ∧ r.url = url.str ∧
        Mirrors PatchRelease (Finset Nat) client' r copy :=
  delivered nonemptyIntervals_patchRelease deploymentReachable_foo

end

end Bpt.Crs
