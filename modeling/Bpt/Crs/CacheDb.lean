-- SUMMARY: The tables of the package cache and the statements that `sync_remote` runs on them.
import Bpt.Base.Keyed
import Bpt.Base.Transaction
import Bpt.Crs.CacheView
import Bpt.Util.String

/-!
# The package cache

The three tables of the cache database and the temporary table of enabled
remotes, as lists of rows. Each statement is given with the constraints it can
violate and the triggers it fires. The JSON column holds the value of the text.
-/

namespace Bpt.Crs

open Transaction Keyed

/-! ## Tables -/

/-- A row of `bpt_crs_remotes`. -/
structure RemoteRow where
  remoteId : Nat
  url : String
  uniqueName : String
  revno : Nat
  etag : Option String
  lastModified : Option String
  resourceTime : Option Int
  cacheControl : Option String
  deriving DecidableEq

/-- A row of `bpt_crs_packages`. The other columns are generated from `json`. -/
structure PackageRow where
  pkgId : Nat
  json : Json
  remoteId : Nat
  remoteRevno : Nat
  deriving DecidableEq

/-- A row of `bpt_crs_libraries`. -/
structure LibraryRow where
  libId : Nat
  pkgId : Nat
  name : String
  path : String
  deriving DecidableEq

/-- A row of `bpt_crs_enabled_remotes`. -/
structure EnabledRow where
  enablementId : Nat
  remoteId : Nat
  deriving DecidableEq

structure CacheDb where
  remotes : List RemoteRow := []
  packages : List PackageRow := []
  libraries : List LibraryRow := []
  enabled : List EnabledRow := []

/-! ## Columns generated from JSON -/

/-- A member of an object (`json_extract(json, '$.key')`). -/
def jsonField (key : String) : Json → Option Json
  | .obj fields => fields.lookup key
  | _ => none

def jsonText (key : String) (json : Json) : Option String :=
  match jsonField key json with
  | some (.str s) => some s
  | _ => none

def jsonNumber (key : String) (json : Json) : Option ℚ :=
  match jsonField key json with
  | some (.num q) => some q
  | _ => none

/-- The columns `name`, `version` and `pkg_version`. -/
def packageColumns (json : Json) : Option String × Option String × Option ℚ :=
  (jsonText "name" json, jsonText "version" json, jsonNumber "pkg-version" json)

namespace PackageRow

def name (row : PackageRow) : Option String := jsonText "name" row.json

def version (row : PackageRow) : Option String := jsonText "version" row.json

/-- The columns of the UNIQUE constraint. -/
def key (row : PackageRow) : (Option String × Option String × Option ℚ) × Nat :=
  (packageColumns row.json, row.remoteId)

end PackageRow

/-- The `name` and `path` of each element of `libraries`, which both must have. -/
def libraryColumns (json : Json) : Option (List (String × String)) :=
  match jsonField "libraries" json with
  | some (.arr libs) => libs.mapM fun lib => do
      let name ← jsonText "name" lib
      let path ← jsonText "path" lib
      return (name, path)
  | _ => some []

/-! ## Remotes -/

/-- A fetched repository database: its name and the JSON texts of its packages. -/
structure RemoteDb where
  selfName : Option String
  metaJsons : List JsonText

structure Url where
  scheme : String
  str : String
  deriving DecidableEq

/-- What `get_remote_db` yields. There is no repository when the file cannot be
opened as one. -/
structure RemoteRepoDbInfo where
  repo : Option RemoteDb
  etag : Option String
  lastModified : Option String
  resourceTime : Option Int
  cacheControl : Option String
  upToDate : Bool

/-- How `sync_remote` fails. -/
inductive SyncError where
  /-- The repository could not be requested or read. -/
  | request
  /-- A statement failed: a violated constraint or a missing table. -/
  | sqlite
  /-- The metadata of a package could not be loaded. -/
  | load (err : PackageInfo.LoadError)
  /-- Metadata with uses that are not listed was printed. -/
  | assertion
  deriving DecidableEq

abbrev Sql (α : Type) := Action SyncError CacheDb α

/-- The update for a repository that is up to date. It has no WHERE clause. -/
def updateUpToDate (info : RemoteRepoDbInfo) : Sql Unit :=
  modify fun db => { db with
    remotes := db.remotes.map fun row =>
      { row with resourceTime := info.resourceTime, cacheControl := info.cacheControl } }

/-- The row inserted for a remote. -/
def newRemote (url : Url) (info : RemoteRepoDbInfo) (name : String) (remoteId : Nat) : RemoteRow where
  remoteId := remoteId
  url := url.str
  uniqueName := name
  revno := 1
  etag := info.etag
  lastModified := info.lastModified
  resourceTime := info.resourceTime
  cacheControl := info.cacheControl

/-- The update of the row of a known remote. -/
def refreshRemote (url : Url) (info : RemoteRepoDbInfo) (row : RemoteRow) : RemoteRow :=
  { row with
    url := url.str
    etag := info.etag
    lastModified := info.lastModified
    resourceTime := info.resourceTime
    cacheControl := info.cacheControl
    revno := row.revno + 1 }

/-- Insert the remote, or update the one of the same unique name. Returns the id
and the revision of the row. -/
def updateRemote (url : Url) (info : RemoteRepoDbInfo) (remote : RemoteDb) : Sql (Nat × Nat) := do
  let db : CacheDb ← get
  match remote.selfName with
  | none => throw .sqlite
  | some name =>
    match db.remotes.find? fun row => row.uniqueName = name with
    | some row =>
      set ({ db with
        remotes := db.remotes.map fun r =>
          if r.uniqueName = name then refreshRemote url info r else r } : CacheDb)
      return (row.remoteId, row.revno + 1)
    | none =>
      let row := newRemote url info name (freshRowid (db.remotes.map (·.remoteId)))
      set ({ db with remotes := db.remotes ++ [row] } : CacheDb)
      return (row.remoteId, row.revno)

/-! ## Packages and libraries -/

def insertLibrary (pkgId : Nat) (columns : String × String) : Sql Unit := do
  let db : CacheDb ← get
  if db.libraries.any fun l => l.pkgId = pkgId && l.name = columns.1 then throw .sqlite
  let row := ⟨freshRowid (db.libraries.map (·.libId)), pkgId, columns.1, columns.2⟩
  set ({ db with libraries := db.libraries ++ [row] } : CacheDb)

/-- The INSERT of both triggers. -/
def insertLibraries (pkgId : Nat) (json : Json) : Sql Unit :=
  match libraryColumns json with
  | none => throw .sqlite
  | some columns => forEach (insertLibrary pkgId) columns

/-- The trigger `bpt_crs_libraries_auto_update`. -/
def librariesAutoUpdate (old new : PackageRow) : Sql Unit := do
  if new.json ≠ old.json then
    modify fun db => { db with libraries := db.libraries.filter fun l => l.pkgId ≠ new.pkgId }
    insertLibraries new.pkgId new.json

/-- Insert the package, or update the one with the same key, and fire the
trigger. A generated column must not be NULL. -/
def updatePackage (json : Json) (remoteId remoteRevno : Nat) : Sql Unit := do
  let db : CacheDb ← get
  let columns := packageColumns json
  if columns.1.isNone || columns.2.1.isNone || columns.2.2.isNone then throw .sqlite
  else match db.packages.find? fun row => row.key = (columns, remoteId) with
    | some old => do
      let new := { old with json, remoteRevno }
      set ({ db with
        packages := db.packages.map fun row => if row.pkgId = old.pkgId then new else row } : CacheDb)
      librariesAutoUpdate old new
    | none => do
      let new := ⟨freshRowid (db.packages.map (·.pkgId)), json, remoteId, remoteRevno⟩
      set ({ db with packages := db.packages ++ [new] } : CacheDb)
      insertLibraries new.pkgId json

/-- Delete the packages that satisfy the test, and the libraries of these. -/
def deletePackages (test : PackageRow → Bool) (db : CacheDb) : CacheDb :=
  let deleted := (db.packages.filter test).map (·.pkgId)
  { db with
    packages := db.packages.filter fun row => !test row
    libraries := db.libraries.filter fun l => l.pkgId ∉ deleted }

def deleteOld (remoteId remoteRevno : Nat) : Sql Unit :=
  modify (deletePackages fun row => row.remoteId = remoteId && row.remoteRevno < remoteRevno)

/-! ## Enabled remotes -/

/-- Enable every remote of a URL that is not enabled yet. The rows that the
statement returns are those it inserts. -/
def enableRemote (url : Url) (db : CacheDb) : Bool × CacheDb :=
  let ids := (db.remotes.filter fun row => row.url = url.str).map (·.remoteId)
  let new := ids.filter fun id => id ∉ db.enabled.map (·.remoteId)
  let first := freshRowid (db.enabled.map (·.enablementId))
  (!new.isEmpty,
    { db with enabled := db.enabled ++ new.mapIdx fun i id => ⟨first + i, id⟩ })

/-- Forget every remote, and with it its packages. -/
def forgetAll (db : CacheDb) : CacheDb :=
  { deletePackages (fun row => row.remoteId ∈ db.remotes.map (·.remoteId)) db with remotes := [] }

/-- The view `enabled_packages`. -/
def enabledPackages (db : CacheDb) : List PackageRow :=
  db.enabled.flatMap fun en => db.packages.filter fun row => row.remoteId = en.remoteId

end Bpt.Crs
