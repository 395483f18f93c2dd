-- SUMMARY: A repository on disk: its database, its published index, its package directories, and what each operation does to them.
import Bpt.Crs.Import

/-!
# Repositories

A repository is a directory with the database `repo.db`, its compressed copy
`repo.db.gz` and a directory `pkg`, which has one directory for each package.
Every operation is a sequence of statements on these, any of which may fail. What
was done before a failure stays, except that a failed transaction is rolled back
in the database.
-/

namespace Bpt.Crs

open Transaction Keyed

/-! ## What is on disk -/

/-- A row of `crs_repo_packages`. The other columns are generated from the JSON. -/
structure RepoRow where
  packageId : Nat
  json : Json
  deriving DecidableEq

/-- The tables of `repo.db`. -/
structure RepoDb where
  selfName : Option String := none
  rows : List RepoRow := []
  deriving DecidableEq

/-- What is at `pkg.tgz` in a package directory. -/
inductive TgzEntry where
  | absent
  | file
  | directory
  deriving DecidableEq

/-- A directory `pkg/<name>/<version>~<revision>`. -/
structure PkgDir where
  path : String × String
  tgz : TgzEntry := .absent
  /-- There is a `pkg.json`. -/
  json : Bool := false
  deriving DecidableEq

structure Repo where
  db : RepoDb := {}
  /-- What `repo.db.gz` decompresses to. -/
  index : Option RepoDb := none
  /-- The archives directly under `pkg`. -/
  archives : List String := []
  dirs : List PkgDir := []

def RepoRow.columns (row : RepoRow) : Option String × Option String × Option ℚ :=
  packageColumns row.json

/-! ## Statements -/

/-- The steps at which the file system or the database can fail. -/
inductive RepoStep where
  | createDirectories
  | openDb
  | prepare
  | compressTgz
  | beginTransaction
  | insert
  | copyArchive
  | copyJson
  | commit
  | vacuum
  | compressIndex
  | delete
  | removeDir
  deriving DecidableEq

inductive RepoError where
  | io (step : RepoStep)
  /-- The package to import cannot be read. -/
  | notRead
  | alreadyInit
  | invalidPkgVersion
  | pkgAlreadyPresent
  /-- Metadata with uses that are not listed was printed. -/
  | assertion
  deriving DecidableEq

/-- How the steps of one operation end. -/
structure RepoIo where
  fails : RepoStep → Bool
  /-- `rename` can move the archive. -/
  renames : Bool
  /-- A failed compression leaves its file. -/
  leavesFile : Bool

abbrev RepoAction (α : Type) := Action RepoError Repo α

def check (io : RepoIo) (step : RepoStep) : RepoAction Unit :=
  if io.fails step then throw (.io step) else pure ()

/-- Run statements in a transaction of the database, which does not roll back files. -/
def dbTransaction (x : RepoAction Unit) : RepoAction Unit := fun s =>
  match exec x s with
  | (.ok (), s') => (.ok (), s')
  | (.error e, s') => (.error e, { s' with db := s.db })

/-- Compress the database into the index, which is truncated first. -/
def vacuumAndCompress (io : RepoIo) : RepoAction Unit := do
  check io .vacuum
  if io.fails .compressIndex then
    modify fun s : Repo => { s with index := none }
    throw (.io .compressIndex)
  modify fun s : Repo => { s with index := some s.db }

def create (io : RepoIo) (name : String) : RepoAction Unit := do
  check io .createDirectories
  check io .openDb
  let s : Repo ← get
  if s.db.selfName.isSome then throw .alreadyInit
  check io .insert
  modify fun s : Repo => { s with db := { s.db with selfName := some name } }
  vacuumAndCompress io

def openExisting (io : RepoIo) : RepoAction Unit :=
  check io .openDb

section

variable {V S : Type} [Semver V] [VersionRangeSet S V]

/-- The directory of a package under `pkg`. -/
def subdirOf (id : PkgId V) : String × String :=
  (id.name.str, s!"{Semver.toStr id.version}~{id.revision}")

def createDir (path : String × String) (dirs : List PkgDir) : List PkgDir :=
  if dirs.any fun d => d.path = path then dirs else dirs ++ [{ path := path }]

def updateDir (path : String × String) (f : PkgDir → PkgDir) (dirs : List PkgDir) : List PkgDir :=
  dirs.map fun d => if d.path = path then f d else d

namespace Repo

def withDir (destDir : String × String) (s : Repo) : Repo :=
  { s with dirs := createDir destDir s.dirs }

def withArchive (tmpTgz : String) (s : Repo) : Repo :=
  { s with archives := s.archives ++ [tmpTgz] }

def addRow (json : Json) (s : Repo) : Repo :=
  { s with db := { s.db with
      rows := s.db.rows ++ [⟨freshRowid (s.db.rows.map (·.packageId)), json⟩] } }

def moveTgz (tmpTgz : String) (destDir : String × String) (tgz : TgzEntry) (s : Repo) : Repo :=
  { s with
    archives := s.archives.filter (· ≠ tmpTgz)
    dirs := updateDir destDir (fun d => { d with tgz := tgz }) s.dirs }

def addJson (destDir : String × String) (s : Repo) : Repo :=
  { s with dirs := updateDir destDir (fun d => { d with json := true }) s.dirs }

end Repo

def insertPackage (io : RepoIo) (json : Json) : RepoAction Unit := do
  check io .insert
  let s : Repo ← get
  if s.db.rows.any fun row => row.columns = packageColumns json then throw .pkgAlreadyPresent
  modify (Repo.addRow json)

/-- `move_file`. When `rename` fails, the archive is copied into a temporary
directory, which is then renamed to the destination. -/
def moveArchive (io : RepoIo) (tmpTgz : String) (destDir : String × String) : RepoAction Unit := do
  unless io.renames do check io .copyArchive
  modify (Repo.moveTgz tmpTgz destDir (if io.renames then .file else .directory))

/-- `copy_file`, which does not replace a file. -/
def copyJson (io : RepoIo) (destDir : String × String) : RepoAction Unit := do
  check io .copyJson
  let s : Repo ← get
  if s.dirs.any fun d => d.path = destDir && d.json then throw (.io .copyJson)
  modify (Repo.addJson destDir)

def compressTgz (io : RepoIo) (tmpTgz : String) : RepoAction Unit := do
  if io.fails .compressTgz then
    if io.leavesFile then modify (Repo.withArchive tmpTgz)
    throw (.io .compressTgz)
  modify (Repo.withArchive tmpTgz)

def checkRevision (id : PkgId V) : RepoAction Unit :=
  if id.revision < 1 then throw .invalidPkgVersion else pure ()

/-- The transaction of an import, around the moves of its files. -/
def storePackage (io : RepoIo) (json : Json) (tmpTgz : String) (destDir : String × String) :
    RepoAction Unit :=
  dbTransaction do
    insertPackage io json
    moveArchive io tmpTgz destDir
    copyJson io destDir
    check io .commit

/-- Import the package that `sdist::from_directory` reads, if it reads one. The
temporary directory inside that of the package is removed on every path. -/
def importDir (io : RepoIo) (package : Option (PackageInfo V S)) (tmpTgz : String) :
    RepoAction Unit := do
  match package with
  | none => throw .notRead
  | some pkg =>
    let destDir := subdirOf pkg.id
    check io .createDirectories
    modify (Repo.withDir destDir)
    check io .prepare
    match pkg.toJson with
    | none => throw .assertion
    | some json =>
      compressTgz io tmpTgz
      checkRevision pkg.id
      check io .beginTransaction
      storePackage io json tmpTgz destDir
      vacuumAndCompress io

/-- The rows that `remove_pkg` deletes: every revision for revision 0. -/
def removes (id : PkgId V) (row : RepoRow) : Bool :=
  let (name, version, pkgVersion) := row.columns
  name = some id.name.str && version = some (Semver.toStr id.version) &&
    (pkgVersion = some (id.revision : ℚ) || id.revision = 0)

def removePkg (io : RepoIo) (id : PkgId V) : RepoAction Unit := do
  check io .delete
  modify fun s : Repo => { s with
    db := { s.db with rows := s.db.rows.filter fun row => !removes id row } }
  check io .removeDir
  modify fun s : Repo => { s with dirs := s.dirs.filter fun d => d.path ≠ subdirOf id }

/-- The operations of a repository. -/
inductive RepoOp (V S : Type) where
  | create (io : RepoIo) (name : String)
  | openExisting (io : RepoIo)
  | importDir (io : RepoIo) (package : Option (PackageInfo V S)) (tmpTgz : String)
  | removePkg (io : RepoIo) (id : PkgId V)

def RepoOp.run : RepoOp V S → RepoAction Unit
  | .create io name => Crs.create io name
  | .openExisting io => Crs.openExisting io
  | .importDir io package tmpTgz => Crs.importDir io package tmpTgz
  | .removePkg io id => Crs.removePkg io id

end

end Bpt.Crs
