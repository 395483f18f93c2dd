-- SUMMARY: Fetching a remote repository and importing its packages into the cache.
import Bpt.Crs.CacheDb

/-!
# Synchronising a remote

`syncRemote` asks `getRemoteDb` for the repository of a URL. When that is up to
date only the caching metadata is written. Otherwise the packages are imported in
one transaction.
-/

namespace Bpt.Crs

open Transaction

/-- Nanoseconds of the steady clock in a second. -/
def ticksPerSecond : Int := 1000000000

def shouldRevalidate (cacheControl : String) (resourceTime now : Int) : Bool :=
  let parts := splitView cacheControl.toList ", ".toList
  if parts.any fun part => trimView part = "no-cache".toList then true
  else
    match parts.find? fun part => "max-age=".toList.isPrefixOf part with
    | none => true
    | some maxAge =>
      match fromCharsInt (trimView (maxAge.drop "max-age=".length)) with
      | none => true
      | some age => resourceTime + age * ticksPerSecond < now

/-- The parameters of a request. -/
structure RequestParams where
  priorEtag : Option String
  lastModified : Option String

/-- The response to a request, with the decompressed repository of its body. -/
structure Response where
  etag : Option String
  lastModified : Option String
  age : Option String
  cacheControl : Option String
  notModified : Bool
  body : Option RemoteDb

/-- What a call meets outside of the cache: the clock when it decides whether the
cached repository is fresh and when it gets a response, the server, and the
repository at the path of a `file` URL. -/
structure Outside where
  freshnessTime : Int
  responseTime : Int
  respond : RequestParams → Option Response
  localRepo : Option RemoteDb

/-- The cached caching metadata of a URL is fresh. -/
def isFresh (outside : Outside) (prior : RemoteRow) : Bool :=
  match prior.cacheControl with
  | none => false
  | some cacheControl =>
    !shouldRevalidate cacheControl (prior.resourceTime.getD 0) outside.freshnessTime

/-- The create-time of a response, which the `Age` header sets back. -/
def createTime (outside : Outside) (resp : Response) : Int :=
  match resp.age.bind fun age => fromCharsInt age.toList with
  | some age => outside.responseTime - age * ticksPerSecond
  | none => outside.responseTime

/-- The branch of `get_remote_db` that makes a request. -/
def requestRemoteDb (outside : Outside) (prior : Option RemoteRow) : Sql RemoteRepoDbInfo :=
  match outside.respond ⟨prior.bind (·.etag), prior.bind (·.lastModified)⟩ with
  | none => throw .request
  | some resp =>
    let info : RemoteRepoDbInfo := {
      repo := none
      etag := resp.etag
      lastModified := resp.lastModified
      resourceTime := some (createTime outside resp)
      cacheControl := resp.cacheControl
      upToDate := false }
    if resp.notModified then return { info with upToDate := true }
    else match resp.body with
      | none => throw .request
      | some repo => return { info with repo := some repo }

def getRemoteDb (outside : Outside) (url : Url) : Sql RemoteRepoDbInfo := do
  if url.scheme = "file" then
    return ⟨outside.localRepo, none, none, none, none, false⟩
  else
    let db : CacheDb ← get
    match db.remotes.find? fun row => row.url = url.str with
    | none => requestRemoteDb outside none
    | some prior =>
      if isFresh outside prior then
        return ⟨none, prior.etag, prior.lastModified, some (prior.resourceTime.getD 0),
          prior.cacheControl, true⟩
      else requestRemoteDb outside (some prior)

section

variable {V S : Type} [Semver V] [VersionRangeSet S V] [Semester]

/-- The package of an entry. An entry whose metadata is invalid or whose revision
is not positive is skipped; other failures are passed on. -/
def readMetaJson (V S : Type) [Semver V] [VersionRangeSet S V] (text : JsonText) :
    Except PackageInfo.LoadError (Option (PackageInfo V S)) :=
  match PackageInfo.fromJsonStr text with
  | .ok pkg => if pkg.id.revision < 1 then .ok none else .ok (some pkg)
  | .error (.invalidMetaData _) => .ok none
  | .error err => .error err

/-- One round of the import loop. -/
def importEntry (V S : Type) [Semver V] [VersionRangeSet S V] (remoteId remoteRevno : Nat)
    (text : JsonText) : Sql Unit :=
  match readMetaJson V S text with
  | .error err => throw (.load err)
  | .ok none => pure ()
  | .ok (some pkg) =>
    match pkg.toJson with
    | none => throw .assertion
    | some json => updatePackage json remoteId remoteRevno

/-- The body of the transaction. -/
def importRemote (V S : Type) [Semver V] [VersionRangeSet S V] (url : Url)
    (info : RemoteRepoDbInfo) (remote : RemoteDb) : Sql Unit := do
  let (remoteId, remoteRevno) ← updateRemote url info remote
  forEach (importEntry V S remoteId remoteRevno) remote.metaJsons
  deleteOld remoteId remoteRevno

def syncRemote (V S : Type) [Semver V] [VersionRangeSet S V] (outside : Outside) (url : Url) :
    Sql Unit := do
  let info ← getRemoteDb outside url
  if info.upToDate then
    updateUpToDate info
  else
    match info.repo with
    | none => throw .sqlite
    | some remote => transaction (importRemote V S url info remote)

end

end Bpt.Crs
