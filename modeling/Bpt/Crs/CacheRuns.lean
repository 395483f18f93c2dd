-- SUMMARY: The package cache over whole runs: exactness for the synchronised remote, and what other remotes keep.
import Bpt.Base.Reach
import Bpt.Crs.Import

/-!
# Runs of the package cache

A run starts from an empty cache and synchronises, enables and forgets remotes
in any order, each synchronisation meeting any server and any repository.
-/

namespace Bpt.Crs

open Transaction Keyed Reach

/-! ## Statements that keep the cache valid -/

theorem CacheDb.Valid.updateUpToDate {db : CacheDb} (hdb : db.Valid) (info : RemoteRepoDbInfo) :
    (exec (updateUpToDate info) db).2.Valid where
  remoteIds := hdb.remoteIds.map_of_key_eq fun _ _ => rfl
  uniqueNames := hdb.uniqueNames.map_of_key_eq fun _ _ => rfl
  pkgIds := hdb.pkgIds
  pkgKeys := hdb.pkgKeys
  pkgRemote row hrow := by
    obtain ⟨r, hr, hid⟩ := hdb.pkgRemote row hrow
    exact ⟨_, List.mem_map_of_mem hr, hid⟩
  libPkg := hdb.libPkg
  revno row hrow r hr hid := by
    obtain ⟨r', hr', rfl⟩ := List.mem_map.mp hr
    exact hdb.revno row hrow r' hr' hid
  libs := hdb.libs

theorem valid_forgetAll {db : CacheDb} (hdb : db.Valid) : (forgetAll db).Valid := by
  have hkept := hdb.deletePackages fun row => row.remoteId ∈ db.remotes.map (·.remoteId)
  have hnone : ∀ row, row ∉ (forgetAll db).packages := by
    intro row hrow
    obtain ⟨hrow, htest⟩ := mem_deletePackages.mp hrow
    obtain ⟨r, hr, hid⟩ := hdb.pkgRemote row hrow
    rw [decide_eq_false_iff_not, ← hid] at htest
    exact htest (List.mem_map.mpr ⟨r, hr, rfl⟩)
  exact {
    remoteIds := List.nodup_nil
    uniqueNames := List.nodup_nil
    pkgIds := hkept.pkgIds
    pkgKeys := hkept.pkgKeys
    pkgRemote := fun row hrow => absurd hrow (hnone row)
    libPkg := hkept.libPkg
    revno := fun row hrow => absurd hrow (hnone row)
    libs := fun row hrow => absurd hrow (hnone row) }

/-! ## Answers that a repository is up to date -/

/-- The server's answer that the repository is not modified, with the create-time
and the cache control to store. -/
def notModifiedAnswer (outside : Outside) (prior : Option RemoteRow) : Option (Int × Option String) :=
  (outside.respond ⟨prior.bind (·.etag), prior.bind (·.lastModified)⟩).bind fun resp =>
    if resp.notModified then some (createTime outside resp, resp.cacheControl) else none

/-- The answer that a cached repository is up to date: its caching metadata is
fresh, or the server says that it is not modified. -/
def upToDateAnswer (outside : Outside) (url : Url) (db : CacheDb) : Option (Int × Option String) :=
  if url.scheme = "file" then none
  else match db.remotes.find? fun row => row.url = url.str with
    | none => notModifiedAnswer outside none
    | some prior =>
      if isFresh outside prior then some (prior.resourceTime.getD 0, prior.cacheControl)
      else notModifiedAnswer outside (some prior)

/-- The caching metadata to store for a fetched repository that is up to date. -/
def storedAnswer : Except SyncError RemoteRepoDbInfo → Option (Option Int × Option String)
  | .ok info => if info.upToDate then some (info.resourceTime, info.cacheControl) else none
  | .error _ => none

theorem storedAnswer_requestRemoteDb (outside : Outside) (prior : Option RemoteRow) (db : CacheDb) :
    storedAnswer (exec (requestRemoteDb outside prior) db).1 =
      (notModifiedAnswer outside prior).map fun answer => (some answer.1, answer.2) := by
  unfold requestRemoteDb notModifiedAnswer
  cases hresp : outside.respond ⟨prior.bind (·.etag), prior.bind (·.lastModified)⟩ with
  | none => rfl
  | some resp =>
      cases hnot : resp.notModified with
      | true => simp [storedAnswer, hnot]
      | false =>
          dsimp only
          rw [hnot]
          cases resp.body <;> simp [storedAnswer, hnot]

theorem storedAnswer_getRemoteDb (outside : Outside) (url : Url) (db : CacheDb) :
    storedAnswer (exec (getRemoteDb outside url) db).1 =
      (upToDateAnswer outside url db).map fun answer => (some answer.1, answer.2) := by
  unfold getRemoteDb upToDateAnswer
  split
  next => rfl
  next =>
    rw [exec_bind, exec_get]
    dsimp only
    cases db.remotes.find? fun row => row.url = url.str with
    | none => exact storedAnswer_requestRemoteDb outside none db
    | some prior =>
        dsimp only
        split
        next => rfl
        next => exact storedAnswer_requestRemoteDb outside (some prior) db

/-- The rows of other URLs are as they were, and so are their packages and the
libraries of these. -/
structure OtherUrlsKept (db db' : CacheDb) (url : Url) : Prop where
  remotes : ∀ r, r.url ≠ url.str → (r ∈ db'.remotes ↔ r ∈ db.remotes)
  packages : ∀ r ∈ db.remotes, r.url ≠ url.str → ∀ row, row.remoteId = r.remoteId →
    (row ∈ db'.packages ↔ row ∈ db.packages)
  libraries : ∀ r ∈ db.remotes, r.url ≠ url.str → ∀ row ∈ db.packages,
    row.remoteId = r.remoteId → libraryRowsOf db' row.pkgId = libraryRowsOf db row.pkgId

theorem otherUrlsKept_refl (db : CacheDb) (url : Url) : OtherUrlsKept db db url :=
  ⟨fun _ _ => Iff.rfl, fun _ _ _ _ _ => Iff.rfl, fun _ _ _ _ _ _ => rfl⟩

/-- The update without a WHERE clause keeps the rows of other URLs exactly when
they have the written values already. -/
theorem otherUrlsKept_updateUpToDate {db : CacheDb} {url : Url} {info : RemoteRepoDbInfo} :
    OtherUrlsKept db (exec (updateUpToDate info) db).2 url ↔
      ∀ r ∈ db.remotes, r.url ≠ url.str →
        r.resourceTime = info.resourceTime ∧ r.cacheControl = info.cacheControl := by
  let write := fun r : RemoteRow =>
    { r with resourceTime := info.resourceTime, cacheControl := info.cacheControl }
  constructor
  · intro hkept r hr hurl
    obtain ⟨r', hr', hwrite⟩ := List.mem_map.mp ((hkept.remotes r hurl).mpr hr)
    rw [← hwrite]
    exact ⟨rfl, rfl⟩
  · intro hsame
    have hwrite : ∀ r ∈ db.remotes, r.url ≠ url.str → write r = r := by
      intro r hr hurl
      obtain ⟨htime, hcontrol⟩ := hsame r hr hurl
      simp only [write, ← htime, ← hcontrol]
    refine ⟨fun r hurl => ?_, fun _ _ _ _ _ => Iff.rfl, fun _ _ _ _ _ _ => rfl⟩
    constructor
    · intro hr
      obtain ⟨r', hr', rfl⟩ := List.mem_map.mp hr
      exact (hwrite r' hr' hurl).symm ▸ hr'
    · intro hr
      exact List.mem_map.mpr ⟨r, hr, hwrite r hr hurl⟩

/-! ## Runs -/

section

variable {V S : Type} [Semver V] [VersionRangeSet S V] [Semester]

/-- One operation on the cache. A synchronisation meets one of the allowed outsides. -/
inductive CacheStep (V S : Type) [Semver V] [VersionRangeSet S V]
    (allowed : CacheDb → Outside → Url → Prop) : CacheDb → CacheDb → Prop where
  | sync (db : CacheDb) (outside : Outside) (url : Url) (h : allowed db outside url) :
      CacheStep V S allowed db (exec (syncRemote V S outside url) db).2
  | enable (db : CacheDb) (url : Url) : CacheStep V S allowed db (enableRemote url db).2
  | forget (db : CacheDb) : CacheStep V S allowed db (forgetAll db)
  /-- The table of enabled remotes is temporary. -/
  | reopen (db : CacheDb) : CacheStep V S allowed db { db with enabled := [] }

/-- The caches that runs reach when every synchronisation is an allowed one. -/
def CacheReachableBy (V S : Type) [Semver V] [VersionRangeSet S V]
    (allowed : CacheDb → Outside → Url → Prop) : CacheDb → Prop :=
  Reachable (· = {}) (CacheStep V S allowed)

/-- The caches that runs reach. -/
def CacheReachable (V S : Type) [Semver V] [VersionRangeSet S V] : CacheDb → Prop :=
  CacheReachableBy V S fun _ _ _ => True

variable {allowed : CacheDb → Outside → Url → Prop}

theorem CacheReachableBy.reachable {db : CacheDb} (h : CacheReachableBy V S allowed db) :
    CacheReachable V S db := by
  refine Reachable.mono (fun s t hstep => ?_) h
  cases hstep with
  | sync outside url => exact .sync s outside url trivial
  | enable url => exact .enable s url
  | forget => exact .forget s
  | reopen => exact .reopen s

/-- What a step does to the packages: an import replaces those of one remote, and
every other step keeps or deletes them. -/
theorem CacheStep.packages {db db' : CacheDb} (h : CacheStep V S allowed db db') (hdb : db.Valid) :
    db'.packages ⊆ db.packages ∨
      ∃ outside url, allowed db outside url ∧ ∃ info remote,
        exec (getRemoteDb outside url) db = (.ok info, db) ∧ info.upToDate = false ∧
          info.repo = some remote ∧ ∃ r, Imported V S db db' url remote r := by
  cases h with
  | sync outside url hallowed =>
      cases hexec : exec (syncRemote V S outside url) db with
      | mk result db' =>
          rcases exec_syncRemote hexec with
            ⟨_, _, rfl, _⟩ | ⟨info, hfetch, _, ⟨_, hup⟩ | ⟨hstale, remote, hrepo, himport⟩⟩
          · exact .inl (List.Subset.refl _)
          · have hsame : (exec (updateUpToDate info) db).2.packages ⊆ db.packages :=
              List.Subset.refl _
            rw [hup] at hsame
            exact .inl hsame
          · obtain ⟨r, himported⟩ := exec_importRemote hdb himport
            exact .inr ⟨outside, url, hallowed, info, remote, hfetch, hstale, hrepo, r, himported⟩
  | enable url => exact .inl (List.Subset.refl _)
  | forget => exact .inl fun row hrow => (mem_deletePackages.mp hrow).1
  | reopen => exact .inl (List.Subset.refl _)

theorem CacheStep.valid {db db' : CacheDb} (h : CacheStep V S allowed db db') (hdb : db.Valid) :
    db'.Valid := by
  cases h with
  | sync outside url =>
      cases hexec : exec (syncRemote V S outside url) db with
      | mk result db' =>
          rcases exec_syncRemote hexec with ⟨_, _, rfl, _⟩ | ⟨info, _, _, ⟨_, hup⟩ | ⟨_, remote, _, himport⟩⟩
          · exact hdb
          · have hvalid := hdb.updateUpToDate info
            rwa [hup] at hvalid
          · obtain ⟨r, himported⟩ := exec_importRemote hdb himport
            exact himported.valid
  | enable url => exact ⟨hdb.remoteIds, hdb.uniqueNames, hdb.pkgIds, hdb.pkgKeys, hdb.pkgRemote,
      hdb.libPkg, hdb.revno, hdb.libs⟩
  | forget => exact valid_forgetAll hdb
  | reopen => exact ⟨hdb.remoteIds, hdb.uniqueNames, hdb.pkgIds, hdb.pkgKeys, hdb.pkgRemote,
      hdb.libPkg, hdb.revno, hdb.libs⟩

theorem CacheReachable.valid {db : CacheDb} (h : CacheReachable V S db) : db.Valid :=
  Reachable.invariant (by rintro _ rfl; exact CacheDb.valid_empty)
    (fun _ _ hs hstep => hstep.valid hs) h

/-! ## Exactness -/

/-- After any run, a synchronisation that fetches a repository and returns
normally leaves exactly the packages this publishes under its remote, and one
that fails leaves the tables as they were. -/
theorem syncRemote_exact (db : CacheDb) (hreach : CacheReachable V S db) (outside : Outside)
    (url : Url) :
    (∀ info remote db', exec (getRemoteDb outside url) db = (.ok info, db) →
      info.upToDate = false → info.repo = some remote →
      exec (syncRemote V S outside url) db = (.ok (), db') →
      ∃ r ∈ db'.remotes, r.url = url.str ∧ remote.selfName = some r.uniqueName ∧
        HoldsExactly V S db' r (publishedPackages V S remote.metaJsons)) ∧
    ∀ err db', exec (syncRemote V S outside url) db = (.error err, db') →
      db'.remotes = db.remotes ∧ db'.packages = db.packages ∧ db'.libraries = db.libraries := by
  constructor
  · intro info remote db' hfetch hstale hrepo hsync
    have himport := exec_importRemote_of_syncRemote hfetch hstale hrepo hsync
    obtain ⟨r, himported⟩ := exec_importRemote hreach.valid himport
    exact ⟨r, himported.mem, himported.url, himported.name, himported.exact_⟩
  · intro err db' hsync
    rcases exec_syncRemote hsync with ⟨_, _, rfl, _⟩ | ⟨_, _, h, _⟩
    · exact ⟨rfl, rfl, rfl⟩
    · cases h

end

/-! ### A repository that changes its package -/

section

attribute [local instance] Semester.permissive

/-- The JSON of a package `foo` of one library. -/
def fooText (revision : ℚ) (path : String) (uses : List String) : JsonText := some <| .obj
  [("name", .str "foo"), ("version", .str "0.0.1"), ("pkg-version", .num revision),
   ("libraries", .arr [.obj
     [("name", .str "main"), ("path", .str path), ("using", .arr (uses.map .str)),
      ("test-using", .arr []), ("dependencies", .arr []), ("test-dependencies", .arr [])]]),
   ("schema-version", .num 1)]

/-- A local repository of the given packages. -/
def fooRepo (texts : List JsonText) : Outside where
  freshnessTime := 0
  responseTime := 0
  respond _ := none
  localRepo := some ⟨some "foo-repo", texts⟩

def fooUrl : Url := ⟨"file", "file:///foo-repo"⟩

/-- The cache after the repository was synchronised. -/
def syncFoo (texts : List JsonText) (db : CacheDb) : Except SyncError Unit × CacheDb :=
  exec (syncRemote PatchRelease (Finset Nat) (fooRepo texts) fooUrl) db

def oldTexts : List JsonText := [fooText 1 "." []]

def newTexts : List JsonText := [fooText 2 "src" [], fooText 0 "." []]

theorem syncRemote_exact_foo :
    ∃ r ∈ (syncFoo newTexts (syncFoo oldTexts {}).2).2.remotes,
      r.url = fooUrl.str ∧ some "foo-repo" = some r.uniqueName ∧
        HoldsExactly PatchRelease (Finset Nat) (syncFoo newTexts (syncFoo oldTexts {}).2).2 r
          (publishedPackages PatchRelease (Finset Nat) newTexts) := by
  have hreach : CacheReachable PatchRelease (Finset Nat) (syncFoo oldTexts {}).2 :=
    .step (.init rfl) (.sync {} (fooRepo oldTexts) fooUrl trivial)
  have hok : (syncFoo newTexts (syncFoo oldTexts {}).2).1 = .ok () := by
    decide +kernel
  generalize (syncFoo oldTexts {}).2 = db at hreach hok ⊢
  exact (syncRemote_exact db hreach (fooRepo newTexts) fooUrl).1
    ⟨some ⟨some "foo-repo", newTexts⟩, none, none, none, none, false⟩ ⟨some "foo-repo", newTexts⟩ _
    rfl rfl rfl (Prod.ext hok rfl)

end

/-! ## Other remotes -/

section

variable {V S : Type} [Semver V] [VersionRangeSet S V] [Semester]

/-- An import keeps other URLs, when its repository's name is not used by one. -/
theorem Imported.otherUrlsKept {db db' : CacheDb} {url : Url} {remote : RemoteDb} {r : RemoteRow}
    (h : Imported V S db db' url remote r)
    (hname : ∀ r' ∈ db.remotes, r'.uniqueName = r.uniqueName → r'.url = url.str) :
    OtherUrlsKept db db' url := by
  have hid : ∀ r' ∈ db.remotes, r'.url ≠ url.str → r'.remoteId ≠ r.remoteId := by
    intro r' hr' hurl heq
    have hne : r'.uniqueName ≠ r.uniqueName := fun hn => hurl (hname r' hr' hn)
    have hmem := (h.otherRemotes r' hne).mpr hr'
    exact hne (congrArg RemoteRow.uniqueName (h.valid.remoteIds.eq_of_key hmem h.mem heq))
  refine ⟨fun r' hurl => ?_, fun r' hr' hurl row hrow => ?_, fun r' hr' hurl row hmem hrow => ?_⟩
  · by_cases hn : r'.uniqueName = r.uniqueName
    · refine iff_of_false (fun hr' => hurl ?_) fun hr' => hurl (hname r' hr' hn)
      rw [h.valid.uniqueNames.eq_of_key hr' h.mem hn, h.url]
    · exact h.otherRemotes r' hn
  · exact h.others.packages row (hrow ▸ hid r' hr' hurl)
  · exact h.others.libraries row hmem (hrow ▸ hid r' hr' hurl)

/-- A synchronisation keeps other URLs exactly when it is not answered that its
repository is up to date, or they have the caching metadata it then writes. -/
theorem syncRemote_otherUrlsKept_iff (db : CacheDb) (hdb : db.Valid) (outside : Outside) (url : Url)
    (hname : ∀ info remote name, exec (getRemoteDb outside url) db = (.ok info, db) →
      info.repo = some remote → remote.selfName = some name →
      ∀ r ∈ db.remotes, r.uniqueName = name → r.url = url.str) :
    OtherUrlsKept db (exec (syncRemote V S outside url) db).2 url ↔
      ∀ time cacheControl, upToDateAnswer outside url db = some (time, cacheControl) →
        ∀ r ∈ db.remotes, r.url ≠ url.str →
          r.resourceTime = some time ∧ r.cacheControl = cacheControl := by
  have hanswer := storedAnswer_getRemoteDb outside url db
  cases hexec : exec (syncRemote V S outside url) db with
  | mk result db' =>
      rcases exec_syncRemote hexec with ⟨_, _, rfl, hstale⟩ | ⟨info, hfetch, _, hpaths⟩
      · refine iff_of_true (otherUrlsKept_refl _ url) fun time cacheControl hup => ?_
        have hsame := exec_getRemoteDb outside url db'
        cases hfetch : exec (getRemoteDb outside url) db' with
        | mk fetched db₁ =>
            rw [hfetch] at hanswer hsame
            cases hsame
            cases fetched with
            | error err => simp [storedAnswer, hup] at hanswer
            | ok info => simp [storedAnswer, hstale info hfetch, hup] at hanswer
      · rw [hfetch] at hanswer
        rcases hpaths with ⟨hfresh, hup⟩ | ⟨hstale, remote, hrepo, himport⟩
        · have hkept : OtherUrlsKept db (exec (updateUpToDate info) db).2 url ↔ _ :=
            otherUrlsKept_updateUpToDate
          rw [hup] at hkept
          rw [hkept]
          simp only [storedAnswer, hfresh, if_true] at hanswer
          obtain ⟨⟨time, cacheControl⟩, hstored, heq⟩ := Option.map_eq_some_iff.mp hanswer.symm
          simp only [Prod.mk.injEq] at heq
          rw [hstored, ← heq.1, ← heq.2]
          simp only [Option.some.injEq, Prod.mk.injEq]
          constructor
          · rintro hsame _ _ ⟨rfl, rfl⟩
            exact hsame
          · intro hsame
            exact hsame time cacheControl ⟨rfl, rfl⟩
        · obtain ⟨r, himported⟩ := exec_importRemote hdb himport
          have hnone : upToDateAnswer outside url db = none := by
            simpa [storedAnswer, hstale] using hanswer.symm
          refine iff_of_true (himported.otherUrlsKept ?_) fun time cacheControl hup => ?_
          · exact hname info remote r.uniqueName hfetch hrepo himported.name
          · rw [hnone] at hup
            cases hup

end

/-! ### Two servers -/

section

attribute [local instance] Semester.permissive

/-- A server that publishes an empty repository of the given name, or says that
the repository is not modified. -/
def server (time : Int) (notModified : Bool) (name : String) : Outside where
  freshnessTime := time
  responseTime := time
  respond _ := some ⟨none, none, none, none, notModified, some ⟨some name, []⟩⟩
  localRepo := none

def serverUrl (name : String) : Url := ⟨"https", "https://" ++ name⟩

/-- The cache after one synchronisation with each server. -/
def twoServers : CacheDb :=
  let sync name := exec (syncRemote PatchRelease (Finset Nat) (server 0 false name) (serverUrl name))
  (sync "bar" (sync "foo" {}).2).2

theorem twoServers_reachable : CacheReachable PatchRelease (Finset Nat) twoServers :=
  .step (.step (.init rfl) (.sync {} (server 0 false "foo") (serverUrl "foo") trivial))
    (.sync _ (server 0 false "bar") (serverUrl "bar") trivial)

theorem syncRemote_otherUrlsKept_iff_new :
    OtherUrlsKept twoServers
        (exec (syncRemote PatchRelease (Finset Nat) (server 1 false "foo") (serverUrl "foo"))
          twoServers).2 (serverUrl "foo") ↔
      ∀ time cacheControl,
        upToDateAnswer (server 1 false "foo") (serverUrl "foo") twoServers =
          some (time, cacheControl) →
        ∀ r ∈ twoServers.remotes, r.url ≠ (serverUrl "foo").str →
          r.resourceTime = some time ∧ r.cacheControl = cacheControl := by
  refine syncRemote_otherUrlsKept_iff twoServers twoServers_reachable.valid _ _ ?_
  intro info remote name hfetch hrepo hname
  have hrepo' : info.repo = some ⟨some "foo", []⟩ := by
    cases hfetch
    rfl
  cases hrepo.symm.trans hrepo'
  cases hname
  decide

/-- An answer that one repository is not modified overwrites the create-time of
another. -/
theorem syncRemote_not_otherUrlsKept :
    ∃ db : CacheDb, CacheReachable PatchRelease (Finset Nat) db ∧ ∃ outside url,
      ¬ OtherUrlsKept db (exec (syncRemote PatchRelease (Finset Nat) outside url) db).2 url := by
  refine ⟨twoServers, twoServers_reachable, server 1 true "foo", serverUrl "foo", fun hkept => ?_⟩
  let bar : RemoteRow := ⟨2, "https://bar", "bar", 1, none, none, some 0, none⟩
  have hlost : bar ∉ (exec (syncRemote PatchRelease (Finset Nat) (server 1 true "foo")
      (serverUrl "foo")) twoServers).2.remotes := by
    decide +kernel
  exact hlost ((hkept.remotes bar (by decide)).mpr (by decide +kernel))

end

end Bpt.Crs
