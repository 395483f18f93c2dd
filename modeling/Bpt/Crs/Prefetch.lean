-- SUMMARY: `cache::prefetch`, the archive it pulls, and when the remote it pulls from has the package.
import Bpt.Crs.CacheQuery

/-!
# Prefetching

`prefetch` takes the remote, and a revision that is not given, from the first row
of the query by name and version. The rows of a version may be of several remotes
and revisions, so the archive of a given revision may be requested from a remote
that does not have it.
-/

namespace Bpt.Crs

open Transaction

/-! ## Pulling archives -/

section

variable {V S : Type} [Semver V]

def PkgId.toString (id : PkgId V) : String :=
  s!"{id.name.str}@{Semver.toStr id.version}~{id.revision}"

/-- The URL of an archive: that of the remote, and the path below it. -/
structure PkgUrl where
  base : String
  path : List String
  deriving DecidableEq

def calcPkgUrl (base : String) (pkg : PkgId V) : PkgUrl :=
  ⟨base, ["pkg", pkg.name.str, s!"{Semver.toStr pkg.version}~{pkg.revision}", "pkg.tgz"]⟩

/-- What comes of an archive: it cannot be read, cannot be expanded, or is expanded. -/
inductive PullResult where
  | unread
  | unexpanded
  | expanded
  deriving DecidableEq

inductive PrefetchError (V : Type) where
  /-- The error `e_no_such_pkg`. -/
  | noSuchPkg (pid : PkgId V)
  | pull (url : PkgUrl)
  /-- The assertion "Unable to get the remote of a just-obtained package entry". -/
  | noRemote

/-- The directories of packages on disk, and the archives that were requested. -/
structure PkgCache where
  dirs : List String
  requests : List PkgUrl

/-- Read an archive and expand it. The directory is created before the expansion. -/
def pullPkgFromRemote (pull : PkgUrl → PullResult) (expandInto base : String) (pkg : PkgId V) :
    Action (PrefetchError V) PkgCache Unit := do
  let tgz := calcPkgUrl base pkg
  modify fun c : PkgCache => { c with requests := c.requests ++ [tgz] }
  match pull tgz with
  | .unread => throw (.pull tgz)
  | .unexpanded =>
    modify fun c : PkgCache => { c with dirs := c.dirs ++ [expandInto] }
    throw (.pull tgz)
  | .expanded => modify fun c : PkgCache => { c with dirs := c.dirs ++ [expandInto] }

def getRemoteById (db : CacheDb) (rowid : Nat) : Option RemoteRow :=
  db.remotes.find? fun r => r.remoteId = rowid

/-- A revision of 0 stands for that of the entry. -/
def PkgId.resolve (pid : PkgId V) (it : PackageEntry V S) : PkgId V :=
  if pid.revision = 0 then { pid with revision := it.pkg.id.revision } else pid

/-- `entries` is what `for_package` returns for the name and the version. -/
def prefetch (db : CacheDb) (entries : List (PackageEntry V S)) (pull : PkgUrl → PullResult)
    (pid : PkgId V) : Action (PrefetchError V) PkgCache String :=
  match entries with
  | [] => throw (.noSuchPkg pid)
  | it :: _ => do
    let remote := getRemoteById db it.remoteId
    let pid := pid.resolve it
    let cache : PkgCache ← get
    if pid.toString ∈ cache.dirs then return pid.toString
    match remote with
    | none => throw .noRemote
    | some remote =>
      pullPkgFromRemote pull pid.toString remote.url pid
      return pid.toString

theorem exec_pullPkgFromRemote_requests (pull : PkgUrl → PullResult) (expandInto base : String)
    (pkg : PkgId V) (cache : PkgCache) :
    (exec (pullPkgFromRemote pull expandInto base pkg) cache).2.requests =
      cache.requests ++ [calcPkgUrl base pkg] := by
  unfold pullPkgFromRemote
  rw [exec_bind, exec_modify]
  dsimp only
  cases pull (calcPkgUrl base pkg) with
  | unread => rfl
  | unexpanded => rfl
  | expanded => rfl

omit [Semver V] in
theorem PkgId.resolve_of_zero {pid : PkgId V} (h : pid.revision = 0) (it : PackageEntry V S) :
    pid.resolve it = { pid with revision := it.pkg.id.revision } :=
  if_pos h

omit [Semver V] in
theorem PkgId.resolve_of_pos {pid : PkgId V} (h : 1 ≤ pid.revision) (it : PackageEntry V S) :
    pid.resolve it = pid :=
  if_neg (by omega)

/-- A package that is not on disk is requested from the remote of the first row. -/
theorem exec_prefetch_requests {db : CacheDb} {first : PackageEntry V S}
    {rest : List (PackageEntry V S)} {pull : PkgUrl → PullResult} {pid : PkgId V}
    {cache : PkgCache} {r : RemoteRow} (hremote : getRemoteById db first.remoteId = some r)
    (hdisk : (pid.resolve first).toString ∉ cache.dirs) :
    (exec (prefetch db (first :: rest) pull pid) cache).2.requests =
      cache.requests ++ [calcPkgUrl r.url (pid.resolve first)] := by
  unfold prefetch
  dsimp only
  rw [hremote, exec_bind, exec_get]
  dsimp only
  rw [if_neg hdisk, exec_bind]
  have hrequests := exec_pullPkgFromRemote_requests pull (pid.resolve first).toString r.url
    (pid.resolve first) cache
  cases hpull : exec (pullPkgFromRemote pull (pid.resolve first).toString r.url
      (pid.resolve first)) cache with
  | mk result cache' =>
      rw [hpull] at hrequests
      cases result with
      | ok _ => exact hrequests
      | error err => exact hrequests

end

/-! ## Where the archive comes from -/

section

variable {V S : Type} [Semver V] [VersionRangeSet S V] [Semester]

/-- An entry of the enabled packages. -/
def EnabledEntry (db : CacheDb) (e : PackageEntry V S) : Prop :=
  ∃ row ∈ enabledPackages db, pkgEntryFromRow V S row = .ok e

/-- A remote has a package when it is the one of an enabled entry of that id. -/
def Publishes (S : Type) [VersionRangeSet S V] (db : CacheDb) (r : RemoteRow) (pid : PkgId V) :
    Prop :=
  r ∈ db.remotes ∧
    ∃ e : PackageEntry V S, EnabledEntry db e ∧ e.remoteId = r.remoteId ∧ e.pkg.id = pid

/-- A package that is not on disk is pulled from a remote that has it: the given
revision, or for revision 0 one that is enabled. -/
def FetchesSolved (db : CacheDb) (entries : List (PackageEntry V S)) (pull : PkgUrl → PullResult)
    (cache : PkgCache) (pid : PkgId V) : Prop :=
  (1 ≤ pid.revision → (∃ e : PackageEntry V S, EnabledEntry db e ∧ e.pkg.id = pid) →
    pid.toString ∉ cache.dirs →
    ∃ r, Publishes S db r pid ∧
      (exec (prefetch db entries pull pid) cache).2.requests =
        cache.requests ++ [calcPkgUrl r.url pid]) ∧
  (pid.revision = 0 → entries ≠ [] →
    ∃ r revision, Publishes S db r { pid with revision := revision } ∧
      (({ pid with revision := revision } : PkgId V).toString ∉ cache.dirs →
        (exec (prefetch db entries pull pid) cache).2.requests =
          cache.requests ++ [calcPkgUrl r.url { pid with revision := revision }]))

/-- The URL of the first row's remote is that of a remote that has the package. -/
def FirstRowPublishes (db : CacheDb) (entries : List (PackageEntry V S)) (pid : PkgId V) : Prop :=
  ∃ first rest, entries = first :: rest ∧
    ∃ r, Publishes S db r pid ∧ (getRemoteById db first.remoteId).map (·.url) = some r.url

omit [Semester] in
theorem getRemoteById_eq_some {db : CacheDb} (hdb : db.Valid) {rowid : Nat} {r : RemoteRow} :
    getRemoteById db rowid = some r ↔ r ∈ db.remotes ∧ r.remoteId = rowid :=
  hdb.remoteIds.find?_eq_some

/-- What the query returns is enabled, has the name and the version, and has a remote. -/
theorem Answers.enabled {db : CacheDb} (hreach : CacheReachable V S db) {name : Name} {version : V}
    {entries : List (PackageEntry V S)} (hentries : Answers (packageVersionRows db name version) entries)
    {e : PackageEntry V S} (he : e ∈ entries) :
    EnabledEntry db e ∧ e.pkg.id.name = name ∧ e.pkg.id.version = version ∧
      ∃ r ∈ db.remotes, r.remoteId = e.remoteId := by
  obtain ⟨row, hrow, hload⟩ := hentries.exists_row he
  simp only [packageVersionRows, List.mem_filter, decide_eq_true_eq] at hrow
  obtain ⟨hrow, hname, hversion⟩ := hrow
  have hcolumns := hreach.printed.columns (mem_enabledPackages hrow) hload
  rw [hname, hversion] at hcolumns
  obtain ⟨r, hr, hid⟩ := hreach.valid.pkgRemote row (mem_enabledPackages hrow)
  refine ⟨⟨row, hrow, hload⟩, ?_, ?_, r, hr, ?_⟩
  · exact (Name.str_injective (Option.some.inj hcolumns.1)).symm
  · exact (Semver.toStr_injective (Option.some.inj hcolumns.2)).symm
  · rw [(pkgEntryFromRow_eq_ok.mp hload).2.2]
    exact hid

/-- The query returns every enabled entry of the name and the version. -/
theorem Answers.mem_of_enabled {db : CacheDb} (hreach : CacheReachable V S db) {e : PackageEntry V S}
    {entries : List (PackageEntry V S)}
    (hentries : Answers (packageVersionRows db e.pkg.id.name e.pkg.id.version) entries)
    (he : EnabledEntry db e) : e ∈ entries := by
  obtain ⟨row, hrow, hload⟩ := he
  have hcolumns := hreach.printed.columns (mem_enabledPackages hrow) hload
  refine hentries.perm_filterMap.mem_iff.mpr (List.mem_filterMap.mpr ⟨row, ?_, by rw [hload]; rfl⟩)
  simp only [packageVersionRows, List.mem_filter, decide_eq_true_eq]
  exact ⟨hrow, hcolumns⟩

/-- Prefetching pulls from a remote that has the package exactly when that of the
first row does, or nothing has to be decided by it. -/
theorem fetchesSolved_iff (db : CacheDb) (hreach : CacheReachable V S db) (pid : PkgId V)
    (entries : List (PackageEntry V S))
    (hentries : Answers (packageVersionRows db pid.name pid.version) entries)
    (pull : PkgUrl → PullResult) (cache : PkgCache) :
    FetchesSolved db entries pull cache pid ↔
      (1 ≤ pid.revision → (∃ e : PackageEntry V S, EnabledEntry db e ∧ e.pkg.id = pid) →
        pid.toString ∉ cache.dirs → FirstRowPublishes db entries pid) := by
  have hvalid := hreach.valid
  constructor
  · rintro ⟨hgiven, _⟩ hrevision hexists hdisk
    obtain ⟨r, hpublishes, hrequests⟩ := hgiven hrevision hexists hdisk
    obtain ⟨e, he, rfl⟩ := hexists
    have hmem := hentries.mem_of_enabled hreach he
    cases entries with
    | nil => cases hmem
    | cons first rest =>
        obtain ⟨_, _, _, r', hr', hid⟩ := hentries.enabled hreach List.mem_cons_self
        have hremote := (getRemoteById_eq_some hvalid).mpr ⟨hr', hid⟩
        have hresolve := PkgId.resolve_of_pos hrevision first
        rw [exec_prefetch_requests hremote (by rwa [hresolve]), hresolve] at hrequests
        have hurl : r'.url = r.url :=
          congrArg PkgUrl.base (List.singleton_inj.mp (List.append_cancel_left hrequests))
        exact ⟨first, rest, rfl, r, hpublishes, by rw [hremote, ← hurl]; rfl⟩
  · intro hfirst
    constructor
    · intro hrevision hexists hdisk
      obtain ⟨first, rest, rfl, r, hpublishes, hurl⟩ := hfirst hrevision hexists hdisk
      obtain ⟨r', hremote, hurl⟩ := Option.map_eq_some_iff.mp hurl
      have hresolve := PkgId.resolve_of_pos hrevision first
      refine ⟨r, hpublishes, ?_⟩
      rw [exec_prefetch_requests hremote (by rwa [hresolve]), hresolve, hurl]
    · intro hrevision hsome
      cases entries with
      | nil => exact absurd rfl hsome
      | cons first rest =>
          obtain ⟨he, hname, hversion, r, hr, hid⟩ := hentries.enabled hreach List.mem_cons_self
          have hremote := (getRemoteById_eq_some hvalid).mpr ⟨hr, hid⟩
          refine ⟨r, first.pkg.id.revision, ⟨hr, first, he, hid.symm, ?_⟩, fun hdisk => ?_⟩
          · rw [← hname, ← hversion]
          · have hresolve := PkgId.resolve_of_zero hrevision first
            rw [exec_prefetch_requests hremote (by rwa [hresolve]), hresolve]

end

/-! ### Two remotes with one version -/

section

attribute [local instance] Semester.permissive

/-- A cache with two enabled remotes, which have the revisions 1 and 2 of a version. -/
def twoRevisions : CacheDb :=
  let db := (exec (syncRemote PatchRelease (Finset Nat) (fooRepo [fooText 1 "." []]) fooUrl) {}).2
  let bar : Outside := { fooRepo [] with localRepo := some ⟨some "bar-repo", [fooText 2 "." []]⟩ }
  let db := (exec (syncRemote PatchRelease (Finset Nat) bar ⟨"file", "file:///bar-repo"⟩) db).2
  (enableRemote ⟨"file", "file:///bar-repo"⟩ (enableRemote fooUrl db).2).2

/-- The entry that a row loads as. -/
def entriesOf (rows : List PackageRow) : List (PackageEntry PatchRelease (Finset Nat)) :=
  rows.filterMap fun row => (pkgEntryFromRow PatchRelease (Finset Nat) row).toOption

def fooId (revision : Int) : PkgId PatchRelease := ⟨⟨"foo"⟩, ⟨1⟩, revision⟩

theorem twoRevisions_reachable : CacheReachable PatchRelease (Finset Nat) twoRevisions :=
  .step (.step (.step (.step (.init rfl) (.sync _ _ _ trivial)) (.sync _ _ _ trivial))
    (.enable _ _)) (.enable _ _)

private theorem forall₂_entriesOf {rows : List PackageRow}
    (h : ∀ row ∈ rows, (pkgEntryFromRow PatchRelease (Finset Nat) row).toOption.isSome) :
    List.Forall₂ (fun row e => pkgEntryFromRow PatchRelease (Finset Nat) row = .ok e) rows
      (entriesOf rows) := by
  induction rows with
  | nil => exact .nil
  | cons row rows ih =>
      have hrow := h row List.mem_cons_self
      unfold entriesOf
      cases hload : pkgEntryFromRow PatchRelease (Finset Nat) row with
      | error err =>
          rw [hload] at hrow
          cases hrow
      | ok e =>
          rw [List.filterMap_cons, hload]
          exact .cons hload (ih fun row hmem => h row (List.mem_cons_of_mem _ hmem))

theorem answers_twoRevisions (revision : Int) :
    Answers (packageVersionRows twoRevisions (fooId revision).name (fooId revision).version)
      (entriesOf (enabledPackages twoRevisions)) := by
  have hall : packageVersionRows twoRevisions ⟨"foo"⟩ (⟨1⟩ : PatchRelease) =
      enabledPackages twoRevisions := by
    decide +kernel
  refine ⟨enabledPackages twoRevisions, ?_, forall₂_entriesOf (by decide +kernel)⟩
  unfold fooId
  dsimp only
  rw [hall]

theorem fetchesSolved_iff_first :
    FetchesSolved twoRevisions (entriesOf (enabledPackages twoRevisions)) (fun _ => .expanded)
        ⟨[], []⟩ (fooId 1) ↔
      (1 ≤ (fooId 1).revision →
        (∃ e : PackageEntry PatchRelease (Finset Nat), EnabledEntry twoRevisions e ∧
          e.pkg.id = fooId 1) →
        (fooId 1).toString ∉ ([] : List String) →
        FirstRowPublishes twoRevisions (entriesOf (enabledPackages twoRevisions)) (fooId 1)) :=
  fetchesSolved_iff twoRevisions twoRevisions_reachable (fooId 1) _ (answers_twoRevisions 1) _ _

/-- The archive of revision 2 is requested from the remote that has revision 1 only. -/
theorem not_fetchesSolved :
    ∃ db, CacheReachable PatchRelease (Finset Nat) db ∧
      ∃ (pid : PkgId PatchRelease) (entries : List (PackageEntry PatchRelease (Finset Nat))),
        Answers (packageVersionRows db pid.name pid.version) entries ∧
          ¬ FetchesSolved db entries (fun _ => .expanded) ⟨[], []⟩ pid := by
  refine ⟨twoRevisions, twoRevisions_reachable, fooId 2, _, answers_twoRevisions 2, ?_⟩
  rintro ⟨hgiven, _⟩
  have hexists : ∃ e : PackageEntry PatchRelease (Finset Nat), EnabledEntry twoRevisions e ∧
      e.pkg.id = fooId 2 := by
    have hany : ((enabledPackages twoRevisions).any fun row =>
        (pkgEntryFromRow PatchRelease (Finset Nat) row).toOption.any
          fun e => e.pkg.id = fooId 2) = true := by
      decide +kernel
    obtain ⟨row, hrow, hload⟩ := List.any_eq_true.mp hany
    obtain ⟨e, hentry, hid⟩ := Fallible.exists_ok hload
    exact ⟨e, ⟨row, hrow, hentry⟩, hid⟩
  obtain ⟨r, ⟨hr, e, ⟨row, hrow, hload⟩, hid, he⟩, hrequests⟩ :=
    hgiven (by decide) hexists (List.not_mem_nil)
  -- the one request goes to the first remote, whose rows are of revision 1
  have hrequest : (exec (prefetch twoRevisions (entriesOf (enabledPackages twoRevisions))
      (fun _ => .expanded) (fooId 2)) ⟨[], []⟩).2.requests =
        [calcPkgUrl "file:///foo-repo" (fooId 2)] := by
    decide +kernel
  have hrows : ((enabledPackages twoRevisions).all fun row => twoRevisions.remotes.all fun r =>
      r.remoteId ≠ row.remoteId || r.url ≠ "file:///foo-repo" ||
        (pkgEntryFromRow PatchRelease (Finset Nat) row).toOption.all
          fun e => e.pkg.id ≠ fooId 2) = true := by
    decide +kernel
  rw [hrequest] at hrequests
  have hurl : "file:///foo-repo" = r.url :=
    congrArg PkgUrl.base (List.singleton_inj.mp hrequests)
  have hrow' := List.all_eq_true.mp (List.all_eq_true.mp hrows row hrow) r hr
  have hid' : r.remoteId = row.remoteId := hid.symm.trans (pkgEntryFromRow_eq_ok.mp hload).2.2
  simp only [hload, Except.toOption, Option.all_some, Bool.or_eq_true, decide_eq_true_eq] at hrow'
  rcases hrow' with (hne | hne) | hne
  · exact hne hid'
  · exact hne hurl.symm
  · exact hne he

end

end Bpt.Crs
