-- SUMMARY: Which packages are visible after remotes are synchronised, enabled and forgotten.
import Bpt.Crs.CacheQuery

/-!
# What a URL makes visible

A repository is known by its name when it is synchronised, and by its URL when
it is enabled. Enabling a URL makes every row of it visible, so a repository
that has changed its name leaves its old row visible too. Forgetting all remotes
keeps their ids in the table of enabled remotes, where a new row may find its own.
-/

namespace Bpt.Crs

open Transaction Keyed

/-! ## Enabled remotes -/

theorem mem_enabledPackages_iff {db : CacheDb} {row : PackageRow} :
    row ∈ enabledPackages db ↔
      row ∈ db.packages ∧ ∃ en ∈ db.enabled, en.remoteId = row.remoteId := by
  unfold enabledPackages
  simp only [List.mem_flatMap, List.mem_filter, decide_eq_true_eq]
  constructor
  · rintro ⟨en, hen, hrow, hid⟩
    exact ⟨hrow, en, hen, hid.symm⟩
  · rintro ⟨hrow, en, hen, hid⟩
    exact ⟨en, hen, hrow, hid.symm⟩

/-- The enabled ids are those that were enabled before and those of the URL. -/
theorem enabled_enableRemote {db : CacheDb} {url : Url} {id : Nat} :
    (∃ en ∈ (enableRemote url db).2.enabled, en.remoteId = id) ↔
      (∃ en ∈ db.enabled, en.remoteId = id) ∨
        ∃ r ∈ db.remotes, r.url = url.str ∧ r.remoteId = id := by
  unfold enableRemote
  simp only [List.mem_append, List.mem_mapIdx, or_and_right, exists_or]
  constructor
  · rintro (hold | ⟨en, ⟨i, hi, rfl⟩, rfl⟩)
    · exact .inl hold
    · obtain ⟨r, hr, hid⟩ := List.mem_map.mp (List.mem_filter.mp (List.getElem_mem hi)).1
      obtain ⟨hr, hurl⟩ := List.mem_filter.mp hr
      exact .inr ⟨r, hr, by simpa using hurl, hid⟩
  · rintro (hold | ⟨r, hr, hurl, rfl⟩)
    · exact .inl hold
    · by_cases hmem : r.remoteId ∈ db.enabled.map (·.remoteId)
      · obtain ⟨en, hen, hid⟩ := List.mem_map.mp hmem
        exact .inl ⟨en, hen, hid⟩
      · have hnew : r.remoteId ∈ ((db.remotes.filter fun row => row.url = url.str).map
            (·.remoteId)).filter fun id => id ∉ db.enabled.map (·.remoteId) := by
          simp only [List.mem_filter, List.mem_map, decide_eq_true_eq]
          refine ⟨⟨r, ⟨hr, hurl⟩, rfl⟩, ?_⟩
          rintro ⟨en, hen, hid⟩
          exact hmem (hid ▸ List.mem_map_of_mem hen)
        obtain ⟨i, hi, hget⟩ := List.getElem_of_mem hnew
        exact .inr ⟨_, ⟨i, hi, rfl⟩, hget⟩

/-! ## The row of a synchronised repository -/

section

variable {V S : Type} [Semver V] [VersionRangeSet S V] [Semester] {db db' : CacheDb}

/-- The row of a repository is the one of its name, or has a new id. -/
def RowOf (db : CacheDb) (r : RemoteRow) : Prop :=
  (∃ old ∈ db.remotes, old.uniqueName = r.uniqueName ∧ old.remoteId = r.remoteId) ∨
    (∀ old ∈ db.remotes, old.uniqueName ≠ r.uniqueName) ∧
      r.remoteId = freshRowid (db.remotes.map (·.remoteId))

omit [Semester] in
theorem exec_updateRemote_id {url : Url} {info : RemoteRepoDbInfo} {remote : RemoteDb}
    {name : String} {remoteId revno : Nat} (hname : remote.selfName = some name)
    (h : exec (updateRemote url info remote) db = (.ok (remoteId, revno), db')) :
    (∃ old ∈ db.remotes, old.uniqueName = name ∧ old.remoteId = remoteId) ∨
      (∀ old ∈ db.remotes, old.uniqueName ≠ name) ∧
        remoteId = freshRowid (db.remotes.map (·.remoteId)) := by
  unfold updateRemote at h
  rw [exec_bind, exec_get, hname] at h
  dsimp only at h
  cases hfind : db.remotes.find? fun row => row.uniqueName = name with
  | some row =>
      rw [hfind] at h
      cases h
      exact .inl ⟨row, List.mem_of_find?_eq_some hfind, by simpa using List.find?_some hfind, rfl⟩
  | none =>
      rw [hfind] at h
      cases h
      exact .inr ⟨fun old hold => by simpa using List.find?_eq_none.mp hfind old hold, rfl⟩

theorem exec_importRemote_row {url : Url} {info : RemoteRepoDbInfo} {remote : RemoteDb}
    (hdb : db.Valid) (h : exec (importRemote V S url info remote) db = (.ok (), db')) :
    ∃ r, Imported V S db db' url remote r ∧ RowOf db r := by
  obtain ⟨r, himported⟩ := exec_importRemote hdb h
  refine ⟨r, himported, ?_⟩
  unfold importRemote at h
  obtain ⟨⟨remoteId, revno⟩, db₁, hupdate, h⟩ := exec_bind_eq_ok.mp h
  obtain ⟨_, db₂, hloop, hdelete⟩ := exec_bind_eq_ok.mp h
  obtain ⟨name, hname, hupdated⟩ := exec_updateRemote hdb hupdate
  obtain ⟨r₁, hr₁, hid, hrevno, hrname, _⟩ := hupdated.row
  have holder : ∀ row ∈ db₁.packages, row.remoteId = remoteId → row.remoteRevno < revno := by
    rw [hupdated.packages]
    exact hupdated.older
  have himporting : Importing V S db₁ remoteId revno remote.metaJsons db₂ :=
    exec_forEach_eq_ok (importing_nil hupdated.valid holder)
      (fun _ _ _ _ _ _ ht hexec => ht.step ⟨r₁, hr₁, hid, hrevno⟩ hexec) hloop
  have hremotes : db'.remotes = db₁.remotes := by
    cases hdelete
    exact himporting.remotes
  have hsame : r.uniqueName = name := by
    have := himported.name
    rw [hname] at this
    exact (Option.some.inj this).symm
  have hrow : r = r₁ := himported.valid.uniqueNames.eq_of_key himported.mem (hremotes ▸ hr₁)
    (hsame.trans hrname.symm)
  unfold RowOf
  rw [hsame, hrow, hid]
  exact exec_updateRemote_id hname hupdate

/-! ## Sessions -/

/-- A cache, with the ids of the remotes that were enabled since their row was
created. Deleting a row ends its id. -/
structure Session where
  db : CacheDb
  since : Nat → Prop

/-- An operation on one open cache. -/
inductive SessionStep (V S : Type) [Semver V] [VersionRangeSet S V]
    (allowed : CacheDb → Outside → Url → Prop) : Session → Session → Prop where
  | sync (s : Session) (outside : Outside) (url : Url) (h : allowed s.db outside url) :
      SessionStep V S allowed s
        { db := (exec (syncRemote V S outside url) s.db).2
          since := fun id => s.since id ∧ ∃ r ∈ s.db.remotes, r.remoteId = id }
  | enable (s : Session) (url : Url) :
      SessionStep V S allowed s
        { db := (enableRemote url s.db).2
          since := fun id => s.since id ∨ ∃ r ∈ s.db.remotes, r.url = url.str ∧ r.remoteId = id }
  | forget (s : Session) :
      SessionStep V S allowed s { db := forgetAll s.db, since := fun _ => False }

/-- The sessions that runs reach from a cache that has just been opened, when
every synchronisation is an allowed one. -/
def SessionReachable (V S : Type) [Semver V] [VersionRangeSet S V]
    (allowed : CacheDb → Outside → Url → Prop) : Session → Prop :=
  Reach.Reachable
    (fun s => CacheReachable V S s.db ∧ s.db.enabled = [] ∧ s.since = fun _ => False)
    (SessionStep V S allowed)

variable {allowed : CacheDb → Outside → Url → Prop}

theorem SessionReachable.cacheReachable {s : Session} (h : SessionReachable V S allowed s) :
    CacheReachable V S s.db := by
  induction h with
  | init h => exact h.1
  | step _ hstep ih =>
      cases hstep with
      | sync outside url => exact ih.step (.sync _ outside url trivial)
      | enable url => exact ih.step (.enable _ url)
      | forget => exact ih.step (.forget _)

/-- The packages visible through rows of a URL are those that the repository publishes. -/
def VisibleExactly (V S : Type) [Semver V] [VersionRangeSet S V] (db : CacheDb) (url : Url)
    (remote : RemoteDb) : Prop :=
  ∀ json, (∃ row ∈ enabledPackages db, row.json = json ∧
      ∃ r ∈ db.remotes, r.remoteId = row.remoteId ∧ r.url = url.str) ↔
    ∃ pkg, IsLast (·.id) (publishedPackages V S remote.metaJsons) pkg ∧ pkg.toJson = some json

/-- The rows of the URL that have another name hold nothing but what the
repository publishes. -/
def NameKept (V S : Type) [Semver V] [VersionRangeSet S V] (db : CacheDb) (url : Url)
    (remote : RemoteDb) : Prop :=
  ∀ r ∈ db.remotes, r.url = url.str → remote.selfName ≠ some r.uniqueName →
    ∀ row ∈ db.packages, row.remoteId = r.remoteId →
      ∃ pkg, IsLast (·.id) (publishedPackages V S remote.metaJsons) pkg ∧
        pkg.toJson = some row.json

/-- After a full synchronisation, enabling the URL makes visible what its
repository publishes exactly when no row of another name holds anything else. -/
theorem Imported.visibleExactly_iff {url : Url} {remote : RemoteDb} {r : RemoteRow}
    (h : Imported V S db db' url remote r) :
    VisibleExactly V S (enableRemote url db').2 url remote ↔ NameKept V S db url remote := by
  have hpackages : (enableRemote url db').2.packages = db'.packages := rfl
  have hremotes : (enableRemote url db').2.remotes = db'.remotes := rfl
  -- the rows of other names are those that were there, with their packages
  have hother : ∀ r', r'.uniqueName ≠ r.uniqueName → (r' ∈ db'.remotes ↔ r' ∈ db.remotes) :=
    h.otherRemotes
  have hid : ∀ r' ∈ db'.remotes, r'.uniqueName ≠ r.uniqueName → r'.remoteId ≠ r.remoteId := by
    intro r' hr' hne heq
    exact hne (congrArg RemoteRow.uniqueName (h.valid.remoteIds.eq_of_key hr' h.mem heq))
  constructor
  · intro hvisible r' hr' hurl hname row hrow hrowId
    have hne : r'.uniqueName ≠ r.uniqueName := fun heq => hname (heq ▸ h.name)
    have hr'₂ := (hother r' hne).mpr hr'
    refine (hvisible row.json).mp ⟨row, ?_, rfl, r', hr'₂, hrowId.symm, hurl⟩
    rw [mem_enabledPackages_iff, enabled_enableRemote]
    refine ⟨(h.others.packages row (hrowId ▸ hid r' hr'₂ hne)).mpr hrow, .inr ⟨r', hr'₂, hurl, hrowId.symm⟩⟩
  · intro hkept json
    rw [← h.exact_.rows json]
    constructor
    · rintro ⟨row, hrow, rfl, r', hr', hrowId, hurl⟩
      have hrow := (mem_enabledPackages_iff.mp hrow).1
      by_cases hname : r'.uniqueName = r.uniqueName
      · obtain rfl := h.valid.uniqueNames.eq_of_key hr' h.mem hname
        exact ⟨row, hrow, hrowId.symm, rfl⟩
      · have hold := (h.others.packages row (hrowId ▸ hid r' hr' hname)).mp hrow
        have hnot : remote.selfName ≠ some r'.uniqueName := by
          rw [h.name]
          exact fun heq => hname (Option.some.inj heq).symm
        exact (h.exact_.rows row.json).mpr
          (hkept r' ((hother r' hname).mp hr') hurl hnot row hold hrowId.symm)
    · rintro ⟨row, hrow, hrowId, rfl⟩
      refine ⟨row, mem_enabledPackages_iff.mpr ⟨hrow, ?_⟩, rfl, r, h.mem, hrowId.symm, h.url⟩
      exact enabled_enableRemote.mpr (.inr ⟨r, h.mem, h.url, hrowId.symm⟩)

/-- A synchronisation whose repository has kept its name, or left nothing else
under an old one, and which gets no row with an id that is still enabled. -/
def SafeSync (V S : Type) [Semver V] [VersionRangeSet S V] (db : CacheDb) (outside : Outside)
    (url : Url) : Prop :=
  ∀ info remote, exec (getRemoteDb outside url) db = (.ok info, db) → info.repo = some remote →
    NameKept V S db url remote ∧
      ∀ name, remote.selfName = some name → (∀ old ∈ db.remotes, old.uniqueName ≠ name) →
        ∀ en ∈ db.enabled, en.remoteId ≠ freshRowid (db.remotes.map (·.remoteId))

/-- Only packages of remotes that were enabled since their row was created are visible. -/
def Session.OnlyEnabled (s : Session) : Prop :=
  ∀ row ∈ enabledPackages s.db, s.since row.remoteId

/-- An enabled id that has a row was enabled since that row was created. -/
def Session.Inv (s : Session) : Prop :=
  ∀ en ∈ s.db.enabled, ∀ r ∈ s.db.remotes, r.remoteId = en.remoteId → s.since r.remoteId

theorem Session.Inv.step {s t : Session} (h : s.Inv) (hdb : s.db.Valid)
    (hstep : SessionStep V S (SafeSync V S) s t) : t.Inv := by
  cases hstep with
  | sync outside url hsafe =>
      intro en hen r hr hid
      dsimp only at hen hr ⊢
      cases hexec : exec (syncRemote V S outside url) s.db with
      | mk result db' =>
          rw [hexec] at hen hr
          dsimp only at hen hr
          rcases exec_syncRemote hexec with
            ⟨_, _, rfl, _⟩ | ⟨info, hfetch, _, ⟨_, hup⟩ | ⟨_, remote, hrepo, himport⟩⟩
          · exact ⟨h en hen r hr hid, r, hr, rfl⟩
          · -- the rows keep their ids
            cases hup
            obtain ⟨old, hold, rfl⟩ := List.mem_map.mp hr
            exact ⟨h en hen old hold hid, old, hold, rfl⟩
          · obtain ⟨new, himported, hrow⟩ := exec_importRemote_row hdb himport
            rw [himported.enabled] at hen
            by_cases hname : r.uniqueName = new.uniqueName
            · obtain rfl := himported.valid.uniqueNames.eq_of_key hr himported.mem hname
              rcases hrow with ⟨old, hold, _, holdId⟩ | ⟨hnew, hfresh⟩
              · rw [← holdId] at hid ⊢
                exact ⟨h en hen old hold hid, old, hold, rfl⟩
              · have hstale := (hsafe info remote hfetch hrepo).2 _ himported.name hnew en hen
                exact absurd (hid.symm.trans hfresh) hstale
            · have hold := (himported.otherRemotes r hname).mp hr
              exact ⟨h en hen r hold hid, r, hold, rfl⟩
  | enable url =>
      intro en hen r hr hid
      rcases enabled_enableRemote.mp ⟨en, hen, rfl⟩ with ⟨old, hold, holdId⟩ | ⟨r', hr', hurl, hid'⟩
      · exact .inl (h old hold r hr (hid.trans holdId.symm))
      · exact .inr ⟨r', hr', hurl, hid'.trans hid.symm⟩
  | forget =>
      intro en hen r hr
      cases hr

theorem SessionReachable.inv {s : Session} (h : SessionReachable V S (SafeSync V S) s) : s.Inv := by
  have hboth : s.Inv ∧ CacheReachable V S s.db := by
    induction h with
    | init h =>
        refine ⟨fun en hen => ?_, h.1⟩
        rw [h.2.1] at hen
        cases hen
    | step hs hstep ih =>
        exact ⟨ih.1.step ih.2.valid hstep,
          SessionReachable.cacheReachable (Reach.Reachable.step hs hstep)⟩
  exact hboth.1

/-- In every session whose synchronisations are safe, only packages of enabled
remotes are visible, and after a further safe one that is full, enabling its URL
makes visible exactly what its repository publishes. -/
theorem session_visible (s : Session) (hreach : SessionReachable V S (SafeSync V S) s) :
    s.OnlyEnabled ∧
    ∀ outside url, SafeSync V S s.db outside url → ∀ info remote db',
      exec (getRemoteDb outside url) s.db = (.ok info, s.db) → info.upToDate = false →
      info.repo = some remote → exec (syncRemote V S outside url) s.db = (.ok (), db') →
      VisibleExactly V S (enableRemote url db').2 url remote := by
  have hvalid := hreach.cacheReachable.valid
  constructor
  · intro row hrow
    obtain ⟨hrow, en, hen, hid⟩ := mem_enabledPackages_iff.mp hrow
    obtain ⟨r, hr, hrowId⟩ := hvalid.pkgRemote row hrow
    rw [← hrowId]
    exact hreach.inv en hen r hr (hrowId.trans hid.symm)
  · intro outside url hsafe info remote db' hfetch hstale hrepo hsync
    have himport := exec_importRemote_of_syncRemote hfetch hstale hrepo hsync
    obtain ⟨r, himported⟩ := exec_importRemote hvalid himport
    exact himported.visibleExactly_iff.mpr (hsafe info remote hfetch hrepo).1

/-- A new cache after a remote was synchronised and enabled. -/
def syncedEnabled (V S : Type) [Semver V] [VersionRangeSet S V] (outside : Outside) (url : Url) :
    CacheDb :=
  (enableRemote url (exec (syncRemote V S outside url) {}).2).2

theorem exists_reachable_enabled (outside : Outside) (url : Url) :
    ∃ s : Session, SessionReachable V S (SafeSync V S) s ∧ s.db = syncedEnabled V S outside url := by
  have hnew : SessionReachable V S (SafeSync V S) ⟨{}, fun _ => False⟩ :=
    .init ⟨.init rfl, rfl, rfl⟩
  have hsafe : SafeSync V S {} outside url :=
    fun _ _ _ _ => ⟨fun _ hr => (nomatch hr), fun _ _ _ _ hen => (nomatch hen)⟩
  exact ⟨_, (hnew.step (.sync _ outside url hsafe)).step (.enable _ url), rfl⟩

/-- A new cache after a remote was synchronised, enabled, forgotten and synchronised again. -/
def resynced (V S : Type) [Semver V] [VersionRangeSet S V] (outside : Outside) (url : Url) :
    CacheDb :=
  let synced := (exec (syncRemote V S outside url) {}).2
  (exec (syncRemote V S outside url) (forgetAll (enableRemote url synced).2)).2

theorem exists_reachable_after_forget (outside : Outside) (url : Url) :
    ∃ s : Session, SessionReachable V S (fun _ _ _ => True) s ∧
      s.db = resynced V S outside url ∧ ∀ id, ¬ s.since id := by
  have hnew : SessionReachable V S (fun _ _ _ => True) ⟨{}, fun _ => False⟩ :=
    .init ⟨.init rfl, rfl, rfl⟩
  have hsynced := hnew.step (.sync _ outside url trivial)
  have henabled := hsynced.step (.enable _ url)
  have hforgotten := henabled.step (.forget _)
  exact ⟨_, hforgotten.step (.sync _ outside url trivial), rfl, fun _ h => h.1⟩

end

/-! ### A repository that changes its name -/

section

attribute [local instance] Semester.permissive

/-- A local repository of the given name. -/
def namedRepo (name : String) (texts : List JsonText) : Outside where
  freshnessTime := 0
  responseTime := 0
  respond _ := none
  localRepo := some ⟨some name, texts⟩

def syncNamed (name : String) (texts : List JsonText) (db : CacheDb) : CacheDb :=
  (exec (syncRemote PatchRelease (Finset Nat) (namedRepo name texts) fooUrl) db).2

def barUrl : Url := ⟨"file", "file:///bar-repo"⟩

/-- The cache that has synchronised and enabled one repository. -/
def fooEnabled : CacheDb :=
  syncedEnabled PatchRelease (Finset Nat) (namedRepo "foo-repo" oldTexts) fooUrl

/-- A repository at another URL gets a row of its own. -/
theorem safeSync_bar : SafeSync PatchRelease (Finset Nat) fooEnabled
    (namedRepo "bar-repo" newTexts) barUrl := by
  have hurls : ∀ r ∈ fooEnabled.remotes, r.url ≠ barUrl.str := by
    decide +kernel
  have hids : ∀ en ∈ fooEnabled.enabled,
      en.remoteId ≠ freshRowid (fooEnabled.remotes.map (·.remoteId)) := by
    decide +kernel
  exact fun _ _ _ _ => ⟨fun r hr hurl => absurd hurl (hurls r hr), fun _ _ _ => hids⟩

/-- What is enabled stays visible, and a second repository becomes it. -/
theorem session_visible_bar : ∃ s : Session, s.db = fooEnabled ∧ enabledPackages s.db ≠ [] ∧
    s.OnlyEnabled ∧
    ∃ db', exec (syncRemote PatchRelease (Finset Nat) (namedRepo "bar-repo" newTexts) barUrl) s.db =
        (.ok (), db') ∧
      VisibleExactly PatchRelease (Finset Nat) (enableRemote barUrl db').2 barUrl
        ⟨some "bar-repo", newTexts⟩ := by
  obtain ⟨s, hreach, hdb⟩ := exists_reachable_enabled
    (V := PatchRelease) (S := Finset Nat) (namedRepo "foo-repo" oldTexts) fooUrl
  replace hdb : s.db = fooEnabled := hdb
  have hvisible : (enabledPackages fooEnabled).isEmpty = false := by
    decide +kernel
  have hok : (exec (syncRemote PatchRelease (Finset Nat) (namedRepo "bar-repo" newTexts) barUrl)
      fooEnabled).1 = .ok () := by
    decide +kernel
  have hsafe := safeSync_bar
  rw [← hdb] at hvisible hok hsafe
  obtain ⟨honly, hexact⟩ := session_visible s hreach
  refine ⟨s, hdb, List.isEmpty_eq_false_iff.mp hvisible, honly, _, exec_of_fst hok, ?_⟩
  exact hexact (namedRepo "bar-repo" newTexts) barUrl hsafe
    ⟨some ⟨some "bar-repo", newTexts⟩, none, none, none, none, false⟩ ⟨some "bar-repo", newTexts⟩
    _ rfl rfl rfl (exec_of_fst hok)

/-- What was published under the old name stays visible, and after all remotes are
forgotten a new one is visible without being enabled. -/
theorem session_not_visible :
    (¬ VisibleExactly PatchRelease (Finset Nat)
      (enableRemote fooUrl (syncNamed "new-repo" [] (syncNamed "foo-repo" oldTexts {}))).2 fooUrl
      ⟨some "new-repo", []⟩) ∧
    ∃ s : Session, SessionReachable PatchRelease (Finset Nat) (fun _ _ _ => True) s ∧
      ¬ s.OnlyEnabled := by
  constructor
  · intro hvisible
    -- the package of the old name is visible, and nothing is published
    have hold : ((enabledPackages (enableRemote fooUrl (syncNamed "new-repo" []
        (syncNamed "foo-repo" oldTexts {}))).2).any fun row =>
          ((enableRemote fooUrl (syncNamed "new-repo" [] (syncNamed "foo-repo" oldTexts {}))).2.remotes.any
            fun r => r.remoteId = row.remoteId && r.url = fooUrl.str)) = true := by
      decide +kernel
    obtain ⟨row, hrow, hany⟩ := List.any_eq_true.mp hold
    obtain ⟨r, hr, hkey⟩ := List.any_eq_true.mp hany
    simp only [Bool.and_eq_true, decide_eq_true_eq] at hkey
    obtain ⟨pkg, hlast, _⟩ := (hvisible row.json).mp ⟨row, hrow, rfl, r, hr, hkey.1, hkey.2⟩
    exact not_isLast_nil hlast
  · obtain ⟨s, hreach, hdb, hsince⟩ := exists_reachable_after_forget
      (V := PatchRelease) (S := Finset Nat) (namedRepo "foo-repo" oldTexts) fooUrl
    have hvisible : (enabledPackages (resynced PatchRelease (Finset Nat)
        (namedRepo "foo-repo" oldTexts) fooUrl)).isEmpty = false := by
      decide +kernel
    obtain ⟨row, hrow⟩ := List.exists_mem_of_ne_nil _ (List.isEmpty_eq_false_iff.mp hvisible)
    refine ⟨s, hreach, fun honly => ?_⟩
    rw [← hdb] at hrow
    exact hsince _ (honly row hrow)

end

end Bpt.Crs
