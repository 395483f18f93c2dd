-- SUMMARY: When the compressed database that a repository publishes is the one that it has.
import Bpt.Crs.RepoRuns

/-!
# The published index

Clients of a repository over HTTP read `repo.db.gz`, and clients on its file
system `repo.db`. Creating a repository and importing a package compress the
database again; removing a package does not.
-/

namespace Bpt.Crs

open Transaction

/-! ## The two copies -/

/-- The packages that a client finds in `repo.db`. -/
def filePackages (s : Repo) : List Json := s.db.rows.map (·.json)

/-- The packages that a client finds in `repo.db.gz`. -/
def httpPackages (s : Repo) : Option (List Json) :=
  s.index.map fun db => db.rows.map (·.json)

/-- The index has the rows of the database. -/
def IndexFollows (s : Repo) : Prop := ∃ index, s.index = some index ∧ index.rows = s.db.rows

theorem IndexFollows.httpPackages {s : Repo} (h : IndexFollows s) :
    httpPackages s = some (filePackages s) := by
  obtain ⟨index, hindex, hrows⟩ := h
  unfold Crs.httpPackages filePackages
  rw [hindex, ← hrows]
  rfl

/-! ## Operations that return -/

theorem exec_check_eq_ok {io : RepoIo} {step : RepoStep} {s s' : Repo} {u : Unit}
    (h : exec (check io step) s = (.ok u, s')) : s' = s := by
  unfold check at h
  split at h
  next => cases h
  next => cases h; rfl

theorem exec_vacuumAndCompress_eq_ok {io : RepoIo} {s s' : Repo} {u : Unit}
    (h : exec (vacuumAndCompress io) s = (.ok u, s')) : s' = { s with index := some s.db } := by
  unfold vacuumAndCompress at h
  obtain ⟨_, t, hcheck, h⟩ := exec_bind_eq_ok.mp h
  rw [exec_check_eq_ok hcheck] at h
  split at h
  next => cases h
  next => cases h; rfl

section

variable {V S : Type} [Semver V] [VersionRangeSet S V]

/-- An operation that compresses the database last. -/
def RepoOp.compresses : RepoOp V S → Bool
  | .create _ _ => true
  | .openExisting _ => false
  | .importDir _ _ _ => true
  | .removePkg _ _ => false

theorem index_of_compresses (op : RepoOp V S) {s s' : Repo} {u : Unit}
    (hop : op.compresses = true) (h : exec op.run s = (.ok u, s')) : s'.index = some s'.db := by
  cases op with
  | create io name =>
      change exec (create io name) s = (.ok u, s') at h
      unfold create at h
      obtain ⟨_, t, _, h⟩ := exec_bind_eq_ok.mp h
      obtain ⟨_, t, _, h⟩ := exec_bind_eq_ok.mp h
      rw [exec_bind, exec_get] at h
      dsimp only at h
      split at h
      next => cases h
      next =>
        obtain ⟨_, t, _, h⟩ := exec_bind_eq_ok.mp h
        obtain ⟨_, t, _, h⟩ := exec_bind_eq_ok.mp h
        rw [exec_vacuumAndCompress_eq_ok h]
  | importDir io package tmpTgz =>
      change exec (importDir io package tmpTgz) s = (.ok u, s') at h
      unfold importDir at h
      cases package with
      | none => cases h
      | some pkg =>
          dsimp only at h
          obtain ⟨_, t, _, h⟩ := exec_bind_eq_ok.mp h
          obtain ⟨_, t, _, h⟩ := exec_bind_eq_ok.mp h
          obtain ⟨_, t, _, h⟩ := exec_bind_eq_ok.mp h
          cases hjson : pkg.toJson with
          | none =>
              rw [hjson] at h
              cases h
          | some json =>
              rw [hjson] at h
              obtain ⟨_, t, _, h⟩ := exec_bind_eq_ok.mp h
              obtain ⟨_, t, _, h⟩ := exec_bind_eq_ok.mp h
              obtain ⟨_, t, _, h⟩ := exec_bind_eq_ok.mp h
              obtain ⟨_, t, _, h⟩ := exec_bind_eq_ok.mp h
              rw [exec_vacuumAndCompress_eq_ok h]
  | openExisting io => cases hop
  | removePkg io id => cases hop

theorem exec_removePkg_eq_ok {io : RepoIo} {id : PkgId V} {s s' : Repo} {u : Unit}
    (h : exec (removePkg io id) s = (.ok u, s')) :
    s'.index = s.index ∧ s'.db.rows = s.db.rows.filter fun row => !removes id row := by
  unfold removePkg at h
  obtain ⟨_, t, hcheck, h⟩ := exec_bind_eq_ok.mp h
  rw [exec_check_eq_ok hcheck] at h
  obtain ⟨_, t, hdelete, h⟩ := exec_bind_eq_ok.mp h
  obtain ⟨_, t', hcheck, h⟩ := exec_bind_eq_ok.mp h
  rw [exec_check_eq_ok hcheck] at h
  cases hdelete
  cases h
  exact ⟨rfl, rfl⟩

/-! ## Runs -/

/-- The operations, run one after another from nothing, all return. -/
def RepoRun (ops : List (RepoOp V S)) (s : Repo) : Prop :=
  exec (forEach RepoOp.run ops) {} = (.ok (), s)

/-- No removal after the last operation that compresses deletes a row. -/
def NothingRemovedSince (ops : List (RepoOp V S)) : Prop :=
  ∀ before io id after, ops = before ++ .removePkg io id :: after →
    (∀ op ∈ after, op.compresses = false) →
    ∀ t, RepoRun before t → ∀ row ∈ t.db.rows, removes id row = false

theorem RepoRun.concat_iff {ops : List (RepoOp V S)} {op : RepoOp V S} {s : Repo} :
    RepoRun (ops ++ [op]) s ↔ ∃ t, RepoRun ops t ∧ exec op.run t = (.ok (), s) := by
  have hone : ∀ t, exec (forEach RepoOp.run [op]) t = (.ok (), s) ↔ exec op.run t = (.ok (), s) := by
    intro t
    constructor
    · intro h
      obtain ⟨_, t', hop, hend⟩ := exec_bind_eq_ok.mp h
      cases hend
      exact hop
    · exact fun h => exec_bind_eq_ok.mpr ⟨(), s, h, rfl⟩
  unfold RepoRun
  simp only [exec_forEach_append_eq_ok, hone]

/-- The states of a run are determined by its operations. -/
theorem RepoRun.unique {ops : List (RepoOp V S)} {s t : Repo} (hs : RepoRun ops s)
    (ht : RepoRun ops t) : s = t :=
  (Prod.mk.inj (hs.symm.trans ht)).2

theorem append_cons_eq_concat {α : Type} {xs before after : List α} {x y : α}
    (h : xs ++ [x] = before ++ y :: after) :
    (after = [] ∧ xs = before ∧ x = y) ∨
      ∃ rest, after = rest ++ [x] ∧ xs = before ++ y :: rest := by
  rcases List.eq_nil_or_concat after with rfl | ⟨rest, z, rfl⟩
  · obtain ⟨hxs, hx⟩ := List.append_inj' h rfl
    exact .inl ⟨rfl, hxs, List.singleton_inj.mp hx⟩
  · rw [List.concat_eq_append] at h ⊢
    rw [← List.cons_append, ← List.append_assoc] at h
    obtain ⟨hxs, hx⟩ := List.append_inj' h rfl
    exact .inr ⟨rest, by rw [List.singleton_inj.mp hx], hxs⟩

theorem nothingRemovedSince_of_compresses (ops : List (RepoOp V S)) {op : RepoOp V S}
    (hop : op.compresses = true) : NothingRemovedSince (ops ++ [op]) := by
  intro before io id after hops hafter
  rcases append_cons_eq_concat hops with ⟨_, _, rfl⟩ | ⟨rest, rfl, _⟩
  · cases hop
  · have := hafter op (by simp)
    rw [hop] at this
    cases this

/-- A further operation that does not compress adds its own removals. -/
theorem nothingRemovedSince_concat_iff (ops : List (RepoOp V S)) {op : RepoOp V S}
    (hop : op.compresses = false) :
    NothingRemovedSince (ops ++ [op]) ↔ NothingRemovedSince ops ∧
      ∀ io id, op = .removePkg io id →
        ∀ t, RepoRun ops t → ∀ row ∈ t.db.rows, removes id row = false := by
  constructor
  · intro h
    constructor
    · intro before io id after hops hafter
      refine h before io id (after ++ [op]) (by rw [hops]; simp) fun op' hop' => ?_
      rcases List.mem_append.mp hop' with hop' | hop'
      · exact hafter op' hop'
      · rwa [List.mem_singleton.mp hop']
    · rintro io id rfl
      exact h ops io id [] rfl (List.forall_mem_nil _)
  · rintro ⟨hops, hlast⟩ before io id after heq hafter
    rcases append_cons_eq_concat heq with ⟨_, rfl, rfl⟩ | ⟨rest, rfl, hinit⟩
    · exact hlast io id rfl
    · exact hops before io id rest hinit fun op' hop' => hafter op' (List.mem_append_left _ hop')

/-- The index has the rows of the database, or more when some were removed since. -/
structure IndexState (ops : List (RepoOp V S)) (s : Repo) (index : RepoDb) : Prop where
  published : s.index = some index
  same : NothingRemovedSince ops → index.rows = s.db.rows
  more : ¬ NothingRemovedSince ops → s.db.rows.length < index.rows.length

theorem RepoRun.indexState {io : RepoIo} {name : String} {ops : List (RepoOp V S)} {s : Repo}
    (h : RepoRun (.create io name :: ops) s) :
    ∃ index, IndexState (.create io name :: ops) s index := by
  induction ops using List.reverseRecOn generalizing s with
  | nil =>
      obtain ⟨_, t, hcreate, hend⟩ := exec_bind_eq_ok.mp h
      cases hend
      have hindex := index_of_compresses (S := S) (.create io name) rfl hcreate
      refine ⟨s.db, hindex, fun _ => rfl, fun hremoved => absurd ?_ hremoved⟩
      exact nothingRemovedSince_of_compresses [] rfl
  | append_singleton ops op ih =>
      rw [← List.cons_append] at h ⊢
      obtain ⟨t, hrun, hop⟩ := RepoRun.concat_iff.mp h
      obtain ⟨index, hstate⟩ := ih hrun
      cases hcompresses : op.compresses with
      | true =>
          refine ⟨s.db, index_of_compresses op hcompresses hop, fun _ => rfl, fun hremoved => ?_⟩
          exact absurd (nothingRemovedSince_of_compresses _ hcompresses) hremoved
      | false =>
          have hcond := nothingRemovedSince_concat_iff (.create io name :: ops) hcompresses
          refine ⟨index, ?_⟩
          cases op with
          | create _ _ => cases hcompresses
          | importDir _ _ _ => cases hcompresses
          | openExisting openIo =>
              rw [exec_check_eq_ok hop]
              refine ⟨hstate.published, fun h => hstate.same (hcond.mp h).1, fun h => ?_⟩
              exact hstate.more fun hops => h (hcond.mpr ⟨hops, fun _ _ hop' => nomatch hop'⟩)
          | removePkg removeIo id =>
              obtain ⟨hindex, hrows⟩ := exec_removePkg_eq_ok hop
              refine ⟨hindex.trans hstate.published, fun h => ?_, fun h => ?_⟩
              · obtain ⟨hops, hkept⟩ := hcond.mp h
                rw [hrows, hstate.same hops, eq_comm, List.filter_eq_self]
                intro row hrow
                simp [hkept removeIo id rfl t hrun row hrow]
              · rw [hrows]
                by_cases hops : NothingRemovedSince (.create io name :: ops)
                · -- the removal deletes a row that the index still has
                  have hremoved : ∃ row ∈ t.db.rows, ¬ (!removes id row) = true := by
                    by_contra hnone
                    refine h (hcond.mpr ⟨hops, ?_⟩)
                    rintro _ _ ⟨⟩ t' hrun' row hrow
                    rw [hrun'.unique hrun] at hrow
                    by_contra hremoves
                    exact hnone ⟨row, hrow, by simpa using hremoves⟩
                  rw [hstate.same hops]
                  exact List.length_filter_lt_length_iff_exists.mpr hremoved
                · exact lt_of_le_of_lt (List.length_filter_le _ _) (hstate.more hops)

/-- After a run that returns the index has the rows of the database, and both
kinds of clients see the same packages, exactly when nothing was removed since
the last operation that compresses. -/
theorem indexFollows_iff (io : RepoIo) (name : String) (ops : List (RepoOp V S)) (s : Repo)
    (h : RepoRun (.create io name :: ops) s) :
    (IndexFollows s ↔ NothingRemovedSince (.create io name :: ops)) ∧
      (httpPackages s = some (filePackages s) ↔ NothingRemovedSince (.create io name :: ops)) := by
  obtain ⟨index, hstate⟩ := h.indexState
  have hfollows (hsince : NothingRemovedSince (.create io name :: ops)) : IndexFollows s :=
    ⟨index, hstate.published, hstate.same hsince⟩
  constructor
  · refine ⟨fun hindex => ?_, hfollows⟩
    by_contra hsince
    obtain ⟨index', hpublished, hrows⟩ := hindex
    cases hpublished.symm.trans hstate.published
    exact absurd (congrArg List.length hrows) (hstate.more hsince).ne'
  · refine ⟨fun hsame => ?_, fun hsince => (hfollows hsince).httpPackages⟩
    by_contra hsince
    unfold httpPackages filePackages at hsame
    rw [hstate.published, Option.map_some, Option.some.injEq] at hsame
    have hlength := congrArg List.length hsame
    rw [List.length_map, List.length_map] at hlength
    exact absurd hlength (hstate.more hsince).ne'

end

theorem repoRun_foo : RepoRun [createFoo, importFoo] fooImported := by
  have hcreate : (exec createFoo.run {}).1 = .ok () := by decide +kernel
  have himport : (exec importFoo.run (exec createFoo.run {}).2).1 = .ok () := by decide +kernel
  have hnone : RepoRun ([] : List (RepoOp PatchRelease (Finset Nat))) {} := rfl
  have hcreated : RepoRun ([] ++ [createFoo]) (exec createFoo.run {}).2 :=
    RepoRun.concat_iff.mpr ⟨{}, hnone, exec_of_fst hcreate⟩
  have himported : RepoRun ([createFoo] ++ [importFoo]) fooImported :=
    RepoRun.concat_iff.mpr ⟨_, hcreated, exec_of_fst himport⟩
  exact himported

theorem indexFollows_iff_foo :
    (IndexFollows fooImported ↔ NothingRemovedSince [createFoo, importFoo]) ∧
      (httpPackages fooImported = some (filePackages fooImported) ↔
        NothingRemovedSince [createFoo, importFoo]) :=
  indexFollows_iff okIo "foo-repo" [importFoo] fooImported repoRun_foo

/-- The removed package stays in the index. -/
theorem not_indexFollows :
    ∃ s, RepoRun [createFoo, importFoo, removeFoo] s ∧ ¬ IndexFollows s := by
  have hremove : (exec removeFoo.run fooImported).1 = .ok () := by decide +kernel
  have hremoved : RepoRun ([createFoo, importFoo] ++ [removeFoo]) (exec removeFoo.run fooImported).2 :=
    RepoRun.concat_iff.mpr ⟨fooImported, repoRun_foo, exec_of_fst hremove⟩
  refine ⟨_, hremoved, ?_⟩
  have hrows : (exec removeFoo.run fooImported).2.db.rows = [] := by decide +kernel
  have hindex : ((exec removeFoo.run fooImported).2.index.map fun db => db.rows.isEmpty) =
      some false := by
    decide +kernel
  rintro ⟨index, hpublished, hsame⟩
  rw [hpublished, Option.map_some, Option.some.injEq, hsame, hrows] at hindex
  cases hindex

end Bpt.Crs
