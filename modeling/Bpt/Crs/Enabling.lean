-- SUMMARY: Sequences of enabled remotes: which calls fail, and the order of the packages that become visible.
import Bpt.Crs.Visibility

/-!
# Enabling one remote after the other

A call is told whether the remote exists by the rows that it inserts. A remote
that was enabled before has no rows to insert.
-/

namespace Bpt.Crs

open Keyed

/-! ## Runs -/

/-- The ids of the remotes of a URL. -/
def remoteIds (db : CacheDb) (url : Url) : List Nat :=
  (db.remotes.filter fun row => row.url = url.str).map (·.remoteId)

def HasRemote (db : CacheDb) (url : Url) : Prop := ∃ row ∈ db.remotes, row.url = url.str

instance (db : CacheDb) (url : Url) : Decidable (HasRemote db url) :=
  inferInstanceAs (Decidable (∃ _ ∈ _, _))

/-- The packages of a remote. -/
def packagesOf (db : CacheDb) (remoteId : Nat) : List PackageRow :=
  db.packages.filter fun row => row.remoteId = remoteId

variable {U : Type} (normalized : U → Url)

/-- Enable the remotes in order, whatever the calls before have thrown. The flags
say which of the calls returned. -/
def enableEach : List U → CacheDb → List Bool × CacheDb
  | [], db => ([], db)
  | url :: urls, db =>
    let (returned, db) := enableRemote (normalized url) db
    let (rest, db) := enableEach urls db
    (returned :: rest, db)

/-- The ids of the remotes that were named by a call that returned. -/
def successfulIds (urls : List U) (db : CacheDb) : List Nat :=
  ((urls.zip (enableEach normalized urls db).1).filter (·.2)).flatMap fun call =>
    remoteIds db (normalized call.1)

/-- The answers depend on which remotes exist, and on nothing else. -/
structure EnablesByUrl (urls : List U) (db : CacheDb) : Prop where
  returns : (enableEach normalized urls db).1 =
    urls.map fun url => decide (HasRemote db (normalized url))
  idempotent : ∀ url ∈ urls, (enableRemote (normalized url) (enableEach normalized urls db).2).2 =
    (enableEach normalized urls db).2
  /-- First come the remotes that were enabled before, and then each remote where
  it was named for the first time. -/
  packages : enabledPackages (enableEach normalized urls db).2 =
    (db.enabled.map (·.remoteId) ++ ((successfulIds normalized urls db).filter
      (· ∉ db.enabled.map (·.remoteId))).eraseDups).flatMap (packagesOf db)

/-- No remote that exists is named twice, or is wholly enabled before. -/
structure NamedOnce (urls : List U) (db : CacheDb) : Prop where
  nodup : ((urls.filter fun url => HasRemote db (normalized url)).map
    fun url => (normalized url).str).Nodup
  new : ∀ url ∈ urls, HasRemote db (normalized url) →
    ∃ id ∈ remoteIds db (normalized url), id ∉ db.enabled.map (·.remoteId)

/-! ## One call -/

variable {normalized} {db : CacheDb}

theorem mem_remoteIds {url : Url} {id : Nat} :
    id ∈ remoteIds db url ↔ ∃ row ∈ db.remotes, row.url = url.str ∧ row.remoteId = id := by
  simp [remoteIds, and_assoc]

/-- What a call adds to the table. -/
def newIds (db : CacheDb) (url : Url) : List Nat :=
  (remoteIds db url).filter (· ∉ db.enabled.map (·.remoteId))

theorem enableRemote_fst (url : Url) : (enableRemote url db).1 = !(newIds db url).isEmpty := rfl

theorem enableRemote_enabledIds (url : Url) :
    (enableRemote url db).2.enabled.map (·.remoteId) =
      db.enabled.map (·.remoteId) ++ newIds db url := by
  unfold enableRemote newIds remoteIds
  rw [List.map_append]
  congr 1
  refine List.ext_getElem? fun i => ?_
  simp only [List.getElem?_map, List.getElem?_mapIdx, Option.map_map]
  exact Option.map_id_fun' ▸ rfl

theorem nodup_newIds (hids : Unique (·.remoteId) db.remotes) (url : Url) : (newIds db url).Nodup :=
  List.Nodup.filter _ (hids.filter _)

theorem mem_newIds {url : Url} {id : Nat} :
    id ∈ newIds db url ↔ id ∈ remoteIds db url ∧ id ∉ db.enabled.map (·.remoteId) := by
  simp only [newIds, List.mem_filter, decide_eq_true_iff]

/-- A call that adds nothing leaves the table as it is. -/
theorem enableRemote_eq_self {url : Url} (h : newIds db url = []) : (enableRemote url db).2 = db := by
  have hnew : ((db.remotes.filter fun row => row.url = url.str).map (·.remoteId)).filter
      (· ∉ db.enabled.map (·.remoteId)) = [] := h
  unfold enableRemote
  dsimp only
  rw [hnew, List.mapIdx_nil, List.append_nil]

/-! ## The order of the packages -/

theorem eraseDups_of_nodup {l : List Nat} (h : l.Nodup) : l.eraseDups = l := by
  induction l with
  | nil => rfl
  | cons a l ih =>
      obtain ⟨ha, hl⟩ := List.nodup_cons.mp h
      have hkeep : l.filter (fun b => !b == a) = l := by
        refine List.filter_eq_self.mpr fun b hb => ?_
        have hne : b ≠ a := fun hba => ha (hba ▸ hb)
        simp [hne]
      rw [List.eraseDups_cons, hkeep, ih hl]

theorem enableEach_cons (url : U) (urls : List U) :
    enableEach normalized (url :: urls) db =
      ((enableRemote (normalized url) db).1 ::
        (enableEach normalized urls (enableRemote (normalized url) db).2).1,
        (enableEach normalized urls (enableRemote (normalized url) db).2).2) := rfl

theorem successfulIds_cons (url : U) (urls : List U) :
    successfulIds normalized (url :: urls) db =
      (if (enableRemote (normalized url) db).1 then remoteIds db (normalized url) else []) ++
        successfulIds normalized urls (enableRemote (normalized url) db).2 := by
  rw [successfulIds, enableEach_cons, List.zip_cons_cons, List.filter_cons]
  dsimp only
  split
  · rfl
  · rfl

theorem enableEach_enabledIds (hids : Unique (·.remoteId) db.remotes) (urls : List U) :
    (enableEach normalized urls db).2.enabled.map (·.remoteId) =
      db.enabled.map (·.remoteId) ++ ((successfulIds normalized urls db).filter
        (· ∉ db.enabled.map (·.remoteId))).eraseDups := by
  induction urls generalizing db with
  | nil => simp [enableEach, successfulIds]
  | cons url urls ih =>
      have hfirst : (if (enableRemote (normalized url) db).1 then
          remoteIds db (normalized url) else []).filter (· ∉ db.enabled.map (·.remoteId)) =
          newIds db (normalized url) := by
        rw [enableRemote_fst]
        cases hnew : (newIds db (normalized url)).isEmpty with
        | false => rfl
        | true => exact (List.isEmpty_iff.mp hnew).symm
      have hnext := @ih (enableRemote (normalized url) db).2 hids
      rw [enableRemote_enabledIds] at hnext
      rw [successfulIds_cons, List.filter_append, hfirst, List.eraseDups_append,
        eraseDups_of_nodup (nodup_newIds hids _), ← List.append_assoc]
      refine hnext.trans ?_
      congr 2
      rw [List.removeAll, List.filter_filter]
      refine List.filter_congr fun id _ => ?_
      rw [Bool.eq_iff_iff]
      simp only [Bool.and_eq_true, Bool.not_eq_true', decide_eq_true_iff, List.mem_append, not_or,
        List.elem_eq_mem, decide_eq_false_iff_not, and_comm]

theorem enableEach_remotes (urls : List U) :
    (enableEach normalized urls db).2.remotes = db.remotes := by
  induction urls generalizing db with
  | nil => rfl
  | cons url urls ih => exact @ih (enableRemote (normalized url) db).2

theorem enableEach_packages (urls : List U) :
    (enableEach normalized urls db).2.packages = db.packages := by
  induction urls generalizing db with
  | nil => rfl
  | cons url urls ih => exact @ih (enableRemote (normalized url) db).2

/-- What is visible afterwards, in order. -/
theorem enabledPackages_enableEach (hids : Unique (·.remoteId) db.remotes) (urls : List U) :
    enabledPackages (enableEach normalized urls db).2 =
      (db.enabled.map (·.remoteId) ++ ((successfulIds normalized urls db).filter
        (· ∉ db.enabled.map (·.remoteId))).eraseDups).flatMap (packagesOf db) := by
  rw [← enableEach_enabledIds hids, List.flatMap_map]
  unfold enabledPackages packagesOf
  rw [enableEach_packages]

/-! ## The answers -/

theorem enabled_mono (urls : List U) {id : Nat} (h : id ∈ db.enabled.map (·.remoteId)) :
    id ∈ (enableEach normalized urls db).2.enabled.map (·.remoteId) := by
  induction urls generalizing db with
  | nil => exact h
  | cons url urls ih =>
      refine @ih (enableRemote (normalized url) db).2 ?_
      rw [enableRemote_enabledIds]
      exact List.mem_append_left _ h

theorem mem_enabledIds_enableRemote {url : Url} {id : Nat} :
    id ∈ (enableRemote url db).2.enabled.map (·.remoteId) ↔
      id ∈ db.enabled.map (·.remoteId) ∨ id ∈ remoteIds db url := by
  rw [enableRemote_enabledIds, List.mem_append, mem_newIds]
  by_cases h : id ∈ db.enabled.map (·.remoteId) <;> simp only [h, true_or, false_or, not_true,
    not_false_iff, and_true]

theorem enabled_of_named {urls : List U} {url : U} (hurl : url ∈ urls) {id : Nat}
    (hid : id ∈ remoteIds db (normalized url)) :
    id ∈ (enableEach normalized urls db).2.enabled.map (·.remoteId) := by
  induction urls generalizing db with
  | nil => cases hurl
  | cons first urls ih =>
      rcases List.mem_cons.mp hurl with rfl | hurl
      · exact enabled_mono urls (mem_enabledIds_enableRemote.mpr (.inr hid))
      · exact @ih (enableRemote (normalized first) db).2 hurl hid

/-- What was named is enabled, and enabling it again adds nothing. -/
theorem newIds_enableEach {urls : List U} {url : U} (hurl : url ∈ urls) :
    newIds (enableEach normalized urls db).2 (normalized url) = [] := by
  refine List.eq_nil_iff_forall_not_mem.mpr fun id hid => ?_
  obtain ⟨hid, hnew⟩ := mem_newIds.mp hid
  refine hnew (enabled_of_named hurl ?_)
  rw [mem_remoteIds] at hid ⊢
  rwa [enableEach_remotes] at hid

/-- A call returns if and only if it has something to add. -/
theorem enableRemote_returns_iff {url : Url} :
    (enableRemote url db).1 = true ↔
      ∃ id ∈ remoteIds db url, id ∉ db.enabled.map (·.remoteId) := by
  rw [enableRemote_fst, Bool.not_eq_true', List.isEmpty_eq_false_iff_exists_mem]
  simp only [mem_newIds]

theorem hasRemote_iff {url : Url} : HasRemote db url ↔ ∃ id, id ∈ remoteIds db url := by
  simp [HasRemote, mem_remoteIds]

/-- Two URLs have no remote in common. -/
theorem url_eq_of_mem_remoteIds (hids : Unique (·.remoteId) db.remotes) {url url' : Url} {id : Nat}
    (h : id ∈ remoteIds db url) (h' : id ∈ remoteIds db url') : url.str = url'.str := by
  obtain ⟨row, hrow, hurl, hid⟩ := mem_remoteIds.mp h
  obtain ⟨row', hrow', hurl', hid'⟩ := mem_remoteIds.mp h'
  obtain rfl := hids.eq_of_key hrow hrow' (hid.trans hid'.symm)
  exact hurl.symm.trans hurl'

theorem namedOnce_cons_iff (hids : Unique (·.remoteId) db.remotes) {url : U} {urls : List U} :
    NamedOnce normalized (url :: urls) db ↔
      (HasRemote db (normalized url) → (enableRemote (normalized url) db).1 = true) ∧
        NamedOnce normalized urls (enableRemote (normalized url) db).2 := by
  have hnew : ∀ url', (∃ id ∈ remoteIds db (normalized url'),
      id ∉ (enableRemote (normalized url) db).2.enabled.map (·.remoteId)) ↔
      (∃ id ∈ remoteIds db (normalized url'), id ∉ db.enabled.map (·.remoteId)) ∧
        (normalized url').str ≠ (normalized url).str := by
    intro url'
    simp only [mem_enabledIds_enableRemote, not_or]
    constructor
    · rintro ⟨id, hid, hold, hurl⟩
      refine ⟨⟨id, hid, hold⟩, fun heq => hurl ?_⟩
      rw [mem_remoteIds] at hid ⊢
      rwa [← heq]
    · rintro ⟨⟨id, hid, hold⟩, hne⟩
      exact ⟨id, hid, hold, fun hurl => hne (url_eq_of_mem_remoteIds hids hid hurl)⟩
  have hnodup : (((url :: urls).filter fun url => HasRemote db (normalized url)).map
      fun url => (normalized url).str).Nodup ↔
      (∀ url' ∈ urls, HasRemote db (normalized url') →
        (normalized url').str ≠ (normalized url).str) ∧
      ((urls.filter fun url => HasRemote db (normalized url)).map
        fun url => (normalized url).str).Nodup := by
    by_cases hremote : HasRemote db (normalized url)
    · rw [List.filter_cons_of_pos (by simpa using hremote), List.map_cons, List.nodup_cons]
      refine and_congr ?_ Iff.rfl
      simp only [List.mem_map, List.mem_filter, decide_eq_true_iff, not_exists, not_and, and_imp]
    · rw [List.filter_cons_of_neg (by simpa using hremote)]
      refine (and_iff_right fun url' _ hremote' heq => hremote ?_).symm
      unfold HasRemote
      rw [← heq]
      exact hremote'
  constructor
  · intro h
    obtain ⟨hfirst, hrest⟩ := hnodup.mp h.nodup
    refine ⟨fun hremote => enableRemote_returns_iff.mpr (h.new url List.mem_cons_self hremote),
      hrest, fun url' hurl' hremote => (hnew url').mpr ⟨?_, hfirst url' hurl' hremote⟩⟩
    exact h.new url' (List.mem_cons_of_mem _ hurl') hremote
  · rintro ⟨hreturned, h⟩
    refine ⟨hnodup.mpr ⟨fun url' hurl' hremote => ((hnew url').mp (h.new url' hurl' hremote)).2,
      h.nodup⟩, fun url' hurl' hremote => ?_⟩
    rcases List.mem_cons.mp hurl' with rfl | hurl'
    · exact enableRemote_returns_iff.mp (hreturned hremote)
    · exact ((hnew url').mp (h.new url' hurl' hremote)).1

theorem returns_iff (hids : Unique (·.remoteId) db.remotes) (urls : List U) :
    (enableEach normalized urls db).1 = urls.map (fun url => decide (HasRemote db (normalized url))) ↔
      NamedOnce normalized urls db := by
  induction urls generalizing db with
  | nil => exact iff_of_true rfl ⟨List.nodup_nil, by simp⟩
  | cons url urls ih =>
      rw [namedOnce_cons_iff hids, ← @ih (enableRemote (normalized url) db).2 hids,
        enableEach_cons, List.map_cons, List.cons.injEq]
      refine and_congr ?_ Iff.rfl
      rw [Bool.eq_iff_iff, decide_eq_true_iff]
      refine ⟨fun h => h.mpr, fun h => ⟨fun hreturned => ?_, h⟩⟩
      obtain ⟨id, hid, _⟩ := enableRemote_returns_iff.mp hreturned
      exact hasRemote_iff.mpr ⟨id, hid⟩

/-- The answers depend on the URLs alone if and only if no remote is named that
is enabled by then. -/
theorem enablesByUrl_iff (normalized : U → Url) (urls : List U) (db : CacheDb)
    (hids : Unique (·.remoteId) db.remotes) :
    EnablesByUrl normalized urls db ↔ NamedOnce normalized urls db := by
  rw [← returns_iff hids]
  refine ⟨fun h => h.returns, fun h => ⟨h, ?_, enabledPackages_enableEach hids urls⟩⟩
  exact fun url hurl => enableRemote_eq_self (newIds_enableEach hurl)

/-! ### A remote that is named twice -/

section

def fooRemote : RemoteRow := ⟨1, "http://foo", "foo", 1, none, none, none, none⟩

def fooRemotes : CacheDb := { remotes := [fooRemote] }

def hostUrl (host : String) : Url := ⟨"http", "http://" ++ host⟩

def barRemote : RemoteRow := ⟨2, "http://bar", "bar", 1, none, none, none, none⟩

/-- Two remotes with a package each. The first is enabled. -/
def fooBarRemotes : CacheDb where
  remotes := [fooRemote, barRemote]
  packages := [⟨1, .str "foo@0.0.1", 1, 1⟩, ⟨2, .str "bar@0.0.1", 2, 1⟩]
  enabled := [⟨1, 1⟩]

theorem fooBarRemotes_unique : Unique (·.remoteId) fooBarRemotes.remotes := by
  show [1, 2].Nodup
  decide

/-- The second remote is enabled, and an unknown one is not found. -/
theorem enablesByUrl_iff_fooBar : EnablesByUrl hostUrl ["bar", "baz"] fooBarRemotes :=
  (enablesByUrl_iff hostUrl ["bar", "baz"] fooBarRemotes fooBarRemotes_unique).mpr
    ⟨by decide, by decide⟩

/-- The remote exists, and naming it again fails. -/
theorem not_enablesByUrl :
    ¬ EnablesByUrl id [⟨"http", "http://foo"⟩, ⟨"http", "http://foo"⟩] fooRemotes :=
  fun h => absurd h.returns (by decide)

end

end Bpt.Crs
