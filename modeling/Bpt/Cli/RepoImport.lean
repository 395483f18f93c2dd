-- SUMMARY: The command that imports several packages into a repository, and which metadata of each package it leaves there.
import Bpt.Crs.RepoIndex

/-!
# Importing several packages

`repo import` imports the packages of its paths one after another. What it does with one that
is present is an option: it stops, goes on, or removes the old package and imports the new
one. The removal and the second import are not one transaction.
-/

namespace Bpt.Cli

open Crs Transaction Keyed

inductive IfExists where
  | replace
  | fail
  | ignore
  deriving DecidableEq

variable {V S : Type} [Semver V] [VersionRangeSet S V]

/-- A path to import: the package that is read there, and how each operation on it ends. -/
structure ImportPath (V S : Type) where
  package : Option (PackageInfo V S)
  io : RepoIo
  tmpTgz : String
  removeIo : RepoIo
  againIo : RepoIo
  againTgz : String

/-! ## The command -/

/-- The repository has this metadata of the package of an id. -/
def HasMetadata (s : Repo) (id : PkgId V) (json : Json) : Prop :=
  ∃ row ∈ s.db.rows, row.columns = id.columns ∧ row.json = json

omit [VersionRangeSet S V] in
theorem has_iff {s : Repo} {id : PkgId V} : s.Has id ↔ ∃ json, HasMetadata s id json := by
  constructor
  · rintro ⟨row, hrow, hid⟩
    exact ⟨row.json, row, hrow, hid, rfl⟩
  · rintro ⟨_, row, hrow, hid, _⟩
    exact ⟨row, hrow, hid⟩

section

variable {io : RepoIo} {s : Repo}

/-- What a path that has been handled leaves of its package. -/
structure Took (ifExists : IfExists) (pkg : PackageInfo V S) (json : Json) (s t : Repo) : Prop where
  notFail : s.Has pkg.id → ifExists ≠ .fail
  kept : s.Has pkg.id → ifExists = .ignore → t.db = s.db
  put : (s.Has pkg.id → ifExists ≠ .ignore) → ∀ id json', HasMetadata t id json' ↔
    (id = pkg.id ∧ json' = json) ∨ (id ≠ pkg.id ∧ HasMetadata s id json')
  index : s.index = some s.db → t.index = some t.db

/-- What a path that fails leaves: the other packages, and its own too, unless that was to be
replaced. -/
structure Interrupted (ifExists : IfExists) (path : ImportPath V S) (s t : Repo) : Prop where
  others : ∀ id json, (∀ pkg ∈ path.package, pkg.id ≠ id) →
    (HasMetadata t id json ↔ HasMetadata s id json)
  kept : ifExists ≠ .replace → ∀ (id : PkgId V) json, HasMetadata s id json → HasMetadata t id json

omit [VersionRangeSet S V] in
theorem hasMetadata_congr {t : Repo} (h : t.db = s.db) {id : PkgId V} {json : Json} :
    HasMetadata t id json ↔ HasMetadata s id json := by
  unfold HasMetadata
  rw [h]

omit [VersionRangeSet S V] in
theorem Took.congr {ifExists : IfExists} {pkg : PackageInfo V S} {json : Json} {t u : Repo}
    (h : Took ifExists pkg json t u) (hdb : t.db = s.db) (hindex : t.index = s.index) :
    Took ifExists pkg json s u := by
  have hhas : t.Has pkg.id ↔ s.Has pkg.id := by
    unfold Repo.Has
    rw [hdb]
  refine ⟨fun hs => h.notFail (hhas.mpr hs), fun hs hignore => ?_, fun hput id json' => ?_, ?_⟩
  · exact (h.kept (hhas.mpr hs) hignore).trans hdb
  · rw [h.put (fun ht => hput (hhas.mp ht)) id json', hasMetadata_congr hdb]
  · rw [← hdb, ← hindex]
    exact h.index

omit [VersionRangeSet S V] in
theorem Interrupted.congr {ifExists : IfExists} {path : ImportPath V S} {t u : Repo}
    (h : Interrupted ifExists path t u) (hdb : t.db = s.db) : Interrupted ifExists path s u where
  others id json hid := (h.others id json hid).trans (hasMetadata_congr hdb)
  kept hne id json hmetadata := h.kept hne id json ((hasMetadata_congr hdb).mpr hmetadata)

end

/-! ## All paths -/

/-- The metadata that handled packages leave: the last of each id, or the first of each id
that was not there, or the only one. -/
def Leaves (ifExists : IfExists) (entries : List (PkgId V × Json)) (s t : Repo) : Prop :=
  match ifExists with
  | .replace => ∀ id json, HasMetadata t id json ↔
      IsLast (·.1) entries (id, json) ∨ (id ∉ entries.map (·.1) ∧ HasMetadata s id json)
  | .ignore => ∀ id json, HasMetadata t id json ↔
      HasMetadata s id json ∨ (¬ s.Has id ∧ IsLast (·.1) entries.reverse (id, json))
  | .fail => (entries.map (·.1)).Nodup ∧ (∀ entry ∈ entries, ¬ s.Has entry.1) ∧
      ∀ id json, HasMetadata t id json ↔ HasMetadata s id json ∨ (id, json) ∈ entries

section

variable {s t u : Repo} {entries : List (PkgId V × Json)} {pkg : PackageInfo V S} {json : Json}

omit [VersionRangeSet S V] in
theorem Leaves.replace (h : Leaves .replace entries s t) (htook : Took .replace pkg json t u) :
    Leaves .replace (entries ++ [(pkg.id, json)]) s u := by
  intro id json'
  rw [htook.put (fun _ => by simp) id json', h id json', isLast_concat, List.map_append, List.mem_append]
  simp only [List.map_cons, List.map_nil, List.mem_singleton, Prod.mk.injEq]
  tauto

omit [VersionRangeSet S V] in
theorem Leaves.fail (h : Leaves .fail entries s t) (htook : Took .fail pkg json t u) :
    Leaves .fail (entries ++ [(pkg.id, json)]) s u := by
  obtain ⟨hnodup, habsent, hmetadata⟩ := h
  have hnew : ¬ t.Has pkg.id := fun hhas => htook.notFail hhas rfl
  have hentries : ∀ entry ∈ entries, entry.1 ≠ pkg.id := by
    rintro ⟨id, json'⟩ hentry rfl
    exact hnew (has_iff.mpr ⟨json', (hmetadata _ _).mpr (.inr hentry)⟩)
  refine ⟨?_, ?_, fun id json' => ?_⟩
  · rw [List.map_append, List.nodup_append]
    refine ⟨hnodup, List.nodup_singleton _, fun id hid id' hid' => ?_⟩
    obtain ⟨entry, hentry, rfl⟩ := List.mem_map.mp hid
    rw [List.mem_singleton.mp hid']
    exact hentries entry hentry
  · intro entry hentry
    rcases List.mem_append.mp hentry with hentry | hentry
    · exact habsent entry hentry
    · rw [List.mem_singleton.mp hentry]
      intro hhas
      obtain ⟨json', hjson'⟩ := has_iff.mp hhas
      exact hnew (has_iff.mpr ⟨json', (hmetadata _ _).mpr (.inl hjson')⟩)
  · have hother : HasMetadata t id json' → id ≠ pkg.id := by
      rintro hjson' rfl
      exact hnew (has_iff.mpr ⟨json', hjson'⟩)
    rw [htook.put (fun _ => by simp) id json', and_iff_right_of_imp hother, hmetadata id json',
      List.mem_append, List.mem_singleton, Prod.mk.injEq]
    tauto

omit [VersionRangeSet S V] in
theorem Leaves.ignore (h : Leaves .ignore entries s t) (htook : Took .ignore pkg json t u) :
    Leaves .ignore (entries ++ [(pkg.id, json)]) s u := by
  have hhas : ∀ id, t.Has id ↔ s.Has id ∨ id ∈ entries.map (·.1) := by
    intro id
    rw [has_iff]
    constructor
    · rintro ⟨json', hjson'⟩
      rcases (h id json').mp hjson' with hold | ⟨-, hnew⟩
      · exact .inl (has_iff.mpr ⟨json', hold⟩)
      · exact .inr (List.mem_map.mpr ⟨_, List.mem_reverse.mp hnew.mem, rfl⟩)
    · intro hor
      by_cases hold : s.Has id
      · obtain ⟨json', hjson'⟩ := has_iff.mp hold
        exact ⟨json', (h id json').mpr (.inl hjson')⟩
      · have hmem : id ∈ entries.reverse.map (·.1) := by
          rw [List.map_reverse, List.mem_reverse]
          exact hor.resolve_left hold
        obtain ⟨⟨_, json'⟩, hlast, rfl⟩ := exists_isLast hmem
        exact ⟨json', (h _ json').mpr (.inr ⟨hold, hlast⟩)⟩
  intro id json'
  rw [List.reverse_append, List.reverse_singleton, List.singleton_append, isLast_cons,
    List.map_reverse, List.mem_reverse, Prod.mk.injEq]
  by_cases hpresent : t.Has pkg.id
  · rw [hasMetadata_congr (htook.kept hpresent rfl), h id json']
    have hor := (hhas pkg.id).mp hpresent
    constructor
    · tauto
    · rintro (hold | ⟨hnot, hlast | ⟨⟨rfl, -⟩, hnew⟩⟩)
      · exact .inl hold
      · exact .inr ⟨hnot, hlast⟩
      · exact absurd (hor.resolve_left hnot) hnew
  · have hother : HasMetadata t id json' → id ≠ pkg.id := by
      rintro hjson' rfl
      exact hpresent (has_iff.mpr ⟨json', hjson'⟩)
    have hnew := not_or.mp fun hor => hpresent ((hhas pkg.id).mpr hor)
    rw [htook.put (fun hhas => absurd hhas hpresent) id json', and_iff_right_of_imp hother, h id json']
    constructor
    · rintro (⟨rfl, rfl⟩ | hold | ⟨hnot, hlast⟩)
      · exact .inr ⟨hnew.1, .inr ⟨⟨rfl, rfl⟩, hnew.2⟩⟩
      · exact .inl hold
      · exact .inr ⟨hnot, .inl hlast⟩
    · tauto

omit [VersionRangeSet S V] in
theorem Leaves.step {ifExists : IfExists} (h : Leaves ifExists entries s t)
    (htook : Took ifExists pkg json t u) : Leaves ifExists (entries ++ [(pkg.id, json)]) s u := by
  cases ifExists with
  | replace => exact h.replace htook
  | fail => exact h.fail htook
  | ignore => exact h.ignore htook

end

end Bpt.Cli
