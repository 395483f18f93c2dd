-- SUMMARY: Maps that are built by inserting entries, where the key of an entry must be new.
import Bpt.Base.Fallible
import Bpt.Base.Keyed

/-!
# Maps of unique keys

Entries are inserted one after the other, and the first entry whose key is there
already stops the construction. Lookups do not see the order of the entries, so they
are kept as they came.
-/

open Fallible

/-- The map keeps one value under each key. -/
structure UniqueMap (κ α : Type*) where
  entries : List (κ × α)
  unique : Keyed.Unique Prod.fst entries

namespace UniqueMap

variable {κ α β : Type} [DecidableEq κ] {m m' : UniqueMap κ α} {entries : List (κ × α)}

def empty : UniqueMap κ α := ⟨[], List.nodup_nil⟩

def get (m : UniqueMap κ α) (key : κ) : Option α :=
  (m.entries.find? fun entry => entry.1 = key).map (·.2)

theorem get_eq_some {key : κ} {a : α} : m.get key = some a ↔ (key, a) ∈ m.entries := by
  unfold get
  rw [Option.map_eq_some_iff]
  constructor
  · rintro ⟨entry, hentry, rfl⟩
    obtain ⟨hmem, rfl⟩ := m.unique.find?_eq_some.mp hentry
    exact hmem
  · intro hmem
    exact ⟨(key, a), m.unique.find?_eq_some.mpr ⟨hmem, rfl⟩, rfl⟩

/-- Maps that hold the same entries answer every lookup alike, and the other way. -/
theorem get_eq_iff :
    (∀ key, m.get key = m'.get key) ↔ ∀ entry, entry ∈ m.entries ↔ entry ∈ m'.entries := by
  constructor
  · intro h entry
    rw [← get_eq_some, ← get_eq_some, h]
  · intro h key
    apply Option.ext
    intro a
    rw [get_eq_some, get_eq_some]
    exact h (key, a)

/-- Insert an entry, or give the key that is there already. -/
def tryEmplace (m : UniqueMap κ α) (entry : κ × α) : Except κ (UniqueMap κ α) :=
  if h : entry.1 ∈ m.entries.map Prod.fst then .error entry.1
  else .ok ⟨m.entries ++ [entry], m.unique.append_singleton h⟩

theorem tryEmplace_eq_ok {entry : κ × α} :
    m.tryEmplace entry = .ok m' ↔ m'.entries = m.entries ++ [entry] := by
  unfold tryEmplace
  split
  next hmem =>
    apply iff_of_false nofun
    intro h
    have hunique := m'.unique
    rw [h, Keyed.Unique, List.map_append, List.nodup_append] at hunique
    exact hunique.2.2 _ hmem _ (List.mem_singleton_self _) rfl
  next =>
    obtain ⟨entries', hunique⟩ := m'
    rw [Except.ok.injEq, mk.injEq]
    exact eq_comm

/-- The map of a list of entries. -/
def ofEntries (entries : List (κ × α)) : Except κ (UniqueMap κ α) :=
  entries.foldlM tryEmplace empty

theorem foldlM_tryEmplace_eq_ok :
    entries.foldlM tryEmplace m = .ok m' ↔ m'.entries = m.entries ++ entries := by
  induction entries generalizing m with
  | nil =>
    obtain ⟨held, hheld⟩ := m
    obtain ⟨held', hheld'⟩ := m'
    rw [List.append_nil, List.foldlM_nil, pure_eq_ok, mk.injEq]
    exact eq_comm
  | cons entry entries ih =>
    rw [List.foldlM_cons, bind_eq_ok]
    constructor
    · rintro ⟨m₁, hm₁, h⟩
      rw [ih.mp h, tryEmplace_eq_ok.mp hm₁, List.append_assoc]
      rfl
    · intro h
      have hfirst : m'.entries = m.entries ++ [entry] ++ entries := by
        rw [h, List.append_assoc]
        rfl
      have hsub : (m.entries ++ [entry]).Sublist m'.entries :=
        hfirst ▸ List.sublist_append_left _ _
      exact ⟨⟨_, m'.unique.sublist (hsub.map Prod.fst)⟩, tryEmplace_eq_ok.mpr rfl, ih.mpr hfirst⟩

/-- The entries of the map are those of the list. -/
theorem ofEntries_eq_ok : ofEntries entries = .ok m ↔ m.entries = entries :=
  foldlM_tryEmplace_eq_ok

/-- A list has a map when no key occurs twice in it. -/
theorem exists_ofEntries_iff :
    (∃ m, ofEntries entries = .ok m) ↔ Keyed.Unique Prod.fst entries := by
  constructor
  · rintro ⟨m, hm⟩
    rw [← ofEntries_eq_ok.mp hm]
    exact m.unique
  · intro hunique
    exact ⟨⟨entries, hunique⟩, ofEntries_eq_ok.mpr rfl⟩

end UniqueMap
