-- SUMMARY: Lists read through a key: unique keys, inserting and updating, and the last element under each key.
import Mathlib.Data.List.Induction
import Mathlib.Data.List.Nodup

/-!
# Keyed lists

In a table the key of a row is unique. In a list of writes a key may occur more
than once, and the last write under it is the one that counts.
-/

namespace Keyed

variable {α κ : Type*} {key : α → κ} {l : List α} {a b : α}

/-- The key of every element is unique. -/
def Unique (key : α → κ) (l : List α) : Prop := (l.map key).Nodup

theorem Unique.eq_of_key (h : Unique key l) (ha : a ∈ l) (hb : b ∈ l) (hkey : key a = key b) :
    a = b :=
  List.inj_on_of_nodup_map h ha hb hkey

theorem Unique.filter (h : Unique key l) (p : α → Bool) : Unique key (l.filter p) :=
  h.sublist (List.filter_sublist.map key)

theorem Unique.append_singleton (h : Unique key l) (ha : key a ∉ l.map key) :
    Unique key (l ++ [a]) := by
  unfold Unique
  rw [List.map_append, List.nodup_append]
  refine ⟨h, List.nodup_singleton _, fun k hk k' hk' => ?_⟩
  rw [List.mem_singleton.mp hk']
  rintro rfl
  exact ha hk

/-- An update that keeps the keys keeps them unique. -/
theorem Unique.map_of_key_eq (h : Unique key l) {f : α → α} (hf : ∀ x ∈ l, key (f x) = key x) :
    Unique key (l.map f) := by
  have hkeys : l.map (key ∘ f) = l.map key := List.map_congr_left hf
  unfold Unique
  rwa [List.map_map, hkeys]

/-- The element under a key is the one that a search finds. -/
theorem Unique.find?_eq_some [DecidableEq κ] (h : Unique key l) {k : κ} :
    l.find? (fun x => key x = k) = some a ↔ a ∈ l ∧ key a = k := by
  constructor
  · intro hfind
    exact ⟨List.mem_of_find?_eq_some hfind, by simpa using List.find?_some hfind⟩
  · rintro ⟨ha, rfl⟩
    cases hfind : l.find? fun x => key x = key a with
    | none => exact absurd (List.find?_eq_none.mp hfind a ha) (by simp)
    | some b =>
        have hkey : key b = key a := by simpa using List.find?_some hfind
        rw [h.eq_of_key (List.mem_of_find?_eq_some hfind) ha hkey]

/-! ## Inserting and updating -/

/-- The id of an inserted row: one more than the largest id of the table. -/
def freshRowid (ids : List Nat) : Nat := ids.foldr max 0 + 1

theorem lt_freshRowid {ids : List Nat} {id : Nat} (h : id ∈ ids) : id < freshRowid ids := by
  unfold freshRowid
  induction ids with
  | nil => cases h
  | cons x ids ih =>
      rw [List.foldr_cons]
      rcases List.mem_cons.mp h with rfl | h
      · omega
      · have := ih h
        omega

theorem freshRowid_not_mem (ids : List Nat) : freshRowid ids ∉ ids := fun h =>
  Nat.lt_irrefl _ (lt_freshRowid h)

/-- Update the element under a key, or add one when there is none. -/
def upsert [DecidableEq κ] (key : α → κ) (k : κ) (update : α → α) (new : α) (l : List α) : List α :=
  if l.any fun x => key x = k then l.map fun x => if key x = k then update x else x
  else l ++ [new]

section

variable [DecidableEq κ] {k : κ} {update : α → α} {new : α}

/-- Under the key there is the new element or an updated one. -/
theorem of_mem_upsert (ha : a ∈ upsert key k update new l) (hkey : key a = k) :
    a = new ∨ ∃ old ∈ l, key old = k ∧ a = update old := by
  unfold upsert at ha
  split at ha
  next =>
    obtain ⟨old, hold, rfl⟩ := List.mem_map.mp ha
    by_cases hk : key old = k
    · exact .inr ⟨old, hold, hk, if_pos hk⟩
    · rw [if_neg hk] at hkey
      exact absurd hkey hk
  next hnone =>
    rcases List.mem_append.mp ha with ha | ha
    · exact absurd (List.any_eq_true.mpr ⟨a, ha, by simpa using hkey⟩) hnone
    · exact .inl (List.mem_singleton.mp ha)

theorem exists_mem_upsert (hupdate : ∀ x, key x = k → key (update x) = k) (hnew : key new = k) :
    ∃ x ∈ upsert key k update new l, key x = k := by
  unfold upsert
  split
  next hsome =>
    obtain ⟨old, hold, hk⟩ := List.any_eq_true.mp hsome
    have hk : key old = k := by simpa using hk
    exact ⟨_, List.mem_map_of_mem hold, by rw [if_pos hk]; exact hupdate old hk⟩
  next => exact ⟨new, by simp, hnew⟩

/-- Under other keys the elements stay. -/
theorem mem_upsert_of_ne (hupdate : ∀ x, key x = k → key (update x) = k) (hnew : key new = k)
    (hkey : key a ≠ k) : a ∈ upsert key k update new l ↔ a ∈ l := by
  unfold upsert
  split
  next =>
    constructor
    · intro ha
      obtain ⟨old, hold, rfl⟩ := List.mem_map.mp ha
      by_cases hk : key old = k
      · rw [if_pos hk] at hkey
        exact absurd (hupdate old hk) hkey
      · rwa [if_neg hk]
    · intro ha
      exact List.mem_map.mpr ⟨a, ha, if_neg hkey⟩
  next =>
    rw [List.mem_append, List.mem_singleton]
    constructor
    · rintro (ha | rfl)
      · exact ha
      · exact absurd hnew hkey
    · exact .inl

theorem Unique.upsert (h : Unique key l) (hupdate : ∀ x, key x = k → key (update x) = k)
    (hnew : key new = k) : Unique key (upsert key k update new l) := by
  unfold Keyed.upsert
  split
  next =>
    refine h.map_of_key_eq fun x _ => ?_
    split
    next hk => rw [hupdate x hk, hk]
    next => rfl
  next hnone =>
    refine h.append_singleton fun hmem => hnone ?_
    obtain ⟨x, hx, hk⟩ := List.mem_map.mp hmem
    exact List.any_eq_true.mpr ⟨x, hx, by simpa [hnew] using hk⟩

end

/-! ## The last element under a key -/

/-- `a` is in the list, and nothing after it has its key. -/
def IsLast (key : α → κ) (l : List α) (a : α) : Prop :=
  ∃ before after, l = before ++ a :: after ∧ ∀ x ∈ after, key x ≠ key a

theorem not_isLast_nil : ¬ IsLast key [] a := by
  rintro ⟨before, after, h, _⟩
  simp at h

/-- A further element replaces what was last under its key. -/
theorem isLast_concat : IsLast key (l ++ [b]) a ↔ a = b ∨ (IsLast key l a ∧ key a ≠ key b) := by
  constructor
  · rintro ⟨before, after, h, hafter⟩
    rcases List.eq_nil_or_concat after with rfl | ⟨after, c, rfl⟩
    · exact .inl (List.singleton_inj.mp (List.append_inj' h rfl).2).symm
    · rw [List.concat_eq_append] at h hafter
      rw [← List.cons_append, ← List.append_assoc] at h
      obtain ⟨rfl, hb⟩ := List.append_inj' h rfl
      rw [List.singleton_inj.mp hb]
      refine .inr ⟨⟨before, after, rfl, fun x hx => hafter x (List.mem_append_left _ hx)⟩, ?_⟩
      exact (hafter c (by simp)).symm
  · rintro (rfl | ⟨⟨before, after, rfl, hafter⟩, hkey⟩)
    · exact ⟨l, [], rfl, List.forall_mem_nil _⟩
    · refine ⟨before, after ++ [b], by simp, fun x hx => ?_⟩
      rcases List.mem_append.mp hx with hx | hx
      · exact hafter x hx
      · rw [List.mem_singleton.mp hx]
        exact hkey.symm

theorem IsLast.mem (h : IsLast key l a) : a ∈ l := by
  obtain ⟨before, after, rfl, _⟩ := h
  simp

theorem Unique.isLast_iff (h : Unique key l) : IsLast key l a ↔ a ∈ l := by
  refine ⟨IsLast.mem, fun ha => ?_⟩
  obtain ⟨before, after, rfl⟩ := List.append_of_mem ha
  refine ⟨before, after, rfl, fun x hx hkey => ?_⟩
  unfold Unique at h
  rw [List.map_append, List.map_cons] at h
  have hnodup := (List.nodup_append.mp h).2.1
  exact (List.nodup_cons.mp hnodup).1 (hkey ▸ List.mem_map_of_mem hx)

theorem isLast_cons : IsLast key (b :: l) a ↔ IsLast key l a ∨ (a = b ∧ key b ∉ l.map key) := by
  constructor
  · rintro ⟨before, after, h, hafter⟩
    cases before with
    | nil =>
      obtain ⟨rfl, rfl⟩ := List.cons.inj h
      refine .inr ⟨rfl, fun hmem => ?_⟩
      obtain ⟨x, hx, hkey⟩ := List.mem_map.mp hmem
      exact hafter x hx hkey
    | cons c before =>
      obtain ⟨-, rfl⟩ := List.cons.inj h
      exact .inl ⟨before, after, rfl, hafter⟩
  · rintro (⟨before, after, rfl, hafter⟩ | ⟨rfl, hkey⟩)
    · exact ⟨b :: before, after, rfl, hafter⟩
    · exact ⟨[], l, rfl, fun x hx heq => hkey (heq ▸ List.mem_map_of_mem hx)⟩

theorem exists_isLast {k : κ} (h : k ∈ l.map key) : ∃ a, IsLast key l a ∧ key a = k := by
  induction l with
  | nil => cases h
  | cons b l ih =>
    by_cases hk : k ∈ l.map key
    · obtain ⟨a, ha, hkey⟩ := ih hk
      exact ⟨a, isLast_cons.mpr (.inl ha), hkey⟩
    · rw [List.map_cons, List.mem_cons] at h
      have hb : key b = k := (h.resolve_right hk).symm
      exact ⟨b, isLast_cons.mpr (.inr ⟨rfl, hb ▸ hk⟩), hb⟩

/-- Of the elements under one key, one is last. -/
theorem IsLast.unique (h : IsLast key l a) (h' : IsLast key l b) (hkey : key a = key b) : a = b := by
  induction l using List.reverseRecOn with
  | nil => exact absurd h not_isLast_nil
  | append_singleton l c ih =>
      rcases isLast_concat.mp h with rfl | ⟨h, hac⟩
      · rcases isLast_concat.mp h' with rfl | ⟨_, hbc⟩
        · rfl
        · exact absurd hkey.symm hbc
      · rcases isLast_concat.mp h' with rfl | ⟨h', _⟩
        · exact absurd hkey hac
        · exact ih h h'

end Keyed
