-- SUMMARY: The first element of a sorted list that satisfies a test, described on the list before sorting.
import Mathlib.Data.List.Sort

/-!
# Searching a sorted list

Sorting a list by a total preorder and taking the first element that satisfies a
test picks a least such element, and of several the one that came first.
-/

namespace SortedSearch

variable {α : Type*} (r : α → α → Prop) (p : α → Bool)

/-- `a` satisfies the test, it is below everything that does, and nothing before
it is below it. -/
inductive IsFirst : List α → α → Prop where
  | head {x : α} {xs : List α} (holds : p x = true) (le : ∀ y ∈ xs, p y = true → r x y) :
      IsFirst (x :: xs) x
  | tail {x a : α} {xs : List α} (lt : p x = true → ¬ r x a) (rest : IsFirst xs a) :
      IsFirst (x :: xs) a

variable {r p}

theorem IsFirst.mem {xs : List α} {a : α} (h : IsFirst r p xs a) : a ∈ xs := by
  induction h with
  | head => exact List.mem_cons_self
  | tail _ _ ih => exact List.mem_cons_of_mem _ ih

theorem IsFirst.holds {xs : List α} {a : α} (h : IsFirst r p xs a) : p a = true := by
  induction h with
  | head holds => exact holds
  | tail _ _ ih => exact ih

theorem isFirst_cons {x a : α} {xs : List α} :
    IsFirst r p (x :: xs) a ↔
      (a = x ∧ p x = true ∧ ∀ y ∈ xs, p y = true → r x y) ∨
        ((p x = true → ¬ r x a) ∧ IsFirst r p xs a) := by
  constructor
  · intro h
    cases h with
    | head holds le => exact .inl ⟨rfl, holds, le⟩
    | tail lt rest => exact .inr ⟨lt, rest⟩
  · rintro (⟨rfl, holds, le⟩ | ⟨lt, rest⟩)
    · exact .head holds le
    · exact .tail lt rest

variable [Std.Total r]

theorem IsFirst.le {xs : List α} {a : α} (h : IsFirst r p xs a) :
    ∀ y ∈ xs, p y = true → r a y := by
  induction h with
  | head _ le =>
      intro y hy hpy
      rcases List.mem_cons.mp hy with rfl | hy
      · exact (Std.Total.total y y).elim id id
      · exact le y hy hpy
  | tail lt _ ih =>
      intro y hy hpy
      rcases List.mem_cons.mp hy with rfl | hy
      · exact (Std.Total.total _ _).resolve_left (lt hpy)
      · exact ih y hy hpy

variable [DecidableRel r] [IsTrans α r]

omit [Std.Total r] in
/-- Searching after one insertion. -/
theorem find?_orderedInsert {x a : α} {xs : List α} (hxs : xs.Pairwise r) :
    (xs.orderedInsert r x).find? p = some a ↔
      (a = x ∧ p x = true ∧ ∀ y ∈ xs, p y = true → r x y) ∨
        ((p x = true → ¬ r x a) ∧ xs.find? p = some a) := by
  induction xs with
  | nil =>
      by_cases hx : p x = true
      · rw [List.orderedInsert_nil, List.find?_cons_of_pos hx]
        constructor
        · rintro ⟨rfl⟩
          exact .inl ⟨rfl, hx, List.forall_mem_nil _⟩
        · rintro (⟨rfl, _⟩ | ⟨_, hfind⟩)
          · rfl
          · cases hfind
      · simp [hx]
  | cons y xs ih =>
      obtain ⟨hy, hxs⟩ := List.pairwise_cons.mp hxs
      rw [List.orderedInsert_cons]
      split_ifs with hxy
      · have hle : ∀ z ∈ y :: xs, r x z := by
          intro z hz
          rcases List.mem_cons.mp hz with rfl | hz
          · exact hxy
          · exact IsTrans.trans x y z hxy (hy z hz)
        by_cases hx : p x = true
        · rw [List.find?_cons_of_pos hx]
          constructor
          · rintro ⟨rfl⟩
            exact .inl ⟨rfl, hx, fun z hz _ => hle z hz⟩
          · rintro (⟨rfl, _⟩ | ⟨hlt, hfind⟩)
            · rfl
            · exact absurd (hle a (List.mem_of_find?_eq_some hfind)) (hlt hx)
        · simp [List.find?_cons_of_neg, hx]
      · by_cases hpy : p y = true
        · simp only [List.find?_cons_of_pos hpy, Option.some.injEq, List.forall_mem_cons]
          constructor
          · rintro rfl
            exact .inr ⟨fun _ => hxy, rfl⟩
          · rintro (⟨_, _, hle, _⟩ | ⟨_, heq⟩)
            · exact absurd (hle hpy) hxy
            · exact heq
        · rw [List.find?_cons_of_neg hpy, List.find?_cons_of_neg hpy, ih hxs]
          simp [hpy]

/-- Searching a sorted list finds the first of the least elements that satisfy
the test. -/
theorem find?_insertionSort {xs : List α} {a : α} :
    (xs.insertionSort r).find? p = some a ↔ IsFirst r p xs a := by
  induction xs with
  | nil =>
      refine iff_of_false (by simp) ?_
      rintro ⟨⟩
  | cons x xs ih =>
      rw [List.insertionSort_cons, find?_orderedInsert (List.pairwise_insertionSort r xs), ih,
        isFirst_cons]
      simp only [List.mem_insertionSort]

end SortedSearch
