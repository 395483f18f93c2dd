-- SUMMARY: Inclusion, union and intersection of sorted ranges, with repeated elements counted.
import Mathlib.Data.List.Sort
import Mathlib.Data.List.Perm.Subperm

/-!
# Sorted ranges

The set operations of the C++ standard library on two sorted ranges. Elements
may repeat: a range is read as a multiset, so inclusion asks for every element
as often as it occurs and a union keeps the larger of the two counts.
-/

open List

namespace SortedRange

variable {α : Type*} [LinearOrder α] {xs ys zs : List α}

/-- Whether every element of the second range is in the first (`std::includes`). -/
def includes : List α → List α → Bool
  | _, [] => true
  | [], _ :: _ => false
  | x :: xs, y :: ys =>
    if y < x then false
    else if x < y then includes xs (y :: ys)
    else includes xs ys

/-- The merge of two ranges that emits matching elements once (`std::set_union`). -/
def setUnion : List α → List α → List α
  | [], ys => ys
  | xs, [] => xs
  | x :: xs, y :: ys =>
    if x < y then x :: setUnion xs (y :: ys)
    else if y < x then y :: setUnion (x :: xs) ys
    else x :: setUnion xs ys

/-- The elements the two ranges share (`std::set_intersection`). -/
def setIntersection : List α → List α → List α
  | [], _ => []
  | _, [] => []
  | x :: xs, y :: ys =>
    if x < y then setIntersection xs (y :: ys)
    else if y < x then setIntersection (x :: xs) ys
    else x :: setIntersection xs ys

/-! ## Counting -/

/-- An element below everything in a sorted range does not occur in it. -/
theorem count_eq_zero_of_lt {x y : α} (hy : (y :: ys).SortedLE) (hxy : x < y) :
    (y :: ys).count x = 0 := by
  apply count_eq_zero_of_not_mem
  intro hmem
  have hle : ∀ z ∈ ys, y ≤ z := (pairwise_cons.mp hy.pairwise).1
  rcases mem_cons.mp hmem with rfl | hmem
  · exact lt_irrefl x hxy
  · exact absurd (hle x hmem) (not_le.mpr hxy)

theorem sortedLE_tail {x : α} (hx : (x :: xs).SortedLE) : xs.SortedLE :=
  (pairwise_cons.mp hx.pairwise).2.sortedLE

/-- A sorted range is a sublist of another one exactly when no element occurs
in it more often. -/
theorem sublist_iff_count (hx : xs.SortedLE) (hy : ys.SortedLE) :
    ys <+ xs ↔ ∀ a, ys.count a ≤ xs.count a := by
  constructor
  · intro h a
    exact h.count_le a
  · intro h
    exact sublist_of_subperm_of_sortedLE
      (subperm_ext_iff.mpr fun a _ => h a) hy hx

theorem includes_iff_sublist (hx : xs.SortedLE) (hy : ys.SortedLE) :
    includes xs ys = true ↔ ys <+ xs := by
  induction xs generalizing ys with
  | nil => cases ys <;> simp [includes]
  | cons x xs ih =>
      cases ys with
      | nil => simp [includes]
      | cons y ys =>
          have hxs := sortedLE_tail hx
          have hys := sortedLE_tail hy
          unfold includes
          split_ifs with hyx hxy
          · -- `y` is below the whole first range
            have hzero := count_eq_zero_of_lt hx hyx
            constructor
            · intro h; cases h
            · intro h
              have := h.count_le y
              simp [hzero] at this
          · rw [ih hxs hy]
            constructor
            · intro h; exact h.cons x
            · intro h
              cases h with
              | cons _ h => exact h
              | cons_cons _ h => exact absurd hxy (lt_irrefl x)
          · obtain rfl : x = y := le_antisymm (not_lt.mp hyx) (not_lt.mp hxy)
            rw [ih hxs hys, cons_sublist_cons]

theorem count_setUnion (hx : xs.SortedLE) (hy : ys.SortedLE) (a : α) :
    (setUnion xs ys).count a = max (xs.count a) (ys.count a) := by
  induction xs, ys using setUnion.induct with
  | case1 ys => simp [setUnion]
  | case2 xs h => cases xs <;> simp [setUnion]
  | case3 x xs y ys hxy ih =>
      have hzero := count_eq_zero_of_lt hy hxy
      rw [setUnion, if_pos hxy]
      by_cases ha : x = a
      · subst ha
        rw [count_cons_self, ih (sortedLE_tail hx) hy, hzero, count_cons_self]
        simp
      · rw [count_cons_of_ne ha, ih (sortedLE_tail hx) hy, count_cons_of_ne ha]
  | case4 x xs y ys hxy hyx ih =>
      have hzero := count_eq_zero_of_lt hx hyx
      rw [setUnion, if_neg hxy, if_pos hyx]
      by_cases ha : y = a
      · subst ha
        rw [count_cons_self, ih hx (sortedLE_tail hy), hzero, count_cons_self]
        simp
      · rw [count_cons_of_ne ha, ih hx (sortedLE_tail hy), count_cons_of_ne ha]
  | case5 x xs y ys hxy hyx ih =>
      obtain rfl : x = y := le_antisymm (not_lt.mp hyx) (not_lt.mp hxy)
      rw [setUnion, if_neg hxy, if_neg hyx, count_cons,
        ih (sortedLE_tail hx) (sortedLE_tail hy), count_cons, count_cons]
      split <;> omega

theorem mem_setUnion (hx : xs.SortedLE) (hy : ys.SortedLE) {a : α} :
    a ∈ setUnion xs ys ↔ a ∈ xs ∨ a ∈ ys := by
  simp only [← count_pos_iff, count_setUnion hx hy]
  omega

theorem setUnion_sorted (hx : xs.SortedLE) (hy : ys.SortedLE) : (setUnion xs ys).SortedLE := by
  induction xs, ys using setUnion.induct with
  | case1 ys => simpa [setUnion] using hy
  | case2 xs h => cases xs <;> simpa [setUnion] using hx
  | case3 x xs y ys hxy ih =>
      have hxs := pairwise_cons.mp hx.pairwise
      have hys := pairwise_cons.mp hy.pairwise
      rw [setUnion, if_pos hxy]
      refine (pairwise_cons.mpr ⟨fun z hz => ?_, (ih (sortedLE_tail hx) hy).pairwise⟩).sortedLE
      rcases (mem_setUnion (sortedLE_tail hx) hy).mp hz with hz | hz
      · exact hxs.1 z hz
      · rcases mem_cons.mp hz with rfl | hz
        · exact hxy.le
        · exact hxy.le.trans (hys.1 z hz)
  | case4 x xs y ys hxy hyx ih =>
      have hxs := pairwise_cons.mp hx.pairwise
      have hys := pairwise_cons.mp hy.pairwise
      rw [setUnion, if_neg hxy, if_pos hyx]
      refine (pairwise_cons.mpr ⟨fun z hz => ?_, (ih hx (sortedLE_tail hy)).pairwise⟩).sortedLE
      rcases (mem_setUnion hx (sortedLE_tail hy)).mp hz with hz | hz
      · rcases mem_cons.mp hz with rfl | hz
        · exact hyx.le
        · exact hyx.le.trans (hxs.1 z hz)
      · exact hys.1 z hz
  | case5 x xs y ys hxy hyx ih =>
      obtain rfl : x = y := le_antisymm (not_lt.mp hyx) (not_lt.mp hxy)
      have hxs := pairwise_cons.mp hx.pairwise
      have hys := pairwise_cons.mp hy.pairwise
      rw [setUnion, if_neg hxy, if_neg hyx]
      refine (pairwise_cons.mpr
        ⟨fun z hz => ?_, (ih (sortedLE_tail hx) (sortedLE_tail hy)).pairwise⟩).sortedLE
      rcases (mem_setUnion (sortedLE_tail hx) (sortedLE_tail hy)).mp hz with hz | hz
      · exact hxs.1 z hz
      · exact hys.1 z hz

/-! ## The union is the least upper bound of inclusion -/

theorem sublist_setUnion_left (hx : xs.SortedLE) (hy : ys.SortedLE) : xs <+ setUnion xs ys := by
  rw [sublist_iff_count (setUnion_sorted hx hy) hx]
  intro a
  rw [count_setUnion hx hy]
  exact le_max_left _ _

theorem sublist_setUnion_right (hx : xs.SortedLE) (hy : ys.SortedLE) : ys <+ setUnion xs ys := by
  rw [sublist_iff_count (setUnion_sorted hx hy) hy]
  intro a
  rw [count_setUnion hx hy]
  exact le_max_right _ _

theorem setUnion_sublist (hx : xs.SortedLE) (hy : ys.SortedLE) (hz : zs.SortedLE)
    (hxz : xs <+ zs) (hyz : ys <+ zs) : setUnion xs ys <+ zs := by
  rw [sublist_iff_count hz (setUnion_sorted hx hy)]
  intro a
  rw [count_setUnion hx hy]
  exact max_le (hxz.count_le a) (hyz.count_le a)

theorem setUnion_comm (hx : xs.SortedLE) (hy : ys.SortedLE) : setUnion xs ys = setUnion ys xs := by
  have hperm : (setUnion xs ys).Perm (setUnion ys xs) := by
    rw [perm_iff_count]
    intro a
    rw [count_setUnion hx hy, count_setUnion hy hx, max_comm]
  exact hperm.eq_of_sortedLE (setUnion_sorted hx hy) (setUnion_sorted hy hx)

end SortedRange
