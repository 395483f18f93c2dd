-- SUMMARY: Maps as lists of entries in key order, built up by inserting entries whose key is new.
import Mathlib.Data.List.Sort

/-!
# Sorted maps

The entries of a `std::map` in the order of its iterators. Inserting keeps the
entry that is there.
-/

namespace SortedMap

variable {κ α : Type*} [LinearOrder κ] {k : κ} {v : α} {m : List (κ × α)}

/-- Insert an entry unless the key is there (`std::map::emplace`). -/
def emplace (k : κ) (v : α) : List (κ × α) → List (κ × α)
  | [] => [(k, v)]
  | (l, w) :: m =>
    if k < l then (k, v) :: (l, w) :: m
    else if l < k then (l, w) :: emplace k v m
    else (l, w) :: m

/-- The keys are increasing. -/
def Sorted (m : List (κ × α)) : Prop := m.Pairwise fun x y => x.1 < y.1

theorem mem_of_mem_emplace {entry : κ × α} (h : entry ∈ emplace k v m) :
    entry = (k, v) ∨ entry ∈ m := by
  induction m with
  | nil => exact .inl (List.mem_singleton.mp h)
  | cons first m ih =>
      unfold emplace at h
      split at h
      · exact List.mem_cons.mp h
      split at h
      · obtain rfl | h := List.mem_cons.mp h
        · exact .inr List.mem_cons_self
        · exact (ih h).imp_right (List.mem_cons_of_mem _)
      · exact .inr h

theorem Sorted.emplace (h : Sorted m) (k : κ) (v : α) : Sorted (emplace k v m) := by
  induction m with
  | nil => exact List.pairwise_singleton _ _
  | cons first m ih =>
      obtain ⟨hfirst, hm⟩ := List.pairwise_cons.mp h
      unfold SortedMap.emplace
      split
      next hlt =>
        refine List.pairwise_cons.mpr ⟨fun entry hentry => ?_, h⟩
        obtain rfl | hentry := List.mem_cons.mp hentry
        · exact hlt
        · exact hlt.trans (hfirst entry hentry)
      split
      next hlt =>
        refine List.pairwise_cons.mpr ⟨fun entry hentry => ?_, ih hm⟩
        obtain rfl | hentry := mem_of_mem_emplace hentry
        · exact hlt
        · exact hfirst entry hentry
      · exact h

/-- An entry with the largest key comes last. -/
theorem emplace_of_lt (h : ∀ entry ∈ m, entry.1 < k) : emplace k v m = m ++ [(k, v)] := by
  induction m with
  | nil => rfl
  | cons first m ih =>
      have hfirst : first.1 < k := h first List.mem_cons_self
      rw [emplace, if_neg hfirst.not_gt, if_pos hfirst,
        ih fun entry hentry => h entry (List.mem_cons_of_mem _ hentry), List.cons_append]

end SortedMap
