-- SUMMARY: Sequences of single-element edits between lists, and the recurrence for the length of a shortest one.
import Mathlib.Data.List.Induction
import Mathlib.Order.Bounds.Basic
import Mathlib.Order.MinMax

/-!
# Edit scripts

A script turns one list into another by inserting, deleting and substituting single
elements at any place. An alignment goes over both lists once and counts the elements
that it does not match. Every script gives an alignment that costs no more, so that the
length of a shortest script follows the recurrence over the last elements.
-/

namespace EditDistance

universe u

variable {α : Type u} {a a' b b' c s : List α} {n m : Nat}

/-! ## Scripts -/

/-- One edit of a list. -/
inductive EditStep : List α → List α → Prop where
  | insert (x y : List α) (c : α) : EditStep (x ++ y) (x ++ c :: y)
  | delete (x y : List α) (c : α) : EditStep (x ++ c :: y) (x ++ y)
  | substitute (x y : List α) (c d : α) : EditStep (x ++ c :: y) (x ++ d :: y)

theorem EditStep.symm (h : EditStep a b) : EditStep b a := by
  cases h with
  | insert x y c => exact .delete x y c
  | delete x y c => exact .insert x y c
  | substitute x y c d => exact .substitute x y d c

/-- An edit does not see what follows. -/
theorem EditStep.append_right (h : EditStep a b) : EditStep (a ++ s) (b ++ s) := by
  cases h with
  | insert x y c =>
    rw [List.append_assoc, List.append_assoc]
    exact .insert x (y ++ s) c
  | delete x y c =>
    rw [List.append_assoc, List.append_assoc]
    exact .delete x (y ++ s) c
  | substitute x y c d =>
    rw [List.append_assoc, List.append_assoc]
    exact .substitute x (y ++ s) c d

/-- `EditScript n a b`: `n` edits, one after the other, turn `a` into `b`. -/
inductive EditScript : Nat → List α → List α → Prop where
  | nil (a : List α) : EditScript 0 a a
  | cons {n : Nat} {a b c : List α} : EditStep a b → EditScript n b c → EditScript (n + 1) a c

namespace EditScript

theorem single (h : EditStep a b) : EditScript 1 a b := .cons h (.nil b)

theorem trans (h : EditScript n a b) (h' : EditScript m b c) : EditScript (n + m) a c := by
  induction h with
  | nil => rwa [Nat.zero_add]
  | cons hstep _ ih =>
    rw [Nat.add_right_comm]
    exact .cons hstep (ih h')

theorem symm (h : EditScript n a b) : EditScript n b a := by
  induction h with
  | nil => exact .nil _
  | cons hstep _ ih => exact ih.trans (single hstep.symm)

theorem append_right (h : EditScript n a b) : EditScript n (a ++ s) (b ++ s) := by
  induction h with
  | nil => exact .nil _
  | cons hstep _ ih => exact .cons hstep.append_right ih

theorem zero_iff : EditScript 0 a b ↔ a = b := by
  constructor
  · intro h
    cases h
    rfl
  · rintro rfl
    exact .nil a

end EditScript

/-! ## Alignments -/

variable [DecidableEq α]

/-- `Alignment n a b`: the elements of both lists are gone over once, and `n` of the steps
find no element, or another one, on the other side. -/
inductive Alignment : Nat → List α → List α → Prop where
  | nil : Alignment 0 [] []
  | delete {n : Nat} {a b : List α} (c : α) : Alignment n a b → Alignment (n + 1) (a ++ [c]) b
  | insert {n : Nat} {a b : List α} (d : α) : Alignment n a b → Alignment (n + 1) a (b ++ [d])
  | replace {n : Nat} {a b : List α} (c d : α) :
      Alignment n a b → Alignment (n + if c = d then 0 else 1) (a ++ [c]) (b ++ [d])

namespace Alignment

theorem script (h : Alignment n a b) : EditScript n a b := by
  induction h with
  | nil => exact .nil []
  | @delete n a b c _ ih =>
    have hstep := EditStep.delete b [] c
    rw [List.append_nil] at hstep
    exact ih.append_right.trans (.single hstep)
  | @insert n a b d _ ih =>
    have hstep := EditStep.insert b [] d
    rw [List.append_nil] at hstep
    exact ih.trans (.single hstep)
  | @replace n a b c d _ ih =>
    split
    next heq =>
      rw [heq]
      exact ih.append_right
    next => exact ih.append_right.trans (.single (.substitute b [] c d))

theorem append (h : Alignment n a b) (h' : Alignment m a' b') :
    Alignment (n + m) (a ++ a') (b ++ b') := by
  induction h' with
  | nil => rwa [List.append_nil, List.append_nil, Nat.add_zero]
  | delete c _ ih =>
    rw [← List.append_assoc]
    exact ih.delete c
  | insert d _ ih =>
    rw [← List.append_assoc]
    exact ih.insert d
  | replace c d _ ih =>
    rw [← List.append_assoc, ← List.append_assoc, ← Nat.add_assoc]
    exact ih.replace c d

theorem left_nil (b : List α) : Alignment b.length [] b := by
  induction b using List.reverseRecOn with
  | nil => exact .nil
  | append_singleton b d ih =>
    rw [List.length_append, List.length_singleton]
    exact ih.insert d

theorem right_nil (a : List α) : Alignment a.length a [] := by
  induction a using List.reverseRecOn with
  | nil => exact .nil
  | append_singleton a c ih =>
    rw [List.length_append, List.length_singleton]
    exact ih.delete c

theorem refl (a : List α) : Alignment 0 a a := by
  induction a using List.reverseRecOn with
  | nil => exact .nil
  | append_singleton a c ih =>
    have h := ih.replace c c
    rwa [if_pos rfl] at h

/-- The cost is at least the difference of the lengths. -/
theorem length_le (h : Alignment n a b) : a.length ≤ b.length + n ∧ b.length ≤ a.length + n := by
  induction h with
  | nil => exact ⟨Nat.le_refl _, Nat.le_refl _⟩
  | delete c _ ih =>
    rw [List.length_append, List.length_singleton]
    omega
  | insert d _ ih =>
    rw [List.length_append, List.length_singleton]
    omega
  | replace c d _ ih =>
    rw [List.length_append, List.length_append, List.length_singleton, List.length_singleton]
    omega

/-- What is aligned with one element, when the element is put in another's place. -/
theorem right_singleton (a : List α) (d : α) : ∃ m ≤ max a.length 1, Alignment m a [d] := by
  obtain rfl | ⟨a, c, rfl⟩ := a.eq_nil_or_concat
  · exact ⟨1, Nat.le_max_right _ _, left_nil [d]⟩
  · rw [List.concat_eq_append, List.length_append, List.length_singleton]
    refine ⟨_, ?_, (right_nil a).replace c d⟩
    split <;> omega

/-- An alignment with two lists in a row splits into alignments with each of them. -/
theorem of_append {x y : List α} (h : Alignment n a (x ++ y)) :
    ∃ a₁ a₂ n₁ n₂, a = a₁ ++ a₂ ∧ n = n₁ + n₂ ∧ Alignment n₁ a₁ x ∧ Alignment n₂ a₂ y := by
  generalize hb : x ++ y = b at h
  induction h generalizing y with
  | nil =>
    obtain ⟨rfl, rfl⟩ := List.append_eq_nil_iff.mp hb
    exact ⟨[], [], 0, 0, rfl, rfl, .nil, .nil⟩
  | delete c _ ih =>
    obtain ⟨a₁, a₂, n₁, n₂, rfl, rfl, h₁, h₂⟩ := ih hb
    exact ⟨a₁, a₂ ++ [c], n₁, n₂ + 1, List.append_assoc _ _ _, rfl, h₁, h₂.delete c⟩
  | @insert n a b d h ih =>
    obtain rfl | ⟨y, d', rfl⟩ := y.eq_nil_or_concat
    · rw [List.append_nil] at hb
      exact ⟨a, [], n + 1, 0, (List.append_nil a).symm, rfl, hb ▸ h.insert d, .nil⟩
    · rw [List.concat_eq_append, ← List.append_assoc] at hb
      obtain ⟨hinit, hlast⟩ := List.append_inj' hb rfl
      cases hlast
      obtain ⟨a₁, a₂, n₁, n₂, rfl, rfl, h₁, h₂⟩ := ih hinit
      refine ⟨a₁, a₂, n₁, n₂ + 1, rfl, rfl, h₁, ?_⟩
      rw [List.concat_eq_append]
      exact h₂.insert d
  | @replace n a b c d h ih =>
    obtain rfl | ⟨y, d', rfl⟩ := y.eq_nil_or_concat
    · rw [List.append_nil] at hb
      exact ⟨a ++ [c], [], _, 0, (List.append_nil _).symm, rfl, hb ▸ h.replace c d, .nil⟩
    · rw [List.concat_eq_append, ← List.append_assoc] at hb
      obtain ⟨hinit, hlast⟩ := List.append_inj' hb rfl
      cases hlast
      obtain ⟨a₁, a₂, n₁, n₂, rfl, rfl, h₁, h₂⟩ := ih hinit
      refine ⟨a₁, a₂ ++ [c], n₁, _, List.append_assoc _ _ _, Nat.add_assoc _ _ _, h₁, ?_⟩
      rw [List.concat_eq_append]
      exact h₂.replace c d

/-- One more edit costs one more at most. -/
theorem step (h : Alignment n a b) (hstep : EditStep b c) : ∃ m ≤ n + 1, Alignment m a c := by
  cases hstep with
  | insert x y d =>
    obtain ⟨a₁, a₂, n₁, n₂, rfl, rfl, h₁, h₂⟩ := h.of_append
    have hall := h₁.append ((left_nil [d]).append h₂)
    rw [List.nil_append, List.length_singleton] at hall
    exact ⟨_, by omega, hall⟩
  | delete x y d =>
    obtain ⟨a₁, a₂, n₁, n₂, rfl, rfl, h₁, h₂⟩ := h.of_append
    obtain ⟨a₂, a₃, n₂, n₃, rfl, rfl, h₂, h₃⟩ := h₂.of_append (x := [d])
    have hall := h₁.append ((right_nil a₂).append h₃)
    have hlength := h₂.length_le.1
    rw [List.length_singleton] at hlength
    exact ⟨_, by omega, hall⟩
  | substitute x y d e =>
    obtain ⟨a₁, a₂, n₁, n₂, rfl, rfl, h₁, h₂⟩ := h.of_append
    obtain ⟨a₂, a₃, n₂, n₃, rfl, rfl, h₂, h₃⟩ := h₂.of_append (x := [d])
    obtain ⟨m, hm, hsingle⟩ := right_singleton a₂ e
    have hall := h₁.append (hsingle.append h₃)
    have hlength := h₂.length_le.1
    rw [List.length_singleton] at hlength
    exact ⟨_, by omega, hall⟩

theorem trans_script (h : Alignment n a b) (hscript : EditScript m b c) :
    ∃ k ≤ n + m, Alignment k a c := by
  induction hscript generalizing n with
  | nil => exact ⟨n, Nat.le_refl _, h⟩
  | cons hstep _ ih =>
    obtain ⟨n', hn', h'⟩ := h.step hstep
    obtain ⟨k, hk, hall⟩ := ih h'
    exact ⟨k, by omega, hall⟩

/-- A script gives an alignment that costs no more. -/
theorem of_script (h : EditScript n a b) : ∃ k ≤ n, Alignment k a b := by
  obtain ⟨k, hk, hall⟩ := (refl a).trans_script h
  exact ⟨k, by omega, hall⟩

/-- The last step of an alignment of two lists that are not empty. -/
theorem concat_inv {c d : α} (h : Alignment n (a ++ [c]) (b ++ [d])) :
    (∃ m, n = m + 1 ∧ Alignment m a (b ++ [d])) ∨ (∃ m, n = m + 1 ∧ Alignment m (a ++ [c]) b) ∨
      ∃ m, n = m + (if c = d then 0 else 1) ∧ Alignment m a b := by
  generalize ha : a ++ [c] = a₀, hb : b ++ [d] = b₀ at h
  cases h with
  | nil => exact absurd ha (by simp)
  | delete c' h =>
    obtain ⟨rfl, -⟩ := List.append_inj' ha rfl
    exact .inl ⟨_, rfl, hb ▸ h⟩
  | insert d' h =>
    obtain ⟨rfl, -⟩ := List.append_inj' hb rfl
    exact .inr (.inl ⟨_, rfl, ha ▸ h⟩)
  | replace c' d' h =>
    obtain ⟨rfl, hc⟩ := List.append_inj' ha rfl
    obtain ⟨rfl, hd⟩ := List.append_inj' hb rfl
    cases hc
    cases hd
    exact .inr (.inr ⟨_, rfl, h⟩)

end Alignment

/-! ## The distance -/

omit [DecidableEq α]

/-- The length of a shortest script. -/
def IsEditDistance (a b : List α) (n : Nat) : Prop := IsLeast {m | EditScript m a b} n

namespace IsEditDistance

theorem symm (h : IsEditDistance a b n) : IsEditDistance b a n :=
  ⟨h.1.symm, fun _ hm => h.2 (EditScript.symm hm)⟩

theorem eq_zero_iff (h : IsEditDistance a b n) : n = 0 ↔ a = b := by
  constructor
  · rintro rfl
    exact EditScript.zero_iff.mp h.1
  · intro heq
    exact Nat.le_zero.mp (h.2 (EditScript.zero_iff.mpr heq))

theorem triangle {k : Nat} (h : IsEditDistance a b n) (h' : IsEditDistance b c m)
    (hall : IsEditDistance a c k) : k ≤ n + m :=
  hall.2 (EditScript.trans h.1 h'.1)

variable [DecidableEq α]

/-- Alignments and scripts have the same least cost. -/
theorem of_alignment (h : Alignment n a b) (hle : ∀ m, Alignment m a b → n ≤ m) :
    IsEditDistance a b n := by
  refine ⟨h.script, fun m hm => ?_⟩
  obtain ⟨k, hk, hall⟩ := Alignment.of_script hm
  exact (hle k hall).trans hk

theorem left_nil (b : List α) : IsEditDistance [] b b.length :=
  of_alignment (.left_nil b) fun m hm => by simpa using hm.length_le.2

theorem right_nil (a : List α) : IsEditDistance a [] a.length :=
  of_alignment (.right_nil a) fun m hm => by simpa using hm.length_le.1

/-- The last step of a shortest script is one of three. -/
theorem concat {c d : α} {n₁ n₂ n₃ : Nat} (h₁ : IsEditDistance a (b ++ [d]) n₁)
    (h₂ : IsEditDistance (a ++ [c]) b n₂) (h₃ : IsEditDistance a b n₃) :
    IsEditDistance (a ++ [c]) (b ++ [d])
      (min (min (n₂ + 1) (n₁ + 1)) (n₃ + if c = d then 0 else 1)) := by
  have hdelete : EditScript (n₁ + 1) (a ++ [c]) (b ++ [d]) := by
    obtain ⟨k, hk, h⟩ := Alignment.of_script h₁.1
    rw [← Nat.le_antisymm hk (h₁.2 h.script)]
    exact (h.delete c).script
  have hinsert : EditScript (n₂ + 1) (a ++ [c]) (b ++ [d]) := by
    obtain ⟨k, hk, h⟩ := Alignment.of_script h₂.1
    rw [← Nat.le_antisymm hk (h₂.2 h.script)]
    exact (h.insert d).script
  have hreplace : EditScript (n₃ + if c = d then 0 else 1) (a ++ [c]) (b ++ [d]) := by
    obtain ⟨k, hk, h⟩ := Alignment.of_script h₃.1
    rw [← Nat.le_antisymm hk (h₃.2 h.script)]
    exact (h.replace c d).script
  constructor
  · obtain h | h := min_choice (min (n₂ + 1) (n₁ + 1)) (n₃ + if c = d then 0 else 1)
    · rw [h]
      obtain h | h := min_choice (n₂ + 1) (n₁ + 1)
      · rw [h]
        exact hinsert
      · rw [h]
        exact hdelete
    · rw [h]
      exact hreplace
  · intro m hm
    obtain ⟨k, hk, h⟩ := Alignment.of_script hm
    obtain ⟨k, rfl, hinit⟩ | ⟨k, rfl, hinit⟩ | ⟨k, rfl, hinit⟩ := h.concat_inv
    · have hle := h₁.2 hinit.script
      omega
    · have hle := h₂.2 hinit.script
      omega
    · have hle := h₃.2 hinit.script
      omega

end IsEditDistance

end EditDistance
