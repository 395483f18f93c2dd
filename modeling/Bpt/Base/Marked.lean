-- SUMMARY: Lists in which every item comes after a mark, and how such runs are told apart.
import Mathlib.Data.List.Basic

/-!
# Marked items

A list of options spells each item as a mark and the item. Where something other than the
mark follows, the items can be read off, whatever they are.
-/

namespace Marked

universe u

variable {α : Type u} {mark mark' : α} {xs ys rest rest' : List α}

def spell (mark : α) (xs : List α) : List α := xs.flatMap fun x => [mark, x]

@[simp] theorem spell_nil (mark : α) : spell mark [] = [] := rfl

@[simp] theorem spell_cons (mark x : α) (xs : List α) :
    spell mark (x :: xs) = mark :: x :: spell mark xs := rfl

theorem spell_append (mark : α) (xs ys : List α) :
    spell mark (xs ++ ys) = spell mark xs ++ spell mark ys := List.flatMap_append

/-- What a run begins with: its mark, or what follows it. -/
theorem head_spell_append (h : rest.head? ≠ some mark') (hmark : mark ≠ mark') :
    (spell mark xs ++ rest).head? ≠ some mark' := by
  cases xs with
  | nil => exact h
  | cons x xs => simpa using hmark

/-- The items of a run, and what follows it. -/
theorem spell_append_inj (hrest : rest.head? ≠ some mark) (hrest' : rest'.head? ≠ some mark)
    (h : spell mark xs ++ rest = spell mark ys ++ rest') : xs = ys ∧ rest = rest' := by
  induction xs generalizing ys with
  | nil =>
    cases ys with
    | nil => exact ⟨rfl, h⟩
    | cons y ys =>
      rw [spell_nil, List.nil_append] at h
      exact absurd (by rw [h]; rfl) hrest
  | cons x xs ih =>
    cases ys with
    | nil =>
      rw [spell_nil, List.nil_append] at h
      exact absurd (by rw [← h]; rfl) hrest'
    | cons y ys =>
      simp only [spell_cons, List.cons_append, List.cons.injEq, true_and] at h
      obtain ⟨rfl, h⟩ := h
      obtain ⟨rfl, hrest⟩ := ih h
      exact ⟨rfl, hrest⟩

/-- Two runs, and at most one more item after the mark of the first. Without a second run that
item belongs to the first. -/
theorem spell_three_inj {xs' ys' last : List α} (hmark : mark ≠ mark')
    (hrest : rest.head? ≠ some mark) (hrest₂ : rest.head? ≠ some mark')
    (hrest' : rest'.head? ≠ some mark) (hrest₂' : rest'.head? ≠ some mark')
    (h : spell mark xs ++ (spell mark' ys ++ (spell mark last ++ rest)) =
      spell mark xs' ++ (spell mark' ys' ++ (spell mark last ++ rest'))) :
    xs = xs' ∧ ys = ys' ∧ rest = rest' := by
  -- What follows the first run, with its last items when there is no second run.
  have hsplit : ∀ (xs ys : List α) {rest : List α}, rest.head? ≠ some mark → rest.head? ≠ some mark' →
      ∃ first second, spell mark xs ++ (spell mark' ys ++ (spell mark last ++ rest)) =
        spell mark first ++ second ∧ second.head? ≠ some mark ∧
        ((ys = [] ∧ first = xs ++ last ∧ second = rest) ∨
          (ys ≠ [] ∧ first = xs ∧ second = spell mark' ys ++ (spell mark last ++ rest))) := by
    intro xs ys rest hrest hrest₂
    cases ys with
    | nil =>
      refine ⟨xs ++ last, rest, ?_, hrest, .inl ⟨rfl, rfl, rfl⟩⟩
      rw [spell_append, spell_nil, List.nil_append, List.append_assoc]
    | cons y ys =>
      refine ⟨xs, _, rfl, ?_, .inr ⟨List.cons_ne_nil y ys, rfl, rfl⟩⟩
      simpa using hmark.symm
  obtain ⟨first, second, heq, hsecond, hcase⟩ := hsplit xs ys hrest hrest₂
  obtain ⟨first', second', heq', hsecond', hcase'⟩ := hsplit xs' ys' hrest' hrest₂'
  rw [heq, heq'] at h
  obtain ⟨hfirst, hsecond⟩ := spell_append_inj hsecond hsecond' h
  have hhead : ∀ {ys more : List α}, ys ≠ [] → (spell mark' ys ++ more).head? = some mark' := by
    intro ys more hne
    cases ys with
    | nil => exact absurd rfl hne
    | cons y ys => rfl
  rcases hcase with ⟨rfl, rfl, rfl⟩ | ⟨hne, rfl, rfl⟩
  · rcases hcase' with ⟨rfl, rfl, rfl⟩ | ⟨hne', rfl, rfl⟩
    · exact ⟨List.append_cancel_right hfirst, rfl, hsecond⟩
    · exact absurd (hsecond ▸ hhead hne') hrest₂
  · rcases hcase' with ⟨rfl, rfl, rfl⟩ | ⟨hne', rfl, rfl⟩
    · exact absurd (hsecond ▸ hhead hne) hrest₂'
    · -- after the second run comes the last item or the rest, and neither begins with its mark
      have hlast : ∀ {rest : List α}, rest.head? ≠ some mark' →
          (spell mark last ++ rest).head? ≠ some mark' := fun hr => head_spell_append hr hmark
      obtain ⟨rfl, hrest⟩ := spell_append_inj (hlast hrest₂) (hlast hrest₂') hsecond
      exact ⟨hfirst, rfl, List.append_cancel_left hrest⟩

end Marked
