-- SUMMARY: Loops that go on while a condition holds: where they end, and that they do not.
import Mathlib.Order.Basic

/-!
# Loops with a condition

A loop ends in a state when some number of passes leads to it. It never ends when its body
keeps something up that implies the condition.
-/

namespace While

variable {σ : Type} {cond : σ → Bool} {body : σ → σ} {s s' : σ}

/-- The loop, with fuel. -/
def run (cond : σ → Bool) (body : σ → σ) : Nat → σ → Option σ
  | 0, _ => none
  | fuel + 1, s => if cond s then run cond body fuel (body s) else some s

/-- The loop from the first state ends in the second one. -/
def Ends (cond : σ → Bool) (body : σ → σ) (s s' : σ) : Prop :=
  ∃ fuel, run cond body fuel s = some s'

theorem ends_of_not (h : cond s = false) : Ends cond body s s' ↔ s = s' := by
  have hrun : ∀ fuel, run cond body (fuel + 1) s = some s := by
    intro fuel
    unfold run
    rw [h]
    rfl
  constructor
  · rintro ⟨fuel, hends⟩
    cases fuel with
    | zero => cases hends
    | succ fuel => exact Option.some.inj ((hrun fuel).symm.trans hends)
  · rintro rfl
    exact ⟨1, hrun 0⟩

theorem ends_body (h : cond s = true) : Ends cond body s s' ↔ Ends cond body (body s) s' := by
  have hrun : ∀ fuel, run cond body (fuel + 1) s = run cond body fuel (body s) := by
    intro fuel
    conv => lhs; unfold run
    rw [h]
    rfl
  constructor
  · rintro ⟨fuel, hends⟩
    cases fuel with
    | zero => cases hends
    | succ fuel => exact ⟨fuel, (hrun fuel).symm.trans hends⟩
  · rintro ⟨fuel, hends⟩
    exact ⟨fuel + 1, (hrun fuel).trans hends⟩

/-- A loop does not end whose body keeps the condition up. -/
theorem not_ends {I : σ → Prop} (hcond : ∀ s, I s → cond s = true) (hbody : ∀ s, I s → I (body s))
    (h : I s) : ¬ Ends cond body s s' := by
  rintro ⟨fuel, hends⟩
  induction fuel generalizing s with
  | zero => cases hends
  | succ fuel ih =>
    unfold run at hends
    rw [if_pos (hcond s h)] at hends
    exact ih (hbody s h) hends

end While
