-- SUMMARY: Folds whose steps are paid for by their inputs, and what holds of a fold that spends all that was paid.
import Mathlib.Tactic.TypeStar

/-!
# Potentials of folds

Each step of a fold raises a potential by no more than the weight of its input.
When a whole fold raises it by the weight of all inputs, every step raised it by
the weight of its own: nothing was lost on the way.
-/

namespace Potential

variable {σ α : Type*} {step : σ → α → σ} {m : σ → Nat} {w : α → Nat}

/-- The weight of all inputs. -/
def weight (w : α → Nat) : List α → Nat
  | [] => 0
  | a :: rest => w a + weight w rest

/-- The fold raises the potential by the weight of all inputs. -/
def Tight (step : σ → α → σ) (m : σ → Nat) (w : α → Nat) (s : σ) (inputs : List α) : Prop :=
  m (inputs.foldl step s) = m s + weight w inputs

/-- `I` holds along a fold, and where it holds a step is paid for. -/
structure Paid (step : σ → α → σ) (m : σ → Nat) (w : α → Nat) (I : σ → List α → Prop) : Prop where
  keeps : ∀ s a rest, I s (a :: rest) → I (step s a) rest
  step_le : ∀ s a rest, I s (a :: rest) → m (step s a) ≤ m s + w a

variable {I : σ → List α → Prop}

theorem Paid.foldl_le (h : Paid step m w I) {s : σ} {inputs : List α} (hI : I s inputs) :
    m (inputs.foldl step s) ≤ m s + weight w inputs := by
  induction inputs generalizing s with
  | nil => exact Nat.le_refl _
  | cons a rest ih =>
    have hrest := ih (h.keeps s a rest hI)
    have hstep := h.step_le s a rest hI
    rw [List.foldl_cons, weight]
    omega

/-- No step of a tight fold loses anything. -/
theorem Paid.tight_cons (h : Paid step m w I) {s : σ} {a : α} {rest : List α}
    (hI : I s (a :: rest)) (htight : Tight step m w s (a :: rest)) :
    m (step s a) = m s + w a ∧ Tight step m w (step s a) rest := by
  have hrest := h.foldl_le (h.keeps s a rest hI)
  have hstep := h.step_le s a rest hI
  unfold Tight at htight ⊢
  rw [List.foldl_cons, weight] at htight
  omega

end Potential
