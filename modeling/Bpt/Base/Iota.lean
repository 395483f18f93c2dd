-- SUMMARY: Loops over a range of numbers whose counter is narrower than the bound that it is compared with.
import Mathlib.Algebra.Order.Ring.Nat

/-!
# Loops with a narrow counter

The loop goes on from a counter until the counter is equal to a bound of a wider type. A
bound that the counter cannot hold is never reached, as the counter starts over at zero.
-/

namespace Iota

variable {σ : Type} {body : UInt32 → σ → Option σ} {bound fuel : Nat} {n : UInt32} {s s' : σ}

/-- The loop from the counter `n` on, with fuel. -/
def forEach (body : UInt32 → σ → Option σ) (bound : Nat) : Nat → UInt32 → σ → Option σ
  | 0, _, _ => none
  | fuel + 1, n, s =>
    if n.toNat = bound then some s
    else (body n s).bind fun s => forEach body bound fuel (n + 1) s

/-- The counter holds the bound of a loop that ends. -/
theorem lt_of_forEach (h : forEach body bound fuel n s = some s') : bound < 2 ^ 32 := by
  induction fuel generalizing n s with
  | zero => cases h
  | succ fuel ih =>
    unfold forEach at h
    split at h
    next heq => exact heq ▸ n.toNat_lt
    next =>
      obtain ⟨s₁, -, h⟩ := Option.bind_eq_some_iff.mp h
      exact ih h

theorem toNat_succ (h : n.toNat < bound) (hbound : bound < 2 ^ 32) :
    (n + 1).toNat = n.toNat + 1 := by
  rw [UInt32.toNat_add, UInt32.toNat_one]
  exact Nat.mod_eq_of_lt (by omega)

/-- What the body carries from each counter to the next holds of the bound in the end. -/
theorem forEach_rule {I : Nat → σ → Prop}
    (step : ∀ (n : UInt32) (s s' : σ), n.toNat < bound → I n.toNat s → body n s = some s' →
      I (n.toNat + 1) s')
    (h : forEach body bound fuel n s = some s') (hn : n.toNat ≤ bound) (hI : I n.toNat s) :
    I bound s' := by
  have hbound := lt_of_forEach h
  induction fuel generalizing n s with
  | zero => cases h
  | succ fuel ih =>
    unfold forEach at h
    split at h
    next heq =>
      cases h
      exact heq ▸ hI
    next hne =>
      obtain ⟨s₁, hs₁, h⟩ := Option.bind_eq_some_iff.mp h
      have hlt : n.toNat < bound := by omega
      have hsucc := toNat_succ hlt hbound
      apply ih h
      · omega
      · rw [hsucc]
        exact step n s s₁ hlt hI hs₁

/-- A loop to a bound that the counter holds ends when its body does. -/
theorem exists_forEach (hbound : bound < 2 ^ 32) (hbody : ∀ n s, ∃ s', body n s = some s')
    (hn : n.toNat ≤ bound) (hfuel : bound - n.toNat < fuel) :
    ∃ s', forEach body bound fuel n s = some s' := by
  induction fuel generalizing n s with
  | zero => exact absurd hfuel (Nat.not_lt_zero _)
  | succ fuel ih =>
    unfold forEach
    split
    next => exact ⟨s, rfl⟩
    next hne =>
      obtain ⟨s₁, hs₁⟩ := hbody n s
      have hsucc := toNat_succ (show n.toNat < bound by omega) hbound
      rw [hs₁]
      exact ih (by omega) (by omega)

end Iota
