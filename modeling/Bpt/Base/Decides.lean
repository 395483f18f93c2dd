-- SUMMARY: Fallible steps that return under an exact condition and fail in expected ways otherwise, and how they compose.
import Bpt.Base.Fallible

/-!
# Deciding steps

A step decides a condition when it returns a value exactly if the condition holds and its
errors are all of one kind. The steps of a sequence decide their conditions together.
-/

namespace Fallible

universe u

variable {ε : Type*} {α β : Type u} {E : ε → Prop} {x : Except ε α} {f : α → Except ε β}
  {P P' Q : Prop}

structure Decides (E : ε → Prop) (x : Except ε α) (P : Prop) : Prop where
  ok_iff : (∃ a, x = .ok a) ↔ P
  expected : ∀ e, x = .error e → E e

namespace Decides

theorem ok (a : α) : Decides E (.ok a) True := ⟨⟨fun _ => trivial, fun _ => ⟨a, rfl⟩⟩, nofun⟩

theorem error {e : ε} (he : E e) : Decides E (.error e : Except ε α) False where
  ok_iff := ⟨nofun, nofun⟩
  expected e' h := by
    cases h
    exact he

theorem congr (h : Decides E x P) (hiff : P ↔ P') : Decides E x P' := ⟨h.ok_iff.trans hiff, h.expected⟩

theorem holds (h : Decides E x P) {a : α} (ha : x = .ok a) : P := h.ok_iff.mp ⟨a, ha⟩

/-- The condition of the second step does not depend on the value of the first. -/
theorem bind (hx : Decides E x P) (hf : ∀ a, x = .ok a → Decides E (f a) Q) :
    Decides E (x >>= f) (P ∧ Q) where
  ok_iff := by
    constructor
    · rintro ⟨b, hb⟩
      obtain ⟨a, ha, hb⟩ := bind_eq_ok.mp hb
      exact ⟨hx.holds ha, (hf a ha).holds hb⟩
    · rintro ⟨hP, hQ⟩
      obtain ⟨a, ha⟩ := hx.ok_iff.mpr hP
      obtain ⟨b, hb⟩ := (hf a ha).ok_iff.mpr hQ
      exact ⟨b, bind_eq_ok.mpr ⟨a, ha, hb⟩⟩
  expected e he := by
    rcases bind_eq_error.mp he with he | ⟨a, ha, he⟩
    · exact hx.expected e he
    · exact (hf a ha).expected e he

theorem ite {c : Prop} [Decidable c] {y : Except ε α} (hx : c → Decides E x P)
    (hy : ¬ c → Decides E y P') : Decides E (if c then x else y) (if c then P else P') := by
  split
  next hc => exact hx hc
  next hc => exact hy hc

/-- A loop decides the conditions of all its steps. -/
theorem foldlM {σ : Type u} {step : σ → β → Except ε σ} {condition : β → Prop}
    (hstep : ∀ s b, Decides E (step s b) (condition b)) (bs : List β) (s : σ) :
    Decides E (bs.foldlM step s) (∀ b ∈ bs, condition b) := by
  induction bs generalizing s with
  | nil => exact (Decides.ok s).congr (by simp)
  | cons b bs ih =>
    rw [List.foldlM_cons]
    exact ((hstep s b).bind fun s' _ => ih s').congr (by simp)

end Decides

end Fallible
