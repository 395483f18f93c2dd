-- SUMMARY: Values dealt to takers in their order, of which some take all the values that are left.
import Mathlib.Data.List.Basic

/-!
# Dealing

The first taker takes the first value, the second taker the second, and so on. A
greedy taker takes all the values that are left, and nothing is left for those
after it.
-/

namespace Deal

variable {α β : Type*} (greedy : α → Bool)

/-- Who takes which value. None when there are more values than takers. -/
def deal : List α → List β → Option (List (α × β))
  | _, [] => some []
  | [], _ :: _ => none
  | taker :: takers, value :: values =>
    if greedy taker then some ((value :: values).map fun value => (taker, value))
    else (deal takers values).map ((taker, value) :: ·)

/-- The takers that can take a value after these. -/
def waiting : List α → List β → List α
  | takers, [] => takers
  | [], _ :: _ => []
  | taker :: takers, _ :: values =>
    if greedy taker then taker :: takers else waiting takers values

variable {greedy}

@[simp] theorem deal_nil (takers : List α) : deal greedy takers ([] : List β) = some [] := by
  cases takers <;> rfl

@[simp] theorem waiting_nil (takers : List α) : waiting greedy takers ([] : List β) = takers := by
  cases takers <;> rfl

/-- One more value goes to the first taker that waits. -/
theorem deal_concat {takers : List α} {values : List β} {dealt : List (α × β)} {taker : α}
    (h : deal greedy takers values = some dealt)
    (hnext : (waiting greedy takers values).head? = some taker) (value : β) :
    deal greedy takers (values ++ [value]) = some (dealt ++ [(taker, value)]) := by
  induction takers generalizing values dealt with
  | nil =>
    cases values with
    | nil => cases hnext
    | cons => cases h
  | cons first takers ih =>
    cases values with
    | nil =>
      cases h
      cases hnext
      rw [List.nil_append, deal]
      split <;> simp
    | cons value' values =>
      rw [deal] at h
      rw [waiting] at hnext
      rw [List.cons_append, deal]
      split at h
      next hgreedy =>
        rw [if_pos hgreedy] at hnext
        cases h
        cases hnext
        rw [if_pos hgreedy]
        simp
      next hgreedy =>
        rw [if_neg hgreedy] at hnext
        obtain ⟨dealt', hdealt, rfl⟩ := Option.map_eq_some_iff.mp h
        rw [if_neg hgreedy, ih hdealt hnext]
        rfl

theorem waiting_concat {takers : List α} {values : List β} {taker : α}
    (hnext : (waiting greedy takers values).head? = some taker) (value : β) :
    waiting greedy takers (values ++ [value]) =
      if greedy taker then waiting greedy takers values
      else (waiting greedy takers values).tail := by
  induction takers generalizing values with
  | nil => cases values <;> cases hnext
  | cons first takers ih =>
    cases values with
    | nil =>
      cases hnext
      simp [waiting]
    | cons value' values =>
      have hwaiting (values : List β) : waiting greedy (first :: takers) (value' :: values) =
          if greedy first then first :: takers else waiting greedy takers values := rfl
      rw [List.cons_append, hwaiting, hwaiting]
      rw [hwaiting] at hnext
      split at hnext
      next hgreedy =>
        cases hnext
        simp only [if_pos hgreedy]
      next hgreedy =>
        simp only [if_neg hgreedy]
        exact ih hnext

end Deal
