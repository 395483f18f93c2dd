-- SUMMARY: Runs of labelled steps, what holds along every run, and steps of one thread among several.
import Mathlib.Algebra.BigOperators.Group.List.Basic
import Mathlib.Algebra.Order.Ring.Nat

/-!
# Labelled steps

A run is a sequence of steps with the list of their labels, so that an invariant can speak
of what has happened. A system of threads makes a step when one of them does.
-/

namespace Lts

variable {σ ε : Type} {step : σ → ε → σ → Prop} {s t : σ} {es : List ε}

/-- The runs from `s`. -/
inductive Run (step : σ → ε → σ → Prop) (s : σ) : List ε → σ → Prop where
  | nil : Run step s [] s
  | snoc {es : List ε} {t u : σ} {e : ε} : Run step s es t → step t e u → Run step s (es ++ [e]) u

/-- No step goes on from `s`. -/
def Stuck (step : σ → ε → σ → Prop) (s : σ) : Prop := ∀ e t, ¬ step s e t

/-- What holds at the start and is kept by every step holds along every run. -/
theorem Run.invariant {I : List ε → σ → Prop} (hinit : I [] s)
    (hstep : ∀ es t e u, I es t → step t e u → I (es ++ [e]) u) (h : Run step s es t) : I es t := by
  induction h with
  | nil => exact hinit
  | snoc _ hlast ih => exact hstep _ _ _ _ ih hlast

/-- A run is no longer than a measure that its steps lower. -/
theorem Run.length_add_le {I : List ε → σ → Prop} {measure : σ → Nat}
    (hI : ∀ {es t}, Run step s es t → I es t)
    (hstep : ∀ es t e u, I es t → step t e u → measure u < measure t) (h : Run step s es t) :
    es.length + measure t ≤ measure s := by
  induction h with
  | nil => exact Nat.le_of_eq (Nat.zero_add _)
  | snoc hrun hlast ih =>
    have hlt := hstep _ _ _ _ (hI hrun) hlast
    rw [List.length_append, List.length_singleton]
    omega

/-! ## Threads -/

variable {α : Type} {p p' : α} {ws ws' : List α} {P P' : α → Prop} {f : α → Nat}

/-- One thread goes from `p` to `p'`, and the others stay where they are. -/
def Moves (p p' : α) (ws ws' : List α) : Prop :=
  ∃ before after, ws = before ++ p :: after ∧ ws' = before ++ p' :: after

/-- What the threads hold together. -/
def total (f : α → Nat) (ws : List α) : Nat := (ws.map f).sum

theorem exists_moves (h : p ∈ ws) (p' : α) : ∃ ws', Moves p p' ws ws' := by
  obtain ⟨before, after, rfl⟩ := List.append_of_mem h
  exact ⟨before ++ p' :: after, before, after, rfl, rfl⟩

theorem Moves.mem (h : Moves p p' ws ws') : p ∈ ws := by
  obtain ⟨before, after, rfl, rfl⟩ := h
  exact List.mem_append_right _ List.mem_cons_self

theorem Moves.length_eq (h : Moves p p' ws ws') : ws'.length = ws.length := by
  obtain ⟨before, after, rfl, rfl⟩ := h
  rw [List.length_append, List.length_append]
  rfl

theorem total_append (f : α → Nat) (ws ws' : List α) :
    total f (ws ++ ws') = total f ws + total f ws' := by
  unfold total
  rw [List.map_append, List.sum_append]

theorem total_singleton (f : α → Nat) (p : α) : total f [p] = f p := List.sum_singleton

/-- The total changes by what the thread that moves holds. -/
theorem Moves.total_eq (h : Moves p p' ws ws') (f : α → Nat) :
    total f ws' + f p = total f ws + f p' := by
  obtain ⟨before, after, rfl, rfl⟩ := h
  simp only [total, List.map_append, List.map_cons, List.sum_append, List.sum_cons]
  omega

theorem total_eq_zero (h : ∀ w ∈ ws, f w = 0) : total f ws = 0 := by
  apply List.sum_eq_zero
  intro n hn
  obtain ⟨w, hw, rfl⟩ := List.mem_map.mp hn
  exact h w hw

theorem le_total (h : p ∈ ws) (f : α → Nat) : f p ≤ total f ws := by
  obtain ⟨before, after, rfl⟩ := List.append_of_mem h
  simp only [total, List.map_append, List.map_cons, List.sum_append, List.sum_cons]
  omega

theorem exists_of_total_pos (h : 0 < total f ws) : ∃ w ∈ ws, 0 < f w := by
  by_contra hall
  apply Nat.ne_of_gt h
  apply total_eq_zero
  intro w hw
  exact Nat.eq_zero_of_not_pos fun hpos => hall ⟨w, hw, hpos⟩

/-- What all threads satisfy is kept by a step, when the one that moves satisfies it and the
others are not disturbed, each of which holds something beside the one that moves. -/
theorem Moves.forall_mem (f : α → Nat) (h : Moves p p' ws ws') (hall : ∀ w ∈ ws, P w)
    (hmove : P' p') (hstay : ∀ w, P w → f p + f w ≤ total f ws → P' w) : ∀ w ∈ ws', P' w := by
  obtain ⟨before, after, rfl, rfl⟩ := h
  simp only [total, List.map_append, List.map_cons, List.sum_append, List.sum_cons] at hstay
  intro w hw
  obtain hw | hw := List.mem_append.mp hw
  · have hle := le_total hw f
    unfold total at hle
    exact hstay w (hall w (List.mem_append_left _ hw)) (by omega)
  · obtain rfl | hw := List.mem_cons.mp hw
    · exact hmove
    · have hle := le_total hw f
      unfold total at hle
      exact hstay w (hall w (List.mem_append_right _ (List.mem_cons_of_mem _ hw))) (by omega)

end Lts
