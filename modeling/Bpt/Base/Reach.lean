-- SUMMARY: The states a system reaches, and the rule that an invariant holds in all of them.

namespace Reach

variable {σ : Type} {start : σ → Prop} {next : σ → σ → Prop}

/-- The states reached from a start state. -/
inductive Reachable (start : σ → Prop) (next : σ → σ → Prop) : σ → Prop where
  | init {s : σ} (h : start s) : Reachable start next s
  | step {s t : σ} (hs : Reachable start next s) (h : next s t) : Reachable start next t

/-- What holds at the start and is kept by every step holds in every reachable state. -/
theorem Reachable.invariant {I : σ → Prop} (hinit : ∀ s, start s → I s)
    (hstep : ∀ s t, I s → next s t → I t) {s : σ} (h : Reachable start next s) : I s := by
  induction h with
  | init h => exact hinit _ h
  | step _ h ih => exact hstep _ _ ih h

/-- Fewer steps reach fewer states. -/
theorem Reachable.mono {next' : σ → σ → Prop} (hnext : ∀ s t, next s t → next' s t) {s : σ}
    (h : Reachable start next s) : Reachable start next' s := by
  induction h with
  | init h => exact .init h
  | step _ h ih => exact ih.step (hnext _ _ h)

end Reach
