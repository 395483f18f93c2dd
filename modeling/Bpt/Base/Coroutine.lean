-- SUMMARY: Resumable computations that yield values one by one, and the list of values of a whole run.

/-!
# Coroutines

A coroutine is resumed again and again. Each time it asks to be resumed once
more, yields a value, ends, or fails. A run collects the values that are yielded
until the end.
-/

namespace Coroutine

/-- What a resumed coroutine returns. -/
inductive Ret where
  | reenterAgain
  | yieldValue
  | done
  deriving DecidableEq

variable {σ τ ε α : Type}

/-- Resume until the end, and collect what `get` finds whenever a value is
yielded. The fuel bounds how often the coroutine is resumed. -/
def run (reenter : σ → Except ε (Ret × σ)) (get : σ → α) : Nat → σ → Option (Except ε (List α))
  | 0, _ => none
  | fuel + 1, s =>
    match reenter s with
    | .error e => some (.error e)
    | .ok (.done, _) => some (.ok [])
    | .ok (.reenterAgain, s') => run reenter get fuel s'
    | .ok (.yieldValue, s') => (run reenter get fuel s').map (Except.map (get s' :: ·))

/-- The run from a state ends, with the values or the failure `r`. -/
inductive Runs (reenter : σ → Except ε (Ret × σ)) (get : σ → α) : σ → Except ε (List α) → Prop where
  | error {s : σ} {e : ε} (h : reenter s = .error e) : Runs reenter get s (.error e)
  | done {s s' : σ} (h : reenter s = .ok (.done, s')) : Runs reenter get s (.ok [])
  | again {s s' : σ} {r : Except ε (List α)} (h : reenter s = .ok (.reenterAgain, s'))
      (hr : Runs reenter get s' r) : Runs reenter get s r
  | yield {s s' : σ} {r : Except ε (List α)} (h : reenter s = .ok (.yieldValue, s'))
      (hr : Runs reenter get s' r) : Runs reenter get s (r.map (get s' :: ·))

variable {reenter : σ → Except ε (Ret × σ)} {get : σ → α}

/-- A run that ends is found with enough fuel. -/
theorem Runs.exists_fuel {s : σ} {r : Except ε (List α)} (h : Runs reenter get s r) :
    ∃ fuel, run reenter get fuel s = some r := by
  induction h with
  | error h => exact ⟨1, by simp only [run, h]⟩
  | done h => exact ⟨1, by simp only [run, h]⟩
  | again h _ ih =>
      obtain ⟨fuel, hfuel⟩ := ih
      exact ⟨fuel + 1, by simp only [run, h, hfuel]⟩
  | yield h _ ih =>
      obtain ⟨fuel, hfuel⟩ := ih
      exact ⟨fuel + 1, by simp only [run, h, hfuel, Option.map_some]⟩

/-- What is found with any fuel is what the run ends with. -/
theorem Runs.eq_of_run {s : σ} {r r' : Except ε (List α)} (h : Runs reenter get s r) {fuel : Nat}
    (hrun : run reenter get fuel s = some r') : r' = r := by
  induction h generalizing fuel r' with
  | error h =>
      cases fuel with
      | zero => cases hrun
      | succ fuel =>
          simp only [run, h, Option.some.injEq] at hrun
          exact hrun.symm
  | done h =>
      cases fuel with
      | zero => cases hrun
      | succ fuel =>
          simp only [run, h, Option.some.injEq] at hrun
          exact hrun.symm
  | again h _ ih =>
      cases fuel with
      | zero => cases hrun
      | succ fuel =>
          simp only [run, h] at hrun
          exact ih hrun
  | yield h _ ih =>
      cases fuel with
      | zero => cases hrun
      | succ fuel =>
          simp only [run, h, Option.map_eq_some_iff] at hrun
          obtain ⟨r₁, hr₁, rfl⟩ := hrun
          rw [ih hr₁]

/-- One run after another: a failure of the first is the result. -/
def andThen (first second : Except ε (List α)) : Except ε (List α) :=
  first.bind fun as => second.map (as ++ ·)

@[simp] theorem andThen_nil (r : Except ε (List α)) : andThen (.ok []) r = r := by
  cases r <;> rfl

@[simp] theorem andThen_error (e : ε) (r : Except ε (List α)) : andThen (.error e) r = .error e :=
  rfl

theorem andThen_map_cons (a : α) (first second : Except ε (List α)) :
    andThen (first.map (a :: ·)) second = (andThen first second).map (a :: ·) := by
  cases first with
  | error e => rfl
  | ok as => cases second <;> rfl

theorem andThen_assoc (first second third : Except ε (List α)) :
    andThen (andThen first second) third = andThen first (andThen second third) := by
  cases first with
  | error e => rfl
  | ok as =>
      cases second with
      | error e => rfl
      | ok bs =>
          cases third with
          | error e => rfl
          | ok cs => exact congrArg Except.ok (List.append_assoc as bs cs)

/-- A coroutine that resumes an inner one until this is done, and then goes on
from the state `s`, yields what the inner one yields and then what `s` does. -/
theorem Runs.nested {inner : τ → Except ε (Ret × τ)} {getInner : τ → α} (wrap : τ → σ) {s : σ}
    (herror : ∀ t e, inner t = .error e → reenter (wrap t) = .error e)
    (hdone : ∀ t t', inner t = .ok (.done, t') → reenter (wrap t) = .ok (.reenterAgain, s))
    (hother : ∀ t ret t', ret ≠ .done → inner t = .ok (ret, t') →
      reenter (wrap t) = .ok (ret, wrap t'))
    (hget : ∀ t, get (wrap t) = getInner t) {t : τ} {r r' : Except ε (List α)}
    (h : Runs inner getInner t r) (hs : Runs reenter get s r') :
    Runs reenter get (wrap t) (andThen r r') := by
  induction h with
  | error h => exact .error (herror _ _ h)
  | done h =>
      rw [andThen_nil]
      exact .again (hdone _ _ h) hs
  | again h _ ih => exact .again (hother _ _ _ (by simp) h) ih
  | yield h _ ih =>
      rw [andThen_map_cons, ← hget]
      exact .yield (hother _ _ _ (by simp) h) ih

end Coroutine
