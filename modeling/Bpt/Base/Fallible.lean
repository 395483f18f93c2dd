-- SUMMARY: What a result of fallible steps says about the steps: binds, and steps made one for each element of a list.
import Mathlib.Data.List.Forall2

/-!
# Results of fallible steps

A bind returns what its second step returns, or the first error. A traversal of a
list with a fallible step returns one value for each element, or the error of one
of them.
-/

namespace Fallible

universe u

variable {ε δ : Type*} {α β : Type u}

theorem bind_eq_ok {x : Except ε α} {f : α → Except ε β} {b : β} :
    x >>= f = .ok b ↔ ∃ a, x = .ok a ∧ f a = .ok b := by
  cases x <;> simp [Bind.bind, Except.bind]

theorem bind_eq_error {x : Except ε α} {f : α → Except ε β} {e : ε} :
    x >>= f = .error e ↔ x = .error e ∨ ∃ a, x = .ok a ∧ f a = .error e := by
  cases x <;> simp [Bind.bind, Except.bind]

theorem pure_eq_ok {a b : α} : (pure a : Except ε α) = .ok b ↔ a = b :=
  Except.ok.injEq a b ▸ Iff.rfl

theorem map_eq_ok {x : Except ε α} {f : α → β} {b : β} :
    x.map f = .ok b ↔ ∃ a, x = .ok a ∧ f a = b := by
  cases x <;> simp [Except.map]

theorem mapError_eq_ok {f : ε → δ} {x : Except ε α} {a : α} :
    Except.mapError f x = .ok a ↔ x = .ok a := by
  cases x <;> simp [Except.mapError]

theorem exists_error_iff {x : Except ε α} : (∃ e, x = .error e) ↔ ¬ ∃ a, x = .ok a := by
  cases x <;> simp

/-- A check after a step keeps what the step returned. -/
theorem bind_check_eq_ok {x : Except ε α} {check : Except ε PUnit} {a : α} :
    (do let b ← x; check; pure b) = .ok a ↔ x = .ok a ∧ check = .ok ⟨⟩ := by
  cases x <;> cases check <;> simp [Bind.bind, Except.bind, Pure.pure, Except.pure]

/-- What can be decided of a value that is computed. -/
theorem exists_ok {x : Except ε α} {P : α → Prop} [DecidablePred P]
    (h : x.toOption.any (fun a => decide (P a)) = true) : ∃ a, x = .ok a ∧ P a := by
  cases x with
  | error e => simp [Except.toOption] at h
  | ok a => exact ⟨a, rfl, by simpa [Except.toOption] using h⟩

theorem eq_ok_getD {x : Except ε α} (h : x.toOption.isSome = true) (a : α) :
    x = .ok (x.toOption.getD a) := by
  cases x with
  | error e => cases h
  | ok b => rfl

instance decidableEqError [DecidableEq ε] (x : Except ε α) (e : ε) : Decidable (x = .error e) :=
  match x with
  | .ok _ => isFalse nofun
  | .error e' => decidable_of_iff (e' = e) (by simp)

/-! ## Traversals -/

variable {f : α → Except ε β} {as : List α}

/-- The values are those of the elements, in their order. -/
theorem forall₂_of_mapM_eq_ok {bs : List β} (h : as.mapM f = .ok bs) :
    List.Forall₂ (fun a b => a ∈ as ∧ f a = .ok b) as bs := by
  induction as generalizing bs with
  | nil =>
    cases h
    exact .nil
  | cons a as ih =>
    rw [List.mapM_cons, bind_eq_ok] at h
    obtain ⟨b, hb, h⟩ := h
    obtain ⟨bs', hbs, h⟩ := bind_eq_ok.1 h
    cases h
    apply List.Forall₂.cons ⟨List.mem_cons_self, hb⟩
    exact (ih hbs).imp fun _ _ h => ⟨List.mem_cons_of_mem _ h.1, h.2⟩

theorem mapM_eq_ok_iff {bs : List β} :
    as.mapM f = .ok bs ↔ List.Forall₂ (fun a b => f a = .ok b) as bs := by
  constructor
  · exact fun h => (forall₂_of_mapM_eq_ok h).imp fun _ _ h => h.2
  · intro h
    induction h with
    | nil => rfl
    | cons hab _ ih =>
      rw [List.mapM_cons, bind_eq_ok]
      exact ⟨_, hab, bind_eq_ok.2 ⟨_, ih, rfl⟩⟩

theorem exists_mem_of_mapM_eq_ok {bs : List β} (h : as.mapM f = .ok bs) {a : α} (ha : a ∈ as) :
    ∃ b ∈ bs, f a = .ok b := by
  induction as generalizing bs with
  | nil => cases ha
  | cons a' as ih =>
    rw [List.mapM_cons, bind_eq_ok] at h
    obtain ⟨b, hb, h⟩ := h
    obtain ⟨bs', hbs, h⟩ := bind_eq_ok.1 h
    cases h
    rcases List.mem_cons.1 ha with rfl | ha
    · exact ⟨b, List.mem_cons_self, hb⟩
    · obtain ⟨b', hb', hab⟩ := ih hbs ha
      exact ⟨b', List.mem_cons_of_mem b hb', hab⟩

theorem exists_mem_of_mem_mapM {bs : List β} (h : as.mapM f = .ok bs) {b : β} (hb : b ∈ bs) :
    ∃ a ∈ as, f a = .ok b := by
  induction as generalizing bs with
  | nil =>
    cases h
    cases hb
  | cons a' as ih =>
    rw [List.mapM_cons, bind_eq_ok] at h
    obtain ⟨b', hb', h⟩ := h
    obtain ⟨bs', hbs, h⟩ := bind_eq_ok.1 h
    cases h
    rcases List.mem_cons.1 hb with rfl | hb
    · exact ⟨a', List.mem_cons_self, hb'⟩
    · obtain ⟨a, ha, hab⟩ := ih hbs hb
      exact ⟨a, List.mem_cons_of_mem a' ha, hab⟩

/-- The error is that of an element. -/
theorem exists_of_mapM_eq_error {e : ε} (h : as.mapM f = .error e) : ∃ a ∈ as, f a = .error e := by
  induction as with
  | nil => cases h
  | cons a as ih =>
    rw [List.mapM_cons, bind_eq_error] at h
    rcases h with h | ⟨_, -, h⟩
    · exact ⟨a, List.mem_cons_self, h⟩
    · rcases bind_eq_error.1 h with h | ⟨_, -, h⟩
      · obtain ⟨a', ha', he⟩ := ih h
        exact ⟨a', List.mem_cons_of_mem a ha', he⟩
      · cases h

theorem exists_mapM_iff : (∃ bs, as.mapM f = .ok bs) ↔ ∀ a ∈ as, ∃ b, f a = .ok b := by
  constructor
  · rintro ⟨bs, h⟩ a ha
    obtain ⟨b, -, hab⟩ := exists_mem_of_mapM_eq_ok h ha
    exact ⟨b, hab⟩
  · intro h
    cases hmap : as.mapM f with
    | ok bs => exact ⟨bs, rfl⟩
    | error e =>
      obtain ⟨a, ha, herror⟩ := exists_of_mapM_eq_error hmap
      obtain ⟨b, hab⟩ := h a ha
      rw [hab] at herror
      cases herror

/-! ## Traversals that may not end -/

/-- One value for each element, up to the first step that fails or does not end. -/
def collectAll (f : α → Option (Except ε β)) : List α → Option (Except ε (List β))
  | [] => some (.ok [])
  | a :: rest =>
    match f a with
    | none => none
    | some (.error e) => some (.error e)
    | some (.ok b) => (collectAll f rest).map (Except.map (b :: ·))

theorem collectAll_eq_ok {f : α → Option (Except ε β)} {as : List α} {bs : List β}
    (h : collectAll f as = some (.ok bs)) : List.Forall₂ (fun a b => f a = some (.ok b)) as bs := by
  induction as generalizing bs with
  | nil =>
    cases h
    exact .nil
  | cons a as ih =>
    rw [collectAll] at h
    split at h
    next => cases h
    next => cases h
    next b hb =>
      obtain ⟨r, hr, h⟩ := Option.map_eq_some_iff.mp h
      obtain ⟨rest, rfl, rfl⟩ := map_eq_ok.mp h
      exact .cons hb (ih hr)

end Fallible
