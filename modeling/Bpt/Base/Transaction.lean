-- SUMMARY: Statements that change a state or fail, run one after another, and transactions that undo a failure.

/-!
# Statements and transactions

A statement changes a state and either returns a value or fails with an error.
When a statement fails, the changes made before it stay, unless it runs in a
transaction: a transaction that fails leaves the state it started from.
-/

namespace Transaction

/-- A statement. -/
abbrev Action (ε σ α : Type) := ExceptT ε (StateM σ) α

variable {ε σ α β : Type}

/-- Run a statement from a state. -/
def exec (x : Action ε σ α) (s : σ) : Except ε α × σ := x.run.run s

/-- Keep the changes of a statement that succeeds and undo those of one that fails. -/
def transaction (x : Action ε σ α) : Action ε σ α := fun s =>
  match exec x s with
  | (.ok a, s') => (.ok a, s')
  | (.error e, _) => (.error e, s)

@[simp] theorem exec_pure (a : α) (s : σ) : exec (pure a : Action ε σ α) s = (.ok a, s) := rfl

@[simp] theorem exec_throw (e : ε) (s : σ) :
    exec (throw e : Action ε σ α) s = (.error e, s) := rfl

@[simp] theorem exec_get (s : σ) : exec (get : Action ε σ σ) s = (.ok s, s) := rfl

@[simp] theorem exec_set (t s : σ) : exec (set t : Action ε σ PUnit) s = (.ok ⟨⟩, t) := rfl

@[simp] theorem exec_modify (f : σ → σ) (s : σ) :
    exec (modify f : Action ε σ PUnit) s = (.ok ⟨⟩, f s) := rfl

theorem exec_of_fst {x : Action ε σ α} {s : σ} {r : Except ε α} (h : (exec x s).1 = r) :
    exec x s = (r, (exec x s).2) := by
  rw [← h]

theorem exec_bind (x : Action ε σ α) (f : α → Action ε σ β) (s : σ) :
    exec (x >>= f) s = match exec x s with
      | (.ok a, s') => exec (f a) s'
      | (.error e, s') => (.error e, s') := by
  show (ExceptT.bind x f).run.run s = _
  unfold exec
  simp only [ExceptT.bind, ExceptT.run, ExceptT.mk, StateT.run_bind]
  cases h : StateT.run x s with
  | mk r s' => cases r <;> rfl

/-- A sequence succeeds when both statements do. -/
theorem exec_bind_eq_ok {x : Action ε σ α} {f : α → Action ε σ β} {s s' : σ} {b : β} :
    exec (x >>= f) s = (.ok b, s') ↔
      ∃ a t, exec x s = (.ok a, t) ∧ exec (f a) t = (.ok b, s') := by
  rw [exec_bind]
  cases h : exec x s with
  | mk r t =>
      cases r with
      | error e => simp
      | ok a =>
          simp only [Prod.mk.injEq, Except.ok.injEq]
          constructor
          · intro hf
            exact ⟨a, t, ⟨rfl, rfl⟩, hf⟩
          · rintro ⟨_, _, ⟨rfl, rfl⟩, hf⟩
            exact hf

theorem exec_transaction (x : Action ε σ α) (s : σ) :
    exec (transaction x) s = match exec x s with
      | (.ok a, s') => (.ok a, s')
      | (.error e, _) => (.error e, s) := rfl

theorem exec_transaction_eq_ok {x : Action ε σ α} {s s' : σ} {a : α} :
    exec (transaction x) s = (.ok a, s') ↔ exec x s = (.ok a, s') := by
  rw [exec_transaction]
  cases h : exec x s with
  | mk r t => cases r <;> simp

/-- A transaction that fails changes nothing. -/
theorem exec_transaction_error {x : Action ε σ α} {s s' : σ} {e : ε}
    (h : exec (transaction x) s = (.error e, s')) : s' = s := by
  rw [exec_transaction] at h
  cases hx : exec x s with
  | mk r t =>
      cases r with
      | ok a => simp [hx] at h
      | error e' =>
          rw [hx] at h
          exact (Prod.mk.inj h).2.symm

/-! ## Loops -/

/-- Run a statement for every item, in order. -/
def forEach (f : α → Action ε σ Unit) : List α → Action ε σ Unit
  | [] => pure ()
  | item :: rest => do
    f item
    forEach f rest

/-- The items of two lists are handled one list after the other. -/
theorem exec_forEach_append_eq_ok {f : α → Action ε σ Unit} {items more : List α} {s s' : σ} :
    exec (forEach f (items ++ more)) s = (.ok (), s') ↔
      ∃ t, exec (forEach f items) s = (.ok (), t) ∧ exec (forEach f more) t = (.ok (), s') := by
  induction items generalizing s with
  | nil =>
      constructor
      · exact fun h => ⟨s, rfl, h⟩
      · rintro ⟨_, ⟨⟩, h⟩
        exact h
  | cons item rest ih =>
      constructor
      · intro h
        obtain ⟨_, t, hitem, hrest⟩ := exec_bind_eq_ok.mp h
        obtain ⟨t', hrest, hmore⟩ := ih.mp hrest
        exact ⟨t', exec_bind_eq_ok.mpr ⟨(), t, hitem, hrest⟩, hmore⟩
      · rintro ⟨t', h, hmore⟩
        obtain ⟨_, t, hitem, hrest⟩ := exec_bind_eq_ok.mp h
        exact exec_bind_eq_ok.mpr ⟨(), t, hitem, ih.mpr ⟨t', hrest, hmore⟩⟩

/-- The rule for a loop: a relation between the items handled so far and the
state holds at the end when every step that succeeds keeps it. -/
theorem exec_forEach_eq_ok {f : α → Action ε σ Unit} {P : List α → σ → Prop} {items : List α}
    {s s' : σ} (hinit : P [] s)
    (hstep : ∀ handled item rest t t', items = handled ++ item :: rest → P handled t →
      exec (f item) t = (.ok (), t') → P (handled ++ [item]) t')
    (h : exec (forEach f items) s = (.ok (), s')) : P items s' := by
  suffices hsuffix : ∀ rest handled t, items = handled ++ rest → P handled t →
      exec (forEach f rest) t = (.ok (), s') → P items s' from hsuffix items [] s rfl hinit h
  intro rest
  induction rest with
  | nil =>
      intro handled t hitems hP hexec
      cases hexec
      rwa [hitems, List.append_nil]
  | cons item rest ih =>
      intro handled t hitems hP hexec
      obtain ⟨_, t', hitem, hrest⟩ := exec_bind_eq_ok.mp hexec
      refine ih (handled ++ [item]) t' ?_ (hstep handled item rest t t' hitems hP hitem) hrest
      rw [hitems, List.append_assoc, List.singleton_append]

/-- A loop succeeds when every step does, from the states that the steps before it leave. -/
theorem exec_forEach_ok {f : α → Action ε σ Unit} {items : List α} (I : σ → Prop)
    (hstep : ∀ item ∈ items, ∀ t, I t → ∃ t', exec (f item) t = (.ok (), t') ∧ I t') {s : σ}
    (hs : I s) : ∃ s', exec (forEach f items) s = (.ok (), s') := by
  induction items generalizing s with
  | nil => exact ⟨s, rfl⟩
  | cons item rest ih =>
      obtain ⟨t, hitem, ht⟩ := hstep item List.mem_cons_self s hs
      obtain ⟨s', hrest⟩ := ih (fun item' hitem' => hstep item' (List.mem_cons_of_mem _ hitem')) ht
      exact ⟨s', exec_bind_eq_ok.mpr ⟨(), t, hitem, hrest⟩⟩

/-! ## What statements keep -/

/-- The statement keeps a property of the state, whether it succeeds or fails. -/
def Keeps (P : σ → Prop) (x : Action ε σ α) : Prop := ∀ s, P s → P (exec x s).2

section

variable {P : σ → Prop} {x : Action ε σ α}

theorem Keeps.pure (a : α) : Keeps P (Pure.pure a : Action ε σ α) := fun _ hs => hs

theorem Keeps.throw (e : ε) : Keeps P (MonadExcept.throw e : Action ε σ α) := fun _ hs => hs

theorem Keeps.modify {f : σ → σ} (hf : ∀ s, P s → P (f s)) :
    Keeps P (modify f : Action ε σ PUnit) := fun s hs => hf s hs

theorem Keeps.bind (hx : Keeps P x) {f : α → Action ε σ β} (hf : ∀ a, Keeps P (f a)) :
    Keeps P (x >>= f) := by
  intro s hs
  have hmid := hx s hs
  rw [exec_bind]
  cases hexec : exec x s with
  | mk result t =>
      rw [hexec] at hmid
      cases result with
      | ok a => exact hf a t hmid
      | error e => exact hmid

/-- A statement that reads the state may use what is known of it. -/
theorem Keeps.get_bind {f : σ → Action ε σ β} (hf : ∀ s, P s → P (exec (f s) s).2) :
    Keeps P (get >>= f) := by
  intro s hs
  rw [exec_bind, exec_get]
  exact hf s hs

theorem Keeps.forEach {f : α → Action ε σ Unit} (hf : ∀ a, Keeps P (f a)) (items : List α) :
    Keeps P (forEach f items) := by
  induction items with
  | nil => exact Keeps.pure ()
  | cons item rest ih => exact (hf item).bind fun _ => ih

theorem Keeps.transaction (hx : Keeps P x) : Keeps P (transaction x) := by
  intro s hs
  have hend := hx s hs
  rw [exec_transaction]
  cases hexec : exec x s with
  | mk result t =>
      rw [hexec] at hend
      cases result with
      | ok a => exact hend
      | error e => exact hs

end

/-! ## What statements end with -/

/-- The statement ends with `Q` when it returns and with `E` when it fails. -/
def Ends (x : Action ε σ α) (s : σ) (Q : α → σ → Prop) (E : ε → σ → Prop) : Prop :=
  match exec x s with
  | (.ok a, s') => Q a s'
  | (.error e, s') => E e s'

section

variable {x : Action ε σ α} {s : σ} {Q : α → σ → Prop} {E : ε → σ → Prop}

@[simp] theorem ends_pure {a : α} : Ends (pure a : Action ε σ α) s Q E ↔ Q a s := Iff.rfl

@[simp] theorem ends_throw {e : ε} : Ends (throw e : Action ε σ α) s Q E ↔ E e s := Iff.rfl

@[simp] theorem ends_modify {f : σ → σ} {Q : PUnit → σ → Prop} :
    Ends (modify f : Action ε σ PUnit) s Q E ↔ Q ⟨⟩ (f s) := Iff.rfl

@[simp] theorem ends_map {f : α → β} {Q : β → σ → Prop} :
    Ends (f <$> x) s Q E ↔ Ends x s (fun a => Q (f a)) E := by
  rw [map_eq_pure_bind]
  unfold Ends
  rw [exec_bind]
  cases hexec : exec x s with
  | mk result t => cases result <;> rfl

theorem ends_bind {f : α → Action ε σ β} {Q : β → σ → Prop} :
    Ends (x >>= f) s Q E ↔ Ends x s (fun a s' => Ends (f a) s' Q E) E := by
  unfold Ends
  rw [exec_bind]
  cases hexec : exec x s with
  | mk result t => cases result <;> rfl

theorem ends_get_bind {f : σ → Action ε σ β} {Q : β → σ → Prop} :
    Ends (get >>= f) s Q E ↔ Ends (f s) s Q E := ends_bind

theorem Ends.mono {Q' : α → σ → Prop} {E' : ε → σ → Prop} (h : Ends x s Q E)
    (hQ : ∀ a t, Q a t → Q' a t) (hE : ∀ e t, E e t → E' e t) : Ends x s Q' E' := by
  unfold Ends at *
  cases hexec : exec x s with
  | mk result t =>
      rw [hexec] at h
      cases result with
      | ok a => exact hQ a t h
      | error e => exact hE e t h

theorem Ends.bind {f : α → Action ε σ β} {P : α → σ → Prop} {Q : β → σ → Prop}
    (hx : Ends x s P E) (hf : ∀ a t, P a t → Ends (f a) t Q E) : Ends (x >>= f) s Q E :=
  ends_bind.mpr (hx.mono hf fun _ _ h => h)

end

end Transaction
