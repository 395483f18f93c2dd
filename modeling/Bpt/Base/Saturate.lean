-- SUMMARY: A set grown along successors until nothing is added, and its reachability characterisation.
import Mathlib.Data.Finset.Card
import Mathlib.Data.Finset.Union
import Mathlib.Logic.Relation

/-!
# Saturation

A finite set is extended by the successors of its members, round after round,
until a round adds nothing. A member may have no successor set at all, in which
case the computation fails. The result is the set of everything reachable, and
the failure is the reachability of a member without successors.
-/

namespace Saturate

variable {α : Type*} {next : α → Option (Finset α)} {U s t : Finset α}

/-- `b` is a successor of `a`. -/
def Edge (next : α → Option (Finset α)) (a b : α) : Prop := ∃ t, next a = some t ∧ b ∈ t

/-- Reachability from a set. -/
def Reach (next : α → Option (Finset α)) (s : Finset α) (b : α) : Prop :=
  ∃ a ∈ s, Relation.ReflTransGen (Edge next) a b

theorem Reach.of_mem {b : α} (h : b ∈ s) : Reach next s b := ⟨b, h, .refl⟩

theorem Reach.tail {b c : α} (h : Reach next s b) (hbc : Edge next b c) : Reach next s c := by
  obtain ⟨a, ha, hab⟩ := h
  exact ⟨a, ha, hab.tail hbc⟩

/-- What holds in the set and is passed on to successors holds of all it reaches. -/
theorem Reach.induction {P : α → Prop} (hinit : ∀ a ∈ s, P a)
    (hstep : ∀ a b, P a → Edge next a b → P b) {b : α} (h : Reach next s b) : P b := by
  obtain ⟨a, ha, hab⟩ := h
  induction hab with
  | refl => exact hinit a ha
  | tail _ hbc ih => exact hstep _ _ ih hbc

/-- A set closed under successors contains what it reaches. -/
theorem mem_of_reach (hclosed : ∀ a ∈ s, ∀ b, Edge next a b → b ∈ s) {b : α}
    (h : Reach next s b) : b ∈ s :=
  h.induction (fun _ ha => ha) fun a b ha hab => hclosed a ha b hab

variable [DecidableEq α]

/-- Add the successors of all members. -/
def round (next : α → Option (Finset α)) (s : Finset α) : Option (Finset α) :=
  if ∀ a ∈ s, (next a).isSome then some (s ∪ s.biUnion fun a => (next a).getD ∅) else none

theorem round_eq_none : round next s = none ↔ ∃ a ∈ s, next a = none := by
  simp [round]

theorem mem_round (h : round next s = some t) {b : α} :
    b ∈ t ↔ b ∈ s ∨ ∃ a ∈ s, Edge next a b := by
  unfold round at h
  split at h
  next hall =>
    cases h
    simp only [Finset.mem_union, Finset.mem_biUnion]
    refine or_congr Iff.rfl (exists_congr fun a => and_congr_right fun ha => ?_)
    obtain ⟨u, hu⟩ := Option.isSome_iff_exists.mp (hall a ha)
    simp [Edge, hu]
  next => cases h

theorem subset_round (h : round next s = some t) : s ⊆ t :=
  fun _ hb => (mem_round h).mpr (.inl hb)

/-- A round that adds something leaves less to add. -/
theorem card_round_lt (hU : ∀ a u, next a = some u → u ⊆ U) (h : round next s = some t)
    (hts : ¬ t ⊆ s) : (U \ t).card < (U \ s).card := by
  apply Finset.card_lt_card
  refine ⟨Finset.sdiff_subset_sdiff (Finset.Subset.refl U) (subset_round h), fun hsub => hts ?_⟩
  intro b hb
  rcases (mem_round h).mp hb with hbs | ⟨a, _, u, hu, hbu⟩
  · exact hbs
  · by_contra hbs
    have hmem := hsub (Finset.mem_sdiff.mpr ⟨hU a u hu hbu, hbs⟩)
    exact (Finset.mem_sdiff.mp hmem).2 hb

/-- Repeat `round` until it adds nothing. All successors lie in `U`. -/
def saturate (next : α → Option (Finset α)) (U : Finset α)
    (hU : ∀ a u, next a = some u → u ⊆ U) (s : Finset α) : Option (Finset α) :=
  match _h : round next s with
  | none => none
  | some more => if _hsub : more ⊆ s then some s else saturate next U hU more
termination_by (U \ s).card
decreasing_by exact card_round_lt hU _h _hsub

/-- A round that adds nothing ends the computation. -/
theorem saturate_of_round (hU : ∀ a u, next a = some u → u ⊆ U) (h : round next s = some t)
    (hts : t ⊆ s) : saturate next U hU s = some s := by
  rw [saturate]
  split
  next hnone => cases h.symm.trans hnone
  next more hmore =>
    obtain rfl := Option.some.inj (h.symm.trans hmore)
    rw [dif_pos hts]

/-! ## Characterisation -/

theorem reach_round (h : round next s = some t) {b : α} : Reach next t b ↔ Reach next s b := by
  constructor
  · rintro ⟨a, ha, hab⟩
    rcases (mem_round h).mp ha with has | ⟨c, hc, hca⟩
    · exact ⟨a, has, hab⟩
    · exact ⟨c, hc, .head hca hab⟩
  · rintro ⟨a, ha, hab⟩
    exact ⟨a, subset_round h ha, hab⟩

private theorem mem_iff_reach_of_fixed (h : round next s = some t) (hts : t ⊆ s) (b : α) :
    b ∈ s ↔ Reach next s b :=
  ⟨Reach.of_mem, mem_of_reach fun a ha _ hac => hts ((mem_round h).mpr (.inr ⟨a, ha, hac⟩))⟩

/-- The computation fails exactly when it reaches a member without successors. -/
theorem saturate_eq_none (hU : ∀ a u, next a = some u → u ⊆ U) :
    saturate next U hU s = none ↔ ∃ b, Reach next s b ∧ next b = none := by
  fun_induction saturate next U hU s with
  | case1 s h =>
      obtain ⟨a, ha, hnone⟩ := round_eq_none.mp h
      exact iff_of_true rfl ⟨a, .of_mem ha, hnone⟩
  | case2 s more h hsub =>
      refine iff_of_false (Option.some_ne_none s) ?_
      rintro ⟨b, hb, hnone⟩
      have hbs := (mem_iff_reach_of_fixed h hsub b).mpr hb
      have hround := round_eq_none.mpr ⟨b, hbs, hnone⟩
      cases h.symm.trans hround
  | case3 s more h hsub ih =>
      rw [ih]
      exact exists_congr fun b => and_congr_left' (reach_round h)

/-- What the computation returns is everything reachable. -/
theorem mem_saturate (hU : ∀ a u, next a = some u → u ⊆ U) (h : saturate next U hU s = some t)
    (b : α) : b ∈ t ↔ Reach next s b := by
  fun_induction saturate next U hU s with
  | case1 => cases h
  | case2 s more hround hsub =>
      cases h
      exact mem_iff_reach_of_fixed hround hsub b
  | case3 s more hround hsub ih => rw [ih h, reach_round hround]

end Saturate
