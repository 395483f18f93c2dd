-- SUMMARY: Patterns of tests and stars over a list, and the lists on which a pattern is settled by its tests alone.
import Mathlib.Data.List.Forall2
import Mathlib.Data.List.Infix

/-!
# Wildcards

A pattern is a list of items: a test takes one element, and a star takes any
number of them. A list that is as long as there are tests leaves nothing for the
stars.
-/

namespace Wildcard

variable {α : Type*}

inductive Item (α : Type*) where
  | star
  | one (test : α → Bool)

/-- The items take the whole list. -/
def accepts : List (Item α) → List α → Bool
  | [], s => s.isEmpty
  | .star :: items, s => s.tails.any fun rest => accepts items rest
  | .one _ :: _, [] => false
  | .one test :: items, a :: s => test a && accepts items s

/-- The tests, without the stars. -/
def tests : List (Item α) → List (α → Bool)
  | [] => []
  | .star :: items => tests items
  | .one test :: items => test :: tests items

/-- Each element passes the test at its place. -/
abbrev Pass (ts : List (α → Bool)) (s : List α) : Prop :=
  List.Forall₂ (fun test a => test a = true) ts s

theorem pass_nil {s : List α} : Pass [] s ↔ s = [] := List.forall₂_nil_left_iff

theorem accepts_nil {s : List α} : accepts [] s = true ↔ s = [] := List.isEmpty_iff

theorem accepts_star {items : List (Item α)} {s : List α} :
    accepts (.star :: items) s = true ↔
      ∃ before rest, before ++ rest = s ∧ accepts items rest = true := by
  rw [accepts, List.any_eq_true]
  constructor
  · rintro ⟨rest, hrest, h⟩
    obtain ⟨before, hbefore⟩ := (List.mem_tails rest s).mp hrest
    exact ⟨before, rest, hbefore, h⟩
  · rintro ⟨before, rest, rfl, h⟩
    exact ⟨rest, (List.mem_tails rest _).mpr (List.suffix_append before rest), h⟩

theorem accepts_one {test : α → Bool} {items : List (Item α)} {s : List α} :
    accepts (.one test :: items) s = true ↔
      ∃ a rest, s = a :: rest ∧ test a = true ∧ accepts items rest = true := by
  cases s with
  | nil => simp [accepts]
  | cons a rest => simp [accepts]

/-! ## Tests -/

/-- A pattern without stars is its tests. -/
theorem accepts_map_one (ts : List (α → Bool)) (s : List α) :
    accepts (ts.map .one) s = true ↔ Pass ts s := by
  induction ts generalizing s with
  | nil => rw [List.map_nil, accepts_nil, pass_nil]
  | cons test ts ih =>
    rw [List.map_cons, accepts_one]
    constructor
    · rintro ⟨a, rest, rfl, htest, hrest⟩
      exact .cons htest ((ih rest).mp hrest)
    · rintro (_ | ⟨htest, hrest⟩)
      exact ⟨_, _, rfl, htest, (ih _).mpr hrest⟩

/-- A star in front of tests leaves them the end of the list. -/
theorem accepts_star_map_one (ts : List (α → Bool)) (s : List α) :
    accepts (.star :: ts.map .one) s = true ↔
      ts.length ≤ s.length ∧ Pass ts (s.drop (s.length - ts.length)) := by
  rw [accepts_star]
  constructor
  · rintro ⟨before, rest, rfl, h⟩
    have hpass := (accepts_map_one ts rest).mp h
    have hlength := hpass.length_eq
    rw [List.length_append, hlength, Nat.add_sub_cancel, List.drop_left]
    exact ⟨Nat.le_add_left _ _, hpass⟩
  · rintro ⟨-, hpass⟩
    exact ⟨_, _, List.take_append_drop (s.length - ts.length) s, (accepts_map_one ts _).mpr hpass⟩

/-- Every test takes an element. -/
theorem length_tests_le {items : List (Item α)} {s : List α} (h : accepts items s = true) :
    (tests items).length ≤ s.length := by
  induction items generalizing s with
  | nil => exact Nat.zero_le _
  | cons item items ih =>
    cases item with
    | star =>
      obtain ⟨before, rest, rfl, hrest⟩ := accepts_star.mp h
      have hle := ih hrest
      rw [tests, List.length_append]
      omega
    | one test =>
      obtain ⟨a, rest, rfl, -, hrest⟩ := accepts_one.mp h
      exact Nat.succ_le_succ (ih hrest)

/-- On a list as long as there are tests, the stars take nothing. -/
theorem accepts_iff_pass {items : List (Item α)} {s : List α}
    (hlength : s.length = (tests items).length) :
    accepts items s = true ↔ Pass (tests items) s := by
  induction items generalizing s with
  | nil => rw [accepts_nil, tests, pass_nil]
  | cons item items ih =>
    cases item with
    | star =>
      rw [accepts_star, tests]
      constructor
      · rintro ⟨before, rest, rfl, hrest⟩
        have hle := length_tests_le hrest
        rw [tests, List.length_append] at hlength
        obtain rfl : before = [] := List.length_eq_zero_iff.mp (by omega)
        exact (ih (by rw [List.length_nil, Nat.zero_add] at hlength; exact hlength)).mp hrest
      · intro hpass
        exact ⟨[], s, rfl, (ih hlength).mpr hpass⟩
    | one test =>
      rw [accepts_one, tests]
      constructor
      · rintro ⟨a, rest, rfl, htest, hrest⟩
        exact .cons htest ((ih (Nat.succ.inj hlength)).mp hrest)
      · rintro (_ | ⟨htest, hrest⟩)
        exact ⟨_, _, rfl, htest, (ih (Nat.succ.inj hlength)).mpr hrest⟩

/-- A test that nothing passes refuses every list. -/
theorem accepts_eq_false {items : List (Item α)} {test : α → Bool} (hmem : .one test ∈ items)
    (htest : ∀ a, test a = false) (s : List α) : accepts items s = false := by
  rw [Bool.eq_false_iff]
  intro h
  induction items generalizing s with
  | nil => cases hmem
  | cons item items ih =>
    cases item with
    | star =>
      obtain ⟨before, rest, -, hrest⟩ := accepts_star.mp h
      have hmem' : .one test ∈ items := by simpa using hmem
      exact ih hmem' rest hrest
    | one test' =>
      obtain ⟨a, rest, -, hfirst, hrest⟩ := accepts_one.mp h
      cases List.mem_cons.mp hmem with
      | inl heq =>
        cases heq
        rw [htest a] at hfirst
        cases hfirst
      | inr hmem => exact ih hmem rest hrest

/-! ## Samples -/

/-- An element for a test, and none for a star. -/
inductive Sample : Item α → Option α → Prop where
  | star : Sample .star none
  | one (test : α → Bool) (a : α) : Sample (.one test) (some a)

/-- The sample passes, if it is one for a test. -/
def Passes (item : Item α) (a : Option α) : Prop :=
  ∀ test, item = .one test → ∀ b, a = some b → test b = true

/-- A list of samples, one for each test, is accepted if all of them pass. -/
theorem accepts_samples {β : Type*} {item : β → Item α} {sample : β → Option α} {bs : List β}
    (h : ∀ b ∈ bs, Sample (item b) (sample b)) :
    accepts (bs.map item) (bs.filterMap sample) = true ↔ ∀ b ∈ bs, Passes (item b) (sample b) := by
  have hpass : (bs.filterMap sample).length = (tests (bs.map item)).length ∧
      (Pass (tests (bs.map item)) (bs.filterMap sample) ↔
        ∀ b ∈ bs, Passes (item b) (sample b)) := by
    induction bs with
    | nil => exact ⟨rfl, by simp [tests]⟩
    | cons b bs ih =>
      obtain ⟨hlength, hiff⟩ := ih fun b' hb' => h b' (List.mem_cons_of_mem _ hb')
      have hb := h b List.mem_cons_self
      rw [List.forall_mem_cons, List.map_cons, ← hiff]
      generalize item b = it, hsample : sample b = sa at hb ⊢
      cases hb with
      | star =>
        rw [List.filterMap_cons_none hsample]
        refine ⟨hlength, ?_⟩
        rw [and_iff_right]
        · rfl
        · intro test heq
          cases heq
      | one test a =>
        rw [List.filterMap_cons_some hsample, tests, Pass, List.forall₂_cons]
        refine ⟨congrArg Nat.succ hlength, and_congr_left fun _ => ?_⟩
        constructor
        · rintro htest test' heq b heq'
          cases heq
          cases heq'
          exact htest
        · intro hpasses
          exact hpasses test rfl a rfl
  rw [accepts_iff_pass hpass.1, hpass.2]

end Wildcard
