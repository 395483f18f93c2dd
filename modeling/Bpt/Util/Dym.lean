-- SUMMARY: The table of edit distances that a misspelled name is compared with the known ones by.
import Bpt.Base.EditScript
import Bpt.Base.Iota

/-!
# Did you mean

The distance between two strings is found in a table with a row for each prefix of `b`
and a column for each prefix of `a`.
-/

namespace Bpt

open EditDistance

/-! ## The table -/

abbrev Matrix (rows columns : Nat) := Vector (Vector Nat columns) rows

namespace Matrix

variable {rows columns : Nat}

def cell (m : Matrix rows columns) (row col : Nat) : Nat :=
  (m[row]?.bind fun cells => cells[col]?).getD 0

def assign (m : Matrix rows columns) (row col value : Nat) : Matrix rows columns :=
  m.setIfInBounds row ((m[row]?.getD (.replicate columns 0)).setIfInBounds col value)

theorem cell_assign {m : Matrix rows columns} {row col value row' col' : Nat} (hrow : row < rows)
    (hcol : col < columns) :
    (m.assign row col value).cell row' col' = if row' = row ∧ col' = col then value else m.cell row' col' := by
  unfold cell assign
  rw [Vector.getElem?_setIfInBounds]
  split
  next heq =>
    subst heq
    rw [Vector.getElem?_eq_getElem hrow, Option.getD_some, Option.bind_some, Option.bind_some,
      Vector.getElem?_setIfInBounds]
    by_cases hcol' : col = col'
    · subst hcol'
      rw [if_pos rfl, if_pos hcol, if_pos ⟨rfl, rfl⟩, Option.getD_some]
    · rw [if_neg hcol', if_neg fun h => hcol' h.2.symm]
  next hne => rw [if_neg fun h => hne h.1.symm]

end Matrix

/-! ## The loops -/

variable {a b : List UInt8}

/-- The cell from its three neighbours. -/
def levStep (a b : List UInt8) (row col : Nat)
    (matrix : Matrix (b.length + 1) (a.length + 1)) : Matrix (b.length + 1) (a.length + 1) :=
  let cost := if a[col - 1]? = b[row - 1]? then 0 else 1
  let t1 := matrix.cell (row - 1) col + 1
  let t2 := matrix.cell row (col - 1) + 1
  let t3 := matrix.cell (row - 1) (col - 1) + cost
  matrix.assign row col (min (min t1 t2) t3)

/-- The loops count in the type of the literal of `iota(1u, …)`. -/
def firstRow (a b : List UInt8) (fuel : Nat) (matrix : Matrix (b.length + 1) (a.length + 1)) :
    Option (Matrix (b.length + 1) (a.length + 1)) :=
  Iota.forEach (fun n m => some (Matrix.assign m 0 n.toNat n.toNat)) (a.length + 1) fuel 1 matrix

def firstColumn (a b : List UInt8) (fuel : Nat) (matrix : Matrix (b.length + 1) (a.length + 1)) :
    Option (Matrix (b.length + 1) (a.length + 1)) :=
  Iota.forEach (fun n m => some (Matrix.assign m n.toNat 0 n.toNat)) (b.length + 1) fuel 1 matrix

/-- The columns of one row of the product of the counters. -/
def nextRow (a b : List UInt8) (fuel : Nat) (row : UInt32)
    (matrix : Matrix (b.length + 1) (a.length + 1)) :
    Option (Matrix (b.length + 1) (a.length + 1)) :=
  Iota.forEach (fun col m => some (levStep a b row.toNat col.toNat m)) (a.length + 1) fuel 1 matrix

/-- `lev_edit_distance` with fuel for each loop. -/
def levEditDistance (fuel : Nat) (a b : List UInt8) : Option Nat := do
  let matrix ← firstRow a b fuel (.replicate _ (.replicate _ 0))
  let matrix ← firstColumn a b fuel matrix
  let matrix ← Iota.forEach (nextRow a b fuel) (b.length + 1) fuel 1 matrix
  return matrix.back.back

/-! ## What the cells hold -/

/-- The cells of the places `P` hold the distances of the prefixes they stand for. -/
def Filled (a b : List UInt8) (P : Nat → Nat → Prop)
    (m : Matrix (b.length + 1) (a.length + 1)) : Prop :=
  ∀ row col, row ≤ b.length → col ≤ a.length → P row col →
    IsEditDistance (a.take col) (b.take row) (m.cell row col)

variable {P P' : Nat → Nat → Prop} {m m' : Matrix (b.length + 1) (a.length + 1)} {fuel n : Nat}

/-- One cell more is filled. -/
theorem Filled.assign {row col value : Nat} (h : Filled a b P m) (hrow : row ≤ b.length)
    (hcol : col ≤ a.length) (hvalue : IsEditDistance (a.take col) (b.take row) value)
    (hP : ∀ row' col', P' row' col' → P row' col' ∨ row' = row ∧ col' = col) :
    Filled a b P' (m.assign row col value) := by
  intro row' col' hrow' hcol' hplace
  rw [Matrix.cell_assign (Nat.lt_succ_of_le hrow) (Nat.lt_succ_of_le hcol)]
  split
  next hsame =>
    obtain ⟨rfl, rfl⟩ := hsame
    exact hvalue
  next hother => exact h row' col' hrow' hcol' ((hP row' col' hplace).resolve_right hother)

theorem Filled.mono (h : Filled a b P m)
    (hP : ∀ row col, row ≤ b.length → col ≤ a.length → P' row col → P row col) :
    Filled a b P' m := by
  intro row col hrow hcol hplace
  exact h row col hrow hcol (hP row col hrow hcol hplace)

theorem filled_start :
    Filled a b (fun row col => row = 0 ∧ col = 0) (.replicate _ (.replicate _ 0)) := by
  rintro row col - - ⟨rfl, rfl⟩
  have hcell : Matrix.cell (.replicate (b.length + 1) (.replicate (a.length + 1) 0)) 0 0 = 0 := by
    simp [Matrix.cell]
  rw [hcell]
  exact .left_nil []

theorem distance_first_row {col : Nat} (hcol : col ≤ a.length) :
    IsEditDistance (a.take col) (b.take 0) col := by
  have h := IsEditDistance.right_nil (a.take col)
  rwa [List.length_take_of_le hcol] at h

theorem distance_first_column {row : Nat} (hrow : row ≤ b.length) :
    IsEditDistance (a.take 0) (b.take row) row := by
  have h := IsEditDistance.left_nil (b.take row)
  rwa [List.length_take_of_le hrow] at h

/-- A cell is filled from its neighbours. -/
theorem Filled.levStep {i j : Nat} (h : Filled a b P m) (hi : i < b.length) (hj : j < a.length)
    (habove : P i (j + 1)) (hleft : P (i + 1) j) (hdiagonal : P i j)
    (hP : ∀ row' col', P' row' col' → P row' col' ∨ row' = i + 1 ∧ col' = j + 1) :
    Filled a b P' (Bpt.levStep a b (i + 1) (j + 1) m) := by
  have habove := h i (j + 1) hi.le hj habove
  have hleft := h (i + 1) j hi hj.le hleft
  have hdiagonal := h i j hi.le hj.le hdiagonal
  unfold Bpt.levStep
  apply h.assign hi hj _ hP
  rw [List.take_succ_eq_append_getElem hj] at habove ⊢
  rw [List.take_succ_eq_append_getElem hi] at hleft ⊢
  rw [Nat.add_sub_cancel, Nat.add_sub_cancel, List.getElem?_eq_getElem hj,
    List.getElem?_eq_getElem hi]
  simp only [Option.some.injEq]
  exact .concat hleft habove hdiagonal

/-! ## Runs -/

theorem Filled.firstRow (h : Bpt.firstRow a b fuel m = some m')
    (hstart : Filled a b (fun row col => row = 0 ∧ col = 0) m) :
    Filled a b (fun row _ => row = 0) m' := by
  have hrule := Iota.forEach_rule (I := fun n => Filled a b fun row col => row = 0 ∧ col < n)
    ?_ h (Nat.le_add_left 1 a.length) (hstart.mono ?_)
  · apply hrule.mono
    intro row col _ hcol hplace
    exact ⟨hplace, Nat.lt_succ_of_le hcol⟩
  · intro n m₁ m₂ hn hfilled hstep
    cases hstep
    apply hfilled.assign (Nat.zero_le _) (by omega) (distance_first_row (by omega))
    intro row col
    omega
  · intro row col
    rw [UInt32.toNat_one]
    omega

theorem Filled.firstColumn (h : Bpt.firstColumn a b fuel m = some m')
    (hrow : Filled a b (fun row _ => row = 0) m) :
    Filled a b (fun row col => row = 0 ∨ col = 0) m' := by
  have hrule := Iota.forEach_rule
    (I := fun n => Filled a b fun row col => row = 0 ∨ col = 0 ∧ row < n)
    ?_ h (Nat.le_add_left 1 b.length) (hrow.mono ?_)
  · apply hrule.mono
    intro row col hrow _ hplace
    exact hplace.imp id fun hcol => ⟨hcol, Nat.lt_succ_of_le hrow⟩
  · intro n m₁ m₂ hn hfilled hstep
    cases hstep
    apply hfilled.assign (by omega) (Nat.zero_le _) (distance_first_column (by omega))
    intro row col
    omega
  · intro row col
    rw [UInt32.toNat_one]
    omega

/-- The loop over the columns fills a row below one that is filled. -/
theorem Filled.nextRow {row : UInt32} (hrow : 0 < row.toNat) (hrow' : row.toNat ≤ b.length)
    (h : Bpt.nextRow a b fuel row m = some m')
    (hfilled : Filled a b (fun row' col' => row' < row.toNat ∨ col' = 0) m) :
    Filled a b (fun row' col' => row' < row.toNat + 1 ∨ col' = 0) m' := by
  obtain ⟨i, hi⟩ := Nat.exists_eq_add_one_of_ne_zero hrow.ne'
  unfold Bpt.nextRow at h
  rw [hi] at h hrow' hfilled ⊢
  have hrule := Iota.forEach_rule (I := fun n m => 0 < n ∧
    Filled a b (fun row col => row < i + 1 ∨ col = 0 ∨ row = i + 1 ∧ col < n) m)
    ?_ h (Nat.le_add_left 1 a.length) ⟨Nat.one_pos, hfilled.mono ?_⟩
  · apply hrule.2.mono
    intro row' col' _ hcol hplace
    omega
  · rintro n m₁ m₂ hn ⟨hpos, hfilled⟩ hstep
    cases hstep
    obtain ⟨j, hj⟩ := Nat.exists_eq_add_one_of_ne_zero hpos.ne'
    rw [hj] at hn hfilled ⊢
    refine ⟨Nat.succ_pos _,
      hfilled.levStep hrow' (by omega) (by omega) (by omega) (by omega) ?_⟩
    intro row' col'
    omega
  · intro row' col'
    rw [UInt32.toNat_one]
    omega

/-- The loop over the rows fills the table. -/
theorem Filled.rows (h : Iota.forEach (Bpt.nextRow a b fuel) (b.length + 1) fuel 1 m = some m')
    (hfilled : Filled a b (fun row col => row = 0 ∨ col = 0) m) :
    Filled a b (fun _ _ => True) m' := by
  have hrule := Iota.forEach_rule
    (I := fun n m => 0 < n ∧ Filled a b (fun row col => row < n ∨ col = 0) m)
    ?_ h (Nat.le_add_left 1 b.length) ⟨Nat.one_pos, hfilled.mono ?_⟩
  · apply hrule.2.mono
    intro row col hrow _ _
    exact .inl (Nat.lt_succ_of_le hrow)
  · rintro n m₁ m₂ hn ⟨hpos, hfilled⟩ hstep
    exact ⟨Nat.succ_pos _, hfilled.nextRow hpos (by omega) hstep⟩
  · intro row col
    rw [UInt32.toNat_one]
    omega

theorem levEditDistance_eq_some : levEditDistance fuel a b = some n ↔
    ∃ m₁ m₂ m₃, firstRow a b fuel (.replicate _ (.replicate _ 0)) = some m₁ ∧
      firstColumn a b fuel m₁ = some m₂ ∧
      Iota.forEach (nextRow a b fuel) (b.length + 1) fuel 1 m₂ = some m₃ ∧
      m₃.cell b.length a.length = n := by
  have hback : ∀ m : Matrix (b.length + 1) (a.length + 1),
      m.back.back = m.cell b.length a.length := by
    intro m
    simp [Matrix.cell, Vector.back]
  unfold levEditDistance
  simp only [Option.bind_eq_bind, Option.bind_eq_some_iff, hback, Option.pure_def,
    Option.some.injEq]
  constructor
  · rintro ⟨m₁, h₁, m₂, h₂, m₃, h₃, h⟩
    exact ⟨m₁, m₂, m₃, h₁, h₂, h₃, h⟩
  · rintro ⟨m₁, m₂, m₃, h₁, h₂, h₃, h⟩
    exact ⟨m₁, h₁, m₂, h₂, m₃, h₃, h⟩

/-- A number that is returned is the edit distance. -/
theorem isEditDistance_of_levEditDistance (h : levEditDistance fuel a b = some n) :
    IsEditDistance a b n := by
  obtain ⟨m₁, m₂, m₃, h₁, h₂, h₃, rfl⟩ := levEditDistance_eq_some.mp h
  have hfilled := ((filled_start.firstRow h₁).firstColumn h₂).rows h₃
  have hlast := hfilled b.length a.length (Nat.le_refl _) (Nat.le_refl _) trivial
  rwa [List.take_length, List.take_length] at hlast

/-- A number is returned when both counters hold their bounds. -/
theorem exists_levEditDistance (ha : a.length + 1 < 2 ^ 32) (hb : b.length + 1 < 2 ^ 32)
    (hfuela : a.length < fuel) (hfuelb : b.length < fuel) :
    ∃ n, levEditDistance fuel a b = some n := by
  obtain ⟨m₁, h₁⟩ := Iota.exists_forEach (n := 1) ha (fun n m => ⟨_, rfl⟩)
    (Nat.le_add_left 1 a.length) hfuela
  obtain ⟨m₂, h₂⟩ := Iota.exists_forEach (n := 1) hb (fun n m => ⟨_, rfl⟩)
    (Nat.le_add_left 1 b.length) hfuelb
  have hrow : ∀ row m, ∃ m', nextRow a b fuel row m = some m' := fun row m =>
    Iota.exists_forEach (n := 1) ha (fun n m => ⟨_, rfl⟩) (Nat.le_add_left 1 a.length) hfuela
  obtain ⟨m₃, h₃⟩ := Iota.exists_forEach (n := 1) hb hrow (Nat.le_add_left 1 b.length) hfuelb
  exact ⟨_, levEditDistance_eq_some.mpr ⟨m₁, m₂, m₃, h₁, h₂, h₃, rfl⟩⟩

/-- No number is returned when one of them does not. -/
theorem lengths_of_levEditDistance (h : levEditDistance fuel a b = some n) :
    a.length + 1 < 2 ^ 32 ∧ b.length + 1 < 2 ^ 32 := by
  obtain ⟨m₁, m₂, m₃, h₁, h₂, -, -⟩ := levEditDistance_eq_some.mp h
  exact ⟨Iota.lt_of_forEach h₁, Iota.lt_of_forEach h₂⟩

/-! ## The edit distance -/

/-- The call returns `n`. -/
def Returns (a b : List UInt8) (n : Nat) : Prop := ∃ fuel, levEditDistance fuel a b = some n

/-- The distance of `a` and `b` is returned, and what is returned is a distance. -/
structure ComputesEditDistance (a b : List UInt8) : Prop where
  returns : ∃ n, Returns a b n ∧ IsEditDistance a b n
  symm : ∀ n, Returns a b n → Returns b a n
  zero : Returns a b 0 ↔ a = b
  triangle : ∀ c n m k, Returns a b n → Returns b c m → Returns a c k → k ≤ n + m

/-- The distance is computed when the counters hold the bounds of the loops, and only then. -/
theorem computesEditDistance_iff (a b : List UInt8) :
    ComputesEditDistance a b ↔ a.length + 1 < 2 ^ 32 ∧ b.length + 1 < 2 ^ 32 := by
  have hdistance : ∀ {a b n}, Returns a b n → IsEditDistance a b n := by
    rintro a b n ⟨fuel, h⟩
    exact isEditDistance_of_levEditDistance h
  have hreturns : ∀ {a b : List UInt8}, a.length + 1 < 2 ^ 32 → b.length + 1 < 2 ^ 32 →
      ∃ n, Returns a b n := by
    intro a b ha hb
    obtain ⟨n, h⟩ : ∃ n, levEditDistance (a.length + b.length + 1) a b = some n :=
      exists_levEditDistance ha hb (by omega) (by omega)
    exact ⟨n, _, h⟩
  constructor
  · intro h
    obtain ⟨n, ⟨fuel, hn⟩, -⟩ := h.returns
    exact lengths_of_levEditDistance hn
  · rintro ⟨ha, hb⟩
    obtain ⟨n, hn⟩ := hreturns ha hb
    refine ⟨⟨n, hn, hdistance hn⟩, ?_, ?_, ?_⟩
    · intro k hk
      obtain ⟨m, hm⟩ := hreturns hb ha
      have heq := (hdistance hk).symm.unique (hdistance hm)
      exact heq ▸ hm
    · constructor
      · exact fun hzero => (hdistance hzero).eq_zero_iff.mp rfl
      · intro heq
        have hzero := (hdistance hn).eq_zero_iff.mpr heq
        exact hzero ▸ hn
    · intro c n m k hn hm hk
      exact (hdistance hn).triangle (hdistance hm) (hdistance hk)

/-- The counter of the first loop never is `2 ^ 32`. -/
theorem not_computesEditDistance_long :
    ¬ ComputesEditDistance (.replicate (2 ^ 32 - 1) 'a'.toUInt8) [] := by
  intro h
  obtain ⟨n, ⟨fuel, hn⟩, -⟩ := h.returns
  have hlength := (lengths_of_levEditDistance hn).1
  rw [List.length_replicate] at hlength
  exact absurd hlength (by decide)

example : levEditDistance 3 [97, 97] [97] = some 1 := by decide +kernel

end Bpt
