-- SUMMARY: How the components of a path are split among those of a glob, by a match and by a scan.
import Mathlib.Data.List.Infix
import Mathlib.Data.List.Nodup
import Bpt.Util.Glob

/-!
# Splits of a path

A split gives each `**` of a glob but a final one the number of path components
that it takes. `Split` are the splits that a match looks for. `ShiftedSplit` are
the splits that a scan finds: after `**` it goes on with the next component of
the glob one path component too late, and it stops at a file.
-/

namespace Bpt

/-! ## Splits of a match -/

inductive Split : List RglobItem → List String → List Nat → Prop where
  | nil : Split [] [] []
  | pattern {pattern : Fnmatch.Pattern} {items : List RglobItem} {c : String} {path : List String}
      {taken : List Nat} (hc : pattern.isMatch c = true) (h : Split items path taken) :
      Split (some pattern :: items) (c :: path) taken
  /-- A final `**` takes all that is left, which is not nothing. -/
  | last {c : String} {path : List String} : Split [none] (c :: path) []
  | rglob {next : RglobItem} {items : List RglobItem} {path : List String} {taken : List Nat}
      (h : Split (next :: items) path taken) : Split (none :: next :: items) path (0 :: taken)
  | more {next : RglobItem} {items : List RglobItem} {c : String} {path : List String} {n : Nat}
      {taken : List Nat} (h : Split (none :: next :: items) path (n :: taken)) :
      Split (none :: next :: items) (c :: path) ((n + 1) :: taken)

theorem Split.of_suffix {next : RglobItem} {items : List RglobItem} {path : List String}
    {taken : List Nat} (h : Split (next :: items) path taken) (before : List String) :
    Split (none :: next :: items) (before ++ path) (before.length :: taken) := by
  induction before with
  | nil => exact .rglob h
  | cons c before ih => exact .more ih

theorem Split.exists_suffix {next : RglobItem} {items : List RglobItem} {path : List String}
    {taken : List Nat} (h : Split (none :: next :: items) path taken) :
    ∃ before rest taken', path = before ++ rest ∧ Split (next :: items) rest taken' := by
  generalize hitems : none :: next :: items = all at h
  induction h with
  | nil => cases hitems
  | pattern => cases hitems
  | last => cases hitems
  | rglob h =>
      cases hitems
      exact ⟨[], _, _, rfl, h⟩
  | more h ih =>
      obtain ⟨before, rest, taken', rfl, hrest⟩ := ih hitems
      exact ⟨_ :: before, rest, taken', rfl, hrest⟩

/-- A glob does not match an empty path. -/
theorem not_split_nil {next : RglobItem} {items : List RglobItem} {taken : List Nat} :
    ¬ Split (next :: items) [] taken := by
  generalize hitems : next :: items = all
  generalize hpath : ([] : List String) = path
  intro h
  induction h generalizing next items with
  | nil => cases hitems
  | pattern => cases hpath
  | last => cases hpath
  | rglob _ ih => exact ih rfl hpath
  | more => cases hpath

/-- A match is a split. -/
theorem checkMatches_iff (items : List RglobItem) (path : List String) :
    checkMatches items path = true ↔ ∃ taken, Split items path taken := by
  fun_induction checkMatches items path with
  | case1 => exact ⟨fun _ => ⟨[], .nil⟩, fun _ => rfl⟩
  | case2 c path =>
      refine ⟨nofun, ?_⟩
      rintro ⟨taken, ⟨⟩⟩
  | case3 item items =>
      refine ⟨nofun, ?_⟩
      rintro ⟨taken, h⟩
      exact absurd h not_split_nil
  | case4 pattern items c path ih =>
      rw [Bool.and_eq_true, ih]
      constructor
      · rintro ⟨hc, taken, h⟩
        exact ⟨taken, .pattern hc h⟩
      · rintro ⟨taken, h⟩
        cases h with
        | pattern hc h => exact ⟨hc, taken, h⟩
  | case5 => exact ⟨fun _ => ⟨[], .last⟩, fun _ => rfl⟩
  | case6 next items c path ih =>
      simp only [List.any_eq_true, List.mem_tails, Bool.and_eq_true]
      constructor
      · rintro ⟨rest, ⟨before, hpath⟩, _, hmatch⟩
        obtain ⟨taken, h⟩ := (ih rest).mp hmatch
        exact ⟨before.length :: taken, hpath ▸ h.of_suffix before⟩
      · rintro ⟨taken, h⟩
        obtain ⟨before, rest, taken', hpath, hrest⟩ := h.exists_suffix
        refine ⟨rest, ⟨before, hpath.symm⟩, ?_, (ih rest).mpr ⟨taken', hrest⟩⟩
        cases rest with
        | nil => exact absurd hrest not_split_nil
        | cons => rfl

theorem checkMatches_nil {items : List RglobItem} (hne : items ≠ []) :
    checkMatches items [] = false := by
  cases items with
  | nil => exact absurd rfl hne
  | cons item items => simp [checkMatches]

theorem checkMatches_pattern {pattern : Fnmatch.Pattern} {items : List RglobItem} {c : String}
    {path : List String} :
    checkMatches (some pattern :: items) (c :: path) = true ↔
      pattern.isMatch c = true ∧ checkMatches items path = true := by
  rw [checkMatches, Bool.and_eq_true]

/-- What follows `**` begins at once or further below. -/
theorem checkMatches_rglob {items : List RglobItem} (hne : items ≠ []) {c : String}
    {path : List String} :
    checkMatches (none :: items) (c :: path) = true ↔
      checkMatches items (c :: path) = true ∨ checkMatches (none :: items) path = true := by
  obtain ⟨next, items, rfl⟩ := List.exists_cons_of_ne_nil hne
  simp only [checkMatches_iff]
  constructor
  · rintro ⟨taken, h⟩
    cases h with
    | rglob h => exact .inl ⟨_, h⟩
    | more h => exact .inr ⟨_, h⟩
  · rintro (⟨taken, h⟩ | ⟨taken, h⟩)
    · exact ⟨_, .rglob h⟩
    · obtain ⟨before, rest, taken', rfl, hrest⟩ := h.exists_suffix
      exact ⟨_, hrest.of_suffix (c :: before)⟩

/-! ## Splits of a scan -/

/-- A split that a scan finds for an entry, which is a directory or not. -/
inductive ShiftedSplit (isDir : Bool) : List RglobItem → List String → List Nat → Prop where
  | nil : ShiftedSplit isDir [] [] []
  | pattern {pattern : Fnmatch.Pattern} {items : List RglobItem} {c : String} {path : List String}
      {taken : List Nat} (hc : pattern.isMatch c = true) (h : ShiftedSplit isDir items path taken) :
      ShiftedSplit isDir (some pattern :: items) (c :: path) taken
  | last {c : String} {path : List String} : ShiftedSplit isDir [none] (c :: path) []
  /-- The component that matches `next` is not used up by `next`. -/
  | shift {next : Fnmatch.Pattern} {items : List RglobItem} {c : String} {path : List String}
      {taken : List Nat} (hc : next.isMatch c = true)
      (h : ShiftedSplit isDir (some next :: items) path taken) :
      ShiftedSplit isDir (none :: some next :: items) (c :: path) (0 :: taken)
  /-- A file that matches `next` ends the split, whatever follows `next`. -/
  | file {next : Fnmatch.Pattern} {items : List RglobItem} {c : String}
      (hc : next.isMatch c = true) (hfile : isDir = false) :
      ShiftedSplit isDir (none :: some next :: items) [c] [0]
  | more {next : Fnmatch.Pattern} {items : List RglobItem} {c : String} {path : List String}
      {n : Nat} {taken : List Nat}
      (h : ShiftedSplit isDir (none :: some next :: items) path (n :: taken)) :
      ShiftedSplit isDir (none :: some next :: items) (c :: path) ((n + 1) :: taken)

/-- The scan meets an entry of this path while two `**` follow each other. -/
inductive MeetsDouble : List RglobItem → List String → Prop where
  | double {items : List RglobItem} {c : String} {path : List String} :
      MeetsDouble (none :: none :: items) (c :: path)
  | pattern {pattern : Fnmatch.Pattern} {items : List RglobItem} {c : String} {path : List String}
      (hc : pattern.isMatch c = true) (h : MeetsDouble items path) :
      MeetsDouble (some pattern :: items) (c :: path)
  | shift {next : Fnmatch.Pattern} {items : List RglobItem} {c : String} {path : List String}
      (hc : next.isMatch c = true) (h : MeetsDouble (some next :: items) path) :
      MeetsDouble (none :: some next :: items) (c :: path)
  | more {next : Fnmatch.Pattern} {items : List RglobItem} {c : String} {path : List String}
      (h : MeetsDouble (none :: some next :: items) path) :
      MeetsDouble (none :: some next :: items) (c :: path)

theorem not_meetsDouble_nil {items : List RglobItem} : ¬ MeetsDouble items [] := nofun

theorem meetsDouble_pattern {pattern : Fnmatch.Pattern} {items : List RglobItem} {c : String}
    {path : List String} :
    MeetsDouble (some pattern :: items) (c :: path) ↔
      pattern.isMatch c = true ∧ MeetsDouble items path := by
  constructor
  · intro h
    cases h with
    | pattern hc h => exact ⟨hc, h⟩
  · rintro ⟨hc, h⟩
    exact .pattern hc h

theorem meetsDouble_rglob {next : Fnmatch.Pattern} {items : List RglobItem} {c : String}
    {path : List String} :
    MeetsDouble (none :: some next :: items) (c :: path) ↔
      (next.isMatch c = true ∧ MeetsDouble (some next :: items) path) ∨
        MeetsDouble (none :: some next :: items) path := by
  constructor
  · intro h
    cases h with
    | shift hc h => exact .inl ⟨hc, h⟩
    | more h => exact .inr h
  · rintro (⟨hc, h⟩ | h)
    · exact .shift hc h
    · exact .more h

/-- An only component is met there when two `**` come first. -/
theorem MeetsDouble.of_singleton {items : List RglobItem} {c : String}
    (h : MeetsDouble items [c]) : ∃ rest, items = none :: none :: rest := by
  cases h with
  | double => exact ⟨_, rfl⟩
  | pattern _ h => exact absurd h not_meetsDouble_nil
  | shift _ h => exact absurd h not_meetsDouble_nil
  | more h => exact absurd h not_meetsDouble_nil

/-- The first `**` takes one component more. -/
def takeOneMore : List Nat → List Nat
  | [] => []
  | n :: taken => (n + 1) :: taken

/-- All splits that a scan finds. -/
def shiftedSplits (isDir : Bool) : List RglobItem → List String → List (List Nat)
  | [], [] => [[]]
  | [], _ :: _ => []
  | _ :: _, [] => []
  | some pattern :: items, c :: path =>
    if pattern.isMatch c then shiftedSplits isDir items path else []
  | [none], _ :: _ => [[]]
  | none :: none :: _, _ :: _ => []
  | none :: some next :: items, c :: path =>
    (if next.isMatch c then
        (if path = [] ∧ isDir = false then [[0]] else []) ++
          (shiftedSplits isDir (some next :: items) path).map (0 :: ·)
      else []) ++
      (shiftedSplits isDir (none :: some next :: items) path).map takeOneMore

section

variable {isDir : Bool} {items : List RglobItem} {path : List String}

theorem ShiftedSplit.taken_ne_nil {next : Fnmatch.Pattern} {taken : List Nat}
    (h : ShiftedSplit isDir (none :: some next :: items) path taken) :
    ∃ n rest, taken = n :: rest := by
  cases h with
  | shift => exact ⟨_, _, rfl⟩
  | file => exact ⟨_, _, rfl⟩
  | more => exact ⟨_, _, rfl⟩

theorem mem_shiftedSplits {taken : List Nat} :
    taken ∈ shiftedSplits isDir items path ↔ ShiftedSplit isDir items path taken := by
  fun_induction shiftedSplits isDir items path generalizing taken with
  | case1 =>
      rw [List.mem_singleton]
      constructor
      · rintro rfl
        exact .nil
      · rintro ⟨⟩
        rfl
  | case2 c path =>
      refine ⟨nofun, ?_⟩
      rintro ⟨⟩
  | case3 item items =>
      refine ⟨nofun, ?_⟩
      rintro ⟨⟩
  | case4 pattern items c path hc ih =>
      rw [ih]
      constructor
      · exact .pattern hc
      · intro h
        cases h with
        | pattern _ h => exact h
  | case5 pattern items c path hc =>
      refine ⟨nofun, fun h => ?_⟩
      cases h with
      | pattern hc' => exact absurd hc' hc
  | case6 =>
      rw [List.mem_singleton]
      constructor
      · rintro rfl
        exact .last
      · rintro ⟨⟩
        rfl
  | case7 =>
      refine ⟨nofun, ?_⟩
      rintro ⟨⟩
  | case8 next items c path ihshift ihmore =>
      simp only [List.mem_append, List.mem_ite_nil_right, List.mem_map, List.mem_singleton]
      constructor
      · rintro (⟨hc, ⟨⟨rfl, hfile⟩, rfl⟩ | ⟨taken, h, rfl⟩⟩ | ⟨taken, h, rfl⟩)
        · exact .file hc hfile
        · exact .shift hc (ihshift.mp h)
        · have h := ihmore.mp h
          obtain ⟨n, rest, rfl⟩ := h.taken_ne_nil
          exact .more h
      · intro h
        cases h with
        | shift hc h => exact .inl ⟨hc, .inr ⟨_, ihshift.mpr h, rfl⟩⟩
        | file hc hfile => exact .inl ⟨hc, .inl ⟨⟨rfl, hfile⟩, rfl⟩⟩
        | more h => exact .inr ⟨_, ihmore.mpr h, rfl⟩

theorem length_shiftedSplits_pos :
    0 < (shiftedSplits isDir items path).length ↔ ∃ taken, ShiftedSplit isDir items path taken := by
  simp only [← mem_shiftedSplits, List.length_pos_iff_exists_mem]

end

end Bpt
