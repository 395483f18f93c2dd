-- SUMMARY: A glob matches the paths whose components can be divided among the components of the glob.
import Bpt.Util.GlobSplit

/-!
# The paths that a glob matches

A path is cut into parts, one for each component of the glob. Two `**` in a row
divide what one of them takes.
-/

namespace Bpt

/-- The parts are taken by the components of a glob. -/
inductive Fits : List RglobItem → List (List String) → Prop where
  | nil : Fits [] []
  /-- A pattern takes one path component. -/
  | pattern {pattern : Fnmatch.Pattern} {c : String} {items : List RglobItem}
      {parts : List (List String)} (hc : pattern.isMatch c = true) (h : Fits items parts) :
      Fits (some pattern :: items) ([c] :: parts)
  /-- A final `**` takes one path component or more. -/
  | last {part : List String} (hpart : part ≠ []) : Fits [none] [part]
  /-- Any other `**` takes any number of path components. -/
  | rglob {part : List String} {next : RglobItem} {items : List RglobItem}
      {parts : List (List String)} (h : Fits (next :: items) parts) :
      Fits (none :: next :: items) (part :: parts)

theorem Split.exists_fits {items : List RglobItem} {path : List String} {taken : List Nat}
    (h : Split items path taken) : ∃ parts, parts.flatten = path ∧ Fits items parts := by
  induction h with
  | nil => exact ⟨[], rfl, .nil⟩
  | pattern hc _ ih =>
    obtain ⟨parts, rfl, hfits⟩ := ih
    exact ⟨[_] :: parts, rfl, .pattern hc hfits⟩
  | @last c path => exact ⟨[c :: path], by simp, .last (List.cons_ne_nil _ _)⟩
  | rglob _ ih =>
    obtain ⟨parts, rfl, hfits⟩ := ih
    exact ⟨[] :: parts, rfl, .rglob hfits⟩
  | @more next items c path n taken _ ih =>
    obtain ⟨parts, rfl, hfits⟩ := ih
    cases hfits with
    | @rglob part _ _ parts h => exact ⟨(c :: part) :: parts, rfl, .rglob h⟩

theorem Fits.exists_split {items : List RglobItem} {parts : List (List String)}
    (h : Fits items parts) : ∃ taken, Split items parts.flatten taken := by
  induction h with
  | nil => exact ⟨[], .nil⟩
  | pattern hc _ ih =>
    obtain ⟨taken, hsplit⟩ := ih
    exact ⟨taken, .pattern hc hsplit⟩
  | @last part hpart =>
    obtain ⟨c, path, rfl⟩ := List.exists_cons_of_ne_nil hpart
    rw [List.flatten_singleton]
    exact ⟨[], .last⟩
  | @rglob part _ _ _ _ ih =>
    obtain ⟨taken, hsplit⟩ := ih
    exact ⟨_, hsplit.of_suffix part⟩

/-- A match is a way to cut the path. -/
theorem checkMatches_iff_fits (items : List RglobItem) (path : List String) :
    checkMatches items path = true ↔ ∃ parts, parts.flatten = path ∧ Fits items parts := by
  rw [checkMatches_iff]
  constructor
  · rintro ⟨taken, h⟩
    exact h.exists_fits
  · rintro ⟨parts, rfl, h⟩
    exact h.exists_split

/-! ## Adjacent `**` -/

/-- What two `**` take is taken by one of them, and the other way round. -/
theorem exists_fits_double {next : RglobItem} {after : List RglobItem} {path : List String} :
    (∃ parts, parts.flatten = path ∧ Fits (none :: none :: next :: after) parts) ↔
      ∃ parts, parts.flatten = path ∧ Fits (none :: next :: after) parts := by
  constructor
  · rintro ⟨parts, rfl, h⟩
    cases h with
    | @rglob first _ _ _ h =>
      cases h with
      | @rglob second _ _ parts h => exact ⟨(first ++ second) :: parts, by simp, .rglob h⟩
  · rintro ⟨parts, rfl, h⟩
    exact ⟨[] :: parts, rfl, .rglob h⟩

theorem checkMatches_double (next : RglobItem) (after : List RglobItem) (path : List String) :
    checkMatches (none :: none :: next :: after) path =
      checkMatches (none :: next :: after) path := by
  rw [Bool.eq_iff_iff, checkMatches_iff_fits, checkMatches_iff_fits]
  exact exists_fits_double

/-- What matches the same matches the same after other components. -/
theorem checkMatches_append_congr {items items' : List RglobItem} (hne : items ≠ [])
    (hne' : items' ≠ []) (hsame : ∀ path, checkMatches items path = checkMatches items' path)
    (before : List RglobItem) (path : List String) :
    checkMatches (before ++ items) path = checkMatches (before ++ items') path := by
  induction before generalizing path with
  | nil => exact hsame path
  | cons item before ih =>
    induction path with
    | nil => rw [checkMatches_nil (by simp), checkMatches_nil (by simp)]
    | cons c path ihpath =>
      rw [Bool.eq_iff_iff]
      cases item with
      | some pattern =>
        rw [List.cons_append, List.cons_append, checkMatches_pattern, checkMatches_pattern, ih]
      | none =>
        rw [List.cons_append, List.cons_append] at ihpath ⊢
        rw [checkMatches_rglob (by simp [hne]), checkMatches_rglob (by simp [hne']), ih, ihpath]

/-- A glob matches a path that can be cut among its components. Of two `**` in a row
that are not final one can be left out. -/
theorem Glob.isMatch_reference (glob : Glob) :
    (∀ path, glob.isMatch path = true ↔ ∃ parts, parts.flatten = path ∧ Fits glob.items parts) ∧
      ∀ (before : List RglobItem) (next : RglobItem) (after : List RglobItem) (glob' : Glob),
        glob.items = before ++ none :: none :: next :: after →
        glob'.items = before ++ none :: next :: after →
        ∀ path, glob.isMatch path = glob'.isMatch path := by
  refine ⟨fun path => checkMatches_iff_fits glob.items path, ?_⟩
  intro before next after glob' hitems hitems' path
  unfold Glob.isMatch
  rw [hitems, hitems']
  apply checkMatches_append_congr (List.cons_ne_nil _ _) (List.cons_ne_nil _ _)
  exact checkMatches_double next after

end Bpt
