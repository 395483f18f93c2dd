-- SUMMARY: When the scan of a directory tree for a glob produces exactly what the glob matches.
import Bpt.Util.GlobScan

/-!
# Agreement of scan and match

A scan goes astray only behind a `**` that is not last. The condition here
(`RglobClear`) is about what the glob, and the glob cut behind such a `**`,
match in the tree. It is enough for every glob. It is also needed, but for the
trees in which the scan comes upon a matching entry by the wrong way.
-/

namespace Bpt

/-! ## Matches behind `**` -/

/-- What matches a glob also matches its beginning up to a `**`. -/
theorem checkMatches_upTo {before rest : List RglobItem} {path : List String}
    (h : checkMatches (before ++ none :: rest) path = true) :
    checkMatches (before ++ [none]) path = true := by
  induction before generalizing path with
  | nil =>
      cases path with
      | nil => simp [checkMatches] at h
      | cons c path => simp [checkMatches]
  | cons item before ih =>
      induction path with
      | nil => simp [checkMatches] at h
      | cons c path ihpath =>
          cases item with
          | some pattern =>
              rw [List.cons_append, checkMatches_pattern] at h ⊢
              exact ⟨h.1, ih h.2⟩
          | none =>
              rw [List.cons_append, checkMatches_rglob (by simp)] at h ⊢
              exact h.imp ih ihpath

theorem checkMatches_here {items : List RglobItem} (hne : items ≠ []) {path : List String}
    (h : checkMatches items path = true) : checkMatches (none :: items) path = true := by
  cases path with
  | nil =>
      rw [checkMatches_nil hne] at h
      cases h
  | cons c path => exact (checkMatches_rglob hne).mpr (.inl h)

theorem checkMatches_below {items : List RglobItem} (hne : items ≠ []) {path : List String}
    (h : checkMatches (none :: items) path = true) (c : String) :
    checkMatches (none :: items) (c :: path) = true :=
  (checkMatches_rglob hne).mpr (.inr h)

/-! ## What a scan can find -/

/-- The glob up to the component after a `**` that more follows matches the path. -/
def CutMatches (items : List RglobItem) (path : List String) : Prop :=
  ∃ before next after, items = before ++ none :: some next :: after ∧ after ≠ [] ∧
    checkMatches (before ++ [none, some next]) path = true

theorem CutMatches.pattern {pattern : Fnmatch.Pattern} {items : List RglobItem} {c : String}
    {path : List String} (hc : pattern.isMatch c = true) (h : CutMatches items path) :
    CutMatches (some pattern :: items) (c :: path) := by
  obtain ⟨before, next, after, rfl, hne, hmatch⟩ := h
  exact ⟨some pattern :: before, next, after, rfl, hne, checkMatches_pattern.mpr ⟨hc, hmatch⟩⟩

theorem CutMatches.here {items : List RglobItem} {path : List String} (h : CutMatches items path) :
    CutMatches (none :: items) path := by
  obtain ⟨before, next, after, rfl, hne, hmatch⟩ := h
  exact ⟨none :: before, next, after, rfl, hne, checkMatches_here (by simp) hmatch⟩

theorem CutMatches.below {items : List RglobItem} {path : List String}
    (h : CutMatches (none :: items) path) (c : String) : CutMatches (none :: items) (c :: path) := by
  obtain ⟨before, next, after, heq, hne, hmatch⟩ := h
  refine ⟨before, next, after, heq, hne, ?_⟩
  cases before with
  | nil => exact checkMatches_below (by simp) hmatch c
  | cons item before =>
      cases heq
      exact checkMatches_below (by simp) hmatch c

/-- An entry that a scan finds is one that the glob matches, or a file that the
glob matches up to the component after a `**`. -/
theorem ShiftedSplit.matches_or {isDir : Bool} {items : List RglobItem} {path : List String}
    {taken : List Nat} (h : ShiftedSplit isDir items path taken) :
    checkMatches items path = true ∨ isDir = false ∧ CutMatches items path := by
  induction h with
  | nil => exact .inl (by simp [checkMatches])
  | pattern hc h ih =>
      exact ih.imp (fun hmatch => checkMatches_pattern.mpr ⟨hc, hmatch⟩) (And.imp_right (.pattern hc))
  | last => exact .inl (by simp [checkMatches])
  | @shift _ _ c _ _ hc h ih =>
      -- the `**` of a match takes the component that the scan does not use up
      refine ih.imp (fun hmatch => ?_) (And.imp_right fun hcut => hcut.here.below c)
      exact checkMatches_below (by simp) (checkMatches_here (by simp) hmatch) c
  | @file next items c hc hfile =>
      have hmatch : checkMatches [none, some next] [c] = true :=
        checkMatches_here (by simp) (by simpa [checkMatches] using hc)
      by_cases hitems : items = []
      · exact .inl (hitems ▸ hmatch)
      · exact .inr ⟨hfile, [], next, items, rfl, hitems, hmatch⟩
  | @more _ _ c _ _ _ h ih =>
      exact ih.imp (fun hmatch => checkMatches_below (by simp) hmatch c)
        (And.imp_right fun hcut => hcut.below c)

/-- An entry met while two `**` follow each other is matched up to the first. -/
theorem MeetsDouble.checkMatches {items : List RglobItem} {path : List String}
    (h : MeetsDouble items path) :
    ∃ before after, items = before ++ none :: none :: after ∧
      checkMatches (before ++ [none]) path = true := by
  induction h with
  | @double items => exact ⟨[], items, rfl, by simp [Bpt.checkMatches]⟩
  | @pattern pattern _ _ _ hc h ih =>
      obtain ⟨before, after, rfl, hmatch⟩ := ih
      exact ⟨some pattern :: before, after, rfl, checkMatches_pattern.mpr ⟨hc, hmatch⟩⟩
  | @shift _ _ c _ hc h ih =>
      obtain ⟨before, after, heq, hmatch⟩ := ih
      refine ⟨none :: before, after, by rw [heq]; rfl, ?_⟩
      exact checkMatches_below (by simp) (checkMatches_here (by simp) hmatch) c
  | @more _ _ c _ h ih =>
      obtain ⟨before, after, heq, hmatch⟩ := ih
      refine ⟨before, after, heq, ?_⟩
      cases before with
      | nil => simp [Bpt.checkMatches]
      | cons item before =>
          obtain ⟨rfl, -⟩ := List.cons.inj heq
          exact checkMatches_below (by simp) hmatch c

/-! ## One component after `**` -/

theorem checkMatches_rglob_single {next : Fnmatch.Pattern} {c : String} :
    checkMatches [none, some next] [c] = next.isMatch c := by
  simp [checkMatches]

/-- Where no directory on the way to an entry matches, the entry is found once if
it matches. -/
theorem length_shiftedSplits_rglob {isDir : Bool} {next : Fnmatch.Pattern} {path : List String}
    (hway : ∀ way, way <+: path → (way = path → isDir = true) →
      checkMatches [none, some next] way = false) :
    (shiftedSplits isDir [none, some next] path).length =
      if checkMatches [none, some next] path = true then 1 else 0 := by
  induction path with
  | nil => simp [shiftedSplits, checkMatches]
  | cons c path ih =>
      cases path with
      | nil =>
          rw [checkMatches_rglob_single]
          cases isDir with
          | true =>
              have hc := hway [c] List.prefix_rfl fun _ => rfl
              rw [checkMatches_rglob_single] at hc
              simp [shiftedSplits, hc]
          | false => cases hc : next.isMatch c <;> simp [shiftedSplits, hc]
      | cons d path =>
          have hc := hway [c] (by simp) (by simp)
          rw [checkMatches_rglob_single] at hc
          have hrest : (shiftedSplits isDir [none, some next] (d :: path)).length =
              if checkMatches [none, some next] (d :: path) = true then 1 else 0 := by
            refine ih fun way hprefix hisDir => ?_
            have hbelow := hway (c :: way) (by simpa using hprefix) (by simpa using hisDir)
            rw [Bool.eq_false_iff] at hbelow ⊢
            exact fun hmatch => hbelow (checkMatches_below (by simp) hmatch c)
          have hmatch : checkMatches [none, some next] (c :: d :: path) = true ↔
              checkMatches [none, some next] (d :: path) = true := by
            rw [checkMatches_rglob (by simp), checkMatches_pattern]
            simp [hc]
          rw [if_congr hmatch rfl rfl, ← hrest]
          simp [shiftedSplits, hc]

theorem length_shiftedSplits_of_way {isDir : Bool} {before : List RglobItem}
    (hbefore : none ∉ before) {next : Fnmatch.Pattern} {path : List String}
    (hway : ∀ way, way <+: path → (way = path → isDir = true) →
      checkMatches (before ++ [none, some next]) way = false) :
    (shiftedSplits isDir (before ++ [none, some next]) path).length =
      if checkMatches (before ++ [none, some next]) path = true then 1 else 0 := by
  induction before generalizing path with
  | nil => exact length_shiftedSplits_rglob hway
  | cons item before ih =>
      rw [List.mem_cons, not_or] at hbefore
      obtain ⟨pattern, rfl⟩ := Option.ne_none_iff_exists'.mp (Ne.symm hbefore.1)
      cases path with
      | nil => simp [shiftedSplits, checkMatches]
      | cons c path =>
          cases hc : pattern.isMatch c with
          | false => simp [shiftedSplits, checkMatches, hc]
          | true =>
              have hrest := @ih hbefore.2 path fun way hprefix hisDir => by
                have h := hway (c :: way) (by simpa using hprefix) (by simpa using hisDir)
                simpa [checkMatches, hc] using h
              simpa [shiftedSplits, checkMatches, hc] using hrest

/-- A directory that a scan finds behind `**` is in one that matches as well. -/
theorem ShiftedSplit.parent_matches {before : List RglobItem} (hbefore : none ∉ before)
    {next : Fnmatch.Pattern} {path : List String} {taken : List Nat}
    (h : ShiftedSplit true (before ++ [none, some next]) path taken) :
    ∃ parent c, path = parent ++ [c] ∧ checkMatches (before ++ [none, some next]) parent = true := by
  induction before generalizing path taken with
  | nil =>
      generalize hitems : [] ++ [none, some next] = items at h
      induction h with
      | nil => cases hitems
      | pattern => cases hitems
      | last => cases hitems
      | @shift _ _ c _ _ hc h _ =>
          cases hitems
          cases h with
          | @pattern _ _ d _ _ _ h =>
              cases h
              exact ⟨[c], d, rfl, checkMatches_rglob_single.trans hc⟩
      | file hc hfile => cases hfile
      | @more _ _ c _ _ _ _ ih =>
          obtain ⟨parent, d, rfl, hmatch⟩ := ih hitems
          exact ⟨c :: parent, d, rfl, checkMatches_below (by simp) hmatch c⟩
  | cons item before ih =>
      rw [List.mem_cons, not_or] at hbefore
      obtain ⟨pattern, rfl⟩ := Option.ne_none_iff_exists'.mp (Ne.symm hbefore.1)
      cases h with
      | @pattern _ _ c _ _ hc h =>
          obtain ⟨parent, d, rfl, hmatch⟩ := ih hbefore.2 h
          exact ⟨c :: parent, d, rfl, checkMatches_pattern.mpr ⟨hc, hmatch⟩⟩

/-! ## The `**` of a glob -/

/-- A `**` of a glob is the first one or comes after it. -/
theorem exists_between {before before' rest rest' : List RglobItem} (hbefore : none ∉ before)
    (h : before ++ none :: rest = before' ++ none :: rest') :
    ∃ between, before' ++ [none] = before ++ none :: between ∧ rest = between ++ rest' := by
  rcases List.append_eq_append_iff.mp h with ⟨between, rfl, hrest⟩ | ⟨between, rfl, hrest⟩
  · cases between with
    | nil => exact ⟨[], by simp, by simpa using hrest⟩
    | cons item between =>
        obtain ⟨rfl, rfl⟩ := List.cons.inj hrest
        exact ⟨between ++ [none], by simp, by simp⟩
  · cases between with
    | nil => exact ⟨[], by simp, by simpa using hrest.symm⟩
    | cons item between =>
        obtain ⟨rfl, -⟩ := List.cons.inj hrest
        simp at hbefore

theorem exists_first_rglob {items : List RglobItem} (h : none ∈ items.dropLast) :
    ∃ before next after, items = before ++ none :: next :: after ∧ none ∉ before := by
  have hne : items ≠ [] := by
    rintro rfl
    cases h
  obtain ⟨before, rest, heq, hbefore⟩ := List.eq_append_cons_of_mem h
  obtain ⟨next, after, hrest⟩ : ∃ next after, rest ++ [items.getLast hne] = next :: after :=
    List.exists_cons_of_ne_nil (by simp)
  refine ⟨before, next, after, ?_, hbefore⟩
  rw [← List.dropLast_append_getLast hne, heq, ← hrest]
  simp

/-- A glob with one component after its only `**` has no other `**`. -/
theorem between_eq_nil {before before' rest : List RglobItem} (hbefore : none ∉ before)
    {next : Fnmatch.Pattern} (h : before ++ [none, some next] = before' ++ none :: rest)
    (hrest : rest ≠ []) : before' = before ∧ rest = [some next] := by
  obtain ⟨between, hfirst, hlast⟩ := exists_between hbefore h
  cases between with
  | nil => exact ⟨List.append_cancel_right hfirst, hlast.symm⟩
  | cons item between =>
      obtain ⟨-, hlast⟩ := List.cons.inj hlast
      exact absurd (List.append_eq_nil_iff.mp hlast.symm).2 hrest

/-- A glob with one `**` that is not last has no other one. -/
theorem inner_unique {before before' after after' : List RglobItem} (hbefore : none ∉ before)
    {next : Fnmatch.Pattern} {next' : RglobItem} (hafter : none ∉ after.dropLast)
    (h : before ++ none :: some next :: after = before' ++ none :: next' :: after') :
    before' = before ∧ next' = some next := by
  obtain ⟨between, hfirst, hrest⟩ := exists_between hbefore h
  cases between with
  | nil => exact ⟨List.append_cancel_right hfirst, (List.cons.inj hrest).1.symm⟩
  | cons item between =>
      obtain ⟨rfl, hafter'⟩ := List.cons.inj hrest
      -- the other one would be among the components after the first
      have hlast : (some next :: between).getLast? = some none := by
        have hlast := congrArg List.getLast? hfirst
        simpa [List.getLast?_append] using hlast.symm
      have hmem : none ∈ between := by
        simpa using List.mem_of_getLast? hlast
      refine absurd ?_ hafter
      rw [hafter', List.append_eq, List.dropLast_append_of_ne_nil (by simp)]
      exact List.mem_append_left _ hmem

/-! ## When scan and match agree -/

/-- What lies above an entry is a directory. -/
theorem Listing.kind_of_prefix {listing : Listing} (hdistinct : listing.Distinct)
    {way below : List String} {isDir : Bool} (h : listing.kind (way ++ below) = some isDir)
    (hway : way ≠ []) (hbelow : below ≠ []) : listing.kind way = some true := by
  induction listing generalizing way with
  | empty => cases h
  | file name rest ih =>
      obtain ⟨c, way, rfl⟩ := List.exists_cons_of_ne_nil hway
      obtain ⟨hname, hrest⟩ := hdistinct
      rw [kind, if_neg (by simp [hbelow])] at h
      rw [kind, if_neg ?_]
      · exact ih hrest h hway
      · rintro heq
        cases heq
        exact hname (mem_names_of_kind h)
  | directory name entries rest ihentries ih =>
      obtain ⟨c, way, rfl⟩ := List.exists_cons_of_ne_nil hway
      obtain ⟨hname, hentries, hrest⟩ := hdistinct
      rw [List.cons_append, kind] at h
      rw [kind]
      split at h
      next hc =>
        rw [if_neg (by simp [hbelow])] at h
        rw [if_pos hc]
        by_cases hnil : way = []
        · exact if_pos hnil
        · rw [if_neg hnil]
          exact ihentries hentries h hnil
      next hc =>
        rw [if_neg hc]
        exact ih hrest h hway

/-- Behind a `**` that is not last the tree has nothing that the scan and the
match take in different ways. -/
structure RglobClear (glob : Glob) (dir : Directory) : Prop where
  /-- When one component follows the `**`, the glob matches no directory. -/
  last : ∀ before next, glob.items = before ++ [none, some next] →
    ∀ path, dir.listing.kind path = some true → glob.isMatch path = false
  /-- When more follow, the glob matches nothing, and up to the component after
  the `**` it matches no file. -/
  inner : ∀ before next after, glob.items = before ++ none :: some next :: after → after ≠ [] →
    ∀ path isDir, dir.listing.kind path = some isDir → glob.isMatch path = false ∧
      (isDir = false → checkMatches (before ++ [none, some next]) path = false)
  /-- When another `**` follows, the glob up to the first matches nothing. -/
  double : ∀ before after, glob.items = before ++ none :: none :: after →
    ∀ path isDir, dir.listing.kind path = some isDir → checkMatches (before ++ [none]) path = false

section

variable {glob : Glob} {dir : Directory}

/-- Scan and match agree when each entry has one split of a scan if it matches,
and else none. -/
theorem scanAgrees_iff_length : ScanAgrees glob dir ↔
    ∀ path isDir, dir.listing.kind path = some isDir → ¬ MeetsDouble glob.items path ∧
      (shiftedSplits isDir glob.items path).length = if glob.isMatch path = true then 1 else 0 := by
  rw [scanAgrees_iff_visit]
  constructor
  · rintro ⟨paths, hvisit, hpaths⟩ path isDir hkind
    refine ⟨(noDouble_iff_visit glob dir).mpr ⟨paths, hvisit⟩ path isDir hkind, ?_⟩
    have hpath := hpaths path
    rw [glob.count_scan hvisit, Listing.splitsAt, hkind] at hpath
    simpa using hpath
  · intro h
    obtain ⟨paths, hvisit⟩ := (noDouble_iff_visit glob dir).mp fun path isDir hkind =>
      (h path isDir hkind).1
    refine ⟨paths, hvisit, fun path => ?_⟩
    rw [glob.count_scan hvisit, Listing.splitsAt]
    cases hkind : dir.listing.kind path with
    | none => simp
    | some isDir => simpa using (h path isDir hkind).2

/-- Where the glob and the glob cut behind a `**` match nothing, a scan finds nothing. -/
theorem scanAgrees_of_nothing
    (hmatch : ∀ path isDir, dir.listing.kind path = some isDir → glob.isMatch path = false)
    (hcut : ∀ path, dir.listing.kind path = some false → ¬ CutMatches glob.items path)
    (hdouble : ∀ path isDir, dir.listing.kind path = some isDir → ¬ MeetsDouble glob.items path) :
    ScanAgrees glob dir := by
  refine scanAgrees_iff_length.mpr fun path isDir hkind => ⟨hdouble path isDir hkind, ?_⟩
  have hnone : ¬ ∃ taken, ShiftedSplit isDir glob.items path taken := by
    rintro ⟨taken, h⟩
    obtain hfound | ⟨rfl, hfound⟩ := h.matches_or
    · exact absurd hfound (by simpa [Glob.isMatch] using hmatch path isDir hkind)
    · exact hcut path hkind hfound
  rw [if_neg (by simp [hmatch path isDir hkind])]
  simpa [← length_shiftedSplits_pos] using hnone

theorem RglobClear.not_cutMatches (h : RglobClear glob dir) {path : List String}
    (hkind : dir.listing.kind path = some false) : ¬ CutMatches glob.items path := by
  rintro ⟨before, next, after, heq, hne, hmatch⟩
  have hcut := (h.inner before next after heq hne path false hkind).2 rfl
  exact Bool.false_ne_true (hcut.symm.trans hmatch)

theorem RglobClear.not_meetsDouble (h : RglobClear glob dir) {path : List String} {isDir : Bool}
    (hkind : dir.listing.kind path = some isDir) : ¬ MeetsDouble glob.items path := by
  intro hmeets
  obtain ⟨before, after, heq, hmatch⟩ := hmeets.checkMatches
  exact Bool.false_ne_true ((h.double before after heq path isDir hkind).symm.trans hmatch)

/-- A glob with one component after its only `**` scans right when it matches no
directory. -/
theorem scanAgrees_of_single {before : List RglobItem} {next : Fnmatch.Pattern}
    (hitems : glob.items = before ++ [none, some next]) (hbefore : none ∉ before)
    (hdir : ∀ path, dir.listing.kind path = some true → glob.isMatch path = false) :
    ScanAgrees glob dir := by
  refine scanAgrees_iff_length.mpr fun path isDir hkind => ⟨fun hmeets => ?_, ?_⟩
  · obtain ⟨before', after, heq, -⟩ := hmeets.checkMatches
    have hrest := (between_eq_nil hbefore (hitems.symm.trans heq) (by simp)).2
    cases hrest
  · rw [Glob.isMatch, hitems]
    refine length_shiftedSplits_of_way hbefore fun way hstart hway => ?_
    obtain ⟨below, heq⟩ := hstart
    have hnil : way ≠ [] → dir.listing.kind way = some true := by
      intro hne
      by_cases hbelow : below = []
      · rw [hbelow, List.append_nil] at heq
        rw [heq, hkind, hway heq]
      · exact Listing.kind_of_prefix dir.distinct (heq ▸ hkind) hne hbelow
    by_cases hne : way = []
    · rw [hne, checkMatches_nil (by simp)]
    · rw [← hitems]
      exact hdir way (hnil hne)

theorem RglobClear.scanAgrees (h : RglobClear glob dir) : ScanAgrees glob dir := by
  by_cases hlast : none ∈ glob.items.dropLast
  · obtain ⟨before, next, after, hitems, hbefore⟩ := exists_first_rglob hlast
    have hnothing : (∀ path isDir, dir.listing.kind path = some isDir → glob.isMatch path = false) →
        ScanAgrees glob dir := fun hmatch =>
      scanAgrees_of_nothing hmatch (fun _ => h.not_cutMatches) fun _ _ => h.not_meetsDouble
    cases next with
    | none =>
        refine hnothing fun path isDir hkind => Bool.eq_false_iff.mpr fun hmatch => ?_
        rw [Glob.isMatch, hitems] at hmatch
        have hup := h.double before after hitems path isDir hkind
        exact Bool.false_ne_true (hup.symm.trans (checkMatches_upTo hmatch))
    | some next =>
        by_cases hafter : after = []
        · rw [hafter] at hitems
          exact scanAgrees_of_single hitems hbefore (h.last before next hitems)
        · exact hnothing fun path isDir hkind =>
            (h.inner before next after hitems hafter path isDir hkind).1
  · exact scanAgrees_of_last glob dir hlast

end

/-! ## Where the condition is needed -/

theorem meetsDouble_of_upTo {before after : List RglobItem} (hbefore : none ∉ before)
    {path : List String} (h : checkMatches (before ++ [none]) path = true) :
    MeetsDouble (before ++ none :: none :: after) path := by
  induction before generalizing path with
  | nil =>
      cases path with
      | nil => simp [checkMatches] at h
      | cons c path => exact .double
  | cons item before ih =>
      rw [List.mem_cons, not_or] at hbefore
      obtain ⟨pattern, rfl⟩ := Option.ne_none_iff_exists'.mp (Ne.symm hbefore.1)
      cases path with
      | nil => simp [checkMatches] at h
      | cons c path =>
          obtain ⟨hc, h⟩ := checkMatches_pattern.mp h
          exact .pattern hc (ih hbefore.2 h)

/-- A scan finds a file with a name that matches the component after `**`. -/
theorem exists_shiftedSplit_of_cut {before after : List RglobItem} (hbefore : none ∉ before)
    {next : Fnmatch.Pattern} {path : List String}
    (h : checkMatches (before ++ [none, some next]) path = true) :
    ∃ taken, ShiftedSplit false (before ++ none :: some next :: after) path taken := by
  induction before generalizing path with
  | nil =>
      induction path with
      | nil => simp [checkMatches] at h
      | cons c path ih =>
          rcases (checkMatches_rglob (by simp)).mp h with h | h
          · obtain ⟨hc, hpath⟩ := checkMatches_pattern.mp h
            cases path with
            | nil => exact ⟨[0], .file hc rfl⟩
            | cons => simp [checkMatches] at hpath
          · obtain ⟨taken, hsplit⟩ := ih h
            obtain ⟨n, rest, rfl⟩ := hsplit.taken_ne_nil
            exact ⟨_, .more hsplit⟩
  | cons item before ih =>
      rw [List.mem_cons, not_or] at hbefore
      obtain ⟨pattern, rfl⟩ := Option.ne_none_iff_exists'.mp (Ne.symm hbefore.1)
      cases path with
      | nil => simp [checkMatches] at h
      | cons c path =>
          obtain ⟨hc, h⟩ := checkMatches_pattern.mp h
          obtain ⟨taken, hsplit⟩ := ih hbefore.2 h
          exact ⟨taken, .pattern hc hsplit⟩

/-- A scan for a glob with one inner `**` finds what matches with the component
after it twice, and files that match up to that component. -/
theorem ShiftedSplit.twice_or {isDir : Bool} {before after : List RglobItem} (hbefore : none ∉ before)
    (hafter : none ∉ after.dropLast) {next : Fnmatch.Pattern} {path : List String} {taken : List Nat}
    (h : ShiftedSplit isDir (before ++ none :: some next :: after) path taken) :
    checkMatches (before ++ none :: some next :: some next :: after) path = true ∨
      isDir = false ∧ checkMatches (before ++ [none, some next]) path = true := by
  induction before generalizing path taken with
  | nil =>
      generalize hitems : [] ++ none :: some next :: after = items at h
      induction h with
      | nil => cases hitems
      | pattern => cases hitems
      | last => cases hitems
      | @shift _ _ c path _ hc h _ =>
          cases hitems
          have hlast : none ∉ (some next :: after).dropLast := by
            cases after with
            | nil => simp
            | cons => simpa [List.dropLast] using hafter
          have hmatch : checkMatches (some next :: after) path = true := by
            by_contra hno
            have hmem := mem_shiftedSplits.mpr h
            rw [shiftedSplits_of_last hlast, if_neg hno] at hmem
            cases hmem
          exact .inl (checkMatches_here (by simp) (checkMatches_pattern.mpr ⟨hc, hmatch⟩))
      | file hc hfile =>
          cases hitems
          exact .inr ⟨hfile, checkMatches_rglob_single.trans hc⟩
      | @more _ _ c _ _ _ _ ih =>
          exact (ih hitems).imp (fun h => checkMatches_below (by simp) h c)
            (And.imp_right fun h => checkMatches_below (by simp) h c)
  | cons item before ih =>
      rw [List.mem_cons, not_or] at hbefore
      obtain ⟨pattern, rfl⟩ := Option.ne_none_iff_exists'.mp (Ne.symm hbefore.1)
      cases h with
      | pattern hc h =>
          exact (ih hbefore.2 h).imp (fun h => checkMatches_pattern.mpr ⟨hc, h⟩)
            (And.imp_right fun h => checkMatches_pattern.mpr ⟨hc, h⟩)

section

variable {glob : Glob} {dir : Directory} {before after : List RglobItem} {next : Fnmatch.Pattern}

theorem ScanAgrees.isMatch_iff (h : ScanAgrees glob dir) {path : List String} {isDir : Bool}
    (hkind : dir.listing.kind path = some isDir) :
    glob.isMatch path = true ↔ ∃ taken, ShiftedSplit isDir glob.items path taken := by
  have hlength := (scanAgrees_iff_length.mp h path isDir hkind).2
  rw [← length_shiftedSplits_pos, hlength]
  split <;> simp [*]

/-- When another `**` follows the first, nothing may be there. -/
theorem ScanAgrees.rglobClear_of_double (h : ScanAgrees glob dir)
    (hitems : glob.items = before ++ none :: none :: after) (hbefore : none ∉ before) :
    RglobClear glob dir := by
  have hup : ∀ before' rest, glob.items = before' ++ none :: rest → ∀ rest' path isDir,
      dir.listing.kind path = some isDir → checkMatches (before' ++ none :: rest') path = false := by
    intro before' rest heq rest' path isDir hkind
    refine Bool.eq_false_iff.mpr fun hmatch => ?_
    obtain ⟨between, hfirst, -⟩ := exists_between hbefore (hitems.symm.trans heq)
    rw [List.append_cons, hfirst, List.append_assoc] at hmatch
    have hmeets : MeetsDouble (before ++ none :: none :: after) path :=
      meetsDouble_of_upTo hbefore (checkMatches_upTo hmatch)
    exact (scanAgrees_iff_length.mp h path isDir hkind).1 (hitems ▸ hmeets)
  have hmatch : ∀ path isDir, dir.listing.kind path = some isDir → glob.isMatch path = false := by
    intro path isDir hkind
    rw [Glob.isMatch, hitems]
    exact hup before _ hitems _ path isDir hkind
  exact ⟨fun _ _ _ path hkind => hmatch path true hkind,
    fun before' next after' heq _ path isDir hkind =>
      ⟨hmatch path isDir hkind, fun _ => hup before' _ heq _ path isDir hkind⟩,
    fun before' after' heq path isDir hkind => hup before' _ heq _ path isDir hkind⟩

/-- When one component follows the only `**`, no directory may match: the first
one on a way is not found. -/
theorem ScanAgrees.rglobClear_of_single (h : ScanAgrees glob dir)
    (hitems : glob.items = before ++ [none, some next]) (hbefore : none ∉ before) :
    RglobClear glob dir := by
  have hdir : ∀ n path, path.length = n → dir.listing.kind path = some true →
      glob.isMatch path = false := by
    intro n
    induction n with
    | zero =>
        intro path hlen hkind
        rw [List.eq_nil_of_length_eq_zero hlen, Listing.kind_nil] at hkind
        cases hkind
    | succ n ih =>
        intro path hlen hkind
        refine Bool.eq_false_iff.mpr fun hmatch => ?_
        obtain ⟨taken, hsplit⟩ := (h.isMatch_iff hkind).mp hmatch
        obtain ⟨parent, c, rfl, hparent⟩ := (hitems ▸ hsplit).parent_matches hbefore
        rw [← hitems] at hparent
        have hne : parent ≠ [] := by
          rintro rfl
          rw [checkMatches_nil glob.items_ne_nil] at hparent
          cases hparent
        have hfalse := ih parent (by simpa using hlen)
          (Listing.kind_of_prefix dir.distinct hkind hne (by simp))
        exact Bool.false_ne_true (hfalse.symm.trans hparent)
  refine ⟨fun _ _ _ path => hdir _ path rfl, ?_, ?_⟩
  · intro before' next' after' heq hne
    obtain ⟨-, hrest⟩ := between_eq_nil hbefore (hitems.symm.trans heq) (by simp)
    cases hrest
    exact absurd rfl hne
  · intro before' after' heq
    obtain ⟨-, hrest⟩ := between_eq_nil hbefore (hitems.symm.trans heq) (by simp)
    cases hrest

/-- The glob matches an entry that it also matches with the component after `**`
written twice, or a file that it matches up to that component. -/
def MatchesTwice (glob : Glob) (dir : Directory) (before : List RglobItem) (next : RglobItem)
    (after : List RglobItem) : Prop :=
  ∃ path isDir, dir.listing.kind path = some isDir ∧ glob.isMatch path = true ∧
    (checkMatches (before ++ none :: next :: next :: after) path = true ∨
      isDir = false ∧ checkMatches (before ++ [none, next]) path = true)

/-- When more components follow the only inner `**`, nothing may match but what
the scan finds on a way that no match takes. -/
theorem ScanAgrees.rglobClear_of_not_matchesTwice (h : ScanAgrees glob dir)
    (hitems : glob.items = before ++ none :: some next :: after) (hbefore : none ∉ before)
    (hafter : none ∉ after.dropLast) (htwice : ¬ MatchesTwice glob dir before (some next) after) :
    RglobClear glob dir := by
  have hmatch : ∀ path isDir, dir.listing.kind path = some isDir → glob.isMatch path = false := by
    refine fun path isDir hkind => Bool.eq_false_iff.mpr fun hmatch => htwice ?_
    obtain ⟨taken, hsplit⟩ := (h.isMatch_iff hkind).mp hmatch
    exact ⟨path, isDir, hkind, hmatch, (hitems ▸ hsplit).twice_or hbefore hafter⟩
  have hcut : ∀ path, dir.listing.kind path = some false →
      checkMatches (before ++ [none, some next]) path = false := by
    refine fun path hkind => Bool.eq_false_iff.mpr fun hcut => ?_
    have hfound : glob.isMatch path = true :=
      (h.isMatch_iff hkind).mpr (hitems ▸ exists_shiftedSplit_of_cut hbefore hcut)
    exact Bool.false_ne_true ((hmatch path false hkind).symm.trans hfound)
  refine ⟨fun _ _ _ path hkind => hmatch path true hkind, ?_, ?_⟩
  · intro before' next' after' heq _ path isDir hkind
    obtain ⟨rfl, hnext⟩ := inner_unique hbefore hafter (hitems.symm.trans heq)
    cases hnext
    exact ⟨hmatch path isDir hkind, fun hfile => hcut path (hfile ▸ hkind)⟩
  · intro before' after' heq
    cases (inner_unique hbefore hafter (hitems.symm.trans heq)).2

end

/-- The scan for a glob produces exactly what the glob matches if the tree is
clear behind each `**` that is not last. It has to be when another `**` or just
one component follows the first, and when that `**` is the only one but for a
last and no entry matches twice. -/
theorem scanAgrees_rglobClear (glob : Glob) (dir : Directory) :
    (RglobClear glob dir → ScanAgrees glob dir) ∧
    ∀ before next after, glob.items = before ++ none :: next :: after → none ∉ before →
      (next = none ∨ after = [] ∨
        none ∉ after.dropLast ∧ ¬ MatchesTwice glob dir before next after) →
      ScanAgrees glob dir → RglobClear glob dir := by
  refine ⟨RglobClear.scanAgrees, fun before next after hitems hbefore hkind hagrees => ?_⟩
  cases next with
  | none => exact hagrees.rglobClear_of_double hitems hbefore
  | some next =>
      by_cases hafter : after = []
      · rw [hafter] at hitems
        exact hagrees.rglobClear_of_single hitems hbefore
      · obtain ⟨hlast, htwice⟩ := (hkind.resolve_left nofun).resolve_left hafter
        exact hagrees.rglobClear_of_not_matchesTwice hitems hbefore hlast htwice

/-- A scan takes a header in a directory that matches the component after `**`
for none. -/
theorem not_scanAgrees :
    ∃ glob dir, Glob.compile "**/lib/*.h" = .ok glob ∧ ¬ ScanAgrees glob dir := by
  let glob : Glob :=
    ⟨"**/lib/*.h", [none, some [.lit "lib".toList], some [.star, .lit ".h".toList]], by simp⟩
  let dir : Directory := ⟨.directory "lib" (.file "a.h" .empty) .empty, by simp [Listing.Distinct, Listing.names]⟩
  refine ⟨glob, dir, by decide +kernel, fun hagrees => ?_⟩
  obtain ⟨paths, hvisit, hcount⟩ := (scanAgrees_iff_visit glob dir).mp hagrees
  have hnothing : visit dir.listing none [some [.lit "lib".toList], some [.star, .lit ".h".toList]] =
      .ok [] := by
    decide +kernel
  cases hnothing.symm.trans hvisit
  have hmatch : glob.isMatch ["lib", "a.h"] = true := by decide +kernel
  have hentry : (dir.listing.kind ["lib", "a.h"]).isSome := by decide +kernel
  have hpath := hcount ["lib", "a.h"]
  rw [if_pos ⟨hentry, hmatch⟩] at hpath
  cases hpath

/-- An entry that matches twice may be found after all: a file `x` in a directory
`x`, by the last component of `**/x/x`. -/
example :
    let pattern : Fnmatch.Pattern := [.lit ['x']]
    let glob : Glob := ⟨"**/x/x", [none, some pattern, some pattern], nofun⟩
    glob.scanFrom (.directory "x" (.file "x" .empty) .empty) 20 = some (.ok [["x", "x"]]) ∧
      glob.isMatch ["x", "x"] = true ∧ glob.isMatch ["x"] = false := by
  decide +kernel

end Bpt
