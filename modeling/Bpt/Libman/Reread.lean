-- SUMMARY: The pairs of a libman file, written and read again.
import Bpt.Libman.Separator

/-!
# Pairs that are read again

A written pair is one line with the key, a separator and the value. A key that
was read may end with a colon that the scan would pass over together with the
separator behind it.
-/

namespace Bpt.Libman

/-! ## Trimmed text -/

theorem trimView_cons {c : Char} (cs : List Char) (hc : Name.isSpace c = false) :
    trimView (c :: cs) = c :: cs.rdropWhile Name.isSpace := by
  rw [trimView_eq, List.dropWhile_cons_of_neg (by simp [hc])]
  exact rdropWhile_append_cons [] cs hc

theorem mem_of_mem_trimView {s : List Char} {c : Char} (h : c ∈ trimView s) : c ∈ s := by
  rw [trimView_eq] at h
  have hfront := (List.rdropWhile_prefix Name.isSpace _).mem h
  exact (List.dropWhile_suffix Name.isSpace).mem hfront

/-- Trimmed text in front of text that starts with no space stays. -/
theorem trimView_append_cons {key : List Char} (hkey : trimView key = key) {c : Char}
    (rest : List Char) (hc : Name.isSpace c = false) :
    trimView (key ++ c :: rest) = key ++ c :: rest.rdropWhile Name.isSpace := by
  cases key with
  | nil => exact trimView_cons rest hc
  | cons d ds =>
    have hd : Name.isSpace d = false := by
      apply trimView_head (d :: ds)
      rw [hkey]
      rfl
    rw [List.cons_append, trimView_cons _ hd, rdropWhile_append_cons _ _ hc, List.cons_append]

/-! ## What is read of a line -/

/-- A pair as a line can give it. -/
structure Pair.FromLine (pair : Pair) : Prop where
  key : Passed pair.key.toList ∨ EndsAtColon pair.key.toList
  trimmedKey : trimView pair.key.toList = pair.key.toList
  trimmedValue : trimView pair.value.toList = pair.value.toList
  noComment : pair.key.toList.head? ≠ some '#'
  lineBreak : '\n' ∉ pair.line.toList

/-- A line that is no comment, at the separator where it is split. -/
structure SplitsAt (wholeLine key value : List Char) : Prop where
  noComment : (trimView wholeLine).head? ≠ some '#'
  line_eq : trimView wholeLine = key ++ ':' :: value
  key : Passed key
  value : EndsKey value

theorem parseLine_eq_some {wholeLine : List Char} {pair : Pair} :
    parseLine wholeLine = .ok (some pair) ↔
      ∃ key value, SplitsAt wholeLine key value ∧
        pair = ⟨String.ofList (trimView key), String.ofList (trimView value)⟩ := by
  constructor
  · intro h
    by_cases hskip : trimView wholeLine = [] ∨ (trimView wholeLine).head? = some '#'
    · unfold parseLine at h
      dsimp only at h
      rw [if_pos hskip] at h
      cases h
    · obtain ⟨hempty, hcomment⟩ := not_or.mp hskip
      rw [parseLine_of_line hempty hcomment] at h
      cases hfound : splitKey (trimView wholeLine) with
      | none =>
        rw [hfound] at h
        cases h
      | some found =>
        rw [hfound] at h
        cases h
        obtain ⟨hkey, hvalue, hline⟩ := splitKey_eq_some.mp hfound
        exact ⟨found.1, found.2, ⟨hcomment, hline, hkey, hvalue⟩, rfl⟩
  · rintro ⟨key, value, hsplit, rfl⟩
    have hempty : trimView wholeLine ≠ [] := by
      rw [hsplit.line_eq]
      exact List.append_ne_nil_of_right_ne_nil _ (List.cons_ne_nil _ _)
    rw [parseLine_of_line hempty hsplit.noComment, hsplit.line_eq,
      hsplit.key.splitKey_eq hsplit.value]

namespace SplitsAt

variable {wholeLine key value : List Char}

/-- The key has no space in front. -/
theorem key_eq_append (h : SplitsAt wholeLine key value) :
    ∃ spaces, key = trimView key ++ spaces := by
  cases key with
  | nil => exact ⟨[], rfl⟩
  | cons c cs =>
    have hc : Name.isSpace c = false := by
      apply trimView_head wholeLine
      rw [h.line_eq]
      rfl
    obtain ⟨spaces, hspaces⟩ := List.rdropWhile_prefix Name.isSpace (l := cs)
    refine ⟨spaces, ?_⟩
    rw [trimView_cons cs hc, List.cons_append, hspaces]

theorem fromLine (h : SplitsAt wholeLine key value) (hbreak : '\n' ∉ wholeLine) :
    Pair.FromLine ⟨String.ofList (trimView key), String.ofList (trimView value)⟩ := by
  obtain ⟨spaces, hspaces⟩ := h.key_eq_append
  have hin : ∀ c, c ∈ key ++ ':' :: value → c ∈ wholeLine := by
    intro c hc
    apply mem_of_mem_trimView
    rw [h.line_eq]
    exact hc
  constructor
  case key =>
    rw [String.toList_ofList]
    have hkey : Passed (trimView key ++ spaces) := hspaces ▸ h.key
    exact hkey.of_append
  case trimmedKey =>
    rw [String.toList_ofList]
    exact trimView_trimView key
  case trimmedValue =>
    rw [String.toList_ofList]
    exact trimView_trimView value
  case noComment =>
    rw [String.toList_ofList]
    intro hhash
    apply h.noComment
    obtain ⟨rest, hrest⟩ := List.head?_eq_some_iff.mp hhash
    rw [h.line_eq, hspaces, hrest]
    rfl
  case lineBreak =>
    simp only [Pair.line, String.toList_append, String.toList_ofList, List.mem_append, not_or]
    refine ⟨⟨fun hk => ?_, by decide⟩, fun hv => ?_⟩
    · exact hbreak (hin _ (List.mem_append_left _ (mem_of_mem_trimView hk)))
    · apply hbreak (hin _ (List.mem_append_right _ _))
      exact List.mem_cons_of_mem _ (mem_of_mem_trimView hv)

end SplitsAt

/-! ## A pair on a line -/

namespace Pair.FromLine

variable {pair : Pair}

theorem trimView_line (h : pair.FromLine) :
    trimView pair.line.toList =
      pair.key.toList ++ ':' :: (' ' :: pair.value.toList).rdropWhile Name.isSpace := by
  have hline : pair.line.toList = pair.key.toList ++ ':' :: ' ' :: pair.value.toList := by
    simp [Pair.line, String.toList_append]
  rw [hline, trimView_append_cons h.trimmedKey _ (by decide)]

theorem endsKey_value (value : List Char) :
    EndsKey ((' ' :: value).rdropWhile Name.isSpace) := by
  have hfront := List.rdropWhile_prefix Name.isSpace (l := ' ' :: value)
  cases hrest : (' ' :: value).rdropWhile Name.isSpace with
  | nil => exact .inl rfl
  | cons d rest =>
    rw [hrest] at hfront
    exact .inr (congrArg some (List.cons_prefix_cons.mp hfront).1)

theorem line_noComment (h : pair.FromLine) : (trimView pair.line.toList).head? ≠ some '#' := by
  rw [h.trimView_line]
  intro hhash
  cases hkey : pair.key.toList with
  | nil =>
    rw [hkey] at hhash
    cases hhash
  | cons c cs =>
    rw [hkey] at hhash
    apply h.noComment
    rw [hkey]
    exact hhash

/-- A key that is passed over is found again. -/
theorem parseLine_line (h : pair.FromLine) (hkey : Passed pair.key.toList) :
    parseLine pair.line.toList = .ok (some pair) := by
  apply parseLine_eq_some.mpr
  refine ⟨_, _, ⟨h.line_noComment, h.trimView_line, hkey, endsKey_value _⟩, ?_⟩
  rw [trimView_rdropWhile, trimView_space, h.trimmedKey, h.trimmedValue, String.ofList_toList,
    String.ofList_toList]

/-- Behind a colon that is looked at, the written separator is not found. -/
theorem parseLine_line_ne (h : pair.FromLine) (hkey : EndsAtColon pair.key.toList) :
    parseLine pair.line.toList ≠ .ok (some pair) := by
  intro hparsed
  obtain ⟨key, value, hsplit, hpair⟩ := parseLine_eq_some.mp hparsed
  obtain ⟨before, hbefore, hpassed⟩ := hkey
  have hkeys : trimView key = trimView pair.key.toList := by
    rw [h.trimmedKey, congrArg Pair.key hpair, String.toList_ofList]
  have hfront : Passed (before ++ [':', ':']) := hpassed.append (.colon (by decide) .nil)
  have hfound := hsplit.key.splitKey_eq hsplit.value
  rw [← hsplit.line_eq, h.trimView_line, hbefore, List.append_assoc, List.singleton_append,
    List.append_cons, List.append_cons, List.append_assoc before, List.singleton_append,
    hfront.splitKey_append] at hfound
  obtain ⟨⟨more, _⟩, -, hmore⟩ := Option.map_eq_some_iff.mp hfound
  have hkey : key = pair.key.toList ++ ':' :: more := by
    rw [← (Prod.mk.inj hmore).1, hbefore]
    simp
  rw [hkey, trimView_append_cons h.trimmedKey _ (by decide), h.trimmedKey] at hkeys
  exact absurd (congrArg List.length hkeys) (by simp)

theorem parseLine_line_iff (h : pair.FromLine) :
    parseLine pair.line.toList = .ok (some pair) ↔ colonsAtEnd pair.key.toList % 2 = 0 := by
  cases h.key with
  | inl hpassed =>
    exact ⟨fun _ => hpassed.even_colonsAtEnd, fun _ => h.parseLine_line hpassed⟩
  | inr hends =>
    constructor
    · intro hparsed
      exact absurd hparsed (h.parseLine_line_ne hends)
    · intro heven
      have hodd := hends.odd_colonsAtEnd
      omega

end Pair.FromLine

/-! ## A file -/

theorem not_mem_linesFrom {part s line : List Char} (hpart : '\n' ∉ part)
    (h : line ∈ linesFrom part s) : '\n' ∉ line := by
  induction s generalizing part with
  | nil =>
    unfold linesFrom at h
    split at h
    · cases h
    · obtain rfl := List.mem_singleton.mp h
      exact mt List.mem_reverse.mp hpart
  | cons c cs ih =>
    unfold linesFrom at h
    split at h
    · cases h with
      | head => exact mt List.mem_reverse.mp hpart
      | tail _ h => exact ih List.not_mem_nil h
    next hc =>
      apply ih _ h
      exact mt List.mem_cons.mp (not_or.mpr ⟨Ne.symm hc, hpart⟩)

/-- The pairs that are read are those of the lines. -/
theorem mem_of_parseString {s : String} {pairs : List Pair} (h : parseString s = .ok pairs)
    (pair : Pair) :
    pair ∈ pairs ↔ ∃ line ∈ linesFrom [] s.toList, parseLine line = .ok (some pair) := by
  obtain ⟨found, hfound, hpairs⟩ := Fallible.bind_eq_ok.mp h
  obtain rfl := Fallible.pure_eq_ok.mp hpairs
  rw [List.reduceOption_mem_iff]
  constructor
  · exact Fallible.exists_mem_of_mem_mapM hfound
  · rintro ⟨line, hline, hparsed⟩
    obtain ⟨read, hread, heq⟩ := Fallible.exists_mem_of_mapM_eq_ok hfound hline
    rw [hparsed] at heq
    cases heq
    exact hread

theorem fromLine_of_parseString {s : String} {pairs : List Pair} (h : parseString s = .ok pairs)
    {pair : Pair} (hpair : pair ∈ pairs) : pair.FromLine := by
  obtain ⟨line, hline, hparsed⟩ := (mem_of_parseString h pair).mp hpair
  obtain ⟨key, value, hsplit, rfl⟩ := parseLine_eq_some.mp hparsed
  exact hsplit.fromLine (not_mem_linesFrom List.not_mem_nil hline)

theorem reduceOption_map_some (pairs : List Pair) : (pairs.map some).reduceOption = pairs := by
  induction pairs with
  | nil => rfl
  | cons pair pairs ih => rw [List.map_cons, List.reduceOption_cons_of_some, ih]

theorem eq_map_some_reduceOption {found : List (Option Pair)}
    (h : found.reduceOption.length = found.length) : found = found.reduceOption.map some := by
  have hsome := List.reduceOption_length_eq_iff.mp h
  clear h
  induction found with
  | nil => rfl
  | cons read found ih =>
    obtain ⟨pair, rfl⟩ := Option.isSome_iff_exists.mp (hsome read List.mem_cons_self)
    have hrest := ih fun x hx => hsome x (List.mem_cons_of_mem _ hx)
    rw [List.reduceOption_cons_of_some, List.map_cons, ← hrest]

/-- Written pairs are read again if every one of them is. -/
theorem parseString_writePairs_iff {pairs : List Pair} (h : ∀ pair ∈ pairs, pair.FromLine) :
    parseString (writePairs pairs) = .ok pairs ↔
      ∀ pair ∈ pairs, parseLine pair.line.toList = .ok (some pair) := by
  have hlines : linesFrom [] (writePairs pairs).toList =
      pairs.map fun pair => pair.line.toList := by
    rw [writePairs_toList]
    apply linesFrom_flatMap
    intro line hline
    obtain ⟨pair, hpair, rfl⟩ := List.mem_map.mp hline
    exact (h pair hpair).lineBreak
  unfold parseString
  rw [hlines, Fallible.bind_eq_ok]
  constructor
  · rintro ⟨found, hfound, hpairs⟩
    have hreduced := Fallible.pure_eq_ok.mp hpairs
    have hread := Fallible.mapM_eq_ok_iff.mp hfound
    have hall : found = pairs.map some := by
      rw [← hreduced]
      apply eq_map_some_reduceOption
      rw [hreduced, ← hread.length_eq, List.length_map]
    rw [hall, List.forall₂_map_left_iff, List.forall₂_map_right_iff, List.forall₂_same] at hread
    exact hread
  · intro hread
    refine ⟨pairs.map some, Fallible.mapM_eq_ok_iff.mpr ?_, ?_⟩
    · rw [List.forall₂_map_left_iff, List.forall₂_map_right_iff, List.forall₂_same]
      exact hread
    · rw [reduceOption_map_some]
      rfl

/-- In front of the separator of no line stand an odd number of colons and blanks. -/
def RereadLine (wholeLine : List Char) : Prop :=
  ∀ key value, SplitsAt wholeLine key value → colonsAtEnd (trimView key) % 2 = 0

/-- A file is read again as it was read if none of its keys ends with a colon that is looked at. -/
theorem rereads_iff {s : String} {pairs : List Pair} (h : parseString s = .ok pairs) :
    parseString (writePairs pairs) = .ok pairs ↔
      ∀ line ∈ linesFrom [] s.toList, RereadLine line := by
  have hlines := fun pair (hpair : pair ∈ pairs) => fromLine_of_parseString h hpair
  rw [parseString_writePairs_iff hlines]
  constructor
  · intro hread line hline key value hsplit
    have hpair := (mem_of_parseString h _).mpr
      ⟨line, hline, parseLine_eq_some.mpr ⟨key, value, hsplit, rfl⟩⟩
    have heven := (hlines _ hpair).parseLine_line_iff.mp (hread _ hpair)
    rwa [String.toList_ofList] at heven
  · intro heven pair hpair
    obtain ⟨line, hline, hparsed⟩ := (mem_of_parseString h pair).mp hpair
    obtain ⟨key, value, hsplit, rfl⟩ := parseLine_eq_some.mp hparsed
    apply (hlines _ hpair).parseLine_line_iff.mpr
    rw [String.toList_ofList]
    exact heven line hline key value hsplit

theorem rereads_iff_path :
    parseString (writePairs [⟨"a::b", "c"⟩]) = .ok [⟨"a::b", "c"⟩] ↔
      ∀ line ∈ linesFrom [] "a::b:  c".toList, RereadLine line :=
  rereads_iff (by decide)

/-- The key is read with its colon, and its written line is refused. -/
theorem not_rereads :
    parseString "a:\t: b" = .ok [⟨"a:", "b"⟩] ∧
      parseString (writePairs [⟨"a:", "b"⟩]) = .error (.invalidLine "a:: b") := by
  decide

end Bpt.Libman
