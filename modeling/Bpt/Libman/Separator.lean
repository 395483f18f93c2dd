-- SUMMARY: Where a libman line is split, and when that is at its first separator.
import Bpt.Libman.Parse

/-!
# Separators

A colon before a space or at the end of the line is a separator. The scan for it
passes over the character after any other colon, which may be the separator.
-/

namespace Bpt.Libman

/-! ## What the scan passes over -/

/-- What may follow the colon of a separator. -/
def EndsKey (value : List Char) : Prop := value = [] ∨ value.head? = some ' '

inductive Passed : List Char → Prop where
  | nil : Passed []
  | char {c : Char} {cs : List Char} (hc : c ≠ ':') (h : Passed cs) : Passed (c :: cs)
  | colon {d : Char} {cs : List Char} (hd : d ≠ ' ') (h : Passed cs) : Passed (':' :: d :: cs)

theorem Passed.append {front rest : List Char} (h : Passed front) (hrest : Passed rest) :
    Passed (front ++ rest) := by
  induction h with
  | nil => exact hrest
  | char hc _ ih => exact .char hc ih
  | colon hd _ ih => exact .colon hd ih

theorem Passed.splitKey_append {front : List Char} (h : Passed front) (rest : List Char) :
    splitKey (front ++ rest) = (splitKey rest).map fun found => (front ++ found.1, found.2) := by
  induction h with
  | nil => exact Option.map_id'.symm
  | @char c cs hc h ih =>
    cases hcs : cs ++ rest with
    | nil =>
      obtain ⟨rfl, rfl⟩ := List.append_eq_nil_iff.mp hcs
      exact if_neg hc
    | cons d ds =>
      rw [hcs] at ih
      rw [List.cons_append, hcs, splitKey, if_neg hc, ih, Option.map_map]
      rfl
  | @colon d cs hd h ih =>
    rw [List.cons_append, List.cons_append, splitKey, if_pos rfl, if_neg hd, ih, Option.map_map]
    rfl

theorem EndsKey.splitKey_eq {value : List Char} (h : EndsKey value) :
    splitKey (':' :: value) = some ([], value) := by
  cases value with
  | nil => rfl
  | cons d cs =>
    obtain rfl : d = ' ' := by simpa [EndsKey] using h
    rfl

theorem Passed.splitKey_eq {key value : List Char} (h : Passed key) (hvalue : EndsKey value) :
    splitKey (key ++ ':' :: value) = some (key, value) := by
  rw [h.splitKey_append, hvalue.splitKey_eq]
  exact congrArg (fun front => some (front, value)) (List.append_nil key)

/-- A line is split at the colon in front of which all is passed over. -/
theorem splitKey_eq_some {s key value : List Char} :
    splitKey s = some (key, value) ↔ Passed key ∧ EndsKey value ∧ s = key ++ ':' :: value := by
  constructor
  · intro h
    fun_induction splitKey s generalizing key with
    | case1 => cases h
    | case2 =>
      cases h
      exact ⟨.nil, .inl rfl, rfl⟩
    | case3 => cases h
    | case4 =>
      cases h
      exact ⟨.nil, .inr rfl, rfl⟩
    | case5 d cs hd ih =>
      obtain ⟨⟨rest, _⟩, hfound, heq⟩ := Option.map_eq_some_iff.mp h
      cases heq
      obtain ⟨hrest, hvalue, rfl⟩ := ih hfound
      exact ⟨.colon hd hrest, hvalue, rfl⟩
    | case6 c d cs hc ih =>
      obtain ⟨⟨rest, _⟩, hfound, heq⟩ := Option.map_eq_some_iff.mp h
      cases heq
      obtain ⟨hrest, hvalue, hcs⟩ := ih hfound
      exact ⟨.char hc hrest, hvalue, by rw [hcs]; rfl⟩
  · rintro ⟨hkey, hvalue, rfl⟩
    exact hkey.splitKey_eq hvalue

/-! ## Colons at the end of a key -/

/-- The length of the run of colons at the end. -/
def colonsAtEnd : List Char → Nat
  | [] => 0
  | c :: cs => if c = ':' ∧ colonsAtEnd cs = cs.length then cs.length + 1 else colonsAtEnd cs

theorem colonsAtEnd_le (s : List Char) : colonsAtEnd s ≤ s.length := by
  induction s with
  | nil => exact Nat.le_refl _
  | cons c cs ih =>
    unfold colonsAtEnd
    split
    · exact Nat.le_refl _
    · exact Nat.le_trans ih (Nat.le_succ _)

theorem colonsAtEnd_concat (s : List Char) : colonsAtEnd (s ++ [':']) = colonsAtEnd s + 1 := by
  induction s with
  | nil => rfl
  | cons c cs ih =>
    rw [List.cons_append, colonsAtEnd, ih, colonsAtEnd]
    simp only [List.length_append, List.length_singleton, Nat.add_right_cancel_iff]
    split <;> rfl

/-- The scan passes over colons at the end by twos. -/
theorem Passed.even_colonsAtEnd {s : List Char} (h : Passed s) : colonsAtEnd s % 2 = 0 := by
  induction h with
  | nil => rfl
  | char hc _ ih =>
    rw [colonsAtEnd, if_neg fun h => hc h.1]
    exact ih
  | @colon d cs hd _ ih =>
    have hle := colonsAtEnd_le cs
    rw [colonsAtEnd, colonsAtEnd]
    by_cases hall : d = ':' ∧ colonsAtEnd cs = cs.length
    · rw [if_pos hall, if_pos ⟨rfl, rfl⟩, List.length_cons]
      omega
    · rw [if_neg hall, if_neg]
      · exact ih
      · rw [List.length_cons]
        omega

/-- The colon at the end is the one that the scan looks at. -/
def EndsAtColon (key : List Char) : Prop := ∃ before, key = before ++ [':'] ∧ Passed before

theorem EndsAtColon.odd_colonsAtEnd {key : List Char} (h : EndsAtColon key) :
    colonsAtEnd key % 2 = 1 := by
  obtain ⟨before, rfl, hbefore⟩ := h
  have heven := hbefore.even_colonsAtEnd
  rw [colonsAtEnd_concat]
  omega

theorem EndsAtColon.char {c : Char} {cs : List Char} (hc : c ≠ ':') (h : EndsAtColon cs) :
    EndsAtColon (c :: cs) := by
  obtain ⟨before, rfl, hbefore⟩ := h
  exact ⟨c :: before, rfl, .char hc hbefore⟩

theorem EndsAtColon.colon {d : Char} {cs : List Char} (hd : d ≠ ' ') (h : EndsAtColon cs) :
    EndsAtColon (':' :: d :: cs) := by
  obtain ⟨before, rfl, hbefore⟩ := h
  exact ⟨':' :: d :: before, rfl, .colon hd hbefore⟩

theorem EndsAtColon.singleton : EndsAtColon [':'] := ⟨[], rfl, .nil⟩

/-- Without a separator in it, a key is passed over, or its last colon is looked at. -/
theorem passed_or_endsAtColon {key : List Char}
    (h : ∀ before after, key = before ++ ':' :: after → after.head? ≠ some ' ') :
    Passed key ∨ EndsAtColon key := by
  fun_induction splitKey key with
  | case1 => exact .inl .nil
  | case2 => exact .inr .singleton
  | case3 c hc => exact .inl (.char hc .nil)
  | case4 cs => exact absurd rfl (h [] _ rfl)
  | case5 d cs hd ih =>
    have hrest := ih fun before after heq => h (':' :: d :: before) after (by rw [heq]; rfl)
    exact hrest.imp (.colon hd) (.colon hd)
  | case6 c d cs hc ih =>
    have hrest := ih fun before after heq => h (c :: before) after (by rw [heq]; rfl)
    exact hrest.imp (.char hc) (.char hc)

/-- The front of what is passed over. -/
theorem Passed.of_append {key rest : List Char} (h : Passed (key ++ rest)) :
    Passed key ∨ EndsAtColon key := by
  fun_induction splitKey key with
  | case1 => exact .inl .nil
  | case2 => exact .inr .singleton
  | case3 c hc => exact .inl (.char hc .nil)
  | case4 cs =>
    cases h with
    | char hc => exact absurd rfl hc
    | colon hd => exact absurd rfl hd
  | case5 d cs hd ih =>
    cases h with
    | char hc => exact absurd rfl hc
    | colon _ hrest => exact (ih hrest).imp (.colon hd) (.colon hd)
  | case6 c d cs hc ih =>
    cases h with
    | char _ hrest => exact (ih hrest).imp (.char hc) (.char hc)
    | colon => exact absurd rfl hc

/-! ## The first separator -/

/-- The line at its first separator. -/
structure FirstSeparator (line key value : List Char) : Prop where
  line_eq : line = key ++ ':' :: value
  value : EndsKey value
  least : ∀ key' value', line = key' ++ ':' :: value' → EndsKey value' → key.length ≤ key'.length

theorem exists_firstSeparator {line key value : List Char} (hline : line = key ++ ':' :: value)
    (hvalue : EndsKey value) : ∃ key value, FirstSeparator line key value := by
  induction hn : key.length using Nat.strongRecOn generalizing key value with
  | ind n ih =>
    by_cases hless : ∃ key' value', line = key' ++ ':' :: value' ∧ EndsKey value' ∧
        key'.length < n
    · obtain ⟨key', value', hline', hvalue', hlt⟩ := hless
      exact ih key'.length hlt hline' hvalue' rfl
    · refine ⟨key, value, hline, hvalue, fun key' value' hline' hvalue' => ?_⟩
      apply Nat.le_of_not_lt
      intro hlt
      exact hless ⟨key', value', hline', hvalue', hn ▸ hlt⟩

namespace FirstSeparator

variable {line key value : List Char}

/-- There is no separator in the key. -/
theorem passed_or_endsAtColon (h : FirstSeparator line key value) :
    Passed key ∨ EndsAtColon key := by
  apply Libman.passed_or_endsAtColon
  rintro before after rfl hspace
  have hends : EndsKey (after ++ ':' :: value) := by
    cases after with
    | nil => cases hspace
    | cons c cs => exact .inr hspace
  have hle := h.least before _ (by rw [h.line_eq]; simp) hends
  simp at hle

theorem passed_iff (h : FirstSeparator line key value) :
    Passed key ↔ colonsAtEnd key % 2 = 0 := by
  constructor
  · exact Passed.even_colonsAtEnd
  · intro heven
    cases h.passed_or_endsAtColon with
    | inl hpassed => exact hpassed
    | inr hends =>
      have hodd := hends.odd_colonsAtEnd
      omega

/-- A key that is found is not in front of the first separator. -/
theorem key_eq_append (h : FirstSeparator line key value) {key' value' : List Char}
    (hfound : splitKey line = some (key', value')) :
    key' = key ∨ ∃ more, key' = key ++ ':' :: more := by
  obtain ⟨-, hvalue', hline⟩ := splitKey_eq_some.mp hfound
  have hle := h.least key' value' hline hvalue'
  obtain ⟨more, rfl⟩ : key <+: key' := by
    have hkey : key <+: line := ⟨_, h.line_eq.symm⟩
    have hkey' : key' <+: line := ⟨_, hline.symm⟩
    exact List.prefix_of_prefix_length_le hkey hkey' hle
  cases more with
  | nil => exact .inl (List.append_nil _)
  | cons c more =>
    rw [h.line_eq, List.append_assoc] at hline
    have hrest := List.append_cancel_left hline
    cases (List.cons.inj hrest).1
    exact .inr ⟨more, rfl⟩

end FirstSeparator

/-- More behind a key is seen when both are trimmed. -/
theorem trimView_append_ne {key more : List Char}
    (hstart : key.head?.any (fun c => Name.isSpace c = false) = true) :
    trimView (key ++ ':' :: more) ≠ trimView key := by
  obtain ⟨c, hhead, hfirst⟩ := (Option.any_eq_true _ _).mp hstart
  obtain ⟨cs, rfl⟩ := List.head?_eq_some_iff.mp hhead
  have hc : ¬ Name.isSpace c = true := by simpa using hfirst
  intro heq
  rw [trimView_eq, trimView_eq, List.cons_append, List.dropWhile_cons_of_neg hc,
    List.dropWhile_cons_of_neg hc, ← List.cons_append,
    rdropWhile_append_cons _ _ (by decide)] at heq
  have hlength := congrArg List.length heq
  have hle := (List.rdropWhile_prefix Name.isSpace (l := c :: cs)).length_le
  rw [List.length_append, List.length_cons (a := ':')] at hlength
  omega

/-! ## Lines -/

section

variable {wholeLine : List Char}

theorem parseLine_of_line (hempty : trimView wholeLine ≠ [])
    (hcomment : (trimView wholeLine).head? ≠ some '#') :
    parseLine wholeLine =
      match splitKey (trimView wholeLine) with
      | none => .error (.invalidLine (String.ofList wholeLine))
      | some (key, value) =>
        .ok (some ⟨String.ofList (trimView key), String.ofList (trimView value)⟩) := by
  unfold parseLine
  exact if_neg (not_or.mpr ⟨hempty, hcomment⟩)

theorem parseLine_eq_error_iff (hempty : trimView wholeLine ≠ [])
    (hcomment : (trimView wholeLine).head? ≠ some '#') :
    (∃ e, parseLine wholeLine = .error e) ↔ splitKey (trimView wholeLine) = none := by
  rw [parseLine_of_line hempty hcomment]
  cases splitKey (trimView wholeLine) <;> simp

/-- Where every first separator is found, no separator is missed. -/
theorem splitKey_eq_none_iff {line : List Char}
    (hsplit : ∀ key value, FirstSeparator line key value → splitKey line = some (key, value)) :
    splitKey line = none ↔ ¬ ∃ key value, line = key ++ ':' :: value ∧ EndsKey value := by
  constructor
  · rintro hnone ⟨key, value, hseparator, hvalue⟩
    obtain ⟨key', value', hfirst⟩ := exists_firstSeparator hseparator hvalue
    rw [hsplit key' value' hfirst] at hnone
    cases hnone
  · intro hnone
    cases hfound : splitKey line with
    | none => rfl
    | some found =>
      obtain ⟨-, hvalue, hseparator⟩ := splitKey_eq_some.mp hfound
      exact absurd ⟨found.1, found.2, hseparator, hvalue⟩ hnone

/-- A line that is read with the key of its first separator is split there. -/
theorem FirstSeparator.even_of_parseLine {key value : List Char} {pair : Pair}
    (hfirst : FirstSeparator (trimView wholeLine) key value)
    (hparsed : parseLine wholeLine = .ok (some pair))
    (hkey : pair.key = String.ofList (trimView key)) (hempty : trimView wholeLine ≠ [])
    (hcomment : (trimView wholeLine).head? ≠ some '#') : colonsAtEnd key % 2 = 0 := by
  rw [parseLine_of_line hempty hcomment] at hparsed
  cases hfound : splitKey (trimView wholeLine) with
  | none =>
    rw [hfound] at hparsed
    cases hparsed
  | some found =>
    obtain ⟨key', value'⟩ := found
    rw [hfound] at hparsed
    cases hparsed
    obtain ⟨hpassed, -, -⟩ := splitKey_eq_some.mp hfound
    cases hfirst.key_eq_append hfound with
    | inl heq => exact heq ▸ hpassed.even_colonsAtEnd
    | inr hmore =>
      obtain ⟨more, rfl⟩ := hmore
      cases key with
      | nil => rfl
      | cons c cs =>
        -- a longer key would be seen in the pair
        have hc : Name.isSpace c = false := by
          apply trimView_head wholeLine
          rw [hfirst.line_eq]
          rfl
        exact absurd (String.ofList_injective hkey) (trimView_append_ne (by simpa using hc))

/-- The line is the key and the value of the first separator, and an error without one. -/
def SplitsAtFirst (wholeLine : List Char) : Prop :=
  (∀ key value, FirstSeparator (trimView wholeLine) key value →
    parseLine wholeLine =
      .ok (some ⟨String.ofList (trimView key), String.ofList (trimView value)⟩)) ∧
  ((∃ e, parseLine wholeLine = .error e) ↔
    ¬ ∃ key value, trimView wholeLine = key ++ ':' :: value ∧ EndsKey value)

/-- The first separator is not looked at when the colons in front of it are odd in number. -/
theorem splitsAtFirst_iff (hempty : trimView wholeLine ≠ [])
    (hcomment : (trimView wholeLine).head? ≠ some '#') :
    SplitsAtFirst wholeLine ↔
      ∀ key value, FirstSeparator (trimView wholeLine) key value → colonsAtEnd key % 2 = 0 := by
  constructor
  · rintro ⟨hsplit, -⟩ key value hfirst
    exact hfirst.even_of_parseLine (hsplit key value hfirst) rfl hempty hcomment
  · intro heven
    have hsplit : ∀ key value, FirstSeparator (trimView wholeLine) key value →
        splitKey (trimView wholeLine) = some (key, value) := by
      intro key value hfirst
      have hpassed := hfirst.passed_iff.mpr (heven key value hfirst)
      exact splitKey_eq_some.mpr ⟨hpassed, hfirst.value, hfirst.line_eq⟩
    refine ⟨fun key value hfirst => ?_, ?_⟩
    · rw [parseLine_of_line hempty hcomment, hsplit key value hfirst]
    · exact (parseLine_eq_error_iff hempty hcomment).trans (splitKey_eq_none_iff hsplit)

theorem splitsAtFirst_iff_path :
    SplitsAtFirst "a::b: c".toList ↔
      ∀ key value, FirstSeparator (trimView "a::b: c".toList) key value →
        colonsAtEnd key % 2 = 0 :=
  splitsAtFirst_iff (by decide) (by decide)

/-- The second of two colons is the first separator of the line. -/
theorem not_splitsAtFirst : ¬ SplitsAtFirst "a:: b".toList := by
  intro h
  obtain ⟨e, herror⟩ : ∃ e, parseLine "a:: b".toList = .error e := ⟨_, rfl⟩
  exact h.2.mp ⟨e, herror⟩ ⟨"a:".toList, " b".toList, by decide, .inr rfl⟩

end

end Bpt.Libman
