-- SUMMARY: The four ways to spell an option with its value, which lead to the same action, state and kind of error.
import Bpt.Debate.Events

/-!
# Spellings of an option

An option with one value can be given by its long or its short spelling, with the
value in the same word or in the next one. All four forms come to the same, up to
the spelling that is reported.
-/

namespace Bpt.Debate

open Fallible

variable {σ ε : Type}

/-! ## Finding an option by its spelling -/

/-- The spellings of a chain do not clash with each other, nor with the syntax. -/
structure DistinctSpellings (chain : List (ArgumentParser σ ε)) : Prop where
  long : ∀ id id' arg arg' spelling, argumentAt chain id = some arg →
    argumentAt chain id' = some arg' → spelling ∈ arg.longSpellings →
    spelling ∈ arg'.longSpellings → id = id'
  short : ∀ id id' arg arg' spelling, argumentAt chain id = some arg →
    argumentAt chain id' = some arg' → spelling ∈ arg.shortSpellings →
    spelling ∈ arg'.shortSpellings → id = id'
  noEquals : ∀ id arg, argumentAt chain id = some arg →
    ∀ spelling ∈ arg.longSpellings ++ arg.shortSpellings, '=' ∉ spelling
  noHyphen : ∀ id arg, argumentAt chain id = some arg →
    ∀ spelling ∈ arg.longSpellings ++ arg.shortSpellings, spelling.head? ≠ some '-'

theorem matchArguments_eq_none {tryMatch : Argument σ ε → Strv} {depth index : Nat}
    {args : List (Argument σ ε)} (h : matchArguments tryMatch depth index args = none)
    {arg : Argument σ ε} (hmem : arg ∈ args) : tryMatch arg = [] := by
  induction args generalizing index with
  | nil => cases hmem
  | cons cand rest ih =>
    rw [matchArguments] at h
    split at h
    next hcand =>
      rcases List.mem_cons.mp hmem with rfl | hmem
      · simpa using hcand
      · exact ih h hmem
    next => cases h

theorem matchChain_eq_none {tryMatch : Argument σ ε → Strv} {chain : List (ArgumentParser σ ε)}
    (h : matchChain tryMatch chain = none) {id : ArgId} {arg : Argument σ ε}
    (hat : argumentAt chain id = some arg) : tryMatch arg = [] := by
  induction chain with
  | nil => cases hat
  | cons argset parents ih =>
    rw [matchChain] at h
    split at h
    next => cases h
    next hnone =>
      unfold argumentAt at hat
      rw [parserAt_cons] at hat
      split at hat
      next => exact matchArguments_eq_none hnone (List.mem_of_getElem? hat)
      next => exact ih h hat

/-- The only argument that matches is found. -/
theorem matchChain_of_only {tryMatch : Argument σ ε → Strv} {chain : List (ArgumentParser σ ε)}
    {id : ArgId} {arg : Argument σ ε} (hat : argumentAt chain id = some arg)
    (hmatch : tryMatch arg ≠ [])
    (honly : ∀ id' arg', argumentAt chain id' = some arg' → tryMatch arg' ≠ [] → id' = id) :
    matchChain tryMatch chain = some ⟨id, arg, tryMatch arg⟩ := by
  cases hfound : matchChain tryMatch chain with
  | none => exact absurd (matchChain_eq_none hfound hat) hmatch
  | some found =>
    obtain ⟨hmatched, hne⟩ := matchChain_eq_some hfound
    have hfoundAt := matchChain_at hfound
    have hid := honly found.id found.arg hfoundAt (hmatched ▸ hne)
    rw [hid, hat] at hfoundAt
    cases hfoundAt
    rw [← hid, ← hmatched]

/-- Where arguments match by a spelling that only one of them has, that one is found. -/
theorem matchChain_of_spelling {tryMatch : Argument σ ε → Strv}
    {spellings : Argument σ ε → List Strv} {chain : List (ArgumentParser σ ε)} {id : ArgId}
    {arg : Argument σ ε} {spelling : Strv}
    (hmatch : ∀ id' arg', argumentAt chain id' = some arg' →
      tryMatch arg' = if spelling ∈ spellings arg' then spelling else [])
    (hunique : ∀ id' arg', argumentAt chain id' = some arg' → spelling ∈ spellings arg' → id' = id)
    (hat : argumentAt chain id = some arg) (hmem : spelling ∈ spellings arg)
    (hspelling : spelling ≠ []) : matchChain tryMatch chain = some ⟨id, arg, spelling⟩ := by
  have hown : tryMatch arg = spelling := by rw [hmatch id arg hat, if_pos hmem]
  have hfound := matchChain_of_only hat (hown ▸ hspelling) fun id' arg' hat' hne => by
    rw [hmatch id' arg' hat'] at hne
    split at hne
    next hmem' => exact hunique id' arg' hat' hmem'
    next => exact absurd rfl hne
  rw [hfound, hown]

/-- A spelling ends where the word does, or at its first `=`. -/
theorem takeWhile_spelling {spelling tail : Strv} (hequals : '=' ∉ spelling)
    (htail : tail = [] ∨ tail.head? = some '=') :
    (spelling ++ tail).takeWhile (· ≠ '=') = spelling := by
  have hall : ∀ c ∈ spelling, decide (c ≠ '=') = true := by
    intro c hc
    refine decide_eq_true fun heq => hequals (heq ▸ hc)
  rw [List.takeWhile_append_of_pos hall]
  cases tail with
  | nil => exact List.append_nil _
  | cons c tail =>
    obtain rfl : c = '=' := by simpa using htail
    simp

theorem tryMatchLong_eq {arg : Argument σ ε} {spelling tail : Strv}
    (hequals : ∀ cand ∈ arg.longSpellings, '=' ∉ cand) (hspelling : '=' ∉ spelling)
    (htail : tail = [] ∨ tail.head? = some '=') :
    arg.tryMatchLong (spelling ++ tail) =
      if spelling ∈ arg.longSpellings then spelling else [] := by
  unfold Argument.tryMatchLong
  cases hfind : arg.longSpellings.find? _ with
  | none =>
    have hnone := List.find?_eq_none.mp hfind
    rw [if_neg fun hmem => hnone spelling hmem (by simpa using htail)]
    rfl
  | some cand =>
    have hmem := List.mem_of_find?_eq_some hfind
    have hcand := List.find?_some hfind
    simp only [Bool.and_eq_true, Bool.or_eq_true, List.isEmpty_iff, decide_eq_true_eq] at hcand
    obtain ⟨hbegins, hrest⟩ := hcand
    obtain ⟨rest, hrest'⟩ := List.isPrefixOf_iff_prefix.mp hbegins
    rw [← hrest', List.drop_left] at hrest
    have heq : cand = spelling := by
      rw [← takeWhile_spelling (hequals cand hmem) hrest, hrest',
        takeWhile_spelling hspelling htail]
    rw [← heq, if_pos hmem]
    rfl

theorem tryMatchShort_eq {arg : Argument σ ε} {spelling tail : Strv}
    (hother : ∀ cand ∈ arg.shortSpellings, cand <+: spelling ++ tail → cand = spelling) :
    arg.tryMatchShort (spelling ++ tail) =
      if spelling ∈ arg.shortSpellings then spelling else [] := by
  unfold Argument.tryMatchShort
  cases hfind : arg.shortSpellings.find? _ with
  | none =>
    have hnone := List.find?_eq_none.mp hfind
    rw [if_neg fun hmem => hnone spelling hmem
      (List.isPrefixOf_iff_prefix.mpr (List.prefix_append _ _))]
    rfl
  | some cand =>
    have hmem := List.mem_of_find?_eq_some hfind
    have hcand := List.find?_some hfind
    have heq := hother cand hmem (List.isPrefixOf_iff_prefix.mp hcand)
    rw [← heq, if_pos hmem]
    rfl

/-! ## The forms of an option -/

inductive OptionForm where
  /-- `--long=value` -/
  | longEquals
  /-- `--long value` -/
  | longWord
  /-- `-svalue` -/
  | shortJoined
  /-- `-s value` -/
  | shortWord

namespace OptionForm

/-- The words, and what they are taken as. -/
def taken (long short value : Strv) : OptionForm → List (Strv × Role)
  | longEquals => [('-' :: '-' :: (long ++ '=' :: value), .option)]
  | longWord => [('-' :: '-' :: long, .option), (value, .value)]
  | shortJoined => [('-' :: (short ++ value), .option)]
  | shortWord => [('-' :: short, .option), (value, .value)]

def words (long short value : Strv) (form : OptionForm) : List Strv :=
  (form.taken long short value).map Prod.fst

/-- The spelling that is reported. -/
def spelling (long short : Strv) : OptionForm → Strv
  | longEquals | longWord => '-' :: '-' :: long
  | shortJoined | shortWord => '-' :: short

end OptionForm

namespace ParseEngine

/-- What comes of giving a value to an option. -/
def giveValue (s : ParseEngine σ ε) (id : ArgId) (arg : Argument σ ε) (value spelling : Strv) :
    Except (Failure ε) (ParseEngine σ ε) :=
  if id ∈ s.seen ∧ arg.canRepeat = false then
    .error { kind := .invalidRepetition, argSpelling := some spelling }
  else
    match arg.action value spelling s.user with
    | .error err => .error { kind := .action err, argSpelling := some spelling }
    | .ok user => .ok { s with seen := s.seen.insert id, user := user }

/-- The words are taken off the command line. -/
def skip (s : ParseEngine σ ε) (taken : List (Strv × Role)) (rest : List Strv) :
    ParseEngine σ ε :=
  { s with remaining := rest, consumed := s.consumed ++ taken }

theorem tryParseLong_of_match {s : ParseEngine σ ε} {given tail : Strv} {rest : List Strv}
    {found : Match σ ε} (hgiven : s.remaining = given :: rest) (hhelp : tail ≠ "help".toList)
    (hfound : matchChain (fun cand => cand.tryMatchLong tail) s.chain = some found) :
    s.tryParseLong tail =
      Except.mapError (Failure.spelled ('-' :: '-' :: found.matched)) (do
        let s ← (s.skip [(given, .option)] rest).see found.id found.arg
        let s ← dispatchLong s found.arg (tail.drop found.matched.length)
          ('-' :: '-' :: found.matched)
        return some s) := by
  unfold tryParseLong
  rw [if_neg hhelp, hfound]
  dsimp only
  unfold shift
  rw [hgiven]
  rfl

section
variable {s : ParseEngine σ ε} {id : ArgId} {arg : Argument σ ε} {value spelling given : Strv}
  {rest : List Strv}

/-- Both steps report the spelling when they fail. -/
theorem giveValue_eq (s : ParseEngine σ ε) (id : ArgId) (arg : Argument σ ε)
    (value spelling : Strv) :
    s.giveValue id arg value spelling =
      Except.mapError (Failure.spelled spelling) (do
        let s ← s.see id arg
        s.act (arg.action value spelling)) := by
  unfold giveValue see
  split
  next => rfl
  next =>
    cases haction : arg.action value spelling s.user <;>
      simp [act, haction, Except.mapError, Failure.spelled, Bind.bind, Except.bind]

theorem dispatchLong_joined (hnargs : arg.nargs = 1) :
    dispatchLong s arg ('=' :: value) spelling = s.act (arg.action value spelling) := by
  simp [dispatchLong, hnargs]

theorem dispatchLong_word (hnargs : arg.nargs = 1) (hgiven : s.remaining = value :: rest) :
    dispatchLong s arg [] spelling =
      (s.skip [(value, .value)] rest).act (arg.action value spelling) := by
  have hend : ¬ s.atEnd = true := by simp [atEnd, hgiven]
  have hcurrent : s.currentArg = .ok value := by
    unfold currentArg
    rw [hgiven]
  unfold dispatchLong
  rw [hnargs, if_neg (by decide)]
  change takeValues _ arg spelling 1 0 s = _
  rw [takeValues, if_neg hend, hcurrent]
  cases haction : arg.action value spelling s.user with
  | error err => simp [act, haction, skip, Bind.bind, Except.bind]
  | ok user => simp [act, haction, skip, shift, hgiven, takeValues, Bind.bind, Except.bind]

/-- The value in the word of a short option. -/
theorem dispatchShort_joined (hnargs : arg.nargs = 1) (hvalue : value ≠ [])
    (hgiven : s.remaining = given :: rest) :
    dispatchShort s arg value spelling =
      ((s.skip [(given, .option)] rest).act (arg.action value spelling)).map ([], ·) := by
  unfold dispatchShort
  rw [hnargs, if_neg (by decide), if_pos rfl, if_neg hvalue]
  cases haction : arg.action value spelling s.user with
  | error err => simp [act, haction, skip, Except.map, Bind.bind, Except.bind]
  | ok user =>
    simp [act, haction, skip, shift, hgiven, Except.map, Bind.bind, Except.bind, pure, Except.pure]

theorem dispatchShort_word (hnargs : arg.nargs = 1)
    (hgiven : s.remaining = given :: value :: rest) :
    dispatchShort s arg [] spelling =
      ((s.skip [(given, .option), (value, .value)] rest).act (arg.action value spelling)).map
        ([], ·) := by
  unfold dispatchShort
  rw [hnargs, if_neg (by decide), if_pos rfl, if_pos rfl]
  cases haction : arg.action value spelling s.user with
  | error err =>
    simp [act, haction, skip, shift, hgiven, atEnd, currentArg, Except.map, Bind.bind, Except.bind]
  | ok user =>
    simp [act, haction, skip, shift, hgiven, atEnd, currentArg, Except.map, Bind.bind, Except.bind,
      pure, Except.pure]

theorem see_skip (s : ParseEngine σ ε) (id : ArgId) (arg : Argument σ ε)
    (taken : List (Strv × Role)) (rest : List Strv) :
    (s.skip taken rest).see id arg = (s.see id arg).map fun s => s.skip taken rest := by
  unfold see
  by_cases h : id ∈ s.seen ∧ arg.canRepeat = false
  · have hskipped : id ∈ (s.skip taken rest).seen ∧ arg.canRepeat = false := h
    rw [if_pos h, if_pos hskipped]
    rfl
  · have hskipped : ¬ (id ∈ (s.skip taken rest).seen ∧ arg.canRepeat = false) := h
    rw [if_neg h, if_neg hskipped]
    rfl

theorem skip_skip (s : ParseEngine σ ε) (taken more : List (Strv × Role))
    (after rest : List Strv) :
    (s.skip taken after).skip more rest = s.skip (taken ++ more) rest := by
  simp [skip]

theorem skip_nil (hgiven : s.remaining = rest) : s.skip [] rest = s := by
  subst hgiven
  simp [skip]

/-- A long option whose value is taken is given it. -/
theorem giveValue_long {tail : Strv} {after : List Strv} {taken more : List (Strv × Role)}
    (hdispatch : ∀ s : ParseEngine σ ε, s.remaining = after → dispatchLong s arg tail spelling =
      (s.skip more rest).act (arg.action value spelling)) :
    Except.mapError (Failure.spelled spelling) (do
        let s ← (s.skip taken after).see id arg
        let s ← dispatchLong s arg tail spelling
        return some s) =
      ((s.skip (taken ++ more) rest).giveValue id arg value spelling).map some := by
  rw [giveValue_eq, see_skip, see_skip]
  cases s.see id arg with
  | error err => rfl
  | ok s₁ =>
    simp only [Except.map, Bind.bind, Except.bind]
    rw [hdispatch _ rfl, skip_skip]
    cases (s₁.skip (taken ++ more) rest).act (arg.action value spelling) <;> rfl

/-- A short option whose value is taken is given it, and leaves nothing of the group. -/
theorem giveValue_short {found : Match σ ε} {tail : Strv} {after : List Strv}
    {taken : List (Strv × Role)} (hgiven : s.remaining = after)
    (hdispatch : ∀ s : ParseEngine σ ε, s.remaining = after →
      dispatchShort s found.arg (tail.drop found.matched.length) ('-' :: found.matched) =
        ((s.skip taken rest).act (found.arg.action value ('-' :: found.matched))).map ([], ·)) :
    parseShortArgument s found tail =
      ((s.skip taken rest).giveValue found.id found.arg value ('-' :: found.matched)).map
        ([], ·) := by
  rw [giveValue_eq, see_skip]
  unfold parseShortArgument
  cases hsee : s.see found.id found.arg with
  | error err => rfl
  | ok s₁ =>
    simp only [Except.map, Bind.bind, Except.bind]
    rw [hdispatch s₁ ((see_eq_ok hsee).remaining.trans hgiven)]
    cases (s₁.skip taken rest).act _ <;> rfl

theorem parseShortGroup_of_match {s : ParseEngine σ ε} {tail : Strv} {found : Match σ ε}
    {result : Except (Failure ε) (ParseEngine σ ε)}
    (hfound : matchChain (fun cand => cand.tryMatchShort tail) s.chain = some found)
    (hparse : parseShortArgument s found tail = result.map ([], ·)) :
    s.parseShortGroup tail = result.map some := by
  rw [parseShortGroup]
  split
  next hnone => rw [hnone] at hfound; cases hfound
  next found' hfound' =>
    rw [hfound'] at hfound
    cases hfound
    split
    next err herr =>
      rw [hparse] at herr
      cases result with
      | error err' =>
        cases herr
        rfl
      | ok s₁ => cases herr
    next tail' s' hok =>
      rw [hparse] at hok
      cases result with
      | error err' => cases hok
      | ok s₁ =>
        cases hok
        rw [if_pos rfl]
        rfl

theorem parseAnother_of_given {result : Except (Failure ε) (ParseEngine σ ε)}
    (hgiven : s.remaining = given :: rest) (htry : s.tryParseGiven given = result.map some) :
    s.parseAnother = result := by
  unfold parseAnother currentArg
  rw [hgiven]
  simp only [Bind.bind, Except.bind]
  rw [htry]
  cases result <;> rfl

end

/-! ### All forms come to the same -/

/-- An option with one value, two of its spellings, and a value. No other short
spelling begins the word in which the short one and the value are joined. -/
structure SpelledOption (chain : List (ArgumentParser σ ε)) (id : ArgId) (arg : Argument σ ε)
    (long short value : Strv) : Prop where
  placed : argumentAt chain id = some arg
  nargs : arg.nargs = 1
  isLong : long ∈ arg.longSpellings
  isShort : short ∈ arg.shortSpellings
  notHelp : long ≠ "help".toList
  notH : short ≠ "h".toList
  alone : ∀ id' arg', argumentAt chain id' = some arg' → ∀ cand ∈ arg'.shortSpellings,
    cand <+: short ++ value → cand = short
  value : value ≠ []

/-- Every form gives the value to the option, and takes its own words only. -/
def Interchangeable (s : ParseEngine σ ε) (id : ArgId) (arg : Argument σ ε)
    (long short value : Strv) : Prop :=
  ∀ (form : OptionForm) (rest : List Strv),
    parseAnother { s with remaining := form.words long short value ++ rest } =
      (s.skip (form.taken long short value) rest).giveValue id arg value (form.spelling long short)

section
variable {s : ParseEngine σ ε} {id : ArgId} {arg : Argument σ ε} {long short value : Strv}

theorem matchChain_long {tail : Strv} (hdistinct : DistinctSpellings s.chain)
    (hspelled : SpelledOption s.chain id arg long short value) (hlong : long ≠ [])
    (htail : tail = [] ∨ tail.head? = some '=') :
    matchChain (fun cand => cand.tryMatchLong (long ++ tail)) s.chain = some ⟨id, arg, long⟩ := by
  have hequals : ∀ id' arg', argumentAt s.chain id' = some arg' →
      ∀ cand ∈ arg'.longSpellings, '=' ∉ cand := fun id' arg' hat cand hmem =>
    hdistinct.noEquals id' arg' hat cand (List.mem_append_left _ hmem)
  refine matchChain_of_spelling (fun id' arg' hat => ?_) (fun id' arg' hat hmem => ?_)
    hspelled.placed hspelled.isLong hlong
  · exact tryMatchLong_eq (hequals id' arg' hat)
      (hequals id arg hspelled.placed long hspelled.isLong) htail
  · exact hdistinct.long id' id arg' arg long hat hspelled.placed hmem hspelled.isLong

theorem matchChain_short {tail : Strv} (hdistinct : DistinctSpellings s.chain)
    (hspelled : SpelledOption s.chain id arg long short value) (hshort : short ≠ [])
    (htail : tail <+: value) :
    matchChain (fun cand => cand.tryMatchShort (short ++ tail)) s.chain =
      some ⟨id, arg, short⟩ := by
  refine matchChain_of_spelling (fun id' arg' hat => ?_) (fun id' arg' hat hmem => ?_)
    hspelled.placed hspelled.isShort hshort
  · refine tryMatchShort_eq fun cand hcand hbegins => hspelled.alone id' arg' hat cand hcand ?_
    exact hbegins.trans ((List.prefix_append_right_inj short).mpr htail)
  · exact hdistinct.short id' id arg' arg short hat hspelled.placed hmem hspelled.isShort

/-- A long option that is followed by nothing or by a `=` is found and dispatched. -/
theorem tryParseGiven_long {word tail : Strv} {after rest : List Strv} {more : List (Strv × Role)}
    (hdistinct : DistinctSpellings s.chain)
    (hspelled : SpelledOption s.chain id arg long short value) (hlong : long ≠ [])
    (hword : word = '-' :: '-' :: (long ++ tail)) (hgiven : s.remaining = word :: after)
    (htail : tail = [] ∨ tail.head? = some '=')
    (hdispatch : ∀ t : ParseEngine σ ε, t.remaining = after →
      dispatchLong t arg tail ('-' :: '-' :: long) =
        (t.skip more rest).act (arg.action value ('-' :: '-' :: long))) :
    s.tryParseGiven word =
      ((s.skip ((word, .option) :: more) rest).giveValue id arg value
        ('-' :: '-' :: long)).map some := by
  subst hword
  have hhelp : long ++ tail ≠ "help".toList := by
    rcases htail with rfl | htail
    · rw [List.append_nil]
      exact hspelled.notHelp
    · intro heq
      have hmem : '=' ∈ "help".toList := heq ▸ List.mem_append_right _ (List.mem_of_mem_head? htail)
      exact absurd hmem (by decide)
  have hfound := matchChain_long hdistinct hspelled hlong htail
  unfold tryParseGiven
  rw [if_neg (by simp [isOption]), if_pos (by simp)]
  rw [List.drop_succ_cons, List.drop_succ_cons, List.drop_zero,
    tryParseLong_of_match hgiven hhelp hfound]
  dsimp only
  rw [List.drop_left]
  exact giveValue_long hdispatch

/-- A short option is found in its group, and is the last of it. -/
theorem tryParseGiven_short {word tail : Strv} {after rest : List Strv}
    {taken : List (Strv × Role)} (hdistinct : DistinctSpellings s.chain)
    (hspelled : SpelledOption s.chain id arg long short value) (hshort : short ≠ [])
    (hword : word = '-' :: (short ++ tail)) (hgiven : s.remaining = word :: after)
    (htail : tail = [] ∨ tail = value)
    (hdispatch : ∀ t : ParseEngine σ ε, t.remaining = word :: after →
      dispatchShort t arg tail ('-' :: short) =
        ((t.skip taken rest).act (arg.action value ('-' :: short))).map ([], ·)) :
    s.tryParseGiven word =
      ((s.skip taken rest).giveValue id arg value ('-' :: short)).map some := by
  subst hword
  obtain ⟨c, cs, rfl⟩ := List.exists_cons_of_ne_nil hshort
  have hhyphen : c ≠ '-' := by
    have hhead := hdistinct.noHyphen id arg hspelled.placed _
      (List.mem_append_right _ hspelled.isShort)
    simpa using hhead
  have hh : (c :: cs) ++ tail ≠ "h".toList := by
    rcases htail with rfl | rfl
    · rw [List.append_nil]
      exact hspelled.notH
    · -- two characters at least
      intro heq
      have hrest : cs ++ tail = [] := (List.cons.inj heq).2
      exact hspelled.value (List.append_eq_nil_iff.mp hrest).2
  have hbegins : tail <+: value := by
    rcases htail with rfl | rfl
    · exact List.nil_prefix
    · exact List.prefix_refl _
  have hfound := matchChain_short hdistinct hspelled hshort hbegins
  unfold tryParseGiven
  rw [if_neg (by simp [isOption]), if_neg (by simpa using hhyphen)]
  rw [List.drop_succ_cons, List.drop_zero]
  unfold tryParseShort
  rw [if_neg hh]
  refine parseShortGroup_of_match hfound (giveValue_short hgiven fun t ht => ?_)
  dsimp only
  rw [List.drop_left]
  exact hdispatch t ht

/-- An option whose spellings are not empty can be spelled in all four forms. -/
theorem parseAnother_interchangeable (s : ParseEngine σ ε) (id : ArgId) (arg : Argument σ ε)
    (long short value : Strv) (hdistinct : DistinctSpellings s.chain)
    (hspelled : SpelledOption s.chain id arg long short value) (hlong : long ≠ [])
    (hshort : short ≠ []) : Interchangeable s id arg long short value := by
  intro form rest
  have hnargs := hspelled.nargs
  cases form with
  | longEquals =>
    refine parseAnother_of_given rfl
      (tryParseGiven_long hdistinct hspelled hlong rfl rfl (.inr rfl) fun t ht => ?_)
    have hrest : t.remaining = rest := ht
    rw [dispatchLong_joined hnargs, skip_nil hrest]
  | longWord =>
    refine parseAnother_of_given rfl
      (tryParseGiven_long hdistinct hspelled hlong (by rw [List.append_nil]) rfl (.inl rfl) ?_)
    exact fun t ht => dispatchLong_word hnargs ht
  | shortJoined =>
    refine parseAnother_of_given rfl
      (tryParseGiven_short hdistinct hspelled hshort rfl rfl (.inr rfl) ?_)
    exact fun t ht => dispatchShort_joined hnargs hspelled.value ht
  | shortWord =>
    refine parseAnother_of_given rfl
      (tryParseGiven_short hdistinct hspelled hshort (by rw [List.append_nil]) rfl (.inl rfl) ?_)
    exact fun t ht => dispatchShort_word hnargs ht

end

end ParseEngine

/-! ### The options of a build -/

open ParseEngine

structure BuildPaths where
  projectDir : Strv := []
  outPath : Strv := []

def projectArg : Argument BuildPaths Unit where
  longSpellings := ["project".toList]
  shortSpellings := ["p".toList]
  valname := "<project-path>".toList
  action value _ opts := .ok { opts with projectDir := value }

def outArg : Argument BuildPaths Unit where
  longSpellings := ["out".toList, "output".toList]
  shortSpellings := ["o".toList]
  valname := "<path>".toList
  action value _ opts := .ok { opts with outPath := value }

def buildParser : ArgumentParser BuildPaths Unit := .mk [projectArg, outArg] none

theorem argumentAt_build {id : ArgId} {arg : Argument BuildPaths Unit}
    (h : argumentAt [buildParser] id = some arg) :
    (id = ⟨0, 0⟩ ∧ arg = projectArg) ∨ (id = ⟨0, 1⟩ ∧ arg = outArg) := by
  obtain ⟨depth, index⟩ := id
  cases depth with
  | zero =>
    match index, h with
    | 0, h => exact .inl ⟨rfl, (Option.some.inj h).symm⟩
    | 1, h => exact .inr ⟨rfl, (Option.some.inj h).symm⟩
  | succ depth => cases h

theorem distinctSpellings_build : DistinctSpellings [buildParser] where
  long id id' arg arg' spelling h h' hmem hmem' := by
    rcases argumentAt_build h with ⟨rfl, rfl⟩ | ⟨rfl, rfl⟩ <;>
      rcases argumentAt_build h' with ⟨rfl, rfl⟩ | ⟨rfl, rfl⟩ <;>
      simp_all [projectArg, outArg]
  short id id' arg arg' spelling h h' hmem hmem' := by
    rcases argumentAt_build h with ⟨rfl, rfl⟩ | ⟨rfl, rfl⟩ <;>
      rcases argumentAt_build h' with ⟨rfl, rfl⟩ | ⟨rfl, rfl⟩ <;>
      simp_all [projectArg, outArg]
  noEquals id arg h := by
    rcases argumentAt_build h with ⟨rfl, rfl⟩ | ⟨rfl, rfl⟩ <;> decide
  noHyphen id arg h := by
    rcases argumentAt_build h with ⟨rfl, rfl⟩ | ⟨rfl, rfl⟩ <;> decide

theorem interchangeable_output :
    Interchangeable (start buildParser [] [] {}) ⟨0, 1⟩ outArg "output".toList "o".toList
      "=-dir".toList :=
  parseAnother_interchangeable _ _ _ _ _ _ distinctSpellings_build
    { placed := rfl
      nargs := rfl
      isLong := by decide
      isShort := by decide
      notHelp := by decide
      notH := by decide
      alone := fun id arg h => by
        rcases argumentAt_build h with ⟨rfl, rfl⟩ | ⟨rfl, rfl⟩ <;> decide
      value := by decide }
    (by decide) (by decide)

/-! ### Empty spellings -/

def spelledArg (long short : Strv) : Argument BuildPaths Unit where
  longSpellings := [long]
  shortSpellings := [short]
  action value _ opts := .ok { opts with outPath := value }

theorem argumentAt_spelled {long short : Strv} {id : ArgId} {arg : Argument BuildPaths Unit}
    (h : argumentAt [.mk [spelledArg long short] none] id = some arg) :
    id = ⟨0, 0⟩ ∧ arg = spelledArg long short := by
  obtain ⟨depth, index⟩ := id
  cases depth with
  | zero =>
    match index, h with
    | 0, h => exact ⟨rfl, (Option.some.inj h).symm⟩
  | succ depth => cases h

/-- An option that is alone has distinct spellings. -/
theorem distinctSpellings_spelled {long short : Strv} (hlong : '=' ∉ long ∧ long.head? ≠ some '-')
    (hshort : '=' ∉ short ∧ short.head? ≠ some '-') :
    DistinctSpellings [.mk [spelledArg long short] none] where
  long _ _ _ _ _ h h' _ _ := (argumentAt_spelled h).1.trans (argumentAt_spelled h').1.symm
  short _ _ _ _ _ h h' _ _ := (argumentAt_spelled h).1.trans (argumentAt_spelled h').1.symm
  noEquals id arg h := by
    rw [(argumentAt_spelled h).2]
    simpa [spelledArg] using And.intro hlong.1 hshort.1
  noHyphen id arg h := by
    rw [(argumentAt_spelled h).2]
    simpa [spelledArg] using And.intro hlong.2 hshort.2

theorem spelledOption_spelled {long short value : Strv} (hhelp : long ≠ "help".toList)
    (hh : short ≠ "h".toList) (hvalue : value ≠ []) :
    SpelledOption [.mk [spelledArg long short] none] ⟨0, 0⟩ (spelledArg long short) long short
      value where
  placed := rfl
  nargs := rfl
  isLong := List.mem_cons_self
  isShort := List.mem_cons_self
  notHelp := hhelp
  notH := hh
  alone id arg h := by
    rw [(argumentAt_spelled h).2]
    simp [spelledArg]
  value := hvalue

/-- Neither the long nor the short spelling may be empty. To match nothing is not to
match, so that `--=dir` is not recognized in the first case, and `-dir` in the
second. -/
theorem not_interchangeable_empty :
    (¬ ∀ (s : ParseEngine BuildPaths Unit) (id : ArgId) (arg : Argument BuildPaths Unit)
        (long short value : Strv), DistinctSpellings s.chain →
        SpelledOption s.chain id arg long short value → short ≠ [] →
        Interchangeable s id arg long short value) ∧
      ¬ ∀ (s : ParseEngine BuildPaths Unit) (id : ArgId) (arg : Argument BuildPaths Unit)
        (long short value : Strv), DistinctSpellings s.chain →
        SpelledOption s.chain id arg long short value → long ≠ [] →
        Interchangeable s id arg long short value := by
  constructor
  · intro h
    have hforms := h (start (.mk [spelledArg [] "o".toList] none) [] [] {}) ⟨0, 0⟩ _ [] "o".toList
      "dir".toList (distinctSpellings_spelled (by decide) (by decide))
      (spelledOption_spelled (by decide) (by decide) (by decide)) (by decide)
    have hresult := congrArg Except.toBool (hforms .longEquals [])
    revert hresult
    decide +kernel
  · intro h
    have hforms := h (start (.mk [spelledArg "out".toList []] none) [] [] {}) ⟨0, 0⟩ _
      "out".toList [] "dir".toList (distinctSpellings_spelled (by decide) (by decide))
      (spelledOption_spelled (by decide) (by decide) (by decide)) (by decide)
    have hresult := congrArg Except.toBool (hforms .shortJoined [])
    revert hresult
    decide +kernel

end Bpt.Debate
