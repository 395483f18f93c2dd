-- SUMMARY: The parsing of command lines makes progress, and takes every word once, but at groups of switches.
import Bpt.Debate.ArgumentParser

/-!
# Progress of parsing

Every step takes the current word and possibly values after it. The exception is
a group of short switches: its arguments are dispatched, and the word stays the
current one.
-/

namespace Bpt.Debate

open Fallible

variable {σ ε : Type}

namespace ParseEngine

/-! ## What the parts of a step take -/

/-- From one state to the other the words are taken as the history says. -/
structure Takes (s s' : ParseEngine σ ε) (taken : List (Strv × Role)) : Prop where
  remaining : s.remaining = taken.map Prod.fst ++ s'.remaining
  consumed : s'.consumed = s.consumed ++ taken

theorem Takes.trans {s s' s'' : ParseEngine σ ε} {taken more : List (Strv × Role)}
    (h : Takes s s' taken) (h' : Takes s' s'' more) : Takes s s'' (taken ++ more) where
  remaining := by rw [h.remaining, h'.remaining, List.map_append, List.append_assoc]
  consumed := by rw [h'.consumed, h.consumed, List.append_assoc]

/-- No word is taken, and no subcommand entered. -/
structure Silent (s s' : ParseEngine σ ε) : Prop where
  remaining : s'.remaining = s.remaining
  consumed : s'.consumed = s.consumed
  chain : s'.chain = s.chain

theorem Silent.refl (s : ParseEngine σ ε) : Silent s s := ⟨rfl, rfl, rfl⟩

theorem Silent.trans {s s' s'' : ParseEngine σ ε} (h : Silent s s') (h' : Silent s' s'') :
    Silent s s'' :=
  ⟨h'.remaining.trans h.remaining, h'.consumed.trans h.consumed, h'.chain.trans h.chain⟩

theorem Silent.takes {s s' s'' : ParseEngine σ ε} {taken : List (Strv × Role)} (h : Silent s s')
    (h' : Takes s' s'' taken) : Takes s s'' taken :=
  ⟨h.remaining ▸ h'.remaining, h.consumed ▸ h'.consumed⟩

theorem currentArg_eq_ok {s : ParseEngine σ ε} {given : Strv} (h : s.currentArg = .ok given) :
    ∃ after, s.remaining = given :: after := by
  unfold currentArg at h
  split at h
  next => cases h
  next word after hremaining =>
    cases h
    exact ⟨after, hremaining⟩

theorem see_eq_ok {s s' : ParseEngine σ ε} {id : ArgId} {arg : Argument σ ε}
    (h : s.see id arg = .ok s') : Silent s s' := by
  unfold see at h
  split at h
  · cases h
  · cases h
    exact ⟨rfl, rfl, rfl⟩

theorem act_eq_ok {s s' : ParseEngine σ ε} {action : σ → Except ε σ}
    (h : s.act action = .ok s') : Silent s s' := by
  unfold act at h
  split at h
  · cases h
  · cases h
    exact ⟨rfl, rfl, rfl⟩

theorem actIf_eq_ok {s s' : ParseEngine σ ε} {action : Option (σ → Except ε σ)}
    (h : s.actIf action = .ok s') : Silent s s' := by
  cases action with
  | none =>
    cases h
    exact .refl s
  | some action => exact act_eq_ok h

theorem shift_eq_ok {s s' : ParseEngine σ ε} {role : Role} (h : s.shift role = .ok s') :
    ∃ word, s.remaining.head? = some word ∧ Takes s s' [(word, role)] := by
  unfold shift at h
  split at h
  next => cases h
  next word rest hremaining =>
    cases h
    exact ⟨word, by rw [hremaining]; rfl, by rw [hremaining]; rfl, rfl⟩

/-- The taken words are values. -/
def AllValues (taken : List (Strv × Role)) : Prop := ∀ word ∈ taken, word.2 = .value

theorem takeValues_eq_ok {message : String} {arg : Argument σ ε} {spelling : Strv} {count i : Nat}
    {s s' : ParseEngine σ ε} (h : takeValues message arg spelling count i s = .ok s') :
    ∃ taken, AllValues taken ∧ Takes s s' taken := by
  induction count generalizing i s with
  | zero =>
    cases h
    exact ⟨[], by simp [AllValues], rfl, (List.append_nil _).symm⟩
  | succ count ih =>
    rw [takeValues] at h
    split at h
    · cases h
    obtain ⟨_, -, h⟩ := bind_eq_ok.mp h
    obtain ⟨s₁, hact, h⟩ := bind_eq_ok.mp h
    obtain ⟨s₂, hshift, h⟩ := bind_eq_ok.mp h
    obtain ⟨word, -, htakes⟩ := shift_eq_ok hshift
    obtain ⟨taken, hvalues, hrest⟩ := ih h
    refine ⟨(word, .value) :: taken, ?_, (act_eq_ok hact).takes (htakes.trans hrest)⟩
    intro word' hword'
    rcases List.mem_cons.mp hword' with rfl | hword'
    · rfl
    · exact hvalues word' hword'

/-- The word is taken as an option, and words after it as its values. -/
def TakesOption (s s' : ParseEngine σ ε) (given : Strv) : Prop :=
  ∃ taken, AllValues taken ∧ Takes s s' ((given, .option) :: taken)

theorem dispatchLong_eq_ok {s s' : ParseEngine σ ε} {arg : Argument σ ε} {tail given : Strv}
    (h : dispatchLong s arg tail given = .ok s') : ∃ taken, AllValues taken ∧ Takes s s' taken := by
  have hsilent : Silent s s' → ∃ taken, AllValues taken ∧ Takes s s' taken := fun hs =>
    ⟨[], by simp [AllValues], hs.remaining.symm, by rw [hs.consumed, List.append_nil]⟩
  unfold dispatchLong at h
  split at h
  · split at h
    · cases h
    · exact hsilent (act_eq_ok h)
  · split at h
    · exact takeValues_eq_ok h
    · split at h
      · cases h
      split at h
      · cases h
      · exact hsilent (act_eq_ok h)

theorem tryParseLong_eq_ok {s s' : ParseEngine σ ε} {tail given : Strv} {rest : List Strv}
    (hgiven : s.remaining = given :: rest) (h : s.tryParseLong tail = .ok (some s')) :
    TakesOption s s' given := by
  unfold tryParseLong at h
  split at h
  · cases h
  split at h
  · cases h
  next found _ =>
    obtain ⟨s₁, hshift, h⟩ := bind_eq_ok.mp h
    obtain ⟨s₂, hsee, h⟩ := bind_eq_ok.mp (mapError_eq_ok.mp h)
    obtain ⟨s₃, hdispatch, h⟩ := bind_eq_ok.mp h
    cases h
    obtain ⟨word, hword, htakes⟩ := shift_eq_ok hshift
    obtain ⟨taken, hvalues, hrest⟩ := dispatchLong_eq_ok hdispatch
    obtain rfl : given = word := by simpa [hgiven] using hword
    exact ⟨taken, hvalues, htakes.trans ((see_eq_ok hsee).takes hrest)⟩

/-- A switch takes nothing; any other argument takes the group, and its values. -/
theorem dispatchShort_eq_ok {s s' : ParseEngine σ ε} {arg : Argument σ ε}
    {tail spelling tail' given : Strv} {rest : List Strv} (hgiven : s.remaining = given :: rest)
    (h : dispatchShort s arg tail spelling = .ok (tail', s')) :
    (arg.nargs = 0 ∧ tail' = tail ∧ Silent s s') ∨
      (arg.nargs ≠ 0 ∧ tail' = [] ∧ TakesOption s s' given) := by
  unfold dispatchShort at h
  split at h
  next hswitch =>
    obtain ⟨s₁, hact, h⟩ := bind_eq_ok.mp h
    cases h
    exact .inl ⟨hswitch, rfl, act_eq_ok hact⟩
  next hswitch =>
    refine .inr ⟨hswitch, ?_⟩
    split at h
    · split at h
      · -- the next word is the value
        obtain ⟨s₁, hshift, h⟩ := bind_eq_ok.mp h
        split at h
        · cases h
        obtain ⟨_, -, h⟩ := bind_eq_ok.mp h
        obtain ⟨s₂, hact, h⟩ := bind_eq_ok.mp h
        obtain ⟨s₃, hshift', h⟩ := bind_eq_ok.mp h
        cases h
        obtain ⟨word, hword, htakes⟩ := shift_eq_ok hshift
        obtain ⟨value, -, htakes'⟩ := shift_eq_ok hshift'
        obtain rfl : given = word := by simpa [hgiven] using hword
        exact ⟨rfl, [(value, .value)], by simp [AllValues],
          htakes.trans ((act_eq_ok hact).takes htakes')⟩
      · -- the rest of the group is the value
        obtain ⟨s₁, hact, h⟩ := bind_eq_ok.mp h
        obtain ⟨s₂, hshift, h⟩ := bind_eq_ok.mp h
        cases h
        obtain ⟨word, hword, htakes⟩ := shift_eq_ok hshift
        rw [(act_eq_ok hact).remaining, hgiven] at hword
        obtain rfl : given = word := by simpa using hword
        exact ⟨rfl, [], by simp [AllValues], (act_eq_ok hact).takes htakes⟩
    split at h
    · cases h
    · obtain ⟨s₁, hshift, h⟩ := bind_eq_ok.mp h
      obtain ⟨s₂, hvalues, h⟩ := bind_eq_ok.mp h
      cases h
      obtain ⟨word, hword, htakes⟩ := shift_eq_ok hshift
      obtain ⟨taken, hall, htaken⟩ := takeValues_eq_ok hvalues
      obtain rfl : given = word := by simpa [hgiven] using hword
      exact ⟨rfl, taken, hall, htakes.trans htaken⟩

/-! ## Groups of switches -/

/-- Every argument of the group is a switch. -/
def switchesOnly (chain : List (ArgumentParser σ ε)) (tail : Strv) : Bool :=
  match _hfound : matchChain (fun cand => cand.tryMatchShort tail) chain with
  | none => false
  | some found =>
    decide (found.arg.nargs = 0) &&
      (decide (tail.drop found.matched.length = []) ||
        switchesOnly chain (tail.drop found.matched.length))
termination_by tail.length
decreasing_by exact length_drop_matched _hfound

theorem switchesOnly_of_match {chain : List (ArgumentParser σ ε)} {tail : Strv} {found : Match σ ε}
    (h : matchChain (fun cand => cand.tryMatchShort tail) chain = some found) :
    switchesOnly chain tail = (decide (found.arg.nargs = 0) &&
      (decide (tail.drop found.matched.length = []) ||
        switchesOnly chain (tail.drop found.matched.length))) := by
  rw [switchesOnly]
  split
  next hnone => rw [hnone] at h; cases h
  next found' hfound =>
    rw [hfound] at h
    cases h
    rfl

theorem parseShortArgument_eq_ok {s s' : ParseEngine σ ε} {found : Match σ ε}
    {tail tail' given : Strv} {rest : List Strv} (hgiven : s.remaining = given :: rest)
    (h : parseShortArgument s found tail = .ok (tail', s')) :
    (found.arg.nargs = 0 ∧ tail' = tail.drop found.matched.length ∧ Silent s s') ∨
      (found.arg.nargs ≠ 0 ∧ tail' = [] ∧ TakesOption s s' given) := by
  obtain ⟨s₁, hsee, hdispatch⟩ := bind_eq_ok.mp (mapError_eq_ok.mp h)
  have hsilent := see_eq_ok hsee
  rcases dispatchShort_eq_ok (hsilent.remaining.trans hgiven) hdispatch with
    ⟨hswitch, htail, hrest⟩ | ⟨hswitch, htail, taken, hvalues, hrest⟩
  · exact .inl ⟨hswitch, htail, hsilent.trans hrest⟩
  · exact .inr ⟨hswitch, htail, taken, hvalues, hsilent.takes hrest⟩

/-- A group that is parsed is taken, unless it has only switches. -/
theorem parseShortGroup_eq_ok {s s' : ParseEngine σ ε} {tail given : Strv} {rest : List Strv}
    (hgiven : s.remaining = given :: rest) (h : s.parseShortGroup tail = .ok (some s')) :
    (switchesOnly s.chain tail = true ∧ Silent s s') ∨
      (switchesOnly s.chain tail = false ∧ TakesOption s s' given) := by
  fun_induction parseShortGroup s tail with
  | case1 => cases h
  | case2 => cases h
  | case3 s tail found hfound s₁ hparse =>
    cases h
    rw [switchesOnly_of_match hfound]
    rcases parseShortArgument_eq_ok hgiven hparse with ⟨hswitch, htail, hsilent⟩ | ⟨hswitch, -, htakes⟩
    · exact .inl ⟨by simp [hswitch, ← htail], hsilent⟩
    · exact .inr ⟨by simp [hswitch], htakes⟩
  | case4 s tail found hfound tail' s₁ hparse htail ih =>
    rw [switchesOnly_of_match hfound]
    rcases parseShortArgument_eq_ok hgiven hparse with ⟨hswitch, hrest, hsilent⟩ | ⟨-, hrest, -⟩
    · -- after a switch the rest of the group decides
      subst hrest
      have ih := ih (hsilent.remaining.trans hgiven) h
      rw [hsilent.chain] at ih
      rcases ih with ⟨hgroup, hsilent'⟩ | ⟨hgroup, taken, hvalues, htakes⟩
      · exact .inl ⟨by simp [hswitch, hgroup], hsilent.trans hsilent'⟩
      · exact .inr ⟨by simp [hgroup, htail], taken, hvalues, hsilent.takes htakes⟩
    · exact absurd hrest htail

/-! ## Steps -/

/-- Skipping a positional takes nothing. -/
theorem silent_skip (s : ParseEngine σ ε) (stay : Bool) :
    Silent s (if stay then s else { s with positionalIndex := s.positionalIndex + 1 }) := by
  cases stay with
  | false => exact ⟨rfl, rfl, rfl⟩
  | true => exact .refl s

theorem tryParsePositional_eq_ok {s s' : ParseEngine σ ε} {given : Strv} {rest : List Strv}
    (hgiven : s.remaining = given :: rest) (h : s.tryParsePositional given = .ok (some s')) :
    Takes s s' [(given, .positional)] := by
  unfold tryParsePositional at h
  split at h
  · cases h
  next index arg _ =>
    split at h
    · cases h
    obtain ⟨s₁, hsee, h⟩ := bind_eq_ok.mp (mapError_eq_ok.mp h)
    obtain ⟨s₂, hact, h⟩ := bind_eq_ok.mp h
    obtain ⟨s₃, hshift, h⟩ := bind_eq_ok.mp h
    cases h
    have hsilent := ((see_eq_ok hsee).trans (act_eq_ok hact)).trans (silent_skip s₂ arg.canRepeat)
    obtain ⟨word, hword, htakes⟩ := shift_eq_ok hshift
    rw [hsilent.remaining, hgiven] at hword
    cases hword
    exact hsilent.takes htakes

theorem tryParseSubparser_eq_ok {s s' : ParseEngine σ ε} {given : Strv} {rest : List Strv}
    (hgiven : s.remaining = given :: rest) (h : s.tryParseSubparser given = .ok (some s')) :
    Takes s s' [(given, .subcommand)] := by
  unfold tryParseSubparser at h
  split at h
  · cases h
  split at h
  · cases h
  next cand _ =>
    obtain ⟨s₁, hgroup, h⟩ := bind_eq_ok.mp h
    obtain ⟨s₂, hcand, h⟩ := bind_eq_ok.mp h
    obtain ⟨s₃, hshift, h⟩ := bind_eq_ok.mp h
    cases h
    have hsilent := (actIf_eq_ok hgroup).trans (actIf_eq_ok hcand)
    obtain ⟨word, hword, htakes⟩ := shift_eq_ok hshift
    have hhead : s₂.remaining.head? = some word := hword
    rw [hsilent.remaining, hgiven] at hhead
    cases hhead
    exact hsilent.takes ⟨htakes.remaining, htakes.consumed⟩

/-- The current word is a group of switches, and nothing else. -/
def AtSwitchGroup (s : ParseEngine σ ε) : Prop :=
  ∃ given, s.remaining.head? = some given ∧ isOption given = true ∧ given[1]? ≠ some '-' ∧
    switchesOnly s.chain (given.drop 1) = true

/-- Words are taken as what they look like; any word can be a value. -/
def Fits : Strv × Role → Prop
  | (word, .option) => isOption word = true
  | (_, .value) => True
  | (word, .positional) | (word, .subcommand) => isOption word = false

/-- What a step does: nothing is taken at a group of switches, and otherwise the
current word is, with the values after it. -/
theorem parseAnother_eq_ok {s s' : ParseEngine σ ε} (h : s.parseAnother = .ok s') :
    (s.AtSwitchGroup ∧ Silent s s') ∨
      (¬ s.AtSwitchGroup ∧ ∃ taken, taken ≠ [] ∧ (∀ word ∈ taken, Fits word) ∧ Takes s s' taken) := by
  obtain ⟨given, hcurrent, h⟩ := bind_eq_ok.mp h
  obtain ⟨rest, hgiven⟩ := currentArg_eq_ok hcurrent
  obtain ⟨found, htry, h⟩ := bind_eq_ok.mp h
  have hgroup : s.AtSwitchGroup ↔ isOption given = true ∧ given[1]? ≠ some '-' ∧
      switchesOnly s.chain (given.drop 1) = true := by
    simp [AtSwitchGroup, hgiven]
  have hoption : isOption given = true → TakesOption s s' given →
      ∃ taken, taken ≠ [] ∧ (∀ word ∈ taken, Fits word) ∧ Takes s s' taken := by
    rintro hoption ⟨taken, hvalues, htakes⟩
    refine ⟨_, List.cons_ne_nil _ _, fun word hword => ?_, htakes⟩
    rcases List.mem_cons.mp hword with rfl | hword
    · exact hoption
    · obtain ⟨word, role⟩ := word
      obtain rfl : role = .value := hvalues _ hword
      trivial
  cases found with
  | none => cases h
  | some s₁ =>
    cases h
    unfold tryParseGiven at htry
    split at htry
    next hnot =>
      -- a positional or a subcommand
      have hnot : isOption given = false := by simpa using hnot
      refine .inr ⟨by simp [hgroup, hnot], ?_⟩
      obtain ⟨positional, hpositional, htry⟩ := bind_eq_ok.mp htry
      cases positional with
      | some s₂ =>
        cases htry
        exact ⟨_, List.cons_ne_nil _ _, by simp [Fits, hnot],
          tryParsePositional_eq_ok hgiven hpositional⟩
      | none =>
        exact ⟨_, List.cons_ne_nil _ _, by simp [Fits, hnot], tryParseSubparser_eq_ok hgiven htry⟩
    next hopt =>
      have hopt : isOption given = true := by simpa using hopt
      split at htry
      next hlong =>
        exact .inr ⟨by simp [hgroup, hlong], hoption hopt (tryParseLong_eq_ok hgiven htry)⟩
      next hshort =>
        unfold tryParseShort at htry
        split at htry
        · cases htry
        rcases parseShortGroup_eq_ok hgiven htry with ⟨hswitches, hsilent⟩ | ⟨hswitches, htakes⟩
        · exact .inl ⟨hgroup.mpr ⟨hopt, hshort, hswitches⟩, hsilent⟩
        · refine .inr ⟨fun hat => ?_, hoption hopt htakes⟩
          rw [(hgroup.mp hat).2.2] at hswitches
          cases hswitches

/-- A step that returns advances exactly when it does not start at a group of
switches. -/
theorem parseAnother_advances_iff {s s' : ParseEngine σ ε} (h : s.parseAnother = .ok s') :
    s'.remaining.length < s.remaining.length ↔ ¬ s.AtSwitchGroup := by
  rcases parseAnother_eq_ok h with ⟨hat, hsilent⟩ | ⟨hat, taken, hne, -, htakes⟩
  · rw [hsilent.remaining]
    exact iff_of_false (Nat.lt_irrefl _) (not_not_intro hat)
  · refine iff_of_true ?_ hat
    have hpos := List.length_pos_iff.mpr hne
    rw [htakes.remaining, List.length_append, List.length_map]
    omega

/-! ## Runs -/

/-- The states at the head of the loop. -/
inductive Reached (s : ParseEngine σ ε) : ParseEngine σ ε → Prop where
  | refl : Reached s s
  | step {middle s' : ParseEngine σ ε} (h : Reached s middle) (notAtEnd : middle.atEnd = false)
      (step : middle.parseAnother = .ok s') : Reached s s'

theorem Reached.head {s middle s' : ParseEngine σ ε} (hend : s.atEnd = false)
    (hstep : s.parseAnother = .ok middle) (h : Reached middle s') : Reached s s' := by
  induction h with
  | refl => exact .step .refl hend hstep
  | step _ notAtEnd step ih => exact .step ih notAtEnd step

/-- What parsing a command line promises. -/
structure Progress (s : ParseEngine σ ε) : Prop where
  /-- Every step that returns advances. -/
  advances : ∀ middle s' : ParseEngine σ ε, Reached s middle → middle.atEnd = false →
    middle.parseAnother = .ok s' → s'.remaining.length < middle.remaining.length
  /-- The loop ends, and more fuel makes no difference. -/
  terminates : ∃ result, ∀ fuel, s.remaining.length < fuel → s.run fuel = some result
  /-- On normal return every word was taken once, in order, as what it looks like. -/
  takesOnce : ∀ fuel s', s.run fuel = some (.ok s') →
    ∃ taken, s'.consumed = s.consumed ++ taken ∧ taken.map Prod.fst = s.remaining ∧
      ∀ word ∈ taken, Fits word

/-- The loop ends when every step from a reached state advances. -/
theorem terminates_of_advances {s : ParseEngine σ ε}
    (hadvances : ∀ middle s' : ParseEngine σ ε, Reached s middle → middle.atEnd = false →
      middle.parseAnother = .ok s' → s'.remaining.length < middle.remaining.length) :
    ∃ result, ∀ fuel, s.remaining.length < fuel → s.run fuel = some result := by
  induction hlen : s.remaining.length using Nat.strongRecOn generalizing s with
  | _ n ih =>
    subst hlen
    cases hend : s.atEnd with
    | true =>
      refine ⟨s.finalize.map fun _ => s, fun fuel hfuel => ?_⟩
      obtain ⟨fuel, rfl⟩ := Nat.exists_eq_succ_of_ne_zero (Nat.ne_of_gt (Nat.zero_lt_of_lt hfuel))
      rw [run, if_pos hend]
    | false =>
      cases hstep : s.parseAnother with
      | error err =>
        refine ⟨.error err, fun fuel hfuel => ?_⟩
        obtain ⟨fuel, rfl⟩ := Nat.exists_eq_succ_of_ne_zero (Nat.ne_of_gt (Nat.zero_lt_of_lt hfuel))
        rw [run, hend, hstep]
        rfl
      | ok middle =>
        have hlt := hadvances s middle .refl hend hstep
        obtain ⟨result, hresult⟩ := ih _ hlt
          (fun s₁ s₂ hreached => hadvances s₁ s₂ (hreached.head hend hstep)) rfl
        refine ⟨result, fun fuel hfuel => ?_⟩
        obtain ⟨fuel, rfl⟩ := Nat.exists_eq_succ_of_ne_zero (Nat.ne_of_gt (Nat.zero_lt_of_lt hfuel))
        rw [run, hend, hstep]
        exact hresult fuel (by omega)

/-- What holds of the state in which the loop ends, and of a state when it holds after
its step, holds of every state from which the loop returns normally. -/
theorem run_induction {s' : ParseEngine σ ε} {motive : Nat → ParseEngine σ ε → Prop}
    (done : ∀ fuel, s'.atEnd = true → s'.finalize = .ok () → motive (fuel + 1) s')
    (step : ∀ fuel s middle, s.atEnd = false → s.parseAnother = .ok middle →
      motive fuel middle → motive (fuel + 1) s)
    {fuel : Nat} {s : ParseEngine σ ε} (h : s.run fuel = some (.ok s')) : motive fuel s := by
  induction fuel generalizing s with
  | zero => cases h
  | succ fuel ih =>
    rw [run] at h
    split at h
    next hend =>
      cases hfinal : s.finalize with
      | error err =>
        rw [hfinal] at h
        cases h
      | ok _ =>
        rw [hfinal] at h
        cases h
        exact done fuel hend hfinal
    next hend =>
      split at h
      next => cases h
      next middle hstep => exact step fuel s middle (by simpa using hend) hstep (ih h)

/-- Whenever the loop returns normally, every word was taken once. -/
theorem takesOnce_of_run {s s' : ParseEngine σ ε} {fuel : Nat} (h : s.run fuel = some (.ok s')) :
    ∃ taken, s'.consumed = s.consumed ++ taken ∧ taken.map Prod.fst = s.remaining ∧
      ∀ word ∈ taken, Fits word := by
  refine run_induction (motive := fun _ s => ∃ taken, s'.consumed = s.consumed ++ taken ∧
    taken.map Prod.fst = s.remaining ∧ ∀ word ∈ taken, Fits word) ?_ ?_ h
  · intro _ hend _
    have hremaining : s'.remaining = [] := by simpa [atEnd] using hend
    exact ⟨[], (List.append_nil _).symm, hremaining.symm, by simp⟩
  · rintro _ s middle - hstep ⟨more, hconsumed, hwords, hfits⟩
    rcases parseAnother_eq_ok hstep with ⟨-, hsilent⟩ | ⟨-, taken, -, htaken, htakes⟩
    · exact ⟨more, hsilent.consumed ▸ hconsumed, hsilent.remaining ▸ hwords, hfits⟩
    · refine ⟨taken ++ more, ?_, ?_, fun word hword => ?_⟩
      · rw [hconsumed, htakes.consumed, List.append_assoc]
      · rw [List.map_append, hwords, ← htakes.remaining]
      · rcases List.mem_append.mp hword with hword | hword
        · exact htaken word hword
        · exact hfits word hword

/-- In every run whose steps never start at a group of switches, every step
advances, the run ends, and every word is taken once. -/
theorem progress_of_no_switchGroup (parser : ArgumentParser σ ε)
    (parents : List (ArgumentParser σ ε)) (argv : List Strv) (user : σ)
    (hgroups : ∀ s, Reached (start parser parents argv user) s → ¬ s.AtSwitchGroup) :
    Progress (start parser parents argv user) := by
  have hadvances : ∀ middle s' : ParseEngine σ ε,
      Reached (start parser parents argv user) middle → middle.atEnd = false →
      middle.parseAnother = .ok s' → s'.remaining.length < middle.remaining.length :=
    fun middle s' hreached _ hstep => (parseAnother_advances_iff hstep).mpr (hgroups middle hreached)
  exact ⟨hadvances, terminates_of_advances hadvances, fun fuel s' h => takesOnce_of_run h⟩

/-- Only words of the command line are ever current. -/
theorem Reached.suffix {s s' : ParseEngine σ ε} (h : Reached s s') :
    s'.remaining <:+ s.remaining := by
  induction h with
  | refl => exact List.suffix_refl _
  | step _ _ hstep ih =>
    rcases parseAnother_eq_ok hstep with ⟨-, hsilent⟩ | ⟨-, taken, -, -, htakes⟩
    · rwa [hsilent.remaining]
    · exact List.IsSuffix.trans ⟨taken.map Prod.fst, htakes.remaining.symm⟩ ih

end ParseEngine

/-! ### Options for repositories -/

open ParseEngine

/-- The repositories that are used, and whether the default one is. -/
structure RepoOptions where
  useRepos : List Strv := []
  useDefaultRepo : Bool := true

def useReposArg : Argument RepoOptions Unit where
  longSpellings := ["use-repo".toList]
  shortSpellings := ["r".toList]
  valname := "<repo-url-or-domain>".toList
  canRepeat := true
  action value _ opts := .ok { opts with useRepos := opts.useRepos ++ [value] }

def noDefaultRepoArg : Argument RepoOptions Unit where
  longSpellings := ["no-default-repo".toList]
  shortSpellings := ["NDR".toList]
  nargs := 0
  action _ _ opts := .ok { opts with useDefaultRepo := false }

def repoParser : ArgumentParser RepoOptions Unit := .mk [useReposArg, noDefaultRepoArg] none

theorem progress_of_no_switchGroup_repo :
    Progress (start repoParser [] ["--use-repo".toList, "foo".toList, "--no-default-repo".toList] {}) := by
  refine progress_of_no_switchGroup _ _ _ _ fun s hreached => ?_
  rintro ⟨given, hhead, hoption, hshort, -⟩
  have hmem := hreached.suffix.subset (List.mem_of_mem_head? hhead)
  have hwords : ∀ word ∈ ["--use-repo".toList, "foo".toList, "--no-default-repo".toList],
      isOption word = true → word[1]? = some '-' := by
    decide
  exact hshort (hwords given hmem hoption)

/-- The first step at `-NDR` returns and does not advance. -/
theorem not_progress_switch : ¬ Progress (start repoParser [] ["-NDR".toList] {}) := by
  intro h
  obtain ⟨s', hparse, hremaining⟩ :
      ∃ s', (start repoParser [] ["-NDR".toList] {}).parseAnother = .ok s' ∧
        s'.remaining = ["-NDR".toList] :=
    Fallible.exists_ok (by decide +kernel)
  have hlt := h.advances _ s' .refl rfl hparse
  rw [hremaining] at hlt
  exact Nat.lt_irrefl _ hlt

end Bpt.Debate
