-- SUMMARY: The trace of a command line: which arguments a run matches, with which values, and which subcommands it enters.
import Bpt.Debate.Progress

/-!
# The trace of a command line

What the engine matches is read off the words with its own lookups, and every
part of a step is shown to do just that: it runs the actions of what was matched,
and remembers the arguments as seen.
-/

namespace Bpt.Debate

open Fallible

variable {σ ε : Type}

/-! ## Places in a chain -/

/-- The parser of a depth. A chain begins with its bottom parser, which is the deepest. -/
def parserAt (chain : List (ArgumentParser σ ε)) (depth : Nat) : Option (ArgumentParser σ ε) :=
  chain.reverse[depth]?

def argumentAt (chain : List (ArgumentParser σ ε)) (id : ArgId) : Option (Argument σ ε) :=
  (parserAt chain id.depth).bind fun argset => argset.arguments[id.index]?

theorem parserAt_cons (argset : ArgumentParser σ ε) (parents : List (ArgumentParser σ ε))
    (depth : Nat) :
    parserAt (argset :: parents) depth =
      if depth = parents.length then some argset else parserAt parents depth := by
  unfold parserAt
  rw [List.reverse_cons]
  split
  next h => simp [h]
  next h =>
    rcases Nat.lt_or_gt_of_ne h with hlt | hgt
    · rw [List.getElem?_append_left (by simpa using hlt)]
    · rw [List.getElem?_eq_none (by simp; omega),
        List.getElem?_eq_none (by simp; omega)]

theorem parserAt_bottom (argset : ArgumentParser σ ε) (parents : List (ArgumentParser σ ε)) :
    parserAt (argset :: parents) parents.length = some argset := by
  rw [parserAt_cons, if_pos rfl]

theorem depth_lt_of_parserAt {chain : List (ArgumentParser σ ε)} {depth : Nat}
    {argset : ArgumentParser σ ε} (h : parserAt chain depth = some argset) :
    depth < chain.length := by
  simpa using (List.getElem?_eq_some_iff.mp h).1

theorem parserAt_suffix {chain chain' : List (ArgumentParser σ ε)} {depth : Nat}
    {argset : ArgumentParser σ ε} (hchain : chain <:+ chain')
    (h : parserAt chain depth = some argset) : parserAt chain' depth = some argset := by
  obtain ⟨below, rfl⟩ := hchain
  unfold parserAt
  rw [List.reverse_append,
    List.getElem?_append_left (by simpa using depth_lt_of_parserAt h)]
  exact h

theorem argumentAt_suffix {chain chain' : List (ArgumentParser σ ε)} {id : ArgId}
    {arg : Argument σ ε} (hchain : chain <:+ chain') (h : argumentAt chain id = some arg) :
    argumentAt chain' id = some arg := by
  obtain ⟨argset, hargset, harg⟩ := Option.bind_eq_some_iff.mp h
  unfold argumentAt
  rw [parserAt_suffix hchain hargset]
  exact harg

theorem matchArguments_at {tryMatch : Argument σ ε → Strv} {depth index : Nat}
    {args : List (Argument σ ε)} {found : Match σ ε}
    (h : matchArguments tryMatch depth index args = some found) :
    found.id.depth = depth ∧ (found.arg, found.id.index) ∈ args.zipIdx index := by
  induction args generalizing index with
  | nil => cases h
  | cons cand rest ih =>
    rw [matchArguments] at h
    rw [List.zipIdx_cons]
    split at h
    next =>
      obtain ⟨hdepth, hmem⟩ := ih h
      exact ⟨hdepth, List.mem_cons_of_mem _ hmem⟩
    next =>
      cases h
      exact ⟨rfl, List.mem_cons_self⟩

/-- A match is of the argument at its place. -/
theorem matchChain_at {tryMatch : Argument σ ε → Strv} {chain : List (ArgumentParser σ ε)}
    {found : Match σ ε} (h : matchChain tryMatch chain = some found) :
    argumentAt chain found.id = some found.arg := by
  induction chain with
  | nil => cases h
  | cons argset parents ih =>
    rw [matchChain] at h
    split at h
    next hfound =>
      cases h
      obtain ⟨hdepth, hmem⟩ := matchArguments_at hfound
      unfold argumentAt
      rw [hdepth, parserAt_bottom]
      exact List.mem_zipIdx_iff_getElem?.mp hmem
    next =>
      exact argumentAt_suffix (List.suffix_cons _ _) (ih h)

/-- Only options have spellings that can match. -/
theorem isPositional_of_tryMatchLong {arg : Argument σ ε} {given : Strv}
    (h : arg.tryMatchLong given ≠ []) : arg.isPositional = false := by
  cases hlong : arg.longSpellings with
  | nil => simp [Argument.tryMatchLong, hlong] at h
  | cons => simp [Argument.isPositional, hlong]

theorem isPositional_of_tryMatchShort {arg : Argument σ ε} {given : Strv}
    (h : arg.tryMatchShort given ≠ []) : arg.isPositional = false := by
  cases hshort : arg.shortSpellings with
  | nil => simp [Argument.tryMatchShort, hshort] at h
  | cons => simp [Argument.isPositional, hshort]

/-! ## Events -/

inductive Event (σ ε : Type) where
  /-- The action of the argument is run on each of the values. -/
  | matched (id : ArgId) (arg : Argument σ ε) (spelling : Strv) (values : List Strv)
  | entered (group : SubparserGroup (ArgumentParser σ ε) σ ε)
      (cand : Subparser (ArgumentParser σ ε) σ ε) (given : Strv)

namespace Event

def calls : Event σ ε → List (σ → Except ε σ)
  | matched _ arg spelling values => values.map fun value => arg.action value spelling
  | entered group cand given =>
    (group.action.map fun action => action given group.valname).toList ++ cand.action.toList

def matchedId : Event σ ε → Option ArgId
  | matched id _ _ _ => some id
  | entered _ _ _ => none

end Event

def matchedIds (events : List (Event σ ε)) : List ArgId := events.filterMap Event.matchedId

/-- Run actions one after another. -/
def callAll (calls : List (σ → Except ε σ)) (user : σ) : Except ε σ :=
  calls.foldlM (fun user call => call user) user

theorem callAll_append {calls more : List (σ → Except ε σ)} {user user' user'' : σ}
    (h : callAll calls user = .ok user') (h' : callAll more user' = .ok user'') :
    callAll (calls ++ more) user = .ok user'' := by
  unfold callAll at *
  rw [List.foldlM_append, h]
  exact h'

theorem callAll_singleton {call : σ → Except ε σ} {user user' : σ} (h : call user = .ok user') :
    callAll [call] user = .ok user' := by
  unfold callAll
  rw [List.foldlM_cons, h]
  rfl

namespace ParseEngine

/-! ### The events of a step -/

/-- The values of a long argument: the argument itself for a switch, what is after
the `=`, or the next words. -/
def longValues (arg : Argument σ ε) (tail given : Strv) (after : List Strv) : List Strv :=
  if arg.nargs = 0 then [given]
  else match tail with
    | [] => after.take arg.nargs.toNat
    | _ :: value => [value]

def longEvents (chain : List (ArgumentParser σ ε)) (after : List Strv) (tail : Strv) :
    List (Event σ ε) :=
  match matchChain (fun cand => cand.tryMatchLong tail) chain with
  | none => []
  | some found =>
    let longArg := '-' :: '-' :: found.matched
    [.matched found.id found.arg longArg
      (longValues found.arg (tail.drop found.matched.length) longArg after)]

/-- The values of a short argument: nothing for a switch, the rest of the group, or
the next words. -/
def shortValues (arg : Argument σ ε) (tail : Strv) (after : List Strv) : List Strv :=
  if arg.nargs = 0 then [[]]
  else if tail = [] then after.take arg.nargs.toNat
  else [tail]

def shortEvent (found : Match σ ε) (after : List Strv) (tail : Strv) : Event σ ε :=
  .matched found.id found.arg ('-' :: found.matched) (shortValues found.arg tail after)

/-- Every switch of a group is an event, and the argument that takes the rest. -/
def groupEvents (chain : List (ArgumentParser σ ε)) (after : List Strv) (tail : Strv) :
    List (Event σ ε) :=
  match _hfound : matchChain (fun cand => cand.tryMatchShort tail) chain with
  | none => []
  | some found =>
    shortEvent found after (tail.drop found.matched.length) ::
      if found.arg.nargs = 0 ∧ tail.drop found.matched.length ≠ [] then
        groupEvents chain after (tail.drop found.matched.length)
      else []
termination_by tail.length
decreasing_by exact length_drop_matched _hfound

def positionalEvents (s : ParseEngine σ ε) (given : Strv) : List (Event σ ε) :=
  match nthPositional 0 s.positionalIndex s.bottomParser.arguments with
  | some (index, arg) => [.matched ⟨s.parents.length, index⟩ arg given [given]]
  | none =>
    match s.bottomParser.subparsers with
    | none => []
    | some group =>
      match group.subparsers.find? fun cand => cand.name = given with
      | none => []
      | some cand => [.entered group cand given]

/-- What the next step matches, if it returns. -/
def nextEvents (s : ParseEngine σ ε) : List (Event σ ε) :=
  match s.remaining with
  | [] => []
  | given :: after =>
    if !isOption given then s.positionalEvents given
    else if given[1]? = some '-' then longEvents s.chain after (given.drop 2)
    else groupEvents s.chain after (given.drop 1)

/-- What a run matches. -/
def runEvents : Nat → ParseEngine σ ε → List (Event σ ε)
  | 0, _ => []
  | fuel + 1, s =>
    if s.atEnd then []
    else
      match s.parseAnother with
      | .error _ => []
      | .ok s' => s.nextEvents ++ runEvents fuel s'

/-! ## What the parts of a step run -/

/-- The actions are run, and nothing else is changed that matching depends on. -/
structure Calls (s s' : ParseEngine σ ε) (calls : List (σ → Except ε σ)) : Prop where
  chain : s'.chain = s.chain
  positionalIndex : s'.positionalIndex = s.positionalIndex
  seen : s'.seen = s.seen
  user : callAll calls s.user = .ok s'.user

theorem Calls.refl (s : ParseEngine σ ε) : Calls s s [] := ⟨rfl, rfl, rfl, rfl⟩

theorem Calls.trans {s s' s'' : ParseEngine σ ε} {calls more : List (σ → Except ε σ)}
    (h : Calls s s' calls) (h' : Calls s' s'' more) : Calls s s'' (calls ++ more) where
  chain := h'.chain.trans h.chain
  positionalIndex := h'.positionalIndex.trans h.positionalIndex
  seen := h'.seen.trans h.seen
  user := callAll_append h.user h'.user

theorem shift_calls {s s' : ParseEngine σ ε} {role : Role} (h : s.shift role = .ok s') :
    Calls s s' [] := by
  unfold shift at h
  split at h
  · cases h
  · cases h
    exact ⟨rfl, rfl, rfl, rfl⟩

theorem act_calls {s s' : ParseEngine σ ε} {action : σ → Except ε σ} (h : s.act action = .ok s') :
    Calls s s' [action] := by
  unfold act at h
  split at h
  next => cases h
  next user haction =>
    cases h
    exact ⟨rfl, rfl, rfl, callAll_singleton haction⟩

theorem actIf_calls {s s' : ParseEngine σ ε} {action : Option (σ → Except ε σ)}
    (h : s.actIf action = .ok s') : Calls s s' action.toList := by
  cases action with
  | none =>
    cases h
    exact .refl s
  | some action => exact act_calls h

/-- The word that is shifted is the current one. -/
theorem shift_remaining {s s' : ParseEngine σ ε} {role : Role} {given : Strv} {after : List Strv}
    (hgiven : s.remaining = given :: after) (h : s.shift role = .ok s') : s'.remaining = after := by
  unfold shift at h
  rw [hgiven] at h
  cases h
  rfl

theorem takeValues_calls {message : String} {arg : Argument σ ε} {spelling : Strv} {count i : Nat}
    {s s' : ParseEngine σ ε} (h : takeValues message arg spelling count i s = .ok s') :
    Calls s s' ((s.remaining.take count).map fun value => arg.action value spelling) := by
  induction count generalizing i s with
  | zero =>
    cases h
    exact .refl _
  | succ count ih =>
    rw [takeValues] at h
    split at h
    · cases h
    obtain ⟨value, hvalue, h⟩ := bind_eq_ok.mp h
    obtain ⟨s₁, hact, h⟩ := bind_eq_ok.mp h
    obtain ⟨s₂, hshift, h⟩ := bind_eq_ok.mp h
    obtain ⟨after, hremaining⟩ := currentArg_eq_ok hvalue
    have hafter := shift_remaining ((act_eq_ok hact).remaining.trans hremaining) hshift
    have hrest := ih h
    rw [hafter] at hrest
    rw [hremaining]
    exact ((act_calls hact).trans (shift_calls hshift)).trans hrest

theorem dispatchLong_calls {s s' : ParseEngine σ ε} {arg : Argument σ ε} {tail given : Strv}
    (h : dispatchLong s arg tail given = .ok s') :
    Calls s s'
      ((longValues arg tail given s.remaining).map fun value => arg.action value given) := by
  unfold dispatchLong at h
  unfold longValues
  split at h
  next hswitch =>
    rw [if_pos hswitch]
    split at h
    · cases h
    · exact act_calls h
  next hswitch =>
    rw [if_neg hswitch]
    split at h
    next => exact takeValues_calls h
    next =>
      split at h
      · cases h
      split at h
      · cases h
      · exact act_calls h

theorem dispatchShort_calls {s s' : ParseEngine σ ε} {arg : Argument σ ε}
    {tail spelling tail' given : Strv} {after : List Strv} (hgiven : s.remaining = given :: after)
    (h : dispatchShort s arg tail spelling = .ok (tail', s')) :
    Calls s s' ((shortValues arg tail after).map fun value => arg.action value spelling) := by
  unfold dispatchShort at h
  unfold shortValues
  split at h
  next hswitch =>
    rw [if_pos hswitch]
    obtain ⟨s₁, hact, h⟩ := bind_eq_ok.mp h
    cases h
    exact act_calls hact
  next hswitch =>
    rw [if_neg hswitch]
    split at h
    next hone =>
      split at h
      next htail =>
        -- the next word is the value
        rw [if_pos htail, hone]
        obtain ⟨s₁, hshift, h⟩ := bind_eq_ok.mp h
        split at h
        · cases h
        obtain ⟨value, hvalue, h⟩ := bind_eq_ok.mp h
        obtain ⟨s₂, hact, h⟩ := bind_eq_ok.mp h
        obtain ⟨s₃, hshift', h⟩ := bind_eq_ok.mp h
        cases h
        obtain ⟨after', hremaining⟩ := currentArg_eq_ok hvalue
        rw [shift_remaining hgiven hshift] at hremaining
        rw [hremaining]
        exact ((shift_calls hshift).trans (act_calls hact)).trans (shift_calls hshift')
      next htail =>
        rw [if_neg htail]
        obtain ⟨s₁, hact, h⟩ := bind_eq_ok.mp h
        obtain ⟨s₂, hshift, h⟩ := bind_eq_ok.mp h
        cases h
        exact (act_calls hact).trans (shift_calls hshift)
    next =>
      split at h
      next => cases h
      next htail =>
        rw [if_pos (by simpa using htail)]
        obtain ⟨s₁, hshift, h⟩ := bind_eq_ok.mp h
        obtain ⟨s₂, hvalues, h⟩ := bind_eq_ok.mp h
        cases h
        have hrest := takeValues_calls hvalues
        rw [shift_remaining hgiven hshift] at hrest
        exact (shift_calls hshift).trans hrest

/-! ## What the parts of a step match -/

/-- From one state to the other the events happen, in their order. -/
structure Performs (s s' : ParseEngine σ ε) (events : List (Event σ ε)) : Prop where
  chain : s.chain <:+ s'.chain
  calls : callAll (events.flatMap Event.calls) s.user = .ok s'.user
  placed : ∀ id arg spelling values, Event.matched id arg spelling values ∈ events →
    argumentAt s'.chain id = some arg
  seen : ∀ id, id ∈ s'.seen ↔ id ∈ s.seen ∨ id ∈ matchedIds events
  once : ∀ id, (∀ arg spelling values, Event.matched id arg spelling values ∈ events →
      arg.canRepeat = false) →
    (matchedIds events).count id ≤ if id ∈ s.seen then 0 else 1

theorem Calls.performs {s s' : ParseEngine σ ε} (h : Calls s s' []) : Performs s s' [] where
  chain := h.chain ▸ List.suffix_refl _
  calls := h.user
  placed := by simp
  seen := by simp [h.seen, matchedIds]
  once := by simp [matchedIds]

theorem Performs.refl (s : ParseEngine σ ε) : Performs s s [] := (Calls.refl s).performs

theorem Performs.trans {s s' s'' : ParseEngine σ ε} {events more : List (Event σ ε)}
    (h : Performs s s' events) (h' : Performs s' s'' more) : Performs s s'' (events ++ more) where
  chain := h.chain.trans h'.chain
  calls := by
    rw [List.flatMap_append]
    exact callAll_append h.calls h'.calls
  placed id arg spelling values hmem := by
    rcases List.mem_append.mp hmem with hmem | hmem
    · exact argumentAt_suffix h'.chain (h.placed id arg spelling values hmem)
    · exact h'.placed id arg spelling values hmem
  seen id := by
    rw [h'.seen, h.seen, matchedIds, matchedIds, matchedIds, List.filterMap_append,
      List.mem_append, or_assoc]
  once id hrepeat := by
    have hfirst := h.once id fun arg spelling values hmem =>
      hrepeat arg spelling values (List.mem_append_left _ hmem)
    have hrest := h'.once id fun arg spelling values hmem =>
      hrepeat arg spelling values (List.mem_append_right _ hmem)
    have hseen := h.seen id
    have happend : (matchedIds (events ++ more)).count id =
        (matchedIds events).count id + (matchedIds more).count id := by
      rw [matchedIds, List.filterMap_append, List.count_append]
      rfl
    rw [happend]
    -- what was matched before is seen, and not matched again
    by_cases hmem : id ∈ s'.seen
    · rw [if_pos hmem] at hrest
      omega
    · have hnone : (matchedIds events).count id = 0 :=
        List.count_eq_zero.mpr fun hmatched => hmem (hseen.mpr (.inr hmatched))
      rw [if_neg hmem] at hrest
      rw [if_neg fun hbefore => hmem (hseen.mpr (.inl hbefore))]
      omega

/-- An argument is seen, and then its action is run on the values. -/
theorem performs_matched {s s₁ s' : ParseEngine σ ε} {id : ArgId} {arg : Argument σ ε}
    {spelling : Strv} {values : List Strv} (hat : argumentAt s.chain id = some arg)
    (hsee : s.see id arg = .ok s₁)
    (hcalls : Calls s₁ s' (values.map fun value => arg.action value spelling)) :
    Performs s s' [.matched id arg spelling values] := by
  unfold see at hsee
  split at hsee
  next => cases hsee
  next hallowed =>
    cases hsee
    have hchain : s'.chain = s.chain := hcalls.chain
    refine ⟨?_, ?_, ?_, fun id' => ?_, fun id' hrepeat => ?_⟩
    · exact hchain ▸ List.suffix_refl _
    · simpa [Event.calls] using hcalls.user
    · intro id' arg' spelling' values' hmem
      cases List.mem_singleton.mp hmem
      rw [hchain]
      exact hat
    · rw [hcalls.seen, List.mem_insert_iff]
      simp [matchedIds, Event.matchedId, or_comm]
    · by_cases hid : id' = id
      · subst hid
        have hnew : id' ∉ s.seen := fun hmem =>
          hallowed ⟨hmem, hrepeat arg spelling values List.mem_cons_self⟩
        simp [matchedIds, Event.matchedId, hnew]
      · simp [matchedIds, Event.matchedId, Ne.symm hid]

/-! ### Options -/

/-- The events are matches of options. They leave the chain and the next positional
as they are. -/
structure MatchesOptions (s s' : ParseEngine σ ε) (events : List (Event σ ε)) : Prop
    extends Performs s s' events where
  sameChain : s'.chain = s.chain
  sameIndex : s'.positionalIndex = s.positionalIndex
  options : ∀ event ∈ events, ∃ id arg spelling values,
    event = .matched id arg spelling values ∧ arg.isPositional = false

theorem MatchesOptions.trans {s s' s'' : ParseEngine σ ε} {events more : List (Event σ ε)}
    (h : MatchesOptions s s' events) (h' : MatchesOptions s' s'' more) :
    MatchesOptions s s'' (events ++ more) where
  toPerforms := h.toPerforms.trans h'.toPerforms
  sameChain := h'.sameChain.trans h.sameChain
  sameIndex := h'.sameIndex.trans h.sameIndex
  options event hmem := by
    rcases List.mem_append.mp hmem with hmem | hmem
    · exact h.options event hmem
    · exact h'.options event hmem

theorem see_index {s s' : ParseEngine σ ε} {id : ArgId} {arg : Argument σ ε}
    (h : s.see id arg = .ok s') : s'.positionalIndex = s.positionalIndex := by
  unfold see at h
  split at h <;> cases h
  rfl

theorem matchesOptions_matched {s s₁ s' : ParseEngine σ ε} {id : ArgId} {arg : Argument σ ε}
    {spelling : Strv} {values : List Strv} (hat : argumentAt s.chain id = some arg)
    (hoption : arg.isPositional = false) (hsee : s.see id arg = .ok s₁)
    (hcalls : Calls s₁ s' (values.map fun value => arg.action value spelling)) :
    MatchesOptions s s' [.matched id arg spelling values] where
  toPerforms := performs_matched hat hsee hcalls
  sameChain := hcalls.chain.trans (see_eq_ok hsee).chain
  sameIndex := hcalls.positionalIndex.trans (see_index hsee)
  options event hmem := by
    rw [List.mem_singleton.mp hmem]
    exact ⟨id, arg, spelling, values, rfl, hoption⟩

theorem longEvents_of_match {chain : List (ArgumentParser σ ε)} {after : List Strv} {tail : Strv}
    {found : Match σ ε} (h : matchChain (fun cand => cand.tryMatchLong tail) chain = some found) :
    longEvents chain after tail = [.matched found.id found.arg ('-' :: '-' :: found.matched)
      (longValues found.arg (tail.drop found.matched.length) ('-' :: '-' :: found.matched)
        after)] := by
  unfold longEvents
  rw [h]

theorem tryParseLong_matches {s s' : ParseEngine σ ε} {tail given : Strv} {after : List Strv}
    (hgiven : s.remaining = given :: after) (h : s.tryParseLong tail = .ok (some s')) :
    MatchesOptions s s' (longEvents s.chain after tail) := by
  unfold tryParseLong at h
  split at h
  · cases h
  split at h
  next => cases h
  next found hfound =>
    rw [longEvents_of_match hfound]
    obtain ⟨s₁, hshift, h⟩ := bind_eq_ok.mp h
    obtain ⟨s₂, hsee, h⟩ := bind_eq_ok.mp (mapError_eq_ok.mp h)
    obtain ⟨s₃, hdispatch, h⟩ := bind_eq_ok.mp h
    cases h
    obtain ⟨hmatched, hne⟩ := matchChain_eq_some hfound
    have hcalls := dispatchLong_calls hdispatch
    rw [(see_eq_ok hsee).remaining, shift_remaining hgiven hshift] at hcalls
    -- the shift before the match is silent
    have hshifted := shift_calls hshift
    have hat : argumentAt s₁.chain found.id = some found.arg := by
      rw [hshifted.chain]
      exact matchChain_at hfound
    have hoption := isPositional_of_tryMatchLong (hmatched ▸ hne)
    have hmatches := matchesOptions_matched hat hoption hsee hcalls
    have hskip : MatchesOptions s s₁ [] :=
      ⟨hshifted.performs, hshifted.chain, hshifted.positionalIndex, by simp⟩
    exact hskip.trans hmatches

theorem parseShortArgument_matches {s s' : ParseEngine σ ε} {found : Match σ ε}
    {tail tail' given : Strv} {after : List Strv} (hgiven : s.remaining = given :: after)
    (hfound : matchChain (fun cand => cand.tryMatchShort tail) s.chain = some found)
    (h : parseShortArgument s found tail = .ok (tail', s')) :
    MatchesOptions s s' [shortEvent found after (tail.drop found.matched.length)] := by
  obtain ⟨s₁, hsee, hdispatch⟩ := bind_eq_ok.mp (mapError_eq_ok.mp h)
  obtain ⟨hmatched, hne⟩ := matchChain_eq_some hfound
  have hoption := isPositional_of_tryMatchShort (hmatched ▸ hne)
  have hgiven₁ := (see_eq_ok hsee).remaining.trans hgiven
  exact matchesOptions_matched (matchChain_at hfound) hoption hsee
    (dispatchShort_calls hgiven₁ hdispatch)

theorem groupEvents_of_match {chain : List (ArgumentParser σ ε)} {after : List Strv} {tail : Strv}
    {found : Match σ ε}
    (h : matchChain (fun cand => cand.tryMatchShort tail) chain = some found) :
    groupEvents chain after tail = shortEvent found after (tail.drop found.matched.length) ::
      if found.arg.nargs = 0 ∧ tail.drop found.matched.length ≠ [] then
        groupEvents chain after (tail.drop found.matched.length)
      else [] := by
  rw [groupEvents]
  split
  next hnone => rw [hnone] at h; cases h
  next found' hfound =>
    rw [hfound] at h
    cases h
    rfl

theorem parseShortGroup_matches {s s' : ParseEngine σ ε} {tail given : Strv} {after : List Strv}
    (hgiven : s.remaining = given :: after) (h : s.parseShortGroup tail = .ok (some s')) :
    MatchesOptions s s' (groupEvents s.chain after tail) := by
  fun_induction parseShortGroup s tail with
  | case1 => cases h
  | case2 => cases h
  | case3 s tail found hfound s₁ hparse =>
    cases h
    have hmatches := parseShortArgument_matches hgiven hfound hparse
    rw [groupEvents_of_match hfound, if_neg]
    · exact hmatches
    · rintro ⟨hswitch, hrest⟩
      rcases parseShortArgument_eq_ok hgiven hparse with ⟨-, htail, -⟩ | ⟨hvalues, -, -⟩
      · exact hrest htail.symm
      · exact hvalues hswitch
  | case4 s tail found hfound tail' s₁ hparse htail ih =>
    have hmatches := parseShortArgument_matches hgiven hfound hparse
    rcases parseShortArgument_eq_ok hgiven hparse with ⟨hswitch, hrest, hsilent⟩ | ⟨-, hrest, -⟩
    · -- after a switch comes the rest of the group
      subst hrest
      have ih := ih (hsilent.remaining.trans hgiven) h
      rw [hsilent.chain] at ih
      rw [groupEvents_of_match hfound, if_pos ⟨hswitch, htail⟩]
      exact hmatches.trans ih
    · exact absurd hrest htail

/-! ### Positionals and subcommands -/

/-- The positional arguments of a parser, with their places. -/
def positionals (argset : ArgumentParser σ ε) : List (Argument σ ε × Nat) :=
  argset.arguments.zipIdx.filter fun arg => arg.1.isPositional

theorem nthPositional_eq (index skip : Nat) (args : List (Argument σ ε)) :
    nthPositional index skip args =
      ((args.zipIdx index).filter fun arg => arg.1.isPositional)[skip]?.map Prod.swap := by
  induction args generalizing index skip with
  | nil => rfl
  | cons arg rest ih =>
    unfold nthPositional
    rw [List.zipIdx_cons]
    cases hpositional : arg.isPositional with
    | false =>
      rw [List.filter_cons_of_neg (by simp [hpositional])]
      exact ih (index + 1) skip
    | true =>
      rw [List.filter_cons_of_pos (by simp [hpositional])]
      cases skip with
      | zero => rfl
      | succ skip => exact ih (index + 1) skip

/-- The next positional of the bottom parser is given the word. -/
structure TakesPositional (s s' : ParseEngine σ ε) (given : Strv) (index : Nat)
    (arg : Argument σ ε) : Prop
    extends Performs s s' [.matched ⟨s.parents.length, index⟩ arg given [given]] where
  next : (positionals s.bottomParser)[s.positionalIndex]? = some (arg, index)
  sameChain : s'.chain = s.chain
  advances : s'.positionalIndex =
    if arg.canRepeat then s.positionalIndex else s.positionalIndex + 1

theorem skip_frame (s : ParseEngine σ ε) (stay : Bool) :
    let s' := if stay then s else { s with positionalIndex := s.positionalIndex + 1 }
    s'.chain = s.chain ∧ s'.seen = s.seen ∧ s'.user = s.user ∧
      s'.positionalIndex = if stay then s.positionalIndex else s.positionalIndex + 1 := by
  cases stay with
  | false => exact ⟨rfl, rfl, rfl, rfl⟩
  | true => exact ⟨rfl, rfl, rfl, rfl⟩

theorem tryParsePositional_takes {s s' : ParseEngine σ ε} {given : Strv}
    (h : s.tryParsePositional given = .ok (some s')) :
    ∃ index arg, s.positionalEvents given = [.matched ⟨s.parents.length, index⟩ arg given [given]] ∧
      TakesPositional s s' given index arg := by
  unfold tryParsePositional at h
  split at h
  next => cases h
  next index arg hnth =>
    split at h
    · cases h
    obtain ⟨s₁, hsee, h⟩ := bind_eq_ok.mp (mapError_eq_ok.mp h)
    obtain ⟨s₂, hact, h⟩ := bind_eq_ok.mp h
    obtain ⟨s₃, hshift, h⟩ := bind_eq_ok.mp h
    cases h
    have hnext : (positionals s.bottomParser)[s.positionalIndex]? = some (arg, index) := by
      rw [nthPositional_eq] at hnth
      obtain ⟨pair, hpair, hswap⟩ := Option.map_eq_some_iff.mp hnth
      rw [positionals, hpair, ← Prod.swap_swap pair, hswap]
      rfl
    have hmem := List.mem_of_getElem? hnext
    have hat : argumentAt s.chain ⟨s.parents.length, index⟩ = some arg := by
      unfold argumentAt chain
      rw [parserAt_bottom]
      exact List.mem_zipIdx_iff_getElem?.mp (List.mem_of_mem_filter hmem)
    obtain ⟨hchain, hseen, huser, hindex⟩ := skip_frame s₂ arg.canRepeat
    have hshifted := shift_calls hshift
    -- the counter apart, the word is shifted after the action
    have hafter : Calls s₂ { s' with positionalIndex := s₂.positionalIndex } [] :=
      ⟨hshifted.chain.trans hchain, rfl, hshifted.seen.trans hseen, huser ▸ hshifted.user⟩
    have hcalls : Calls s₁ { s' with positionalIndex := s₂.positionalIndex }
        ([given].map fun value => arg.action value given) := (act_calls hact).trans hafter
    have hperforms := performs_matched hat hsee hcalls
    refine ⟨index, arg, ?_, ⟨hperforms.chain, hperforms.calls, hperforms.placed, hperforms.seen,
      hperforms.once⟩, hnext, ?_, ?_⟩
    · unfold positionalEvents
      rw [hnth]
    · exact hshifted.chain.trans
        (hchain.trans ((act_eq_ok hact).chain.trans (see_eq_ok hsee).chain))
    · rw [hshifted.positionalIndex, hindex, (act_calls hact).positionalIndex, see_index hsee]

/-- A subcommand becomes the bottom parser. -/
structure Enters (s s' : ParseEngine σ ε) (given : Strv)
    (group : SubparserGroup (ArgumentParser σ ε) σ ε)
    (cand : Subparser (ArgumentParser σ ε) σ ε) : Prop
    extends Performs s s' [.entered group cand given] where
  newChain : s'.chain = cand.parser :: s.chain
  newIndex : s'.positionalIndex = 0

theorem tryParseSubparser_enters {s s' : ParseEngine σ ε} {given : Strv}
    (hnone : s.tryParsePositional given = .ok none)
    (h : s.tryParseSubparser given = .ok (some s')) :
    ∃ group cand, s.positionalEvents given = [.entered group cand given] ∧
      Enters s s' given group cand := by
  have hnth : nthPositional 0 s.positionalIndex s.bottomParser.arguments = none := by
    unfold tryParsePositional at hnone
    split at hnone
    next hnth => exact hnth
    next =>
      split at hnone
      · cases hnone
      obtain ⟨_, -, hnone⟩ := bind_eq_ok.mp (mapError_eq_ok.mp hnone)
      obtain ⟨_, -, hnone⟩ := bind_eq_ok.mp hnone
      obtain ⟨_, -, hnone⟩ := bind_eq_ok.mp hnone
      cases hnone
  unfold tryParseSubparser at h
  split at h
  next => cases h
  next group hgroup =>
    split at h
    next => cases h
    next cand hcand =>
      obtain ⟨s₁, hgroupAction, h⟩ := bind_eq_ok.mp h
      obtain ⟨s₂, hcandAction, h⟩ := bind_eq_ok.mp h
      obtain ⟨s₃, hshift, h⟩ := bind_eq_ok.mp h
      cases h
      have hactions := (actIf_calls hgroupAction).trans (actIf_calls hcandAction)
      have hshifted := shift_calls hshift
      have hchain : s'.chain = cand.parser :: s.chain := by
        rw [hshifted.chain, ← hactions.chain]
        rfl
      have hseen : s'.seen = s.seen := hshifted.seen.trans hactions.seen
      refine ⟨group, cand, ?_, ⟨?_, ?_, by simp, ?_, ?_⟩, hchain, hshifted.positionalIndex⟩
      · unfold positionalEvents
        rw [hnth, hgroup]
        dsimp only
        rw [hcand]
      · rw [hchain]
        exact List.suffix_cons _ _
      · have huser := callAll_append hactions.user hshifted.user
        simpa [Event.calls] using huser
      · simp [hseen, matchedIds, Event.matchedId]
      · exact fun _ _ => Nat.zero_le _

/-! ## Steps -/

/-- What a step does: options are matched, a positional is given the word, or a
subcommand is entered. -/
inductive Advance (s s' : ParseEngine σ ε) : List (Event σ ε) → Prop where
  | options {events : List (Event σ ε)} (performs : MatchesOptions s s' events)
      (taken : List (Strv × Role)) (roles : ∀ word ∈ taken, word.2 = .option ∨ word.2 = .value)
      (consumed : s'.consumed = s.consumed ++ taken) : Advance s s' events
  | positional {given : Strv} {index : Nat} {arg : Argument σ ε}
      (performs : TakesPositional s s' given index arg)
      (consumed : s'.consumed = s.consumed ++ [(given, .positional)]) :
      Advance s s' [.matched ⟨s.parents.length, index⟩ arg given [given]]
  | subcommand {given : Strv} {group : SubparserGroup (ArgumentParser σ ε) σ ε}
      {cand : Subparser (ArgumentParser σ ε) σ ε} (performs : Enters s s' given group cand)
      (consumed : s'.consumed = s.consumed ++ [(given, .subcommand)]) :
      Advance s s' [.entered group cand given]

theorem Advance.performs {s s' : ParseEngine σ ε} {events : List (Event σ ε)}
    (h : Advance s s' events) : Performs s s' events := by
  cases h with
  | options performs => exact performs.toPerforms
  | positional performs => exact performs.toPerforms
  | subcommand performs => exact performs.toPerforms

theorem advance_of_takesOption {s s' : ParseEngine σ ε} {events : List (Event σ ε)} {given : Strv}
    (hmatches : MatchesOptions s s' events) (htakes : TakesOption s s' given) :
    Advance s s' events := by
  obtain ⟨taken, hvalues, htakes⟩ := htakes
  refine .options hmatches _ (fun word hword => ?_) htakes.consumed
  rcases List.mem_cons.mp hword with rfl | hword
  · exact .inl rfl
  · exact .inr (hvalues word hword)

/-- Every step does what its events say. -/
theorem parseAnother_advance {s s' : ParseEngine σ ε} (h : s.parseAnother = .ok s') :
    Advance s s' s.nextEvents := by
  obtain ⟨given, hcurrent, h⟩ := bind_eq_ok.mp h
  obtain ⟨after, hgiven⟩ := currentArg_eq_ok hcurrent
  obtain ⟨found, htry, h⟩ := bind_eq_ok.mp h
  cases found with
  | none => cases h
  | some s₁ =>
    cases h
    unfold nextEvents
    rw [hgiven]
    dsimp only
    unfold tryParseGiven at htry
    split at htry
    next hnot =>
      rw [if_pos hnot]
      obtain ⟨positional, hpositional, htry⟩ := bind_eq_ok.mp htry
      cases positional with
      | some s₂ =>
        cases htry
        obtain ⟨index, arg, hevents, htakes⟩ := tryParsePositional_takes hpositional
        rw [hevents]
        exact .positional htakes (tryParsePositional_eq_ok hgiven hpositional).consumed
      | none =>
        obtain ⟨group, cand, hevents, henters⟩ := tryParseSubparser_enters hpositional htry
        rw [hevents]
        exact .subcommand henters (tryParseSubparser_eq_ok hgiven htry).consumed
    next hoption =>
      rw [if_neg hoption]
      split at htry
      next hlong =>
        rw [if_pos hlong]
        exact advance_of_takesOption (tryParseLong_matches hgiven htry)
          (tryParseLong_eq_ok hgiven htry)
      next hshort =>
        rw [if_neg hshort]
        unfold tryParseShort at htry
        split at htry
        · cases htry
        have hmatches := parseShortGroup_matches hgiven htry
        rcases parseShortGroup_eq_ok hgiven htry with ⟨-, hsilent⟩ | ⟨-, htakes⟩
        · exact .options hmatches [] (by simp) (by rw [hsilent.consumed, List.append_nil])
        · exact advance_of_takesOption hmatches htakes

end ParseEngine

end Bpt.Debate
