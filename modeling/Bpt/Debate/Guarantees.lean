-- SUMMARY: What a command line that was parsed guarantees: required arguments, repetitions, subcommands and positionals.
import Bpt.Base.Deal
import Bpt.Debate.Events

/-!
# What a parsed command line guarantees

The guarantees are about the events of the run and the words in the history. They
are invariants of the steps, and the final check turns them into what is promised.
-/

namespace Bpt.Debate

open Fallible

variable {σ ε : Type}

/-! ## Positional words -/

/-- How many subcommands were entered. -/
def entered (history : List (Strv × Role)) : Nat :=
  history.countP fun word => word.2 = .subcommand

/-- The words that the parser of a depth was given as positionals. The history begins
with the parser of depth `current`. -/
def positionalWords (depth : Nat) : Nat → List (Strv × Role) → List Strv
  | _, [] => []
  | current, (word, .positional) :: rest =>
    if current = depth then word :: positionalWords depth current rest
    else positionalWords depth current rest
  | current, (_, .subcommand) :: rest => positionalWords depth (current + 1) rest
  | current, (_, .option) :: rest | current, (_, .value) :: rest =>
    positionalWords depth current rest

@[simp] theorem entered_cons (word : Strv × Role) (rest : List (Strv × Role)) :
    entered (word :: rest) = entered rest + if word.2 = .subcommand then 1 else 0 := by
  simp [entered, List.countP_cons]

theorem positionalWords_append (depth current : Nat) (history more : List (Strv × Role)) :
    positionalWords depth current (history ++ more) =
      positionalWords depth current history ++
        positionalWords depth (current + entered history) more := by
  induction history generalizing current with
  | nil => rfl
  | cons word rest ih =>
    obtain ⟨word, role⟩ := word
    cases role with
    | option => simpa [positionalWords] using ih current
    | value => simpa [positionalWords] using ih current
    | positional =>
      simp only [List.cons_append, positionalWords]
      split <;> simp [ih current]
    | subcommand =>
      simp only [List.cons_append, positionalWords]
      rw [ih (current + 1)]
      simp [Nat.add_assoc, Nat.add_comm 1]

theorem positionalWords_deeper {depth current : Nat} {history : List (Strv × Role)}
    (h : current + entered history < depth) : positionalWords depth current history = [] := by
  induction history generalizing current with
  | nil => rfl
  | cons word rest ih =>
    obtain ⟨word, role⟩ := word
    rw [entered_cons] at h
    cases role with
    | option => exact ih (by simpa using h)
    | value => exact ih (by simpa using h)
    | positional =>
      rw [positionalWords, if_neg (by omega)]
      exact ih (by simpa using h)
    | subcommand =>
      rw [if_pos rfl] at h
      exact ih (by omega)

/-- Options and their values are no positionals. -/
theorem positionalWords_options {depth current : Nat} {taken : List (Strv × Role)}
    (h : ∀ word ∈ taken, word.2 = .option ∨ word.2 = .value) :
    positionalWords depth current taken = [] := by
  induction taken with
  | nil => rfl
  | cons word rest ih =>
    obtain ⟨word, role⟩ := word
    have ih := ih fun word' hword' => h word' (List.mem_cons_of_mem _ hword')
    rcases h _ List.mem_cons_self with hrole | hrole <;> cases hrole <;> exact ih

theorem entered_options {taken : List (Strv × Role)}
    (h : ∀ word ∈ taken, word.2 = .option ∨ word.2 = .value) : entered taken = 0 := by
  refine List.countP_eq_zero.mpr fun word hword => ?_
  rcases h word hword with hrole | hrole <;> simp [hrole]

/-! ## What the positionals received -/

/-- What the positionals of the parser of a depth received. -/
def Event.received (depth : Nat) : Event σ ε → List ((Argument σ ε × Nat) × Strv)
  | .matched id arg _ values =>
    if arg.isPositional ∧ id.depth = depth then values.map fun value => ((arg, id.index), value)
    else []
  | .entered _ _ _ => []

def received (depth : Nat) (events : List (Event σ ε)) : List ((Argument σ ε × Nat) × Strv) :=
  events.flatMap (Event.received depth)

/-- The positionals of a parser take the words one after another, and a repeatable
one all the rest. -/
def dealWords (argset : ArgumentParser σ ε) (words : List Strv) :
    Option (List ((Argument σ ε × Nat) × Strv)) :=
  Deal.deal (fun arg => arg.1.canRepeat) (ParseEngine.positionals argset) words

theorem received_append (depth : Nat) (events more : List (Event σ ε)) :
    received depth (events ++ more) = received depth events ++ received depth more := by
  unfold received
  rw [List.flatMap_append]

/-- What is received is received by an argument of the depth. -/
theorem received_eq_nil {depth : Nat} {events : List (Event σ ε)}
    (h : ∀ id arg spelling values, Event.matched id arg spelling values ∈ events →
      arg.isPositional = true → id.depth ≠ depth) : received depth events = [] := by
  refine List.flatMap_eq_nil_iff.mpr fun event hmem => ?_
  cases event with
  | matched id arg spelling values =>
    rw [Event.received, if_neg]
    rintro ⟨hpositional, hdepth⟩
    exact h id arg spelling values hmem hpositional hdepth
  | entered => rfl

namespace ParseEngine

/-- The positionals of every parser of the chain have received the words that the
parser was given, and those of the bottom parser that wait are counted. The chain
had its bottom at the depth `current`. -/
structure Dealt (current : Nat) (s : ParseEngine σ ε) (events : List (Event σ ε)) : Prop where
  depth : s.parents.length = current + entered s.consumed
  waiting : Deal.waiting (fun arg => arg.1.canRepeat) (positionals s.bottomParser)
      (positionalWords s.parents.length current s.consumed) =
    (positionals s.bottomParser).drop s.positionalIndex
  dealt : ∀ depth argset, parserAt s.chain depth = some argset →
    dealWords argset (positionalWords depth current s.consumed) = some (received depth events)
  shallow : ∀ depth, s.chain.length ≤ depth → received depth events = []

theorem Dealt.of_options {current : Nat} {s s' : ParseEngine σ ε} {events more : List (Event σ ε)}
    {taken : List (Strv × Role)} (h : Dealt current s events) (hmore : MatchesOptions s s' more)
    (hroles : ∀ word ∈ taken, word.2 = .option ∨ word.2 = .value)
    (hconsumed : s'.consumed = s.consumed ++ taken) : Dealt current s' (events ++ more) := by
  obtain ⟨hbottom, hparents⟩ := List.cons.inj hmore.sameChain
  have hentered : entered s'.consumed = entered s.consumed := by
    unfold entered
    rw [hconsumed, List.countP_append]
    exact congrArg _ (entered_options hroles)
  have hwords (depth : Nat) :
      positionalWords depth current s'.consumed = positionalWords depth current s.consumed := by
    rw [hconsumed, positionalWords_append, positionalWords_options hroles, List.append_nil]
  have hreceived (depth : Nat) : received depth (events ++ more) = received depth events := by
    have hnone : received depth more = [] := by
      refine received_eq_nil fun id arg spelling values hmem hpositional => ?_
      obtain ⟨_, arg', _, _, heq, hoption⟩ := hmore.options _ hmem
      cases heq
      rw [hoption] at hpositional
      cases hpositional
    rw [received_append, hnone, List.append_nil]
  refine ⟨?_, ?_, fun depth argset hat => ?_, fun depth hdeep => ?_⟩
  · rw [hparents, hentered]
    exact h.depth
  · rw [hbottom, hparents, hwords, hmore.sameIndex]
    exact h.waiting
  · rw [hmore.sameChain] at hat
    rw [hwords, hreceived]
    exact h.dealt depth argset hat
  · rw [hmore.sameChain] at hdeep
    rw [hreceived]
    exact h.shallow depth hdeep

theorem Dealt.of_positional {current index : Nat} {s s' : ParseEngine σ ε}
    {events : List (Event σ ε)} {given : Strv} {arg : Argument σ ε} (h : Dealt current s events)
    (hmore : TakesPositional s s' given index arg)
    (hconsumed : s'.consumed = s.consumed ++ [(given, .positional)]) :
    Dealt current s' (events ++ [.matched ⟨s.parents.length, index⟩ arg given [given]]) := by
  obtain ⟨hbottom, hparents⟩ := List.cons.inj hmore.sameChain
  have hentered : entered s'.consumed = entered s.consumed := by
    rw [hconsumed]
    simp [entered]
  have hpositional : arg.isPositional = true := by
    have hmem := List.mem_of_getElem? hmore.next
    simpa using (List.mem_filter.mp hmem).2
  have hwords (depth : Nat) : positionalWords depth current s'.consumed =
      positionalWords depth current s.consumed ++
        if s.parents.length = depth then [given] else [] := by
    rw [hconsumed, positionalWords_append, ← h.depth]
    simp [positionalWords]
  have hreceived (depth : Nat) :
      received depth (events ++ [.matched ⟨s.parents.length, index⟩ arg given [given]]) =
        received depth events ++
          if s.parents.length = depth then [((arg, index), given)] else [] := by
    rw [received_append]
    simp only [received, List.flatMap_singleton, Event.received, hpositional, true_and]
    split <;> rfl
  have hnext : (Deal.waiting (fun arg => arg.1.canRepeat) (positionals s.bottomParser)
      (positionalWords s.parents.length current s.consumed)).head? = some (arg, index) := by
    rw [h.waiting, List.head?_drop]
    exact hmore.next
  refine ⟨?_, ?_, fun depth argset hat => ?_, fun depth hdeep => ?_⟩
  · rw [hparents, hentered]
    exact h.depth
  · rw [hbottom, hparents, hwords, if_pos rfl, Deal.waiting_concat hnext, h.waiting,
      hmore.advances, List.tail_drop]
    split <;> rfl
  · rw [hmore.sameChain] at hat
    rw [hwords, hreceived]
    have hdealt := h.dealt depth argset hat
    split
    next hdepth =>
      -- the word goes to the first positional that waits
      subst hdepth
      cases (parserAt_bottom s.bottomParser s.parents).symm.trans hat
      exact Deal.deal_concat hdealt hnext given
    next => rw [List.append_nil, List.append_nil]; exact hdealt
  · rw [hmore.sameChain] at hdeep
    have hlt : s.parents.length < depth := hdeep
    rw [hreceived, h.shallow depth hdeep, if_neg (Nat.ne_of_lt hlt)]
    rfl

theorem Dealt.of_subcommand {current : Nat} {s s' : ParseEngine σ ε} {events : List (Event σ ε)}
    {given : Strv} {group : SubparserGroup (ArgumentParser σ ε) σ ε}
    {cand : Subparser (ArgumentParser σ ε) σ ε} (h : Dealt current s events)
    (hmore : Enters s s' given group cand)
    (hconsumed : s'.consumed = s.consumed ++ [(given, .subcommand)]) :
    Dealt current s' (events ++ [.entered group cand given]) := by
  obtain ⟨hbottom, hparents⟩ := List.cons.inj hmore.newChain
  have hdepth : s'.parents.length = s.parents.length + 1 := by
    rw [hparents]
    rfl
  have hwords (depth : Nat) :
      positionalWords depth current s'.consumed = positionalWords depth current s.consumed := by
    rw [hconsumed, positionalWords_append]
    simp [positionalWords]
  have hreceived (depth : Nat) :
      received depth (events ++ [.entered group cand given]) = received depth events := by
    rw [received_append]
    exact List.append_nil _
  -- the new parser was not given a word yet
  have hnew : positionalWords s'.parents.length current s.consumed = [] :=
    positionalWords_deeper (by rw [hdepth, h.depth]; exact Nat.lt_succ_self _)
  refine ⟨?_, ?_, fun depth argset hat => ?_, fun depth hdeep => ?_⟩
  · rw [hdepth, h.depth, hconsumed]
    simp [entered, Nat.add_assoc]
  · rw [hwords, hnew, Deal.waiting_nil, hmore.newIndex]
    rfl
  · rw [hmore.newChain, parserAt_cons] at hat
    rw [hwords, hreceived]
    split at hat
    next hbelow =>
      have hbelow : depth = s'.parents.length := by rw [hparents]; exact hbelow
      rw [hbelow, hnew, h.shallow _ (Nat.le_of_eq (congrArg List.length hparents.symm))]
      exact Deal.deal_nil _
    next => exact h.dealt depth argset hat
  · rw [hmore.newChain] at hdeep
    rw [hreceived]
    exact h.shallow depth (Nat.le_of_succ_le hdeep)

theorem Dealt.advance {current : Nat} {s s' : ParseEngine σ ε} {events more : List (Event σ ε)}
    (h : Dealt current s events) (hstep : Advance s s' more) :
    Dealt current s' (events ++ more) := by
  cases hstep with
  | options performs taken roles consumed => exact h.of_options performs roles consumed
  | positional performs consumed => exact h.of_positional performs consumed
  | subcommand performs consumed => exact h.of_subcommand performs consumed

/-! ## Runs -/

/-- What the steps keep holds of the events of a run that returns, and the final check
was passed. -/
theorem run_invariant {I : ParseEngine σ ε → List (Event σ ε) → Prop}
    (hstep : ∀ s s' events more, I s events → Advance s s' more → I s' (events ++ more))
    {fuel : Nat} {s s' : ParseEngine σ ε} {events : List (Event σ ε)} (hI : I s events)
    (h : s.run fuel = some (.ok s')) :
    I s' (events ++ s.runEvents fuel) ∧ s'.finalize = .ok () := by
  refine run_induction (motive := fun fuel s => ∀ events, I s events →
    I s' (events ++ s.runEvents fuel) ∧ s'.finalize = .ok ()) ?_ ?_ h events hI
  · intro fuel hend hfinal events hI
    rw [runEvents, if_pos hend, List.append_nil]
    exact ⟨hI, hfinal⟩
  · intro fuel s middle hend hmiddle ih events hI
    have hevents : s.runEvents (fuel + 1) = s.nextEvents ++ middle.runEvents fuel := by
      rw [runEvents, if_neg (by simp [hend]), hmiddle]
    rw [hevents, ← List.append_assoc]
    exact ih _ (hstep s middle events s.nextEvents hI (parseAnother_advance hmiddle))

/-- No parser of a chain that is finalized misses a required argument. -/
theorem finalizeChain_eq_ok {s : ParseEngine σ ε} {chain : List (ArgumentParser σ ε)}
    (h : s.finalizeChain chain = .ok ()) {id : ArgId} {arg : Argument σ ε}
    (hat : argumentAt chain id = some arg) (hrequired : arg.required = true) : id ∈ s.seen := by
  induction chain with
  | nil => cases hat
  | cons argset parents ih =>
    rw [finalizeChain] at h
    split at h
    next => cases h
    next hmissing =>
      unfold argumentAt at hat
      rw [parserAt_cons] at hat
      split at hat
      next hdepth =>
        by_contra hunseen
        refine hmissing (List.any_eq_true.mpr ⟨(arg, id.index), ?_, ?_⟩)
        · exact List.mem_zipIdx_iff_getElem?.mpr hat
        · obtain ⟨depth, index⟩ := id
          obtain rfl : depth = parents.length := hdepth
          simpa [hrequired] using hunseen
      next => exact ih h hat

/-- What the return of a run guarantees. -/
structure Guarantees (s s' : ParseEngine σ ε) (events : List (Event σ ε)) : Prop where
  /-- Every word was taken once, in order. -/
  words : s'.consumed.map Prod.fst = s.remaining
  /-- The actions that ran are those of the events. -/
  calls : callAll (events.flatMap Event.calls) s.user = .ok s'.user
  placed : ∀ id arg spelling values, Event.matched id arg spelling values ∈ events →
    argumentAt s'.chain id = some arg
  required : ∀ id arg, argumentAt s'.chain id = some arg → arg.required = true →
    id ∈ matchedIds events
  once : ∀ id arg, argumentAt s'.chain id = some arg → arg.canRepeat = false →
    (matchedIds events).count id ≤ 1
  answered : ∀ group, s'.bottomParser.subparsers = some group → group.required = false
  /-- The words that a parser was given went to its positionals in their order. -/
  dealt : ∀ depth argset, parserAt s'.chain depth = some argset →
    dealWords argset (positionalWords depth s.parents.length s'.consumed) =
      some (received depth events)

theorem dealt_start (parser : ArgumentParser σ ε) (parents : List (ArgumentParser σ ε))
    (argv : List Strv) (user : σ) : Dealt parents.length (start parser parents argv user) [] where
  depth := rfl
  waiting := Deal.waiting_nil _
  dealt _ _ _ := Deal.deal_nil _
  shallow _ _ := rfl

/-- A run that returns normally has matched every required argument, matched no
argument too often, and answered the required subcommand, and the positionals
have received the words in their order. -/
theorem run_guarantees (parser : ArgumentParser σ ε) (parents : List (ArgumentParser σ ε))
    (argv : List Strv) (user : σ) (fuel : Nat) (s' : ParseEngine σ ε)
    (h : (start parser parents argv user).run fuel = some (.ok s')) :
    Guarantees (start parser parents argv user) s'
      ((start parser parents argv user).runEvents fuel) := by
  have hperforms := (run_invariant (I := Performs (start parser parents argv user))
    (fun _ _ _ _ hbefore hstep => hbefore.trans hstep.performs) (Performs.refl _) h).1
  obtain ⟨hdealt, hfinal⟩ := run_invariant (I := Dealt parents.length)
    (fun _ _ _ _ hbefore hstep => hbefore.advance hstep) (dealt_start parser parents argv user) h
  rw [List.nil_append] at hperforms hdealt
  obtain ⟨_, hchain, hgroup⟩ := bind_eq_ok.mp hfinal
  refine ⟨?_, hperforms.calls, hperforms.placed, fun id arg hat hrequired => ?_,
    fun id arg hat hrepeat => ?_, fun group hsubparsers => ?_, hdealt.dealt⟩
  · obtain ⟨taken, hconsumed, hwords, -⟩ := takesOnce_of_run h
    rw [hconsumed]
    exact hwords
  · -- what was seen at the end was matched
    rcases (hperforms.seen id).mp (finalizeChain_eq_ok hchain hat hrequired) with hseen | hmatched
    · cases hseen
    · exact hmatched
  · refine hperforms.once id fun arg' spelling values hmem => ?_
    cases hat.symm.trans (hperforms.placed id arg' spelling values hmem)
    exact hrepeat
  · rw [hsubparsers] at hgroup
    dsimp only at hgroup
    split at hgroup
    next => cases hgroup
    next hoptional => simpa using hoptional

end ParseEngine

/-! ### Removing packages from a repository -/

open ParseEngine

inductive RepoSubcommand where
  | none_
  | init
  | import_
  | remove
  | validate
  | ls

def RepoSubcommand.names : List (Strv × RepoSubcommand) :=
  [("_none_".toList, none_), ("init".toList, init), ("import".toList, import_),
    ("remove".toList, remove), ("validate".toList, validate), ("ls".toList, ls)]

/-- `enum_putter` looks the value up with its hyphens made underscores. -/
def RepoSubcommand.cast (given : Strv) : Option RepoSubcommand :=
  names.lookup (given.map fun c => if c = '-' then '_' else c)

structure RemoveOptions where
  subcommand : RepoSubcommand := .none_
  repoDir : Strv := []
  pkgs : List Strv := []

def repoRepoDirArg : Argument RemoveOptions Unit where
  valname := "<repo-dir>".toList
  required := true
  action value _ opts := .ok { opts with repoDir := value }

def pkgsArg : Argument RemoveOptions Unit where
  valname := "<pkg-id>".toList
  canRepeat := true
  action value _ opts := .ok { opts with pkgs := opts.pkgs ++ [value] }

def repoRemoveParser : ArgumentParser RemoveOptions Unit := .mk [repoRepoDirArg, pkgsArg] none

/-- The parser of `repo`, with one of its subcommands. -/
def repoCmdParser : ArgumentParser RemoveOptions Unit :=
  .mk [] (some {
    valname := "<repo-subcommand>".toList
    action := some fun value _ opts =>
      match RepoSubcommand.cast value with
      | none => .error ()
      | some subcommand => .ok { opts with subcommand := subcommand }
    subparsers := [⟨"remove".toList, none, repoRemoveParser⟩] })

theorem run_guarantees_remove :
    ∃ s', (start repoCmdParser [] ["remove".toList, "dir".toList, "a@1.0.0".toList,
        "b@1.0.0".toList] {}).run 5 = some (.ok s') ∧
      Guarantees (start repoCmdParser [] ["remove".toList, "dir".toList, "a@1.0.0".toList,
        "b@1.0.0".toList] {}) s'
        ((start repoCmdParser [] ["remove".toList, "dir".toList, "a@1.0.0".toList,
          "b@1.0.0".toList] {}).runEvents 5) :=
  ⟨_, rfl, run_guarantees _ _ _ _ _ _ rfl⟩

end Bpt.Debate
