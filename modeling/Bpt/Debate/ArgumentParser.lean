-- SUMMARY: The parsing of command lines: what each step consumes, and when parsing ends.
import Bpt.Base.Fallible
import Bpt.Debate.Argument

/-!
# Parsing command lines

The engine takes one word after another off the command line. Options are looked
up in the bottom parser and then in its parents; a positional or a subcommand
only in the bottom parser. The history of the words that were taken is kept in
`consumed`, which the program does not have.
-/

namespace Bpt.Debate

open Fallible

variable {σ ε : Type}

/-! ## The engine -/

/-- What a word of the command line is taken as. -/
inductive Role where
  | option
  | value
  | positional
  | subcommand
  deriving DecidableEq

inductive FailureKind (ε : Type) where
  | helpRequest
  | invalidRepetition
  | unrecognizedArgument
  | invalidArguments (message : String)
  | missingRequired (message : String)
  | assertion
  /-- An exception of an action. -/
  | action (err : ε)

/-- An exception with `e_arg_spelling` and `e_wrong_val_num`. Suggestions of other
spellings are left out. -/
structure Failure (ε : Type) where
  kind : FailureKind ε
  argSpelling : Option Strv := none
  wrongValNum : Option Nat := none

/-- `on_error` with the spelling of an argument. -/
def Failure.spelled (spelling : Strv) (err : Failure ε) : Failure ε :=
  { err with argSpelling := some spelling }

structure ParseEngine (σ ε : Type) where
  /-- The words from the current one on. -/
  remaining : List Strv
  bottomParser : ArgumentParser σ ε
  parents : List (ArgumentParser σ ε)
  positionalIndex : Nat := 0
  seen : List ArgId := []
  /-- What the actions change. -/
  user : σ
  consumed : List (Strv × Role) := []

namespace ParseEngine

/-- The bottom parser and its parents. -/
def chain (s : ParseEngine σ ε) : List (ArgumentParser σ ε) := s.bottomParser :: s.parents

def atEnd (s : ParseEngine σ ε) : Bool := s.remaining.isEmpty

def currentArg (s : ParseEngine σ ε) : Except (Failure ε) Strv :=
  match s.remaining with
  | [] => .error { kind := .assertion }
  | word :: _ => .ok word

def shift (s : ParseEngine σ ε) (role : Role) : Except (Failure ε) (ParseEngine σ ε) :=
  match s.remaining with
  | [] => .error { kind := .assertion }
  | word :: rest => .ok { s with remaining := rest, consumed := s.consumed ++ [(word, role)] }

def see (s : ParseEngine σ ε) (id : ArgId) (arg : Argument σ ε) :
    Except (Failure ε) (ParseEngine σ ε) :=
  if id ∈ s.seen ∧ arg.canRepeat = false then .error { kind := .invalidRepetition }
  else .ok { s with seen := s.seen.insert id }

/-- Run an action. -/
def act (s : ParseEngine σ ε) (action : σ → Except ε σ) : Except (Failure ε) (ParseEngine σ ε) :=
  match action s.user with
  | .error err => .error { kind := .action err }
  | .ok user => .ok { s with user := user }

/-- The loop over the words that are the values of an argument: `count` are to
come, and `i` have been. -/
def takeValues (message : String) (arg : Argument σ ε) (spelling : Strv) :
    Nat → Nat → ParseEngine σ ε → Except (Failure ε) (ParseEngine σ ε)
  | 0, _, s => .ok s
  | count + 1, i, s => do
    if s.atEnd then
      throw { kind := .invalidArguments message, wrongValNum := some i }
    let value ← s.currentArg
    let s ← s.act (arg.action value spelling)
    let s ← s.shift .value
    takeValues message arg spelling count (i + 1) s

/-! ### Long arguments -/

def dispatchLong (s : ParseEngine σ ε) (arg : Argument σ ε) (tail given : Strv) :
    Except (Failure ε) (ParseEngine σ ε) :=
  if arg.nargs = 0 then
    if tail ≠ [] then
      .error { kind := .invalidArguments "Argument does not expect a value", wrongValNum := some 1 }
    else s.act (arg.action given given)
  else
    match tail with
    | [] => takeValues "Invalid number of argument values" arg given arg.nargs.toNat 0 s
    | c :: value =>
      if c ≠ '=' then .error { kind := .assertion }
      else if arg.nargs > 1 then
        .error { kind := .invalidArguments "Invalid number of values", wrongValNum := some 1 }
      else s.act (arg.action value given)

/-- None when no argument matches. -/
def tryParseLong (s : ParseEngine σ ε) (tail : Strv) :
    Except (Failure ε) (Option (ParseEngine σ ε)) :=
  if tail = "help".toList then .error { kind := .helpRequest }
  else
    match matchChain (fun cand => cand.tryMatchLong tail) s.chain with
    | none => .ok none
    | some found => do
      let longArg := '-' :: '-' :: found.matched
      let s ← s.shift .option
      Except.mapError (Failure.spelled longArg) do
        let s ← s.see found.id found.arg
        let s ← dispatchLong s found.arg (tail.drop found.matched.length) longArg
        return some s

/-! ### Short arguments -/

/-- The rest of the group, which is empty when the argument took values. -/
def dispatchShort (s : ParseEngine σ ε) (arg : Argument σ ε) (tail spelling : Strv) :
    Except (Failure ε) (Strv × ParseEngine σ ε) :=
  if arg.nargs = 0 then do
    -- just a switch: the word of the group stays the current one
    let s ← s.act (arg.action [] spelling)
    return (tail, s)
  else if arg.nargs = 1 then
    if tail = [] then do
      let s ← s.shift .option
      if s.atEnd then
        throw { kind := .invalidArguments "Expected a value" }
      let value ← s.currentArg
      let s ← s.act (arg.action value spelling)
      let s ← s.shift .value
      return ([], s)
    else do
      let s ← s.act (arg.action tail spelling)
      let s ← s.shift .option
      return ([], s)
  else if tail ≠ [] then
    .error { kind := .invalidArguments "Wrong number of argument values given",
             wrongValNum := some 1 }
  else do
    let s ← s.shift .option
    let s ← takeValues "Wrong number of argument values" arg spelling arg.nargs.toNat 0 s
    return ([], s)

theorem dispatchShort_length {s s' : ParseEngine σ ε} {arg : Argument σ ε}
    {tail spelling tail' : Strv} (h : dispatchShort s arg tail spelling = .ok (tail', s')) :
    tail'.length ≤ tail.length := by
  unfold dispatchShort at h
  split at h
  · obtain ⟨_, -, h⟩ := bind_eq_ok.mp h
    cases h
    exact Nat.le_refl _
  split at h
  · split at h
    · obtain ⟨_, -, h⟩ := bind_eq_ok.mp h
      split at h
      · cases h
      obtain ⟨_, -, h⟩ := bind_eq_ok.mp h
      obtain ⟨_, -, h⟩ := bind_eq_ok.mp h
      obtain ⟨_, -, h⟩ := bind_eq_ok.mp h
      cases h
      exact Nat.zero_le _
    · obtain ⟨_, -, h⟩ := bind_eq_ok.mp h
      obtain ⟨_, -, h⟩ := bind_eq_ok.mp h
      cases h
      exact Nat.zero_le _
  split at h
  · cases h
  · obtain ⟨_, -, h⟩ := bind_eq_ok.mp h
    obtain ⟨_, -, h⟩ := bind_eq_ok.mp h
    cases h
    exact Nat.zero_le _

/-- One argument of a group, with what it leaves of the group. -/
def parseShortArgument (s : ParseEngine σ ε) (found : Match σ ε) (tail : Strv) :
    Except (Failure ε) (Strv × ParseEngine σ ε) :=
  let shortArg := '-' :: found.matched
  Except.mapError (Failure.spelled shortArg) do
    let s ← s.see found.id found.arg
    dispatchShort s found.arg (tail.drop found.matched.length) shortArg

theorem parseShortArgument_length {s s' : ParseEngine σ ε} {found : Match σ ε} {tail tail' : Strv}
    (h : parseShortArgument s found tail = .ok (tail', s')) :
    tail'.length ≤ (tail.drop found.matched.length).length := by
  obtain ⟨_, -, h⟩ := bind_eq_ok.mp (mapError_eq_ok.mp h)
  exact dispatchShort_length h

/-- The loop over a group. Every argument is looked up from the bottom parser on. -/
def parseShortGroup (s : ParseEngine σ ε) (tail : Strv) :
    Except (Failure ε) (Option (ParseEngine σ ε)) :=
  match _hfound : matchChain (fun cand => cand.tryMatchShort tail) s.chain with
  | none => .ok none
  | some found =>
    match _hparse : parseShortArgument s found tail with
    | .error err => .error err
    | .ok (tail', s') => if tail' = [] then .ok (some s') else parseShortGroup s' tail'
termination_by tail.length
decreasing_by
  have hlength := parseShortArgument_length _hparse
  have hdrop := length_drop_matched _hfound
  omega

def tryParseShort (s : ParseEngine σ ε) (tail : Strv) :
    Except (Failure ε) (Option (ParseEngine σ ε)) :=
  if tail = "h".toList then .error { kind := .helpRequest } else parseShortGroup s tail

/-! ### Positionals and subcommands -/

/-- The positional argument that comes after `skip` others. -/
def nthPositional : Nat → Nat → List (Argument σ ε) → Option (Nat × Argument σ ε)
  | _, _, [] => none
  | index, skip, arg :: rest =>
    if !arg.isPositional then nthPositional (index + 1) skip rest
    else match skip with
      | 0 => some (index, arg)
      | skip + 1 => nthPositional (index + 1) skip rest

def tryParsePositional (s : ParseEngine σ ε) (given : Strv) :
    Except (Failure ε) (Option (ParseEngine σ ε)) :=
  match nthPositional 0 s.positionalIndex s.bottomParser.arguments with
  | none => .ok none
  | some (index, arg) =>
    if arg.nargs ≠ 1 then .error { kind := .assertion }
    else Except.mapError (Failure.spelled arg.preferredSpelling) do
      let s ← s.see ⟨s.parents.length, index⟩ arg
      let s ← s.act (arg.action given given)
      -- a repeatable positional takes all that come after it
      let s := if arg.canRepeat then s else { s with positionalIndex := s.positionalIndex + 1 }
      let s ← s.shift .positional
      return some s

/-- Run an action, if there is one. -/
def actIf (s : ParseEngine σ ε) : Option (σ → Except ε σ) →
    Except (Failure ε) (ParseEngine σ ε)
  | none => .ok s
  | some action => s.act action

def tryParseSubparser (s : ParseEngine σ ε) (given : Strv) :
    Except (Failure ε) (Option (ParseEngine σ ε)) :=
  match s.bottomParser.subparsers with
  | none => .ok none
  | some group =>
    match group.subparsers.find? fun cand => cand.name = given with
    | none => .ok none
    | some cand => do
      let s ← s.actIf (group.action.map fun action => action given group.valname)
      let s ← s.actIf cand.action
      let s := { s with bottomParser := cand.parser, parents := s.chain, positionalIndex := 0 }
      let s ← s.shift .subcommand
      return some s

/-! ### The loop -/

/-- The word is an option: a hyphen with something after it. -/
def isOption (given : Strv) : Bool := 2 ≤ given.length && given.head? = some '-'

def tryParseGiven (s : ParseEngine σ ε) (given : Strv) :
    Except (Failure ε) (Option (ParseEngine σ ε)) :=
  if !isOption given then do
    match ← s.tryParsePositional given with
    | some s' => return some s'
    | none => s.tryParseSubparser given
  else if given[1]? = some '-' then s.tryParseLong (given.drop 2)
  else s.tryParseShort (given.drop 1)

def parseAnother (s : ParseEngine σ ε) : Except (Failure ε) (ParseEngine σ ε) := do
  let given ← s.currentArg
  match ← s.tryParseGiven given with
  | some s' => return s'
  | none => throw { kind := .unrecognizedArgument, argSpelling := some given }

/-- A required argument of a parser was not seen. -/
def isMissing (s : ParseEngine σ ε) (argset : ArgumentParser σ ε) (depth : Nat) : Bool :=
  argset.arguments.zipIdx.any fun arg => arg.1.required && !s.seen.contains ⟨depth, arg.2⟩

def finalizeChain (s : ParseEngine σ ε) : List (ArgumentParser σ ε) → Except (Failure ε) Unit
  | [] => .ok ()
  | argset :: parents =>
    if s.isMissing argset parents.length then
      .error { kind := .missingRequired "Required argument is missing" }
    else finalizeChain s parents

def finalize (s : ParseEngine σ ε) : Except (Failure ε) Unit := do
  s.finalizeChain s.chain
  match s.bottomParser.subparsers with
  | some group =>
    if group.required then throw { kind := .missingRequired "Expected a subcommand" }
  | none => return ()

/-- The loop, which may take up to `fuel` turns. None when it has not ended then. -/
def run : Nat → ParseEngine σ ε → Option (Except (Failure ε) (ParseEngine σ ε))
  | 0, _ => none
  | fuel + 1, s =>
    if s.atEnd then some (s.finalize.map fun _ => s)
    else
      match s.parseAnother with
      | .error err => some (.error err)
      | .ok s' => run fuel s'

end ParseEngine

/-- The engine that a parser starts with. Its parents are those that the parser is
attached to. -/
def ParseEngine.start (parser : ArgumentParser σ ε) (parents : List (ArgumentParser σ ε))
    (argv : List Strv) (user : σ) : ParseEngine σ ε where
  remaining := argv
  bottomParser := parser
  parents := parents
  user := user

end Bpt.Debate
