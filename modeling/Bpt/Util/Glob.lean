-- SUMMARY: Path globs: their compilation, their matching, and the resumable scan of a directory tree.
import Bpt.Base.Coroutine
import Bpt.Util.Fnmatch

/-!
# Path globs

A glob is matched against a path by `Glob.isMatch`, and it is scanned for in a
directory tree by a coroutine (`glob_iter_state`) that enters directories with a
state of their own. The order of a directory iterator is any, and fixed for the
run; links are left out.
-/

namespace Bpt

/-! ## Globs -/

/-- A component of a glob: a pattern, or nothing for `**`. -/
abbrev RglobItem := Option Fnmatch.Pattern

structure Glob where
  spelling : String
  items : List RglobItem
  items_ne_nil : items ≠ []
  deriving DecidableEq

/-- The parts of a glob between slashes. Nothing follows a slash at the end. -/
def globParts : List Char → List Char → List (List Char)
  | [], part => if part.isEmpty then [] else [part]
  | '/' :: rest, part => part :: globParts rest []
  | c :: rest, part => globParts rest (part ++ [c])

def compilePart (part : List Char) : Except String RglobItem :=
  if part = ['*', '*'] then .ok none else (Fnmatch.compileNext part).map some

def Glob.compile (pattern : String) : Except String Glob := do
  let items ← (globParts pattern.toList []).mapM compilePart
  if h : items = [] then .error "Invalid path glob expression (Must not be empty!)"
  else .ok ⟨pattern, items, h⟩

/-! ## Matching -/

def checkMatches : List RglobItem → List String → Bool
  | [], [] => true
  | [], _ :: _ => false
  | _ :: _, [] => false
  | some pattern :: pats, elem :: elems => pattern.isMatch elem && checkMatches pats elems
  | [none], _ :: _ => true
  | none :: next :: pats, elem :: elems =>
    (elem :: elems).tails.any fun rest => !rest.isEmpty && checkMatches (next :: pats) rest

/-- `glob::match` on the components of a path. -/
def Glob.isMatch (glob : Glob) (path : List String) : Bool := checkMatches glob.items path

/-! ## Directory trees -/

/-- The rest of a directory, in the order of its iterator. -/
inductive Listing where
  | empty
  | file (name : String) (rest : Listing)
  | directory (name : String) (entries : Listing) (rest : Listing)

/-- An entry, with what it lists when it is a directory. -/
structure DirectoryEntry where
  parent : List String
  filename : String
  listing : Option Listing

instance : Inhabited DirectoryEntry := ⟨⟨[], "", none⟩⟩

def DirectoryEntry.path (entry : DirectoryEntry) : List String := entry.parent ++ [entry.filename]

namespace Listing

/-- Dereference and increment a directory iterator (`*dir_iter++`). -/
def pop (root : List String) : Listing → Option (DirectoryEntry × Listing)
  | .empty => none
  | .file name rest => some (⟨root, name, none⟩, rest)
  | .directory name entries rest => some (⟨root, name, some entries⟩, rest)

def names : Listing → List String
  | .empty => []
  | .file name rest => name :: rest.names
  | .directory name _ rest => name :: rest.names

/-- No directory has two entries of one name. -/
def Distinct : Listing → Prop
  | .empty => True
  | .file name rest => name ∉ rest.names ∧ rest.Distinct
  | .directory name entries rest => name ∉ rest.names ∧ entries.Distinct ∧ rest.Distinct

/-- Whether there is a directory (`some true`) or a file at a path. -/
def kind : Listing → List String → Option Bool
  | .empty, _ => none
  | .file name rest, path => if path = [name] then some false else rest.kind path
  | .directory name entries rest, path =>
    match path with
    | [] => none
    | c :: path =>
      if c = name then (if path = [] then some true else entries.kind path)
      else rest.kind (c :: path)

end Listing

/-- A directory tree. -/
structure Directory where
  listing : Listing
  distinct : listing.Distinct

/-! ## Scanning -/

/-- What `std::optional::value` throws on an empty optional. -/
inductive BadOptionalAccess where
  | mk
  deriving DecidableEq

/-- The line a state is resumed at (`_state_label`), named by how it was left. -/
inductive StateLabel where
  | start
  /-- It yielded an entry that the final `**` matches. -/
  | yieldedRglob
  /-- It entered a directory that matches the component after `**`. -/
  | enteredNext
  /-- It yielded a file that matches the component after `**`. -/
  | yieldedNext
  /-- It entered a directory with the same `**`. -/
  | enteredRglob
  /-- It yielded an entry that the final pattern matches. -/
  | yieldedLeaf
  /-- It entered a directory that the pattern matches. -/
  | enteredPattern

/-- The members of `glob_iter_state` but `_next_state`. The position in the glob
is given by the component there and the components after it. -/
structure GlobFrame where
  root : List String
  pattern : RglobItem
  after : List RglobItem
  entry : DirectoryEntry
  dirIter : Listing
  stateLabel : StateLabel

inductive GlobIterState where
  | frame (f : GlobFrame)
  | nested (f : GlobFrame) (nextState : GlobIterState)

namespace GlobIterState

/-- The state that scans the listing of `root`. -/
def init (root : List String) (listing : Listing) (pattern : RglobItem)
    (after : List RglobItem) : GlobIterState :=
  .frame ⟨root, pattern, after, default, listing, .start⟩

def getEntry : GlobIterState → DirectoryEntry
  | .frame f => f.entry
  | .nested _ nextState => nextState.getEntry

end GlobIterState

namespace GlobFrame

/-- What `reenter` returns. -/
abbrev Reentered := Except BadOptionalAccess (Coroutine.Ret × GlobIterState)

def yieldEntry (f : GlobFrame) (label : StateLabel) : Reentered :=
  .ok (.yieldValue, .frame { f with stateLabel := label })

def enterDirectory (f : GlobFrame) (label : StateLabel) (listing : Listing) (pattern : RglobItem)
    (after : List RglobItem) : Reentered :=
  .ok (.reenterAgain,
    .nested { f with stateLabel := label } (.init f.entry.path listing pattern after))

def continue_ (f : GlobFrame) : Reentered :=
  .ok (.reenterAgain, .frame { f with stateLabel := .start })

/-- The end of the branch for `**`: a directory is entered with the same `**`. -/
def enterRglob (f : GlobFrame) : Reentered :=
  match f.entry.listing with
  | some listing => f.enterDirectory .enteredRglob listing f.pattern f.after
  | none => f.continue_

/-- The branches on a new entry. -/
def reenterEntry (f : GlobFrame) : Reentered :=
  match f.pattern, f.after with
  | none, [] => f.yieldEntry .yieldedRglob
  | none, none :: _ => .error .mk
  | none, some next :: after =>
    if next.isMatch f.entry.filename then
      match f.entry.listing with
      | some listing => f.enterDirectory .enteredNext listing (some next) after
      | none => f.yieldEntry .yieldedNext
    else f.enterRglob
  | some pattern, after =>
    if pattern.isMatch f.entry.filename then
      match after, f.entry.listing with
      | [], _ => f.yieldEntry .yieldedLeaf
      | next :: after, some listing => f.enterDirectory .enteredPattern listing next after
      | _ :: _, none => f.continue_
    else f.continue_

def reenter (f : GlobFrame) : Reentered :=
  match f.stateLabel with
  | .start =>
    match f.dirIter.pop f.root with
    | none => .ok (.done, .frame f)
    | some (entry, dirIter) => { f with entry, dirIter }.reenterEntry
  | .yieldedRglob | .enteredNext | .yieldedNext => f.enterRglob
  | .enteredRglob | .yieldedLeaf | .enteredPattern => f.continue_

end GlobFrame

def GlobIterState.reenter : GlobIterState → GlobFrame.Reentered
  | .frame f => f.reenter
  | .nested f nextState =>
    match nextState.reenter with
    | .error e => .error e
    | .ok (.done, _) => .ok (.reenterAgain, .frame f)
    | .ok (ret, nextState) => .ok (ret, .nested f nextState)

/-- The state of a new iterator. -/
def Glob.startState (glob : Glob) (listing : Listing) : GlobIterState :=
  .init [] listing (glob.items.head glob.items_ne_nil) glob.items.tail

/-- The paths of the entries that an iteration produces: increment until it is
done, and dereference after each increment. The fuel bounds the calls of
`reenter`. -/
def Glob.scanFrom (glob : Glob) (listing : Listing) (fuel : Nat) :
    Option (Except BadOptionalAccess (List (List String))) :=
  Coroutine.run GlobIterState.reenter (fun s => s.getEntry.path) fuel (glob.startState listing)

end Bpt
