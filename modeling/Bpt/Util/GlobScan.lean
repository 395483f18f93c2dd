-- SUMMARY: What the scan of a directory tree for a glob produces, and when that is what the glob matches.
import Bpt.Util.GlobSplit
import Mathlib.Data.List.Count

/-!
# The scan of a glob

The run of the coroutine is first described by recursion on the tree (`visit`),
then by the number of times each path is produced. A scan takes `**` in its own
way: where `**` meets an entry that matches the next component, it goes on with
that same component inside the entry.
-/

namespace Bpt

open Coroutine

/-! ## The run as a recursion -/

/-- Paths below an entry. -/
def under (name : String) (r : Except BadOptionalAccess (List (List String))) :
    Except BadOptionalAccess (List (List String)) :=
  r.map (List.map (name :: ·))

/-- What a file adds to the scan of its directory. -/
def visitFile (name : String) : RglobItem → List RglobItem →
    Except BadOptionalAccess (List (List String))
  | none, [] => .ok [[name]]
  | none, none :: _ => .error .mk
  | none, some next :: _ => .ok (if next.isMatch name then [[name]] else [])
  | some pattern, [] => .ok (if pattern.isMatch name then [[name]] else [])
  | some _, _ :: _ => .ok []

/-- What the scan of a listing produces, relative to it. -/
def visit : Listing → RglobItem → List RglobItem → Except BadOptionalAccess (List (List String))
  | .empty, _, _ => .ok []
  | .file name rest, pattern, after => andThen (visitFile name pattern after) (visit rest pattern after)
  | .directory name entries rest, none, [] =>
    andThen (andThen (.ok [[name]]) (under name (visit entries none []))) (visit rest none [])
  | .directory _ _ _, none, none :: _ => .error .mk
  | .directory name entries rest, none, some next :: after =>
    andThen
      (andThen (if next.isMatch name then under name (visit entries (some next) after) else .ok [])
        (under name (visit entries none (some next :: after))))
      (visit rest none (some next :: after))
  | .directory name _ rest, some pattern, [] =>
    andThen (.ok (if pattern.isMatch name then [[name]] else [])) (visit rest (some pattern) [])
  | .directory name entries rest, some pattern, next :: after =>
    andThen (if pattern.isMatch name then under name (visit entries next after) else .ok [])
      (visit rest (some pattern) (next :: after))

/-- What a directory adds to the scan of its directory. -/
def visitDirectory (name : String) (entries : Listing) : RglobItem → List RglobItem →
    Except BadOptionalAccess (List (List String))
  | none, [] => andThen (.ok [[name]]) (under name (visit entries none []))
  | none, none :: _ => .error .mk
  | none, some next :: after =>
    andThen (if next.isMatch name then under name (visit entries (some next) after) else .ok [])
      (under name (visit entries none (some next :: after)))
  | some pattern, [] => .ok (if pattern.isMatch name then [[name]] else [])
  | some pattern, next :: after =>
    if pattern.isMatch name then under name (visit entries next after) else .ok []

theorem visit_directory (name : String) (entries rest : Listing) (pattern : RglobItem)
    (after : List RglobItem) :
    visit (.directory name entries rest) pattern after =
      andThen (visitDirectory name entries pattern after) (visit rest pattern after) := by
  rcases pattern with _ | pattern <;> rcases after with _ | ⟨_ | next, after⟩ <;> rfl

/-- Paths from the root of the scan. -/
def fromRoot (root : List String) (r : Except BadOptionalAccess (List (List String))) :
    Except BadOptionalAccess (List (List String)) :=
  r.map (List.map (root ++ ·))

theorem fromRoot_under (root : List String) (name : String)
    (r : Except BadOptionalAccess (List (List String))) :
    fromRoot root (under name r) = fromRoot (root ++ [name]) r := by
  cases r with
  | error e => rfl
  | ok paths => simp [fromRoot, under, Except.map]

theorem fromRoot_andThen (root : List String)
    (r r' : Except BadOptionalAccess (List (List String))) :
    fromRoot root (andThen r r') = andThen (fromRoot root r) (fromRoot root r') := by
  cases r with
  | error e => rfl
  | ok paths =>
      cases r' with
      | error e => rfl
      | ok paths' => simp [fromRoot, andThen, Except.map, Except.bind]

theorem fromRoot_nil (r : Except BadOptionalAccess (List (List String))) : fromRoot [] r = r := by
  cases r with
  | error e => rfl
  | ok paths => simp [fromRoot, Except.map]

/-- The run from a state produces `r`. -/
abbrev Scans (s : GlobIterState) (r : Except BadOptionalAccess (List (List String))) : Prop :=
  Runs GlobIterState.reenter (fun s => s.getEntry.path) s r

section

variable {f : GlobFrame} {r r' : Except BadOptionalAccess (List (List String))}

theorem scans_nested {inner : GlobIterState} (h : Scans inner r) (hf : Scans (.frame f) r') :
    Scans (.nested f inner) (andThen r r') := by
  refine Runs.nested (GlobIterState.nested f) ?_ ?_ ?_ (fun _ => rfl) h hf
  · intro t e ht
    simp only [GlobIterState.reenter, ht]
  · intro t t' ht
    simp only [GlobIterState.reenter, ht]
  · intro t ret t' hret ht
    simp only [GlobIterState.reenter, ht]

theorem scans_continue (f' : GlobFrame) (h : f.reenter = f'.continue_)
    (hr : Scans (.frame { f' with stateLabel := .start }) r) : Scans (.frame f) r :=
  .again h hr

theorem scans_yieldEntry (f' : GlobFrame) (label : StateLabel) (h : f.reenter = f'.yieldEntry label)
    (hr : Scans (.frame { f' with stateLabel := label }) r) :
    Scans (.frame f) (andThen (.ok [f'.entry.path]) r) := by
  have hyield : Scans (.frame f) (r.map (f'.entry.path :: ·)) := .yield h hr
  cases r <;> exact hyield

theorem scans_enterDirectory (f' : GlobFrame) (label : StateLabel) {listing : Listing}
    {pattern : RglobItem} {after : List RglobItem}
    (h : f.reenter = f'.enterDirectory label listing pattern after)
    (hinner : Scans (.init f'.entry.path listing pattern after) r)
    (hr : Scans (.frame { f' with stateLabel := label }) r') :
    Scans (.frame f) (andThen r r') :=
  .again h (scans_nested hinner hr)

end

section

variable {root : List String} {name : String} {rest : Listing}
  {r : Except BadOptionalAccess (List (List String))}

theorem scans_file {pattern : RglobItem} {after : List RglobItem}
    (hrest : ∀ entry, Scans (.frame ⟨root, pattern, after, entry, rest, .start⟩) r)
    (entry : DirectoryEntry) :
    Scans (.frame ⟨root, pattern, after, entry, .file name rest, .start⟩)
      (andThen (fromRoot root (visitFile name pattern after)) r) := by
  let f : GlobFrame := ⟨root, pattern, after, ⟨root, name, none⟩, rest, .start⟩
  have hstart : Scans (.frame f) r := hrest ⟨root, name, none⟩
  -- after a yield the state leaves the file
  have hyielded : ∀ label, label ≠ .start → Scans (.frame { f with stateLabel := label }) r := by
    intro label hne
    cases label with
    | start => exact absurd rfl hne
    | _ => exact scans_continue f rfl hstart
  let f₀ : GlobFrame := ⟨root, pattern, after, entry, .file name rest, .start⟩
  have hentry : f₀.reenter = f.reenterEntry := rfl
  have hskipped : f₀.reenter = f.continue_ → Scans (.frame f₀) (andThen (.ok []) r) := by
    intro hskip
    rw [andThen_nil]
    exact scans_continue f hskip hstart
  cases pattern with
  | none =>
      cases after with
      | nil => exact scans_yieldEntry f .yieldedRglob hentry (hyielded _ (by simp))
      | cons next after =>
          cases next with
          | none => exact .error rfl
          | some next =>
              cases hmatch : next.isMatch name with
              | true =>
                  have hyield : f₀.reenter = f.yieldEntry .yieldedNext := by
                    rw [hentry]
                    simp [GlobFrame.reenterEntry, f, hmatch]
                  simp only [visitFile, hmatch, if_true]
                  exact scans_yieldEntry f .yieldedNext hyield (hyielded _ (by simp))
              | false =>
                  have hskip : f₀.reenter = f.continue_ := by
                    rw [hentry]
                    simp [GlobFrame.reenterEntry, GlobFrame.enterRglob, f, hmatch]
                  simp only [visitFile, hmatch, Bool.false_eq_true, if_false]
                  exact hskipped hskip
  | some pattern =>
      cases hmatch : pattern.isMatch name with
      | true =>
          cases after with
          | nil =>
              have hyield : f₀.reenter = f.yieldEntry .yieldedLeaf := by
                rw [hentry]
                simp [GlobFrame.reenterEntry, f, hmatch]
              simp only [visitFile, hmatch, if_true]
              exact scans_yieldEntry f .yieldedLeaf hyield (hyielded _ (by simp))
          | cons next after =>
              have hskip : f₀.reenter = f.continue_ := by
                rw [hentry]
                simp [GlobFrame.reenterEntry, f, hmatch]
              exact hskipped hskip
      | false =>
          have hskip : f₀.reenter = f.continue_ := by
            rw [hentry]
            simp [GlobFrame.reenterEntry, f, hmatch]
          have hnothing : fromRoot root (visitFile name (some pattern) after) = .ok [] := by
            cases after <;> simp [visitFile, hmatch, fromRoot, Except.map]
          rw [hnothing]
          exact hskipped hskip

theorem scans_directory {pattern : RglobItem} {after : List RglobItem} {entries : Listing}
    (hentries : ∀ pattern after,
      Scans (.init (root ++ [name]) entries pattern after)
        (fromRoot (root ++ [name]) (visit entries pattern after)))
    (hrest : ∀ entry, Scans (.frame ⟨root, pattern, after, entry, rest, .start⟩) r)
    (entry : DirectoryEntry) :
    Scans (.frame ⟨root, pattern, after, entry, .directory name entries rest, .start⟩)
      (andThen (fromRoot root (visitDirectory name entries pattern after)) r) := by
  let f : GlobFrame := ⟨root, pattern, after, ⟨root, name, some entries⟩, rest, .start⟩
  have hstart : Scans (.frame f) r := hrest ⟨root, name, some entries⟩
  let f₀ : GlobFrame := ⟨root, pattern, after, entry, .directory name entries rest, .start⟩
  have hentry : f₀.reenter = f.reenterEntry := rfl
  have hskipped : f₀.reenter = f.continue_ → Scans (.frame f₀) (andThen (.ok []) r) := by
    intro hskip
    rw [andThen_nil]
    exact scans_continue f hskip hstart
  cases pattern with
  | none =>
      -- the directory is entered with the same `**` before the state goes on
      have hentered : ∀ f₁ : GlobFrame, f₁.reenter = f.enterRglob →
          Scans (.frame f₁) (andThen (fromRoot (root ++ [name]) (visit entries none after)) r) := by
        intro f₁ hf₁
        exact scans_enterDirectory f .enteredRglob hf₁ (hentries none after)
          (scans_continue f rfl hstart)
      cases after with
      | nil =>
          simp only [visitDirectory, fromRoot_andThen, fromRoot_under, andThen_assoc]
          exact scans_yieldEntry f .yieldedRglob hentry (hentered _ rfl)
      | cons next after =>
          cases next with
          | none => exact .error rfl
          | some next =>
              simp only [visitDirectory, fromRoot_andThen, andThen_assoc]
              rw [fromRoot_under root name (visit entries none (some next :: after))]
              cases hmatch : next.isMatch name with
              | true =>
                  have henter : f₀.reenter =
                      f.enterDirectory .enteredNext entries (some next) after := by
                    rw [hentry]
                    simp [GlobFrame.reenterEntry, f, hmatch]
                  rw [if_pos rfl, fromRoot_under]
                  exact scans_enterDirectory f .enteredNext henter (hentries (some next) after)
                    (hentered _ rfl)
              | false =>
                  have hskip : f₀.reenter = f.enterRglob := by
                    rw [hentry]
                    simp [GlobFrame.reenterEntry, f, hmatch]
                  rw [if_neg (by simp), show fromRoot root (.ok []) = .ok [] from rfl, andThen_nil]
                  exact hentered f₀ hskip
  | some pattern =>
      cases hmatch : pattern.isMatch name with
      | true =>
          cases after with
          | nil =>
              have hyield : f₀.reenter = f.yieldEntry .yieldedLeaf := by
                rw [hentry]
                simp [GlobFrame.reenterEntry, f, hmatch]
              simp only [visitDirectory, hmatch, if_true]
              exact scans_yieldEntry f .yieldedLeaf hyield (scans_continue f rfl hstart)
          | cons next after =>
              have henter : f₀.reenter = f.enterDirectory .enteredPattern entries next after := by
                rw [hentry]
                simp [GlobFrame.reenterEntry, f, hmatch]
              simp only [visitDirectory, hmatch, if_true]
              rw [fromRoot_under]
              exact scans_enterDirectory f .enteredPattern henter (hentries next after)
                (scans_continue f rfl hstart)
      | false =>
          have hskip : f₀.reenter = f.continue_ := by
            rw [hentry]
            simp [GlobFrame.reenterEntry, f, hmatch]
          have hnothing : fromRoot root (visitDirectory name entries (some pattern) after) = .ok [] := by
            cases after <;> simp [visitDirectory, hmatch, fromRoot, Except.map]
          rw [hnothing]
          exact hskipped hskip

end

/-- A state scans the rest of its directory. -/
theorem scans_visit (listing : Listing) (root : List String) (pattern : RglobItem)
    (after : List RglobItem) (entry : DirectoryEntry) :
    Scans (.frame ⟨root, pattern, after, entry, listing, .start⟩)
      (fromRoot root (visit listing pattern after)) := by
  induction listing generalizing root pattern after entry with
  | empty => exact .done rfl
  | file name rest ih =>
      rw [visit, fromRoot_andThen]
      exact scans_file (ih root pattern after) entry
  | directory name entries rest ihentries ih =>
      rw [visit_directory, fromRoot_andThen]
      exact scans_directory (fun pattern after => ihentries _ pattern after default)
        (ih root pattern after) entry

/-! ## How often a path is produced -/

namespace Listing

theorem kind_nil (listing : Listing) : listing.kind [] = none := by
  induction listing with
  | empty => rfl
  | file name rest ih => simp [kind, ih]
  | directory => rfl

theorem mem_names_of_kind {listing : Listing} {c : String} {path : List String} {isDir : Bool}
    (h : listing.kind (c :: path) = some isDir) : c ∈ listing.names := by
  induction listing with
  | empty => cases h
  | file name rest ih =>
      rw [kind] at h
      split at h
      next heq =>
        cases heq
        exact List.mem_cons_self
      next => exact List.mem_cons_of_mem _ (ih h)
  | directory name entries rest _ ih =>
      rw [kind] at h
      split at h
      next heq =>
        rw [heq]
        exact List.mem_cons_self
      next => exact List.mem_cons_of_mem _ (ih h)

theorem kind_eq_none {listing : Listing} {c : String} (hc : c ∉ listing.names) (path : List String) :
    listing.kind (c :: path) = none := by
  cases h : listing.kind (c :: path) with
  | none => rfl
  | some isDir => exact absurd (mem_names_of_kind h) hc

/-- The number of splits that a scan finds for a path, none when there is no
entry. -/
def splitsAt (listing : Listing) (items : List RglobItem) (path : List String) : Nat :=
  match listing.kind path with
  | none => 0
  | some isDir => (shiftedSplits isDir items path).length

end Listing

theorem andThen_eq_ok {r r' : Except BadOptionalAccess (List (List String))}
    {paths : List (List String)} (h : andThen r r' = .ok paths) :
    ∃ first second, r = .ok first ∧ r' = .ok second ∧ paths = first ++ second := by
  cases r with
  | error e => cases h
  | ok first =>
      cases r' with
      | error e => cases h
      | ok second =>
          cases h
          exact ⟨first, second, rfl, rfl, rfl⟩

theorem under_eq_ok {name : String} {r : Except BadOptionalAccess (List (List String))}
    {paths : List (List String)} (h : under name r = .ok paths) :
    ∃ below, r = .ok below ∧ paths = below.map (name :: ·) := by
  cases r with
  | error e => cases h
  | ok below =>
      cases h
      exact ⟨below, rfl, rfl⟩

/-- The paths of a listing are those of its first entry and those of the rest. -/
theorem splitsAt_file {name : String} {rest : Listing} (hname : name ∉ rest.names)
    (items : List RglobItem) (path : List String) :
    (Listing.file name rest).splitsAt items path =
      (Listing.file name .empty).splitsAt items path + rest.splitsAt items path := by
  by_cases hpath : path = [name]
  · simp [Listing.splitsAt, Listing.kind, hpath, Listing.kind_eq_none hname]
  · simp [Listing.splitsAt, Listing.kind, hpath]

theorem splitsAt_directory {name : String} {entries rest : Listing} (hname : name ∉ rest.names)
    (items : List RglobItem) (path : List String) :
    (Listing.directory name entries rest).splitsAt items path =
      (Listing.directory name entries .empty).splitsAt items path + rest.splitsAt items path := by
  cases path with
  | nil => simp [Listing.splitsAt, Listing.kind_nil]
  | cons c path =>
      by_cases hc : c = name
      · simp [Listing.splitsAt, Listing.kind, hc, Listing.kind_eq_none hname]
      · simp [Listing.splitsAt, Listing.kind, hc]

theorem count_visitFile {name : String} {pattern : RglobItem} {after : List RglobItem}
    {paths : List (List String)} (h : visitFile name pattern after = .ok paths)
    (path : List String) :
    paths.count path = (Listing.file name .empty).splitsAt (pattern :: after) path := by
  by_cases hpath : path = [name]
  · simp only [hpath, Listing.splitsAt, Listing.kind, if_true]
    rcases pattern with _ | pattern <;> rcases after with _ | ⟨_ | next, after⟩ <;> cases h
    · simp [shiftedSplits]
    · cases hmatch : next.isMatch name <;> simp [shiftedSplits, hmatch]
    · cases hmatch : pattern.isMatch name <;> simp [shiftedSplits, hmatch]
    · simp [shiftedSplits]
    · simp [shiftedSplits]
  · simp only [Listing.splitsAt, Listing.kind, hpath, if_false]
    rw [List.count_eq_zero]
    intro hmem
    rcases pattern with _ | pattern <;> rcases after with _ | ⟨_ | next, after⟩ <;> cases h <;>
      simp [hpath] at hmem

/-- What comes from a directory is below its name. -/
theorem visitDirectory_head {name : String} {entries : Listing} {pattern : RglobItem}
    {after : List RglobItem} {paths : List (List String)}
    (h : visitDirectory name entries pattern after = .ok paths) :
    ∀ path ∈ paths, ∃ rest, path = name :: rest := by
  have hbelow : ∀ r below, under name r = .ok below → ∀ path ∈ below, ∃ rest, path = name :: rest := by
    intro r below hr path hpath
    obtain ⟨paths, _, rfl⟩ := under_eq_ok hr
    obtain ⟨rest, _, rfl⟩ := List.mem_map.mp hpath
    exact ⟨rest, rfl⟩
  have hsingle : ∀ path ∈ [[name]], ∃ rest, path = name :: rest :=
    fun path hpath => ⟨[], List.mem_singleton.mp hpath⟩
  intro path hpath
  rcases pattern with _ | pattern <;> rcases after with _ | ⟨next, after⟩
  · obtain ⟨first, second, hfirst, hsecond, rfl⟩ := andThen_eq_ok h
    cases hfirst
    rcases List.mem_append.mp hpath with hpath | hpath
    · exact hsingle path hpath
    · exact hbelow _ _ hsecond path hpath
  · cases next with
    | none => cases h
    | some next =>
        obtain ⟨first, second, hfirst, hsecond, rfl⟩ := andThen_eq_ok h
        rcases List.mem_append.mp hpath with hpath | hpath
        · split at hfirst
          next => exact hbelow _ _ hfirst path hpath
          next =>
            cases hfirst
            cases hpath
        · exact hbelow _ _ hsecond path hpath
  · cases h
    split at hpath
    next => exact hsingle path hpath
    next => cases hpath
  · simp only [visitDirectory] at h
    split at h
    next => exact hbelow _ _ h path hpath
    next =>
      cases h
      cases hpath

theorem count_visitDirectory {name : String} {entries : Listing} {pattern : RglobItem}
    {after : List RglobItem} {paths : List (List String)}
    (h : visitDirectory name entries pattern after = .ok paths)
    (hentries : ∀ pattern after paths, visit entries pattern after = .ok paths → ∀ path,
      paths.count path = entries.splitsAt (pattern :: after) path)
    (path : List String) :
    paths.count path = (Listing.directory name entries .empty).splitsAt (pattern :: after) path := by
  by_cases hhead : ∃ rest, path = name :: rest
  · obtain ⟨path, rfl⟩ := hhead
    have hbelow : ∀ pattern after below, under name (visit entries pattern after) = .ok below →
        below.count (name :: path) = entries.splitsAt (pattern :: after) path := by
      intro pattern after r hr
      obtain ⟨below, hbelow, rfl⟩ := under_eq_ok hr
      rw [List.count_map_of_injective _ _ List.cons_injective, hentries pattern after below hbelow]
    have hdir : (Listing.directory name entries .empty).kind (name :: path) =
        if path = [] then some true else entries.kind path := by
      simp [Listing.kind]
    have hmatched : ∀ (p : Fnmatch.Pattern) pattern after below,
        (if p.isMatch name then under name (visit entries pattern after) else .ok []) = .ok below →
        below.count (name :: path) =
          if p.isMatch name then entries.splitsAt (pattern :: after) path else 0 := by
      intro p pattern after below hbelow'
      split at hbelow'
      next hp => rw [if_pos hp, hbelow _ _ _ hbelow']
      next hp =>
        cases hbelow'
        rw [if_neg hp, List.count_nil]
    cases pattern with
    | none =>
        rcases after with _ | ⟨_ | next, after⟩
        · obtain ⟨first, second, hfirst, hsecond, rfl⟩ := andThen_eq_ok h
          cases hfirst
          rw [List.count_append, hbelow _ _ _ hsecond]
          cases path with
          | nil => simp [Listing.splitsAt, Listing.kind_nil, hdir, shiftedSplits]
          | cons b path =>
              cases hkind : entries.kind (b :: path) <;>
                simp [Listing.splitsAt, hdir, hkind, shiftedSplits]
        · cases h
        · obtain ⟨first, second, hfirst, hsecond, rfl⟩ := andThen_eq_ok h
          rw [List.count_append, hbelow _ _ _ hsecond, hmatched _ _ _ _ hfirst]
          cases path with
          | nil => simp [Listing.splitsAt, Listing.kind_nil, hdir, shiftedSplits]
          | cons b path =>
              cases hkind : entries.kind (b :: path) with
              | none => simp [Listing.splitsAt, hdir, hkind]
              | some isDir =>
                  cases hmatch : next.isMatch name <;>
                    simp [Listing.splitsAt, hdir, hkind, shiftedSplits, hmatch]
    | some pattern =>
        cases after with
        | nil =>
            cases h
            cases path with
            | nil =>
                cases hmatch : pattern.isMatch name <;>
                  simp [Listing.splitsAt, hdir, shiftedSplits, hmatch]
            | cons b path =>
                cases hmatch : pattern.isMatch name <;>
                  cases hkind : entries.kind (b :: path) <;>
                    simp [Listing.splitsAt, hdir, hkind, shiftedSplits, hmatch]
        | cons next after =>
            rw [hmatched _ _ _ _ h]
            cases path with
            | nil => simp [Listing.splitsAt, Listing.kind_nil, hdir, shiftedSplits]
            | cons b path =>
                cases hmatch : pattern.isMatch name <;>
                  cases hkind : entries.kind (b :: path) <;>
                    simp [Listing.splitsAt, hdir, hkind, shiftedSplits, hmatch]
  · have hnone : (Listing.directory name entries .empty).kind path = none := by
      cases path with
      | nil => rfl
      | cons c path =>
          have hc : c ≠ name := fun hc => hhead ⟨path, by rw [hc]⟩
          simp [Listing.kind, hc]
    rw [Listing.splitsAt, hnone, List.count_eq_zero]
    exact fun hmem => hhead (visitDirectory_head h path hmem)

/-- A scan that does not fail produces each path as often as it finds splits. -/
theorem count_visit {listing : Listing} (hdistinct : listing.Distinct) {pattern : RglobItem}
    {after : List RglobItem} {paths : List (List String)}
    (h : visit listing pattern after = .ok paths) (path : List String) :
    paths.count path = listing.splitsAt (pattern :: after) path := by
  induction listing generalizing pattern after paths path with
  | empty =>
      cases h
      rfl
  | file name rest ih =>
      obtain ⟨hname, hrest⟩ := hdistinct
      obtain ⟨first, second, hfirst, hsecond, rfl⟩ := andThen_eq_ok h
      rw [List.count_append, count_visitFile hfirst, ih hrest hsecond, ← splitsAt_file hname]
  | directory name entries rest ihentries ih =>
      obtain ⟨hname, hentries, hrest⟩ := hdistinct
      rw [visit_directory] at h
      obtain ⟨first, second, hfirst, hsecond, rfl⟩ := andThen_eq_ok h
      rw [List.count_append, ih hrest hsecond, splitsAt_directory hname]
      rw [count_visitDirectory hfirst fun _ _ _ h path => ihentries hentries h path]

/-! ## When a scan fails -/

/-- The result is the failed access of an optional. -/
def Fails (r : Except BadOptionalAccess (List (List String))) : Prop := r = .error .mk

theorem fails_andThen {r r' : Except BadOptionalAccess (List (List String))} :
    Fails (andThen r r') ↔ Fails r ∨ Fails r' := by
  cases r with
  | error e => simp [Fails]
  | ok first => cases r' <;> simp [Fails, andThen, Except.bind, Except.map]

theorem fails_under {name : String} {r : Except BadOptionalAccess (List (List String))} :
    Fails (under name r) ↔ Fails r := by
  cases r <;> simp [Fails, under, Except.map]

theorem fails_ite {b : Bool} {r : Except BadOptionalAccess (List (List String))} :
    Fails (if b = true then r else .ok []) ↔ b = true ∧ Fails r := by
  cases b <;> simp [Fails]

/-- Some entry of the listing is met while two `**` follow each other. -/
def Listing.MeetsDouble (listing : Listing) (items : List RglobItem) : Prop :=
  ∃ path isDir, listing.kind path = some isDir ∧ Bpt.MeetsDouble items path

theorem meetsDouble_file {name : String} {rest : Listing} (hname : name ∉ rest.names)
    {items : List RglobItem} :
    (Listing.file name rest).MeetsDouble items ↔
      MeetsDouble items [name] ∨ rest.MeetsDouble items := by
  constructor
  · rintro ⟨path, isDir, hkind, hmeets⟩
    rw [Listing.kind] at hkind
    split at hkind
    next heq => exact .inl (heq ▸ hmeets)
    next => exact .inr ⟨path, isDir, hkind, hmeets⟩
  · rintro (hmeets | ⟨path, isDir, hkind, hmeets⟩)
    · exact ⟨[name], false, by simp [Listing.kind], hmeets⟩
    · refine ⟨path, isDir, ?_, hmeets⟩
      rw [Listing.kind, if_neg ?_]
      · exact hkind
      · rintro rfl
        rw [Listing.kind_eq_none hname] at hkind
        cases hkind

theorem meetsDouble_directory {name : String} {entries rest : Listing} (hname : name ∉ rest.names)
    {items : List RglobItem} :
    (Listing.directory name entries rest).MeetsDouble items ↔
      (MeetsDouble items [name] ∨
        ∃ path isDir, entries.kind path = some isDir ∧ MeetsDouble items (name :: path)) ∨
      rest.MeetsDouble items := by
  constructor
  · rintro ⟨path, isDir, hkind, hmeets⟩
    cases path with
    | nil => cases hkind
    | cons c path =>
        simp only [Listing.kind] at hkind
        split at hkind
        next hc =>
          rw [hc] at hmeets
          split at hkind
          next hpath => exact .inl (.inl (hpath ▸ hmeets))
          next => exact .inl (.inr ⟨path, isDir, hkind, hmeets⟩)
        next => exact .inr ⟨c :: path, isDir, hkind, hmeets⟩
  · rintro ((hmeets | ⟨path, isDir, hkind, hmeets⟩) | ⟨path, isDir, hkind, hmeets⟩)
    · exact ⟨[name], true, by simp [Listing.kind], hmeets⟩
    · refine ⟨name :: path, isDir, ?_, hmeets⟩
      have hpath : path ≠ [] := by
        rintro rfl
        rw [Listing.kind_nil] at hkind
        cases hkind
      simpa [Listing.kind, hpath] using hkind
    · cases path with
      | nil =>
          rw [Listing.kind_nil] at hkind
          cases hkind
      | cons c path =>
          have hc : c ≠ name := fun hc => hname (hc ▸ Listing.mem_names_of_kind hkind)
          exact ⟨c :: path, isDir, by simpa [Listing.kind, hc] using hkind, hmeets⟩

theorem fails_visitFile {name : String} {pattern : RglobItem} {after : List RglobItem} :
    Fails (visitFile name pattern after) ↔ MeetsDouble (pattern :: after) [name] := by
  rcases pattern with _ | pattern <;> rcases after with _ | ⟨_ | next, after⟩
  · exact iff_of_false nofun nofun
  · exact iff_of_true rfl .double
  all_goals
    refine iff_of_false nofun fun h => ?_
    obtain ⟨rest, hrest⟩ := h.of_singleton
    cases hrest

theorem fails_visitDirectory {name : String} {entries : Listing} {pattern : RglobItem}
    {after : List RglobItem}
    (hentries : ∀ pattern after, Fails (visit entries pattern after) ↔
      entries.MeetsDouble (pattern :: after)) :
    Fails (visitDirectory name entries pattern after) ↔
      MeetsDouble (pattern :: after) [name] ∨
        ∃ path isDir, entries.kind path = some isDir ∧
          MeetsDouble (pattern :: after) (name :: path) := by
  have hsingle : (∀ rest, pattern :: after ≠ none :: none :: rest) →
      ¬ MeetsDouble (pattern :: after) [name] := by
    intro hne h
    obtain ⟨rest, hrest⟩ := h.of_singleton
    exact hne rest hrest
  cases pattern with
  | none =>
      rcases after with _ | ⟨_ | next, after⟩
      · refine iff_of_false (fun h => ?_) ?_
        · rcases fails_andThen.mp h with h | h
          · cases h
          · obtain ⟨path, isDir, _, hmeets⟩ := (hentries none []).mp (fails_under.mp h)
            cases hmeets
        · rintro (h | ⟨path, isDir, _, h⟩) <;> cases h
      · exact iff_of_true rfl (.inl .double)
      · rw [or_iff_right (hsingle (by simp)), visitDirectory, fails_andThen, fails_ite, fails_under,
          fails_under, hentries, hentries]
        simp only [meetsDouble_rglob]
        constructor
        · rintro (⟨hc, path, isDir, hkind, h⟩ | ⟨path, isDir, hkind, h⟩)
          · exact ⟨path, isDir, hkind, .inl ⟨hc, h⟩⟩
          · exact ⟨path, isDir, hkind, .inr h⟩
        · rintro ⟨path, isDir, hkind, ⟨hc, h⟩ | h⟩
          · exact .inl ⟨hc, path, isDir, hkind, h⟩
          · exact .inr ⟨path, isDir, hkind, h⟩
  | some pattern =>
      rw [or_iff_right (hsingle (by simp))]
      simp only [meetsDouble_pattern]
      cases after with
      | nil =>
          refine iff_of_false nofun ?_
          rintro ⟨path, isDir, _, _, h⟩
          cases h
      | cons next after =>
          rw [visitDirectory, fails_ite, fails_under, hentries]
          constructor
          · rintro ⟨hc, path, isDir, hkind, h⟩
            exact ⟨path, isDir, hkind, hc, h⟩
          · rintro ⟨path, isDir, hkind, hc, h⟩
            exact ⟨hc, path, isDir, hkind, h⟩

/-- A scan fails exactly when it meets an entry while two `**` follow each other. -/
theorem fails_visit {listing : Listing} (hdistinct : listing.Distinct) {pattern : RglobItem}
    {after : List RglobItem} :
    Fails (visit listing pattern after) ↔ listing.MeetsDouble (pattern :: after) := by
  induction listing generalizing pattern after with
  | empty =>
      refine iff_of_false nofun ?_
      rintro ⟨_, _, hkind, _⟩
      cases hkind
  | file name rest ih =>
      obtain ⟨hname, hrest⟩ := hdistinct
      rw [visit, fails_andThen, fails_visitFile, ih hrest, meetsDouble_file hname]
  | directory name entries rest ihentries ih =>
      obtain ⟨hname, hentries, hrest⟩ := hdistinct
      rw [visit_directory, fails_andThen, ih hrest, meetsDouble_directory hname]
      rw [fails_visitDirectory fun _ _ => ihentries hentries]

/-! ## Agreement of scan and match -/

/-- The scan of the tree ends, without a failed access, and produces the entries
whose paths the glob matches, each once. -/
def ScanAgrees (glob : Glob) (dir : Directory) : Prop :=
  ∃ fuel paths, glob.scanFrom dir.listing fuel = some (.ok paths) ∧ paths.Nodup ∧
    ∀ path, path ∈ paths ↔ (dir.listing.kind path).isSome ∧ glob.isMatch path = true

theorem Glob.items_eq (glob : Glob) :
    glob.items = glob.items.head glob.items_ne_nil :: glob.items.tail :=
  (List.cons_head_tail glob.items_ne_nil).symm

/-- The scan of a glob is the recursion on the tree. -/
theorem Glob.scanFrom_eq (glob : Glob) (dir : Directory) :
    (∃ fuel, glob.scanFrom dir.listing fuel =
      some (visit dir.listing (glob.items.head glob.items_ne_nil) glob.items.tail)) ∧
    ∀ fuel r, glob.scanFrom dir.listing fuel = some r →
      r = visit dir.listing (glob.items.head glob.items_ne_nil) glob.items.tail := by
  have hscans := scans_visit dir.listing [] (glob.items.head glob.items_ne_nil) glob.items.tail default
  rw [fromRoot_nil] at hscans
  exact ⟨hscans.exists_fuel, fun fuel r hrun => hscans.eq_of_run hrun⟩

theorem Glob.count_scan (glob : Glob) {dir : Directory} {paths : List (List String)}
    (hvisit : visit dir.listing (glob.items.head glob.items_ne_nil) glob.items.tail = .ok paths)
    (path : List String) : paths.count path = dir.listing.splitsAt glob.items path := by
  rw [count_visit dir.distinct hvisit, ← glob.items_eq]

theorem scanAgrees_iff_visit (glob : Glob) (dir : Directory) :
    ScanAgrees glob dir ↔
      ∃ paths, visit dir.listing (glob.items.head glob.items_ne_nil) glob.items.tail = .ok paths ∧
        ∀ path, paths.count path =
          if (dir.listing.kind path).isSome ∧ glob.isMatch path = true then 1 else 0 := by
  obtain ⟨⟨fuel, hfuel⟩, hunique⟩ := glob.scanFrom_eq dir
  constructor
  · rintro ⟨fuel', paths, hrun, hnodup, hmem⟩
    refine ⟨paths, (hunique _ _ hrun).symm, fun path => ?_⟩
    rw [hnodup.count, if_congr (hmem path) rfl rfl]
  · rintro ⟨paths, hvisit, hcount⟩
    refine ⟨fuel, paths, by rw [hfuel, hvisit], List.nodup_iff_count_le_one.mpr fun path => ?_,
      fun path => ?_⟩
    · rw [hcount path]
      split <;> omega
    · rw [← List.count_pos_iff, hcount path]
      split <;> simp [*]

theorem noDouble_iff_visit (glob : Glob) (dir : Directory) :
    (∀ path isDir, dir.listing.kind path = some isDir → ¬ MeetsDouble glob.items path) ↔
      ∃ paths, visit dir.listing (glob.items.head glob.items_ne_nil) glob.items.tail = .ok paths := by
  have hfails : Fails (visit dir.listing (glob.items.head glob.items_ne_nil) glob.items.tail) ↔
      dir.listing.MeetsDouble glob.items := by
    rw [fails_visit dir.distinct, ← glob.items_eq]
  cases hvisit : visit dir.listing (glob.items.head glob.items_ne_nil) glob.items.tail with
  | error e =>
      rw [hvisit] at hfails
      obtain ⟨path, isDir, hkind, hmeets⟩ := hfails.mp rfl
      exact iff_of_false (fun h => h path isDir hkind hmeets) nofun
  | ok paths =>
      rw [hvisit] at hfails
      refine iff_of_true (fun path isDir hkind hmeets => ?_) ⟨paths, rfl⟩
      exact nomatch hfails.mpr ⟨path, isDir, hkind, hmeets⟩

/-! ## Globs without an inner `**` -/

/-- When `**` comes at most last, a scan finds a match in its only way. -/
theorem shiftedSplits_of_last {isDir : Bool} {items : List RglobItem}
    (hlast : none ∉ items.dropLast) (path : List String) :
    shiftedSplits isDir items path = if checkMatches items path = true then [[]] else [] := by
  induction items generalizing path with
  | nil => cases path <;> simp [shiftedSplits, checkMatches]
  | cons item items ih =>
      cases path with
      | nil => simp [shiftedSplits, checkMatches]
      | cons c path =>
          cases item with
          | none =>
              cases items with
              | nil => simp [shiftedSplits, checkMatches]
              | cons next items => simp at hlast
          | some pattern =>
              have hrest : none ∉ items.dropLast := by
                cases items with
                | nil => simp
                | cons next items =>
                    intro hmem
                    exact hlast (List.mem_cons_of_mem _ hmem)
              cases hc : pattern.isMatch c <;> simp [shiftedSplits, checkMatches, hc, ih hrest]

theorem not_meetsDouble_of_last {items : List RglobItem} (hlast : none ∉ items.dropLast)
    (path : List String) : ¬ MeetsDouble items path := by
  intro h
  induction h with
  | double => simp at hlast
  | @pattern _ items _ _ _ _ ih =>
      apply ih
      cases items with
      | nil => simp
      | cons next items =>
          intro hmem
          exact hlast (List.mem_cons_of_mem _ hmem)
  | shift => simp at hlast
  | more => simp at hlast

/-- The scan for a glob with `**` at most at its end produces what it matches. -/
theorem scanAgrees_of_last (glob : Glob) (dir : Directory) (hlast : none ∉ glob.items.dropLast) :
    ScanAgrees glob dir := by
  obtain ⟨paths, hvisit⟩ := (noDouble_iff_visit glob dir).mp
    fun path _ _ => not_meetsDouble_of_last hlast path
  refine (scanAgrees_iff_visit glob dir).mpr ⟨paths, hvisit, fun path => ?_⟩
  rw [glob.count_scan hvisit, Listing.splitsAt]
  cases dir.listing.kind path with
  | none => simp
  | some isDir =>
      dsimp only
      rw [shiftedSplits_of_last hlast]
      cases hmatch : glob.isMatch path <;> simp_all [Glob.isMatch]

end Bpt
