-- SUMMARY: The usage requirements of libraries, the search for a cycle of uses, and the two traversals.
import Mathlib.Data.List.Sort
import Bpt.Base.Fallible
import Bpt.Base.Keyed
import Bpt.Base.Traversal
import Bpt.Util.Path

/-!
# Usage requirements

Libraries by their usage keys. Each lists the keys that it uses and those that it
links; a listed key need not be in the map.
-/

namespace Bpt

open Keyed

/-- The key of a library (`lm::usage`). -/
structure Usage where
  namespace_ : String
  name : String
  deriving DecidableEq, Inhabited

/-- The order of the keys of a map. -/
def Usage.le (a b : Usage) : Prop :=
  a.namespace_ < b.namespace_ ∨ a.namespace_ = b.namespace_ ∧ a.name ≤ b.name

instance : DecidableRel Usage.le := fun _ _ => inferInstanceAs (Decidable (_ ∨ _))

/-- What a traversal reads of a library (`lm::library`). -/
structure LmLibrary where
  linkablePath : Option Path
  includePaths : List Path
  uses : List Usage
  links : List Usage
  deriving DecidableEq

/-- The map keeps one library under each key, in the order of the keys. -/
structure UsageRequirementMap where
  reqs : List (Usage × LmLibrary)
  unique : Unique Prod.fst reqs

inductive UsageError where
  | nonesuchLibrary (key : Usage)
  | dupLibraryId (key : Usage)
  | cyclicUsage (cycle : List Usage)
  deriving DecidableEq

namespace UsageRequirementMap

def empty : UsageRequirementMap := ⟨[], List.nodup_nil⟩

def get (m : UsageRequirementMap) (key : Usage) : Option LmLibrary :=
  (m.reqs.find? fun entry => entry.1 = key).map (·.2)

theorem get_eq_some {m : UsageRequirementMap} {key : Usage} {lib : LmLibrary} :
    m.get key = some lib ↔ (key, lib) ∈ m.reqs := by
  unfold get
  rw [Option.map_eq_some_iff]
  constructor
  · rintro ⟨entry, hentry, rfl⟩
    obtain ⟨hmem, rfl⟩ := m.unique.find?_eq_some.mp hentry
    exact hmem
  · intro hmem
    exact ⟨(key, lib), m.unique.find?_eq_some.mpr ⟨hmem, rfl⟩, rfl⟩

theorem get_isSome {m : UsageRequirementMap} {key : Usage} :
    (m.get key).isSome = true ↔ key ∈ m.reqs.map Prod.fst := by
  rw [Option.isSome_iff_exists, List.mem_map]
  constructor
  · rintro ⟨lib, hlib⟩
    exact ⟨(key, lib), get_eq_some.mp hlib, rfl⟩
  · rintro ⟨⟨_, lib⟩, hmem, rfl⟩
    exact ⟨lib, get_eq_some.mpr hmem⟩

/-- Add a library under a key that is not there yet. -/
def add (m : UsageRequirementMap) (ident : Usage) (lib : LmLibrary) :
    Except UsageError UsageRequirementMap :=
  if h : ident ∈ m.reqs.map Prod.fst then .error (.dupLibraryId ident)
  else .ok {
    reqs := m.reqs.orderedInsert (fun a b => a.1.le b.1) (ident, lib)
    unique := by
      have hperm := (List.perm_orderedInsert (fun a b : Usage × LmLibrary => a.1.le b.1)
        (ident, lib) m.reqs).map Prod.fst
      exact hperm.nodup_iff.mpr (List.nodup_cons.mpr ⟨h, m.unique⟩) }

theorem add_perm {m m' : UsageRequirementMap} {ident : Usage} {lib : LmLibrary}
    (h : m.add ident lib = .ok m') : m'.reqs.Perm ((ident, lib) :: m.reqs) := by
  unfold add at h
  split at h
  · cases h
  · cases h
    exact List.perm_orderedInsert _ _ _

/-- A map holds the libraries that were added to it. -/
theorem foldlM_add_perm {entries : List (Usage × LmLibrary)} {m m' : UsageRequirementMap}
    (h : entries.foldlM (fun m entry => m.add entry.1 entry.2) m = .ok m') :
    m'.reqs.Perm (entries ++ m.reqs) := by
  induction entries generalizing m with
  | nil =>
    cases h
    exact .refl _
  | cons entry entries ih =>
    rw [List.foldlM_cons] at h
    obtain ⟨m₁, hadd, h⟩ := Fallible.bind_eq_ok.mp h
    exact (ih h).trans (((add_perm hadd).append_left entries).trans List.perm_middle)

/-- The libraries of a libman index, by the names of package and library. It is
`noexcept`: where `add` throws, the program ends. -/
def fromLmIndex (packages : List (String × List (String × LmLibrary))) :
    Except UsageError UsageRequirementMap :=
  (packages.flatMap fun pkg => pkg.2.map fun lib => (Usage.mk pkg.1 lib.1, lib.2)).foldlM
    (fun m entry => m.add entry.1 entry.2) empty

/-! ## Traversals -/

/-- A library as a node of a traversal: what it yields, and the keys it goes on to. -/
def pathNode (m : UsageRequirementMap) (own : LmLibrary → List Path)
    (next : LmLibrary → List Usage) (key : Usage) : Option (List Path × List Usage) :=
  (m.get key).map fun lib => (own lib, next lib)

/-- Traverse from a library with fuel. A missing library is an error. -/
def collectPaths (m : UsageRequirementMap) (own : LmLibrary → List Path)
    (next : LmLibrary → List Usage) (fuel : Nat) (key : Usage) :
    Option (Except UsageError (List Path)) :=
  (Traversal.traverse (m.pathNode own next) fuel key).map (Except.mapError .nonesuchLibrary)

/-- The loop over the uses comes first, then that over the links. -/
def linkPaths (m : UsageRequirementMap) : Nat → Usage → Option (Except UsageError (List Path)) :=
  m.collectPaths (fun lib => lib.linkablePath.toList) (fun lib => lib.uses ++ lib.links)

def includePaths (m : UsageRequirementMap) : Nat → Usage → Option (Except UsageError (List Path)) :=
  m.collectPaths (fun lib => lib.includePaths) (fun lib => lib.uses)

/-! ## The search for a cycle -/

inductive VertexStatus where
  | unvisited
  | visiting
  | visited
  deriving DecidableEq

structure VertexInfo where
  status : VertexStatus := .unvisited
  /-- When `visiting`, the vertex that is searched next. -/
  next : Usage := default

/-- The vertices of the search, by their keys. -/
abbrev Vertices := Usage → Option VertexInfo

def Vertices.update (vertices : Vertices) (key : Usage) (f : VertexInfo → VertexInfo) : Vertices :=
  fun k => if k = key then (vertices k).map f else vertices k

def setNext (v : Vertices) (key next : Usage) : Vertices :=
  v.update key fun info => { info with next := next }

def setStatus (v : Vertices) (key : Usage) (status : VertexStatus) : Vertices :=
  v.update key fun info => { info with status := status }

/-- How a search ends without a result. -/
inductive SearchError where
  | outOfFuel
  /-- The key has no vertex. -/
  | noVertex
  deriving DecidableEq

/-- The loop of `find_cycle` over the uses of a library. -/
def searchUses (m : UsageRequirementMap)
    (search : Vertices → Usage → LmLibrary → Except SearchError (Option Usage × Vertices))
    (usage : Usage) : List Usage → Vertices → Except SearchError (Option Usage × Vertices)
  | [], vertices => .ok (none, vertices)
  | next :: rest, vertices =>
    let vertices := setNext vertices usage next
    match m.get next with
    -- a missing library is an error at a later point
    | none => searchUses m search usage rest vertices
    | some nextLib =>
      match search vertices next nextLib with
      | .error e => .error e
      | .ok (some cycle, vertices) => .ok (some cycle, vertices)
      | .ok (none, vertices) => searchUses m search usage rest vertices

def findCycle (m : UsageRequirementMap) :
    Nat → Vertices → Usage → LmLibrary → Except SearchError (Option Usage × Vertices)
  | 0, _, _, _ => .error .outOfFuel
  | fuel + 1, vertices, usage, lib =>
    match vertices usage with
    | none => .error .noVertex
    | some info =>
      match info.status with
      | .visited => .ok (none, vertices)
      | .visiting => .ok (some usage, vertices)
      | .unvisited =>
        let vertices := setStatus vertices usage .visiting
        match searchUses m (findCycle m fuel) usage lib.uses vertices with
        | .error e => .error e
        | .ok (some cycle, vertices) => .ok (some cycle, vertices)
        | .ok (none, vertices) => .ok (none, setStatus vertices usage .visited)

/-- The loop that follows the `next` pointers up to the first vertex. -/
def recoverCycle (vertices : Vertices) (first : Usage) : Nat → Usage → Except SearchError (List Usage)
  | 0, _ => .error .outOfFuel
  | fuel + 1, cur =>
    match vertices cur with
    | none => .error .noVertex
    | some info =>
      if info.next = first then .ok [cur]
      else (recoverCycle vertices first fuel info.next).map (cur :: ·)

/-- The loop of `find_usage_cycle` over the vertices. -/
def searchAll (m : UsageRequirementMap) (fuel : Nat) :
    List (Usage × LmLibrary) → Vertices → Except SearchError (Option (List Usage))
  | [], _ => .ok none
  | (usage, lib) :: rest, vertices =>
    match findCycle m fuel vertices usage lib with
    | .error e => .error e
    | .ok (some cyclicUsage, vertices) =>
      (recoverCycle vertices cyclicUsage fuel cyclicUsage).map some
    | .ok (none, vertices) => searchAll m fuel rest vertices

def findUsageCycle (m : UsageRequirementMap) (fuel : Nat) :
    Except SearchError (Option (List Usage)) :=
  searchAll m fuel m.reqs fun key => (m.get key).map fun _ => {}

/-- The constructor of `usage_requirements`, which refuses a cycle of uses. -/
def usageRequirements (m : UsageRequirementMap) (fuel : Nat) :
    Except SearchError (Except UsageError UsageRequirementMap) :=
  (findUsageCycle m fuel).map fun
    -- the text of the error goes back to the first library
    | some cycle => .error (.cyclicUsage (cycle ++ cycle.head?.toList))
    | none => .ok m

end UsageRequirementMap

end Bpt
