-- SUMMARY: When the traversals of usage requirements end, and the order in which libraries are linked.
import Bpt.UsageReqs.Cycle

/-!
# Link paths and include paths

The constructor of `usage_requirements` looks for a cycle of uses. Include paths
follow uses only, so they can always be collected; link paths also follow links.
-/

namespace Bpt

open Relation Traversal

namespace UsageRequirementMap

/-! ## The traversals -/

/-- The traversal ends with a list, or at a library that is missing. -/
def Ends (f : Nat → Option (Except UsageError (List Path))) : Prop :=
  ∃ r, Converges f r ∧
    ((∃ paths, r = .ok paths) ∨ ∃ key, r = .error (.nonesuchLibrary key))

/-- Some library uses or links another key. -/
def LinkEdge (m : UsageRequirementMap) (a b : Usage) : Prop :=
  ∃ lib, m.get a = some lib ∧ (b ∈ lib.uses ∨ b ∈ lib.links)

/-- `link_paths` of the first library goes on to that of the second: of what comes
before, everything is in the map and nothing lies on a cycle. -/
def LinkDescends (m : UsageRequirementMap) : Usage → Usage → Prop :=
  Descends (m.pathNode (fun lib => lib.linkablePath.toList) fun lib => lib.uses ++ lib.links)

/-- The constructor returns. -/
def Accepted (m : UsageRequirementMap) : Prop := ∃ fuel, usageRequirements m fuel = .ok (.ok m)

section

variable {m : UsageRequirementMap} {own : LmLibrary → List Path} {next : LmLibrary → List Usage}

theorem pathNode_eq_some {key : Usage} {paths : List Path} {keys : List Usage} :
    m.pathNode own next key = some (paths, keys) ↔
      ∃ lib, m.get key = some lib ∧ own lib = paths ∧ next lib = keys := by
  unfold pathNode
  simp [Option.map_eq_some_iff]

theorem pathNode_ne_none {key : Usage} :
    m.pathNode own next key ≠ none ↔ (m.get key).isSome = true := by
  rw [← Option.isSome_iff_ne_none, pathNode, Option.isSome_map]

theorem finite_pathNode : {key | m.pathNode own next key ≠ none}.Finite := by
  refine (List.finite_toSet (m.reqs.map Prod.fst)).subset fun key hkey => ?_
  exact get_isSome.mp (pathNode_ne_none.mp hkey)

theorem ends_iff {key : Usage} :
    Ends (fun fuel => m.collectPaths own next fuel key) ↔
      ∃ fuel r, traverse (m.pathNode own next) fuel key = some r := by
  constructor
  · rintro ⟨r, ⟨bound, hbound⟩, _⟩
    obtain ⟨r', hr', _⟩ := Option.map_eq_some_iff.mp (hbound bound le_rfl)
    exact ⟨bound, r', hr'⟩
  · rintro ⟨fuel, r, hr⟩
    obtain ⟨bound, hbound⟩ := converges_of_traverse hr
    refine ⟨r.mapError .nonesuchLibrary, ⟨bound, fun fuel' hle => ?_⟩, ?_⟩
    · have hend : traverse (m.pathNode own next) fuel' key = some r := hbound fuel' hle
      simp only [collectPaths, hend, Option.map_some]
    · cases r with
      | ok paths => exact .inl ⟨paths, rfl⟩
      | error key' => exact .inr ⟨key', rfl⟩

/-- The constructor returns when no library uses itself through others. -/
theorem accepted_iff : Accepted m ↔ ∀ a, ¬ TransGen (Uses m) a a := by
  rcases findUsageCycle_cases m with ⟨cycle, hfind, hcycle⟩ | ⟨hfind, hacyclic⟩
  · refine iff_of_false ?_ fun hacyclic => ?_
    · rintro ⟨fuel, hfuel⟩
      unfold usageRequirements at hfuel
      cases hexec : findUsageCycle m fuel with
      | error e =>
          rw [hexec] at hfuel
          cases hfuel
      | ok result =>
          have hlarge := findUsageCycle_mono (le_max_left fuel (m.reqs.length + 1)) hexec
          rw [hfind _ (by omega)] at hlarge
          cases hlarge
          rw [hexec] at hfuel
          cases hfuel
    · obtain ⟨a, ha⟩ := hcycle.transGen
      exact hacyclic a ha
  · refine iff_of_true ⟨m.reqs.length + 1, ?_⟩ hacyclic
    unfold usageRequirements
    rw [hfind _ (Nat.lt_succ_self _)]
    rfl

/-- On a cycle the vertices between have a next one. -/
theorem transGen_of_next {α : Type} {r : α → α → Prop} {a b : α} (h : TransGen r a b)
    (hb : ∃ c, r b c) : TransGen (fun x y => r x y ∧ ∃ z, r y z) a b := by
  induction h with
  | single hab => exact .single ⟨hab, hb⟩
  | tail _ hbc ih => exact .tail (ih ⟨_, hbc⟩) ⟨hbc, hb⟩

/-- Include paths can be collected when no library uses itself through others. -/
theorem ends_includePaths (hacyclic : ∀ a, ¬ TransGen (Uses m) a a) (key : Usage) :
    Ends fun fuel => m.includePaths fuel key := by
  refine ends_iff.mpr ((terminates_iff finite_pathNode).mpr (fun a hcycle => ?_) key)
  obtain ⟨b, hab, _⟩ := TransGen.head'_iff.mp hcycle
  refine hacyclic a (TransGen.mono (fun x y hxy => ?_) _ _ (transGen_of_next hcycle ⟨b, hab⟩))
  obtain ⟨⟨paths, before, after, hx, _⟩, z, _, _, _, hy, _⟩ := hxy
  obtain ⟨lib, hlib, _, huses⟩ := pathNode_eq_some.mp hx
  exact ⟨lib, hlib, by simp [huses], pathNode_ne_none.mp (by rw [hy]; simp)⟩

end

/-- Of a map that the constructor accepts, all link paths and include paths can be
collected exactly when `link_paths` goes on from no library to itself. -/
theorem traversals_end_iff (m : UsageRequirementMap) (haccepted : Accepted m) :
    (∀ key, (m.get key).isSome = true →
      Ends (fun fuel => m.linkPaths fuel key) ∧ Ends fun fuel => m.includePaths fuel key) ↔
    ∀ key, ¬ TransGen (LinkDescends m) key key := by
  unfold LinkDescends
  rw [← terminates_iff finite_pathNode]
  constructor
  · intro hends key
    cases hkey : m.get key with
    | none => exact ⟨1, .error key, traverse_succ_of_none 0 (by rw [pathNode, hkey]; rfl)⟩
    | some lib => exact ends_iff.mp (hends key (by rw [hkey]; rfl)).1
  · intro hterminates key _
    exact ⟨ends_iff.mpr (hterminates key), ends_includePaths (accepted_iff.mp haccepted) key⟩

/-! ### A cycle of links -/

/-- A library without paths that links others. -/
def linking (links : List Usage) : LmLibrary := ⟨none, [], [], links⟩

/-- Two libraries that link each other. -/
def mutualLinks : UsageRequirementMap where
  reqs := [(⟨"a", "a"⟩, linking [⟨"b", "b"⟩]), (⟨"b", "b"⟩, linking [⟨"a", "a"⟩])]
  unique := by unfold Keyed.Unique; decide

theorem mutualLinks_accepted : Accepted mutualLinks := ⟨3, rfl⟩

theorem traversals_end_iff_mutual :
    (∀ key, (mutualLinks.get key).isSome = true →
      Ends (fun fuel => mutualLinks.linkPaths fuel key) ∧
        Ends fun fuel => mutualLinks.includePaths fuel key) ↔
    ∀ key, ¬ TransGen (LinkDescends mutualLinks) key key :=
  traversals_end_iff mutualLinks mutualLinks_accepted

/-- The constructor accepts the map, and no fuel is enough for its link paths. -/
theorem traversals_not_end :
    ∃ m key, Accepted m ∧ (m.get key).isSome = true ∧ ∀ fuel, m.linkPaths fuel key = none := by
  have hnever : ∀ fuel, mutualLinks.linkPaths fuel ⟨"a", "a"⟩ = none ∧
      mutualLinks.linkPaths fuel ⟨"b", "b"⟩ = none := by
    intro fuel
    induction fuel with
    | zero => exact ⟨rfl, rfl⟩
    | succ fuel ih =>
        unfold linkPaths collectPaths at ih ⊢
        rw [Option.map_eq_none_iff, Option.map_eq_none_iff] at ih ⊢
        have ha : mutualLinks.pathNode (fun lib => lib.linkablePath.toList)
            (fun lib => lib.uses ++ lib.links) ⟨"a", "a"⟩ = some ([], [⟨"b", "b"⟩]) := rfl
        have hb : mutualLinks.pathNode (fun lib => lib.linkablePath.toList)
            (fun lib => lib.uses ++ lib.links) ⟨"b", "b"⟩ = some ([], [⟨"a", "a"⟩]) := rfl
        constructor
        · rw [traverse_succ_of_some fuel ha, collect_cons_of_none ih.2, Option.map_none]
        · rw [traverse_succ_of_some fuel hb, collect_cons_of_none ih.1, Option.map_none]
  exact ⟨mutualLinks, ⟨"a", "a"⟩, mutualLinks_accepted, by decide, fun fuel => (hnever fuel).1⟩

/-! ## Link order -/

section

variable {m : UsageRequirementMap}

/-- Every listed library is in the map. -/
def Closed (m : UsageRequirementMap) : Prop := ∀ a b, LinkEdge m a b → (m.get b).isSome = true

/-- No two libraries have the same linkable path. -/
def DistinctPaths (m : UsageRequirementMap) : Prop :=
  ∀ a b libA libB p, m.get a = some libA → m.get b = some libB →
    libA.linkablePath = some p → libB.linkablePath = some p → a = b

theorem edge_iff_linkEdge {a b : Usage} :
    Edge (m.pathNode (fun lib => lib.linkablePath.toList) fun lib => lib.uses ++ lib.links) a b ↔
      LinkEdge m a b := by
  constructor
  · rintro ⟨_, _, ha, hb⟩
    obtain ⟨lib, hlib, _, rfl⟩ := pathNode_eq_some.mp ha
    exact ⟨lib, hlib, List.mem_append.mp hb⟩
  · rintro ⟨lib, hlib, hb⟩
    exact ⟨_, _, pathNode_eq_some.mpr ⟨lib, hlib, rfl, rfl⟩, List.mem_append.mpr hb⟩

theorem complete_of_closed (hclosed : Closed m) (hacyclic : ∀ a, ¬ TransGen (LinkEdge m) a a)
    {key : Usage} (hkey : (m.get key).isSome = true) :
    Complete (m.pathNode (fun lib => lib.linkablePath.toList) fun lib => lib.uses ++ lib.links)
      key := by
  intro b hreach
  constructor
  · rw [pathNode_ne_none]
    rcases ReflTransGen.cases_tail hreach with rfl | ⟨a, _, hab⟩
    · exact hkey
    · exact hclosed a b (edge_iff_linkEdge.mp hab)
  · exact fun hcycle => hacyclic b
      (TransGen.mono (fun _ _ h => edge_iff_linkEdge.mp h) _ _ hcycle)

/-- The link paths of a library are those of what it reaches, and every library is
linked after the last one that depends on it. -/
theorem linkPaths_order (m : UsageRequirementMap) (hclosed : Closed m)
    (hacyclic : ∀ a, ¬ TransGen (LinkEdge m) a a) (hdistinct : DistinctPaths m) (key : Usage)
    (hkey : (m.get key).isSome = true) :
    ∃ paths, Converges (fun fuel => m.linkPaths fuel key) (.ok paths) ∧
      (∀ p, p ∈ paths ↔ ∃ b lib, ReflTransGen (LinkEdge m) key b ∧ m.get b = some lib ∧
        lib.linkablePath = some p) ∧
      ∀ x y libX libY p q, ReflTransGen (LinkEdge m) key x → LinkEdge m x y →
        m.get x = some libX → m.get y = some libY → libX.linkablePath = some p →
        libY.linkablePath = some q → paths.reverse.idxOf q < paths.reverse.idxOf p := by
  have hedges {a b : Usage} : ReflTransGen (Edge (m.pathNode (fun lib => lib.linkablePath.toList)
      fun lib => lib.uses ++ lib.links)) a b ↔ ReflTransGen (LinkEdge m) a b :=
    ⟨fun h => ReflTransGen.mono (fun _ _ h => edge_iff_linkEdge.mp h) _ _ h,
      fun h => ReflTransGen.mono (fun _ _ h => edge_iff_linkEdge.mpr h) _ _ h⟩
  obtain ⟨fuel, paths, hpaths⟩ :=
    (complete_of_closed hclosed hacyclic hkey).exists_traverse finite_pathNode
  have hmem : ∀ p, p ∈ paths ↔ ∃ b lib, ReflTransGen (LinkEdge m) key b ∧ m.get b = some lib ∧
      lib.linkablePath = some p := by
    intro p
    rw [mem_traverse_iff hpaths]
    constructor
    · rintro ⟨b, _, _, hreach, hb, hp⟩
      obtain ⟨lib, hlib, rfl, _⟩ := pathNode_eq_some.mp hb
      exact ⟨b, lib, hedges.mp hreach, hlib, Option.mem_toList.mp hp⟩
    · rintro ⟨b, lib, hreach, hlib, hp⟩
      exact ⟨b, _, _, hedges.mpr hreach, pathNode_eq_some.mpr ⟨lib, hlib, rfl, rfl⟩,
        Option.mem_toList.mpr hp⟩
  refine ⟨paths, ?_, hmem, ?_⟩
  · obtain ⟨bound, hbound⟩ := converges_of_traverse hpaths
    refine ⟨bound, fun fuel' hle => ?_⟩
    have hend : traverse (m.pathNode (fun lib => lib.linkablePath.toList)
        fun lib => lib.uses ++ lib.links) fuel' key = some (.ok paths) := hbound fuel' hle
    simp only [linkPaths, collectPaths, hend, Option.map_some]
    rfl
  · intro x y libX libY p q hreach hxy hx hy hp hq
    have hfollows : Follows p q paths := by
      refine follows_traverse (x := x) (y := y) ?_ (edge_iff_linkEdge.mpr hxy) ?_ hpaths
      · intro b own next hb hown
        obtain ⟨lib, hlib, rfl, _⟩ := pathNode_eq_some.mp hb
        exact hdistinct b x lib libX p hlib hx (Option.mem_toList.mp hown) hp
      · exact ⟨_, _, pathNode_eq_some.mpr ⟨libY, hy, rfl, rfl⟩, Option.mem_toList.mpr hq⟩
    exact hfollows.idxOf_lt ((hmem p).mpr ⟨x, libX, hreach, hx, hp⟩)

end

/-! ### A diamond -/

/-- An application that uses two libraries, one of which uses and one links a third. -/
def diamond : UsageRequirementMap where
  reqs := [(⟨"n", "app"⟩, ⟨none, [], [⟨"n", "left"⟩, ⟨"n", "right"⟩], []⟩),
    (⟨"n", "left"⟩, ⟨some ⟨true, ["left.a"], false⟩, [], [], [⟨"n", "shared"⟩]⟩),
    (⟨"n", "right"⟩, ⟨some ⟨true, ["right.a"], false⟩, [], [⟨"n", "shared"⟩], []⟩),
    (⟨"n", "shared"⟩, ⟨some ⟨true, ["shared.a"], false⟩, [], [], []⟩)]
  unique := by unfold Keyed.Unique; decide

theorem linkEdge_diamond {a b : Usage} (h : LinkEdge diamond a b) :
    (diamond.get b).isSome = true ∧ a.name.length < b.name.length := by
  obtain ⟨lib, hlib, hb⟩ := h
  have hall : ∀ entry ∈ diamond.reqs, ∀ b ∈ entry.2.uses ++ entry.2.links,
      (diamond.get b).isSome = true ∧ entry.1.name.length < b.name.length := by
    decide
  exact hall (a, lib) (get_eq_some.mp hlib) b (List.mem_append.mpr hb)

theorem linkPaths_order_diamond :
    ∃ paths, Converges (fun fuel => diamond.linkPaths fuel ⟨"n", "app"⟩) (.ok paths) ∧
      (∀ p, p ∈ paths ↔ ∃ b lib, ReflTransGen (LinkEdge diamond) ⟨"n", "app"⟩ b ∧
        diamond.get b = some lib ∧ lib.linkablePath = some p) ∧
      ∀ x y libX libY p q, ReflTransGen (LinkEdge diamond) ⟨"n", "app"⟩ x →
        LinkEdge diamond x y → diamond.get x = some libX → diamond.get y = some libY →
        libX.linkablePath = some p → libY.linkablePath = some q →
        paths.reverse.idxOf q < paths.reverse.idxOf p := by
  refine linkPaths_order diamond (fun _ _ h => (linkEdge_diamond h).1) (fun a hcycle => ?_) ?_
    ⟨"n", "app"⟩ (by decide)
  · -- every edge goes to a longer name
    have hlonger : ∀ b, TransGen (LinkEdge diamond) a b → a.name.length < b.name.length := by
      intro b hab
      induction hab with
      | single h => exact (linkEdge_diamond h).2
      | tail _ h ih => exact ih.trans (linkEdge_diamond h).2
    exact lt_irrefl _ (hlonger a hcycle)
  · have hall : ∀ x ∈ diamond.reqs, ∀ y ∈ diamond.reqs, x.2.linkablePath = y.2.linkablePath →
        x.2.linkablePath.isSome = true → x.1 = y.1 := by
      decide
    intro a b libA libB p ha hb hpA hpB
    exact hall (a, libA) (get_eq_some.mp ha) (b, libB) (get_eq_some.mp hb) (hpA.trans hpB.symm)
      (by rw [hpA]; rfl)

end UsageRequirementMap

end Bpt
