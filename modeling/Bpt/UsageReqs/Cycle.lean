-- SUMMARY: The search for a cycle of uses ends, finds one when there is one, and what it finds is a cycle.
import Mathlib.Data.List.Chain
import Bpt.UsageReqs.Map

/-!
# The search for a cycle

The vertices that are `visiting` form a path from the root of the search to the
vertex it is at, along the `next` pointers; those that are `visited` are closed
under uses and lie on no cycle. Each step of the search keeps both.
-/

namespace Bpt

open Relation

namespace UsageRequirementMap

/-! ## Vertices -/

def statusOf (v : Vertices) (key : Usage) : Option VertexStatus := (v key).map (·.status)

def nextOf (v : Vertices) (key : Usage) : Option Usage := (v key).map (·.next)

section

variable (v : Vertices) (key : Usage)

theorem isSome_update (f : VertexInfo → VertexInfo) (a : Usage) :
    (v.update key f a).isSome = (v a).isSome := by
  unfold Vertices.update
  split
  next => exact Option.isSome_map
  next => rfl

theorem statusOf_setNext (next : Usage) : statusOf (setNext v key next) = statusOf v := by
  funext a
  unfold statusOf setNext Vertices.update
  split
  next => rw [Option.map_map]; rfl
  next => rfl

theorem nextOf_setStatus (status : VertexStatus) : nextOf (setStatus v key status) = nextOf v := by
  funext a
  unfold nextOf setStatus Vertices.update
  split
  next => rw [Option.map_map]; rfl
  next => rfl

theorem statusOf_setStatus_self (status : VertexStatus) (h : (v key).isSome = true) :
    statusOf (setStatus v key status) key = some status := by
  obtain ⟨info, hinfo⟩ := Option.isSome_iff_exists.mp h
  simp [statusOf, setStatus, Vertices.update, hinfo]

theorem statusOf_setStatus_of_ne (status : VertexStatus) {a : Usage} (h : a ≠ key) :
    statusOf (setStatus v key status) a = statusOf v a := by
  simp [statusOf, setStatus, Vertices.update, h]

theorem nextOf_setNext_self (next : Usage) (h : (v key).isSome = true) :
    nextOf (setNext v key next) key = some next := by
  obtain ⟨info, hinfo⟩ := Option.isSome_iff_exists.mp h
  simp [nextOf, setNext, Vertices.update, hinfo]

theorem nextOf_setNext_of_ne (next : Usage) {a : Usage} (h : a ≠ key) :
    nextOf (setNext v key next) a = nextOf v a := by
  simp [nextOf, setNext, Vertices.update, h]

end

/-! ## The invariant -/

section

variable (m : UsageRequirementMap)

/-- A library of the map uses another one. -/
def Uses (a b : Usage) : Prop :=
  ∃ lib, m.get a = some lib ∧ b ∈ lib.uses ∧ (m.get b).isSome = true

/-- The first library uses the second, and its `next` pointer says so. -/
def Points (v : Vertices) (a b : Usage) : Prop := Uses m a b ∧ nextOf v a = some b

/-- A search is at the head of the stack. -/
structure Searching (v : Vertices) (stack : List Usage) : Prop where
  vertex : ∀ a, (v a).isSome = (m.get a).isSome
  visiting : ∀ a, statusOf v a = some .visiting ↔ a ∈ stack
  closed : ∀ a b, statusOf v a = some .visited → Uses m a b → statusOf v b = some .visited
  acyclic : ∀ a, statusOf v a = some .visited → ¬ TransGen (Uses m) a a
  nodup : stack.Nodup
  pointers : stack.IsChain fun child parent => Points m v parent child

/-- Following the pointers from a vertex leads back to it. -/
def PointerCycle (v : Vertices) (first : Usage) : Prop :=
  ∃ rest, (first :: rest).Nodup ∧ (first :: (rest ++ [first])).IsChain (Points m v)

/-- The search is back at the stack and has visited the targets. -/
structure Searched (v : Vertices) (stack targets : List Usage) (v' : Vertices) : Prop where
  searching : Searching m v' stack
  visited : ∀ b ∈ targets, (m.get b).isSome = true → statusOf v' b = some .visited
  keeps : ∀ a, statusOf v a = some .visited → statusOf v' a = some .visited
  unvisited : ∀ a, statusOf v' a = some .unvisited → statusOf v a = some .unvisited

def Outcome (v : Vertices) (stack targets : List Usage) (r : Option Usage) (v' : Vertices) : Prop :=
  match r with
  | some first => PointerCycle m v' first
  | none => Searched m v stack targets v'

/-- The keys that the search has not seen. -/
def unvisitedKeys (v : Vertices) : List Usage :=
  (m.reqs.map Prod.fst).filter fun a => statusOf v a = some .unvisited

end

variable {m : UsageRequirementMap} {v v' : Vertices} {stack : List Usage} {usage : Usage}

theorem length_unvisitedKeys_le
    (h : ∀ a, statusOf v' a = some .unvisited → statusOf v a = some .unvisited) :
    (unvisitedKeys m v').length ≤ (unvisitedKeys m v).length := by
  refine List.Sublist.length_le (List.monotone_filter_right _ fun a ha => ?_)
  rw [decide_eq_true_eq] at ha ⊢
  exact h a ha

theorem Searching.setNext (h : Searching m v (usage :: stack)) (next : Usage) :
    Searching m (setNext v usage next) (usage :: stack) := by
  obtain ⟨hfresh, _⟩ := List.nodup_cons.mp h.nodup
  constructor
  · intro a
    rw [← h.vertex a]
    exact isSome_update _ _ _ _
  · rw [statusOf_setNext]
    exact h.visiting
  · rw [statusOf_setNext]
    exact h.closed
  · rw [statusOf_setNext]
    exact h.acyclic
  · exact h.nodup
  · refine h.pointers.imp_of_mem_tail_imp fun child parent _ hparent hpoints => ?_
    have hne : parent ≠ usage := by
      rintro rfl
      exact hfresh hparent
    exact ⟨hpoints.1, by rw [nextOf_setNext_of_ne v usage next hne]; exact hpoints.2⟩

/-- The search enters a vertex that the head of the stack points to. -/
theorem Searching.enter (h : Searching m v stack) (hkey : (m.get usage).isSome = true)
    (hnew : statusOf v usage = some .unvisited) (hhead : ∀ p ∈ stack.head?, Points m v p usage) :
    Searching m (setStatus v usage .visiting) (usage :: stack) := by
  have hself := statusOf_setStatus_self v usage .visiting (by rw [h.vertex]; exact hkey)
  have hvisited : ∀ a, statusOf (setStatus v usage .visiting) a = some .visited ↔
      statusOf v a = some .visited := by
    intro a
    by_cases ha : a = usage
    · rw [ha, hself, hnew]
      simp
    · rw [statusOf_setStatus_of_ne v usage _ ha]
  constructor
  · intro a
    rw [← h.vertex a]
    exact isSome_update _ _ _ _
  · intro a
    rw [List.mem_cons]
    by_cases ha : a = usage
    · rw [ha, hself]
      simp
    · rw [statusOf_setStatus_of_ne v usage _ ha, h.visiting]
      simp [ha]
  · intro a b ha hab
    rw [hvisited] at ha ⊢
    exact h.closed a b ha hab
  · intro a ha
    exact h.acyclic a ((hvisited a).mp ha)
  · refine List.nodup_cons.mpr ⟨fun hmem => ?_, h.nodup⟩
    rw [← h.visiting, hnew] at hmem
    cases hmem
  · unfold Points
    rw [nextOf_setStatus]
    exact h.pointers.cons hhead

/-- A vertex that is left after all its uses were visited is closed and on no cycle. -/
theorem Searching.leave (h : Searching m v (usage :: stack))
    (huses : ∀ b, Uses m usage b → statusOf v b = some .visited) :
    Searching m (setStatus v usage .visited) stack := by
  obtain ⟨hfresh, hnodup⟩ := List.nodup_cons.mp h.nodup
  have hvisiting : statusOf v usage = some .visiting := (h.visiting usage).mpr List.mem_cons_self
  have hvertex : (v usage).isSome = true := by
    unfold statusOf at hvisiting
    rw [← Option.isSome_map (f := VertexInfo.status), hvisiting]
    rfl
  have hself := statusOf_setStatus_self v usage .visited hvertex
  have hvisited : ∀ a, statusOf (setStatus v usage .visited) a = some .visited ↔
      a = usage ∨ statusOf v a = some .visited := by
    intro a
    by_cases ha : a = usage
    · simp [ha, hself]
    · simp [ha, statusOf_setStatus_of_ne v usage _ ha]
  -- what a visited vertex reaches is visited, and the vertex itself is not
  have hreach : ∀ a b, statusOf v a = some .visited → ReflTransGen (Uses m) a b →
      statusOf v b = some .visited := by
    intro a b ha hab
    induction hab with
    | refl => exact ha
    | tail _ hbc ih => exact h.closed _ _ ih hbc
  constructor
  · intro a
    rw [← h.vertex a]
    exact isSome_update _ _ _ _
  · intro a
    by_cases ha : a = usage
    · simp [ha, hself, hfresh]
    · rw [statusOf_setStatus_of_ne v usage _ ha, h.visiting]
      simp [ha]
  · intro a b ha hab
    rw [hvisited] at ha ⊢
    rcases ha with rfl | ha
    · exact .inr (huses b hab)
    · exact .inr (h.closed a b ha hab)
  · intro a ha hcycle
    rcases (hvisited a).mp ha with rfl | ha
    · obtain ⟨b, hab, hba⟩ := TransGen.head'_iff.mp hcycle
      have := hreach b a (huses b hab) hba
      rw [hvisiting] at this
      cases this
    · exact h.acyclic a ha hcycle
  · exact hnodup
  · unfold Points
    rw [nextOf_setStatus]
    exact (List.isChain_cons.mp h.pointers).2

/-- A vertex on the stack that the head points to closes a cycle of pointers. -/
theorem Searching.pointerCycle (h : Searching m v stack) (hmem : usage ∈ stack)
    (hhead : ∀ p ∈ stack.head?, Points m v p usage) : PointerCycle m v usage := by
  obtain ⟨newer, older, rfl⟩ := List.append_of_mem hmem
  have hchain : (usage :: (newer ++ [usage])).IsChain fun child parent => Points m v parent child := by
    have hall := h.pointers.cons hhead
    refine hall.prefix ?_
    rw [List.prefix_cons_inj, List.append_cons newer usage older]
    exact List.prefix_append _ _
  refine ⟨newer.reverse, ?_, ?_⟩
  · have hnodup := h.nodup
    rw [List.append_cons, List.nodup_append] at hnodup
    have := List.nodup_reverse.mpr hnodup.1
    rwa [List.reverse_append, List.reverse_singleton, List.singleton_append] at this
  · rw [← List.isChain_reverse] at hchain
    simpa using hchain

/-! ## The search -/

theorem searched_refl (h : Searching m v stack) : Searched m v stack [] v :=
  ⟨h, List.forall_mem_nil _, fun _ ha => ha, fun _ ha => ha⟩

/-- The loop over the uses, when a search from each of them is one. -/
theorem searchUses_spec (search : Vertices → Usage → LmLibrary →
      Except SearchError (Option Usage × Vertices)) {lib : LmLibrary} (n : Nat)
    (hlib : m.get usage = some lib)
    (hsearch : ∀ v next nextLib, m.get next = some nextLib → Searching m v (usage :: stack) →
      Points m v usage next → (unvisitedKeys m v).length < n →
      ∃ r v', search v next nextLib = .ok (r, v') ∧ Outcome m v (usage :: stack) [next] r v')
    (uses : List Usage) (huses : ∀ b ∈ uses, b ∈ lib.uses) (h : Searching m v (usage :: stack))
    (hn : (unvisitedKeys m v).length < n) :
    ∃ r v', searchUses m search usage uses v = .ok (r, v') ∧
      Outcome m v (usage :: stack) uses r v' := by
  induction uses generalizing v with
  | nil => exact ⟨none, v, rfl, searched_refl h⟩
  | cons next rest ih =>
      obtain ⟨hnext, hrest⟩ := List.forall_mem_cons.mp huses
      have hset := h.setNext next
      have hstatus := statusOf_setNext v usage next
      have hcount : (unvisitedKeys m (setNext v usage next)).length < n := by
        unfold unvisitedKeys
        rw [hstatus]
        exact hn
      unfold searchUses
      cases hnextLib : m.get next with
      | none =>
          obtain ⟨r, v', hexec, houtcome⟩ := ih hrest hset hcount
          refine ⟨r, v', hexec, ?_⟩
          cases r with
          | some first => exact houtcome
          | none =>
              refine ⟨houtcome.searching, ?_, ?_, ?_⟩
              · rintro b hb hkey
                rcases List.mem_cons.mp hb with rfl | hb
                · rw [hnextLib] at hkey
                  cases hkey
                · exact houtcome.visited b hb hkey
              · rw [← hstatus]
                exact houtcome.keeps
              · rw [← hstatus]
                exact houtcome.unvisited
      | some nextLib =>
          have hpoints : Points m (setNext v usage next) usage next := by
            refine ⟨⟨lib, hlib, hnext, by rw [hnextLib]; rfl⟩, nextOf_setNext_self v usage next ?_⟩
            rw [h.vertex, hlib]
            rfl
          obtain ⟨r, v', hexec, houtcome⟩ := hsearch _ next nextLib hnextLib hset hpoints hcount
          dsimp only
          rw [hexec]
          cases r with
          | some first => exact ⟨some first, v', rfl, houtcome⟩
          | none =>
              have hcount' := length_unvisitedKeys_le (m := m) houtcome.unvisited
              obtain ⟨r, v'', hexec', houtcome'⟩ := ih hrest houtcome.searching (by omega)
              refine ⟨r, v'', hexec', ?_⟩
              cases r with
              | some first => exact houtcome'
              | none =>
                  refine ⟨houtcome'.searching, ?_, ?_, ?_⟩
                  · rintro b hb hkey
                    rcases List.mem_cons.mp hb with rfl | hb
                    · exact houtcome'.keeps b (houtcome.visited b (List.mem_singleton_self b) hkey)
                    · exact houtcome'.visited b hb hkey
                  · intro a ha
                    rw [← hstatus] at ha
                    exact houtcome'.keeps a (houtcome.keeps a ha)
                  · intro a ha
                    rw [← hstatus]
                    exact houtcome.unvisited a (houtcome'.unvisited a ha)

/-- Entering a vertex leaves fewer that the search has not seen. -/
theorem length_unvisitedKeys_enter (hkey : (m.get usage).isSome = true)
    (hnew : statusOf v usage = some .unvisited) (hvertex : (v usage).isSome = true) :
    (unvisitedKeys m (setStatus v usage .visiting)).length < (unvisitedKeys m v).length := by
  have hself := statusOf_setStatus_self v usage .visiting hvertex
  have hsub : (unvisitedKeys m (setStatus v usage .visiting)).Sublist
      ((unvisitedKeys m v).filter fun a => a ≠ usage) := by
    unfold unvisitedKeys
    rw [List.filter_filter]
    refine List.monotone_filter_right _ fun a ha => ?_
    rw [decide_eq_true_eq] at ha
    have hne : a ≠ usage := by
      rintro rfl
      rw [hself] at ha
      cases ha
    rw [statusOf_setStatus_of_ne v usage _ hne] at ha
    simp [ha, hne]
  refine lt_of_le_of_lt hsub.length_le (List.length_filter_lt_length_iff_exists.mpr ⟨usage, ?_, ?_⟩)
  · unfold unvisitedKeys
    rw [List.mem_filter]
    exact ⟨get_isSome.mp hkey, by simpa using hnew⟩
  · simp

/-- With more fuel than unseen keys a search ends: back at its stack with its
vertex visited, or at a cycle of pointers. -/
theorem findCycle_spec (fuel : Nat) (lib : LmLibrary) (hlib : m.get usage = some lib)
    (h : Searching m v stack) (hhead : ∀ p ∈ stack.head?, Points m v p usage)
    (hfuel : (unvisitedKeys m v).length < fuel) :
    ∃ r v', findCycle m fuel v usage lib = .ok (r, v') ∧ Outcome m v stack [usage] r v' := by
  induction fuel generalizing v usage stack lib with
  | zero => cases hfuel
  | succ fuel ih =>
      have hkey : (m.get usage).isSome = true := by
        rw [hlib]
        rfl
      have hvertex : (v usage).isSome = true := by rw [h.vertex, hkey]
      obtain ⟨info, hinfo⟩ := Option.isSome_iff_exists.mp hvertex
      have hstatus : statusOf v usage = some info.status := by
        unfold statusOf
        rw [hinfo]
        rfl
      unfold findCycle
      rw [hinfo]
      dsimp only
      cases hcase : info.status with
      | visited =>
          rw [hcase] at hstatus
          refine ⟨none, v, rfl, h, ?_, fun _ ha => ha, fun _ ha => ha⟩
          intro b hb _
          rwa [List.mem_singleton.mp hb]
      | visiting =>
          rw [hcase] at hstatus
          exact ⟨some usage, v, rfl, h.pointerCycle ((h.visiting usage).mp hstatus) hhead⟩
      | unvisited =>
          rw [hcase] at hstatus
          have henter := h.enter hkey hstatus hhead
          have hcount := length_unvisitedKeys_enter hkey hstatus hvertex
          have hself := statusOf_setStatus_self v usage .visiting hvertex
          obtain ⟨r, v', hexec, houtcome⟩ := searchUses_spec (findCycle m fuel) fuel
            hlib (fun v next nextLib hnext hv hpoints hn => ih nextLib hnext hv
              (by
                intro p hp
                cases hp
                exact hpoints) hn)
            lib.uses (fun _ hb => hb) henter (by omega)
          dsimp only
          rw [hexec]
          cases r with
          | some first => exact ⟨some first, v', rfl, houtcome⟩
          | none =>
              have hvisiting : statusOf v' usage = some .visiting :=
                (houtcome.searching.visiting usage).mpr List.mem_cons_self
              have hvertex' : (v' usage).isSome = true := by
                rw [houtcome.searching.vertex, hkey]
              have huses : ∀ b, Uses m usage b → statusOf v' b = some .visited := by
                rintro b ⟨lib', hlib', hb, hbkey⟩
                cases hlib.symm.trans hlib'
                exact houtcome.visited b hb hbkey
              refine ⟨none, _, rfl, houtcome.searching.leave huses, ?_, ?_, ?_⟩
              · intro b hb _
                rw [List.mem_singleton.mp hb]
                exact statusOf_setStatus_self v' usage .visited hvertex'
              · intro a ha
                have hne : a ≠ usage := by
                  rintro rfl
                  rw [hstatus] at ha
                  cases ha
                rw [statusOf_setStatus_of_ne v' usage _ hne]
                exact houtcome.keeps a (by rwa [statusOf_setStatus_of_ne v usage _ hne])
              · intro a ha
                have hne : a ≠ usage := by
                  rintro rfl
                  rw [statusOf_setStatus_self v' a .visited hvertex'] at ha
                  cases ha
                rw [statusOf_setStatus_of_ne v' usage _ hne] at ha
                have hbefore := houtcome.unvisited a ha
                rwa [statusOf_setStatus_of_ne v usage _ hne] at hbefore

/-! ## The cycle -/

/-- A list of libraries that use each other in turn, the last one the first. -/
structure IsUsageCycle (m : UsageRequirementMap) (cycle : List Usage) : Prop where
  nodup : cycle.Nodup
  exists_first : ∃ first rest, cycle = first :: rest ∧ (first :: (rest ++ [first])).IsChain (Uses m)
  keys : ∀ a ∈ cycle, (m.get a).isSome = true

theorem isUsageCycle_of_chain {first : Usage} {rest : List Usage} (hnodup : (first :: rest).Nodup)
    (hchain : (first :: (rest ++ [first])).IsChain (Uses m)) : IsUsageCycle m (first :: rest) := by
  refine ⟨hnodup, ⟨first, rest, rfl, hchain⟩, fun a ha => ?_⟩
  -- every element uses the one after it
  obtain ⟨before, after, hsplit⟩ := List.append_of_mem ha
  have hcons : first :: (rest ++ [first]) = before ++ a :: (after ++ [first]) := by
    rw [← List.cons_append, hsplit, List.append_assoc, List.cons_append]
  rw [hcons] at hchain
  have hsuffix := (List.isChain_append.mp hchain).2.1
  cases after with
  | nil =>
      obtain ⟨lib, hlib, _⟩ := (List.isChain_cons_cons.mp hsuffix).1
      rw [hlib]
      rfl
  | cons b after =>
      obtain ⟨lib, hlib, _⟩ := (List.isChain_cons_cons.mp hsuffix).1
      rw [hlib]
      rfl

/-- A usage cycle is one of the graph. -/
theorem IsUsageCycle.transGen {cycle : List Usage} (h : IsUsageCycle m cycle) :
    ∃ a, TransGen (Uses m) a a := by
  obtain ⟨first, rest, _, hchain⟩ := h.exists_first
  have hreach : ∀ (l : List Usage) (a : Usage), (a :: (l ++ [first])).IsChain (Uses m) →
      TransGen (Uses m) a first := by
    intro l
    induction l with
    | nil => exact fun a hl => .single (List.isChain_cons_cons.mp hl).1
    | cons b l ih =>
        intro a hl
        obtain ⟨hab, hl⟩ := List.isChain_cons_cons.mp hl
        exact .head hab (ih b hl)
  exact ⟨first, hreach rest first hchain⟩

/-- Following the pointers recovers their cycle. -/
theorem recoverCycle_of_chain {first : Usage} {rest : List Usage} {cur : Usage} {fuel : Nat}
    (hchain : (cur :: (rest ++ [first])).IsChain (Points m v)) (hfirst : first ∉ rest)
    (hfuel : rest.length < fuel) : recoverCycle v first fuel cur = .ok (cur :: rest) := by
  induction rest generalizing cur fuel with
  | nil =>
      obtain ⟨fuel, rfl⟩ : ∃ n, fuel = n + 1 := ⟨fuel - 1, by simp at hfuel; omega⟩
      obtain ⟨info, hinfo, hnext⟩ := Option.map_eq_some_iff.mp (List.isChain_cons_cons.mp hchain).1.2
      rw [recoverCycle, hinfo]
      exact if_pos hnext
  | cons b rest ih =>
      obtain ⟨fuel, rfl⟩ : ∃ n, fuel = n + 1 := ⟨fuel - 1, by simp at hfuel; omega⟩
      obtain ⟨hpoints, hchain⟩ := List.isChain_cons_cons.mp hchain
      obtain ⟨info, hinfo, rfl⟩ := Option.map_eq_some_iff.mp hpoints.2
      rw [List.mem_cons, not_or] at hfirst
      rw [recoverCycle, hinfo]
      dsimp only
      rw [if_neg (Ne.symm hfirst.1), ih hchain hfirst.2 (by simp at hfuel; omega)]
      rfl

theorem PointerCycle.recover {first : Usage} (h : PointerCycle m v first) {fuel : Nat}
    (hfuel : m.reqs.length < fuel) :
    ∃ cycle, recoverCycle v first fuel first = .ok cycle ∧ IsUsageCycle m cycle := by
  obtain ⟨rest, hnodup, hchain⟩ := h
  have hcycle := isUsageCycle_of_chain hnodup (hchain.imp fun _ _ h => h.1)
  have hlength : (first :: rest).length ≤ (m.reqs.map Prod.fst).length :=
    (List.subperm_of_subset hnodup fun a ha => get_isSome.mp (hcycle.keys a ha)).length_le
  rw [List.length_cons, List.length_map] at hlength
  exact ⟨_, recoverCycle_of_chain hchain (List.nodup_cons.mp hnodup).1 (by omega), hcycle⟩

/-- The loop over the vertices ends with a cycle, or has visited all of them. -/
theorem searchAll_spec {fuel : Nat} (hfuel : m.reqs.length < fuel)
    (entries : List (Usage × LmLibrary)) (hentries : ∀ entry ∈ entries, entry ∈ m.reqs)
    (h : Searching m v []) :
    (∃ cycle, searchAll m fuel entries v = .ok (some cycle) ∧ IsUsageCycle m cycle) ∨
      (searchAll m fuel entries v = .ok none ∧ ∀ entry ∈ entries, ¬ TransGen (Uses m) entry.1 entry.1) := by
  induction entries generalizing v with
  | nil => exact .inr ⟨rfl, List.forall_mem_nil _⟩
  | cons entry rest ih =>
      obtain ⟨usage, lib⟩ := entry
      obtain ⟨hentry, hrest⟩ := List.forall_mem_cons.mp hentries
      have hlib : m.get usage = some lib := get_eq_some.mpr hentry
      have hcount : (unvisitedKeys m v).length ≤ m.reqs.length := by
        rw [← List.length_map (f := Prod.fst)]
        exact List.length_filter_le _ _
      obtain ⟨r, v', hexec, houtcome⟩ := findCycle_spec fuel lib hlib h (by simp) (by omega)
      unfold searchAll
      rw [hexec]
      cases r with
      | some first =>
          obtain ⟨cycle, hrecover, hcycle⟩ := PointerCycle.recover houtcome hfuel
          refine .inl ⟨cycle, ?_, hcycle⟩
          dsimp only
          rw [hrecover]
          rfl
      | none =>
          rcases ih hrest houtcome.searching with hsome | ⟨hnone, hall⟩
          · exact .inl hsome
          · refine .inr ⟨hnone, List.forall_mem_cons.mpr ⟨?_, hall⟩⟩
            refine houtcome.searching.acyclic usage (houtcome.visited usage (by simp) ?_)
            rw [hlib]
            rfl

/-! ## More fuel -/

theorem searchUses_mono {search search' : Vertices → Usage → LmLibrary →
      Except SearchError (Option Usage × Vertices)} {r : Option Usage × Vertices}
    (hsearch : ∀ v next lib r, search v next lib = .ok r → search' v next lib = .ok r)
    {uses : List Usage} (h : searchUses m search usage uses v = .ok r) :
    searchUses m search' usage uses v = .ok r := by
  induction uses generalizing v with
  | nil => exact h
  | cons next rest ih =>
      unfold searchUses at h ⊢
      dsimp only at h ⊢
      cases hlib : m.get next with
      | none =>
          rw [hlib] at h
          exact ih h
      | some lib =>
          rw [hlib] at h
          dsimp only at h ⊢
          cases hexec : search (setNext v usage next) next lib with
          | error e =>
              rw [hexec] at h
              cases h
          | ok result =>
              rw [hexec] at h
              rw [hsearch _ _ _ _ hexec]
              obtain ⟨first, v'⟩ := result
              cases first with
              | some first => exact h
              | none => exact ih h

theorem findCycle_mono {fuel : Nat} {lib : LmLibrary} {r : Option Usage × Vertices}
    (h : findCycle m fuel v usage lib = .ok r) : findCycle m (fuel + 1) v usage lib = .ok r := by
  induction fuel generalizing v usage lib r with
  | zero => cases h
  | succ fuel ih =>
      rw [findCycle] at h ⊢
      cases hinfo : v usage with
      | none =>
          rw [hinfo] at h
          cases h
      | some info =>
          rw [hinfo] at h
          dsimp only at h ⊢
          cases hstatus : info.status with
          | visited =>
              rw [hstatus] at h
              exact h
          | visiting =>
              rw [hstatus] at h
              exact h
          | unvisited =>
              rw [hstatus] at h
              dsimp only at h ⊢
              cases hexec : searchUses m (findCycle m fuel) usage lib.uses
                  (setStatus v usage .visiting) with
              | error e =>
                  rw [hexec] at h
                  cases h
              | ok result =>
                  rw [hexec] at h
                  rw [searchUses_mono (fun _ _ _ _ => ih) hexec]
                  exact h

theorem recoverCycle_mono {first cur : Usage} {fuel : Nat} {cycle : List Usage}
    (h : recoverCycle v first fuel cur = .ok cycle) :
    recoverCycle v first (fuel + 1) cur = .ok cycle := by
  induction fuel generalizing cur cycle with
  | zero => cases h
  | succ fuel ih =>
      rw [recoverCycle] at h ⊢
      cases hinfo : v cur with
      | none =>
          rw [hinfo] at h
          cases h
      | some info =>
          rw [hinfo] at h
          dsimp only at h ⊢
          by_cases hnext : info.next = first
          · rw [if_pos hnext] at h ⊢
            exact h
          · rw [if_neg hnext] at h ⊢
            cases hrest : recoverCycle v first fuel info.next with
            | error e =>
                rw [hrest] at h
                cases h
            | ok rest =>
                rw [hrest] at h
                rw [ih hrest]
                exact h

theorem searchAll_mono {fuel : Nat} {entries : List (Usage × LmLibrary)}
    {r : Option (List Usage)} (h : searchAll m fuel entries v = .ok r) :
    searchAll m (fuel + 1) entries v = .ok r := by
  induction entries generalizing v with
  | nil => exact h
  | cons entry rest ih =>
      rw [searchAll] at h ⊢
      cases hexec : findCycle m fuel v entry.1 entry.2 with
      | error e =>
          rw [hexec] at h
          cases h
      | ok result =>
          rw [hexec] at h
          rw [findCycle_mono hexec]
          obtain ⟨first, v'⟩ := result
          cases first with
          | none => exact ih h
          | some first =>
              dsimp only at h ⊢
              cases hcycle : recoverCycle v' first fuel first with
              | error e =>
                  rw [hcycle] at h
                  cases h
              | ok cycle =>
                  rw [hcycle] at h
                  rw [recoverCycle_mono hcycle]
                  exact h

theorem findUsageCycle_mono {fuel fuel' : Nat} (hle : fuel ≤ fuel') {r : Option (List Usage)}
    (h : findUsageCycle m fuel = .ok r) : findUsageCycle m fuel' = .ok r := by
  induction hle with
  | refl => exact h
  | step _ ih => exact searchAll_mono ih

theorem searching_start :
    Searching m (fun key => (m.get key).map fun _ => {}) [] := by
  have hstatus : ∀ a, statusOf (fun key => (m.get key).map fun _ => {}) a ≠ some .visiting ∧
      statusOf (fun key => (m.get key).map fun _ => {}) a ≠ some .visited := by
    intro a
    unfold statusOf
    rw [Option.map_map]
    cases m.get a with
    | none => simp
    | some lib => simp
  constructor
  · exact fun a => Option.isSome_map
  · exact fun a => iff_of_false (hstatus a).1 List.not_mem_nil
  · exact fun a _ ha => absurd ha (hstatus a).2
  · exact fun a ha => absurd ha (hstatus a).2
  · exact List.nodup_nil
  · exact .nil

/-- With enough fuel the search finds a cycle, or there is none. -/
theorem findUsageCycle_cases (m : UsageRequirementMap) :
    (∃ cycle, (∀ fuel > m.reqs.length, findUsageCycle m fuel = .ok (some cycle)) ∧
      IsUsageCycle m cycle) ∨
    (∀ fuel > m.reqs.length, findUsageCycle m fuel = .ok none) ∧ ∀ a, ¬ TransGen (Uses m) a a := by
  have hfuel : m.reqs.length < m.reqs.length + 1 := Nat.lt_succ_self _
  rcases searchAll_spec hfuel m.reqs (fun _ h => h) searching_start with
    ⟨cycle, hfind, hcycle⟩ | ⟨hfind, hacyclic⟩
  · exact .inl ⟨cycle, fun fuel hle => findUsageCycle_mono hle hfind, hcycle⟩
  · refine .inr ⟨fun fuel hle => findUsageCycle_mono hle hfind, fun a hcycle => ?_⟩
    obtain ⟨_, ⟨lib, hlib, _⟩, _⟩ := TransGen.head'_iff.mp hcycle
    exact hacyclic (a, lib) (get_eq_some.mp hlib) hcycle

/-- The search for a cycle of uses ends. It finds one exactly when there is one,
and what it finds is one. -/
theorem findUsageCycle_correct (m : UsageRequirementMap) :
    ∃ result, (∀ fuel > m.reqs.length, findUsageCycle m fuel = .ok result) ∧
      (result.isSome = true ↔ ∃ a, TransGen (Uses m) a a) ∧
      ∀ cycle, result = some cycle → IsUsageCycle m cycle := by
  rcases findUsageCycle_cases m with ⟨cycle, hfind, hcycle⟩ | ⟨hfind, hacyclic⟩
  · refine ⟨some cycle, hfind, iff_of_true rfl hcycle.transGen, ?_⟩
    rintro _ ⟨⟩
    exact hcycle
  · refine ⟨none, hfind, iff_of_false (by simp) ?_, fun _ h => nomatch h⟩
    rintro ⟨a, hcycle⟩
    exact hacyclic a hcycle

end UsageRequirementMap

end Bpt
