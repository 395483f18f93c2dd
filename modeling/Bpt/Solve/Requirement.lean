-- SUMMARY: The requirement type handed to the dependency solver: its order and its set operations, and where these disagree.
import Bpt.Base.SortedRange
import Bpt.Crs.Info.Dependency

/-!
# Requirements

The solver combines requirements on one package with `impliedBy`, `excludes`,
`intersection`, `union` and `difference`. Each combines the version ranges with
the corresponding set operation and the used libraries with a rule of its own.
-/

namespace Bpt.Crs.DependencyUses

/-- The listed libraries are in order. -/
def Sorted : DependencyUses → Prop
  | implicitUsesAll => True
  | explicitUsesList l => l.SortedLE

/-- List the libraries in order. -/
def sort : DependencyUses → DependencyUses
  | implicitUsesAll => implicitUsesAll
  | explicitUsesList l => explicitUsesList (l.insertionSort (· ≤ ·))

theorem sort_sorted (u : DependencyUses) : u.sort.Sorted := by
  cases u with
  | implicitUsesAll => trivial
  | explicitUsesList l => exact (List.pairwise_insertionSort (· ≤ ·) l).sortedLE

theorem Sorted.sort_eq {u : DependencyUses} (h : u.Sorted) : u.sort = u := by
  cases u with
  | implicitUsesAll => rfl
  | explicitUsesList l =>
      exact congrArg explicitUsesList (List.Pairwise.insertionSort_eq (List.SortedLE.pairwise h))

/-- `u` uses every library that `w` uses, and all of them when `w` does. -/
def Covers (u w : DependencyUses) : Prop :=
  match u, w with
  | implicitUsesAll, _ => True
  | explicitUsesList _, implicitUsesAll => False
  | explicitUsesList l, explicitUsesList m => ∀ lib ∈ m, lib ∈ l

/-! ## Operations on uses

The branches on `implicitUsesAll` are those of the source. `unionUsages` returns
the second argument when the first one is implicit. -/

def unionUsages : DependencyUses → DependencyUses → DependencyUses
  | explicitUsesList left, explicitUsesList right =>
    explicitUsesList (SortedRange.setUnion left right)
  | explicitUsesList _, implicitUsesAll => implicitUsesAll
  | implicitUsesAll, r => r

def intersectUsages : DependencyUses → DependencyUses → DependencyUses
  | explicitUsesList left, explicitUsesList right =>
    explicitUsesList (SortedRange.setIntersection left right)
  | explicitUsesList left, implicitUsesAll => explicitUsesList left
  | implicitUsesAll, r => r

def usesIsEmpty : DependencyUses → Bool
  | implicitUsesAll => true
  | explicitUsesList l => l.isEmpty

theorem unionUsages_sorted {u w : DependencyUses} (hu : u.Sorted) (hw : w.Sorted) :
    (unionUsages u w).Sorted := by
  cases u with
  | implicitUsesAll => exact hw
  | explicitUsesList l =>
      cases w with
      | implicitUsesAll => trivial
      | explicitUsesList m => exact SortedRange.setUnion_sorted hu hw

/-- The test on uses in `implied_by`: the second uses imply the first. -/
def impliedBy : DependencyUses → DependencyUses → Bool
  | explicitUsesList mine, explicitUsesList other => SortedRange.includes other mine
  | _, _ => true

theorem impliedBy_explicit {l m : List Name} (hl : l.SortedLE) (hm : m.SortedLE) :
    impliedBy (explicitUsesList l) (explicitUsesList m) = true ↔ l.Sublist m :=
  SortedRange.includes_iff_sublist hm hl

theorem impliedBy_of_isImplicit {u w : DependencyUses}
    (h : u.isImplicit = true ∨ w.isImplicit = true) : impliedBy u w = true := by
  cases u <;> cases w <;> first | rfl | simp [isImplicit] at h

/-- The test fails when both lists are given and the first has a library more
often than the second. -/
theorem impliedBy_eq_false {u w : DependencyUses} (hu : u.Sorted) (hw : w.Sorted) :
    impliedBy u w = false ↔
      ∃ l n, u = explicitUsesList l ∧ w = explicitUsesList n ∧ ∃ lib, n.count lib < l.count lib := by
  cases u with
  | implicitUsesAll => simp [impliedBy]
  | explicitUsesList l =>
      cases w with
      | implicitUsesAll => simp [impliedBy]
      | explicitUsesList n =>
          rw [Bool.eq_false_iff, Ne, impliedBy_explicit hu hw, SortedRange.sublist_iff_count hw hu]
          simp

theorem impliedBy_refl {u : DependencyUses} (hu : u.Sorted) : impliedBy u u = true := by
  cases u with
  | implicitUsesAll => rfl
  | explicitUsesList l => exact (impliedBy_explicit hu hu).mpr (List.Sublist.refl l)

theorem impliedBy_trans {u w : DependencyUses} {m : List Name} (hu : u.Sorted)
    (hm : (explicitUsesList m).Sorted) (hw : w.Sorted)
    (hum : impliedBy u (explicitUsesList m) = true) (hmw : impliedBy (explicitUsesList m) w = true) :
    impliedBy u w = true := by
  cases u with
  | implicitUsesAll => rfl
  | explicitUsesList l =>
      cases w with
      | implicitUsesAll => rfl
      | explicitUsesList n =>
          have hlm := (impliedBy_explicit hu hm).mp hum
          have hmn := (impliedBy_explicit hm hw).mp hmw
          exact (impliedBy_explicit hu hw).mpr (hlm.trans hmn)

/-- Uses that are implied are covered, unless only the implied ones are implicit. -/
theorem covers_of_impliedBy {u w : DependencyUses} (hu : u.Sorted) (hw : w.Sorted)
    (h : impliedBy u w = true) (himp : u.isImplicit = true → w.isImplicit = true) :
    w.Covers u := by
  cases w with
  | implicitUsesAll => trivial
  | explicitUsesList n =>
      cases u with
      | implicitUsesAll => cases himp rfl
      | explicitUsesList l =>
          intro lib hlib
          exact ((impliedBy_explicit hu hw).mp h).subset hlib

/-! ### The union of uses

The union is an upper bound of both arguments for the test of `impliedBy`. Only
an implicit first argument with explicit second ones loses libraries. -/

theorem impliedBy_unionUsages_left {u w : DependencyUses} (hu : u.Sorted) (hw : w.Sorted) :
    impliedBy u (unionUsages u w) = true := by
  cases u with
  | implicitUsesAll => rfl
  | explicitUsesList l =>
      cases w with
      | implicitUsesAll => rfl
      | explicitUsesList m =>
          exact (impliedBy_explicit hu (SortedRange.setUnion_sorted hu hw)).mpr
            (SortedRange.sublist_setUnion_left hu hw)

theorem impliedBy_unionUsages_right {u w : DependencyUses} (hu : u.Sorted) (hw : w.Sorted) :
    impliedBy w (unionUsages u w) = true := by
  cases w with
  | implicitUsesAll => rfl
  | explicitUsesList m =>
      cases u with
      | implicitUsesAll => exact impliedBy_refl hw
      | explicitUsesList l =>
          exact (impliedBy_explicit hw (SortedRange.setUnion_sorted hu hw)).mpr
            (SortedRange.sublist_setUnion_right hu hw)

theorem unionUsages_impliedBy {u w x : DependencyUses} (hu : u.Sorted) (hw : w.Sorted)
    (hx : x.Sorted) (hux : impliedBy u x = true) (hwx : impliedBy w x = true) :
    impliedBy (unionUsages u w) x = true := by
  cases u with
  | implicitUsesAll => exact hwx
  | explicitUsesList l =>
      cases w with
      | implicitUsesAll => rfl
      | explicitUsesList m =>
          cases x with
          | implicitUsesAll => rfl
          | explicitUsesList n =>
              have hln := (impliedBy_explicit hu hx).mp hux
              have hmn := (impliedBy_explicit hw hx).mp hwx
              exact (impliedBy_explicit (SortedRange.setUnion_sorted hu hw) hx).mpr
                (SortedRange.setUnion_sublist hu hw hx hln hmn)

theorem unionUsages_comm {u w : DependencyUses} (hu : u.Sorted) (hw : w.Sorted)
    (himp : u.isImplicit = w.isImplicit) : unionUsages u w = unionUsages w u := by
  cases u <;> cases w
  · rfl
  · cases himp
  · cases himp
  · exact congrArg explicitUsesList (SortedRange.setUnion_comm hu hw)

theorem unionUsages_isImplicit (u w : DependencyUses) :
    (unionUsages u w).isImplicit = w.isImplicit := by
  cases u <;> cases w <;> rfl

end Bpt.Crs.DependencyUses

namespace Bpt.Solve

open Crs IntervalOps VersionRangeSet

/-- A requirement on a package. Its constructor puts the used libraries in order. -/
structure Requirement (S : Type) where
  name : Name
  versions : S
  uses : DependencyUses
  pkgVersion : Option Int
  sorted : uses.Sorted

namespace Requirement

variable {V S : Type}

/-- The constructor of the source. -/
def make (name : Name) (vrs : S) (u : DependencyUses) (pver : Option Int) : Requirement S :=
  ⟨name, vrs, u.sort, pver, u.sort_sorted⟩

def fromCrsDep (dep : Dependency S) : Requirement S :=
  make dep.name dep.acceptableVersions dep.uses none

theorem make_uses {name : Name} {vrs : S} {u : DependencyUses} {pver : Option Int}
    (h : u.Sorted) : (make name vrs u pver).uses = u :=
  h.sort_eq

variable [Semver V] [VersionRangeSet S V]

/-- `self.implied_by(other)`: whatever satisfies `other` satisfies `self`. -/
def impliedBy (self other : Requirement S) : Bool :=
  contains self.versions other.versions && self.uses.impliedBy other.uses

def excludes (self other : Requirement S) : Bool :=
  disjoint self.versions other.versions

def intersection (self other : Requirement S) : Option (Requirement S) :=
  let range := IntervalOps.intersection self.versions other.versions
  if isEmpty range then none
  else some (make self.name range (self.uses.unionUsages other.uses) none)

def union (self other : Requirement S) : Option (Requirement S) :=
  let range := IntervalOps.union self.versions other.versions
  let usesIsect := self.uses.intersectUsages other.uses
  if isEmpty range then none
  else some (make self.name range usesIsect none)

def difference (self other : Requirement S) : Option (Requirement S) :=
  let range := IntervalOps.difference self.versions other.versions
  if isEmpty range && (self.uses.usesIsEmpty || self.uses = other.uses) then none
  else some (make self.name range (self.uses.unionUsages other.uses) none)

/-! ## The implication order -/

variable {a b c : Requirement S}

theorem impliedBy_iff :
    a.impliedBy b = true ↔
      contains a.versions b.versions = true ∧ a.uses.impliedBy b.uses = true := by
  simp [impliedBy]

theorem impliedBy_refl (a : Requirement S) : a.impliedBy a = true :=
  impliedBy_iff.mpr ⟨contains_refl _, DependencyUses.impliedBy_refl a.sorted⟩

/-- Implication composes when the requirement in the middle lists its uses, or
the uses of the outer ones are in order anyway. -/
theorem impliedBy_trans (hab : a.impliedBy b = true) (hbc : b.impliedBy c = true)
    (hb : b.uses = .implicitUsesAll → a.uses.impliedBy c.uses = true) :
    a.impliedBy c = true := by
  obtain ⟨hvab, huab⟩ := impliedBy_iff.mp hab
  obtain ⟨hvbc, hubc⟩ := impliedBy_iff.mp hbc
  refine impliedBy_iff.mpr ⟨contains_trans hvab hvbc, ?_⟩
  cases hub : b.uses with
  | implicitUsesAll => exact hb hub
  | explicitUsesList m =>
      rw [hub] at huab hubc
      exact DependencyUses.impliedBy_trans a.sorted (hub ▸ b.sorted) c.sorted huab hubc

/-- The triples between which implication breaks: the requirement in the middle
does not list its uses, the outer ones do, and the first lists a library that
the last does not list as often. -/
def BreaksChain (a b c : Requirement S) : Prop :=
  contains a.versions b.versions = true ∧ contains b.versions c.versions = true ∧
    b.uses = .implicitUsesAll ∧
    ∃ l n, a.uses = .explicitUsesList l ∧ c.uses = .explicitUsesList n ∧
      ∃ lib, n.count lib < l.count lib

/-- Implication is reflexive, and it is transitive at exactly the triples that
do not break the chain. -/
theorem impliedBy_preorder_iff (a b c : Requirement S) :
    (a.impliedBy a = true ∧
      (a.impliedBy b = true → b.impliedBy c = true → a.impliedBy c = true)) ↔
    ¬ BreaksChain a b c := by
  constructor
  · rintro ⟨_, htrans⟩ ⟨hab, hbc, hb, huses⟩
    have hfalse := (DependencyUses.impliedBy_eq_false a.sorted c.sorted).mpr huses
    have himp : b.uses.isImplicit = true := by rw [hb]; rfl
    have h1 : a.impliedBy b = true :=
      impliedBy_iff.mpr ⟨hab, DependencyUses.impliedBy_of_isImplicit (.inr himp)⟩
    have h2 : b.impliedBy c = true :=
      impliedBy_iff.mpr ⟨hbc, DependencyUses.impliedBy_of_isImplicit (.inl himp)⟩
    have h3 := (impliedBy_iff.mp (htrans h1 h2)).2
    simp [hfalse] at h3
  · intro hchain
    refine ⟨impliedBy_refl a, fun hab hbc => impliedBy_trans hab hbc fun hb => ?_⟩
    by_contra huses
    apply hchain
    refine ⟨(impliedBy_iff.mp hab).1, (impliedBy_iff.mp hbc).1, hb, ?_⟩
    exact (DependencyUses.impliedBy_eq_false a.sorted c.sorted).mp (by simpa using huses)

/-- Requirements on one released version of a package with two libraries. -/
def fooUsing (uses : DependencyUses) : Requirement (Finset Nat) :=
  make ⟨"foo"⟩ {1} uses none

def listed (libs : List String) : DependencyUses :=
  .explicitUsesList (libs.map Name.mk)

/-- A requirement that lists no use chains a listed library to none. -/
theorem impliedBy_not_transitive :
    let a := fooUsing (listed ["main"])
    let b := fooUsing .implicitUsesAll
    let c := fooUsing (listed [])
    a.impliedBy b = true ∧ b.impliedBy c = true ∧ ¬ a.impliedBy c = true := by
  decide

/-! ## Intersection as the meet -/

theorem intersection_eq_none : a.intersection b = none ↔ a.excludes b = true := by
  simp [intersection, excludes, isEmpty_intersection]

theorem intersection_eq_some {m : Requirement S} (h : a.intersection b = some m) :
    m.name = a.name ∧ m.versions = IntervalOps.intersection a.versions b.versions ∧
      m.uses = a.uses.unionUsages b.uses := by
  simp only [intersection] at h
  split at h
  · cases h
  · cases h
    exact ⟨rfl, rfl, make_uses (DependencyUses.unionUsages_sorted a.sorted b.sorted)⟩

/-- The same requirement. Version sets are compared by the versions they contain,
as versions are compared by their precedence. -/
structure Same (a b : Requirement S) : Prop where
  name : a.name = b.name
  versions : ∀ v, Mem a.versions v ↔ Mem b.versions v
  uses : a.uses = b.uses
  pkgVersion : a.pkgVersion = b.pkgVersion

/-- The intersection is the meet of two requirements in the implication order,
and it asks for all libraries that either asks for. -/
structure IntersectionIsMeet (a b : Requirement S) : Prop where
  none_iff : a.intersection b = none ↔ a.excludes b = true
  comm : Option.Rel Same (a.intersection b) (b.intersection a)
  left : ∀ m, a.intersection b = some m → a.impliedBy m = true
  right : ∀ m, a.intersection b = some m → b.impliedBy m = true
  coversLeft : ∀ m, a.intersection b = some m → m.uses.Covers a.uses
  coversRight : ∀ m, a.intersection b = some m → m.uses.Covers b.uses
  greatest : ∀ m, a.intersection b = some m → ∀ c : Requirement S, c.name = a.name →
    a.impliedBy c = true → b.impliedBy c = true → m.impliedBy c = true

theorem intersection_impliedBy_left {m : Requirement S} (h : a.intersection b = some m) :
    a.impliedBy m = true := by
  obtain ⟨_, hversions, huses⟩ := intersection_eq_some h
  refine impliedBy_iff.mpr ⟨?_, ?_⟩
  · rw [hversions]
    exact (contains_iff _ _).mpr fun v hv => ((mem_intersection _ _ v).mp hv).1
  · rw [huses]
    exact DependencyUses.impliedBy_unionUsages_left a.sorted b.sorted

theorem intersection_impliedBy_right {m : Requirement S} (h : a.intersection b = some m) :
    b.impliedBy m = true := by
  obtain ⟨_, hversions, huses⟩ := intersection_eq_some h
  refine impliedBy_iff.mpr ⟨?_, ?_⟩
  · rw [hversions]
    exact (contains_iff _ _).mpr fun v hv => ((mem_intersection _ _ v).mp hv).2
  · rw [huses]
    exact DependencyUses.impliedBy_unionUsages_right a.sorted b.sorted

theorem intersection_greatest {m c : Requirement S} (h : a.intersection b = some m)
    (hac : a.impliedBy c = true) (hbc : b.impliedBy c = true) : m.impliedBy c = true := by
  obtain ⟨_, hversions, huses⟩ := intersection_eq_some h
  obtain ⟨hva, hua⟩ := impliedBy_iff.mp hac
  obtain ⟨hvb, hub⟩ := impliedBy_iff.mp hbc
  refine impliedBy_iff.mpr ⟨?_, ?_⟩
  · rw [hversions]
    exact (contains_iff _ _).mpr fun v hv => (mem_intersection _ _ v).mpr
      ⟨(contains_iff _ _).mp hva v hv, (contains_iff _ _).mp hvb v hv⟩
  · rw [huses]
    exact DependencyUses.unionUsages_impliedBy a.sorted b.sorted c.sorted hua hub

theorem intersection_comm (hname : a.name = b.name)
    (himp : a.uses.isImplicit = b.uses.isImplicit) :
    Option.Rel Same (a.intersection b) (b.intersection a) := by
  have huses := DependencyUses.unionUsages_comm a.sorted b.sorted himp
  simp only [intersection, isEmpty_intersection, disjoint_comm b.versions a.versions]
  split
  · exact .none
  · exact .some ⟨hname, mem_intersection_comm a.versions b.versions,
      congrArg DependencyUses.sort huses, rfl⟩

/-- For requirements on one package, the intersection is the meet exactly when
the requirements exclude each other, or both list their uses, or neither does. -/
theorem intersection_meet_iff (a b : Requirement S) (hname : a.name = b.name) :
    IntersectionIsMeet a b ↔
      ((∀ v, Mem a.versions v → ¬ Mem b.versions v) ∨ a.uses.isImplicit = b.uses.isImplicit) := by
  rw [← VersionRangeSet.disjoint_iff]
  constructor
  · intro hmeet
    by_contra hcond
    rw [not_or] at hcond
    obtain ⟨hdisj, himp⟩ := hcond
    obtain ⟨m, hm⟩ : ∃ m, a.intersection b = some m :=
      Option.ne_none_iff_exists'.mp fun h => hdisj (hmeet.none_iff.mp h)
    have hcomm := hmeet.comm
    rw [hm] at hcomm
    generalize hm' : b.intersection a = r at hcomm
    cases hcomm with
    | some hsame =>
        -- both orders of the arguments give the same uses
        have hab := (intersection_eq_some hm).2.2
        have hba := (intersection_eq_some hm').2.2
        apply himp
        calc a.uses.isImplicit = (b.uses.unionUsages a.uses).isImplicit :=
              (DependencyUses.unionUsages_isImplicit _ _).symm
          _ = (a.uses.unionUsages b.uses).isImplicit := by rw [← hba, ← hsame.uses, hab]
          _ = b.uses.isImplicit := DependencyUses.unionUsages_isImplicit _ _
  · rintro (hdisj | himp)
    · have hab : a.intersection b = none := intersection_eq_none.mpr hdisj
      have hba : b.intersection a = none :=
        intersection_eq_none.mpr ((disjoint_comm _ _).trans hdisj)
      refine ⟨intersection_eq_none, by rw [hab, hba]; exact .none, ?_, ?_, ?_, ?_, ?_⟩ <;>
        intro m hm <;> rw [hab] at hm <;> cases hm
    · refine ⟨intersection_eq_none, intersection_comm hname himp,
        fun m hm => intersection_impliedBy_left hm, fun m hm => intersection_impliedBy_right hm,
        fun m hm => ?_, fun m hm => ?_, fun m hm c _ => intersection_greatest hm⟩
      · have huses := (intersection_eq_some hm).2.2
        refine DependencyUses.covers_of_impliedBy a.sorted m.sorted
          (impliedBy_iff.mp (intersection_impliedBy_left hm)).2 fun ha => ?_
        rw [huses, DependencyUses.unionUsages_isImplicit, ← himp, ha]
      · have huses := (intersection_eq_some hm).2.2
        refine DependencyUses.covers_of_impliedBy b.sorted m.sorted
          (impliedBy_iff.mp (intersection_impliedBy_right hm)).2 fun hb => ?_
        rw [huses, DependencyUses.unionUsages_isImplicit, hb]

theorem intersection_meet_fooUsing :
    IntersectionIsMeet (fooUsing (listed ["main"])) (fooUsing (listed ["extra"])) :=
  (intersection_meet_iff (fooUsing (listed ["main"])) (fooUsing (listed ["extra"])) rfl).mpr (.inr rfl)

/-- With an implicit first argument the intersection depends on the order of its
arguments, and it asks for less than all libraries. -/
theorem intersection_not_meet :
    let a := fooUsing .implicitUsesAll
    let b := fooUsing (listed ["main"])
    ¬ Option.Rel Same (a.intersection b) (b.intersection a) ∧
      ∃ m, a.intersection b = some m ∧ ¬ m.uses.Covers a.uses := by
  refine ⟨fun h => ?_, _, rfl, id⟩
  cases h with
  | some hsame => cases hsame.uses

/-! ## Difference against implication -/

theorem difference_eq_none :
    a.difference b = none ↔
      contains b.versions a.versions = true ∧ (a.uses.usesIsEmpty = true ∨ a.uses = b.uses) := by
  simp only [difference, isEmpty_difference]
  split
  next h =>
    simp only [Bool.and_eq_true, Bool.or_eq_true, decide_eq_true_eq] at h
    exact iff_of_true rfl h
  next h =>
    simp only [Bool.and_eq_true, Bool.or_eq_true, decide_eq_true_eq] at h
    exact iff_of_false (Option.some_ne_none _) h

theorem difference_eq_some {d : Requirement S} (h : a.difference b = some d) :
    d.versions = IntervalOps.difference a.versions b.versions ∧
      d.uses = a.uses.unionUsages b.uses := by
  simp only [difference] at h
  split at h
  · cases h
  · cases h
    exact ⟨rfl, make_uses (DependencyUses.unionUsages_sorted a.sorted b.sorted)⟩

/-- The difference is absent exactly when the subtracted requirement is implied,
and otherwise it keeps the versions that are left and all used libraries. -/
structure DifferenceAgrees (a b : Requirement S) : Prop where
  none_iff : a.difference b = none ↔ b.impliedBy a = true
  versions : ∀ d, a.difference b = some d →
    ∀ v, Mem d.versions v ↔ Mem a.versions v ∧ ¬ Mem b.versions v
  covers : ∀ d, a.difference b = some d → d.uses.Covers a.uses

/-- Where `difference` agrees with `impliedBy`. For two implicit requirements it
always does. -/
def DifferenceCondition (a b : Requirement S) : Prop :=
  match a.uses, b.uses with
  | .implicitUsesAll, .implicitUsesAll => True
  | .implicitUsesAll, .explicitUsesList _ => ∀ v, Mem a.versions v → Mem b.versions v
  | .explicitUsesList l, .implicitUsesAll => l = [] ∨ ∃ v, Mem a.versions v ∧ ¬ Mem b.versions v
  | .explicitUsesList l, .explicitUsesList m =>
    l = m ∨ (l ≠ [] ∧ ∃ lib, l.count lib < m.count lib) ∨
      ∃ v, Mem a.versions v ∧ ¬ Mem b.versions v

theorem difference_versions {d : Requirement S} (h : a.difference b = some d) (v : V) :
    Mem d.versions v ↔ Mem a.versions v ∧ ¬ Mem b.versions v := by
  rw [(difference_eq_some h).1]
  exact mem_difference _ _ v

/-- The two tests on uses, once the versions leave nothing. -/
theorem difference_none_iff :
    (a.difference b = none ↔ b.impliedBy a = true) ↔
      ((∀ v, Mem a.versions v → Mem b.versions v) →
        ((a.uses.usesIsEmpty = true ∨ a.uses = b.uses) ↔ b.uses.impliedBy a.uses = true)) := by
  rw [difference_eq_none, impliedBy_iff, and_congr_right_iff, contains_iff]

/-- The difference covers the uses it starts from, unless an implicit
requirement meets an explicit one. -/
theorem difference_covers_iff :
    (∀ d, a.difference b = some d → d.uses.Covers a.uses) ↔
      (a.difference b = none ∨ (a.uses.isImplicit = true → b.uses.isImplicit = true)) := by
  cases hd : a.difference b with
  | none => simp
  | some d =>
      have huses := (difference_eq_some hd).2
      simp only [Option.some.injEq, forall_eq', reduceCtorEq, false_or]
      rw [huses]
      constructor
      · intro hcovers himp
        by_contra hb
        cases ha : a.uses with
        | explicitUsesList l => rw [ha] at himp; cases himp
        | implicitUsesAll =>
            cases hbu : b.uses with
            | implicitUsesAll => rw [hbu] at hb; exact hb rfl
            | explicitUsesList m => rw [ha, hbu] at hcovers; exact hcovers
      · intro himp
        refine DependencyUses.covers_of_impliedBy a.sorted
          (DependencyUses.unionUsages_sorted a.sorted b.sorted)
          (DependencyUses.impliedBy_unionUsages_left a.sorted b.sorted) fun ha => ?_
        rw [DependencyUses.unionUsages_isImplicit]
        exact himp ha

private theorem not_forall_subset :
    (¬ ∀ v, Mem a.versions v → Mem b.versions v) ↔ ∃ v, Mem a.versions v ∧ ¬ Mem b.versions v := by
  simp only [not_forall, exists_prop]

/-- The test on explicit uses in `difference` and the one in `impliedBy` agree
on equal lists, and where both fail. -/
private theorem usesTests_agree_iff {l m : List Name}
    (hl : (DependencyUses.explicitUsesList l).Sorted)
    (hm : (DependencyUses.explicitUsesList m).Sorted) :
    ((l = [] ∨ l = m) ↔ m.Sublist l) ↔ (l = m ∨ (l ≠ [] ∧ ∃ lib, l.count lib < m.count lib)) := by
  have hsub : (¬ m.Sublist l) ↔ ∃ lib, l.count lib < m.count lib := by
    rw [SortedRange.sublist_iff_count hl hm]
    simp
  rw [← hsub]
  constructor
  · intro htests
    by_cases heq : l = m
    · exact .inl heq
    · refine .inr ?_
      have hnil : l ≠ [] := by
        intro hnil
        have hm_nil := htests.mp (.inl hnil)
        rw [hnil, List.sublist_nil] at hm_nil
        exact heq (hnil.trans hm_nil.symm)
      exact ⟨hnil, fun h => (htests.mpr h).elim hnil heq⟩
  · rintro (heq | ⟨hnil, hsub⟩)
    · subst heq
      simp
    · have hne : l ≠ m := fun heq => hsub (heq ▸ List.Sublist.refl m)
      simp [hnil, hne, hsub]

/-- The difference agrees with implication exactly under the condition. -/
theorem difference_agrees_iff (a b : Requirement S) :
    DifferenceAgrees a b ↔ DifferenceCondition a b := by
  have hsplit : DifferenceAgrees a b ↔
      (a.difference b = none ↔ b.impliedBy a = true) ∧
        (∀ d, a.difference b = some d → d.uses.Covers a.uses) :=
    ⟨fun h => ⟨h.none_iff, h.covers⟩, fun h => ⟨h.1, fun d hd => difference_versions hd, h.2⟩⟩
  have ha := a.sorted
  have hb := b.sorted
  rw [hsplit, difference_none_iff, difference_covers_iff, difference_eq_none, contains_iff]
  unfold DifferenceCondition
  cases hau : a.uses with
  | implicitUsesAll =>
      cases hbu : b.uses with
      | implicitUsesAll => simp [DependencyUses.usesIsEmpty, DependencyUses.impliedBy]
      | explicitUsesList m =>
          simp [DependencyUses.usesIsEmpty, DependencyUses.impliedBy, DependencyUses.isImplicit]
  | explicitUsesList l =>
      cases hbu : b.uses with
      | implicitUsesAll =>
          simp only [DependencyUses.usesIsEmpty, DependencyUses.impliedBy,
            DependencyUses.isImplicit, List.isEmpty_iff, reduceCtorEq, or_false, iff_true,
            implies_true, or_true, and_true]
          exact imp_iff_or_not.trans (or_congr Iff.rfl not_forall_subset)
      | explicitUsesList m =>
          rw [hau] at ha
          rw [hbu] at hb
          simp only [DependencyUses.usesIsEmpty, DependencyUses.impliedBy_explicit hb ha,
            DependencyUses.isImplicit, List.isEmpty_iff, DependencyUses.explicitUsesList.injEq,
            reduceCtorEq, false_imp_iff, or_true, and_true]
          exact imp_iff_or_not.trans (by
            rw [or_congr (usesTests_agree_iff ha hb) not_forall_subset, or_assoc])

/-- A requirement of no listed library is subtracted to nothing by one of a
library it does not ask for. -/
theorem difference_not_agrees :
    let a := fooUsing (listed [])
    let b := fooUsing (listed ["main"])
    a.difference b = none ∧ ¬ b.impliedBy a = true := by
  refine ⟨rfl, by decide⟩

end Requirement

end Bpt.Solve
