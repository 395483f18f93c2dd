-- SUMMARY: The two external types package metadata is built on: semantic versions and sets of version intervals.
import Mathlib.Data.List.Sort
import Mathlib.Data.Finset.Lattice.Fold
import Mathlib.Order.Interval.Finset.Nat
import Mathlib.Order.Lattice.Nat

/-!
# Versions and version ranges

`semver::version` and `pubgrub::interval_set` come from outside the repository,
so both are parameters. The precedence of versions is a total preorder: two
versions that differ in their build metadata only are equivalent, not equal.
An interval set is its half-open intervals, in order and apart. Its operations
are exact on the versions these contain, so two sets with the same versions may
differ in the build metadata of their bounds.
-/

namespace Bpt

/-- Semantic versions. -/
class Semver (V : Type) extends Preorder V, Inhabited V where
  decEq : DecidableEq V
  decLE : DecidableLE V
  decLT : DecidableLT V
  le_total : ∀ v w : V, v ≤ w ∨ w ≤ v
  toStr : V → String
  parse : String → Option V
  parse_toStr : ∀ v : V, parse (toStr v) = some v
  /-- The version that ends the interval of the given version alone. -/
  nextAfter : V → V
  lt_nextAfter : ∀ v : V, v < nextAfter v

attribute [reducible, instance] Semver.decEq Semver.decLE Semver.decLT

theorem Semver.le_of_not_gt {V : Type} [Semver V] {v w : V} (h : ¬ v < w) : w ≤ v := by
  rcases Semver.le_total v w with hvw | hwv
  · by_contra hwv
    exact h (lt_of_le_not_ge hvw hwv)
  · exact hwv

theorem Semver.toStr_injective {V : Type} [Semver V] :
    Function.Injective (Semver.toStr : V → String) := fun v w h =>
  Option.some.inj (by rw [← Semver.parse_toStr v, h, Semver.parse_toStr w])

/-- The operations of `pubgrub::interval_set`. -/
class IntervalOps (S : Type) (V : outParam Type) where
  decEq : DecidableEq S
  /-- The intervals `[low, high)`, in increasing order. -/
  iterIntervals : S → List (V × V)
  emptySet : S
  ofInterval : V → V → S
  contains : S → S → Bool
  containsVersion : S → V → Bool
  disjoint : S → S → Bool
  isEmpty : S → Bool
  intersection : S → S → S
  union : S → S → S
  difference : S → S → S

attribute [reducible, instance] IntervalOps.decEq

namespace IntervalOps

variable {S V : Type} [IntervalOps S V]

/-- A version lies in one of the intervals. -/
def Mem [Semver V] (s : S) (v : V) : Prop := ∃ iv ∈ iterIntervals s, iv.1 ≤ v ∧ v < iv.2

end IntervalOps

open IntervalOps in
/-- Interval sets in normal form, whose operations are exact set operations. -/
class VersionRangeSet (S : Type) (V : outParam Type) [Semver V] extends IntervalOps S V where
  iterIntervals_emptySet : iterIntervals (emptySet : S) = []
  iterIntervals_ofInterval : ∀ low high : V, low < high →
    iterIntervals (ofInterval low high : S) = [(low, high)]
  iterIntervals_pairwise : ∀ s : S, (iterIntervals s).Pairwise fun iv iv' => iv.2 < iv'.1
  /-- A union with an interval behind all others keeps them as they are. -/
  iterIntervals_union : ∀ (s : S) (low high : V), low < high →
    (∀ iv ∈ iterIntervals s, iv.2 < low) →
    iterIntervals (union s (ofInterval low high)) = iterIntervals s ++ [(low, high)]
  contains_iff : ∀ s t : S, contains s t = true ↔ ∀ v, Mem t v → Mem s v
  containsVersion_iff : ∀ (s : S) v, containsVersion s v = true ↔ Mem s v
  disjoint_iff : ∀ s t : S, disjoint s t = true ↔ ∀ v, Mem s v → ¬ Mem t v
  isEmpty_iff : ∀ s : S, isEmpty s = true ↔ ∀ v, ¬ Mem s v
  mem_intersection : ∀ (s t : S) v, Mem (intersection s t) v ↔ Mem s v ∧ Mem t v
  mem_union : ∀ (s t : S) v, Mem (union s t) v ↔ Mem s v ∨ Mem t v
  mem_difference : ∀ (s t : S) v, Mem (difference s t) v ↔ Mem s v ∧ ¬ Mem t v
  ext : ∀ s t : S, iterIntervals s = iterIntervals t → s = t

namespace VersionRangeSet

open IntervalOps

variable {S V : Type} [Semver V] [VersionRangeSet S V]

/-- The set of one version and those equivalent to it. -/
def single (v : V) : S := ofInterval v (Semver.nextAfter v)

theorem iterIntervals_single (v : V) :
    iterIntervals (single v : S) = [(v, Semver.nextAfter v)] :=
  iterIntervals_ofInterval v _ (Semver.lt_nextAfter v)

theorem mem_single (v : V) : Mem (single v : S) v :=
  ⟨(v, Semver.nextAfter v), by simp [iterIntervals_single], le_rfl, Semver.lt_nextAfter v⟩

theorem contains_refl (s : S) : contains s s = true :=
  (contains_iff s s).mpr fun _ h => h

theorem contains_trans {s t u : S} (hst : contains s t = true) (htu : contains t u = true) :
    contains s u = true :=
  (contains_iff s u).mpr fun v hv =>
    (contains_iff s t).mp hst v ((contains_iff t u).mp htu v hv)

theorem mem_intersection_comm (s t : S) (v : V) :
    Mem (intersection s t) v ↔ Mem (intersection t s) v := by
  rw [mem_intersection, mem_intersection, and_comm]

theorem isEmpty_intersection (s t : S) : isEmpty (intersection s t) = disjoint s t := by
  rw [Bool.eq_iff_iff, isEmpty_iff, disjoint_iff]
  constructor
  · intro h v hs ht
    exact h v ((mem_intersection s t v).mpr ⟨hs, ht⟩)
  · intro h v hv
    obtain ⟨hs, ht⟩ := (mem_intersection s t v).mp hv
    exact h v hs ht

theorem isEmpty_difference (s t : S) : isEmpty (difference s t) = contains t s := by
  rw [Bool.eq_iff_iff, isEmpty_iff, contains_iff]
  constructor
  · intro h v hs
    by_contra ht
    exact h v ((mem_difference s t v).mpr ⟨hs, ht⟩)
  · intro h v hv
    obtain ⟨hs, ht⟩ := (mem_difference s t v).mp hv
    exact ht (h v hs)

theorem disjoint_comm (s t : S) : disjoint s t = disjoint t s := by
  rw [Bool.eq_iff_iff, disjoint_iff, disjoint_iff]
  exact ⟨fun h v ht hs => h v hs ht, fun h v hs ht => h v ht hs⟩

end VersionRangeSet

/-! ## Patch releases

The versions `0.0.n` with finite sets of them: an instance small enough to
evaluate. -/

/-- The release `0.0.patch`. -/
structure PatchRelease where
  patch : Nat
  deriving DecidableEq, Repr

namespace PatchRelease

def digitValue (c : Char) : Option Nat :=
  if '0' ≤ c ∧ c ≤ '9' then some (c.toNat - '0'.toNat) else none

/-- Read a decimal number after the digits read so far. -/
def parseDigits (acc : Nat) : List Char → Option Nat
  | [] => some acc
  | c :: cs => (digitValue c).bind fun d => parseDigits (10 * acc + d) cs

def parse (str : String) : Option PatchRelease :=
  match str.toList with
  | '0' :: '.' :: '0' :: '.' :: c :: cs => (parseDigits 0 (c :: cs)).map PatchRelease.mk
  | _ => none

theorem parseDigits_append (acc : Nat) (cs ds : List Char) :
    parseDigits acc (cs ++ ds) = (parseDigits acc cs).bind (parseDigits · ds) := by
  induction cs generalizing acc with
  | nil => rfl
  | cons c cs ih => cases hd : digitValue c <;> simp [parseDigits, hd, ih]

private theorem digitValue_digitChar : ∀ d < 10, digitValue d.digitChar = some d := by
  decide

theorem parseDigits_toDigits (n : Nat) : parseDigits 0 (Nat.toDigits 10 n) = some n := by
  induction n using Nat.strongRecOn with
  | ind n ih =>
      have hmod : digitValue (n % 10).digitChar = some (n % 10) :=
        digitValue_digitChar _ (Nat.mod_lt n (by decide))
      by_cases hn : n < 10
      · rw [Nat.toDigits_of_lt_base hn]
        rw [Nat.mod_eq_of_lt hn] at hmod
        simp [parseDigits, hmod]
      · rw [Nat.toDigits_of_base_le (by decide) (not_lt.mp hn), parseDigits_append,
          ih (n / 10) (by omega)]
        simp [parseDigits, hmod, Nat.div_add_mod]

theorem parse_toStr (v : PatchRelease) :
    parse ("0.0." ++ String.ofList (Nat.toDigits 10 v.patch)) = some v := by
  cases hdigits : Nat.toDigits 10 v.patch with
  | nil => exact absurd hdigits Nat.toDigits_ne_nil
  | cons c cs =>
      have hparse := parseDigits_toDigits v.patch
      rw [hdigits] at hparse
      simp [parse, hparse]

instance : Semver PatchRelease where
  __ := Preorder.lift PatchRelease.patch
  default := ⟨0⟩
  decEq := inferInstance
  decLE := fun v w => inferInstanceAs (Decidable (v.patch ≤ w.patch))
  decLT := fun v w => inferInstanceAs (Decidable (v.patch < w.patch))
  le_total := fun v w => Nat.le_total v.patch w.patch
  toStr := fun v => "0.0." ++ String.ofList (Nat.toDigits 10 v.patch)
  parse := parse
  parse_toStr := parse_toStr
  nextAfter := fun v => ⟨v.patch + 1⟩
  lt_nextAfter := fun v => Nat.lt_succ_self v.patch

/-- The maximal intervals of an increasing list of patch numbers. -/
def runs : List Nat → List (Nat × Nat)
  | [] => []
  | n :: ns =>
    match runs ns with
    | (low, high) :: rest =>
      if low = n + 1 then (n, high) :: rest else (n, n + 1) :: (low, high) :: rest
    | [] => [(n, n + 1)]

theorem runs_lt (ns : List Nat) : ∀ iv ∈ runs ns, iv.1 < iv.2 := by
  induction ns with
  | nil => simp [runs]
  | cons n ns ih =>
      unfold runs
      split
      · rename_i low high rest hruns
        rw [hruns] at ih
        have hlow : low < high := ih (low, high) (by simp)
        split_ifs with hnext
        · intro iv hiv
          rcases List.mem_cons.mp hiv with rfl | hiv
          · show n < high
            omega
          · exact ih iv (List.mem_cons_of_mem _ hiv)
        · intro iv hiv
          rcases List.mem_cons.mp hiv with rfl | hiv
          · exact Nat.lt_succ_self n
          · exact ih iv hiv
      · simp

theorem mem_runs (ns : List Nat) (v : Nat) :
    (∃ iv ∈ runs ns, iv.1 ≤ v ∧ v < iv.2) ↔ v ∈ ns := by
  induction ns with
  | nil => simp [runs]
  | cons n ns ih =>
      have hlt := runs_lt ns
      unfold runs
      split
      · rename_i low high rest hruns
        rw [hruns] at ih hlt
        have hlow : low < high := hlt (low, high) (by simp)
        simp only [List.mem_cons, exists_eq_or_imp] at ih
        split_ifs with hnext
        · simp only [List.mem_cons, exists_eq_or_imp, ← ih]
          constructor
          · rintro (⟨h1, h2⟩ | h)
            · rcases Nat.eq_or_lt_of_le h1 with rfl | h1
              · exact .inl rfl
              · exact .inr (.inl ⟨by omega, h2⟩)
            · exact .inr (.inr h)
          · rintro (rfl | ⟨h1, h2⟩ | h)
            · exact .inl ⟨le_rfl, by omega⟩
            · exact .inl ⟨by omega, h2⟩
            · exact .inr h
        · simp only [List.mem_cons, exists_eq_or_imp, ← ih]
          constructor
          · rintro (⟨h1, h2⟩ | h)
            · exact .inl (by omega)
            · exact .inr h
          · rintro (rfl | h)
            · exact .inl ⟨le_rfl, Nat.lt_succ_self v⟩
            · exact .inr h
      · rename_i hruns
        rw [hruns] at ih
        have hno : v ∉ ns := by simpa using ih
        simp only [List.mem_cons, List.not_mem_nil, hno, or_false, exists_eq_left]
        omega

theorem runs_range' (low n : Nat) : runs (List.range' low (n + 1)) = [(low, low + n + 1)] := by
  induction n generalizing low with
  | zero => rfl
  | succ n ih =>
      rw [List.range'_succ, runs, ih (low + 1)]
      simp only [if_true]
      congr 2
      omega

/-- The runs of an increasing list stand in order, with gaps between them. -/
theorem runs_pairwise {ns : List Nat} (h : ns.SortedLT) :
    (runs ns).Pairwise fun iv iv' => iv.2 < iv'.1 := by
  induction ns with
  | nil => exact List.Pairwise.nil
  | cons n ns ih =>
      obtain ⟨hn, hns⟩ := List.pairwise_cons.mp h.pairwise
      have hpair := ih hns.sortedLT
      -- every later run begins behind `n`
      have hlow : ∀ iv ∈ runs ns, n < iv.1 := fun iv hiv =>
        hn iv.1 ((mem_runs ns iv.1).mp ⟨iv, hiv, le_rfl, runs_lt ns iv hiv⟩)
      have hlt := runs_lt ns
      unfold runs
      split
      · rename_i low high rest hruns
        rw [hruns] at hpair hlow hlt
        obtain ⟨hhigh, hrest⟩ := List.pairwise_cons.mp hpair
        split_ifs with hnext
        · exact List.pairwise_cons.mpr ⟨hhigh, hrest⟩
        · refine List.pairwise_cons.mpr ⟨fun iv hiv => ?_, hpair⟩
          have hn1 : n < low := hlow (low, high) List.mem_cons_self
          rcases List.mem_cons.mp hiv with rfl | hiv
          · show n + 1 < low
            omega
          · have h1 : low < high := hlt (low, high) List.mem_cons_self
            have h2 : high < iv.1 := hhigh iv hiv
            show n + 1 < iv.1
            omega
      · simp

theorem runs_ne_nil (n : Nat) (ns : List Nat) : runs (n :: ns) ≠ [] := by
  unfold runs
  split
  · split_ifs <;> exact List.cons_ne_nil _ _
  · exact List.cons_ne_nil _ _

/-- A stretch of numbers behind all runs is one more run. -/
theorem runs_append_range' (ns : List Nat) (low n : Nat) (h : ∀ iv ∈ runs ns, iv.2 < low) :
    runs (ns ++ List.range' low (n + 1)) = runs ns ++ [(low, low + n + 1)] := by
  induction ns with
  | nil => simpa [runs] using runs_range' low n
  | cons m ns ih =>
      cases hruns : runs ns with
      | nil =>
          cases ns with
          | nil =>
              have hm : m + 1 < low := h (m, m + 1) (by simp [runs])
              rw [List.cons_append, List.nil_append, runs, runs_range']
              simp [runs, Nat.ne_of_gt hm]
          | cons k ns => exact absurd hruns (runs_ne_nil k ns)
      | cons iv rest =>
          obtain ⟨low', high'⟩ := iv
          have hhead : runs (m :: ns) =
              if low' = m + 1 then (m, high') :: rest else (m, m + 1) :: (low', high') :: rest := by
            rw [runs, hruns]
          have hns : ∀ iv ∈ runs ns, iv.2 < low := by
            intro iv hiv
            rw [hhead] at h
            rw [hruns] at hiv
            rcases List.mem_cons.mp hiv with rfl | hiv
            · split_ifs at h
              · exact h (m, high') List.mem_cons_self
              · exact h (low', high') (by simp)
            · split_ifs at h
              · exact h iv (List.mem_cons_of_mem _ hiv)
              · exact h iv (by simp [hiv])
          rw [List.cons_append, runs, ih hns, hhead, hruns]
          simp only [List.cons_append]
          split_ifs <;> rfl

/-- The elements of a set in increasing order. -/
def elements (s : Finset Nat) : List Nat := (List.range (s.sup id + 1)).filter (· ∈ s)

theorem mem_elements (s : Finset Nat) (n : Nat) : n ∈ elements s ↔ n ∈ s := by
  simp only [elements, List.mem_filter, List.mem_range, decide_eq_true_iff, and_iff_right_iff_imp]
  intro hn
  have hle : id n ≤ s.sup id := Finset.le_sup hn
  exact Nat.lt_succ_of_le hle

theorem elements_sortedLT (s : Finset Nat) : (elements s).SortedLT :=
  ((List.sortedLT_range _).pairwise.filter _).sortedLT

theorem elements_Ico (low high : Nat) :
    elements (Finset.Ico low high) = List.range' low (high - low) := by
  have hrange : (List.range' low (high - low)).SortedLT := List.sortedLT_range' _ _ (by omega)
  apply List.Perm.eq_of_sortedLE (elements_sortedLT _).sortedLE hrange.sortedLE
  rw [List.perm_ext_iff_of_nodup (elements_sortedLT _).nodup hrange.nodup]
  intro n
  simp only [mem_elements, Finset.mem_Ico, List.mem_range'_1]
  omega

theorem elements_union_Ico {s : Finset Nat} {low high : Nat} (h : ∀ n ∈ s, n < low) :
    elements (s ∪ Finset.Ico low high) = elements s ++ List.range' low (high - low) := by
  have hsorted : (elements s ++ List.range' low (high - low)).SortedLT := by
    refine (List.pairwise_append.mpr ⟨(elements_sortedLT s).pairwise,
      (List.sortedLT_range' _ _ (by omega)).pairwise, fun n hn m hm => ?_⟩).sortedLT
    have hn' := h n ((mem_elements s n).mp hn)
    rw [List.mem_range'_1] at hm
    omega
  apply List.Perm.eq_of_sortedLE (elements_sortedLT _).sortedLE hsorted.sortedLE
  rw [List.perm_ext_iff_of_nodup (elements_sortedLT _).nodup hsorted.nodup]
  intro n
  simp only [mem_elements, Finset.mem_union, Finset.mem_Ico, List.mem_append, List.mem_range'_1]
  exact or_congr_right (by omega)

instance : IntervalOps (Finset Nat) PatchRelease where
  decEq := inferInstance
  iterIntervals := fun s => (runs (elements s)).map fun iv => (⟨iv.1⟩, ⟨iv.2⟩)
  emptySet := ∅
  ofInterval := fun low high => Finset.Ico low.patch high.patch
  contains := fun s t => decide (t ⊆ s)
  containsVersion := fun s v => decide (v.patch ∈ s)
  disjoint := fun s t => decide (Disjoint s t)
  isEmpty := fun s => decide (s = ∅)
  intersection := fun s t => s ∩ t
  union := fun s t => s ∪ t
  difference := fun s t => s \ t

theorem mem_iff (s : Finset Nat) (v : PatchRelease) : IntervalOps.Mem s v ↔ v.patch ∈ s := by
  rw [← mem_elements, ← mem_runs]
  constructor
  · rintro ⟨_, hmem, h⟩
    obtain ⟨iv, hiv, rfl⟩ := List.mem_map.mp hmem
    exact ⟨iv, hiv, h⟩
  · rintro ⟨iv, hiv, h⟩
    exact ⟨_, List.mem_map.mpr ⟨iv, hiv, rfl⟩, h⟩

instance : VersionRangeSet (Finset Nat) PatchRelease where
  iterIntervals_emptySet := by
    rfl
  iterIntervals_ofInterval := fun low high h => by
    show (runs (elements (Finset.Ico low.patch high.patch))).map _ = _
    obtain ⟨n, hn⟩ := Nat.exists_eq_add_of_lt (show low.patch < high.patch from h)
    rw [elements_Ico, hn, show low.patch + n + 1 - low.patch = n + 1 by omega, runs_range', ← hn]
    rfl
  iterIntervals_pairwise := fun s =>
    List.pairwise_map.mpr (runs_pairwise (elements_sortedLT s))
  iterIntervals_union := fun s low high hlt h => by
    have hruns : ∀ iv ∈ runs (elements s), iv.2 < low.patch := fun iv hiv =>
      h (⟨iv.1⟩, ⟨iv.2⟩) (List.mem_map.mpr ⟨iv, hiv, rfl⟩)
    have hbelow : ∀ n ∈ s, n < low.patch := fun n hn => by
      obtain ⟨iv, hiv, _, hhigh⟩ := (mem_runs _ n).mpr ((mem_elements s n).mpr hn)
      exact hhigh.trans (hruns iv hiv)
    show (runs (elements (s ∪ Finset.Ico low.patch high.patch))).map _ = _
    obtain ⟨n, hn⟩ := Nat.exists_eq_add_of_lt (show low.patch < high.patch from hlt)
    rw [elements_union_Ico hbelow, hn, show low.patch + n + 1 - low.patch = n + 1 by omega,
      runs_append_range' _ _ _ hruns, List.map_append, ← hn]
    rfl
  contains_iff := fun s t => by
    simp only [mem_iff]
    show decide (t ⊆ s) = true ↔ _
    rw [decide_eq_true_iff]
    exact ⟨fun h v hv => h hv, fun h n hn => h ⟨n⟩ hn⟩
  containsVersion_iff := fun s v => by
    rw [mem_iff]
    exact decide_eq_true_iff
  disjoint_iff := fun s t => by
    simp only [mem_iff]
    show decide (Disjoint s t) = true ↔ _
    rw [decide_eq_true_iff, Finset.disjoint_left]
    exact ⟨fun h v hs => h hs, fun h n hs => h ⟨n⟩ hs⟩
  isEmpty_iff := fun s => by
    simp only [mem_iff]
    show decide (s = ∅) = true ↔ _
    rw [decide_eq_true_iff, Finset.eq_empty_iff_forall_notMem]
    exact ⟨fun h v => h v.patch, fun h n => h ⟨n⟩⟩
  mem_intersection := fun s t v => by
    simp only [mem_iff]
    exact Finset.mem_inter
  mem_union := fun s t v => by
    simp only [mem_iff]
    exact Finset.mem_union
  mem_difference := fun s t v => by
    simp only [mem_iff]
    exact Finset.mem_sdiff
  ext := fun s t h => by
    ext n
    rw [← mem_iff s ⟨n⟩, ← mem_iff t ⟨n⟩]
    unfold IntervalOps.Mem
    rw [h]

end PatchRelease

end Bpt
