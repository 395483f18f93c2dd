-- SUMMARY: When the manifest reader and the metadata reader read the same dependency from an object.
import Mathlib.Data.List.Permutation
import Bpt.Project.RoundTrip

/-!
# Two readers of dependency objects

A manifest and package metadata spell a dependency with the same three values,
and each has its own reader. They agree on what a valid value is. They differ in
what an empty array says.
-/

namespace Bpt.Project

open Fallible Walk

variable {V S : Type} [Semver V] [VersionRangeSet S V] [SemverRange V]

/-! ## What the values spell -/

/-- An element of `versions`, and the interval it spells. -/
def SpellsInterval (elem : Json) (iv : V × V) : Prop :=
  ∃ fields low high, elem = .obj fields ∧ ("low", .str low) ∈ fields ∧
    ("high", .str high) ∈ fields ∧ Semver.parse low = some iv.1 ∧ Semver.parse high = some iv.2 ∧
    ¬ iv.2 ≤ iv.1

def SpellsVersions (versions : Json) (ivs : List (V × V)) : Prop :=
  ∃ elems, versions = .arr elems ∧ List.Forall₂ SpellsInterval elems ivs

def SpellsUses (using_ : Json) (uses : List Name) : Prop :=
  ∃ elems, using_ = .arr elems ∧
    List.Forall₂ (fun elem (use : Name) => elem = .str use.str ∧ use.Valid) elems uses

/-- The three values are valid, and what they spell. -/
structure Spells (name versions using_ : Json) (depName : Name) (ivs : List (V × V))
    (uses : List Name) : Prop where
  name : name = .str depName.str ∧ depName.Valid
  versions : SpellsVersions versions ivs
  uses : SpellsUses using_ uses

/-- The objects in an array have no other keys than `low` and `high`, each at most once. -/
def OnlyRangeKeys (versions : Json) : Prop :=
  ∀ elems fields, versions = .arr elems → .obj fields ∈ elems →
    (fields.map Prod.fst).Nodup ∧ ∀ field ∈ fields, field.1 = "low" ∨ field.1 = "high"

/-- Both readers accept, with the same dependency, or neither does. -/
def SameReading (S : Type) [VersionRangeSet S V] [LeafResult] [Semester]
    (fields fields' : List (String × Json)) : Prop :=
  ∀ dep : Crs.Dependency S,
    (∃ read : ProjectDependency S,
      ProjectDependency.fromJsonData (.obj fields) = .ok read ∧ read.asCrsDependency = dep) ↔
    Crs.Dependency.fromData (.obj fields') = .ok dep

/-! ## Fields in any order -/

theorem perm_three {α : Type*} {a b c : α} {l : List α} (h : l.Perm [a, b, c]) :
    l = [a, b, c] ∨ l = [b, a, c] ∨ l = [b, c, a] ∨ l = [a, c, b] ∨ l = [c, a, b] ∨
      l = [c, b, a] := by
  have hmem := List.mem_permutations'.mpr h
  simpa [List.permutations', List.permutations'Aux] using hmem

theorem forall₂_congr_mem {α β : Type*} {R T : α → β → Prop} {as : List α} {bs : List β}
    (h : ∀ a ∈ as, ∀ b, R a b ↔ T a b) : List.Forall₂ R as bs ↔ List.Forall₂ T as bs := by
  induction as generalizing bs with
  | nil => simp
  | cons a as ih =>
      obtain ⟨ha, has⟩ := List.forall_mem_cons.mp h
      cases bs with
      | nil => simp
      | cons b bs => rw [List.forall₂_cons, List.forall₂_cons, ha, ih has]

theorem requireKeys_of_perm {fields keys : List (String × Json)} {required : List (String × String)}
    (hperm : fields.Perm keys)
    (hkeys : ∀ key ∈ required.map Prod.fst, key ∈ keys.map Prod.fst) :
    requireKeys fields required = .ok () := by
  induction required with
  | nil => rfl
  | cons first required ih =>
      obtain ⟨hfirst, hrest⟩ := List.forall_mem_cons.mp hkeys
      obtain ⟨field, hfield, hkey⟩ := List.mem_map.mp hfirst
      have hany : fields.any (fun field => field.1 = first.1) = true :=
        List.any_eq_true.mpr ⟨field, hperm.mem_iff.mpr hfield, decide_eq_true hkey⟩
      rw [requireKeys, if_pos hany]
      exact ih hrest

/-! ## Intervals -/

/-- The fields of an object with no other keys. -/
theorem rangeFields_cases {fields : List (String × Json)} (hnodup : (fields.map Prod.fst).Nodup)
    (hkeys : ∀ field ∈ fields, field.1 = "low" ∨ field.1 = "high") :
    fields = [] ∨ (∃ low, fields = [("low", low)]) ∨ (∃ high, fields = [("high", high)]) ∨
      ∃ low high, fields = [("low", low), ("high", high)] ∨
        fields = [("high", high), ("low", low)] := by
  match fields with
  | [] => exact .inl rfl
  | [(key, value)] =>
      have hkey : key = "low" ∨ key = "high" := hkeys _ List.mem_cons_self
      rcases hkey with rfl | rfl
      · exact .inr (.inl ⟨value, rfl⟩)
      · exact .inr (.inr (.inl ⟨value, rfl⟩))
  | [(key, value), (key', value')] =>
      obtain ⟨hkey, hkey', -⟩ : (key = "low" ∨ key = "high") ∧ (key' = "low" ∨ key' = "high") ∧ _ := by
        simpa only [List.forall_mem_cons] using hkeys
      have hne : key ≠ key' := by simpa using hnodup
      refine .inr (.inr (.inr ?_))
      rcases hkey with rfl | rfl <;> rcases hkey' with rfl | rfl
      · exact absurd rfl hne
      · exact ⟨value, value', .inl rfl⟩
      · exact ⟨value', value, .inr rfl⟩
      · exact absurd rfl hne
  | (key, _) :: (key', value') :: (key'', value'') :: rest =>
      obtain ⟨hkey, hkey', hkey'', -⟩ : (key = "low" ∨ key = "high") ∧
          (key' = "low" ∨ key' = "high") ∧ (key'' = "low" ∨ key'' = "high") ∧ _ := by
        simpa only [List.forall_mem_cons] using hkeys
      have hne : key ≠ key' ∧ key ≠ key'' ∧ key' ≠ key'' := by
        simp only [List.map_cons, List.nodup_cons, List.mem_cons, not_or] at hnodup
        exact ⟨hnodup.1.1, hnodup.1.2.1, hnodup.2.1.1⟩
      grind

theorem requireStr_eq_ok {message s : String} {value : Json} :
    requireStr message value = .ok s ↔ value = .str s := by
  cases value <;> simp [requireStr]

theorem requireArray_eq_ok {message : String} {value : Json} {elems : List Json} :
    requireArray message value = .ok elems ↔ value = .arr elems := by
  cases value <;> simp [requireArray]

theorem versionFromString_eq_ok {V : Type} [Semver V] {s : String} {v : V} :
    Crs.Dependency.versionFromString s = .ok v ↔ Semver.parse s = some v := by
  unfold Crs.Dependency.versionFromString
  cases (Semver.parse s : Option V) <;> simp

section

variable [Semester]

omit [VersionRangeSet S V] [SemverRange V] in
theorem mapping_readRangeField_eq_ok {fields : List (String × Json)} {iv : V × V}
    (hnodup : (fields.map Prod.fst).Nodup)
    (hkeys : ∀ field ∈ fields, field.1 = "low" ∨ field.1 = "high") :
    Walk.mapping [("low", "'low' version is required"), ("high", "'high' version is required")]
        Crs.Dependency.readRangeField (default, default) fields = .ok iv ↔
      ∃ low high, ("low", .str low) ∈ fields ∧ ("high", .str high) ∈ fields ∧
        Semver.parse low = some iv.1 ∧ Semver.parse high = some iv.2 := by
  obtain ⟨low, high⟩ := iv
  rcases rangeFields_cases hnodup hkeys with rfl | ⟨lowValue, rfl⟩ | ⟨highValue, rfl⟩ |
    ⟨lowValue, highValue, rfl | rfl⟩
  · simp [Walk.mapping, requireKeys, bind_eq_ok]
  · simp [Walk.mapping, requireKeys, bind_eq_ok]
  · simp [Walk.mapping, requireKeys, bind_eq_ok]
  · simp only [Walk.mapping, Walk.eachField, walkFields, Crs.Dependency.readRangeField,
      Option.getD_some, requireKeys, bind_eq_ok, pure_eq_ok, requireStr_eq_ok,
      versionFromString_eq_ok]
    constructor
    · rintro ⟨_, ⟨_, ⟨low, rfl, _, hlow, rfl⟩, _, ⟨high, rfl, _, hhigh, rfl⟩, h⟩, _, _, rfl⟩
      cases h
      exact ⟨low, high, by simp, by simp, hlow, hhigh⟩
    · rintro ⟨low, high, hlow, hhigh, hlow', hhigh'⟩
      simp at hlow hhigh
      subst hlow hhigh
      simp [hlow', hhigh']
  · simp only [Walk.mapping, Walk.eachField, walkFields, Crs.Dependency.readRangeField,
      Option.getD_some, requireKeys, bind_eq_ok, pure_eq_ok, requireStr_eq_ok,
      versionFromString_eq_ok]
    constructor
    · rintro ⟨_, ⟨_, ⟨high, rfl, _, hhigh, rfl⟩, _, ⟨low, rfl, _, hlow, rfl⟩, h⟩, _, _, rfl⟩
      cases h
      exact ⟨low, high, by simp, by simp, hlow, hhigh⟩
    · rintro ⟨low, high, hlow, hhigh, hlow', hhigh'⟩
      simp at hlow hhigh
      subst hlow hhigh
      simp [hlow', hhigh']

omit [VersionRangeSet S V] [SemverRange V] in
theorem parseVersionRange_eq_ok_iff {elem : Json} {iv : V × V}
    (hkeys : ∀ fields, elem = .obj fields → (fields.map Prod.fst).Nodup ∧
      ∀ field ∈ fields, field.1 = "low" ∨ field.1 = "high") :
    Crs.Dependency.parseVersionRange elem = .ok iv ↔ SpellsInterval elem iv := by
  cases elem with
  | obj fields =>
      obtain ⟨hnodup, hkeys⟩ := hkeys fields rfl
      unfold Crs.Dependency.parseVersionRange SpellsInterval
      simp only [bind_eq_ok, requireMapping_obj, Except.ok.injEq, exists_eq_left',
        mapping_readRangeField_eq_ok hnodup hkeys]
      constructor
      · rintro ⟨⟨low, high⟩, ⟨lowStr, highStr, hlow, hhigh, hparse, hparse'⟩, h⟩
        dsimp only at h
        split at h
        · cases h
        next hle =>
          cases h
          exact ⟨fields, lowStr, highStr, rfl, hlow, hhigh, hparse, hparse', hle⟩
      · rintro ⟨fields', lowStr, highStr, ⟨⟩, hlow, hhigh, hparse, hparse', hle⟩
        refine ⟨iv, ⟨lowStr, highStr, hlow, hhigh, hparse, hparse'⟩, ?_⟩
        rw [if_neg hle]
        rfl
  | _ =>
      refine iff_of_false (fun h => ?_) ?_
      · cases h
      · rintro ⟨fields, _, _, h, _⟩
        cases h

omit [VersionRangeSet S V] [SemverRange V] in
/-- On objects without other keys, the walk that rejects them is the one that need not. -/
theorem eachField_readRangeField_eq_ok {fields : List (String × Json)} {acc r : V × V}
    (hkeys : ∀ field ∈ fields, field.1 = "low" ∨ field.1 = "high") :
    eachField ProjectDependency.readRangeField fields acc = .ok r ↔
      Walk.eachField Crs.Dependency.readRangeField fields acc = .ok r := by
  unfold eachField Walk.eachField
  induction fields generalizing acc with
  | nil => simp [walkFields]
  | cons field fields ih =>
      obtain ⟨key, value⟩ := field
      obtain ⟨hkey, hrest⟩ := List.forall_mem_cons.mp hkeys
      obtain rfl | rfl : key = "low" ∨ key = "high" := hkey
      all_goals
        simp only [walkFields, ProjectDependency.readRangeField, Crs.Dependency.readRangeField,
          Option.getD_some, bind_eq_ok, pure_eq_ok, lift_eq_ok, ih hrest]

omit [VersionRangeSet S V] [SemverRange V] in
theorem projectParseVersionRange_eq_ok_iff {elem : Json} {iv : V × V}
    (hkeys : ∀ fields, elem = .obj fields → (fields.map Prod.fst).Nodup ∧
      ∀ field ∈ fields, field.1 = "low" ∨ field.1 = "high") :
    ProjectDependency.parseVersionRange elem = .ok iv ↔ SpellsInterval elem iv := by
  rw [← parseVersionRange_eq_ok_iff hkeys]
  cases elem with
  | obj fields =>
      simp only [ProjectDependency.parseVersionRange, Crs.Dependency.parseVersionRange, mapping,
        Walk.mapping, bind_eq_ok, pure_eq_ok, lift_eq_ok, requireMapping_obj, Except.ok.injEq,
        exists_eq_left', eachField_readRangeField_eq_ok (hkeys fields rfl).2]
      refine exists_congr fun read => and_congr_right fun _ => ?_
      split
      · exact iff_of_false (fun h => by cases h) (fun h => by cases h)
      · exact pure_eq_ok.trans pure_eq_ok.symm
  | _ => exact iff_of_false (fun h => by cases h) (fun h => by cases h)

/-! ## Dependencies -/

variable {name versions using_ : Json} {fields : List (String × Json)}

omit [VersionRangeSet S V] [SemverRange V] in
theorem readVersions_iff (hkeys : OnlyRangeKeys versions) {ivs : List (V × V)} :
    (∃ elems, versions = .arr elems ∧
      List.Forall₂ (fun elem iv => Crs.Dependency.parseVersionRange elem = .ok iv) elems ivs) ↔
    SpellsVersions versions ivs := by
  refine exists_congr fun elems => and_congr_right fun helems => forall₂_congr_mem ?_
  rintro elem helem iv
  exact parseVersionRange_eq_ok_iff fun fields h => hkeys elems fields helems (h ▸ helem)

omit [VersionRangeSet S V] [SemverRange V] in
theorem eachField_readField_eq_ok {walked : Crs.Dependency.Fields V}
    (hfields : fields.Perm [("name", name), ("versions", versions), ("using", using_)])
    (hkeys : OnlyRangeKeys versions) :
    Walk.eachField Crs.Dependency.readField fields {} = .ok walked ↔
      Spells name versions using_ walked.name walked.verRanges walked.uses := by
  obtain ⟨depName, ivs, uses⟩ := walked
  have hspells : Spells name versions using_ depName ivs uses ↔
      (name = .str depName.str ∧ depName.Valid) ∧ SpellsVersions versions ivs ∧
        SpellsUses using_ uses :=
    ⟨fun h => ⟨h.name, h.versions, h.uses⟩, fun h => ⟨h.1, h.2.1, h.2.2⟩⟩
  rw [hspells, ← readVersions_iff hkeys]
  rcases perm_three hfields with rfl | rfl | rfl | rfl | rfl | rfl
  all_goals
    simp [Walk.eachField, walkFields, Crs.Dependency.readField, bind_eq_ok, requireStr_eq_ok,
      requireArray_eq_ok, nameFromString_eq_ok_iff, forEach_eq_ok_iff, SpellsUses]
    grind

omit [SemverRange V] in
theorem fromData_eq_ok_iff {dep : Crs.Dependency S}
    (hfields : fields.Perm [("name", name), ("versions", versions), ("using", using_)])
    (hkeys : OnlyRangeKeys versions) :
    Crs.Dependency.fromData (.obj fields) = .ok dep ↔
      ∃ depName ivs uses, Spells name versions using_ depName ivs uses ∧ ivs ≠ [] ∧
        dep = ⟨depName, Crs.Dependency.unionOf ivs, .explicitUsesList uses⟩ := by
  have hrequired : requireKeys fields
      [("name", "A string 'name' is required for each dependency"),
       ("versions", "A 'versions' array is required for each dependency"),
       ("using", "A dependency 'using' key is required")] = .ok () :=
    requireKeys_of_perm hfields (by simp)
  simp only [Crs.Dependency.fromData, Walk.mapping, bind_eq_ok, pure_eq_ok, requireMapping_obj,
    Except.ok.injEq, exists_eq_left', eachField_readField_eq_ok hfields hkeys, hrequired]
  constructor
  · rintro ⟨walked, ⟨_, hspells, _, _, rfl⟩, h⟩
    split at h
    · cases h
    next hne =>
      cases h
      exact ⟨_, _, _, hspells, by simpa using hne, rfl⟩
  · rintro ⟨depName, ivs, uses, hspells, hne, rfl⟩
    refine ⟨⟨depName, ivs, uses⟩, ⟨_, hspells, (), trivial, rfl⟩, ?_⟩
    rw [if_neg (by simpa using hne)]
    rfl

omit [VersionRangeSet S V] [SemverRange V] in
theorem projectReadVersions_iff (hkeys : OnlyRangeKeys versions) {ivs : List (V × V)} :
    (∃ elems, versions = .arr elems ∧
      List.Forall₂ (fun elem iv => ∃ fields, requireMapping "Each 'versions' element must be an object"
        elem = .ok fields ∧ ProjectDependency.parseVersionRange elem = .ok iv) elems ivs) ↔
    SpellsVersions versions ivs := by
  refine exists_congr fun elems => and_congr_right fun helems => forall₂_congr_mem ?_
  rintro elem helem iv
  rw [← projectParseVersionRange_eq_ok_iff fun fields h => hkeys elems fields helems (h ▸ helem)]
  cases elem with
  | obj fields => simp
  | _ => exact iff_of_false nofun nofun

omit [VersionRangeSet S V] [SemverRange V] in
theorem projectEachField_readField_eq_ok {walked : ProjectDependency.Fields V}
    (hfields : fields.Perm [("dep", name), ("versions", versions), ("using", using_)])
    (hkeys : OnlyRangeKeys versions) :
    eachField ProjectDependency.readField fields {} = .ok walked ↔
      name = .str walked.depString ∧ SpellsVersions versions walked.verRanges ∧
        SpellsUses using_ walked.explicitUses ∧ walked.gotVersionsKey = true ∧
        walked.gotUsingKey = !walked.explicitUses.isEmpty := by
  obtain ⟨depString, gotVersionsKey, ivs, gotUsingKey, uses⟩ := walked
  have hempty : ∀ elems : List Json, List.Forall₂
      (fun elem (use : Name) => elem = .str use.str ∧ use.Valid) elems uses →
      elems.isEmpty = uses.isEmpty := by
    rintro _ ⟨⟩ <;> rfl
  rw [← projectReadVersions_iff hkeys]
  rcases perm_three hfields with rfl | rfl | rfl | rfl | rfl | rfl
  all_goals
    simp [eachField, walkFields, ProjectDependency.readField, bind_eq_ok, requireStr_eq_ok,
      requireArray_eq_ok, nameFromString_eq_ok_iff, mapM_eq_ok_iff, lift_eq_ok, SpellsUses]
    grind

theorem fromJsonData_eq_ok_iff [LeafResult] {read : ProjectDependency S}
    (hfields : fields.Perm [("dep", name), ("versions", versions), ("using", using_)])
    (hkeys : OnlyRangeKeys versions) :
    ProjectDependency.fromJsonData (.obj fields) = .ok read ↔
      ∃ depName ivs uses, Spells name versions using_ depName ivs uses ∧
        read = ⟨depName, Crs.Dependency.unionOf ivs, if uses = [] then none else some uses⟩ := by
  have hrequired : requireKeys fields
      [("dep", "A 'dep' key is required in a dependency object")] = .ok () :=
    requireKeys_of_perm hfields (by simp)
  simp only [ProjectDependency.fromJsonData, mapping, bind_eq_ok, pure_eq_ok, lift_eq_ok,
    requireMapping_obj, Except.ok.injEq, exists_eq_left',
    projectEachField_readField_eq_ok hfields hkeys, hrequired]
  constructor
  · rintro ⟨walked, ⟨_, ⟨hname, hversions, huses, hgot, hgotUsing⟩, _, _, heq⟩, h⟩
    subst heq
    rw [if_pos hgot] at h
    simp only [bind_eq_ok, pure_eq_ok, lift_eq_ok, nameFromString_eq_ok_iff] at h
    obtain ⟨depName, ⟨hvalid, hstr⟩, rfl⟩ := h
    refine ⟨depName, _, _, ⟨⟨by rw [hname, hstr], hvalid⟩, hversions, huses⟩, ?_⟩
    rw [hgotUsing]
    generalize ProjectDependency.Fields.explicitUses _ = uses
    cases uses <;> rfl
  · rintro ⟨depName, ivs, uses, ⟨⟨hname, hvalid⟩, hversions, huses⟩, rfl⟩
    refine ⟨⟨depName.str, true, ivs, !uses.isEmpty, uses⟩,
      ⟨_, ⟨hname, hversions, huses, rfl, rfl⟩, (), trivial, rfl⟩, ?_⟩
    simp only [bind_eq_ok, pure_eq_ok, lift_eq_ok, nameFromString_eq_ok_iff, if_true]
    refine ⟨depName, ⟨hvalid, rfl⟩, ?_⟩
    cases uses <;> rfl

omit [VersionRangeSet S V] [SemverRange V] [Semester] in
theorem SpellsVersions.eq_nil_iff {ivs : List (V × V)} (h : SpellsVersions versions ivs) :
    ivs = [] ↔ versions = .arr [] := by
  obtain ⟨elems, rfl, helems⟩ := h
  cases helems <;> simp

/-- The readers agree on the objects whose arrays are not empty. -/
theorem sameReading_iff [LeafResult] {fields fields' : List (String × Json)}
    (name versions using_ : Json)
    (hfields : fields.Perm [("dep", name), ("versions", versions), ("using", using_)])
    (hfields' : fields'.Perm [("name", name), ("versions", versions), ("using", using_)])
    (hkeys : OnlyRangeKeys versions) :
    SameReading S fields fields' ↔
      ∀ (depName : Name) (ivs : List (V × V)) (uses : List Name),
        Spells name versions using_ depName ivs uses → ivs ≠ [] ∧ uses ≠ [] := by
  unfold SameReading
  simp only [fromData_eq_ok_iff hfields' hkeys, fromJsonData_eq_ok_iff hfields hkeys]
  constructor
  · intro hsame depName ivs uses hspells
    obtain ⟨_, ivs', uses', hspells', hne, heq⟩ :=
      (hsame _).mp ⟨_, ⟨depName, ivs, uses, hspells, rfl⟩, rfl⟩
    constructor
    · rwa [Ne, hspells.versions.eq_nil_iff, ← hspells'.versions.eq_nil_iff]
    · rintro rfl
      cases congrArg Crs.Dependency.uses heq
  · intro hne dep
    constructor
    · rintro ⟨_, ⟨depName, ivs, uses, hspells, rfl⟩, rfl⟩
      obtain ⟨hivs, huses⟩ := hne depName ivs uses hspells
      refine ⟨depName, ivs, uses, hspells, hivs, ?_⟩
      rw [if_neg huses]
      rfl
    · rintro ⟨depName, ivs, uses, hspells, _, rfl⟩
      obtain ⟨_, huses⟩ := hne depName ivs uses hspells
      refine ⟨_, ⟨depName, ivs, uses, hspells, rfl⟩, ?_⟩
      rw [if_neg huses]
      rfl

end

/-! ### A dependency with one interval -/

section

attribute [local instance] Semester.permissive fooRange

def fooVersions : Json := .arr [.obj [("high", .str "0.0.2"), ("low", .str "0.0.1")]]

theorem onlyRangeKeys_foo : OnlyRangeKeys fooVersions := by
  rintro elems fields ⟨⟩ hmem
  cases List.mem_singleton.mp hmem
  exact ⟨by decide, by simp⟩

theorem sameReading_iff_foo :
    SameReading (Finset Nat)
        [("dep", .str "foo"), ("using", .arr [.str "foo"]), ("versions", fooVersions)]
        [("name", .str "foo"), ("using", .arr [.str "foo"]), ("versions", fooVersions)] ↔
      ∀ (depName : Name) (ivs : List (PatchRelease × PatchRelease)) (uses : List Name),
        Spells (.str "foo") fooVersions (.arr [.str "foo"]) depName ivs uses → ivs ≠ [] ∧ uses ≠ [] :=
  sameReading_iff (.str "foo") fooVersions (.arr [.str "foo"])
    ((List.Perm.swap _ _ _).cons _) ((List.Perm.swap _ _ _).cons _) onlyRangeKeys_foo

/-- An empty `using` array leaves the uses open in a manifest, and lists none in
metadata. -/
theorem not_sameReading :
    ¬ SameReading (Finset Nat)
      [("dep", .str "foo"), ("using", .arr []), ("versions", fooVersions)]
      [("name", .str "foo"), ("using", .arr []), ("versions", fooVersions)] := by
  obtain ⟨read, hread, hopen⟩ : ∃ read : ProjectDependency (Finset Nat),
      ProjectDependency.fromJsonData (.obj
        [("dep", .str "foo"), ("using", .arr []), ("versions", fooVersions)]) = .ok read ∧
      read.explicitUses = none := exists_ok (by decide +kernel)
  obtain ⟨dep, hdep, hlisted⟩ : ∃ dep : Crs.Dependency (Finset Nat),
      Crs.Dependency.fromData (.obj
        [("name", .str "foo"), ("using", .arr []), ("versions", fooVersions)]) = .ok dep ∧
      dep.uses = .explicitUsesList [] := exists_ok (by decide +kernel)
  intro hsame
  have hcrs := (hsame _).mp ⟨read, hread, rfl⟩
  rw [hdep, Except.ok.injEq] at hcrs
  rw [hcrs, ProjectDependency.asCrsDependency, hopen] at hlisted
  cases hlisted

end

end Bpt.Project
