-- SUMMARY: What every package has that was read from metadata: valid names, inner library paths, listed uses and accepted versions.
import Bpt.Crs.Info.Package
import Bpt.Util.PathText

/-!
# Valid packages

The types of package metadata hold more than the reader lets through. What it
lets through is collected here, for each level of the format.
-/

namespace Bpt

open Fallible Walk

/-- The name is one that `Name.fromString` accepts. -/
def Name.Valid (n : Name) : Prop := Name.fromString n.str = .ok n

theorem Name.valid_of_fromString {s : String} {n : Name} (h : Name.fromString s = .ok n) :
    n.Valid := by
  unfold Name.Valid
  rwa [Name.fromString_str h]

theorem nameFromString_eq_ok_iff {s : String} {n : Name} :
    nameFromString s = .ok n ↔ n.Valid ∧ n.str = s := by
  constructor
  · intro h
    exact ⟨Name.valid_of_fromString (mapError_eq_ok.mp h), nameFromString_eq_ok h⟩
  · rintro ⟨h, rfl⟩
    exact mapError_eq_ok.mpr h

theorem valid_of_forEach {read : Reader Name} (hread : ∀ elem n, read elem = .ok n → n.Valid)
    {elems : List Json} {names : List Name} (h : forEach read elems = .ok names) :
    ∀ n ∈ names, n.Valid := by
  intro n hn
  obtain ⟨elem, _, helem⟩ := exists_read_of_mem h hn
  exact hread elem n helem

end Bpt

namespace Bpt.Crs

open Fallible Walk

variable {V S : Type} [Semver V] [VersionRangeSet S V]

/-! ## Dependencies -/

structure Dependency.Valid (dep : Dependency S) : Prop where
  name : dep.name.Valid
  versions : IntervalOps.iterIntervals dep.acceptableVersions ≠ []
  uses : ∃ uses, dep.uses = .explicitUsesList uses ∧ ∀ use ∈ uses, use.Valid

namespace Dependency

/-- The set that is read from a list of intervals. -/
def unionOf (ivs : List (V × V)) : S :=
  ivs.foldl (fun acc iv => IntervalOps.union acc (IntervalOps.ofInterval iv.1 iv.2))
    IntervalOps.emptySet

theorem mem_foldl_union {ivs : List (V × V)} (h : ∀ iv ∈ ivs, iv.1 < iv.2) (s : S) (v : V) :
    IntervalOps.Mem
        (ivs.foldl (fun acc iv => IntervalOps.union acc (IntervalOps.ofInterval iv.1 iv.2)) s) v ↔
      IntervalOps.Mem s v ∨ ∃ iv ∈ ivs, iv.1 ≤ v ∧ v < iv.2 := by
  induction ivs generalizing s with
  | nil => simp
  | cons iv ivs ih =>
      have hiv : IntervalOps.Mem (IntervalOps.ofInterval iv.1 iv.2 : S) v ↔
          iv.1 ≤ v ∧ v < iv.2 := by
        unfold IntervalOps.Mem
        rw [VersionRangeSet.iterIntervals_ofInterval _ _ (h iv List.mem_cons_self)]
        simp
      rw [List.foldl_cons, ih fun iv' hiv' => h iv' (List.mem_cons_of_mem _ hiv'),
        VersionRangeSet.mem_union, hiv]
      simp [or_assoc]

theorem mem_unionOf {ivs : List (V × V)} (h : ∀ iv ∈ ivs, iv.1 < iv.2) (v : V) :
    IntervalOps.Mem (unionOf ivs : S) v ↔ ∃ iv ∈ ivs, iv.1 ≤ v ∧ v < iv.2 := by
  have hempty : ¬ IntervalOps.Mem (IntervalOps.emptySet : S) v := by
    unfold IntervalOps.Mem
    rw [VersionRangeSet.iterIntervals_emptySet]
    simp
  unfold unionOf
  rw [mem_foldl_union h, or_iff_right hempty]

/-- A set that was read from at least one interval is not empty. -/
theorem iterIntervals_unionOf_ne_nil {ivs : List (V × V)} (h : ∀ iv ∈ ivs, iv.1 < iv.2)
    (hne : ivs ≠ []) : IntervalOps.iterIntervals (unionOf ivs : S) ≠ [] := by
  obtain ⟨iv, hiv⟩ := List.exists_mem_of_ne_nil ivs hne
  obtain ⟨iv', hiv', _⟩ := (mem_unionOf (S := S) h iv.1).mpr ⟨iv, hiv, le_rfl, h iv hiv⟩
  exact List.ne_nil_of_mem hiv'

variable [Semester]

omit [VersionRangeSet S V] in
theorem parseVersionRange_lt {range : Json} {iv : V × V} (h : parseVersionRange range = .ok iv) :
    iv.1 < iv.2 := by
  simp only [parseVersionRange, bind_eq_ok] at h
  obtain ⟨_, _, ⟨low, high⟩, _, h⟩ := h
  dsimp only at h
  split at h
  · cases h
  next hle =>
    cases h
    exact lt_of_le_not_ge ((Semver.le_total low high).resolve_right hle) hle

/-- What is read of a dependency may become one. -/
structure Fields.Valid (acc : Fields V) : Prop where
  verRanges : ∀ iv ∈ acc.verRanges, iv.1 < iv.2
  uses : ∀ use ∈ acc.uses, use.Valid

omit [VersionRangeSet S V] in
/-- What the handlers of the fields do. -/
theorem readField_cases {key : String} {value : Json} {acc acc' : Fields V}
    (h : readField key value acc = some (.ok acc')) :
    (∃ name : Name, name.Valid ∧ acc' = { acc with name := name }) ∨
    (∃ ivs : List (V × V), (∀ iv ∈ ivs, iv.1 < iv.2) ∧
      acc' = { acc with verRanges := acc.verRanges ++ ivs }) ∨
    (∃ uses : List Name, (∀ use ∈ uses, use.Valid) ∧
      acc' = { acc with uses := acc.uses ++ uses }) ∨
    acc' = acc := by
  unfold readField at h
  split at h
  all_goals
    simp only [Option.some.injEq, bind_eq_ok, pure_eq_ok, reduceCtorEq, Except.ok.injEq] at h
  · obtain ⟨_, _, name, hname, rfl⟩ := h
    exact .inl ⟨name, (nameFromString_eq_ok_iff.mp hname).1, rfl⟩
  · obtain ⟨_, _, ivs, hivs, rfl⟩ := h
    refine .inr (.inl ⟨ivs, fun iv hiv => ?_, rfl⟩)
    obtain ⟨_, _, hread⟩ := exists_read_of_mem hivs hiv
    exact parseVersionRange_lt hread
  · obtain ⟨_, _, uses, huses, rfl⟩ := h
    refine .inr (.inr (.inl ⟨uses, valid_of_forEach ?_ huses, rfl⟩))
    intro elem n helem
    obtain ⟨s, _, hn⟩ := bind_eq_ok.mp helem
    exact (nameFromString_eq_ok_iff.mp hn).1
  · exact .inr (.inr (.inr h.symm))

theorem valid_of_fromData {data : Json} {dep : Dependency S} (h : fromData data = .ok dep) :
    dep.Valid := by
  simp only [fromData, bind_eq_ok] at h
  obtain ⟨fields, _, ret, hwalk, h⟩ := h
  have hvalid : ret.Valid := by
    refine eachField_keeps ?_ ⟨by simp, by simp⟩ (mapping_eq_ok hwalk).1
    intro key value acc acc' hacc hfield
    obtain ⟨name, _, rfl⟩ | ⟨ivs, hivs, rfl⟩ | ⟨uses, huses, rfl⟩ | rfl := readField_cases hfield
    · exact ⟨hacc.verRanges, hacc.uses⟩
    · exact ⟨List.forall_mem_append.mpr ⟨hacc.verRanges, hivs⟩, hacc.uses⟩
    · exact ⟨hacc.verRanges, List.forall_mem_append.mpr ⟨hacc.uses, huses⟩⟩
    · exact hacc
  have hname : ret.name.Valid := by
    refine mapping_establishes (P := fun acc => acc.name.Valid) hwalk List.mem_cons_self
      (fun value acc => ⟨_, rfl, ?_⟩) ?_
    · intro acc' h
      simp only [bind_eq_ok, pure_eq_ok] at h
      obtain ⟨_, _, name, hname, rfl⟩ := h
      exact (nameFromString_eq_ok_iff.mp hname).1
    · intro key value acc acc' hacc hfield
      obtain ⟨name, hname, rfl⟩ | ⟨_, _, rfl⟩ | ⟨_, _, rfl⟩ | rfl := readField_cases hfield
      · exact hname
      · exact hacc
      · exact hacc
      · exact hacc
  split at h
  · cases h
  next hne =>
    cases h
    exact ⟨hname, iterIntervals_unionOf_ne_nil hvalid.verRanges (by simpa using hne),
      _, rfl, hvalid.uses⟩

end Dependency

/-! ## Libraries -/

/-- The path is in normal form, relative, and does not leave the package. -/
def InnerPath (p : Path) : Prop :=
  p.lexicallyNormal = p ∧ p.hasRootPath = false ∧ p.startsWithDotDot = false

instance (p : Path) : Decidable (InnerPath p) := inferInstanceAs (Decidable (_ ∧ _ ∧ _))

structure LibraryInfo.Valid (lib : LibraryInfo S) : Prop where
  name : lib.name.Valid
  legible : lib.path.Legible
  path : InnerPath lib.path
  intraUsing : ∀ name ∈ lib.intraUsing, name.Valid
  intraTestUsing : ∀ name ∈ lib.intraTestUsing, name.Valid
  dependencies : ∀ dep ∈ lib.dependencies, dep.Valid
  testDependencies : ∀ dep ∈ lib.testDependencies, dep.Valid

namespace LibraryInfo

theorem normalizeLibraryPath_eq_ok {s : String} {p : Path} :
    normalizeLibraryPath s = .ok p ↔
      p = (Path.ofString s).lexicallyNormal ∧ p.hasRootPath = false ∧
        p.startsWithDotDot = false := by
  unfold normalizeLibraryPath
  dsimp only
  split
  next h =>
    refine iff_of_false (by simp) ?_
    rintro ⟨rfl, hroot, _⟩
    simp [h] at hroot
  split
  next h =>
    refine iff_of_false (by simp) ?_
    rintro ⟨rfl, _, hdots⟩
    simp [h] at hdots
  next hroot hdots =>
    rw [Except.ok.injEq]
    constructor
    · rintro rfl
      exact ⟨rfl, by simpa using hroot, by simpa using hdots⟩
    · exact fun h => h.1.symm

/-- A path that is read is inside the package. -/
theorem innerPath_of_normalizeLibraryPath {s : String} {p : Path}
    (h : normalizeLibraryPath s = .ok p) : p.Legible ∧ InnerPath p := by
  obtain ⟨rfl, hroot, hdots⟩ := normalizeLibraryPath_eq_ok.mp h
  exact ⟨Path.legible_lexicallyNormal (Path.legible_ofString s), Path.lexicallyNormal_idem _,
    hroot, hdots⟩

/-- An inner path is read back from what it prints. -/
theorem normalizeLibraryPath_toGenericString {p : Path} (hp : p.Legible) (h : InnerPath p) :
    normalizeLibraryPath p.toGenericString = .ok p := by
  rw [normalizeLibraryPath_eq_ok, Path.ofString_toGenericString hp]
  exact ⟨h.1.symm, h.2⟩

variable [Semester]

/-- What the handlers of the fields do. -/
theorem readField_cases {key : String} {value : Json} {acc acc' : LibraryInfo S}
    (h : readField key value acc = some (.ok acc')) :
    (∃ name : Name, name.Valid ∧ acc' = { acc with name := name }) ∨
    (∃ path : Path, path.Legible ∧ InnerPath path ∧ acc' = { acc with path := path }) ∨
    (∃ names : List Name, (∀ name ∈ names, name.Valid) ∧
      acc' = { acc with intraUsing := acc.intraUsing ++ names }) ∨
    (∃ names : List Name, (∀ name ∈ names, name.Valid) ∧
      acc' = { acc with intraTestUsing := acc.intraTestUsing ++ names }) ∨
    (∃ deps : List (Dependency S), (∀ dep ∈ deps, dep.Valid) ∧
      acc' = { acc with dependencies := acc.dependencies ++ deps }) ∨
    (∃ deps : List (Dependency S), (∀ dep ∈ deps, dep.Valid) ∧
      acc' = { acc with testDependencies := acc.testDependencies ++ deps }) ∨
    acc' = acc := by
  have hnames : ∀ {elems : List Json} {names : List Name},
      forEach (fun elem => do nameFromString (← asString elem)) elems = .ok names →
      ∀ name ∈ names, name.Valid := by
    intro elems names hread
    refine valid_of_forEach (fun elem n helem => ?_) hread
    obtain ⟨_, _, hn⟩ := bind_eq_ok.mp helem
    exact (nameFromString_eq_ok_iff.mp hn).1
  have hdeps : ∀ {elems : List Json} {deps : List (Dependency S)},
      forEach Dependency.fromData elems = .ok deps → ∀ dep ∈ deps, dep.Valid := by
    intro elems deps hread dep hdep
    obtain ⟨_, _, helem⟩ := exists_read_of_mem hread hdep
    exact Dependency.valid_of_fromData helem
  unfold readField at h
  split at h
  all_goals
    simp only [Option.some.injEq, bind_eq_ok, pure_eq_ok, reduceCtorEq, Except.ok.injEq] at h
  · obtain ⟨_, _, name, hname, rfl⟩ := h
    exact .inl ⟨name, (nameFromString_eq_ok_iff.mp hname).1, rfl⟩
  · obtain ⟨_, _, path, hpath, rfl⟩ := h
    obtain ⟨hlegible, hinner⟩ := innerPath_of_normalizeLibraryPath hpath
    exact .inr (.inl ⟨path, hlegible, hinner, rfl⟩)
  · obtain ⟨_, _, names, hread, rfl⟩ := h
    exact .inr (.inr (.inl ⟨names, hnames hread, rfl⟩))
  · obtain ⟨_, _, names, hread, rfl⟩ := h
    exact .inr (.inr (.inr (.inl ⟨names, hnames hread, rfl⟩)))
  · obtain ⟨_, _, deps, hread, rfl⟩ := h
    exact .inr (.inr (.inr (.inr (.inl ⟨deps, hdeps hread, rfl⟩))))
  · obtain ⟨_, _, deps, hread, rfl⟩ := h
    exact .inr (.inr (.inr (.inr (.inr (.inl ⟨deps, hdeps hread, rfl⟩)))))
  · exact .inr (.inr (.inr (.inr (.inr (.inr h.symm)))))

/-- What is read of a library may become one. -/
structure ValidLists (acc : LibraryInfo S) : Prop where
  intraUsing : ∀ name ∈ acc.intraUsing, name.Valid
  intraTestUsing : ∀ name ∈ acc.intraTestUsing, name.Valid
  dependencies : ∀ dep ∈ acc.dependencies, dep.Valid
  testDependencies : ∀ dep ∈ acc.testDependencies, dep.Valid

theorem valid_of_fromData {data : Json} {lib : LibraryInfo S} (h : fromData data = .ok lib) :
    lib.Valid := by
  simp only [fromData, bind_eq_ok] at h
  obtain ⟨fields, _, hwalk⟩ := h
  have hlists : lib.ValidLists := by
    refine eachField_keeps ?_ ⟨by simp, by simp, by simp, by simp⟩ (mapping_eq_ok hwalk).1
    intro key value acc acc' hacc hfield
    obtain ⟨hu, htu, hd, htd⟩ := hacc
    obtain ⟨_, _, rfl⟩ | ⟨_, _, _, rfl⟩ | ⟨names, hn, rfl⟩ | ⟨names, hn, rfl⟩ | ⟨deps, hn, rfl⟩ |
      ⟨deps, hn, rfl⟩ | rfl := readField_cases hfield
    · exact ⟨hu, htu, hd, htd⟩
    · exact ⟨hu, htu, hd, htd⟩
    · exact ⟨List.forall_mem_append.mpr ⟨hu, hn⟩, htu, hd, htd⟩
    · exact ⟨hu, List.forall_mem_append.mpr ⟨htu, hn⟩, hd, htd⟩
    · exact ⟨hu, htu, List.forall_mem_append.mpr ⟨hd, hn⟩, htd⟩
    · exact ⟨hu, htu, hd, List.forall_mem_append.mpr ⟨htd, hn⟩⟩
    · exact ⟨hu, htu, hd, htd⟩
  have hname : lib.name.Valid := by
    refine mapping_establishes (P := fun acc => acc.name.Valid) hwalk List.mem_cons_self
      (fun value acc => ⟨_, rfl, fun acc' hset => ?_⟩) fun key value acc acc' hacc hfield => ?_
    · simp only [bind_eq_ok, pure_eq_ok] at hset
      obtain ⟨_, _, name, hname, rfl⟩ := hset
      exact (nameFromString_eq_ok_iff.mp hname).1
    · obtain ⟨_, hname, rfl⟩ | ⟨_, _, _, rfl⟩ | ⟨_, _, rfl⟩ | ⟨_, _, rfl⟩ | ⟨_, _, rfl⟩ |
        ⟨_, _, rfl⟩ | rfl := readField_cases hfield
      · exact hname
      all_goals exact hacc
  have hpath : lib.path.Legible ∧ InnerPath lib.path := by
    refine mapping_establishes (P := fun acc => acc.path.Legible ∧ InnerPath acc.path) hwalk
      (List.mem_cons_of_mem _ List.mem_cons_self)
      (fun value acc => ⟨_, rfl, fun acc' hset => ?_⟩) fun key value acc acc' hacc hfield => ?_
    · simp only [bind_eq_ok, pure_eq_ok] at hset
      obtain ⟨_, _, path, hpath, rfl⟩ := hset
      exact innerPath_of_normalizeLibraryPath hpath
    · obtain ⟨_, _, rfl⟩ | ⟨_, hlegible, hinner, rfl⟩ | ⟨_, _, rfl⟩ | ⟨_, _, rfl⟩ | ⟨_, _, rfl⟩ |
        ⟨_, _, rfl⟩ | rfl := readField_cases hfield
      · exact hacc
      · exact ⟨hlegible, hinner⟩
      all_goals exact hacc
  exact ⟨hname, hpath.1, hpath.2, hlists.intraUsing, hlists.intraTestUsing, hlists.dependencies,
    hlists.testDependencies⟩

end LibraryInfo

/-! ## Packages -/

/-- The range of `int`. -/
def IntRange (i : Int) : Prop := -2147483648 ≤ i ∧ i ≤ 2147483647

instance (i : Int) : Decidable (IntRange i) := inferInstanceAs (Decidable (_ ∧ _))

structure PackageInfo.Valid (pkg : PackageInfo V S) : Prop where
  name : pkg.id.name.Valid
  revision : IntRange pkg.id.revision
  nonempty : pkg.libraries ≠ []
  libraries : ∀ lib ∈ pkg.libraries, lib.Valid

namespace PackageInfo

variable [Semester]

omit [Semester] in
theorem requireIntegerKey_range {name : String} {value : Json} {i : Int}
    (h : requireIntegerKey name value = .ok i) : IntRange i := by
  unfold requireIntegerKey at h
  split at h
  · split_ifs at h with hint
    cases h
    exact hint.2
  · cases h

/-- What the handlers of the fields do. -/
theorem readField_cases {key : String} {value : Json} {acc acc' : PackageInfo V S}
    (h : readField key value acc = some (.ok acc')) :
    (∃ name : Name, name.Valid ∧ acc' = { acc with id := { acc.id with name := name } }) ∨
    (∃ version : V, acc' = { acc with id := { acc.id with version := version } }) ∨
    (∃ revision : Int, IntRange revision ∧
      acc' = { acc with id := { acc.id with revision := revision } }) ∨
    (∃ libs : List (LibraryInfo S), (∀ lib ∈ libs, lib.Valid) ∧
      acc' = { acc with libraries := acc.libraries ++ libs }) ∨
    (∃ extra : Json, acc' = { acc with extra := extra }) ∨
    (∃ meta_ : Json, acc' = { acc with meta_ := meta_ }) ∨
    acc' = acc := by
  unfold readField at h
  split at h
  all_goals
    simp only [Option.some.injEq, bind_eq_ok, pure_eq_ok, reduceCtorEq, Except.ok.injEq] at h
  · exact .inr (.inr (.inr (.inr (.inr (.inr h.symm)))))
  · obtain ⟨_, _, name, hname, rfl⟩ := h
    exact .inl ⟨name, (nameFromString_eq_ok_iff.mp hname).1, rfl⟩
  · obtain ⟨_, _, version, _, rfl⟩ := h
    exact .inr (.inl ⟨version, rfl⟩)
  · obtain ⟨revision, hrevision, rfl⟩ := h
    exact .inr (.inr (.inl ⟨revision, requireIntegerKey_range hrevision, rfl⟩))
  · obtain ⟨_, _, libs, hread, rfl⟩ := h
    refine .inr (.inr (.inr (.inl ⟨libs, fun lib hlib => ?_, rfl⟩)))
    obtain ⟨_, _, helem⟩ := exists_read_of_mem hread hlib
    exact LibraryInfo.valid_of_fromData helem
  · exact .inr (.inr (.inr (.inr (.inr (.inr h.symm)))))
  · exact .inr (.inr (.inr (.inr (.inl ⟨value, h.symm⟩))))
  · exact .inr (.inr (.inr (.inr (.inr (.inl ⟨value, h.symm⟩)))))
  · exact .inr (.inr (.inr (.inr (.inr (.inr h.symm)))))

theorem valid_of_fromJsonDataV1 {data : Json} {pkg : PackageInfo V S}
    (h : fromJsonDataV1 data = .ok pkg) : pkg.Valid := by
  simp only [fromJsonDataV1, bind_eq_ok] at h
  obtain ⟨fields, _, ret, hwalk, h⟩ := h
  split at h
  · cases h
  next hne =>
  cases h
  have hlibs : IntRange pkg.id.revision ∧ ∀ lib ∈ pkg.libraries, lib.Valid := by
    refine eachField_keeps
      (P := fun acc => IntRange acc.id.revision ∧ ∀ lib ∈ acc.libraries, lib.Valid) ?_
      ⟨⟨by simp, by simp⟩, by simp⟩ (mapping_eq_ok hwalk).1
    intro key value acc acc' hacc hfield
    obtain ⟨_, _, rfl⟩ | ⟨_, rfl⟩ | ⟨_, hrevision, rfl⟩ | ⟨libs, hlibs, rfl⟩ | ⟨_, rfl⟩ |
      ⟨_, rfl⟩ | rfl := readField_cases hfield
    · exact hacc
    · exact hacc
    · exact ⟨hrevision, hacc.2⟩
    · exact ⟨hacc.1, List.forall_mem_append.mpr ⟨hacc.2, hlibs⟩⟩
    all_goals exact hacc
  have hname : pkg.id.name.Valid := by
    refine mapping_establishes (P := fun acc => acc.id.name.Valid) hwalk List.mem_cons_self
      (fun value acc => ⟨_, rfl, fun acc' hset => ?_⟩) fun key value acc acc' hacc hfield => ?_
    · simp only [bind_eq_ok, pure_eq_ok] at hset
      obtain ⟨_, _, name, hname, rfl⟩ := hset
      exact (nameFromString_eq_ok_iff.mp hname).1
    · obtain ⟨_, hname, rfl⟩ | ⟨_, rfl⟩ | ⟨_, _, rfl⟩ | ⟨_, _, rfl⟩ | ⟨_, rfl⟩ | ⟨_, rfl⟩ |
        rfl := readField_cases hfield
      · exact hname
      all_goals exact hacc
  exact ⟨hname, hlibs.1, by simpa using hne, hlibs.2⟩

/-- A package that was read is valid. -/
theorem valid_of_fromJsonData {data : Json} {pkg : PackageInfo V S}
    (h : fromJsonData data = .ok pkg) : pkg.Valid := by
  have hv1 := mapError_eq_ok.mp h
  split at hv1
  · split at hv1
    · cases hv1
    · split at hv1
      · exact valid_of_fromJsonDataV1 hv1
      · cases hv1
  · cases hv1

end PackageInfo

theorem PackageInfo.valid_of_fromJsonStr [Semester] {text : JsonText} {pkg : PackageInfo V S}
    (h : PackageInfo.fromJsonStr text = .ok pkg) : pkg.Valid := by
  cases text with
  | none => cases h
  | some data => exact PackageInfo.valid_of_fromJsonData h

/-! ## Printing what was read -/

theorem exists_mapM {α β : Type} {f : α → Option β} {as : List α}
    (h : ∀ a ∈ as, ∃ b, f a = some b) : ∃ bs, as.mapM f = some bs := by
  induction as with
  | nil => exact ⟨[], rfl⟩
  | cons a as ih =>
      obtain ⟨b, hb⟩ := h a List.mem_cons_self
      obtain ⟨bs, hbs⟩ := ih fun a' ha' => h a' (List.mem_cons_of_mem _ ha')
      exact ⟨b :: bs, by simp [List.mapM_cons, hb, hbs]⟩

/-- All dependencies of a library list what they use. -/
def LibraryInfo.Explicit (lib : LibraryInfo S) : Prop :=
  ∀ dep ∈ lib.dependencies ++ lib.testDependencies, ∃ uses, dep.uses = .explicitUsesList uses

theorem LibraryInfo.Valid.explicit {lib : LibraryInfo S} (h : lib.Valid) : lib.Explicit := by
  intro dep hdep
  obtain hdep | hdep := List.mem_append.mp hdep
  · obtain ⟨uses, huses, _⟩ := (h.dependencies dep hdep).uses
    exact ⟨uses, huses⟩
  · obtain ⟨uses, huses, _⟩ := (h.testDependencies dep hdep).uses
    exact ⟨uses, huses⟩

theorem Dependency.exists_toJson {dep : Dependency S} (h : ∃ uses, dep.uses = .explicitUsesList uses) :
    ∃ json, dep.toJson = some json := by
  obtain ⟨uses, huses⟩ := h
  exact ⟨_, by rw [Dependency.toJson, huses]⟩

theorem LibraryInfo.Explicit.exists_toJson {lib : LibraryInfo S} (h : lib.Explicit) :
    ∃ json, lib.toJson = some json := by
  obtain ⟨deps, hdeps⟩ := exists_mapM fun dep hdep =>
    Dependency.exists_toJson (h dep (List.mem_append_left _ hdep))
  obtain ⟨testDeps, htestDeps⟩ := exists_mapM fun dep hdep =>
    Dependency.exists_toJson (h dep (List.mem_append_right _ hdep))
  exact ⟨_, by simp only [LibraryInfo.toJson, hdeps, htestDeps, Option.bind_eq_bind,
    Option.bind_some]; rfl⟩

theorem PackageInfo.exists_toJson_of_explicit {pkg : PackageInfo V S}
    (h : ∀ lib ∈ pkg.libraries, lib.Explicit) : ∃ json, pkg.toJson = some json := by
  obtain ⟨libs, hlibs⟩ := exists_mapM fun lib hlib => (h lib hlib).exists_toJson
  exact ⟨_, by simp only [PackageInfo.toJson, hlibs, Option.bind_eq_bind, Option.bind_some]; rfl⟩

/-- Metadata that was read can be printed. -/
theorem PackageInfo.exists_toJson [Semester] {text : JsonText} {pkg : PackageInfo V S}
    (h : PackageInfo.fromJsonStr text = .ok pkg) : ∃ json, pkg.toJson = some json :=
  PackageInfo.exists_toJson_of_explicit fun lib hlib =>
    ((PackageInfo.valid_of_fromJsonStr h).libraries lib hlib).explicit

end Bpt.Crs
