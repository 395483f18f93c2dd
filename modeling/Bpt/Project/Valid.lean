-- SUMMARY: What every manifest has that was read: valid names, and library paths as a text spells them.
import Bpt.Crs.Info.Valid
import Bpt.Project.Manifest

/-!
# Valid manifests

What the reader of a manifest lets through, for each level of it. It asks less
than the reader of package metadata: uses may be left open, and paths are taken
as they are.
-/

namespace Bpt.Project

open Fallible Walk

/-! ## Walks -/

section

variable {α σ : Type}

theorem lift_eq_ok {x : Except WalkExn α} {a : α} :
    (liftM x : Except ProjectExn α) = .ok a ↔ x = .ok a := mapError_eq_ok

variable {handle : String → Json → σ → Option (Except ProjectExn σ)}

theorem eachField_keeps {P : σ → Prop}
    (hstep : ∀ key value acc acc', P acc → handle key value acc = some (.ok acc') → P acc')
    {fields : List (String × Json)} {acc r : σ} (hacc : P acc)
    (h : eachField handle fields acc = .ok r) : P r :=
  walkFields_keeps nofun hstep hacc h

/-- A walk that ends has found a handler for each key. -/
theorem eachField_establishes {P : σ → Prop} {key : String}
    (hset : ∀ value acc acc', handle key value acc = some (.ok acc') → P acc')
    (hkeep : ∀ key value acc acc', P acc → handle key value acc = some (.ok acc') → P acc')
    {fields : List (String × Json)} (hkey : ∃ field ∈ fields, field.1 = key) {acc r : σ}
    (h : eachField handle fields acc = .ok r) : P r := by
  refine walkFields_establishes nofun (fun value acc acc' hfirst => ?_) hkeep hkey h
  cases hhandle : handle key value acc with
  | none =>
      rw [hhandle] at hfirst
      cases hfirst
  | some result =>
      rw [hhandle, Option.getD_some] at hfirst
      exact hset value acc acc' (hfirst ▸ hhandle)

theorem mapping_eq_ok {required : List (String × String)} {init : σ}
    {fields : List (String × Json)} {r : σ} (h : mapping required handle init fields = .ok r) :
    eachField handle fields init = .ok r ∧ requireKeys fields required = .ok () := by
  obtain ⟨hwalk, hrequired⟩ := bind_check_eq_ok.mp h
  exact ⟨hwalk, lift_eq_ok.mp hrequired⟩

end

variable {V S U L : Type} [Semver V] [VersionRangeSet S V] [SemverRange V] [LeafResult] [NeoUrl U]
  [SpdxLicense L]

/-! ## Dependencies -/

structure ProjectDependency.Valid (dep : ProjectDependency S) : Prop where
  depName : dep.depName.Valid
  explicitUses : ∀ uses, dep.explicitUses = some uses → ∀ use ∈ uses, use.Valid

namespace ProjectDependency

omit [LeafResult] in
theorem valid_of_parseDepRangeShorthand {sv : List Char} {dep : ProjectDependency S}
    (h : parseDepRangeShorthand sv = .ok dep) : dep.depName.Valid ∧ dep.explicitUses = none := by
  unfold parseDepRangeShorthand at h
  split at h
  · cases h
  next op version _ =>
    simp only [bind_eq_ok] at h
    obtain ⟨depName, hname, h⟩ := h
    split at h
    · cases h
    · cases h
      exact ⟨(nameFromString_eq_ok_iff.mp (lift_eq_ok.mp hname)).1, rfl⟩

theorem valid_of_parseUses {remain : List Char} {uses : List Name} {rest : List Char × List Char}
    (h : parseUses remain = .ok (uses, rest)) : ∀ use ∈ uses, use.Valid := by
  induction remain using parseUses.induct generalizing uses rest with
  | case1 remain hcomma =>
      rw [parseUses, if_pos hcomma] at h
      cases h
  | case2 remain hcomma err hname =>
      rw [parseUses, if_neg hcomma, hname] at h
      cases h
  | case3 remain hcomma name hname hsep ih =>
      rw [parseUses, if_neg hcomma, hname] at h
      dsimp only at h
      rw [dif_pos hsep] at h
      obtain ⟨⟨names, rest'⟩, hrest, h⟩ := bind_eq_ok.mp h
      cases h
      exact List.forall_mem_cons.mpr ⟨Name.valid_of_fromString (LeafResult.deref_eq _ ▸ hname), ih hrest⟩
  | case4 remain hcomma name hname hsep =>
      rw [parseUses, if_neg hcomma, hname] at h
      dsimp only at h
      rw [dif_neg hsep] at h
      cases h
      exact List.forall_mem_singleton.mpr (Name.valid_of_fromString (LeafResult.deref_eq _ ▸ hname))

theorem valid_of_fromShorthandString {sv : String} {dep : ProjectDependency S}
    (h : fromShorthandString sv = .ok dep) : dep.Valid := by
  unfold fromShorthandString at h
  dsimp only at h
  split at h
  · cases h
  obtain ⟨ret, hret, h⟩ := bind_eq_ok.mp h
  obtain ⟨hname, hnone⟩ := valid_of_parseDepRangeShorthand hret
  split at h
  · cases h
    exact ⟨hname, by simp [hnone]⟩
  split at h
  · cases h
  obtain ⟨⟨uses, tok, remain⟩, huses, h⟩ := bind_eq_ok.mp h
  dsimp only at h
  split at h
  · cases h
  · cases h
    refine ⟨hname, ?_⟩
    rintro _ ⟨⟩
    exact valid_of_parseUses huses

omit [SemverRange V] [LeafResult] in
/-- What is read of a dependency may become one. -/
theorem valid_of_readField {key : String} {value : Json} {acc acc' : Fields V}
    (hacc : ∀ use ∈ acc.explicitUses, use.Valid)
    (h : readField key value acc = some (.ok acc')) : ∀ use ∈ acc'.explicitUses, use.Valid := by
  unfold readField at h
  split at h
  all_goals
    simp only [Option.some.injEq, bind_eq_ok, pure_eq_ok, reduceCtorEq] at h
  · obtain ⟨_, _, rfl⟩ := h
    exact hacc
  · obtain ⟨_, _, _, _, rfl⟩ := h
    exact hacc
  · obtain ⟨_, _, uses, huses, rfl⟩ := h
    refine List.forall_mem_append.mpr ⟨hacc, fun use huse => ?_⟩
    obtain ⟨elem, _, hread⟩ := exists_mem_of_mem_mapM huses huse
    obtain ⟨_, _, hname⟩ := bind_eq_ok.mp hread
    exact (nameFromString_eq_ok_iff.mp (lift_eq_ok.mp hname)).1

theorem valid_of_fromJsonData {data : Json} {dep : ProjectDependency S}
    (h : fromJsonData data = .ok dep) : dep.Valid := by
  unfold fromJsonData at h
  split at h
  · exact valid_of_fromShorthandString h
  obtain ⟨fields, _, h⟩ := bind_eq_ok.mp h
  obtain ⟨walked, hwalk, h⟩ := bind_eq_ok.mp h
  have huses : ∀ use ∈ walked.explicitUses, use.Valid :=
    eachField_keeps (P := fun acc => ∀ use ∈ acc.explicitUses, use.Valid)
      (fun _ _ _ _ hacc hfield => valid_of_readField hacc hfield) (by simp) (mapping_eq_ok hwalk).1
  have huses' : ∀ uses, (if walked.gotUsingKey then some walked.explicitUses else none) = some uses →
      ∀ use ∈ uses, use.Valid := by
    intro uses hsome
    split at hsome
    · cases hsome
      exact huses
    · cases hsome
  dsimp only at h
  split at h
  · simp only [bind_eq_ok, pure_eq_ok] at h
    obtain ⟨name, hname, rfl⟩ := h
    exact ⟨(nameFromString_eq_ok_iff.mp (lift_eq_ok.mp hname)).1, huses'⟩
  · simp only [bind_eq_ok, pure_eq_ok] at h
    obtain ⟨partial_, hpartial, rfl⟩ := h
    exact ⟨(valid_of_parseDepRangeShorthand hpartial).1, huses'⟩

theorem valid_of_mapM {elems : List Json} {deps : List (ProjectDependency S)}
    (h : elems.mapM fromJsonData = .ok deps) : ∀ dep ∈ deps, dep.Valid := by
  intro dep hdep
  obtain ⟨_, _, hread⟩ := exists_mem_of_mem_mapM h hdep
  exact valid_of_fromJsonData hread

end ProjectDependency

/-! ## Libraries -/

structure ProjectLibrary.Valid (lib : ProjectLibrary S) : Prop where
  name : lib.name.Valid
  relpath : lib.relpath.Legible
  intraUsing : ∀ name ∈ lib.intraUsing, name.Valid
  intraTestUsing : ∀ name ∈ lib.intraTestUsing, name.Valid
  libDependencies : ∀ dep ∈ lib.libDependencies, dep.Valid
  testDependencies : ∀ dep ∈ lib.testDependencies, dep.Valid

namespace ProjectLibrary

variable [Semester]

/-- What the handlers of the fields do. -/
theorem readField_cases {key : String} {value : Json} {acc acc' : ProjectLibrary S}
    (h : readField key value acc = some (.ok acc')) :
    (∃ name : Name, name.Valid ∧ acc' = { acc with name := name }) ∨
    (∃ relpath : Path, relpath.Legible ∧ key ≠ "name" ∧ acc' = { acc with relpath := relpath }) ∨
    (∃ names : List Name, (∀ name ∈ names, name.Valid) ∧ key ≠ "name" ∧
      acc' = { acc with intraUsing := acc.intraUsing ++ names }) ∨
    (∃ names : List Name, (∀ name ∈ names, name.Valid) ∧ key ≠ "name" ∧
      acc' = { acc with intraTestUsing := acc.intraTestUsing ++ names }) ∨
    (∃ deps : List (ProjectDependency S), (∀ dep ∈ deps, dep.Valid) ∧ key ≠ "name" ∧
      acc' = { acc with libDependencies := acc.libDependencies ++ deps }) ∨
    (∃ deps : List (ProjectDependency S), (∀ dep ∈ deps, dep.Valid) ∧ key ≠ "name" ∧
      acc' = { acc with testDependencies := acc.testDependencies ++ deps }) := by
  have hnames : ∀ {key : String} {elems : List Json} {names : List Name},
      elems.mapM (recordUsings key) = .ok names → ∀ name ∈ names, name.Valid := by
    intro key elems names hread name hname
    obtain ⟨_, _, helem⟩ := exists_mem_of_mem_mapM hread hname
    obtain ⟨_, _, hn⟩ := bind_eq_ok.mp helem
    exact (nameFromString_eq_ok_iff.mp (lift_eq_ok.mp hn)).1
  unfold readField at h
  split at h
  all_goals
    simp only [Option.some.injEq, bind_eq_ok, pure_eq_ok, reduceCtorEq] at h
  · obtain ⟨_, _, name, hname, rfl⟩ := h
    exact .inl ⟨name, (nameFromString_eq_ok_iff.mp (lift_eq_ok.mp hname)).1, rfl⟩
  · obtain ⟨str, _, rfl⟩ := h
    exact .inr (.inl ⟨_, Path.legible_ofString str, by decide, rfl⟩)
  · obtain ⟨_, _, names, hread, rfl⟩ := h
    exact .inr (.inr (.inl ⟨names, hnames hread, by decide, rfl⟩))
  · obtain ⟨_, _, names, hread, rfl⟩ := h
    exact .inr (.inr (.inr (.inl ⟨names, hnames hread, by decide, rfl⟩)))
  · obtain ⟨_, _, deps, hread, rfl⟩ := h
    exact .inr (.inr (.inr (.inr (.inl
      ⟨deps, ProjectDependency.valid_of_mapM hread, by decide, rfl⟩))))
  · obtain ⟨_, _, deps, hread, rfl⟩ := h
    exact .inr (.inr (.inr (.inr (.inr
      ⟨deps, ProjectDependency.valid_of_mapM hread, by decide, rfl⟩))))

/-- The library is valid but for its name. -/
structure ValidFields (acc : ProjectLibrary S) : Prop where
  relpath : acc.relpath.Legible
  intraUsing : ∀ name ∈ acc.intraUsing, name.Valid
  intraTestUsing : ∀ name ∈ acc.intraTestUsing, name.Valid
  libDependencies : ∀ dep ∈ acc.libDependencies, dep.Valid
  testDependencies : ∀ dep ∈ acc.testDependencies, dep.Valid

theorem valid_of_fromJsonData {data : Json} {lib : ProjectLibrary S}
    (h : fromJsonData data = .ok lib) : lib.Valid := by
  obtain ⟨fields, _, hwalk⟩ := bind_eq_ok.mp h
  obtain ⟨hwalk, hrequired⟩ := mapping_eq_ok hwalk
  have hfields : lib.ValidFields := by
    refine eachField_keeps ?_ ⟨⟨by simp, by simp⟩, by simp, by simp, by simp, by simp⟩ hwalk
    intro key value acc acc' hacc hfield
    obtain ⟨hp, hu, htu, hd, htd⟩ := hacc
    obtain ⟨_, _, rfl⟩ | ⟨_, hn, _, rfl⟩ | ⟨_, hn, _, rfl⟩ | ⟨_, hn, _, rfl⟩ | ⟨_, hn, _, rfl⟩ |
      ⟨_, hn, _, rfl⟩ := readField_cases hfield
    · exact ⟨hp, hu, htu, hd, htd⟩
    · exact ⟨hn, hu, htu, hd, htd⟩
    · exact ⟨hp, List.forall_mem_append.mpr ⟨hu, hn⟩, htu, hd, htd⟩
    · exact ⟨hp, hu, List.forall_mem_append.mpr ⟨htu, hn⟩, hd, htd⟩
    · exact ⟨hp, hu, htu, List.forall_mem_append.mpr ⟨hd, hn⟩, htd⟩
    · exact ⟨hp, hu, htu, hd, List.forall_mem_append.mpr ⟨htd, hn⟩⟩
  have hname : lib.name.Valid := by
    refine eachField_establishes (P := fun acc => acc.name.Valid) ?_ ?_
      (requireKeys_eq_ok hrequired List.mem_cons_self) hwalk
    · intro value acc acc' hfield
      obtain ⟨_, hname, rfl⟩ | ⟨_, _, hkey, _⟩ | ⟨_, _, hkey, _⟩ | ⟨_, _, hkey, _⟩ |
        ⟨_, _, hkey, _⟩ | ⟨_, _, hkey, _⟩ := readField_cases hfield
      · exact hname
      all_goals exact absurd rfl hkey
    · intro key value acc acc' hacc hfield
      obtain ⟨_, hname, rfl⟩ | ⟨_, _, _, rfl⟩ | ⟨_, _, _, rfl⟩ | ⟨_, _, _, rfl⟩ |
        ⟨_, _, _, rfl⟩ | ⟨_, _, _, rfl⟩ := readField_cases hfield
      · exact hname
      all_goals exact hacc
  exact ⟨hname, hfields.relpath, hfields.intraUsing, hfields.intraTestUsing,
    hfields.libDependencies, hfields.testDependencies⟩

theorem valid_of_parseRootLib {fields : List (String × Json)} {lib : ProjectLibrary S}
    (h : parseRootLib fields = .ok lib) : lib.Valid := by
  unfold parseRootLib at h
  split at h
  · cases h
  · exact valid_of_fromJsonData h

end ProjectLibrary

/-! ## Manifests -/

structure ProjectManifest.Valid (m : ProjectManifest V S U L) : Prop where
  name : m.name.Valid
  libraries : ∀ lib ∈ m.libraries, lib.Valid
  rootDependencies : ∀ dep ∈ m.rootDependencies, dep.Valid
  rootTestDependencies : ∀ dep ∈ m.rootTestDependencies, dep.Valid

namespace ProjectManifest

variable [Semester] {tree : FileTree} {projDir : Option Path}

/-- The name, the libraries and the dependencies are the same. -/
structure SameParts (m m' : ProjectManifest V S U L) : Prop where
  name : m'.name = m.name
  libraries : m'.libraries = m.libraries
  rootDependencies : m'.rootDependencies = m.rootDependencies
  rootTestDependencies : m'.rootTestDependencies = m.rootTestDependencies

/-- What the handlers of the fields do. -/
theorem readField_cases {key : String} {value : Json} {acc acc' : ProjectManifest V S U L}
    (h : readField tree projDir key value acc = some (.ok acc')) :
    (∃ name : Name, name.Valid ∧ acc' = { acc with name := name }) ∨
    (∃ deps : List (ProjectDependency S), (∀ dep ∈ deps, dep.Valid) ∧ key ≠ "name" ∧
      acc' = { acc with rootDependencies := acc.rootDependencies ++ deps }) ∨
    (∃ deps : List (ProjectDependency S), (∀ dep ∈ deps, dep.Valid) ∧ key ≠ "name" ∧
      acc' = { acc with rootTestDependencies := acc.rootTestDependencies ++ deps }) ∨
    (∃ libs : List (ProjectLibrary S), (∀ lib ∈ libs, lib.Valid) ∧ key ≠ "name" ∧
      acc' = { acc with libraries := acc.libraries ++ libs }) ∨
    (key ≠ "name" ∧ SameParts acc acc') := by
  unfold readField at h
  split at h
  all_goals
    simp only [Option.some.injEq, bind_eq_ok, pure_eq_ok, reduceCtorEq, Except.ok.injEq] at h
  case h_1 =>
    obtain ⟨_, _, name, hname, rfl⟩ := h
    exact .inl ⟨name, (nameFromString_eq_ok_iff.mp (lift_eq_ok.mp hname)).1, rfl⟩
  case h_3 =>
    obtain ⟨_, _, deps, hread, rfl⟩ := h
    exact .inr (.inl ⟨deps, ProjectDependency.valid_of_mapM hread, by decide, rfl⟩)
  case h_4 =>
    obtain ⟨_, _, deps, hread, rfl⟩ := h
    exact .inr (.inr (.inl ⟨deps, ProjectDependency.valid_of_mapM hread, by decide, rfl⟩))
  case h_5 =>
    obtain ⟨_, _, lib, hread, rfl⟩ := h
    have hlib := ProjectLibrary.valid_of_parseRootLib hread
    exact .inr (.inr (.inr (.inl ⟨[lib], by simpa using hlib, by decide, rfl⟩)))
  case h_6 =>
    obtain ⟨_, _, libs, hread, rfl⟩ := h
    refine .inr (.inr (.inr (.inl ⟨libs, fun lib hlib => ?_, by decide, rfl⟩)))
    obtain ⟨_, _, helem⟩ := exists_mem_of_mem_mapM hread hlib
    exact ProjectLibrary.valid_of_fromJsonData helem
  -- the other fields do not touch these parts
  all_goals
    refine .inr (.inr (.inr (.inr ⟨by decide, ?_⟩)))
  case h_7 | h_8 =>
    rw [← h]
    exact ⟨rfl, rfl, rfl, rfl⟩
  case h_2 | h_15 | h_16 =>
    obtain ⟨_, _, _, _, rfl⟩ := h
    exact ⟨rfl, rfl, rfl, rfl⟩
  all_goals
    obtain ⟨_, _, rfl⟩ := h
    exact ⟨rfl, rfl, rfl, rfl⟩

/-- The manifest is valid but for its name. -/
structure ValidParts (acc : ProjectManifest V S U L) : Prop where
  libraries : ∀ lib ∈ acc.libraries, lib.Valid
  rootDependencies : ∀ dep ∈ acc.rootDependencies, dep.Valid
  rootTestDependencies : ∀ dep ∈ acc.rootTestDependencies, dep.Valid

/-- A manifest that was read is valid. -/
theorem valid_of_fromJsonData {data : Json} {m : ProjectManifest V S U L}
    (h : fromJsonData tree projDir data = .ok m) : m.Valid := by
  obtain ⟨fields, _, h⟩ := bind_eq_ok.mp h
  obtain ⟨ret, hwalk, h⟩ := bind_eq_ok.mp h
  split at h
  · cases h
  cases h
  obtain ⟨hwalk, hrequired⟩ := mapping_eq_ok hwalk
  have hparts : m.ValidParts := by
    refine eachField_keeps ?_ ⟨by simp, by simp, by simp⟩ hwalk
    intro key value acc acc' hacc hfield
    obtain ⟨hl, hd, htd⟩ := hacc
    obtain ⟨_, _, rfl⟩ | ⟨_, hn, _, rfl⟩ | ⟨_, hn, _, rfl⟩ | ⟨_, hn, _, rfl⟩ | ⟨_, hsame⟩ :=
      readField_cases hfield
    · exact ⟨hl, hd, htd⟩
    · exact ⟨hl, List.forall_mem_append.mpr ⟨hd, hn⟩, htd⟩
    · exact ⟨hl, hd, List.forall_mem_append.mpr ⟨htd, hn⟩⟩
    · exact ⟨List.forall_mem_append.mpr ⟨hl, hn⟩, hd, htd⟩
    · exact ⟨hsame.libraries ▸ hl, hsame.rootDependencies ▸ hd, hsame.rootTestDependencies ▸ htd⟩
  have hname : m.name.Valid := by
    refine eachField_establishes (P := fun acc => acc.name.Valid) ?_ ?_
      (requireKeys_eq_ok hrequired List.mem_cons_self) hwalk
    · intro value acc acc' hfield
      obtain ⟨_, hname, rfl⟩ | ⟨_, _, hkey, _⟩ | ⟨_, _, hkey, _⟩ | ⟨_, _, hkey, _⟩ | ⟨hkey, _⟩ :=
        readField_cases hfield
      · exact hname
      all_goals exact absurd rfl hkey
    · intro key value acc acc' hacc hfield
      obtain ⟨_, hname, rfl⟩ | ⟨_, _, _, rfl⟩ | ⟨_, _, _, rfl⟩ | ⟨_, _, _, rfl⟩ | ⟨_, hsame⟩ :=
        readField_cases hfield
      · exact hname
      · exact hacc
      · exact hacc
      · exact hacc
      · exact hsame.name ▸ hacc
  exact ⟨hname, hparts.libraries, hparts.rootDependencies, hparts.rootTestDependencies⟩

end ProjectManifest

end Bpt.Project
