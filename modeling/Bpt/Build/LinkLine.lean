-- SUMMARY: The link line of an executable: which archives are on it, and that each comes before those it depends on.
import Bpt.Build.Execution

/-!
# Link lines

A linker takes from an archive what the inputs before it lack. So the archive of a library
has to come again after the last one that uses it.
-/

namespace Bpt.Plan

open Fallible Relation Traversal UsageRequirementMap

/-- The libraries of a plan, with their keys. -/
def BuildPlan.keyed (plan : BuildPlan) : List (Usage × LibraryPlan) :=
  plan.packages.flatMap fun pkg => pkg.libraries.map fun lib => (⟨pkg.name, lib.name⟩, lib)

/-- The library uses the other one. -/
def UsesLibrary (plan : BuildPlan) (a b : Usage) : Prop :=
  ∃ lib, (a, lib) ∈ plan.keyed ∧ b ∈ lib.libUses

def HasArchive (env : CompileEnv) (plan : BuildPlan) (key : Usage) (p : Path) : Prop :=
  ∃ lib ar, (key, lib) ∈ plan.keyed ∧ lib.createArchive = some ar ∧ p = ar.outPath env

section

variable {tree : FileTree} {env : CompileEnv} {fuel : Nat} {plan : BuildPlan}

/-- The usage requirements hold the libraries of the plan, and nothing else. -/
theorem get_prepareUreqs
    (hureqs : prepareUreqs tree plan env.toolchain env.outputRoot = .ok env.ureqs) {key : Usage}
    {reqs : LmLibrary} : env.ureqs.get key = some reqs ↔
      ∃ lib, (key, lib) ∈ plan.keyed ∧ reqs = lib.libReqs tree env.toolchain env.outputRoot := by
  rw [get_eq_some, (foldlM_add_perm hureqs).mem_iff, BuildPlan.keyed]
  have hnil : (key, reqs) ∉ UsageRequirementMap.empty.reqs := List.not_mem_nil
  simp only [List.mem_append, hnil, or_false, List.mem_flatMap, List.mem_map, Prod.mk.injEq]
  constructor
  · rintro ⟨pkg, hpkg, lib, hlib, rfl, rfl⟩
    exact ⟨lib, ⟨pkg, hpkg, lib, hlib, rfl, rfl⟩, rfl⟩
  · rintro ⟨lib, ⟨pkg, hpkg, _, hlib, rfl, rfl⟩, rfl⟩
    exact ⟨pkg, hpkg, _, hlib, rfl, rfl⟩

theorem linkEdge_iff_usesLibrary
    (hureqs : prepareUreqs tree plan env.toolchain env.outputRoot = .ok env.ureqs) {a b : Usage} :
    LinkEdge env.ureqs a b ↔ UsesLibrary plan a b := by
  unfold LinkEdge UsesLibrary
  simp only [get_prepareUreqs hureqs]
  constructor
  · rintro ⟨_, ⟨lib, hlib, rfl⟩, hb | hb⟩
    · exact ⟨lib, hlib, hb⟩
    · cases hb
  · rintro ⟨lib, hlib, hb⟩
    exact ⟨_, ⟨lib, hlib, rfl⟩, .inl hb⟩

theorem linkablePath_iff_hasArchive
    (hureqs : prepareUreqs tree plan env.toolchain env.outputRoot = .ok env.ureqs) {key : Usage}
    {p : Path} :
    (∃ reqs, env.ureqs.get key = some reqs ∧ reqs.linkablePath = some p) ↔
      HasArchive env plan key p := by
  simp only [get_prepareUreqs hureqs]
  constructor
  · rintro ⟨_, ⟨lib, hlib, rfl⟩, hp⟩
    obtain ⟨ar, har, rfl⟩ := Option.map_eq_some_iff.mp hp
    exact ⟨lib, ar, hlib, har, rfl⟩
  · rintro ⟨lib, ar, hlib, har, rfl⟩
    refine ⟨_, ⟨lib, hlib, rfl⟩, ?_⟩
    rw [LibraryPlan.libReqs, har]
    rfl

theorem map_snd_keyed : plan.keyed.map Prod.snd = plan.libraries := by
  unfold BuildPlan.keyed BuildPlan.libraries
  rw [List.map_flatMap]
  refine List.flatMap_congr fun pkg _ => ?_
  rw [List.map_map]
  exact List.map_id _

theorem HasArchive.mem_archives {key : Usage} {p : Path} (h : HasArchive env plan key p) :
    ∃ ar ∈ plan.archives, p = ar.outPath env := by
  obtain ⟨lib, ar, hlib, har, rfl⟩ := h
  refine ⟨ar, Plan.mem_archives.mpr ⟨lib, ?_, har⟩, rfl⟩
  rw [← map_snd_keyed]
  exact List.mem_map_of_mem hlib

/-- An archive belongs to one library. -/
theorem HasArchive.unique (harchives : ArchivesApart tree env plan) {a b : Usage} {p : Path}
    (ha : HasArchive env plan a p) (hb : HasArchive env plan b p) : a = b := by
  let entries := plan.keyed.filterMap fun entry => entry.2.createArchive.map fun ar => (entry.1, ar)
  have hmap : (entries.map fun entry => tree.fileAt (entry.2.outPath env)) =
      plan.archives.map fun ar => tree.fileAt (ar.outPath env) := by
    rw [BuildPlan.archives, ← map_snd_keyed, List.filterMap_map, List.map_filterMap,
      List.map_filterMap]
    refine List.filterMap_congr fun entry _ => ?_
    rw [Option.map_map]
    rfl
  have hnodup : (entries.map fun entry => tree.fileAt (entry.2.outPath env)).Nodup :=
    hmap ▸ harchives.archives
  obtain ⟨lib, ar, hlib, har, rfl⟩ := ha
  obtain ⟨lib', ar', hlib', har', heq⟩ := hb
  have hmem : (a, ar) ∈ entries := List.mem_filterMap.mpr ⟨(a, lib), hlib, by simp [har]⟩
  have hmem' : (b, ar') ∈ entries := List.mem_filterMap.mpr ⟨(b, lib'), hlib', by simp [har']⟩
  have hpair := List.inj_on_of_nodup_map hnodup hmem hmem' (congrArg tree.fileAt heq)
  exact (Prod.mk.inj hpair).1

section

variable (hureqs : prepareUreqs tree plan env.toolchain env.outputRoot = .ok env.ureqs)

include hureqs

theorem edge_eq_usesLibrary :
    Edge (env.ureqs.pathNode (fun lib => lib.linkablePath.toList) fun lib => lib.uses ++ lib.links) =
      UsesLibrary plan := by
  funext a b
  exact propext (edge_iff_linkEdge.trans (linkEdge_iff_usesLibrary hureqs))

theorem exists_pathNode_iff {key : Usage} {p : Path} :
    (∃ own next, env.ureqs.pathNode (fun lib => lib.linkablePath.toList)
      (fun lib => lib.uses ++ lib.links) key = some (own, next) ∧ p ∈ own) ↔
      HasArchive env plan key p := by
  rw [← linkablePath_iff_hasArchive hureqs]
  constructor
  · rintro ⟨own, next, hnode, hp⟩
    obtain ⟨reqs, hreqs, rfl, -⟩ := pathNode_eq_some.mp hnode
    exact ⟨reqs, hreqs, Option.mem_toList.mp hp⟩
  · rintro ⟨reqs, hreqs, hp⟩
    exact ⟨_, _, pathNode_eq_some.mpr ⟨reqs, hreqs, rfl, rfl⟩, Option.mem_toList.mpr hp⟩

theorem mem_linkPaths {use : Usage} {paths : List Path}
    (h : env.ureqs.linkPaths fuel use = some (.ok paths)) {p : Path} :
    p ∈ paths ↔ ∃ b, ReflTransGen (UsesLibrary plan) use b ∧ HasArchive env plan b p := by
  obtain ⟨r, hr, h⟩ := Option.map_eq_some_iff.mp h
  obtain rfl := mapError_eq_ok.mp h
  rw [mem_traverse_iff hr, edge_eq_usesLibrary hureqs]
  simp only [← exists_pathNode_iff hureqs]
  constructor
  · rintro ⟨b, own, next, hreach, hnode, hp⟩
    exact ⟨b, hreach, own, next, hnode, hp⟩
  · rintro ⟨b, hreach, own, next, hnode, hp⟩
    exact ⟨b, own, next, hreach, hnode, hp⟩

theorem follows_linkPaths (harchives : ArchivesApart tree env plan) {use : Usage}
    {paths : List Path} (h : env.ureqs.linkPaths fuel use = some (.ok paths)) {a b : Usage}
    {p q : Path} (hab : UsesLibrary plan a b) (hp : HasArchive env plan a p)
    (hq : HasArchive env plan b q) : Follows p q paths := by
  obtain ⟨r, hr, h⟩ := Option.map_eq_some_iff.mp h
  obtain rfl := mapError_eq_ok.mp h
  refine follows_traverse (fun c own next hnode hown => ?_)
    ((edge_eq_usesLibrary hureqs).symm ▸ hab) ((exists_pathNode_iff hureqs).mpr hq) hr
  exact ((exists_pathNode_iff hureqs).mp ⟨own, next, hnode, hown⟩).unique harchives hp

end

/-- The archives on a link line are those of all libraries that the executable uses, also by
way of other libraries. And each archive is followed by those of the libraries it uses. -/
theorem inputs_order {V S : Type} {sdists : List (SdistTarget V S)}
    (hplan : prepareBuildPlan tree sdists = .ok plan)
    (hureqs : prepareUreqs tree plan env.toolchain env.outputRoot = .ok env.ureqs)
    (hwrites : WritesOnce tree env.toBuildEnv plan) (harchives : ArchivesApart tree env plan)
    {key : Usage} {lib : LibraryPlan} (hlib : (key, lib) ∈ plan.keyed) {exe : LinkExecutablePlan}
    (hexe : exe ∈ lib.linkExes) {inputs : List Path}
    (h : exe.inputs tree env fuel lib = some (.ok inputs)) :
    (∀ p, p ∈ inputs ↔ p = exe.mainCompile.calcObjectFilePath tree env.toBuildEnv ∨
      HasArchive env plan key p ∨ ∃ use ∈ exe.links, ∃ b, ReflTransGen (UsesLibrary plan) use b ∧
        HasArchive env plan b p) ∧
    ∀ a b p q, UsesLibrary plan a b → HasArchive env plan a p → HasArchive env plan b q →
      Follows p q inputs := by
  obtain ⟨r, hr, h⟩ := Option.map_eq_some_iff.mp h
  obtain ⟨parts, rfl, rfl⟩ := map_eq_ok.mp h
  have hparts := collectAll_eq_ok hr
  have hreqs := (get_prepareUreqs hureqs).mpr ⟨lib, hlib, rfl⟩
  have hlibrary : lib ∈ plan.libraries := map_snd_keyed ▸ List.mem_map_of_mem hlib
  have hown : ∀ p, p ∈ (lib.createArchive.map fun ar => ar.outPath env).toList ↔
      HasArchive env plan key p := by
    intro p
    rw [← linkablePath_iff_hasArchive hureqs, Option.mem_toList]
    exact ⟨fun hp => ⟨_, hreqs, hp⟩, fun ⟨reqs, hget, hp⟩ => by
      obtain rfl := Option.some.inj (hreqs.symm.trans hget)
      exact hp⟩
  have hmem : ∀ p, p ∈ parts.flatten ↔ ∃ use ∈ exe.links, ∃ b,
      ReflTransGen (UsesLibrary plan) use b ∧ HasArchive env plan b p := by
    intro p
    rw [List.mem_flatten]
    constructor
    · rintro ⟨part, hpart, hp⟩
      obtain ⟨use, huse, hpaths⟩ := forall₂_exists_right hparts.flip hpart
      exact ⟨use, huse, (mem_linkPaths hureqs hpaths).mp hp⟩
    · rintro ⟨use, huse, hreach⟩
      obtain ⟨part, hpart, hpaths⟩ := forall₂_exists_right hparts huse
      exact ⟨part, hpart, (mem_linkPaths hureqs hpaths).mpr hreach⟩
  refine ⟨fun p => ?_, fun a b p q hab hp hq => ?_⟩
  · rw [List.mem_cons, List.mem_append, hown, hmem]
  · have hobject : p ∉ [exe.mainCompile.calcObjectFilePath tree env.toBuildEnv] := by
      intro hmem
      obtain ⟨ar, har, heq⟩ := hp.mem_archives
      have hmain := mainCompile_mem_compilations hlibrary hexe
      refine (hwrites.apart _ hmain).2 ar har ?_
      rw [← List.mem_singleton.mp hmem, heq]
      rfl
    have hrest : Follows p q parts.flatten := follows_flatten fun part hpart => by
      obtain ⟨use, -, hpaths⟩ := forall₂_exists_right hparts.flip hpart
      exact follows_linkPaths hureqs harchives hpaths hab hp hq
    refine Follows.append (.inr (follows_of_not_mem hobject)) (Follows.append ?_ hrest)
    by_cases hkey : HasArchive env plan key p
    · -- the archive of the executable's own library: what that uses is linked as well
      obtain rfl := hp.unique harchives hkey
      obtain ⟨reqs, hget, hb⟩ := (linkEdge_iff_usesLibrary hureqs).mpr hab
      obtain rfl := Option.some.inj (hreqs.symm.trans hget)
      have huse : b ∈ lib.libUses := hb.resolve_right List.not_mem_nil
      have hlinks := (linkable_of_prepareBuildPlan hplan lib hlibrary).links exe hexe huse
      exact .inl ((hmem q).mpr ⟨b, hlinks, b, .refl, hq⟩)
    · exact .inr (follows_of_not_mem (mt (hown p).mp hkey))

end

namespace TwoLibraries

def app : Usage := ⟨"testing", "app"⟩

def core : Usage := ⟨"testing", "core"⟩

def appArchivePath : Path := .ofString "/proj/_build/app/libapp.a"

def coreArchivePath : Path := .ofString "/proj/_build/core/libcore.a"

/-- What is computed of the example: what its libraries use and have. -/
theorem computed_app :
    (∃ entry ∈ plan.keyed, entry.1 = app ∧ core ∈ entry.2.libUses) ∧
    (∃ entry ∈ plan.keyed, entry.1 = app ∧
      (entry.2.createArchive.map (·.outPath env)) = some appArchivePath) ∧
    (∃ entry ∈ plan.keyed, entry.1 = core ∧
      (entry.2.createArchive.map (·.outPath env)) = some coreArchivePath) ∧
    ∃ entry ∈ plan.keyed, entry.1 = app ∧ ∃ exe ∈ entry.2.linkExes, core ∈ exe.links ∧
      (exe.inputs tree env 3 entry.2).any (·.toOption.isSome) = true := by
  decide +kernel

theorem hasArchive {key : Usage} {p : Path}
    (h : ∃ entry ∈ plan.keyed, entry.1 = key ∧ (entry.2.createArchive.map (·.outPath env)) = some p) :
    HasArchive env plan key p := by
  obtain ⟨⟨_, lib⟩, hlib, rfl, hp⟩ := h
  obtain ⟨ar, har, rfl⟩ := Option.map_eq_some_iff.mp hp
  exact ⟨lib, ar, hlib, har, rfl⟩

theorem inputs_order_app : ∃ lib exe inputs, (app, lib) ∈ plan.keyed ∧ exe ∈ lib.linkExes ∧
    exe.inputs tree env 3 lib = some (.ok inputs) ∧ coreArchivePath ∈ inputs ∧
    Follows appArchivePath coreArchivePath inputs := by
  obtain ⟨⟨⟨_, user⟩, huser, rfl, huse⟩, happ, hcore, ⟨_, lib⟩, hlib, heq, exe, hexe, hlinks, hany⟩ :=
    computed_app
  cases heq
  obtain ⟨r, hr, hok⟩ := (Option.any_eq_true _ _).mp hany
  cases r with
  | error e => cases hok
  | ok inputs =>
    obtain ⟨hmem, hfollows⟩ := inputs_order prepareBuildPlan_plan prepareUreqs_ureqs writesOnce
      archivesApart hlib hexe hr
    exact ⟨lib, exe, inputs, hlib, hexe, hr, (hmem _).mpr (.inr (.inr ⟨core, hlinks, core, .refl,
      hasArchive hcore⟩)), hfollows _ core _ _ ⟨user, huser, huse⟩ (hasArchive happ) (hasArchive hcore)⟩

end TwoLibraries

end Bpt.Plan
