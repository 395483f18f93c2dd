-- SUMMARY: The command of a planned compilation, which tells apart any two sets of rules for one source file.
import Mathlib.Data.List.Destutter
import Bpt.Build.PlanOutputs
import Bpt.Toolchain.GnuDefaults

/-!
# Commands of planned compilations

`compile_file_plan::generate_compile_command` gathers the directories and definitions of
the rules. A compilation is repeated when its command changes, so a change of the rules
has to change the command.
-/

namespace Bpt.Plan

open Bpt.Toolchain (CleanIn Readable SameCompile gccLike readable_gccLike spelledFrom)

/-- The order of paths. -/
def pathBefore (p q : Path) : Bool :=
  if p.root = q.root then decide (p.elements ≤ q.elements) else !p.root

/-- `sort_unique_erase` -/
def sortUniqueErase (paths : List Path) : List Path :=
  (paths.mergeSort pathBefore).destutter (· ≠ ·)

theorem mem_of_mem_sortUniqueErase {paths : List Path} {p : Path} (h : p ∈ sortUniqueErase paths) :
    p ∈ paths :=
  List.mem_mergeSort.mp ((List.destutter_sublist _ _).subset h)

/-- The environment of the compilations. -/
structure CompileEnv extends BuildEnv where
  tc : Bpt.Toolchain
  ureqs : UsageRequirementMap
  knobs : ToolchainKnobs
  objectSuffix_eq : tc.objectSuffix = toolchain.objectSuffix

/-- The include directories that the uses bring in, with fuel for each traversal. -/
def externalDirs (ureqs : UsageRequirementMap) (fuel : Nat) (uses : List Usage) :
    Option (Except UsageError (List Path)) :=
  (Fallible.collectAll (ureqs.includePaths fuel) uses).map (Except.map List.flatten)

def currentPath (tree : FileTree) : Path := ⟨true, tree.currentPath, false⟩

/-- The include directories of the rules, below the output root when they are relative. -/
def canonicalDirs (tree : FileTree) (env : CompileEnv) (rules : CompileFileRules) : List Path :=
  sortUniqueErase (rules.includeDirs.map fun dir =>
    tree.weaklyCanonical (if dir.root then dir else env.outputRoot / dir))

namespace CompileFilePlan

variable (tree : FileTree) (env : CompileEnv)

def compileSpec (plan : CompileFilePlan) (external : List Path) : CompileFileSpec where
  sourcePath := plan.source.path
  outPath := plan.calcObjectFilePath tree env.toBuildEnv
  definitions := plan.rules.defs
  includeDirs := canonicalDirs tree env plan.rules
  externalIncludeDirs := sortUniqueErase external
  lang := .automatic
  enableWarnings := plan.rules.enableWarnings
  syntaxOnly := plan.rules.syntaxOnly

def generateCompileCommand (fuel : Nat) (plan : CompileFilePlan) :
    Option (Except UsageError CompileCommandInfo) :=
  (externalDirs env.ureqs fuel plan.rules.uses).map fun result => result.map fun external =>
    env.tc.createCompileCommand (plan.compileSpec tree env external) (currentPath tree) env.knobs

end CompileFilePlan

/-! ## Canonical directories -/

/-- A directory that is named at the end of the path. -/
structure NamesDir (dir : Path) : Prop where
  legible : dir.Legible
  trailing : dir.trailing = false
  last : ∃ name, dir.names.getLast? = some name ∧ PlainName name

/-- The working directory and the directories of the build can be spelled. -/
structure Spellable (tree : FileTree) (env : CompileEnv) (rules : CompileFileRules) : Prop where
  currentPath : ∀ name ∈ tree.currentPath, PlainName name
  outputRoot : env.outputRoot.Legible
  includeDirs : ∀ dir ∈ rules.includeDirs, NamesDir dir

theorem legible_div {p q : Path} (hp : p.Legible) (hq : q.Legible) : (p / q).Legible := by
  cases hroot : q.root with
  | true => rwa [Path.div_of_root hroot]
  | false =>
    rw [Path.div_of_relative hroot]
    refine ⟨fun name hname => ?_, fun htrailing => ?_⟩
    · rcases List.mem_append.mp hname with hname | hname
      · exact hp.names name hname
      · exact hq.names name hname
    · by_cases hnil : q.names = []
      · simp only [hnil, if_true, decide_eq_true_iff] at htrailing
        simp [htrailing]
      · simp [hnil]

section

variable {tree : FileTree} {env : CompileEnv}

theorem legible_currentPath (h : ∀ name ∈ tree.currentPath, PlainName name) :
    (currentPath tree).Legible where
  names name hname := ⟨(h name hname).1, (h name hname).2.2.2⟩
  trailing := nofun

theorem isWorkingDir_currentPath (h : ∀ name ∈ tree.currentPath, PlainName name) :
    (currentPath tree).IsWorkingDir where
  root := rfl
  plain name hname := ⟨(h name hname).1, (h name hname).2.1, (h name hname).2.2.1⟩

theorem root_weaklyCanonical (p : Path) : (tree.weaklyCanonical p).root = true := by
  rw [FileTree.weaklyCanonical, FileTree.lexicallyNormal_root, Path.div_root]
  rfl

theorem legible_weaklyCanonical (h : ∀ name ∈ tree.currentPath, PlainName name) {p : Path}
    (hp : p.Legible) : (tree.weaklyCanonical p).Legible :=
  Path.legible_lexicallyNormal (legible_div (legible_currentPath h) hp)

theorem NamesDir.div {p dir : Path} (hp : p.Legible) (h : NamesDir dir) : NamesDir (p / dir) := by
  obtain ⟨name, hname, hplain⟩ := h.last
  have hne : dir.names ≠ [] := by
    intro hnil
    rw [hnil] at hname
    cases hname
  cases hroot : dir.root with
  | true => rwa [Path.div_of_root hroot]
  | false =>
    refine ⟨legible_div hp h.legible, ?_, name, ?_, hplain⟩
    · rw [Path.div_of_relative hroot]
      simp [hne, h.trailing]
    · rw [Path.div_of_relative hroot]
      simp [List.getLast?_append, hname]

/-- What is known of a canonical directory. -/
structure Canonical (dir : Path) : Prop where
  root : dir.root = true
  legible : dir.Legible
  normal : dir.lexicallyNormal.names = dir.names
  trailing : dir.trailing = false

theorem Canonical.eq_of_names {dir dir' : Path} (h : Canonical dir) (h' : Canonical dir')
    (hnames : dir.names = dir'.names) : dir = dir' := by
  obtain ⟨root, names, trailing⟩ := dir
  obtain ⟨root', names', trailing'⟩ := dir'
  exact (Path.mk.injEq ..).mpr
    ⟨h.root.trans h'.root.symm, hnames, h.trailing.trans h'.trailing.symm⟩

theorem canonical_weaklyCanonical (h : ∀ name ∈ tree.currentPath, PlainName name) {dir : Path}
    (hdir : NamesDir dir) : Canonical (tree.weaklyCanonical dir) where
  root := root_weaklyCanonical dir
  legible := legible_weaklyCanonical h hdir.legible
  normal := by rw [FileTree.weaklyCanonical, Path.lexicallyNormal_idem]
  trailing := by
    have hnames := hdir.div (legible_currentPath h)
    change (currentPath tree / dir).lexicallyNormal.trailing = false
    rw [Path.lexicallyNormal_of_plain (by rw [Path.div_root]; rfl) hnames.trailing hnames.last]

theorem of_mem_canonicalDirs {rules : CompileFileRules} (h : Spellable tree env rules) {dir : Path}
    (hdir : dir ∈ canonicalDirs tree env rules) : Canonical dir := by
  obtain ⟨dir, hmem, rfl⟩ := List.mem_map.mp (mem_of_mem_sortUniqueErase hdir)
  apply canonical_weaklyCanonical h.currentPath
  split
  · exact h.includeDirs dir hmem
  · exact (h.includeDirs dir hmem).div h.outputRoot

/-- Canonical directories are told apart by how they are spelled. -/
theorem spelledFrom_inj {cwd : Path} (hcwd : cwd.IsWorkingDir) {dirs dirs' : List Path}
    (hdirs : ∀ dir ∈ dirs, Canonical dir) (hdirs' : ∀ dir ∈ dirs', Canonical dir)
    (h : dirs.map (spelledFrom cwd) = dirs'.map (spelledFrom cwd)) : dirs = dirs' := by
  induction dirs generalizing dirs' with
  | nil => exact (List.map_eq_nil_iff.mp h.symm).symm
  | cons dir dirs ih =>
    cases dirs' with
    | nil => cases h
    | cons dir' dirs' =>
      obtain ⟨hhead, htail⟩ := List.cons.inj h
      obtain ⟨hdir, hrest⟩ := List.forall_mem_cons.mp hdirs
      obtain ⟨hdir', hrest'⟩ := List.forall_mem_cons.mp hdirs'
      have hspells := Path.spells_shortestPathFrom hcwd hdir.root hdir.legible
      have hspells' := Path.spells_shortestPathFrom hcwd hdir'.root hdir'.legible
      rw [← show spelledFrom cwd dir = (dir'.shortestPathFrom cwd).toGenericString from hhead]
        at hspells'
      have hnames := (hspells.unique hspells').names
      rw [hdir.normal, hdir'.normal] at hnames
      rw [hdir.eq_of_names hdir' hnames, ih hrest hrest' htail]

/-! ## Rules -/

/-- The rules make the same compilation of a source file: the same directories are searched
in the same order, with the same definitions, and in the same way. -/
structure SameRules (tree : FileTree) (env : CompileEnv) (rules rules' : CompileFileRules)
    (external external' : List Path) : Prop where
  includeDirs : canonicalDirs tree env rules = canonicalDirs tree env rules'
  external : (sortUniqueErase external).map Path.toGenericString =
    (sortUniqueErase external').map Path.toGenericString
  defs : rules.defs = rules'.defs
  syntaxOnly : rules.syntaxOnly = rules'.syntaxOnly
  warnings : rules.enableWarnings = rules'.enableWarnings ∨ env.tc.warningFlags = []

/-- Two sets of rules for one source file and one object file give the same command only if
they make the same compilation. -/
theorem command_eq_iff_sameRules (hreadable : Readable env.tc) {fuel : Nat}
    {plan plan' : CompileFilePlan} (hsource : plan.source = plan'.source)
    (hsubdir : plan.subdir = plan'.subdir) (hrules : Spellable tree env plan.rules)
    (hrules' : Spellable tree env plan'.rules) {external external' : List Path}
    (hexternal : externalDirs env.ureqs fuel plan.rules.uses = some (.ok external))
    (hexternal' : externalDirs env.ureqs fuel plan'.rules.uses = some (.ok external'))
    (hclean : CleanIn (plan.compileSpec tree env external))
    (hclean' : CleanIn (plan'.compileSpec tree env external')) {info info' : CompileCommandInfo}
    (hinfo : plan.generateCompileCommand tree env fuel = some (.ok info))
    (hinfo' : plan'.generateCompileCommand tree env fuel = some (.ok info')) :
    info.command = info'.command ↔
      SameRules tree env plan.rules plan'.rules external external' := by
  rw [CompileFilePlan.generateCompileCommand, hexternal] at hinfo
  rw [CompileFilePlan.generateCompileCommand, hexternal'] at hinfo'
  cases hinfo
  cases hinfo'
  have hobject : plan.calcObjectFilePath tree env.toBuildEnv =
      plan'.calcObjectFilePath tree env.toBuildEnv := by
    rw [CompileFilePlan.calcObjectFilePath, CompileFilePlan.calcObjectFilePath, hsource, hsubdir]
  have hlang : Bpt.Toolchain.languageOf (plan.compileSpec tree env external) =
      Bpt.Toolchain.languageOf (plan'.compileSpec tree env external') := by
    unfold Bpt.Toolchain.languageOf CompileFilePlan.compileSpec
    rw [hsource]
  have hcwd := isWorkingDir_currentPath hrules.currentPath
  rw [Bpt.Toolchain.command_eq_iff hreadable _ _ hlang hclean hclean']
  constructor
  · intro h
    refine ⟨?_, h.external, h.definitions, h.syntaxOnly, h.warnings⟩
    exact spelledFrom_inj hcwd (fun _ => of_mem_canonicalDirs hrules)
      (fun _ => of_mem_canonicalDirs hrules') h.includeDirs
  · intro h
    refine ⟨congrArg Path.toGenericString hobject, ?_, ?_, h.syntaxOnly, ?_, h.external, h.defs,
      h.warnings⟩
    · unfold Bpt.Toolchain.depfilePath CompileFilePlan.compileSpec
      rw [hobject]
    · unfold Bpt.Toolchain.inFileOf CompileFilePlan.compileSpec
      rw [hobject, hsource, h.syntaxOnly]
    · unfold CompileFilePlan.compileSpec
      rw [h.includeDirs]

end

/-! ## A changed definition -/

namespace ChangedDefinition

def tree : FileTree := ⟨["w"], [], [["w", "src", "a.cpp"]], by decide, by decide⟩

def env : CompileEnv where
  toolchain := gnuToolchain
  outputRoot := .ofString "/w/_build"
  tc := gccLike
  ureqs := .empty
  knobs := ⟨false, none, none⟩
  objectSuffix_eq := rfl

def rules (defs : List String) : CompileFileRules := ⟨[.ofString "/w/src"], defs, [], true, false⟩

def plan (defs : List String) : CompileFilePlan where
  rules := rules defs
  source := ⟨.ofString "/w/src/a.cpp", .ofString "/w/src", .source⟩
  qualifier := "p/p"
  subdir := .ofString "obj"

theorem spellable (defs : List String) : Spellable tree env (rules defs) where
  currentPath := by decide
  outputRoot := Path.legible_ofString "/w/_build"
  includeDirs := by
    intro dir hdir
    obtain rfl := List.mem_singleton.mp hdir
    exact ⟨Path.legible_ofString "/w/src", by decide, "src", by decide, by decide⟩

def info (defs : List String) : CompileCommandInfo :=
  env.tc.createCompileCommand ((plan defs).compileSpec tree env []) (currentPath tree) env.knobs

theorem externalDirs_plan (defs : List String) :
    externalDirs env.ureqs 0 (plan defs).rules.uses = some (.ok []) := rfl

theorem generateCompileCommand_plan (defs : List String) :
    (plan defs).generateCompileCommand tree env 0 = some (.ok (info defs)) := rfl

theorem cleanIn_plan (defs : List String) : CleanIn ((plan defs).compileSpec tree env []) := by
  have hpath : ¬ "[out]".toList <:+: (Path.ofString "/w/src/a.cpp").toGenericString.toList := by decide
  exact hpath

theorem command_ne : (info []).command ≠ (info ["NDEBUG"]).command := by
  intro h
  have hsame := (@command_eq_iff_sameRules tree env readable_gccLike 0 (plan []) (plan ["NDEBUG"]) rfl rfl
    (spellable []) (spellable ["NDEBUG"]) [] [] (externalDirs_plan []) (externalDirs_plan ["NDEBUG"])
    (cleanIn_plan []) (cleanIn_plan ["NDEBUG"]) (info []) (info ["NDEBUG"])
    (generateCompileCommand_plan []) (generateCompileCommand_plan ["NDEBUG"])).mp h
  exact absurd hsame.defs (by decide)

end ChangedDefinition

end Bpt.Plan
