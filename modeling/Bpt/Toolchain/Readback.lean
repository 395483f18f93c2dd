-- SUMMARY: The compile commands of GNU-like toolchains: what is compiled, and how, can be read off the command.
import Bpt.Base.Marked
import Bpt.Toolchain.Command
import Bpt.Util.Replace

/-!
# Reading compile commands

A compile is skipped when its command is the one that was recorded. Two compiles with one
command differ in nothing that the compiler sees, as long as the path of the source does
not spell the placeholder of the output: that placeholder is replaced after the source is
filled in, so such a path is torn.
-/

namespace Bpt.Toolchain

open Build (FileDepsMode)
open Marked

/-! ## Replacing placeholders -/

theorem replaceFrom_skip (key repl : List Char) {n : Nat} {s : List Char} (h : s.length ≤ n) :
    replaceFrom key repl n s = [] := by
  induction s generalizing n with
  | nil => cases n <;> rfl
  | cons c s ih =>
    cases n with
    | zero => cases h
    | succ n => exact ih (Nat.le_of_succ_le_succ h)

theorem replace_key {key : List Char} (hkey : key ≠ []) (repl : List Char) :
    replace key key repl = repl := by
  obtain ⟨c, cs, rfl⟩ := List.exists_cons_of_ne_nil hkey
  have hself : (c :: cs).isPrefixOf (c :: cs) = true :=
    List.isPrefixOf_iff_prefix.mpr (List.prefix_refl _)
  rw [replace, replaceFrom, if_pos hself, replaceFrom_skip _ _ (by simp), List.append_nil]

theorem replace_append {key : List Char} {c : Char} (hkey : key.head? = some c) {s : List Char}
    (h : c ∉ s) (rest repl : List Char) :
    replace (s ++ rest) key repl = s ++ replace rest key repl := by
  obtain ⟨d, key, rfl⟩ : ∃ d ds, key = d :: ds := by
    cases key with
    | nil => cases hkey
    | cons d ds => exact ⟨d, ds, rfl⟩
  obtain rfl : d = c := Option.some.inj hkey
  induction s with
  | nil => rfl
  | cons e s ih =>
    obtain ⟨hne, hs⟩ := not_or.mp (mt List.mem_cons.mpr h)
    have hpre : (d :: key).isPrefixOf (e :: (s ++ rest)) = false := by simp [List.isPrefixOf, hne]
    rw [replace, List.cons_append, replaceFrom, hpre, if_neg (by simp)]
    exact congrArg (e :: ·) (ih hs)

theorem replaceIn_of_not_mem {s key : String} (hkey : key.toList.head? = some '[')
    (h : '[' ∉ s.toList) (repl : String) : replaceIn s key repl = s := by
  rw [replaceIn, replace_of_not_mem hkey h, String.ofList_toList]

theorem replaceIn_key {key : String} (hkey : key.toList ≠ []) (repl : String) :
    replaceIn key key repl = repl := by
  rw [replaceIn, replace_key hkey, String.ofList_toList]

theorem replaceIn_out (out : String) : replaceIn "-o[out]" "[out]" out = "-o" ++ out := by
  have hsplit : "-o[out]".toList = "-o".toList ++ "[out]".toList := rfl
  rw [replaceIn, hsplit, replace_append (c := '[') rfl (by decide), replace_key (by decide)]
  exact String.toList_injective (by simp)

/-! ## Toolchains with readable commands -/

def templateOf (tc : Toolchain) (lang : Language) : List String :=
  if lang = .c then tc.cCompile else tc.cxxCompile

/-- The flags of GNU-like compilers, and no placeholders but those of the default commands. -/
structure Readable (tc : Toolchain) : Prop where
  incTemplate : tc.incTemplate = ["-I", "[path]"]
  externIncTemplate : tc.externIncTemplate = ["-isystem", "[path]"]
  defTemplate : tc.defTemplate = ["-D", "[def]"]
  depsMode : tc.depsMode = .gnu
  syntaxOnlyFlags : tc.syntaxOnlyFlags = ["-fsyntax-only"]
  cSourceTypeFlags : tc.cSourceTypeFlags = ["-xc"]
  cxxSourceTypeFlags : tc.cxxSourceTypeFlags = ["-xc++"]
  warningFlags : ∀ flag ∈ tc.warningFlags, flag ∉ ["-I", "-isystem", "-D", "-fsyntax-only"]
  template : ∀ lang, ∃ before after,
    tc.templateOf lang = before ++ (["[flags]", "-c", "[in]", "-o[out]"] ++ after) ∧
      ∀ arg ∈ before ++ after, '[' ∉ arg.toList

/-- The placeholder of the output is not spelled by the path that is handed to the compiler. -/
def CleanIn (spec : CompileFileSpec) : Prop :=
  ¬ "[out]".toList <:+: (inFileOf spec).1.toGenericString.toList

/-- How the file that is handed to the compiler comes out in the command. -/
def inArg (spec : CompileFileSpec) : String :=
  replaceIn (inFileOf spec).1.toGenericString "[out]" spec.outPath.toGenericString

theorem inArg_of_clean {spec : CompileFileSpec} (h : CleanIn spec) :
    inArg spec = (inFileOf spec).1.toGenericString := by
  rw [inArg, replaceIn, replace_of_not_infix h, String.ofList_toList]

/-- An argument of the template that holds no placeholder. -/
theorem expand_plain {arg : String} (h : '[' ∉ arg.toList) (flags : List String) (file out : String) :
    (if arg = "[flags]" then flags
      else [replaceIn (replaceIn arg "[in]" file) "[out]" out]) = [arg] := by
  have hne : arg ≠ "[flags]" := by
    rintro rfl
    exact h (by decide)
  rw [if_neg hne, replaceIn_of_not_mem rfl h, replaceIn_of_not_mem rfl h]

theorem expand_plain_all {args : List String} (h : ∀ arg ∈ args, '[' ∉ arg.toList)
    (flags : List String) (file out : String) :
    (args.flatMap fun arg =>
      if arg = "[flags]" then flags
      else [replaceIn (replaceIn arg "[in]" file) "[out]" out]) = args := by
  induction args with
  | nil => rfl
  | cons arg args ih =>
    obtain ⟨harg, hargs⟩ := List.forall_mem_cons.mp h
    rw [List.flatMap_cons, expand_plain harg, ih hargs]
    rfl

section

variable {tc : Toolchain} (htc : Readable tc) (cwd : Path) (knobs : ToolchainKnobs)
include htc

/-- The command, apart from what is the same for every file of a language. -/
theorem exists_command (lang : Language) : ∃ before after : List String,
    ∀ spec : CompileFileSpec, languageOf spec = lang →
      (tc.createCompileCommand spec cwd knobs).command =
        before ++ (tc.compileFlags spec cwd knobs ++
          (["-c", inArg spec, "-o" ++ spec.outPath.toGenericString] ++ after)) := by
  obtain ⟨before, after, htemplate, hplain⟩ := htc.template lang
  refine ⟨before, after, fun spec hlang => ?_⟩
  have hbefore := fun arg harg => hplain arg (List.mem_append_left after harg)
  have hafter := fun arg harg => hplain arg (List.mem_append_right before harg)
  have hcommand : (tc.createCompileCommand spec cwd knobs).command =
      (tc.templateOf lang).flatMap fun arg =>
        if arg = "[flags]" then tc.compileFlags spec cwd knobs
        else [replaceIn (replaceIn arg "[in]" (inFileOf spec).1.toGenericString) "[out]"
          spec.outPath.toGenericString] := by
    rw [← hlang]
    rfl
  have hplain : '[' ∉ "-c".toList := by decide
  have hc := expand_plain hplain (tc.compileFlags spec cwd knobs)
    (inFileOf spec).1.toGenericString spec.outPath.toGenericString
  have hin : replaceIn (replaceIn "[in]" "[in]" (inFileOf spec).1.toGenericString) "[out]"
      spec.outPath.toGenericString = inArg spec := by
    rw [replaceIn_key (by decide)]
    rfl
  have hout : replaceIn (replaceIn "-o[out]" "[in]" (inFileOf spec).1.toGenericString) "[out]"
      spec.outPath.toGenericString = "-o" ++ spec.outPath.toGenericString := by
    have hkeep : replaceIn "-o[out]" "[in]" (inFileOf spec).1.toGenericString = "-o[out]" := rfl
    rw [hkeep, replaceIn_out]
  rw [hcommand, htemplate, List.flatMap_append, List.flatMap_append, expand_plain_all hbefore,
    expand_plain_all hafter]
  simp only [List.flatMap_cons, List.flatMap_nil, List.append_nil, if_true, hc, hin, hout]
  simp

/-! ## The flags -/

theorem includeArgs_eq (p : Path) : tc.includeArgs p = ["-I", p.toGenericString] := by
  have hkeep : replaceIn "-I" "[path]" p.toGenericString = "-I" := rfl
  simp [includeArgs, replaceAll, htc.incTemplate, hkeep, replaceIn_key]

theorem externalIncludeArgs_eq (p : Path) :
    tc.externalIncludeArgs p = ["-isystem", p.toGenericString] := by
  have hkeep : replaceIn "-isystem" "[path]" p.toGenericString = "-isystem" := rfl
  simp [externalIncludeArgs, replaceAll, htc.externIncTemplate, hkeep, replaceIn_key]

theorem definitionArgs_eq (s : String) : tc.definitionArgs s = ["-D", s] := by
  have hkeep : replaceIn "-D" "[def]" s = "-D" := rfl
  simp [definitionArgs, replaceAll, htc.defTemplate, hkeep, replaceIn_key]

end

/-- How a directory is spelled in a command that is run in `cwd`. -/
def spelledFrom (cwd dir : Path) : String := (dir.shortestPathFrom cwd).toGenericString

/-- The flags that are the same for all files. -/
def commonFlags (tc : Toolchain) (knobs : ToolchainKnobs) : List String :=
  (if knobs.isTty then tc.ttyFlags else []) ++
    (match knobs.cacheBuster with
      | some buster => tc.definitionArgs ("__bpt_cachebust=" ++ buster)
      | none => [])

def syntaxFlags (spec : CompileFileSpec) : List String :=
  if spec.syntaxOnly then
    ["-fsyntax-only", if languageOf spec = .c then "-xc" else "-xc++"]
  else []

/-- The flags after the definitions. -/
def lastFlags (tc : Toolchain) (spec : CompileFileSpec) : List String :=
  (if spec.enableWarnings then tc.warningFlags else []) ++
    ["-MD", "-MF", (depfilePath spec).toGenericString, "-MQ", spec.outPath.toGenericString]

section

variable {tc : Toolchain} (htc : Readable tc) (cwd : Path) (knobs : ToolchainKnobs)
include htc

theorem compileFlags_eq (spec : CompileFileSpec) :
    tc.compileFlags spec cwd knobs = tc.commonFlags knobs ++ (syntaxFlags spec ++
      (spell "-I" (spec.includeDirs.map (spelledFrom cwd)) ++
        (spell "-isystem" (spec.externalIncludeDirs.map Path.toGenericString) ++
          (spell "-I" (knobs.tweaksDir.toList.map (spelledFrom cwd)) ++
            (spell "-D" spec.definitions ++ tc.lastFlags spec))))) := by
  have hinc : spec.includeDirs.flatMap (fun dir => tc.includeArgs (dir.shortestPathFrom cwd)) =
      spell "-I" (spec.includeDirs.map (spelledFrom cwd)) := by
    simp only [includeArgs_eq htc, spell, List.flatMap_map]
    rfl
  have hext : spec.externalIncludeDirs.flatMap tc.externalIncludeArgs =
      spell "-isystem" (spec.externalIncludeDirs.map Path.toGenericString) := by
    simp only [spell, List.flatMap_map]
    exact List.flatMap_congr fun dir _ => externalIncludeArgs_eq htc dir
  have hdefs : spec.definitions.flatMap tc.definitionArgs = spell "-D" spec.definitions :=
    List.flatMap_congr fun s _ => definitionArgs_eq htc s
  have honly : (if spec.syntaxOnly then
        tc.syntaxOnlyFlags ++
          (if languageOf spec = .c then tc.cSourceTypeFlags else tc.cxxSourceTypeFlags)
      else []) = syntaxFlags spec := by
    rw [htc.syntaxOnlyFlags, htc.cSourceTypeFlags, htc.cxxSourceTypeFlags]
    unfold syntaxFlags
    split
    · split <;> rfl
    · rfl
  have hlast : (if spec.enableWarnings then tc.warningFlags else []) ++ tc.depsFlags spec =
      tc.lastFlags spec := by
    rw [depsFlags, htc.depsMode]
    rfl
  simp only [compileFlags, commonFlags, hinc, hext, hdefs, honly, List.append_assoc, hlast]
  cases knobs.tweaksDir with
  | none => rfl
  | some dir =>
    dsimp only
    rw [includeArgs_eq htc]
    rfl

/-- The flags after the definitions begin with no mark of the flags before them. -/
theorem head_lastFlags (spec : CompileFileSpec) {mark : String}
    (hmark : mark ∈ ["-I", "-isystem", "-D", "-fsyntax-only"]) :
    (tc.lastFlags spec).head? ≠ some mark := by
  have hdeps : "-MD" ≠ mark := by
    rintro rfl
    exact absurd hmark (by decide)
  unfold lastFlags
  split
  next =>
    intro hhead
    cases hwarnings : tc.warningFlags with
    | nil =>
      rw [hwarnings] at hhead
      exact hdeps (Option.some.inj hhead)
    | cons flag flags =>
      rw [hwarnings] at hhead
      obtain rfl : flag = mark := Option.some.inj hhead
      exact htc.warningFlags flag (by rw [hwarnings]; exact List.mem_cons_self) hmark
  next => exact fun hhead => hdeps (Option.some.inj hhead)

end

/-! ## What a command says -/

/-- The compiler sees the same in both compiles. -/
structure SameCompile (tc : Toolchain) (cwd : Path) (spec spec' : CompileFileSpec) : Prop where
  outPath : spec.outPath.toGenericString = spec'.outPath.toGenericString
  depfile : (depfilePath spec).toGenericString = (depfilePath spec').toGenericString
  inFile : (inFileOf spec).1.toGenericString = (inFileOf spec').1.toGenericString
  syntaxOnly : spec.syntaxOnly = spec'.syntaxOnly
  includeDirs : spec.includeDirs.map (spelledFrom cwd) = spec'.includeDirs.map (spelledFrom cwd)
  external : spec.externalIncludeDirs.map Path.toGenericString =
    spec'.externalIncludeDirs.map Path.toGenericString
  definitions : spec.definitions = spec'.definitions
  warnings : spec.enableWarnings = spec'.enableWarnings ∨ tc.warningFlags = []

theorem lastFlags_of_same {tc : Toolchain} {cwd : Path} {spec spec' : CompileFileSpec}
    (h : SameCompile tc cwd spec spec') : tc.lastFlags spec = tc.lastFlags spec' := by
  unfold lastFlags
  rw [h.depfile, h.outPath]
  rcases h.warnings with hwarnings | hnil
  · rw [hwarnings]
  · simp [hnil]

/-- The last flags tell whether warnings are on, and the two files that are written. -/
theorem of_lastFlags_eq {tc : Toolchain} {spec spec' : CompileFileSpec}
    (h : tc.lastFlags spec = tc.lastFlags spec') :
    (spec.enableWarnings = spec'.enableWarnings ∨ tc.warningFlags = []) ∧
      (depfilePath spec).toGenericString = (depfilePath spec').toGenericString ∧
      spec.outPath.toGenericString = spec'.outPath.toGenericString := by
  unfold lastFlags at h
  have hlength := congrArg List.length h
  obtain ⟨hwarnings, hdeps⟩ := List.append_inj' h rfl
  simp only [List.cons.injEq, and_true, true_and] at hdeps
  refine ⟨?_, hdeps⟩
  cases hw : spec.enableWarnings <;> cases hw' : spec'.enableWarnings
  · exact .inl rfl
  · rw [hw, hw'] at hwarnings
    exact .inr hwarnings.symm
  · rw [hw, hw'] at hwarnings
    exact .inr hwarnings
  · exact .inl rfl

/-- The flags after the common ones tell all that they are made of. -/
theorem of_flags_eq {tc : Toolchain} (htc : Readable tc) {cwd : Path} {knobs : ToolchainKnobs}
    {spec spec' : CompileFileSpec}
    (h : tc.compileFlags spec cwd knobs = tc.compileFlags spec' cwd knobs) :
    spec.syntaxOnly = spec'.syntaxOnly ∧
      spec.includeDirs.map (spelledFrom cwd) = spec'.includeDirs.map (spelledFrom cwd) ∧
      spec.externalIncludeDirs.map Path.toGenericString =
        spec'.externalIncludeDirs.map Path.toGenericString ∧
      spec.definitions = spec'.definitions ∧ tc.lastFlags spec = tc.lastFlags spec' := by
  rw [compileFlags_eq htc, compileFlags_eq htc] at h
  have h := List.append_cancel_left h
  -- What follows the syntax-only flags never begins like them.
  have hhead : ∀ spec : CompileFileSpec, (spell "-D" spec.definitions ++ tc.lastFlags spec).head? ≠
      some "-fsyntax-only" ∧ (spell "-D" spec.definitions ++ tc.lastFlags spec).head? ≠ some "-I" ∧
      (spell "-D" spec.definitions ++ tc.lastFlags spec).head? ≠ some "-isystem" := fun spec =>
    ⟨head_spell_append (head_lastFlags htc spec (by decide)) (by decide),
      head_spell_append (head_lastFlags htc spec (by decide)) (by decide),
      head_spell_append (head_lastFlags htc spec (by decide)) (by decide)⟩
  have hdirs : ∀ spec : CompileFileSpec,
      (spell "-I" (spec.includeDirs.map (spelledFrom cwd)) ++
        (spell "-isystem" (spec.externalIncludeDirs.map Path.toGenericString) ++
          (spell "-I" (knobs.tweaksDir.toList.map (spelledFrom cwd)) ++
            (spell "-D" spec.definitions ++ tc.lastFlags spec)))).head? ≠ some "-fsyntax-only" :=
    fun spec => head_spell_append (head_spell_append (head_spell_append (hhead spec).1 (by decide))
      (by decide)) (by decide)
  obtain ⟨honly, hrest⟩ : spec.syntaxOnly = spec'.syntaxOnly ∧ _ = _ := by
    cases hs : spec.syntaxOnly <;> cases hs' : spec'.syntaxOnly
    · exact ⟨rfl, by simpa [syntaxFlags, hs, hs'] using h⟩
    · simp only [syntaxFlags, hs, hs', Bool.false_eq_true, if_false, if_true, List.nil_append] at h
      exact absurd (congrArg List.head? h) (hdirs spec)
    · simp only [syntaxFlags, hs, hs', Bool.false_eq_true, if_false, if_true, List.nil_append] at h
      exact absurd (congrArg List.head? h.symm) (hdirs spec')
    · simp only [syntaxFlags, hs, hs', if_true] at h
      exact ⟨rfl, (List.append_inj h rfl).2⟩
  obtain ⟨hinc, hext, hrest⟩ := spell_three_inj (by decide) (hhead spec).2.1 (hhead spec).2.2
    (hhead spec').2.1 (hhead spec').2.2 hrest
  obtain ⟨hdefs, hlast⟩ := spell_append_inj (head_lastFlags htc spec (by decide))
    (head_lastFlags htc spec' (by decide)) hrest
  exact ⟨honly, hinc, hext, hdefs, hlast⟩

/-- Two compiles of one language have the same command when the compiler sees the same in
both, and only then. -/
theorem command_eq_iff {tc : Toolchain} (htc : Readable tc) (cwd : Path) (knobs : ToolchainKnobs)
    {spec spec' : CompileFileSpec} (hlang : languageOf spec = languageOf spec')
    (hclean : CleanIn spec) (hclean' : CleanIn spec') :
    (tc.createCompileCommand spec cwd knobs).command =
      (tc.createCompileCommand spec' cwd knobs).command ↔ SameCompile tc cwd spec spec' := by
  obtain ⟨before, after, hcommand⟩ := exists_command htc cwd knobs (languageOf spec)
  rw [hcommand spec rfl, hcommand spec' hlang.symm, inArg_of_clean hclean, inArg_of_clean hclean']
  constructor
  · intro h
    have h := List.append_cancel_left h
    obtain ⟨hflags, hfiles⟩ := List.append_inj' h (by simp)
    simp only [List.cons_append, List.nil_append, List.cons.injEq, true_and] at hfiles
    obtain ⟨honly, hinc, hext, hdefs, hlast⟩ := of_flags_eq htc hflags
    obtain ⟨hwarnings, hdepfile, hout⟩ := of_lastFlags_eq hlast
    exact ⟨hout, hdepfile, hfiles.1, honly, hinc, hext, hdefs, hwarnings⟩
  · intro h
    have honly : syntaxFlags spec = syntaxFlags spec' := by
      rw [syntaxFlags, syntaxFlags, h.syntaxOnly, hlang]
    rw [compileFlags_eq htc, compileFlags_eq htc, honly, h.includeDirs, h.external,
      h.definitions, lastFlags_of_same h, h.inFile, h.outPath]

/-- The source is handed to the compiler as it is, unless its path spells the placeholder. -/
theorem inArg_eq_iff {spec : CompileFileSpec} (hout : spec.outPath.root = true) :
    inArg spec = (inFileOf spec).1.toGenericString ↔ CleanIn spec := by
  have htoList : spec.outPath.toGenericString.toList.head? = some '/' := by
    rw [Path.toList_toGenericString, hout]
    rfl
  have hne : spec.outPath.toGenericString.toList ≠ [] := by
    intro hnil
    rw [hnil] at htoList
    cases htoList
  unfold inArg replaceIn CleanIn
  rw [← replace_eq_self_iff (by decide) hne (by rw [htoList]; decide)]
  constructor
  · intro h
    rw [← String.toList_ofList (l := replace _ _ _), h]
  · intro h
    rw [h, String.ofList_toList]

/-- The command to compile a file hands its path to the compiler exactly when the path does
not spell the placeholder. -/
theorem exists_command_naming {tc : Toolchain} (htc : Readable tc) (cwd : Path)
    (knobs : ToolchainKnobs) (lang : Language) : ∃ before after : List String,
    ∀ spec : CompileFileSpec, languageOf spec = lang → spec.outPath.root = true → ∃ arg,
      (tc.createCompileCommand spec cwd knobs).command =
        before ++ (tc.compileFlags spec cwd knobs ++
          (["-c", arg, "-o" ++ spec.outPath.toGenericString] ++ after)) ∧
      (arg = (inFileOf spec).1.toGenericString ↔ CleanIn spec) := by
  obtain ⟨before, after, hcommand⟩ := exists_command htc cwd knobs lang
  exact ⟨before, after, fun spec hlang hout =>
    ⟨inArg spec, hcommand spec hlang, inArg_eq_iff hout⟩⟩

theorem readable_gccLike : Readable gccLike where
  incTemplate := rfl
  externIncTemplate := rfl
  defTemplate := rfl
  depsMode := rfl
  syntaxOnlyFlags := rfl
  cSourceTypeFlags := rfl
  cxxSourceTypeFlags := rfl
  warningFlags := by decide
  template lang := by
    cases lang with
    | automatic => exact ⟨["g++"], [], rfl, by decide⟩
    | c => exact ⟨["gcc"], [], rfl, by decide⟩
    | cxx => exact ⟨["g++"], [], rfl, by decide⟩

/-- A source file whose name is the placeholder of the output. -/
def placeholderSpec : CompileFileSpec where
  sourcePath := .ofString "/w/[out].cpp"
  outPath := .ofString "/w/a.o"
  definitions := []
  includeDirs := []
  externalIncludeDirs := []
  lang := .automatic
  enableWarnings := false
  syntaxOnly := false

theorem exists_command_naming_placeholder : ∃ (before after : List String) (arg : String),
    (gccLike.createCompileCommand placeholderSpec (.ofString "/w") ⟨false, none, none⟩).command =
      before ++ ("-c" :: arg :: after) ∧ arg ≠ "/w/[out].cpp" := by
  obtain ⟨before, after, hnaming⟩ :=
    exists_command_naming readable_gccLike (.ofString "/w") ⟨false, none, none⟩ .cxx
  obtain ⟨arg, hcommand, hclean⟩ := hnaming placeholderSpec (by decide) (by decide)
  have hspells : ¬ CleanIn placeholderSpec := by
    have hinfix : "[out]".toList <:+: (Path.ofString "/w/[out].cpp").toGenericString.toList := by decide
    exact fun h => h hinfix
  rw [hcommand, ← List.append_assoc]
  refine ⟨_, _, arg, rfl, ?_⟩
  rintro rfl
  exact hspells (hclean.mp rfl)

end Bpt.Toolchain
