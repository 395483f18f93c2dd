-- SUMMARY: The toolchains of GNU-like compilers that keep the default commands: two of their compile commands are equal only for equal compiles.
import Bpt.Toolchain.Builtin
import Bpt.Toolchain.Readback

/-!
# Toolchains with default commands

A toolchain file for a GNU-like compiler that leaves the templates alone, and whose flags
spell no placeholder, makes commands that can be read.
-/

namespace Bpt.Toolchain

open Fallible

/-- No argument spells a placeholder. -/
def NoPlaceholder (args : List String) : Prop := ∀ arg ∈ args, '[' ∉ arg.toList

theorem NoPlaceholder.append {args more : List String} (h : NoPlaceholder args)
    (h' : NoPlaceholder more) : NoPlaceholder (args ++ more) := fun arg harg =>
  (List.mem_append.mp harg).elim (h arg) (h' arg)

theorem noPlaceholder_nil : NoPlaceholder [] := nofun

/-- The options leave the commands of a GNU-like compiler as they are by default. -/
structure GnuDefaults (o : Options) : Prop where
  compilerId : o.compilerId = some "gnu" ∨ o.compilerId = some "clang"
  depsMode : o.depsModeStr = none
  includeTemplate : o.includeTemplate = none
  externalIncludeTemplate : o.externalIncludeTemplate = none
  defineTemplate : o.defineTemplate = none
  cCompileFile : o.cCompileFile = none
  cxxCompileFile : o.cxxCompileFile = none
  cSourceTypeFlags : o.cSourceTypeFlags = none
  cxxSourceTypeFlags : o.cxxSourceTypeFlags = none
  syntaxOnlyFlags : o.syntaxOnlyFlags = none
  langVersionFlagTemplate : o.langVersionFlagTemplate = none
  warningFlags : ∀ flag ∈ o.baseWarningFlags.getD [] ++ o.warningFlags.getD [],
    flag ∉ ["-I", "-isystem", "-D", "-fsyntax-only"]
  compilers : NoPlaceholder (o.cCompiler.toList ++ o.cxxCompiler.toList)
  versions : NoPlaceholder (o.cVersion.toList ++ o.cxxVersion.toList)
  launcher : NoPlaceholder (o.compilerLauncher.getD [])
  flags : NoPlaceholder
    (o.commonFlags.getD [] ++ o.cFlags.getD [] ++ o.cxxFlags.getD [] ++ o.baseFlags.getD [] ++
      o.baseCFlags.getD [] ++ o.baseCxxFlags.getD [])

section

variable {context : String} {o : Options} (ho : GnuDefaults o)
include ho

theorem isGnuLike_of_compilerIdOf {id : CompilerId} (h : compilerIdOf context o = .ok id) :
    id.isGnuLike = true := by
  unfold compilerIdOf at h
  rcases ho.compilerId with hid | hid
  · rw [hid] at h
    cases h
    rfl
  · rw [hid] at h
    cases h
    rfl

variable {id : CompilerId} (hgnu : id.isGnuLike = true)
include hgnu

omit ho in
theorem isMsvc_of_isGnuLike : id.isMsvc = false := by
  cases id with
  | msvc => cases hgnu
  | _ => rfl

theorem deduced_eq {α : Type} (noCompiler : Except ToolchainExn α) (gnuLike msvc : α) (text : String) :
    deduced o id noCompiler gnuLike msvc text = .ok gnuLike := by
  have hsome : ¬ o.compilerId.isNone = true := by
    rcases ho.compilerId with hid | hid <;> simp [hid]
  rw [deduced, if_neg hsome, if_pos hgnu]

theorem noPlaceholder_version {key : String} {version : Option String} {flags : List String}
    (hversion : NoPlaceholder version.toList)
    (h : getVersionFlags context o id key version = .ok flags) : NoPlaceholder flags := by
  have htemplate : langVersionFlagTemplateOf o id = some "-std=[version]" := by
    rw [langVersionFlagTemplateOf, ho.langVersionFlagTemplate, if_neg (by simp), if_pos hgnu]
  cases version with
  | none =>
    cases h
    exact noPlaceholder_nil
  | some version =>
    rw [getVersionFlags, htemplate] at h
    cases h
    have hplain := hversion version (by simp)
    have hsplit : "-std=[version]".toList = "-std=".toList ++ "[version]".toList := rfl
    intro arg harg
    obtain rfl := List.mem_singleton.mp harg
    rw [replaceIn, String.toList_ofList, hsplit, replace_append (c := '[') rfl (by decide),
      replace_key (by decide)]
    simpa using hplain

omit ho in
theorem noPlaceholder_constants : NoPlaceholder
    (getRuntimeFlags o id ++ getOptimFlags o id ++ getDebugFlags o id) := by
  have hmsvc := isMsvc_of_isGnuLike hgnu
  simp only [getRuntimeFlags, getOptimFlags, getDebugFlags, hgnu, hmsvc, Bool.false_eq_true, if_false,
    if_true]
  refine (NoPlaceholder.append ?_ ?_).append ?_
  · refine NoPlaceholder.append ?_ ?_
    · split
      · simp [NoPlaceholder]
      · exact noPlaceholder_nil
    · split
      · simp [NoPlaceholder]
      · exact noPlaceholder_nil
  · split
    · exact noPlaceholder_nil
    · simp [NoPlaceholder]
  · split
    · simp [NoPlaceholder]
    · split
      · simp [NoPlaceholder]
      · exact noPlaceholder_nil

theorem noPlaceholder_getBaseFlags (lang : Language) : NoPlaceholder (getBaseFlags o id lang) := by
  have hmsvc := isMsvc_of_isGnuLike hgnu
  have hflags := ho.flags
  simp only [getBaseFlags, hgnu, hmsvc, Bool.false_eq_true, if_false, if_true]
  refine (NoPlaceholder.append ?_ ?_).append ?_
  · cases hbase : o.baseFlags with
    | none => simp [NoPlaceholder]
    | some flags => exact fun arg harg => hflags arg (by simp [hbase, harg])
  · split
    · exact fun arg harg => hflags arg (by simp [harg])
    · exact noPlaceholder_nil
  · split
    · exact fun arg harg => hflags arg (by simp [harg])
    · exact noPlaceholder_nil

theorem noPlaceholder_getFlags {lang : Language} {flags : List String}
    (h : getFlags context o id lang = .ok flags) : NoPlaceholder flags := by
  unfold getFlags at h
  obtain ⟨cxxVersion, hcxx, h⟩ := bind_eq_ok.mp h
  obtain ⟨cVersion, hc, h⟩ := bind_eq_ok.mp h
  cases h
  have hcommon : NoPlaceholder (o.commonFlags.getD []) := fun arg harg =>
    ho.flags arg (by simp [harg])
  refine ((((noPlaceholder_constants hgnu).append hcommon).append ?_).append ?_).append
    (noPlaceholder_getBaseFlags ho hgnu lang)
  · split
    next hlang =>
      rw [versionFlagsFor, if_pos hlang] at hcxx
      refine NoPlaceholder.append (fun arg harg => ho.flags arg (by simp [harg])) ?_
      exact noPlaceholder_version ho hgnu
        (fun arg harg => ho.versions arg (List.mem_append_right _ harg)) hcxx
    next => exact noPlaceholder_nil
  · split
    next hlang =>
      rw [versionFlagsFor, if_pos hlang] at hc
      refine NoPlaceholder.append (fun arg harg => ho.flags arg (by simp [harg])) ?_
      exact noPlaceholder_version ho hgnu
        (fun arg harg => ho.versions arg (List.mem_append_left _ harg)) hc
    next => exact noPlaceholder_nil

omit hgnu in
theorem noPlaceholder_executable {lang : Language} {compiler : String}
    (h : getCompilerExecutablePath context o id lang = .ok compiler) :
    '[' ∉ compiler.toList := by
  have hgiven := ho.compilers
  have hsome : o.compilerId.isNone = false := by
    rcases ho.compilerId with hid | hid <;> simp [hid]
  have hdeduced : (if o.compilerId.isNone ∧ lang = .c then
        fail context "Unable to determine the executable for a C compiler"
      else if o.compilerId.isNone ∧ lang = .cxx then
        fail context "Unable to determine the executable for a C++ compiler"
      else if id.isGnu then .ok (if lang = .cxx then "g++" else "gcc")
      else if id.isClang then .ok (if lang = .cxx then "clang++" else "clang")
      else if id.isMsvc then .ok "cl.exe"
      else assertFailed "Compiler name deduction failed") = .ok compiler →
      '[' ∉ compiler.toList := by
    intro h
    rw [if_neg (by simp [hsome]), if_neg (by simp [hsome])] at h
    split_ifs at h <;> cases h <;> decide
  unfold getCompilerExecutablePath at h
  split at h
  next hcxx =>
    cases h
    exact hgiven compiler (by simp [hcxx])
  next hc =>
    cases h
    exact hgiven compiler (by simp [hc])
  next => exact hdeduced h

theorem exists_compileTemplate {lang : Language} {template : List String}
    (h : compileTemplate context o id lang none = .ok template) : ∃ before after,
      template = before ++ (["[flags]", "-c", "[in]", "-o[out]"] ++ after) ∧
        NoPlaceholder (before ++ after) := by
  have hmsvc := isMsvc_of_isGnuLike hgnu
  unfold compileTemplate at h
  obtain ⟨command, hcommand, h⟩ := bind_eq_ok.mp h
  obtain ⟨flags, hflags, h⟩ := bind_eq_ok.mp h
  obtain ⟨compiler, hcompiler, hcommand⟩ := bind_eq_ok.mp hcommand
  cases h
  cases hcommand
  refine ⟨o.compilerLauncher.getD [] ++ [compiler], flags, ?_, ?_⟩
  · simp [getDefaultCompileCommand, hgnu, hmsvc]
  · refine (ho.launcher.append fun arg harg => ?_).append (noPlaceholder_getFlags ho hgnu hflags)
    rw [List.mem_singleton.mp harg]
    exact noPlaceholder_executable ho hcompiler

end

/-- Options that leave the commands alone make a toolchain with commands that can be read. -/
theorem readable_prepare [HashEnvironment] {context : String} {o : Options} (ho : GnuDefaults o)
    {prep : ToolchainPrep} (h : prepare context o = .ok prep) : Readable prep.realize := by
  unfold prepare at h
  obtain ⟨_, -, h⟩ := bind_eq_ok.mp h
  obtain ⟨id, hid, h⟩ := bind_eq_ok.mp h
  have hgnu := isGnuLike_of_compilerIdOf ho hid
  obtain ⟨depsMode, hdeps, h⟩ := bind_eq_ok.mp h
  obtain ⟨cCompile, hc, h⟩ := bind_eq_ok.mp h
  obtain ⟨cxxCompile, hcxx, h⟩ := bind_eq_ok.mp h
  simp only [deduced_eq ho hgnu, ho.includeTemplate, ho.externalIncludeTemplate, ho.defineTemplate,
    ho.cSourceTypeFlags, ho.cxxSourceTypeFlags, ho.syntaxOnlyFlags] at h
  obtain ⟨includeTemplate, hinclude, h⟩ := bind_eq_ok.mp h
  obtain ⟨externalTemplate, hexternal, h⟩ := bind_eq_ok.mp h
  obtain ⟨defineTemplate, hdefine, h⟩ := bind_eq_ok.mp h
  obtain ⟨_, -, h⟩ := bind_eq_ok.mp h
  obtain ⟨_, -, h⟩ := bind_eq_ok.mp h
  obtain ⟨warningFlags, hwarnings, h⟩ := bind_eq_ok.mp h
  obtain ⟨_, -, h⟩ := bind_eq_ok.mp h
  obtain ⟨_, -, h⟩ := bind_eq_ok.mp h
  obtain ⟨_, -, h⟩ := bind_eq_ok.mp h
  obtain ⟨cSourceTypeFlags, hctype, h⟩ := bind_eq_ok.mp h
  obtain ⟨cxxSourceTypeFlags, hcxxtype, h⟩ := bind_eq_ok.mp h
  obtain ⟨syntaxOnlyFlags, honly, h⟩ := bind_eq_ok.mp h
  cases h
  cases hinclude
  cases hexternal
  cases hdefine
  cases hctype
  cases hcxxtype
  cases honly
  rw [ho.cCompileFile] at hc
  rw [ho.cxxCompileFile] at hcxx
  refine ⟨rfl, rfl, rfl, ?_, rfl, rfl, rfl, ?_, ?_⟩
  · rw [depsModeOf, ho.depsMode, hgnu] at hdeps
    exact (Except.ok.inj hdeps).symm
  · have hdefault : ∀ flag ∈ ["-Wall", "-Wextra", "-Wpedantic", "-Wconversion"],
        flag ∉ ["-I", "-isystem", "-D", "-fsyntax-only"] := by decide
    intro flag hflag
    rcases List.mem_append.mp hflag with hflag | hflag
    · cases hbase : o.baseWarningFlags with
      | none =>
        rw [hbase] at hwarnings
        cases hwarnings
        exact hdefault flag hflag
      | some flags =>
        rw [hbase] at hwarnings
        cases hwarnings
        exact ho.warningFlags flag (by simp [hbase, hflag])
    · exact ho.warningFlags flag (List.mem_append_right _ hflag)
  · intro lang
    by_cases hlang : lang = .c
    · rw [templateOf, if_pos hlang]
      exact exists_compileTemplate ho hgnu hc
    · rw [templateOf, if_neg hlang]
      exact exists_compileTemplate ho hgnu hcxx

/-! ## Built-in toolchains -/

theorem noPlaceholder_compiler (compiler : BuiltinCompiler) :
    '[' ∉ compiler.info.c ∧ '[' ∉ compiler.info.cxx := by
  cases compiler with
  | gcc release => cases release <;> decide
  | clang release => cases release <;> decide
  | msvc => decide

theorem gnuDefaults_builtin {id : BuiltinId} (h : id.compiler ≠ .msvc) : GnuDefaults id.options where
  compilerId := by
    obtain ⟨debug, ccache, version, compiler⟩ := id
    cases compiler with
    | gcc release => exact .inl rfl
    | clang release => exact .inr rfl
    | msvc => exact absurd rfl h
  depsMode := rfl
  includeTemplate := rfl
  externalIncludeTemplate := rfl
  defineTemplate := rfl
  cCompileFile := rfl
  cxxCompileFile := rfl
  cSourceTypeFlags := rfl
  cxxSourceTypeFlags := rfl
  syntaxOnlyFlags := rfl
  langVersionFlagTemplate := rfl
  warningFlags := nofun
  compilers := by
    obtain ⟨hc, hcxx⟩ := noPlaceholder_compiler id.compiler
    simp [NoPlaceholder, BuiltinId.options, hc, hcxx]
  versions := by
    obtain ⟨debug, ccache, version, compiler⟩ := id
    cases version with
    | none => exact noPlaceholder_nil
    | some version => cases version <;> simp [NoPlaceholder, BuiltinId.options, Options.unset, CxxVersion.text]
  launcher := by
    obtain ⟨debug, ccache, version, compiler⟩ := id
    cases ccache <;> simp [NoPlaceholder, BuiltinId.options]
  flags := nofun

end Bpt.Toolchain
