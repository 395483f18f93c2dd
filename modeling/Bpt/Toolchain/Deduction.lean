-- SUMMARY: Exactly which toolchain files are accepted: the types of their keys, and what has to be spelled out when no compiler is named.
import Bpt.Base.Decides
import Bpt.Toolchain.FromJson

/-!
# Accepted toolchain files

Every assertion of the deduction is about a compiler that is none of the known ones, so
that none of them fails. A file that names a compiler needs nothing else; one that does
not has to give everything that the compiler would decide, apart from what is optional
for every toolchain.
-/

namespace Bpt.Toolchain

open Build (FileDepsMode)
open Fallible

/-! ## Options that suffice -/

/-- What has to be given when there is no compiler to deduce it from. -/
structure Explicit (o : Options) : Prop where
  cCompile : o.cCompileFile.isSome ∨ o.cCompiler.isSome
  cxxCompile : o.cxxCompileFile.isSome ∨ o.cxxCompiler.isSome
  cVersion : o.cVersion.isSome → o.langVersionFlagTemplate.isSome
  cxxVersion : o.cxxVersion.isSome → o.langVersionFlagTemplate.isSome
  includeTemplate : o.includeTemplate.isSome
  defineTemplate : o.defineTemplate.isSome
  archiveSuffix : o.archiveSuffix.isSome
  objSuffix : o.objSuffix.isSome
  createArchive : o.createArchive.isSome
  linkExecutable : o.linkExecutable.isSome
  cSourceTypeFlags : o.cSourceTypeFlags.isSome
  cxxSourceTypeFlags : o.cxxSourceTypeFlags.isSome
  syntaxOnlyFlags : o.syntaxOnlyFlags.isSome

structure Sufficient (o : Options) : Prop where
  debug : ∀ str, o.debugStr = some str → str = "embedded" ∨ str = "split" ∨ str = "none"
  compilerId : ∀ id, o.compilerId = some id → id = "msvc" ∨ id = "gnu" ∨ id = "clang"
  depsMode : ∀ str, o.depsModeStr = some str → str = "gnu" ∨ str = "msvc" ∨ str = "none"
  explicit : o.compilerId = none → Explicit o

/-- The errors of `fail`. -/
def IsFailure : ToolchainExn → Prop
  | .failed _ => True
  | _ => False

variable {α : Type} {context : String} {o : Options} {id : CompilerId} {P : Prop}

theorem decides_fail (context message : String) :
    Decides IsFailure (fail context message : Except ToolchainExn α) False := .error trivial

theorem decides_readOpt {what : Option α} {fn : Except ToolchainExn α}
    (h : Decides IsFailure fn P) : Decides IsFailure (readOpt what fn) (what.isSome ∨ P) := by
  cases what with
  | none => exact h.congr (by simp)
  | some value => exact (Decides.ok value).congr (by simp)

theorem decides_checkDebug : Decides IsFailure (checkDebug context o)
    (∀ str, o.debugStr = some str → str = "embedded" ∨ str = "split" ∨ str = "none") := by
  unfold checkDebug
  cases o.debugStr with
  | none => exact (Decides.ok ()).congr (by simp)
  | some str =>
    refine (Decides.ite (fun _ => decides_fail _ _) (fun _ => .ok ())).congr ?_
    split
    next h =>
      simp only [Option.some.injEq, forall_eq', false_iff]
      tauto
    next h =>
      simp only [Option.some.injEq, forall_eq', true_iff]
      tauto

theorem decides_compilerIdOf : Decides IsFailure (compilerIdOf context o)
    (∀ id, o.compilerId = some id → id = "msvc" ∨ id = "gnu" ∨ id = "clang") := by
  unfold compilerIdOf
  cases o.compilerId with
  | none => exact (Decides.ok _).congr (by simp)
  | some id =>
    refine (Decides.ite (fun _ => .ok _) fun _ => .ite (fun _ => .ok _) fun _ =>
      .ite (fun _ => .ok _) fun _ => decides_fail _ _).congr ?_
    simp only [Option.some.injEq, forall_eq']
    split_ifs <;> tauto

theorem decides_depsModeOf : Decides IsFailure (depsModeOf context o id)
    (∀ str, o.depsModeStr = some str → str = "gnu" ∨ str = "msvc" ∨ str = "none") := by
  unfold depsModeOf
  cases o.depsModeStr with
  | none => exact (Decides.ok _).congr (by simp)
  | some str =>
    refine (Decides.ite (fun _ => .ok _) fun _ => .ite (fun _ => .ok _) fun _ =>
      .ite (fun _ => .ok _) fun _ => decides_fail _ _).congr ?_
    simp only [Option.some.injEq, forall_eq']
    split_ifs <;> tauto

/-- A compiler that is named is one of those the deduction distinguishes. -/
structure Identifies (o : Options) (id : CompilerId) : Prop where
  known : o.compilerId.isSome = true → id.isGnuLike = true ∨ id.isMsvc = true
  unknown : o.compilerId = none → id = .noCompId

theorem identifies_compilerIdOf (h : compilerIdOf context o = .ok id) : Identifies o id := by
  unfold compilerIdOf at h
  cases hid : o.compilerId with
  | none =>
    rw [hid] at h
    cases h
    refine ⟨fun hsome => ?_, fun _ => rfl⟩
    rw [hid] at hsome
    cases hsome
  | some str =>
    refine ⟨fun _ => ?_, fun hnone => absurd (hid.symm.trans hnone) (Option.some_ne_none str)⟩
    simp only [hid] at h
    split at h
    · cases h
      exact .inr rfl
    · split at h
      · cases h
        exact .inl rfl
      · split at h
        · cases h
          exact .inl rfl
        · cases h

/-! ## What a compiler decides -/

section

variable (hid : Identifies o id)
include hid

/-- With a compiler, one of the two values is taken, and not the assertion. -/
theorem decides_deduced {noCompiler : Except ToolchainExn α} (h : Decides IsFailure noCompiler P)
    (gnuLike msvc : α) (text : String) :
    Decides IsFailure (deduced o id noCompiler gnuLike msvc text) (o.compilerId.isSome ∨ P) := by
  unfold deduced
  cases hsome : o.compilerId with
  | none =>
    rw [if_pos Option.isNone_none]
    exact h.congr (by simp)
  | some str =>
    rw [if_neg (by simp)]
    rcases hid.known (by rw [hsome]; rfl) with hgnu | hmsvc
    · rw [if_pos hgnu]
      exact (Decides.ok gnuLike).congr (by simp)
    · by_cases hgnu : id.isGnuLike = true
      · rw [if_pos hgnu]
        exact (Decides.ok gnuLike).congr (by simp)
      · rw [if_neg hgnu, if_pos hmsvc]
        exact (Decides.ok msvc).congr (by simp)

/-- A value that is given, or that a compiler decides. -/
theorem decides_required {what : Option α} (message : String) (gnuLike msvc : α) (text : String) :
    Decides IsFailure (readOpt what (deduced o id (fail context message) gnuLike msvc text))
      (what.isSome ∨ o.compilerId.isSome) :=
  (decides_readOpt (decides_deduced hid (decides_fail _ _) gnuLike msvc text)).congr (by simp)

/-- A value with a default for toolchains without a compiler. -/
theorem decides_optional {what : Option α} (default gnuLike msvc : α) (text : String) :
    Decides IsFailure (readOpt what (deduced o id (.ok default) gnuLike msvc text)) True :=
  (decides_readOpt (decides_deduced hid (.ok default) gnuLike msvc text)).congr (by simp)

theorem decides_executable (lang : Language) (hlang : lang = .c ∨ lang = .cxx) :
    Decides IsFailure (getCompilerExecutablePath context o id lang)
      ((if lang = .cxx then o.cxxCompiler else o.cCompiler).isSome ∨ o.compilerId.isSome) := by
  have hrest : Decides IsFailure
      (if o.compilerId.isNone ∧ lang = .c then
        fail context "Unable to determine the executable for a C compiler"
      else if o.compilerId.isNone ∧ lang = .cxx then
        fail context "Unable to determine the executable for a C++ compiler"
      else if id.isGnu then .ok (if lang = .cxx then "g++" else "gcc")
      else if id.isClang then .ok (if lang = .cxx then "clang++" else "clang")
      else if id.isMsvc then .ok "cl.exe"
      else assertFailed "Compiler name deduction failed")
      (o.compilerId.isSome = true) := by
    cases hsome : o.compilerId with
    | none =>
      rcases hlang with rfl | rfl
      · exact (decides_fail _ _).congr (by simp)
      · exact (decides_fail _ _).congr (by simp)
    | some str =>
      rw [if_neg (by simp), if_neg (by simp)]
      have hknown := hid.known (by rw [hsome]; rfl)
      rw [CompilerId.isGnuLike, Bool.or_eq_true] at hknown
      by_cases hgnu : id.isGnu = true
      · rw [if_pos hgnu]
        exact (Decides.ok _).congr (by simp)
      · rw [if_neg hgnu]
        by_cases hclang : id.isClang = true
        · rw [if_pos hclang]
          exact (Decides.ok _).congr (by simp)
        · rw [if_neg hclang, if_pos (by tauto)]
          exact (Decides.ok _).congr (by simp)
  unfold getCompilerExecutablePath
  rcases hlang with rfl | rfl
  · cases o.cCompiler with
    | some compiler => exact (Decides.ok compiler).congr (by simp)
    | none => exact hrest.congr (by simp)
  · cases o.cxxCompiler with
    | some compiler => exact (Decides.ok compiler).congr (by simp)
    | none => exact hrest.congr (by simp)

/-- A compiler decides how the version of a language is spelled. -/
theorem isSome_langVersionFlagTemplateOf : (langVersionFlagTemplateOf o id).isSome ↔
    o.langVersionFlagTemplate.isSome ∨ o.compilerId.isSome := by
  unfold langVersionFlagTemplateOf
  cases hsome : o.compilerId with
  | none =>
    rw [hid.unknown hsome]
    split
    next hgiven => simp [hgiven]
    next hgiven => simp [hgiven, CompilerId.isGnuLike, CompilerId.isGnu, CompilerId.isClang,
      CompilerId.isMsvc]
  | some str =>
    rcases hid.known (by rw [hsome]; rfl) with hgnu | hmsvc
    · split_ifs <;> simp_all
    · split_ifs <;> simp_all

theorem decides_getVersionFlags (key : String) (version : Option String) :
    Decides IsFailure (getVersionFlags context o id key version)
      (version.isSome → o.langVersionFlagTemplate.isSome ∨ o.compilerId.isSome) := by
  unfold getVersionFlags
  cases version with
  | none => exact (Decides.ok _).congr (by simp)
  | some version =>
    have htemplate := isSome_langVersionFlagTemplateOf hid
    cases hsome : langVersionFlagTemplateOf o id with
    | some template =>
      rw [hsome] at htemplate
      exact (Decides.ok _).congr ⟨fun _ _ => htemplate.mp rfl, fun _ => trivial⟩
    | none =>
      rw [hsome] at htemplate
      have hfalse : Decides IsFailure
          (if o.compilerId.isNone then
            fail context s!"Unable to deduce flags for '{key}' without setting 'compiler_id' or 'lang_version_flag_template'"
          else
            fail context s!"Unable to determine the 'lang_version_flag_template' for the given 'compiler_id', required to generate the language version flags for '{key}'" :
            Except ToolchainExn (List String)) False :=
        (Decides.ite (fun _ => decides_fail _ _) fun _ => decides_fail _ _).congr (by simp)
      exact hfalse.congr ⟨False.elim, fun h => nomatch htemplate.mpr (h rfl)⟩

/-- The version that counts for a language. -/
def versionOf (o : Options) (lang : Language) : Option String :=
  if lang = .cxx then o.cxxVersion else o.cVersion

theorem decides_getFlags (lang : Language) (hlang : lang = .c ∨ lang = .cxx) :
    Decides IsFailure (getFlags context o id lang)
      ((versionOf o lang).isSome → o.langVersionFlagTemplate.isSome ∨ o.compilerId.isSome) := by
  unfold getFlags
  rcases hlang with rfl | rfl
  · refine ((Decides.ok _).bind fun _ _ =>
      (decides_getVersionFlags hid "c_version" o.cVersion).bind fun _ _ => .ok _).congr ?_
    simp [versionOf]
  · refine ((decides_getVersionFlags hid "cxx_version" o.cxxVersion).bind fun _ _ =>
      (Decides.ok _).bind fun _ _ => .ok _).congr ?_
    simp [versionOf]

/-- The compiler that is given for a language. -/
def compilerOf (o : Options) (lang : Language) : Option String :=
  if lang = .cxx then o.cxxCompiler else o.cCompiler

theorem decides_compileTemplate (lang : Language) (hlang : lang = .c ∨ lang = .cxx)
    (compileFile : Option (List String)) :
    Decides IsFailure (compileTemplate context o id lang compileFile)
      ((compileFile.isSome ∨ (compilerOf o lang).isSome ∨ o.compilerId.isSome) ∧
        ((versionOf o lang).isSome → o.langVersionFlagTemplate.isSome ∨ o.compilerId.isSome)) := by
  unfold compileTemplate
  have hcommand : Decides IsFailure
      (readOpt compileFile do
        let compiler ← getCompilerExecutablePath context o id lang
        return o.compilerLauncher.getD [] ++ [compiler] ++ getDefaultCompileCommand id)
      (compileFile.isSome ∨ (compilerOf o lang).isSome ∨ o.compilerId.isSome) :=
    (decides_readOpt ((decides_executable hid lang hlang).bind fun _ _ => .ok _)).congr
      (by simp [compilerOf])
  refine (hcommand.bind fun _ _ => (decides_getFlags hid lang hlang).bind fun _ _ => .ok _).congr ?_
  simp

theorem decides_linkExeTemplate :
    Decides IsFailure (linkExeTemplate context o id) (o.compilerId.isSome = true) := by
  unfold linkExeTemplate
  cases hsome : o.compilerId with
  | none => exact (decides_fail _ _).congr (by simp)
  | some str =>
    rw [if_neg (by simp)]
    have hexecutable := @decides_executable context o id hid .cxx (.inr rfl)
    by_cases hmsvc : id.isMsvc = true
    · rw [if_pos hmsvc]
      exact (hexecutable.bind fun _ _ => .ok _).congr (by simp [hsome])
    · have hgnu : id.isGnuLike = true := by
        have hknown := hid.known (by rw [hsome]; rfl)
        tauto
      rw [if_neg hmsvc, if_pos hgnu]
      exact (hexecutable.bind fun _ _ => .ok _).congr (by simp [hsome])

end

/-! ## The whole deduction -/

theorem decides_prepare : Decides IsFailure (prepare context o) (Sufficient o) := by
  unfold prepare
  refine Decides.congr (P := _ ∧ _ ∧ ?given) (Decides.bind decides_checkDebug fun _ _ =>
    Decides.bind decides_compilerIdOf fun id hok => ?steps) ?sufficient
  case steps =>
    have hid := identifies_compilerIdOf hok
    exact Decides.bind decides_depsModeOf fun _ _ =>
      Decides.bind (decides_compileTemplate hid .c (.inl rfl) _) fun _ _ =>
      Decides.bind (decides_compileTemplate hid .cxx (.inr rfl) _) fun _ _ =>
      Decides.bind (decides_required hid _ _ _ _) fun includeTemplate _ =>
      Decides.bind (decides_optional hid includeTemplate _ _ _) fun _ _ =>
      Decides.bind (decides_required hid _ _ _ _) fun _ _ =>
      Decides.bind (decides_required hid _ _ _ _) fun _ _ =>
      Decides.bind (decides_required hid _ _ _ _) fun _ _ =>
      Decides.bind (decides_optional hid _ _ _ _) fun _ _ =>
      Decides.bind (decides_required hid _ _ _ _) fun _ _ =>
      Decides.bind (decides_readOpt (decides_linkExeTemplate hid)) fun _ _ =>
      Decides.bind (decides_optional hid _ _ _ _) fun _ _ =>
      Decides.bind (decides_required hid _ _ _ _) fun _ _ =>
      Decides.bind (decides_required hid _ _ _ _) fun _ _ =>
      Decides.bind (decides_required hid _ _ _ _) fun _ _ => .ok _
  case sufficient =>
    cases hid : o.compilerId with
    | none =>
      simp only [compilerOf, versionOf, Option.isSome_none, Bool.false_eq_true, or_false,
        reduceCtorEq, if_true, if_false, true_and, and_true]
      constructor
      · rintro ⟨hdebug, -, hdeps, ⟨hc, hcver⟩, ⟨hcxx, hcxxver⟩, hinc, hdef, har, hobj, hcreate,
          hlink, hctype, hcxxtype, honly⟩
        exact ⟨hdebug, by simp [hid], hdeps, fun _ => ⟨hc, hcxx, hcver, hcxxver, hinc, hdef, har,
          hobj, hcreate, hlink, hctype, hcxxtype, honly⟩⟩
      · intro h
        have hgiven := h.explicit hid
        exact ⟨h.debug, nofun, h.depsMode, ⟨hgiven.cCompile, hgiven.cVersion⟩,
          ⟨hgiven.cxxCompile, hgiven.cxxVersion⟩, hgiven.includeTemplate, hgiven.defineTemplate,
          hgiven.archiveSuffix, hgiven.objSuffix, hgiven.createArchive, hgiven.linkExecutable,
          hgiven.cSourceTypeFlags, hgiven.cxxSourceTypeFlags, hgiven.syntaxOnlyFlags⟩
    | some compiler =>
      simp only [Option.isSome_some, or_true, implies_true, and_true]
      constructor
      · rintro ⟨hdebug, hcompiler, hdeps⟩
        exact ⟨hdebug, hid ▸ hcompiler, hdeps, fun hnone => absurd (hid.symm.trans hnone) nofun⟩
      · intro h
        exact ⟨h.debug, hid ▸ h.compilerId, h.depsMode⟩

/-! ## Well-typed files -/

/-- A string or an array of strings. -/
def IsFlags : Json → Prop
  | .str _ => True
  | .arr elems => ∀ elem ∈ elems, ∃ str, elem = .str str
  | _ => False

def IsStr (value : Json) : Prop := ∃ str, value = .str str

def IsBool (value : Json) : Prop := ∃ b, value = .bool b

def advancedStrings : List String :=
  ["deps_mode", "obj_prefix", "obj_suffix", "archive_prefix", "archive_suffix", "exe_prefix",
    "exe_suffix", "lang_version_flag_template"]

def advancedFlags : List String :=
  ["include_template", "external_include_template", "define_template", "base_warning_flags",
    "base_flags", "base_c_flags", "base_cxx_flags", "c_compile_file", "cxx_compile_file",
    "create_archive", "link_executable", "tty_flags", "c_source_type_flags",
    "cxx_source_type_flags", "syntax_only_flags", "consider_env"]

structure AdvancedField (key : String) (value : Json) : Prop where
  known : key ∈ advancedStrings ∨ key ∈ advancedFlags
  string : key ∈ advancedStrings → IsStr value
  flags : key ∈ advancedFlags → IsFlags value

/-- Both keys are optional, and what the walk makes of others is up to its library. -/
def RuntimeField [Semester] (key : String) (value : Json) : Prop :=
  if key = "static" ∨ key = "debug" then IsBool value else Semester.rejectUnhandled key = none

def IsObject (field : String → Json → Prop) (value : Json) : Prop :=
  ∃ fields, value = .obj fields ∧ ∀ f ∈ fields, field f.1 f.2

def rootStrings : List String :=
  ["compiler_id", "c_compiler", "cxx_compiler", "c_version", "cxx_version"]

def rootFlags : List String :=
  ["c_flags", "cxx_flags", "warning_flags", "link_flags", "compiler_launcher", "flags"]

structure RootField [Semester] (key : String) (value : Json) : Prop where
  known : key ∈ rootStrings ∨ key ∈ rootFlags ∨
    key ∈ ["$schema", "debug", "optimize", "runtime", "advanced"]
  string : key ∈ rootStrings → IsStr value
  flags : key ∈ rootFlags → IsFlags value
  debug : key = "debug" → IsBool value ∨ IsStr value
  optimize : key = "optimize" → IsBool value
  runtime : key = "runtime" → IsObject RuntimeField value
  advanced : key = "advanced" → IsObject AdvancedField value

/-- Every key is known, and every value has the type of its key. -/
def WellTyped [Semester] (dat : Json) : Prop := IsObject RootField dat

/-- Errors other than a failed assertion. -/
def NoAssertion : ToolchainExn → Prop
  | .assertion _ => False
  | _ => True

theorem decides_requireStr (message : String) (value : Json) :
    Decides NoAssertion
      (liftM (Walk.requireStr message value) : Except ToolchainExn String) (IsStr value) := by
  cases value with
  | str s => exact (Decides.ok s).congr (by simp [IsStr])
  | _ => exact (Decides.error trivial).congr (by simp [IsStr])

theorem decides_keyString (key : String) (value : Json) :
    Decides NoAssertion (keyString key value) (IsStr value) :=
  ((decides_requireStr _ value).bind fun _ _ => .ok _).congr (and_true _).to_iff

theorem decides_requireBool (message : String) (value : Json) :
    Decides NoAssertion (requireBool message value) (IsBool value) := by
  cases value with
  | bool b => exact (Decides.ok (some b)).congr (by simp [IsBool])
  | _ => exact (Decides.error trivial).congr (by simp [IsBool])

theorem decides_elements (message : String) (elems : List Json) :
    Decides NoAssertion
      (liftM (Walk.forEach (Walk.requireStr message) elems) : Except ToolchainExn (List String))
      (∀ elem ∈ elems, IsStr elem) := by
  induction elems with
  | nil => exact (Decides.ok []).congr (by simp)
  | cons elem elems ih =>
    have hcons : (liftM (Walk.forEach (Walk.requireStr message) (elem :: elems)) :
        Except ToolchainExn (List String)) =
        (do
          let str ← (liftM (Walk.requireStr message elem) : Except ToolchainExn String)
          let strs ← (liftM (Walk.forEach (Walk.requireStr message) elems) :
            Except ToolchainExn (List String))
          return str :: strs) := by
      rw [Walk.forEach]
      cases Walk.requireStr message elem with
      | error e => rfl
      | ok str =>
        cases Walk.forEach (Walk.requireStr message) elems with
        | error e => rfl
        | ok strs => rfl
    rw [hcons]
    exact ((decides_requireStr message elem).bind fun _ _ => ih.bind fun _ _ => .ok _).congr
      (by simp)

theorem decides_extendFlags (key : String) (value : Json) (flags : Option (List String)) :
    Decides NoAssertion (extendFlags key value flags) (IsFlags value) := by
  cases value with
  | str s => exact (Decides.ok _).congr (by simp [IsFlags])
  | arr elems =>
    refine ((decides_elements _ elems).bind fun _ _ => .ok _).congr ?_
    simp [IsFlags, IsStr]
  | _ => exact (Decides.error trivial).congr (by simp [IsFlags])

theorem decides_unknownKey (fuel : Nat) (context what key : String) (known : List String) :
    Decides NoAssertion (unknownKey fuel context what key known : Except ToolchainExn Options)
      False := by
  unfold unknownKey
  split
  next => exact .error trivial
  next => exact .error trivial

theorem decides_eachKey {handle : String → Json → Options → Except ToolchainExn Options}
    {field : String → Json → Prop}
    (hfield : ∀ key value o, Decides NoAssertion (handle key value o) (field key value))
    (fields : List (String × Json)) (o : Options) :
    Decides NoAssertion (eachKey handle fields o) (∀ f ∈ fields, field f.1 f.2) :=
  Decides.foldlM (fun o f => hfield f.1 f.2 o) fields o

theorem decides_object {handle : String → Json → Options → Except ToolchainExn Options}
    {field : String → Json → Prop}
    (hfield : ∀ key value o, Decides NoAssertion (handle key value o) (field key value))
    (message : String) (value : Json) (o : Options) :
    Decides NoAssertion
      (do
        let fields ← requireObject message value
        eachKey handle fields o)
      (IsObject field value) := by
  cases value with
  | obj fields =>
    refine (decides_eachKey hfield fields o).congr ?_
    simp [IsObject]
  | _ => exact (Decides.error trivial).congr (by simp [IsObject])

/-! ### The handlers -/

section

variable {key : String} {value : Json}

theorem decides_setString (set : Option String → Options) :
    Decides NoAssertion (do return set (← keyString key value)) (IsStr value) :=
  ((decides_keyString key value).bind fun _ _ => .ok _).congr (by simp)

theorem decides_setFlags (flags : Option (List String)) (set : Option (List String) → Options) :
    Decides NoAssertion (do return set (← extendFlags key value flags)) (IsFlags value) :=
  ((decides_extendFlags key value flags).bind fun _ _ => .ok _).congr (by simp)

theorem decides_setBool (message : String) (set : Option Bool → Options) :
    Decides NoAssertion (do return set (← requireBool message value)) (IsBool value) :=
  ((decides_requireBool message value).bind fun _ _ => .ok _).congr (by simp)

theorem advancedField_string (h : key ∈ advancedStrings) (h' : key ∉ advancedFlags) :
    IsStr value ↔ AdvancedField key value :=
  ⟨fun hstr => ⟨.inl h, fun _ => hstr, fun hkey => absurd hkey h'⟩, fun hfield => hfield.string h⟩

theorem advancedField_flags (h : key ∈ advancedFlags) (h' : key ∉ advancedStrings) :
    IsFlags value ↔ AdvancedField key value :=
  ⟨fun hflags => ⟨.inr h, fun hkey => absurd hkey h', fun _ => hflags⟩, fun hfield => hfield.flags h⟩

theorem decides_readAdvanced (fuel : Nat) (context key : String) (value : Json) (o : Options) :
    Decides NoAssertion (readAdvanced fuel context key value o) (AdvancedField key value) := by
  unfold readAdvanced
  split
  case h_25 =>
    refine (decides_unknownKey _ _ _ _ _).congr (iff_of_false id fun hfield => ?_)
    have hknown := hfield.known
    simp only [advancedStrings, advancedFlags, List.mem_cons, List.not_mem_nil, or_false] at hknown
    tauto
  all_goals
    first
    | exact (decides_setString _).congr (advancedField_string (by decide) (by decide))
    | exact (decides_setFlags _ _).congr (advancedField_flags (by decide) (by decide))

theorem decides_readRuntime [Semester] (key : String) (value : Json) (o : Options) :
    Decides NoAssertion (readRuntime key value o) (RuntimeField key value) := by
  unfold readRuntime
  split
  next => exact (decides_setBool _ _).congr (by simp [RuntimeField])
  next => exact (decides_setBool _ _).congr (by simp [RuntimeField])
  next hstatic hdebug =>
    have hother : RuntimeField key value ↔ Semester.rejectUnhandled key = none := by
      rw [RuntimeField, if_neg fun h => h.elim hstatic hdebug]
    cases hreject : Semester.rejectUnhandled key with
    | none => exact (Decides.ok o).congr (by simp [hother, hreject])
    | some exn => exact (Decides.error trivial).congr (by simp [hother, hreject])

/-- The keys of the root are handled in different ways, and each by one of them. -/
theorem rootField_iff [Semester] {P : Prop}
    (known : key ∈ rootStrings ∨ key ∈ rootFlags ∨
      key ∈ ["$schema", "debug", "optimize", "runtime", "advanced"])
    (h : P ↔ (key ∈ rootStrings → IsStr value) ∧ (key ∈ rootFlags → IsFlags value) ∧
      (key = "debug" → IsBool value ∨ IsStr value) ∧ (key = "optimize" → IsBool value) ∧
      (key = "runtime" → IsObject RuntimeField value) ∧
      (key = "advanced" → IsObject AdvancedField value)) :
    P ↔ RootField key value := by
  rw [h]
  constructor
  · rintro ⟨hstring, hflags, hdebug, hoptimize, hruntime, hadvanced⟩
    exact ⟨known, hstring, hflags, hdebug, hoptimize, hruntime, hadvanced⟩
  · rintro ⟨-, hstring, hflags, hdebug, hoptimize, hruntime, hadvanced⟩
    exact ⟨hstring, hflags, hdebug, hoptimize, hruntime, hadvanced⟩

theorem decides_readField [Semester] (fuel : Nat) (context key : String) (value : Json)
    (o : Options) :
    Decides NoAssertion (readField fuel context key value o) (RootField key value) := by
  unfold readField
  split
  case h_17 =>
    refine (decides_unknownKey _ _ _ _ _).congr (iff_of_false id fun hfield => ?_)
    have hknown := hfield.known
    simp only [rootStrings, rootFlags, List.mem_cons, List.not_mem_nil, or_false] at hknown
    tauto
  case h_1 => exact (Decides.ok o).congr (rootField_iff (by decide) (by simp [rootStrings, rootFlags]))
  case h_12 =>
    refine Decides.congr (P := IsBool value ∨ IsStr value) ?_
      (rootField_iff (by decide) (by simp [rootStrings, rootFlags]))
    cases value with
    | bool b => exact (Decides.ok _).congr (by simp [IsBool])
    | str str => exact (Decides.ok _).congr (by simp [IsStr])
    | _ => exact (Decides.error trivial).congr (by simp [IsBool, IsStr])
  case h_15 =>
    exact (decides_object decides_readRuntime _ value o).congr
      (rootField_iff (by decide) (by simp [rootStrings, rootFlags]))
  case h_16 =>
    exact (decides_object (decides_readAdvanced fuel context) _ value o).congr
      (rootField_iff (by decide) (by simp [rootStrings, rootFlags]))
  all_goals
    first
    | exact (decides_setString _).congr (rootField_iff (by decide) (by simp [rootStrings, rootFlags]))
    | exact (decides_setFlags _ _).congr (rootField_iff (by decide) (by simp [rootStrings, rootFlags]))
    | exact (decides_setBool _ _).congr (rootField_iff (by decide) (by simp [rootStrings, rootFlags]))

end

theorem decides_readOptions [Semester] (fuel : Nat) (context : String) (dat : Json) :
    Decides NoAssertion (readOptions fuel context dat) (WellTyped dat) :=
  decides_object (decides_readField fuel context) _ dat .unset

theorem noAssertion_of_isFailure {e : ToolchainExn} (h : IsFailure e) : NoAssertion e := by
  cases e with
  | assertion text => exact h
  | _ => trivial

/-- A toolchain file is accepted when its values have the types of their keys and its
options suffice. No file of any shape makes an assertion fail. -/
theorem parseToolchainJsonData_spec [Semester] [HashEnvironment] (fuel : Nat) (context : String)
    (dat : Json) :
    ((∃ tc, parseToolchainJsonData fuel context dat = .ok tc) ↔
      WellTyped dat ∧ ∀ o, readOptions fuel context dat = .ok o → Sufficient o) ∧
    ∀ text, parseToolchainJsonData fuel context dat ≠ .error (.assertion text) := by
  have hread := decides_readOptions fuel context dat
  have hprepare : ∀ o, Decides NoAssertion (prepare context o) (Sufficient o) := fun o =>
    ⟨decides_prepare.ok_iff, fun e he => noAssertion_of_isFailure (decides_prepare.expected e he)⟩
  unfold parseToolchainJsonData
  cases ho : readOptions fuel context dat with
  | error e =>
    have hill : ¬ WellTyped dat := fun hwell => by
      obtain ⟨o, hok⟩ := hread.ok_iff.mpr hwell
      rw [ho] at hok
      cases hok
    refine ⟨iff_of_false nofun fun h => hill h.1, fun text herror => ?_⟩
    cases herror
    exact hread.expected _ ho
  | ok o =>
    have hdecides : Decides NoAssertion (do return (← prepare context o).realize) (Sufficient o) :=
      ((hprepare o).bind fun _ _ => .ok _).congr (by simp)
    refine ⟨hdecides.ok_iff.trans ?_, fun text herror => hdecides.expected _ herror⟩
    constructor
    · intro h
      exact ⟨hread.holds ho, fun o' ho' => Except.ok.inj ho' ▸ h⟩
    · exact fun h => h.2 o rfl

end Bpt.Toolchain
