-- SUMMARY: The built-in toolchains: the strings that name one, and the options that each of them stands for.
import Bpt.Toolchain.Deduction

/-!
# Built-in toolchains

`toolchain::get_builtin` takes prefixes off a string, one after the other, and makes a
toolchain file of them and of the compiler that is left.
-/

namespace Bpt.Toolchain

open Fallible

inductive BuiltinExn where
  /-- `e_human_message` -/
  | humanMessage (message : String)
  | toolchain (exn : ToolchainExn)
  deriving DecidableEq

/-- What is left of the string, and the mapping so far. -/
structure BuiltinState where
  tcId : List Char
  rootMap : List (String × Json)

/-- The value for a prefix has no colon at its end. -/
def handlePrefix (key pre : String) (s : BuiltinState) : Option BuiltinState :=
  if pre.toList.isPrefixOf s.tcId then
    some
      { tcId := s.tcId.drop pre.toList.length
        rootMap := SortedMap.emplace key (.str (String.ofList pre.toList.dropLast)) s.rootMap }
  else none

def handleDebug (s : BuiltinState) : BuiltinState :=
  if "debug:".toList.isPrefixOf s.tcId then
    ⟨s.tcId.drop "debug:".toList.length, SortedMap.emplace "debug" (.bool true) s.rootMap⟩
  else s

def cxxVersionPrefixes : List String := ["c++98:", "c++03:", "c++11:", "c++14:", "c++17:", "c++20:"]

structure CompilerInfo where
  c : List Char
  cxx : List Char
  id : List Char
  deriving DecidableEq

def compilerSuffixes : List String := ["-7", "-8", "-9", "-10", "-11", "-12", "-13"]

def compilerSuffix (tcId : List Char) : List Char :=
  ((compilerSuffixes.map String.toList).find? fun suffix => suffix.isSuffixOf tcId).getD []

def optTriple (tcId : List Char) : Option CompilerInfo :=
  let isGcc := "gcc".toList.isPrefixOf tcId
  let isClang := "clang".toList.isPrefixOf tcId
  if isGcc || isClang then
    let base : CompilerInfo :=
      if isGcc then ⟨"gcc".toList, "g++".toList, "gnu".toList⟩
      else ⟨"clang".toList, "clang++".toList, "clang".toList⟩
    let suffix := compilerSuffix tcId
    if base.c ++ suffix ≠ tcId then none else some ⟨base.c ++ suffix, base.cxx ++ suffix, base.id⟩
  else if tcId = "msvc".toList then some ⟨"cl.exe".toList, "cl.exe".toList, "msvc".toList⟩
  else none

def defaultContext : String := "Loading toolchain JSON"

/-- The state after the prefixes. -/
def handlePrefixes (tcId : List Char) : BuiltinState :=
  let s := handleDebug ⟨tcId, []⟩
  let s := (handlePrefix "compiler_launcher" "ccache:" s).getD s
  -- The first version that fits ends the loop.
  (cxxVersionPrefixes.findSome? fun pre => handlePrefix "cxx_version" pre s).getD s

/-- The mapping with the entries for the compiler. -/
def compilerMap (triple : CompilerInfo) (rootMap : List (String × Json)) : List (String × Json) :=
  let rootMap := SortedMap.emplace "c_compiler" (.str (String.ofList triple.c)) rootMap
  let rootMap := SortedMap.emplace "cxx_compiler" (.str (String.ofList triple.cxx)) rootMap
  SortedMap.emplace "compiler_id" (.str (String.ofList triple.id)) rootMap

def getBuiltin [Semester] [HashEnvironment] (fuel : Nat) (tcId : List Char) :
    Except BuiltinExn Toolchain :=
  let s := handlePrefixes tcId
  match optTriple s.tcId with
  | none =>
    let rest := String.ofList s.tcId
    .error (.humanMessage s!"Invalid toolchain string '{rest}'")
  | some triple =>
    (parseToolchainJsonData fuel defaultContext (.obj (compilerMap triple s.rootMap))).mapError
      .toolchain

/-! ## The strings -/

inductive CxxVersion where
  | cxx98
  | cxx03
  | cxx11
  | cxx14
  | cxx17
  | cxx20
  deriving DecidableEq

def CxxVersion.text : CxxVersion → String
  | cxx98 => "c++98"
  | cxx03 => "c++03"
  | cxx11 => "c++11"
  | cxx14 => "c++14"
  | cxx17 => "c++17"
  | cxx20 => "c++20"

inductive Release where
  | unversioned
  | r7
  | r8
  | r9
  | r10
  | r11
  | r12
  | r13
  deriving DecidableEq

def Release.text : Release → String
  | unversioned => ""
  | r7 => "-7"
  | r8 => "-8"
  | r9 => "-9"
  | r10 => "-10"
  | r11 => "-11"
  | r12 => "-12"
  | r13 => "-13"

inductive BuiltinCompiler where
  | gcc (release : Release)
  | clang (release : Release)
  | msvc
  deriving DecidableEq

namespace BuiltinCompiler

def text : BuiltinCompiler → List Char
  | gcc release => "gcc".toList ++ release.text.toList
  | clang release => "clang".toList ++ release.text.toList
  | msvc => "msvc".toList

def info : BuiltinCompiler → CompilerInfo
  | gcc release => ⟨"gcc".toList ++ release.text.toList, "g++".toList ++ release.text.toList, "gnu".toList⟩
  | clang release =>
    ⟨"clang".toList ++ release.text.toList, "clang++".toList ++ release.text.toList, "clang".toList⟩
  | msvc => ⟨"cl.exe".toList, "cl.exe".toList, "msvc".toList⟩

end BuiltinCompiler

/-- What a built-in toolchain is named for. -/
structure BuiltinId where
  debug : Bool
  ccache : Bool
  cxxVersion : Option CxxVersion
  compiler : BuiltinCompiler
  deriving DecidableEq

namespace BuiltinId

def versionText (version : Option CxxVersion) : List Char :=
  match version with
  | none => []
  | some version => version.text.toList ++ [':']

def text (id : BuiltinId) : List Char :=
  (if id.debug then "debug:".toList else []) ++ ((if id.ccache then "ccache:".toList else []) ++
    (versionText id.cxxVersion ++ id.compiler.text))

/-- The options that are set, all others being left open. -/
def options (id : BuiltinId) : Options :=
  { Options.unset with
    compilerId := some (String.ofList id.compiler.info.id)
    cCompiler := some (String.ofList id.compiler.info.c)
    cxxCompiler := some (String.ofList id.compiler.info.cxx)
    cxxVersion := id.cxxVersion.map CxxVersion.text
    compilerLauncher := if id.ccache then some ["ccache"] else none
    debugBool := if id.debug then some true else none }

end BuiltinId

/-! ## Reading the prefixes -/

theorem optTriple_text (compiler : BuiltinCompiler) : optTriple compiler.text = some compiler.info := by
  cases compiler with
  | gcc release => cases release <;> decide
  | clang release => cases release <;> decide
  | msvc => decide

/-- Neither the text of a version nor that of a compiler begins like another prefix. -/
theorem exists_text_eq (version : Option CxxVersion) (compiler : BuiltinCompiler) :
    ∃ x y rest, BuiltinId.versionText version ++ compiler.text = x :: y :: rest ∧ x ≠ 'd' ∧
      ¬(x = 'c' ∧ y = 'c') := by
  rcases version with _ | version
  · cases compiler <;> exact ⟨_, _, _, rfl, by decide, by decide⟩
  · cases version <;> exact ⟨_, _, _, rfl, by decide, by decide⟩

theorem isPrefixOf_append (pre rest : List Char) : pre.isPrefixOf (pre ++ rest) = true :=
  List.isPrefixOf_iff_prefix.mpr (List.prefix_append pre rest)

def debugEntries (debug : Bool) : List (String × Json) :=
  if debug then [("debug", .bool true)] else []

def versionEntries (version : Option CxxVersion) : List (String × Json) :=
  (version.map fun version => ("cxx_version", Json.str version.text)).toList

def launcherEntries (ccache : Bool) : List (String × Json) :=
  if ccache then [("compiler_launcher", .str "ccache")] else []

theorem handleDebug_text (debug ccache : Bool) (version : Option CxxVersion)
    (compiler : BuiltinCompiler) :
    handleDebug ⟨BuiltinId.text ⟨debug, ccache, version, compiler⟩, []⟩ =
      ⟨(if ccache then "ccache:".toList else []) ++ (BuiltinId.versionText version ++ compiler.text),
        debugEntries debug⟩ := by
  unfold handleDebug BuiltinId.text
  cases debug with
  | true =>
    simp only [if_true, isPrefixOf_append, List.drop_left]
    rfl
  | false =>
    obtain ⟨x, y, rest, htext, hx, -⟩ := exists_text_eq version compiler
    have hno : "debug:".toList.isPrefixOf
        ((if ccache then "ccache:".toList else []) ++ (x :: y :: rest)) = false := by
      cases ccache with
      | true => rfl
      | false => simp [List.isPrefixOf, Ne.symm hx]
    simp only [Bool.false_eq_true, if_false, List.nil_append, htext, hno]
    rfl

theorem handleLauncher_text (ccache : Bool) (version : Option CxxVersion)
    (compiler : BuiltinCompiler) (debug : Bool) :
    let s : BuiltinState :=
      ⟨(if ccache then "ccache:".toList else []) ++ (BuiltinId.versionText version ++ compiler.text),
        debugEntries debug⟩
    (handlePrefix "compiler_launcher" "ccache:" s).getD s =
      ⟨BuiltinId.versionText version ++ compiler.text,
        launcherEntries ccache ++ debugEntries debug⟩ := by
  unfold handlePrefix
  cases ccache with
  | true =>
    simp only [if_true, isPrefixOf_append, List.drop_left, Option.getD_some]
    cases debug <;> rfl
  | false =>
    obtain ⟨x, y, rest, htext, -, hxy⟩ := exists_text_eq version compiler
    have hno : "ccache:".toList.isPrefixOf (x :: y :: rest) = false := by
      simp [List.isPrefixOf]
      tauto
    simp only [Bool.false_eq_true, if_false, List.nil_append, htext, hno, Option.getD_none]
    rfl

theorem handleVersion_text (version : Option CxxVersion) (compiler : BuiltinCompiler)
    (rootMap : List (String × Json)) (debug ccache : Bool)
    (hmap : rootMap = launcherEntries ccache ++ debugEntries debug) :
    let s : BuiltinState := ⟨BuiltinId.versionText version ++ compiler.text, rootMap⟩
    (cxxVersionPrefixes.findSome? fun pre => handlePrefix "cxx_version" pre s).getD s =
      ⟨compiler.text, launcherEntries ccache ++ (versionEntries version ++ debugEntries debug)⟩ := by
  subst hmap
  cases version with
  | none => cases compiler <;> rfl
  | some version => cases version <;> cases ccache <;> cases debug <;> rfl

theorem handlePrefixes_text (id : BuiltinId) :
    handlePrefixes id.text = ⟨id.compiler.text,
      launcherEntries id.ccache ++ (versionEntries id.cxxVersion ++ debugEntries id.debug)⟩ := by
  obtain ⟨debug, ccache, version, compiler⟩ := id
  unfold handlePrefixes
  simp only [handleDebug_text, handleLauncher_text]
  exact handleVersion_text version compiler _ debug ccache rfl

/-! ## What is read -/

theorem readOptions_compilerMap [Semester] (fuel : Nat) (id : BuiltinId) :
    readOptions fuel defaultContext (.obj (compilerMap id.compiler.info
      (launcherEntries id.ccache ++ (versionEntries id.cxxVersion ++ debugEntries id.debug)))) =
      .ok id.options := by
  obtain ⟨debug, ccache, version, compiler⟩ := id
  cases version <;> cases ccache <;> cases debug <;> rfl

theorem sufficient_options (id : BuiltinId) : Sufficient id.options where
  debug := nofun
  compilerId := by
    intro name hname
    obtain ⟨debug, ccache, version, compiler⟩ := id
    cases hname
    cases compiler with
    | gcc release => exact .inr (.inl rfl)
    | clang release => exact .inr (.inr rfl)
    | msvc => exact .inl rfl
  depsMode := nofun
  explicit := nofun

/-! ## What is accepted -/

theorem compilerSuffix_mem (tcId : List Char) :
    ∃ release : Release, compilerSuffix tcId = release.text.toList := by
  unfold compilerSuffix
  cases hfind : (compilerSuffixes.map String.toList).find? fun suffix => suffix.isSuffixOf tcId with
  | none => exact ⟨.unversioned, rfl⟩
  | some suffix =>
    have hmem := List.mem_of_find?_eq_some hfind
    simp only [compilerSuffixes, List.map_cons, List.map_nil, List.mem_cons, List.not_mem_nil,
      or_false] at hmem
    rcases hmem with rfl | rfl | rfl | rfl | rfl | rfl | rfl
    · exact ⟨.r7, rfl⟩
    · exact ⟨.r8, rfl⟩
    · exact ⟨.r9, rfl⟩
    · exact ⟨.r10, rfl⟩
    · exact ⟨.r11, rfl⟩
    · exact ⟨.r12, rfl⟩
    · exact ⟨.r13, rfl⟩

theorem exists_compiler {tcId : List Char} {info : CompilerInfo} (h : optTriple tcId = some info) :
    ∃ compiler : BuiltinCompiler, compiler.text = tcId := by
  obtain ⟨release, hrelease⟩ := compilerSuffix_mem tcId
  unfold optTriple at h
  simp only [hrelease] at h
  by_cases hgcc : "gcc".toList.isPrefixOf tcId = true
  · simp only [hgcc, Bool.true_or, if_true] at h
    split at h
    next => cases h
    next hname => exact ⟨.gcc release, not_ne_iff.mp hname⟩
  · by_cases hclang : "clang".toList.isPrefixOf tcId = true
    · simp only [hgcc, hclang, Bool.or_true, if_true, Bool.false_eq_true, if_false] at h
      split at h
      next => cases h
      next hname => exact ⟨.clang release, not_ne_iff.mp hname⟩
    · simp only [hgcc, hclang, Bool.or_self, Bool.false_eq_true, if_false] at h
      split at h
      next hmsvc => exact ⟨.msvc, hmsvc.symm⟩
      next => cases h

theorem tcId_handleDebug (s : BuiltinState) : ∃ debug : Bool,
    s.tcId = (if debug then "debug:".toList else []) ++ (handleDebug s).tcId := by
  unfold handleDebug
  split
  next hpre =>
    obtain ⟨rest, hrest⟩ := List.isPrefixOf_iff_prefix.mp hpre
    refine ⟨true, ?_⟩
    rw [if_pos rfl, ← hrest, List.drop_left]
  next => exact ⟨false, rfl⟩

theorem tcId_handlePrefix {key pre : String} {s s' : BuiltinState}
    (h : handlePrefix key pre s = some s') : s.tcId = pre.toList ++ s'.tcId := by
  unfold handlePrefix at h
  split at h
  next hpre =>
    cases h
    obtain ⟨rest, hrest⟩ := List.isPrefixOf_iff_prefix.mp hpre
    rw [← hrest, List.drop_left]
  next => cases h

theorem tcId_handleLauncher (s : BuiltinState) : ∃ ccache : Bool,
    s.tcId = (if ccache then "ccache:".toList else []) ++
      ((handlePrefix "compiler_launcher" "ccache:" s).getD s).tcId := by
  cases h : handlePrefix "compiler_launcher" "ccache:" s with
  | none => exact ⟨false, rfl⟩
  | some s' => exact ⟨true, tcId_handlePrefix h⟩

theorem tcId_handleVersion (s : BuiltinState) : ∃ version : Option CxxVersion,
    s.tcId = BuiltinId.versionText version ++
      ((cxxVersionPrefixes.findSome? fun pre => handlePrefix "cxx_version" pre s).getD s).tcId := by
  cases h : cxxVersionPrefixes.findSome? fun pre => handlePrefix "cxx_version" pre s with
  | none => exact ⟨none, rfl⟩
  | some s' =>
    obtain ⟨pre, hpre, hs'⟩ := List.exists_of_findSome?_eq_some h
    simp only [cxxVersionPrefixes, List.mem_cons, List.not_mem_nil, or_false] at hpre
    rcases hpre with rfl | rfl | rfl | rfl | rfl | rfl
    · exact ⟨some .cxx98, tcId_handlePrefix hs'⟩
    · exact ⟨some .cxx03, tcId_handlePrefix hs'⟩
    · exact ⟨some .cxx11, tcId_handlePrefix hs'⟩
    · exact ⟨some .cxx14, tcId_handlePrefix hs'⟩
    · exact ⟨some .cxx17, tcId_handlePrefix hs'⟩
    · exact ⟨some .cxx20, tcId_handlePrefix hs'⟩

/-- A string whose rest names a compiler is the text of an identifier. -/
theorem exists_id {tcId : List Char} {info : CompilerInfo}
    (h : optTriple (handlePrefixes tcId).tcId = some info) : ∃ id : BuiltinId, id.text = tcId := by
  obtain ⟨compiler, hcompiler⟩ := exists_compiler h
  obtain ⟨debug, hdebug⟩ := tcId_handleDebug ⟨tcId, []⟩
  obtain ⟨ccache, hccache⟩ := tcId_handleLauncher (handleDebug ⟨tcId, []⟩)
  obtain ⟨version, hversion⟩ := tcId_handleVersion
    ((handlePrefix "compiler_launcher" "ccache:" (handleDebug ⟨tcId, []⟩)).getD
      (handleDebug ⟨tcId, []⟩))
  refine ⟨⟨debug, ccache, version, compiler⟩, ?_⟩
  rw [BuiltinId.text, hcompiler, handlePrefixes, ← hversion, ← hccache, ← hdebug]

/-! ## Texts are unambiguous -/

theorem Release.text_injective : Function.Injective Release.text := by
  intro r r' h
  cases r <;> cases r' <;> first | rfl | exact absurd h (by decide)

theorem CxxVersion.text_injective : Function.Injective CxxVersion.text := by
  intro v v' h
  cases v <;> cases v' <;> first | rfl | exact absurd h (by decide)

theorem BuiltinCompiler.text_injective : Function.Injective BuiltinCompiler.text := by
  have hrelease : ∀ {name : List Char} {r r' : Release},
      name ++ r.text.toList = name ++ r'.text.toList → r = r' := fun h =>
    Release.text_injective (String.toList_injective (List.append_cancel_left h))
  intro compiler compiler' h
  cases compiler with
  | gcc r =>
    cases compiler' with
    | gcc r' => rw [hrelease h]
    | clang r' => cases h
    | msvc => cases h
  | clang r =>
    cases compiler' with
    | gcc r' => cases h
    | clang r' => rw [hrelease h]
    | msvc => cases h
  | msvc =>
    cases compiler' with
    | gcc r' => cases h
    | clang r' => cases h
    | msvc => rfl

theorem BuiltinId.options_injective {id id' : BuiltinId} (hcompiler : id.compiler = id'.compiler)
    (h : id.options = id'.options) : id = id' := by
  obtain ⟨debug, ccache, version, compiler⟩ := id
  obtain ⟨debug', ccache', version', compiler'⟩ := id'
  obtain rfl : compiler = compiler' := hcompiler
  have hversion : version = version' :=
    Option.map_injective CxxVersion.text_injective (congrArg Options.cxxVersion h)
  have hccache : ccache = ccache' := by
    have hlauncher := congrArg Options.compilerLauncher h
    cases ccache <;> cases ccache' <;> first | rfl | cases hlauncher
  have hdebug : debug = debug' := by
    have hbool := congrArg Options.debugBool h
    cases debug <;> cases debug' <;> first | rfl | cases hbool
  rw [hversion, hccache, hdebug]

/-- The text is read in one way only, and what is read are the options. -/
theorem BuiltinId.text_injective : Function.Injective BuiltinId.text := by
  intro id id' h
  obtain ⟨htext, hmap⟩ := BuiltinState.mk.inj
    ((handlePrefixes_text id).symm.trans (h ▸ handlePrefixes_text id'))
  have hcompiler := BuiltinCompiler.text_injective htext
  have hread := @readOptions_compilerMap .permissive 0 id
  rw [hmap, hcompiler, @readOptions_compilerMap .permissive 0 id'] at hread
  exact options_injective hcompiler (Except.ok.inj hread).symm

/-- A string names at most one built-in toolchain, and the toolchain is the one that its
options make. Every other string is rejected with what is left after the prefixes. -/
theorem getBuiltin_spec [Semester] [HashEnvironment] (fuel : Nat) (tcId : List Char) :
    (∀ id : BuiltinId, id.text = tcId → (∀ id' : BuiltinId, id'.text = tcId → id' = id) ∧
      ∃ prep, prepare defaultContext id.options = .ok prep ∧
        getBuiltin fuel tcId = .ok prep.realize) ∧
    ((¬∃ id : BuiltinId, id.text = tcId) → ∃ rest : String,
      getBuiltin fuel tcId = .error (.humanMessage s!"Invalid toolchain string '{rest}'")) := by
  constructor
  · rintro id rfl
    refine ⟨fun id' h => BuiltinId.text_injective h, ?_⟩
    obtain ⟨prep, hprep⟩ := decides_prepare.ok_iff.mpr (sufficient_options id)
    refine ⟨prep, hprep, ?_⟩
    have hparse : parseToolchainJsonData fuel defaultContext (.obj (compilerMap id.compiler.info
        (launcherEntries id.ccache ++ (versionEntries id.cxxVersion ++ debugEntries id.debug)))) =
        .ok prep.realize :=
      bind_eq_ok.mpr ⟨id.options, readOptions_compilerMap fuel id, bind_eq_ok.mpr ⟨prep, hprep, rfl⟩⟩
    simp only [getBuiltin, handlePrefixes_text, optTriple_text, hparse]
    rfl
  · intro hno
    cases htriple : optTriple (handlePrefixes tcId).tcId with
    | none => exact ⟨String.ofList (handlePrefixes tcId).tcId, by simp only [getBuiltin, htriple]⟩
    | some info => exact absurd (exists_id htriple) hno

end Bpt.Toolchain
