-- SUMMARY: Package metadata survives printing and reading: exactly the valid packages are read back.
import Bpt.Crs.Info.Valid
import Bpt.Util.JsonConvert

/-!
# Printed packages are read back

`to_json` dumps a document that keeps the order of its fields. The parser puts
the fields in key order, and so do the conversions between the two JSON types.
The printer and the parser of `nlohmann::json` are parameters.
-/

namespace Bpt

open Fallible Walk

/-- The printer and the parser of `nlohmann::json`. -/
structure NlohmannJson where
  /-- `dump`, with an indentation or without. -/
  dump : Option Int → Json → String
  parse : String → JsonText

/-- What is dumped is parsed, with its fields in key order. -/
def NlohmannJson.ParsesDumped (json : NlohmannJson) (indent : Option Int) (doc : Json) : Prop :=
  json.parse (json.dump indent doc) = some doc.convert

end Bpt

namespace Bpt.Crs

open Fallible Walk

variable {V S : Type} [Semver V] [VersionRangeSet S V]

namespace PackageInfo

/-- The document that `to_json` dumps. -/
def toJsonDoc (pkg : PackageInfo V S) : Option Json :=
  toJson { pkg with
    extra := pkg.extra.json5AsNlohmannJson
    meta_ := pkg.meta_.json5AsNlohmannJson }

def indentation (indent : Int) : Option Int := if indent = 0 then none else some indent

/-- `to_json`. -/
def toJsonText (json : NlohmannJson) (indent : Int) (pkg : PackageInfo V S) : Option String :=
  pkg.toJsonDoc.map (json.dump (indentation indent))

/-- `from_json_str`. -/
def fromJsonText [Semester] (json : NlohmannJson) (text : String) :
    Except LoadError (PackageInfo V S) :=
  fromJsonStr ((json.parse text).map Json.nlohmannJsonAsJson5)

/-- The packages are equal when the order of the fields of free-form objects does
not count. -/
structure Same (pkg pkg' : PackageInfo V S) : Prop where
  id : pkg.id = pkg'.id
  libraries : pkg.libraries = pkg'.libraries
  extra : pkg.extra.Same pkg'.extra
  meta_ : pkg.meta_.Same pkg'.meta_

end PackageInfo

/-! ## Dependencies -/

/-- The intervals of a normal form are not empty. -/
def NonemptyIntervals (S : Type) {V : Type} [Semver V] [VersionRangeSet S V] : Prop :=
  ∀ s : S, ∀ iv ∈ IntervalOps.iterIntervals s, iv.1 < iv.2

/-- Intervals that stand in order, with gaps between them, are kept as they are
read. -/
theorem Dependency.iterIntervals_foldl_union {ivs : List (V × V)} (hlt : ∀ iv ∈ ivs, iv.1 < iv.2)
    (s : S) (h : (IntervalOps.iterIntervals s ++ ivs).Pairwise fun iv iv' => iv.2 < iv'.1) :
    IntervalOps.iterIntervals
        (ivs.foldl (fun acc iv => IntervalOps.union acc (IntervalOps.ofInterval iv.1 iv.2)) s) =
      IntervalOps.iterIntervals s ++ ivs := by
  induction ivs generalizing s with
  | nil => simp
  | cons iv ivs ih =>
      have hiv : IntervalOps.iterIntervals
          (IntervalOps.union s (IntervalOps.ofInterval iv.1 iv.2)) =
          IntervalOps.iterIntervals s ++ [iv] :=
        VersionRangeSet.iterIntervals_union s iv.1 iv.2 (hlt iv List.mem_cons_self)
          fun iv' hiv' => (List.pairwise_append.mp h).2.2 iv' hiv' iv List.mem_cons_self
      rw [List.foldl_cons, ih (fun iv' hiv' => hlt iv' (List.mem_cons_of_mem _ hiv')), hiv,
        List.append_assoc, List.singleton_append]
      rwa [hiv, List.append_assoc, List.singleton_append]

/-- A set is the union of its intervals. -/
theorem Dependency.unionOf_iterIntervals (hnormal : NonemptyIntervals S) (s : S) :
    Dependency.unionOf (IntervalOps.iterIntervals s) = s := by
  refine VersionRangeSet.ext _ _ ?_
  unfold Dependency.unionOf
  rw [Dependency.iterIntervals_foldl_union (hnormal s), VersionRangeSet.iterIntervals_emptySet,
    List.nil_append]
  simpa [VersionRangeSet.iterIntervals_emptySet] using VersionRangeSet.iterIntervals_pairwise s

omit [VersionRangeSet S V] in
theorem versionFromString_toStr_eq_ok (v : V) :
    Dependency.versionFromString (Semver.toStr v) = .ok v := by
  unfold Dependency.versionFromString
  rw [Semver.parse_toStr]

section

variable [Semester]

omit [VersionRangeSet S V] in
/-- The printed form of an interval, as it is read. -/
theorem Dependency.parseVersionRange_convert {iv : V × V} (h : iv.1 < iv.2) :
    parseVersionRange (Json.convert (.obj
      [("low", .str (Semver.toStr iv.1)), ("high", .str (Semver.toStr iv.2))])) = .ok iv := by
  have hconvert : Json.convert (.obj
      [("low", .str (Semver.toStr iv.1)), ("high", .str (Semver.toStr iv.2))]) =
      .obj [("high", .str (Semver.toStr iv.2)), ("low", .str (Semver.toStr iv.1))] := rfl
  have hwalk : mapping
      [("low", "'low' version is required"), ("high", "'high' version is required")]
      readRangeField ((default, default) : V × V)
      [("high", .str (Semver.toStr iv.2)), ("low", .str (Semver.toStr iv.1))] = .ok iv := by
    simp [mapping, eachField, walkFields, readRangeField, requireKeys, bind_eq_ok,
      versionFromString_toStr_eq_ok]
  rw [hconvert]
  simp only [parseVersionRange, bind_eq_ok]
  refine ⟨_, rfl, iv, hwalk, ?_⟩
  rw [if_neg (not_le_of_gt h)]
  rfl

omit [Semester] in
theorem convert_namesAsStrArray (names : List Name) :
    (namesAsStrArray names).convert = namesAsStrArray names := by
  unfold namesAsStrArray
  rw [Json.convert, Json.convertElems_eq_map, List.map_map]
  rfl

omit [Semester] in
theorem forEach_names (read : Reader Name) {names : List Name}
    (hread : ∀ n : Name, n.Valid → read (.str n.str) = .ok n) (h : ∀ n ∈ names, n.Valid) :
    forEach read (names.map fun n => .str n.str) = .ok names := by
  rw [forEach_eq_ok_iff, List.forall₂_map_left_iff, List.forall₂_same]
  exact fun n hn => hread n (h n hn)

/-- The printed form of a valid dependency, as it is read. -/
theorem Dependency.fromData_convert (hnormal : NonemptyIntervals S) {dep : Dependency S}
    (h : dep.Valid) {data : Json} (hdata : dep.toJson = some data) :
    fromData data.convert = .ok dep := by
  obtain ⟨name, versions, uses⟩ := dep
  obtain ⟨hname, hversions, uses, rfl, huses⟩ := h
  cases hdata
  have hconvert : Json.convert (.obj
      [("name", .str name.str),
       ("versions", .arr ((IntervalOps.iterIntervals versions).map fun ver =>
         .obj [("low", .str (Semver.toStr ver.1)), ("high", .str (Semver.toStr ver.2))])),
       ("using", namesAsStrArray uses)]) =
      .obj
      [("name", .str name.str),
       ("using", (namesAsStrArray uses).convert),
       ("versions", .arr (Json.convertElems ((IntervalOps.iterIntervals versions).map fun ver =>
         .obj [("low", .str (Semver.toStr ver.1)), ("high", .str (Semver.toStr ver.2))])))] := rfl
  have hversions' : forEach parseVersionRange
      (Json.convertElems ((IntervalOps.iterIntervals versions).map fun ver =>
        .obj [("low", .str (Semver.toStr ver.1)), ("high", .str (Semver.toStr ver.2))])) =
      .ok (IntervalOps.iterIntervals versions) := by
    rw [Json.convertElems_eq_map, List.map_map, forEach_eq_ok_iff, List.forall₂_map_left_iff,
      List.forall₂_same]
    exact fun iv hiv => parseVersionRange_convert (hnormal versions iv hiv)
  have huses' := forEach_names
    (fun elem => do
      let s ← requireStr "Each 'using' item must be a usage string" elem
      nameFromString s)
    (fun n hn => bind_eq_ok.mpr ⟨n.str, rfl, nameFromString_eq_ok_iff.mpr ⟨hn, rfl⟩⟩) huses
  rw [hconvert, convert_namesAsStrArray]
  simp only [fromData, bind_eq_ok]
  refine ⟨_, rfl, ⟨name, IntervalOps.iterIntervals versions, uses⟩, ?_, ?_⟩
  · simp [mapping, eachField, walkFields, readField, requireKeys, bind_eq_ok, namesAsStrArray,
      nameFromString_eq_ok_iff.mpr ⟨hname, rfl⟩, huses', hversions']
  · rw [if_neg (by simpa using hversions), pure_eq_ok]
    simp only [Dependency.mk.injEq, true_and, and_true]
    exact unionOf_iterIntervals hnormal versions

omit [Semester] in
theorem forEach_convert {α : Type} {read : Reader α} {print : α → Option Json} {as : List α}
    {elems : List Json} (helems : as.mapM print = some elems)
    (h : ∀ a ∈ as, ∀ elem, print a = some elem → read elem.convert = .ok a) :
    forEach read (elems.map Json.convert) = .ok as := by
  rw [forEach_eq_ok_iff, List.forall₂_map_left_iff]
  have hall := forall₂_of_mapM helems
  clear helems
  induction hall with
  | nil => exact .nil
  | cons hprint _ ih =>
      refine .cons (h _ List.mem_cons_self _ hprint) ?_
      exact ih fun a ha => h a (List.mem_cons_of_mem _ ha)

/-! ## Libraries -/

/-- The printed form of a valid library, as it is read. -/
theorem LibraryInfo.fromData_convert (hnormal : NonemptyIntervals S) {lib : LibraryInfo S}
    (h : lib.Valid) {data : Json} (hdata : lib.toJson = some data) :
    fromData data.convert = .ok lib := by
  simp only [toJson, Option.bind_eq_bind, Option.bind_eq_some_iff, Option.pure_def,
    Option.some.injEq] at hdata
  obtain ⟨deps, hdeps, testDeps, htestDeps, rfl⟩ := hdata
  have hconvert : Json.convert (.obj
      [("name", .str lib.name.str),
       ("path", .str lib.path.toGenericString),
       ("using", namesAsStrArray lib.intraUsing),
       ("test-using", namesAsStrArray lib.intraTestUsing),
       ("dependencies", .arr deps),
       ("test-dependencies", .arr testDeps)]) =
      .obj
      [("dependencies", .arr (Json.convertElems deps)),
       ("name", .str lib.name.str),
       ("path", .str lib.path.toGenericString),
       ("test-dependencies", .arr (Json.convertElems testDeps)),
       ("test-using", (namesAsStrArray lib.intraTestUsing).convert),
       ("using", (namesAsStrArray lib.intraUsing).convert)] := rfl
  have hnames {names : List Name} (hnames : ∀ n ∈ names, n.Valid) :=
    forEach_names (fun elem => do nameFromString (← asString elem))
      (fun _ hn => nameFromString_eq_ok_iff.mpr ⟨hn, rfl⟩) hnames
  have hdeps' := forEach_convert hdeps fun dep hdep _ hprint =>
    Dependency.fromData_convert hnormal (h.dependencies dep hdep) hprint
  have htestDeps' := forEach_convert htestDeps fun dep hdep _ hprint =>
    Dependency.fromData_convert hnormal (h.testDependencies dep hdep) hprint
  rw [hconvert, convert_namesAsStrArray, convert_namesAsStrArray]
  simp [fromData, mapping, eachField, walkFields, readField, requireKeys, bind_eq_ok, namesAsStrArray,
    Json.convertElems_eq_map, nameFromString_eq_ok_iff.mpr ⟨h.name, rfl⟩,
    normalizeLibraryPath_toGenericString h.legible h.path, hnames h.intraUsing,
    hnames h.intraTestUsing, hdeps', htestDeps']

/-! ## Packages -/

namespace PackageInfo

variable {pkg : PackageInfo V S}

/-- The document of a valid package, as it is read. -/
theorem fromJsonData_convert (hnormal : NonemptyIntervals S) (h : pkg.Valid) {doc : Json}
    (hdoc : pkg.toJsonDoc = some doc) :
    fromJsonData doc.convert =
      .ok { pkg with extra := pkg.extra.convert, meta_ := pkg.meta_.convert } := by
  simp only [toJsonDoc, toJson, Option.bind_eq_bind, Option.bind_eq_some_iff, Option.pure_def,
    Option.some.injEq, Json.json5AsNlohmannJson] at hdoc
  obtain ⟨libs, hlibs, rfl⟩ := hdoc
  have hconvert : Json.convert (.obj
      [("name", .str pkg.id.name.str),
       ("version", .str (Semver.toStr pkg.id.version)),
       ("pkg-version", .num pkg.id.revision),
       ("extra", pkg.extra.convert),
       ("meta", pkg.meta_.convert),
       ("libraries", .arr libs),
       ("schema-version", .num 1)]) =
      .obj
      [("extra", pkg.extra.convert.convert),
       ("libraries", .arr (Json.convertElems libs)),
       ("meta", pkg.meta_.convert.convert),
       ("name", .str pkg.id.name.str),
       ("pkg-version", .num pkg.id.revision),
       ("schema-version", .num 1),
       ("version", .str (Semver.toStr pkg.id.version))] := rfl
  have hlibs' := forEach_convert hlibs fun lib hlib _ hprint =>
    LibraryInfo.fromData_convert hnormal (h.libraries lib hlib) hprint
  have hrevision : requireIntegerKey "pkg-version" (.num pkg.id.revision) = .ok pkg.id.revision := by
    simp only [requireIntegerKey, Rat.num_intCast, Rat.den_intCast]
    rw [if_pos ⟨trivial, h.revision⟩]
  have hv1 : fromJsonDataV1 (.obj
      [("extra", pkg.extra.convert),
       ("libraries", .arr (Json.convertElems libs)),
       ("meta", pkg.meta_.convert),
       ("name", .str pkg.id.name.str),
       ("pkg-version", .num pkg.id.revision),
       ("schema-version", .num 1),
       ("version", .str (Semver.toStr pkg.id.version))]) =
      .ok { pkg with extra := pkg.extra.convert, meta_ := pkg.meta_.convert } := by
    simp only [fromJsonDataV1, bind_eq_ok]
    refine ⟨_, rfl, { pkg with extra := pkg.extra.convert, meta_ := pkg.meta_.convert }, ?_, ?_⟩
    · simp [mapping, eachField, walkFields, readField, requireKeys, bind_eq_ok, Json.convertElems_eq_map,
        nameFromString_eq_ok_iff.mpr ⟨h.name, rfl⟩, versionFromString_toStr_eq_ok, hrevision, hlibs']
    · rw [if_neg (by simpa using h.nonempty)]
      rfl
  rw [hconvert, Json.convert_convert, Json.convert_convert]
  refine mapError_eq_ok.mpr ?_
  simp only [List.lookup_cons, String.reduceBEq, if_true]
  exact hv1

omit [Semester] in
theorem exists_toJsonDoc (h : pkg.Valid) : ∃ doc, pkg.toJsonDoc = some doc :=
  exists_toJson_of_explicit fun lib hlib => (h.libraries lib hlib).explicit

/-- A package can be printed and is read back just when it is valid. -/
theorem reads_back_iff (hnormal : NonemptyIntervals S) {json : NlohmannJson} {indent : Int}
    (hjson : ∀ doc, pkg.toJsonDoc = some doc → json.ParsesDumped (indentation indent) doc) :
    (∃ text pkg', pkg.toJsonText json indent = some text ∧ fromJsonText json text = .ok pkg' ∧
      pkg'.Same pkg) ↔ pkg.Valid := by
  constructor
  · rintro ⟨text, pkg', _, hread, hsame⟩
    have hvalid := valid_of_fromJsonStr hread
    constructor
    · exact hsame.id ▸ hvalid.name
    · exact hsame.id ▸ hvalid.revision
    · exact hsame.libraries ▸ hvalid.nonempty
    · exact hsame.libraries ▸ hvalid.libraries
  · intro h
    obtain ⟨doc, hdoc⟩ := exists_toJsonDoc h
    refine ⟨_, { pkg with extra := pkg.extra.convert, meta_ := pkg.meta_.convert },
      by rw [toJsonText, hdoc]; rfl, ?_, rfl, rfl, Json.convert_same _, Json.convert_same _⟩
    unfold fromJsonText
    rw [hjson doc hdoc, Option.map_some, Json.nlohmannJsonAsJson5, Json.convert_convert]
    exact fromJsonData_convert hnormal h hdoc

/-- Metadata that was read is read again, and the same, from what it prints. -/
theorem fromJsonText_toJsonText (hnormal : NonemptyIntervals S) (json : NlohmannJson)
    (indent : Int) {data : Json} (hread : fromJsonData data = .ok pkg)
    (hjson : ∀ doc, pkg.toJsonDoc = some doc → json.ParsesDumped (indentation indent) doc) :
    ∃ text pkg', pkg.toJsonText json indent = some text ∧ fromJsonText json text = .ok pkg' ∧
      pkg'.Same pkg :=
  (reads_back_iff hnormal hjson).mpr (valid_of_fromJsonData hread)

end PackageInfo

end

/-! ### A package with a dependency -/

section

attribute [local instance] Semester.permissive

open PackageInfo

theorem nonemptyIntervals_patchRelease : NonemptyIntervals (Finset Nat) := by
  intro s iv hiv
  obtain ⟨iv', hiv', rfl⟩ := List.mem_map.mp hiv
  exact PatchRelease.runs_lt _ iv' hiv'

/-- A package that uses `bar` at versions from `0.0.1` to `0.0.3`. -/
def fooWithBar : Json := .obj
  [("extra", .obj [("b", .num 1), ("a", .arr [.null])]),
   ("libraries", .arr [.obj
     [("dependencies", .arr [.obj
       [("name", .str "bar"),
        ("using", .arr [.str "bar"]),
        ("versions", .arr [
          .obj [("high", .str "0.0.2"), ("low", .str "0.0.1")],
          .obj [("high", .str "0.0.3"), ("low", .str "0.0.2")]])]]),
      ("name", .str "main"),
      ("path", .str "lib/./main"),
      ("test-dependencies", .arr []),
      ("test-using", .arr []),
      ("using", .arr [])]]),
   ("name", .str "foo"),
   ("pkg-version", .num 1),
   ("schema-version", .num 1),
   ("version", .str "0.0.1")]

def fooWithBarInfo : PackageInfo PatchRelease (Finset Nat) where
  id := ⟨⟨"foo"⟩, ⟨1⟩, 1⟩
  libraries :=
    [⟨⟨"main"⟩, ⟨false, ["lib", "main"], false⟩, [], [],
      [⟨⟨"bar"⟩, {1, 2}, .explicitUsesList [⟨"bar"⟩]⟩], []⟩]
  extra := .obj [("b", .num 1), ("a", .arr [.null])]
  meta_ := .null

/-- What it prints without an indentation. -/
def fooWithBarText : String :=
  "\x7b\"name\":\"foo\",\"version\":\"0.0.1\",\"pkg-version\":1," ++
  "\"extra\":\x7b\"a\":[null],\"b\":1.0\x7d,\"meta\":null," ++
  "\"libraries\":[\x7b\"name\":\"main\",\"path\":\"lib/main\",\"using\":[],\"test-using\":[]," ++
  "\"dependencies\":[\x7b\"name\":\"bar\"," ++
  "\"versions\":[\x7b\"low\":\"0.0.1\",\"high\":\"0.0.3\"\x7d],\"using\":[\"bar\"]\x7d]," ++
  "\"test-dependencies\":[]\x7d],\"schema-version\":1\x7d"

/-- The document of the text, in key order. -/
def fooWithBarParsed : Json := .obj
  [("extra", .obj [("a", .arr [.null]), ("b", .num 1)]),
   ("libraries", .arr [.obj
     [("dependencies", .arr [.obj
       [("name", .str "bar"),
        ("using", .arr [.str "bar"]),
        ("versions", .arr [.obj [("high", .str "0.0.3"), ("low", .str "0.0.1")]])]]),
      ("name", .str "main"),
      ("path", .str "lib/main"),
      ("test-dependencies", .arr []),
      ("test-using", .arr []),
      ("using", .arr [])]]),
   ("meta", .null),
   ("name", .str "foo"),
   ("pkg-version", .num 1),
   ("schema-version", .num 1),
   ("version", .str "0.0.1")]

def fooWithBarNlohmann : NlohmannJson where
  dump _ _ := fooWithBarText
  parse text := if text = fooWithBarText then some fooWithBarParsed else none

theorem fromJsonText_toJsonText_foo :
    ∃ text pkg', fooWithBarInfo.toJsonText fooWithBarNlohmann 0 = some text ∧
      fromJsonText fooWithBarNlohmann text = .ok pkg' ∧ pkg'.Same fooWithBarInfo := by
  have hread : fromJsonData fooWithBar = .ok fooWithBarInfo := by decide +kernel
  refine fromJsonText_toJsonText nonemptyIntervals_patchRelease fooWithBarNlohmann 0 hread ?_
  intro doc hdoc
  have hparsed : fooWithBarInfo.toJsonDoc.map Json.convert = some fooWithBarParsed := by
    decide +kernel
  rw [hdoc, Option.map_some, Option.some.injEq] at hparsed
  rw [NlohmannJson.ParsesDumped, hparsed]
  simp [fooWithBarNlohmann]

end

end Bpt.Crs
