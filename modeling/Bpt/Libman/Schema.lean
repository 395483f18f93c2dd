-- SUMMARY: What a row of readers accepts, and the schemas of the libman files that are not enforced.
import Bpt.Libman.Index

/-!
# Schemas of libman files

A file names its type once, and each key that a library, a package or an index
must have. The reader that requires the type takes every pair with that key, so
the reader behind it, which compares the type, sees none of them.
-/

namespace Bpt.Libman

/-! ## The first reader of a row -/

section

variable {σ : Type} {context key : String} {pair : Pair} {readers : List (Reader σ)} {s : σ}

theorem readPair_of_none {reader : Reader σ} (h : reader context pair s = .ok none) :
    readPair context pair (reader :: readers) s = readPair context pair readers s := by
  rw [readPair, h]
  rfl

theorem readPair_of_some {reader : Reader σ} {s' : σ} (h : reader context pair s = .ok (some s')) :
    readPair context pair (reader :: readers) s = .ok s' := by
  rw [readPair, h]
  rfl

theorem readPair_of_error {reader : Reader σ} {e : LibmanError}
    (h : reader context pair s = .error e) :
    readPair context pair (reader :: readers) s = .error e := by
  rw [readPair, h]
  rfl

theorem readPair_readRequired {ref : σ → Option String} {store : String → σ → σ} :
    readPair context pair (readRequired key ref store :: readers) s =
      if pair.key = key then
        if (ref s).isSome then .error (.duplicatedKey context pair.key)
        else .ok (store pair.value s)
      else readPair context pair readers s := by
  by_cases hkey : pair.key = key
  · rw [if_pos hkey]
    by_cases href : (ref s).isSome
    · rw [if_pos href]
      apply readPair_of_error
      simp [readRequired, hkey, href]
    · rw [if_neg href]
      apply readPair_of_some
      simp [readRequired, hkey, href]
  · rw [if_neg hkey]
    apply readPair_of_none
    simp [readRequired, hkey]

theorem readPair_readOpt {store : String → σ → σ} :
    readPair context pair (readOpt key store :: readers) s =
      if pair.key = key then .ok (store pair.value s) else readPair context pair readers s := by
  by_cases hkey : pair.key = key
  · rw [if_pos hkey]
    apply readPair_of_some
    simp [readOpt, hkey]
  · rw [if_neg hkey]
    apply readPair_of_none
    simp [readOpt, hkey]

/-- Behind a reader that takes every pair with the key. -/
theorem readPair_readCheckEq {expect : String} (hkey : pair.key ≠ key) :
    readPair context pair (readCheckEq key expect :: readers) s =
      readPair context pair readers s := by
  apply readPair_of_none
  simp [readCheckEq, hkey]

theorem readPair_readAccumulate {push : String → σ → Except LibmanError σ} :
    readPair context pair (readAccumulate key push :: readers) s =
      if pair.key = key then push pair.value s else readPair context pair readers s := by
  by_cases hkey : pair.key = key
  · rw [if_pos hkey]
    cases hpush : push pair.value s with
    | error e =>
      apply readPair_of_error
      simp [readAccumulate, hkey, hpush, Except.map]
    | ok s' =>
      apply readPair_of_some
      simp [readAccumulate, hkey, hpush, Except.map]
  · rw [if_neg hkey]
    apply readPair_of_none
    simp [readAccumulate, hkey]

end

/-! ## Required keys -/

/-- How often a key occurs. -/
def occurrences (key : String) (pairs : List Pair) : Nat :=
  pairs.countP fun pair => pair.key = key

theorem occurrences_cons (key : String) (pair : Pair) (pairs : List Pair) :
    occurrences key (pair :: pairs) = occurrences key pairs + if pair.key = key then 1 else 0 := by
  unfold occurrences
  rw [List.countP_cons]
  simp

section

variable {σ : Type}

/-- What a row of readers takes, and where it keeps the values of its required keys. -/
structure Row (context : String) (readers : List (Reader σ))
    (required : List (String × (σ → Option String))) (accept : Pair → Prop) : Prop where
  takes : ∀ pair s, (∃ s', readPair context pair readers s = .ok s') ↔
    accept pair ∧ ∀ r ∈ required, pair.key = r.1 → r.2 s = none
  keeps : ∀ pair s s', readPair context pair readers s = .ok s' →
    ∀ r ∈ required, r.2 s' = if pair.key = r.1 then some pair.value else r.2 s

variable {context : String} {readers : List (Reader σ)}
  {required : List (String × (σ → Option String))} {accept : Pair → Prop}

theorem read_cons (pair : Pair) (pairs : List Pair) (s : σ) :
    read context (pair :: pairs) readers s =
      (readPair context pair readers s >>= fun s' => read context pairs readers s') :=
  List.foldlM_cons

/-- A key that was read before is not read again. -/
theorem Row.read_iff (row : Row context readers required accept) (pairs : List Pair) (s : σ) :
    (∃ s', read context pairs readers s = .ok s' ∧ ∀ r ∈ required, (r.2 s').isSome) ↔
      (∀ pair ∈ pairs, accept pair) ∧
        ∀ r ∈ required, occurrences r.1 pairs + (if (r.2 s).isSome then 1 else 0) = 1 := by
  induction pairs generalizing s with
  | nil =>
    constructor
    · rintro ⟨s', hread, hall⟩
      cases hread
      refine ⟨fun pair hpair => absurd hpair List.not_mem_nil, fun r hr => ?_⟩
      rw [if_pos (hall r hr)]
      rfl
    · rintro ⟨-, hall⟩
      refine ⟨s, rfl, fun r hr => ?_⟩
      by_contra hnone
      have hone := hall r hr
      rw [if_neg hnone] at hone
      cases hone
  | cons pair pairs ih =>
    -- The count of a key that the pair has starts at zero, and so the key was not read.
    have hstep : ∀ s', readPair context pair readers s = .ok s' → ∀ r ∈ required,
        (occurrences r.1 (pair :: pairs) + (if (r.2 s).isSome then 1 else 0) = 1 ↔
          occurrences r.1 pairs + (if (r.2 s').isSome then 1 else 0) = 1) := by
      intro s' hs' r hr
      have hfree := ((row.takes pair s).mp ⟨s', hs'⟩).2 r hr
      rw [occurrences_cons, row.keeps pair s s' hs' r hr]
      by_cases hkey : pair.key = r.1
      · rw [if_pos hkey, if_pos hkey, hfree hkey]
        simp
      · rw [if_neg hkey, if_neg hkey, Nat.add_zero]
    rw [read_cons, List.forall_mem_cons]
    constructor
    · rintro ⟨s'', hread, hall⟩
      obtain ⟨s', hs', hrest⟩ := Fallible.bind_eq_ok.mp hread
      obtain ⟨haccept, hcounts⟩ := (ih s').mp ⟨s'', hrest, hall⟩
      refine ⟨⟨((row.takes pair s).mp ⟨s', hs'⟩).1, haccept⟩, fun r hr => ?_⟩
      exact (hstep s' hs' r hr).mpr (hcounts r hr)
    · rintro ⟨⟨hpair, haccept⟩, hcounts⟩
      have hfree : ∀ r ∈ required, pair.key = r.1 → r.2 s = none := by
        intro r hr hkey
        have hone := hcounts r hr
        rw [occurrences_cons, if_pos hkey] at hone
        by_contra hsome
        rw [if_pos (Option.isSome_iff_ne_none.mpr hsome)] at hone
        omega
      obtain ⟨s', hs'⟩ := (row.takes pair s).mpr ⟨hpair, hfree⟩
      obtain ⟨s'', hrest, hall⟩ := (ih s').mpr
        ⟨haccept, fun r hr => (hstep s' hs' r hr).mp (hcounts r hr)⟩
      refine ⟨s'', ?_, hall⟩
      rw [hs']
      exact hrest

/-- Values that each pair appends are those of all pairs, in order. -/
theorem read_appends {τ : Type} (collected : σ → List τ) (given : Pair → List τ)
    (hstep : ∀ pair s s', readPair context pair readers s = .ok s' →
      collected s' = collected s ++ given pair)
    {pairs : List Pair} {s s' : σ} (h : read context pairs readers s = .ok s') :
    collected s' = collected s ++ pairs.flatMap given := by
  induction pairs generalizing s with
  | nil =>
    cases h
    exact (List.append_nil _).symm
  | cons pair pairs ih =>
    rw [read_cons] at h
    obtain ⟨s₁, hfirst, hrest⟩ := Fallible.bind_eq_ok.mp h
    rw [ih hrest, hstep pair s s₁ hfirst, List.append_assoc, List.flatMap_cons]

end

/-! ## The rows of the files -/

theorem exists_splitUsageString {value : String} :
    (∃ usage, splitUsageString value = .ok usage) ↔ '/' ∈ value.toList := by
  unfold splitUsageString
  cases hrest : value.toList.dropWhile (· ≠ '/') with
  | nil =>
    have hall := List.dropWhile_eq_nil_iff.mp hrest
    constructor
    · rintro ⟨usage, heq⟩
      cases heq
    · intro hmem
      exact absurd (hall '/' hmem) (by decide)
  | cons c name =>
    have hsuffix := List.dropWhile_suffix (l := value.toList) (· ≠ '/')
    have hhead := List.head?_dropWhile_not (· ≠ '/') value.toList
    rw [hrest] at hsuffix hhead
    obtain rfl : c = '/' := by simpa using hhead
    exact ⟨fun _ => hsuffix.mem List.mem_cons_self, fun _ => ⟨_, rfl⟩⟩

theorem readPair_libraryReaders (context : String) (pair : Pair) (s : LibraryValues) :
    readPair context pair libraryReaders s =
      if pair.key = "Type" then
        if s.type.isSome then .error (.duplicatedKey context pair.key)
        else .ok { s with type := some pair.value }
      else if pair.key = "Name" then
        if s.name.isSome then .error (.duplicatedKey context pair.key)
        else .ok { s with name := some pair.value }
      else if pair.key = "Path" then .ok { s with linkablePath := some (Path.ofString pair.value) }
      else if pair.key = "Include-Path" then
        .ok { s with includePaths := s.includePaths ++ [Path.ofString pair.value] }
      else if pair.key = "Preprocessor-Define" then
        .ok { s with preprocDefs := s.preprocDefs ++ [pair.value] }
      else if pair.key = "Uses" then
        (splitUsageString pair.value).map fun usage => { s with uses := s.uses ++ [usage] }
      else if pair.key = "Links" then
        (splitUsageString pair.value).map fun usage => { s with links := s.links ++ [usage] }
      else if pair.key = "Special-Uses" then
        .ok { s with specialUses := s.specialUses ++ [pair.value] }
      else .ok s := by
  unfold libraryReaders
  rw [readPair_readRequired]
  by_cases htype : pair.key = "Type"
  · rw [if_pos htype, if_pos htype]
  · rw [if_neg htype, if_neg htype, readPair_readCheckEq htype, readPair_readRequired,
      readPair_readOpt, readPair_readAccumulate, readPair_readAccumulate, readPair_readAccumulate,
      readPair_readAccumulate, readPair_readAccumulate]
    cases splitUsageString pair.value <;> rfl

def libraryRequired : List (String × (LibraryValues → Option String)) :=
  [("Type", (·.type)), ("Name", (·.name))]

/-- A library's uses and links are usage strings. -/
def LibraryAccepts (pair : Pair) : Prop :=
  pair.key = "Uses" ∨ pair.key = "Links" → '/' ∈ pair.value.toList

theorem libraryReaders_row (context : String) :
    Row context libraryReaders libraryRequired LibraryAccepts where
  takes pair s := by
    rw [readPair_libraryReaders]
    unfold libraryRequired LibraryAccepts
    rw [← exists_splitUsageString]
    split
    next hkey => cases htype : s.type <;> simp [hkey, htype]
    split
    next hkey => cases hname : s.name <;> simp [hkey, hname]
    split
    next hkey => simp [hkey]
    split
    next hkey => simp [hkey]
    split
    next hkey => simp [hkey]
    split
    next hkey => cases splitUsageString pair.value <;> simp [hkey, Except.map]
    split
    next hkey => cases splitUsageString pair.value <;> simp [hkey, Except.map]
    split
    next hkey => simp [hkey]
    next hType hName _ _ _ hUses hLinks _ => simp [hType, hName, hUses, hLinks]
  keeps pair s s' h := by
    rw [readPair_libraryReaders] at h
    simp only [libraryRequired, List.forall_mem_cons]
    split at h
    next hkey =>
      split at h
      · cases h
      · cases h
        simp [hkey]
    next hType =>
    split at h
    next hkey =>
      split at h
      · cases h
      · cases h
        simp [hkey]
    next hName =>
    have hsame : s'.type = s.type ∧ s'.name = s.name := by
      cases husage : splitUsageString pair.value with
      | error e =>
        rw [husage] at h
        repeat' split at h
        all_goals
          cases h
          try exact ⟨rfl, rfl⟩
      | ok usage =>
        rw [husage] at h
        repeat' split at h
        all_goals
          cases h
          exact ⟨rfl, rfl⟩
    simp [hType, hName, hsame]

theorem readPair_packageReaders (context : String) (pair : Pair) (s : PackageValues) :
    readPair context pair packageReaders s =
      if pair.key = "Type" then
        if s.type.isSome then .error (.duplicatedKey context pair.key)
        else .ok { s with type := some pair.value }
      else if pair.key = "Name" then
        if s.name.isSome then .error (.duplicatedKey context pair.key)
        else .ok { s with name := some pair.value }
      else if pair.key = "Namespace" then
        if s.namespace_.isSome then .error (.duplicatedKey context pair.key)
        else .ok { s with namespace_ := some pair.value }
      else if pair.key = "Requires" then .ok { s with requires_ := s.requires_ ++ [pair.value] }
      else if pair.key = "Library" then
        .ok { s with libraries := s.libraries ++ [Path.ofString pair.value] }
      else .ok s := by
  unfold packageReaders
  rw [readPair_readRequired]
  by_cases htype : pair.key = "Type"
  · rw [if_pos htype, if_pos htype]
  · rw [if_neg htype, if_neg htype, readPair_readCheckEq htype, readPair_readRequired,
      readPair_readRequired, readPair_readAccumulate, readPair_readAccumulate]
    rfl

def packageRequired : List (String × (PackageValues → Option String)) :=
  [("Type", (·.type)), ("Name", (·.name)), ("Namespace", (·.namespace_))]

theorem packageReaders_row (context : String) :
    Row context packageReaders packageRequired fun _ => True where
  takes pair s := by
    rw [readPair_packageReaders]
    unfold packageRequired
    split
    next hkey => cases htype : s.type <;> simp [hkey, htype]
    split
    next hkey => cases hname : s.name <;> simp [hkey, hname]
    split
    next hkey => cases hnamespace : s.namespace_ <;> simp [hkey, hnamespace]
    split
    next hkey => simp [hkey]
    split
    next hkey => simp [hkey]
    next hType hName hNamespace _ _ => simp [hType, hName, hNamespace]
  keeps pair s s' h := by
    rw [readPair_packageReaders] at h
    simp only [packageRequired, List.forall_mem_cons]
    repeat' split at h
    all_goals
      cases h
      try simp [*]

/-- The paths of the libraries of a package. -/
def libraryPath (pair : Pair) : List Path :=
  if pair.key = "Library" then [Path.ofString pair.value] else []

theorem packageReaders_libraries {context : String} {pairs : List Pair} {ret : PackageValues}
    (h : read context pairs packageReaders {} = .ok ret) :
    ret.libraries = pairs.flatMap libraryPath := by
  apply read_appends PackageValues.libraries libraryPath _ h
  intro pair s s' hstep
  rw [readPair_packageReaders] at hstep
  unfold libraryPath
  repeat' split at hstep
  all_goals
    cases hstep
    try simp [*]

theorem readPair_indexReaders (context : String) (pair : Pair) (s : IndexValues) :
    readPair context pair indexReaders s =
      if pair.key = "Type" then
        if s.type.isSome then .error (.duplicatedKey context pair.key)
        else .ok { s with type := some pair.value }
      else if pair.key = "Package" then .ok { s with packageLines := s.packageLines ++ [pair.value] }
      else .ok s := by
  unfold indexReaders
  rw [readPair_readRequired]
  by_cases htype : pair.key = "Type"
  · rw [if_pos htype, if_pos htype]
  · rw [if_neg htype, if_neg htype, readPair_readCheckEq htype, readPair_readAccumulate]
    rfl

def indexRequired : List (String × (IndexValues → Option String)) := [("Type", (·.type))]

theorem indexReaders_row (context : String) :
    Row context indexReaders indexRequired fun _ => True where
  takes pair s := by
    rw [readPair_indexReaders]
    unfold indexRequired
    split
    next hkey => cases htype : s.type <;> simp [hkey, htype]
    split
    next hkey => simp [hkey]
    next hType _ => simp [hType]
  keeps pair s s' h := by
    rw [readPair_indexReaders] at h
    simp only [indexRequired, List.forall_mem_cons]
    repeat' split at h
    all_goals
      cases h
      try simp [*]

def packageLine (pair : Pair) : List String := if pair.key = "Package" then [pair.value] else []

theorem indexReaders_packageLines {context : String} {pairs : List Pair} {ret : IndexValues}
    (h : read context pairs indexReaders {} = .ok ret) :
    ret.packageLines = pairs.flatMap packageLine := by
  apply read_appends IndexValues.packageLines packageLine _ h
  intro pair s s' hstep
  rw [readPair_indexReaders] at hstep
  unfold packageLine
  repeat' split at hstep
  all_goals
    cases hstep
    try simp [*]

/-! ## What is read -/

section

variable (readFile : Path → Option String)

/-- A file that a library is read from. -/
def LibraryReadable (fpath : Path) : Prop :=
  ∃ pairs, parseFile readFile fpath = .ok pairs ∧ occurrences "Type" pairs = 1 ∧
    occurrences "Name" pairs = 1 ∧ ∀ pair ∈ pairs, LibraryAccepts pair

/-- A file that a package is read from, with the files of its libraries. -/
def PackageReadable (fpath : Path) : Prop :=
  ∃ pairs, parseFile readFile fpath = .ok pairs ∧ occurrences "Type" pairs = 1 ∧
    occurrences "Name" pairs = 1 ∧ occurrences "Namespace" pairs = 1 ∧
    ∀ libPath ∈ pairs.flatMap libraryPath, LibraryReadable readFile (fpath.parentPath / libPath)

/-- A line with a name and the path of a package that is read. -/
def PackageLineReadable (fpath : Path) (pkgLine : String) : Prop :=
  ∃ name path, (splitView pkgLine.toList ";".toList).map trimView = [name, path] ∧
    PackageReadable readFile (fpath.parentPath / Path.ofString (String.ofList path))

/-- A file that an index is read from, with the files of its packages. -/
def IndexReadable (fpath : Path) : Prop :=
  ∃ pairs, parseFile readFile fpath = .ok pairs ∧ occurrences "Type" pairs = 1 ∧
    ∀ pkgLine ∈ pairs.flatMap packageLine, PackageLineReadable readFile fpath pkgLine

variable {readFile} {fpath : Path}

theorem Library.exists_fromFile_iff :
    (∃ lib, Library.fromFile readFile fpath = .ok lib) ↔ LibraryReadable readFile fpath := by
  have hrow := fun context pairs => (libraryReaders_row context).read_iff pairs {}
  simp only [libraryRequired, List.forall_mem_cons] at hrow
  constructor
  · rintro ⟨lib, h⟩
    obtain ⟨pairs, ret, _, _, hpairs, hread, htype, hname, -⟩ := Library.fromFile_eq_ok.mp h
    obtain ⟨haccept, hType, hName, -⟩ := (hrow _ pairs).mp
      ⟨ret, hread, by simp [htype], by simp [hname], by simp⟩
    exact ⟨pairs, hpairs, hType, hName, haccept⟩
  · rintro ⟨pairs, hpairs, hType, hName, haccept⟩
    obtain ⟨ret, hread, htype, hname, -⟩ := (hrow _ pairs).mpr
      ⟨haccept, hType, hName, by simp⟩
    obtain ⟨type, htype⟩ := Option.isSome_iff_exists.mp htype
    obtain ⟨name, hname⟩ := Option.isSome_iff_exists.mp hname
    exact ⟨_, Library.fromFile_eq_ok.mpr ⟨pairs, ret, type, name, hpairs, hread, htype, hname, rfl⟩⟩

theorem Package.exists_fromFile_iff :
    (∃ pkg, Package.fromFile readFile fpath = .ok pkg) ↔ PackageReadable readFile fpath := by
  have hrow := fun context pairs => (packageReaders_row context).read_iff pairs {}
  simp only [packageRequired, List.forall_mem_cons] at hrow
  constructor
  · rintro ⟨pkg, h⟩
    obtain ⟨pairs, ret, _, hpairs, hread, htype, hname, hnamespace, -, hlibraries⟩ :=
      Package.fromFile_eq_ok.mp h
    obtain ⟨-, hType, hName, hNamespace, -⟩ := (hrow _ pairs).mp
      ⟨ret, hread, by simp [htype], by simp [hname], by simp [hnamespace], by simp⟩
    refine ⟨pairs, hpairs, hType, hName, hNamespace, ?_⟩
    rw [← packageReaders_libraries hread]
    intro libPath hlibPath
    exact Library.exists_fromFile_iff.mp
      (Fallible.exists_mapM_iff.mp ⟨_, hlibraries⟩ libPath hlibPath)
  · rintro ⟨pairs, hpairs, hType, hName, hNamespace, hlibraries⟩
    obtain ⟨ret, hread, htype, hname, hnamespace, -⟩ :=
      (hrow ("Reading package file '" ++ fpath.toGenericString ++ "'") pairs).mpr
        ⟨fun _ _ => trivial, hType, hName, hNamespace, by simp⟩
    obtain ⟨type, htype⟩ := Option.isSome_iff_exists.mp htype
    obtain ⟨name, hname⟩ := Option.isSome_iff_exists.mp hname
    obtain ⟨namespace_, hnamespace⟩ := Option.isSome_iff_exists.mp hnamespace
    rw [← packageReaders_libraries hread] at hlibraries
    obtain ⟨libraries, hlibs⟩ := Fallible.exists_mapM_iff.mpr fun libPath hlibPath =>
      Library.exists_fromFile_iff.mpr (hlibraries libPath hlibPath)
    exact ⟨⟨name, namespace_, ret.requires_, libraries⟩, Package.fromFile_eq_ok.mpr
      ⟨pairs, ret, type, hpairs, hread, htype, hname, hnamespace, rfl, hlibs⟩⟩

theorem exists_packageOfLine_iff {pkgLine : String} :
    (∃ pkg, packageOfLine readFile fpath pkgLine = .ok pkg) ↔
      PackageLineReadable readFile fpath pkgLine := by
  unfold packageOfLine PackageLineReadable
  split
  next name path hsplit =>
    rw [Package.exists_fromFile_iff, hsplit]
    constructor
    · intro h
      exact ⟨name, path, rfl, h⟩
    · rintro ⟨name', path', heq, h⟩
      cases heq
      exact h
  next hsplit =>
    constructor
    · rintro ⟨pkg, h⟩
      cases h
    · rintro ⟨name, path, heq, -⟩
      exact absurd heq (hsplit name path)

theorem Index.exists_fromFile_iff :
    (∃ index, Index.fromFile readFile fpath = .ok index) ↔ IndexReadable readFile fpath := by
  have hrow := fun context pairs => (indexReaders_row context).read_iff pairs {}
  simp only [indexRequired, List.forall_mem_cons] at hrow
  constructor
  · rintro ⟨index, h⟩
    obtain ⟨pairs, ret, _, hpairs, hread, htype, hpackages⟩ := Index.fromFile_eq_ok.mp h
    obtain ⟨-, hType, -⟩ := (hrow _ pairs).mp ⟨ret, hread, by simp [htype], by simp⟩
    refine ⟨pairs, hpairs, hType, ?_⟩
    rw [← indexReaders_packageLines hread]
    intro pkgLine hpkgLine
    exact exists_packageOfLine_iff.mp
      (Fallible.exists_mapM_iff.mp ⟨_, hpackages⟩ pkgLine hpkgLine)
  · rintro ⟨pairs, hpairs, hType, hpackages⟩
    obtain ⟨ret, hread, htype, -⟩ :=
      (hrow ("Reading libman index file '" ++ fpath.toGenericString ++ "'") pairs).mpr
        ⟨fun _ _ => trivial, hType, by simp⟩
    obtain ⟨type, htype⟩ := Option.isSome_iff_exists.mp htype
    rw [← indexReaders_packageLines hread] at hpackages
    obtain ⟨packages, hpkgs⟩ := Fallible.exists_mapM_iff.mpr fun pkgLine hpkgLine =>
      exists_packageOfLine_iff.mpr (hpackages pkgLine hpkgLine)
    exact ⟨⟨packages⟩, Index.fromFile_eq_ok.mpr ⟨pairs, ret, type, hpairs, hread, htype, hpkgs⟩⟩

end

/-! ## Schemas -/

/-- What the keys of a file must be. -/
structure Schema where
  type : String
  required : List String
  single : List String

def librarySchema : Schema := ⟨"Library", ["Name"], ["Path"]⟩

def packageSchema : Schema := ⟨"Package", ["Name", "Namespace"], []⟩

def indexSchema : Schema := ⟨"Index", [], []⟩

/-- The type is the right one, and single keys are not repeated. -/
structure Schema.ValuesHold (schema : Schema) (pairs : List Pair) : Prop where
  type : ∀ pair ∈ pairs, pair.key = "Type" → pair.value = schema.type
  single : ∀ key ∈ schema.single, occurrences key pairs ≤ 1

structure Schema.Holds (schema : Schema) (pairs : List Pair) : Prop where
  type : occurrences "Type" pairs = 1
  required : ∀ key ∈ schema.required, occurrences key pairs = 1
  values : schema.ValuesHold pairs

/-- Pairs against the schema are an error. -/
def Schema.Enforced {α : Type} (schema : Schema) (pairs : List Pair)
    (result : Except LibmanError α) : Prop :=
  ¬ schema.Holds pairs → ∃ e, result = .error e

/-- What is accepted is only right in its values if it was before. -/
theorem Schema.enforced_iff {α : Type} {schema : Schema} {pairs : List Pair}
    {result : Except LibmanError α} {readable : Prop} (h : (∃ a, result = .ok a) ↔ readable)
    (hcounts : readable → occurrences "Type" pairs = 1 ∧
      ∀ key ∈ schema.required, occurrences key pairs = 1) :
    schema.Enforced pairs result ↔ (readable → schema.ValuesHold pairs) := by
  constructor
  · intro henforced hreadable
    by_contra hvalues
    obtain ⟨e, herror⟩ := henforced fun hholds => hvalues hholds.values
    obtain ⟨a, hok⟩ := h.mpr hreadable
    rw [herror] at hok
    cases hok
  · intro hvalues hnot
    cases hresult : result with
    | error e => exact ⟨e, rfl⟩
    | ok a =>
      have hreadable := h.mp ⟨a, hresult⟩
      obtain ⟨htype, hrequired⟩ := hcounts hreadable
      exact absurd ⟨htype, hrequired, hvalues hreadable⟩ hnot

/-- The readers reject what lacks or repeats a required key, and nothing for its type
or for a repeated path. -/
theorem fromFile_schema_iff {readFile : Path → Option String} {fpath : Path} {pairs : List Pair}
    (h : parseFile readFile fpath = .ok pairs) :
    (librarySchema.Enforced pairs (Library.fromFile readFile fpath) ↔
      (LibraryReadable readFile fpath → librarySchema.ValuesHold pairs)) ∧
    (packageSchema.Enforced pairs (Package.fromFile readFile fpath) ↔
      (PackageReadable readFile fpath → packageSchema.ValuesHold pairs)) ∧
    (indexSchema.Enforced pairs (Index.fromFile readFile fpath) ↔
      (IndexReadable readFile fpath → indexSchema.ValuesHold pairs)) := by
  refine ⟨?_, ?_, ?_⟩
  · apply Schema.enforced_iff Library.exists_fromFile_iff
    rintro ⟨pairs', hpairs', hType, hName, -⟩
    cases h.symm.trans hpairs'
    exact ⟨hType, by simpa [librarySchema] using hName⟩
  · apply Schema.enforced_iff Package.exists_fromFile_iff
    rintro ⟨pairs', hpairs', hType, hName, hNamespace, -⟩
    cases h.symm.trans hpairs'
    exact ⟨hType, by simpa [packageSchema] using ⟨hName, hNamespace⟩⟩
  · apply Schema.enforced_iff Index.exists_fromFile_iff
    rintro ⟨pairs', hpairs', hType, -⟩
    cases h.symm.trans hpairs'
    exact ⟨hType, by simp [indexSchema]⟩

/-- A library, a package that lacks its namespace, and an index with two types. -/
def libmanFiles (path : Path) : Option String :=
  if path = .ofString "a.lml" then some "Type: Library\nName: a\nPath: liba.a"
  else if path = .ofString "a.lmp" then some "Type: Package\nName: a\nLibrary: a.lml"
  else if path = .ofString "INDEX.lmi" then some "Type: Index\nPackage: a; a.lmp\nType: Index"
  else none

theorem fromFile_schema_iff_files :
    librarySchema.Enforced [⟨"Type", "Library"⟩, ⟨"Name", "a"⟩, ⟨"Path", "liba.a"⟩]
        (Library.fromFile libmanFiles (.ofString "a.lml")) ∧
      (∃ e, Package.fromFile libmanFiles (.ofString "a.lmp") = .error e) ∧
      ∃ e, Index.fromFile libmanFiles (.ofString "INDEX.lmi") = .error e := by
  have hlibrary : parseFile libmanFiles (.ofString "a.lml") =
      .ok [⟨"Type", "Library"⟩, ⟨"Name", "a"⟩, ⟨"Path", "liba.a"⟩] := by decide
  have hpackage : parseFile libmanFiles (.ofString "a.lmp") =
      .ok [⟨"Type", "Package"⟩, ⟨"Name", "a"⟩, ⟨"Library", "a.lml"⟩] := by decide
  have hindex : parseFile libmanFiles (.ofString "INDEX.lmi") =
      .ok [⟨"Type", "Index"⟩, ⟨"Package", "a; a.lmp"⟩, ⟨"Type", "Index"⟩] := by decide
  refine ⟨(fromFile_schema_iff hlibrary).1.mpr fun _ => ⟨by decide, by decide⟩, ?_, ?_⟩
  · apply (fromFile_schema_iff hpackage).2.1.mpr fun _ => ⟨by decide, by decide⟩
    exact fun hholds => absurd (hholds.required "Namespace" (by decide)) (by decide)
  · apply (fromFile_schema_iff hindex).2.2.mpr fun _ => ⟨by decide, by decide⟩
    exact fun hholds => absurd hholds.type (by decide)

/-- A package file is read as a library, with the second of its paths. -/
theorem fromFile_not_enforced :
    parseFile (fun _ => some "Type: Package\nName: a\nPath: b\nPath: c") (Path.ofString "a.lml") =
        .ok [⟨"Type", "Package"⟩, ⟨"Name", "a"⟩, ⟨"Path", "b"⟩, ⟨"Path", "c"⟩] ∧
      ¬ librarySchema.Enforced
        [⟨"Type", "Package"⟩, ⟨"Name", "a"⟩, ⟨"Path", "b"⟩, ⟨"Path", "c"⟩]
        (Library.fromFile (fun _ => some "Type: Package\nName: a\nPath: b\nPath: c")
          (Path.ofString "a.lml")) := by
  have hparse : parseFile (fun _ => some "Type: Package\nName: a\nPath: b\nPath: c")
      (Path.ofString "a.lml") =
        .ok [⟨"Type", "Package"⟩, ⟨"Name", "a"⟩, ⟨"Path", "b"⟩, ⟨"Path", "c"⟩] := by decide
  refine ⟨hparse, fun henforced => ?_⟩
  obtain ⟨lib, hok⟩ := Library.exists_fromFile_iff.mpr
    ⟨_, hparse, by decide, by decide, by simp [LibraryAccepts]⟩
  obtain ⟨e, herror⟩ := henforced fun hholds =>
    absurd (hholds.values.type ⟨"Type", "Package"⟩ List.mem_cons_self rfl) (by decide)
  rw [herror] at hok
  cases hok

end Bpt.Libman
