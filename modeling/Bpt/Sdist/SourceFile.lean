-- SUMMARY: Source files: their kind, read off their filename, and the collection of the files of a source root.
import Bpt.Util.FileTree

/-!
# Source files

The kind of a source file follows from its extension, and for a file that can be
compiled also from the extension before it. The order of a directory iterator is
any; here it is the order of the tree.
-/

namespace Bpt

inductive SourceKind where
  | header
  | headerImpl
  | source
  | test
  | app
  deriving DecidableEq

def headerExts : List String := [".H", ".H++", ".h", ".h++", ".hh", ".hpp", ".hxx"]

def headerImplExts : List String := [".inc", ".inl", ".ipp"]

def sourceExts : List String := [".C", ".c", ".c++", ".cc", ".cpp", ".cxx"]

/-- The tables are sorted, so the binary search in them is membership. -/
def inferSourceKind (p : Path) : Option SourceKind :=
  if p.extension ∈ headerExts then some .header
  else if p.extension ∈ headerImplExts then some .headerImpl
  else if p.extension ∉ sourceExts then none
  else if p.stem.extension = ".test" then some .test
  else if p.stem.extension = ".main" then some .app
  else some .source

structure SourceFile where
  path : Path
  /-- The source root that contains the file. -/
  basisPath : Path
  kind : SourceKind
  deriving DecidableEq

namespace SourceFile

def fromPath (path basePath : Path) : Option SourceFile :=
  (inferSourceKind path).map fun kind => ⟨path, basePath, kind⟩

def relativePath (tree : FileTree) (sf : SourceFile) : Path := tree.relative sf.path sf.basisPath

end SourceFile

/-- `collect_sources`. -/
def collectSources (tree : FileTree) (root : Path) : List SourceFile :=
  (tree.below (tree.resolve root)).filterMap fun rel =>
    SourceFile.fromPath (root / ⟨false, rel, false⟩) root

/-! ## The files of a source root -/

/-- The kind of the file at the end of these names. -/
def kindAt (rel : List String) : Option SourceKind := inferSourceKind ⟨false, rel, false⟩

theorem inferSourceKind_congr {p q : Path} (h : p.filename = q.filename) :
    inferSourceKind p = inferSourceKind q := by
  unfold inferSourceKind Path.stem Path.extension
  rw [h]

/-- The filename of a source file is not made of dots alone. -/
theorem exists_ne_dot_of_kind {p : Path} {kind : SourceKind} (h : inferSourceKind p = some kind) :
    ∃ c ∈ p.filename.toList, c ≠ '.' := by
  have hext : p.extension ≠ "" ∧ p.extension ≠ "." := by
    constructor <;>
      · intro hext
        simp [inferSourceKind, hext, headerExts, headerImplExts, sourceExts] at h
  unfold Path.extension at hext
  dsimp only at hext
  split at hext
  · exact absurd rfl hext.1
  · have hne : p.filename.toList.reverse.takeWhile (· ≠ '.') ≠ [] := by
      intro hnil
      rw [hnil] at hext
      exact hext.2 rfl
    obtain ⟨c, hc⟩ := List.exists_mem_of_ne_nil _ hne
    refine ⟨c, List.mem_reverse.1 ((List.takeWhile_sublist _).subset hc), ?_⟩
    simpa using List.all_eq_true.1 List.all_takeWhile c hc

/-- With a suffix it is still the name of a file. -/
theorem plainName_append {name suffix : String} (hname : PlainName name)
    (hdots : ∃ c ∈ name.toList, c ≠ '.') (hsuffix : '/' ∉ suffix.toList) :
    PlainName (name ++ suffix) := by
  obtain ⟨c, hc, hne⟩ := hdots
  have hmem : c ∈ (name ++ suffix).toList := by
    rw [String.toList_append]
    exact List.mem_append_left _ hc
  refine ⟨?_, ?_, ?_, ?_⟩
  · intro heq
    rw [heq] at hmem
    exact absurd hmem (by simp)
  · intro heq
    rw [heq] at hmem
    exact hne (by simpa using hmem)
  · intro heq
    rw [heq] at hmem
    exact hne (by simpa using hmem)
  · rw [String.toList_append]
    intro hsep
    exact (List.mem_append.1 hsep).elim hname.2.2.2 hsuffix

theorem filenameStem_ne_empty {name : String} (h : name ≠ "") : Path.filenameStem name ≠ "" := by
  unfold Path.filenameStem
  dsimp only
  split
  · exact h
  next hstem =>
    intro hnil
    have := congrArg String.toList hnil
    simp only [String.toList_ofList] at this
    exact hstem (.inr (by simpa using this))

theorem mem_filenameStem {name : String} {c : Char} (h : c ∈ (Path.filenameStem name).toList) :
    c ∈ name.toList := by
  unfold Path.filenameStem at h
  dsimp only at h
  split at h
  · exact h
  · rw [String.toList_ofList, List.mem_reverse] at h
    exact List.mem_reverse.1 ((List.dropWhile_sublist _).subset (List.mem_of_mem_tail h))

end Bpt
