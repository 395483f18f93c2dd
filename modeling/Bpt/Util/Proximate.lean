-- SUMMARY: The way from one path to another, and the shorter of it and the path itself, which name the same file from there.
import Bpt.Util.PathText

/-!
# Relative spellings of paths

The commands of a toolchain spell each path from the directory they are run in, unless
the path itself is shorter.
-/

namespace Bpt.Path

/-- The elements after the root directory. A separator at the end is followed by an empty one. -/
def elements (p : Path) : List String := p.names ++ if p.trailing then [""] else []

/-- The path that `operator/=` makes of relative elements, one after the other. -/
def ofElements (es : List String) : Path :=
  let names := es.filter (· ≠ "")
  ⟨false, names, names ≠ [] ∧ es.getLast? = some ""⟩

/-- The elements that are neither empty nor a dot lead down, the dot-dot ones up. -/
def netDepth (es : List String) : Int :=
  (es.filter fun e => e ≠ "" ∧ e ≠ "." ∧ e ≠ "..").length - (es.filter (· = "..")).length

/-- `lexically_relative`, empty when there is no way. -/
def lexicallyRelativeTo (p base : Path) : Path :=
  if p.root ≠ base.root then ⟨false, [], false⟩
  else
    let (rest, up) := dropCommon p.elements base.elements
    let n := netDepth up
    if rest = [] ∧ up = [] then ofFilename "."
    else if n = 0 ∧ rest.head?.getD "" = "" then ofFilename "."
    else if 0 ≤ n then ofElements (List.replicate n.toNat ".." ++ rest)
    else ⟨false, [], false⟩

def lexicallyProximate (p base : Path) : Path :=
  let relative := p.lexicallyRelativeTo base
  if relative = ⟨false, [], false⟩ then p else relative

def shortestPathFrom (file base : Path) : Path :=
  let relative := file.lexicallyNormal.lexicallyProximate base
  let abs := file.lexicallyNormal
  if abs.toGenericString.utf8ByteSize < relative.toGenericString.utf8ByteSize then abs else relative

example : (shortestPathFrom (ofString "/a/b/../c.o") (ofString "/a/d/e")).toGenericString =
    "/a/c.o" := by decide

example : (shortestPathFrom (ofString "/work/d/c.o") (ofString "/work/d/e")).toGenericString =
    "../c.o" := by decide

/-! ## The way down and up -/

theorem exists_common (as bs : List String) :
    ∃ common, as = common ++ (dropCommon as bs).1 ∧ bs = common ++ (dropCommon as bs).2 := by
  induction as generalizing bs with
  | nil => exact ⟨[], by simp [dropCommon], by simp [dropCommon]⟩
  | cons a as ih =>
    cases bs with
    | nil => exact ⟨[], by simp [dropCommon], by simp [dropCommon]⟩
    | cons b bs =>
      by_cases hab : a = b
      · obtain ⟨common, has, hbs⟩ := ih bs
        subst hab
        exact ⟨a :: common, by simpa [dropCommon] using has, by simpa [dropCommon] using hbs⟩
      · exact ⟨[], by simp [dropCommon, hab], by simp [dropCommon, hab]⟩

/-- Names that are no dots, as a normal form below the root has them. -/
def Plain (names : List String) : Prop := ∀ name ∈ names, name ≠ "" ∧ name ≠ "." ∧ name ≠ ".."

theorem Plain.noDots {names : List String} (h : Plain names) :
    ∀ name ∈ names, name ≠ "." ∧ name ≠ ".." := fun name hname => (h name hname).2

theorem filter_elements {p : Path} (h : ∀ name ∈ p.names, name ≠ "") :
    p.elements.filter (· ≠ "") = p.names := by
  have hnames : p.names.filter (· ≠ "") = p.names :=
    List.filter_eq_self.mpr fun name hname => by simpa using h name hname
  unfold elements
  rw [List.filter_append, hnames]
  split <;> simp

/-- Going up by as many names as are kept leads back. -/
theorem resolveDots_climb {kept up rest : List String} (h : ∀ name ∈ up, name ≠ "." ∧ name ≠ "..") :
    resolveDots true (up ++ kept) (List.replicate up.length ".." ++ rest) =
      resolveDots true kept rest := by
  induction up with
  | nil => rfl
  | cons name up ih =>
    have hkeep : keepName true (name :: (up ++ kept)) ".." = up ++ kept := by
      simp [keepName, (h name List.mem_cons_self).2]
    rw [List.length_cons, List.replicate_succ, List.cons_append, List.cons_append,
      resolveDots_cons, hkeep]
    exact ih fun n hn => h n (List.mem_cons_of_mem _ hn)

theorem resolveDots_detour {common up rest : List String} (hcommon : Plain common) (hup : Plain up)
    (hrest : Plain rest) :
    resolveDots true [] ((common ++ up) ++ (List.replicate up.length ".." ++ rest)) =
      common ++ rest := by
  have hbase : Plain (common ++ up) := fun name hname => by
    rcases List.mem_append.mp hname with hname | hname
    · exact hcommon name hname
    · exact hup name hname
  have hclimb : resolveDots true (up.reverse ++ common.reverse)
      (List.replicate up.length ".." ++ rest) = resolveDots true common.reverse rest := by
    rw [← List.length_reverse]
    exact resolveDots_climb fun name hname => hup.noDots name (List.mem_reverse.mp hname)
  rw [resolveDots_append, resolveDots_of_noDots hbase.noDots, List.reverse_nil, List.nil_append,
    List.reverse_append, hclimb, resolveDots_of_noDots hrest.noDots, List.reverse_reverse]

/-! ## The file that is meant -/

/-- The paths are the same up to dots and a separator at the end. -/
structure SameFile (p q : Path) : Prop where
  root : p.root = q.root
  names : p.lexicallyNormal.names = q.lexicallyNormal.names

/-- An absolute path without dots (`current_path`). -/
structure IsWorkingDir (base : Path) : Prop where
  root : base.root = true
  plain : Plain base.names

theorem plain_lexicallyNormal {p : Path} (hroot : p.root = true) (h : p.Legible) :
    Plain p.lexicallyNormal.names := by
  intro name hname
  refine ⟨((legible_lexicallyNormal h).names name hname).1, ?_⟩
  rw [FileTree.names_lexicallyNormal hroot] at hname
  exact noDots_resolveDots [] (by simp) name hname

/-- The number of names that lead down. -/
theorem netDepth_of_plain {up : List String} (h : Plain (up.filter (· ≠ ""))) :
    netDepth up = (up.filter (· ≠ "")).length := by
  have hplain : ∀ e ∈ up, e ≠ "" → e ≠ "." ∧ e ≠ ".." := fun e he hne =>
    (h e (List.mem_filter.mpr ⟨he, by simpa using hne⟩)).2
  have hdots : up.filter (· = "..") = [] := by
    refine List.filter_eq_nil_iff.mpr fun e he hdots => ?_
    obtain rfl : e = ".." := by simpa using hdots
    exact (hplain ".." he (by decide)).2 rfl
  have hdown : (up.filter fun e => e ≠ "" ∧ e ≠ "." ∧ e ≠ "..") = up.filter (· ≠ "") := by
    refine List.filter_congr fun e he => ?_
    simp only [ne_eq, decide_eq_decide]
    exact ⟨fun h => h.1, fun hne => ⟨hne, hplain e he hne⟩⟩
  rw [netDepth, hdots, hdown]
  simp

/-- An empty element comes last. -/
theorem filter_nil_of_head {p : Path} (h : ∀ name ∈ p.names, name ≠ "") {common rest : List String}
    (heq : p.elements = common ++ rest) (hhead : rest.head?.getD "" = "") :
    rest.filter (· ≠ "") = [] := by
  cases rest with
  | nil => rfl
  | cons e rest =>
    obtain rfl : e = "" := hhead
    have hnil : rest = [] := by
      unfold elements at heq
      split at heq
      next =>
        rcases List.append_eq_append_iff.mp heq with ⟨more, hcommon, hmore⟩ | ⟨more, hnames, hmore⟩
        · have hlength := congrArg List.length hmore
          simp only [List.length_append, List.length_cons, List.length_nil] at hlength
          exact List.length_eq_zero_iff.mp (by omega)
        · cases more with
          | nil => simpa using hmore.symm
          | cons x more =>
            obtain ⟨rfl, -⟩ := List.cons.inj hmore
            exact absurd rfl (h "" (by rw [hnames]; simp))
      next =>
        rw [List.append_nil] at heq
        exact absurd rfl (h "" (by rw [heq]; simp))
    simp [hnil]

/-- The way from the directory to the path leads to the path. -/
theorem names_div_relative {q base : Path} (hbase : base.IsWorkingDir) (hroot : q.root = true)
    (hq : Plain q.names) :
    (q.lexicallyRelativeTo base).root = false ∧
      resolveDots true [] (base.names ++ (q.lexicallyRelativeTo base).names) = q.names := by
  obtain ⟨common, hrest, hup⟩ := exists_common q.elements base.elements
  unfold lexicallyRelativeTo
  rw [if_neg (by simp [hroot, hbase.root])]
  dsimp only
  generalize (dropCommon q.elements base.elements).1 = rest at hrest ⊢
  generalize (dropCommon q.elements base.elements).2 = up at hup ⊢
  have hqnames : q.names = common.filter (· ≠ "") ++ rest.filter (· ≠ "") := by
    rw [← List.filter_append, ← hrest, filter_elements fun name hname => (hq name hname).1]
  have hbnames : base.names = common.filter (· ≠ "") ++ up.filter (· ≠ "") := by
    rw [← List.filter_append, ← hup, filter_elements fun name hname => (hbase.plain name hname).1]
  have hcommon : Plain (common.filter (· ≠ "")) := fun name hname =>
    hq name (by rw [hqnames]; exact List.mem_append_left _ hname)
  have hplainRest : Plain (rest.filter (· ≠ "")) := fun name hname =>
    hq name (by rw [hqnames]; exact List.mem_append_right _ hname)
  have hplainUp : Plain (up.filter (· ≠ "")) := fun name hname =>
    hbase.plain name (by rw [hbnames]; exact List.mem_append_right _ hname)
  have hdepth := netDepth_of_plain hplainUp
  -- A lone dot stays in the directory, which is the path itself then.
  have hdot : up.filter (· ≠ "") = [] → rest.filter (· ≠ "") = [] →
      (ofFilename ".").root = false ∧
        resolveDots true [] (base.names ++ (ofFilename ".").names) = q.names := by
    intro hup' hrest'
    refine ⟨rfl, ?_⟩
    rw [hqnames, hbnames, hup', hrest', List.append_nil, resolveDots_append,
      resolveDots_of_noDots hcommon.noDots]
    exact List.reverse_reverse _
  by_cases hboth : rest = [] ∧ up = []
  · rw [if_pos hboth]
    exact hdot (by rw [hboth.2]; rfl) (by rw [hboth.1]; rfl)
  rw [if_neg hboth]
  by_cases hhere : netDepth up = 0 ∧ rest.head?.getD "" = ""
  · rw [if_pos hhere]
    refine hdot (List.length_eq_zero_iff.mp (by omega)) ?_
    exact filter_nil_of_head (fun name hname => (hq name hname).1) hrest hhere.2
  rw [if_neg hhere, if_pos (by omega)]
  refine ⟨rfl, ?_⟩
  have hnames : (ofElements (List.replicate (netDepth up).toNat ".." ++ rest)).names =
      List.replicate (up.filter (· ≠ "")).length ".." ++ rest.filter (· ≠ "") := by
    have hdots : (List.replicate (up.filter (· ≠ "")).length "..").filter (· ≠ "") =
        List.replicate (up.filter (· ≠ "")).length ".." :=
      List.filter_eq_self.mpr fun name hname => by simp [List.eq_of_mem_replicate hname]
    rw [ofElements, List.filter_append, hdepth, Int.toNat_natCast, hdots]
  rw [hnames, hbnames, hqnames]
  exact resolveDots_detour hcommon hplainUp hplainRest

theorem sameFile_lexicallyProximate {q base : Path} (hbase : base.IsWorkingDir)
    (hroot : q.root = true) (hq : Plain q.names) :
    SameFile (base / q.lexicallyProximate base) q := by
  have hself : SameFile (base / q) q := by
    have hdiv : base / q = q := if_pos hroot
    rw [hdiv]
    exact ⟨rfl, rfl⟩
  unfold lexicallyProximate
  dsimp only
  split
  next => exact hself
  next =>
    obtain ⟨hrelative, hnames⟩ := names_div_relative hbase hroot hq
    have hdiv : (base / q.lexicallyRelativeTo base).root = true ∧
        (base / q.lexicallyRelativeTo base).names =
          base.names ++ (q.lexicallyRelativeTo base).names := by
      simp [HDiv.hDiv, Div.div, hrelative, hbase.root]
    refine ⟨hdiv.1.trans hroot.symm, ?_⟩
    rw [FileTree.names_lexicallyNormal hdiv.1, FileTree.names_lexicallyNormal hroot, hdiv.2, hnames,
      resolveDots_of_noDots hq.noDots]
    rfl

theorem SameFile.trans {p q r : Path} (h : SameFile p q) (h' : SameFile q r) : SameFile p r :=
  ⟨h.root.trans h'.root, h.names.trans h'.names⟩

theorem sameFile_lexicallyNormal (p : Path) : SameFile p.lexicallyNormal p :=
  ⟨FileTree.lexicallyNormal_root p, by rw [lexicallyNormal_idem]⟩

/-- The spelling of an absolute path names the same file from the working directory. -/
theorem sameFile_shortestPathFrom {p base : Path} (hbase : base.IsWorkingDir)
    (hroot : p.root = true) (hp : p.Legible) : SameFile (base / p.shortestPathFrom base) p := by
  have hnormal : p.lexicallyNormal.root = true := (FileTree.lexicallyNormal_root p).trans hroot
  have hplain := plain_lexicallyNormal hroot hp
  unfold shortestPathFrom
  dsimp only
  split
  next =>
    have hdiv : base / p.lexicallyNormal = p.lexicallyNormal := if_pos hnormal
    rw [hdiv]
    exact sameFile_lexicallyNormal p
  next => exact (sameFile_lexicallyProximate hbase hnormal hplain).trans (sameFile_lexicallyNormal p)

/-! ## Texts -/

theorem legible_ofElements {es : List String} (h : ∀ e ∈ es, '/' ∉ e.toList) :
    (ofElements es).Legible where
  names name hname := by
    obtain ⟨hmem, hne⟩ := List.mem_filter.mp hname
    exact ⟨by simpa using hne, h name hmem⟩
  trailing htrailing := (of_decide_eq_true htrailing).1

theorem legible_lexicallyRelativeTo {q base : Path} (hq : q.Legible) :
    (q.lexicallyRelativeTo base).Legible := by
  obtain ⟨common, hrest, -⟩ := exists_common q.elements base.elements
  have hdot : (ofFilename ".").Legible := ⟨by decide, nofun⟩
  have hnone : Legible ⟨false, [], false⟩ := ⟨nofun, nofun⟩
  have helements : ∀ e ∈ q.elements, '/' ∉ e.toList := by
    intro e he
    unfold elements at he
    rcases List.mem_append.mp he with he | he
    · exact (hq.names e he).2
    · split at he
      · rw [List.mem_singleton.mp he]
        exact List.not_mem_nil
      · cases he
  unfold lexicallyRelativeTo
  split
  next => exact hnone
  next =>
    dsimp only
    split
    next => exact hdot
    next =>
      split
      next => exact hdot
      next =>
        split
        next =>
          refine legible_ofElements fun e he => ?_
          rcases List.mem_append.mp he with he | he
          · rw [List.eq_of_mem_replicate he]
            decide
          · exact helements e (by rw [hrest]; exact List.mem_append_right _ he)
        next => exact hnone

theorem legible_shortestPathFrom {p base : Path} (hp : p.Legible) :
    (p.shortestPathFrom base).Legible := by
  have hnormal := legible_lexicallyNormal hp
  unfold shortestPathFrom
  dsimp only
  split
  next => exact hnormal
  next =>
    unfold lexicallyProximate
    dsimp only
    split
    next => exact hnormal
    next => exact legible_lexicallyRelativeTo hnormal

/-- A text names a file from a directory, and is not longer than the path of the file. -/
structure Spells (base : Path) (text : String) (p : Path) : Prop where
  same : SameFile (base / ofString text) p
  short : text.utf8ByteSize ≤ p.lexicallyNormal.toGenericString.utf8ByteSize

theorem spells_shortestPathFrom {p base : Path} (hbase : base.IsWorkingDir) (hroot : p.root = true)
    (hp : p.Legible) : Spells base (p.shortestPathFrom base).toGenericString p where
  same := by
    rw [ofString_toGenericString (legible_shortestPathFrom hp)]
    exact sameFile_shortestPathFrom hbase hroot hp
  short := by
    unfold shortestPathFrom
    dsimp only
    split
    next => exact Nat.le_refl _
    next h => exact Nat.le_of_not_lt h

/-- A text names one file. -/
theorem Spells.unique {base p q : Path} {text : String} (hp : Spells base text p)
    (hq : Spells base text q) : SameFile p q :=
  ⟨hp.same.root.symm.trans hq.same.root, hp.same.names.symm.trans hq.same.names⟩

end Bpt.Path
