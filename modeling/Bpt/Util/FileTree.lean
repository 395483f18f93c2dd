-- SUMMARY: The files below the root directory, without links, and the paths that name one of them.
import Mathlib.Data.List.Nodup
import Bpt.Util.Path

/-!
# File trees

A path is resolved from the working directory, name by name. There are no links,
so the way back of a dot-dot name is the way that led there.
-/

namespace Bpt

/-- A name that a directory can hold. -/
def PlainName (name : String) : Prop := name ≠ "" ∧ name ≠ "." ∧ name ≠ ".." ∧ '/' ∉ name.toList

instance : DecidablePred PlainName := fun _ => inferInstanceAs (Decidable (_ ∧ _))

/-- The directories and the regular files, each as the names that lead to it. -/
structure FileTree where
  currentPath : List String
  directories : List (List String)
  files : List (List String)
  nodup : files.Nodup
  plain : ∀ file ∈ files, ∀ name ∈ file, PlainName name

namespace FileTree

def weaklyCanonical (tree : FileTree) (p : Path) : Path :=
  ((⟨true, tree.currentPath, false⟩ : Path) / p).lexicallyNormal

/-- The names that lead to what a path names. -/
def resolve (tree : FileTree) (p : Path) : List String := (tree.weaklyCanonical p).names

instance (tree : FileTree) (file : List String) : Decidable (file ∈ tree.files) :=
  inferInstance

def exists_ (tree : FileTree) (p : Path) : Bool :=
  tree.resolve p ∈ tree.directories || tree.files.any (tree.resolve p).isPrefixOf

/-- The regular files below a directory, from there. -/
def below (tree : FileTree) (dir : List String) : List (List String) :=
  tree.files.filterMap fun file => if dir.isPrefixOf file then some (file.drop dir.length) else none

/-- `fs::relative`. -/
def relative (tree : FileTree) (p base : Path) : Path :=
  (tree.weaklyCanonical p).lexicallyRelative (tree.weaklyCanonical base)

/-- The file that a path names: the directory, and the name in it. A dot name at
the end of a path never names a file, and is kept as it is. -/
def fileAt (tree : FileTree) (p : Path) : List String × String :=
  (tree.resolve p.parentPath, p.filename)

end FileTree

/-! ## Joined paths -/

namespace Path

theorem div_of_relative {p q : Path} (h : q.root = false) :
    p / q = ⟨p.root, p.names ++ q.names, if q.names = [] then p.names ≠ [] else q.trailing⟩ := by
  change (if q.root then q else _) = _
  simp [h]

theorem div_of_root {p q : Path} (h : q.root = true) : p / q = q := by
  change (if q.root then q else _) = _
  simp [h]

theorem div_root {p q : Path} : (p / q).root = (p.root || q.root) := by
  cases h : q.root with
  | false => rw [div_of_relative h]; simp
  | true => rw [div_of_root h]; simp [h]

theorem div_assoc (p q r : Path) : p / (q / r) = p / q / r := by
  cases hr : r.root with
  | true =>
    rw [div_of_root hr, div_of_root hr, div_of_root hr]
  | false =>
    cases hq : q.root with
    | true =>
      rw [div_of_root hq, div_of_root]
      rw [div_root, hq]; rfl
    | false =>
      have hqr : (q / r).root = false := by rw [div_root, hq, hr]; rfl
      rw [div_of_relative hqr, div_of_relative hr, div_of_relative hr, div_of_relative hq]
      by_cases hn : r.names = [] <;> simp [hn]
      by_cases hm : q.names = [] <;> simp [hm]

theorem filename_div {p : Path} {names : List String} :
    (p / ⟨false, names, false⟩).filename = (⟨false, names, false⟩ : Path).filename := by
  rw [div_of_relative rfl]
  by_cases hnames : names = []
  · subst hnames
    by_cases hp : p.names = [] <;> simp [filename, hp]
  · obtain ⟨last, hlast⟩ : ∃ last, names.getLast? = some last := by
      cases h : names.getLast? with
      | none => exact absurd (List.getLast?_eq_none_iff.1 h) hnames
      | some last => exact ⟨last, rfl⟩
    simp [filename, hnames, List.getLast?_append, hlast]

/-- The last name of a path below another one is replaced. -/
theorem replaceFilename_div {p : Path} {dirs : List String} {name name' : String}
    (h : name' ≠ "") :
    (p / ⟨false, dirs ++ [name], false⟩).replaceFilename (ofFilename name') =
      p / ⟨false, dirs ++ [name'], false⟩ := by
  have hdrop : (p.names ++ (dirs ++ [name])).dropLast = p.names ++ dirs := by
    rw [← List.append_assoc, List.dropLast_concat]
  unfold replaceFilename ofFilename
  rw [if_neg h, div_of_relative rfl, div_of_relative rfl]
  simp only [List.append_eq_nil_iff, List.cons_ne_nil, and_false, if_false, Bool.false_eq_true,
    hdrop]
  rw [div_of_relative rfl]
  simp

theorem splitSeparator_of_noSeparator {cs : List Char} (h : '/' ∉ cs) :
    splitSeparator cs = [cs] := by
  induction cs with
  | nil => rfl
  | cons c cs ih =>
    obtain ⟨hc, hcs⟩ := not_or.1 (mt List.mem_cons.2 h)
    rw [splitSeparator, if_neg fun hc' => hc hc'.symm, ih hcs]

/-- A string without separators is one filename. -/
theorem ofString_of_noSeparator {s : String} (h : '/' ∉ s.toList) (hne : s ≠ "") :
    ofString s = ofFilename s := by
  have hchars : s.toList ≠ [] := fun hnil => hne (String.toList_eq_nil_iff.1 hnil)
  have hhead : s.toList.head? ≠ some '/' := fun hh => h (List.mem_of_mem_head? hh)
  have hlast : s.toList.getLast? ≠ some '/' := fun hl => h (List.mem_of_getLast? hl)
  unfold ofString ofFilename
  rw [splitSeparator_of_noSeparator h]
  simp [hne, hchars, hhead, hlast]

end Path

/-! ## Resolved paths -/

namespace Path

/-- The names kept after one more name. -/
def keepName (root : Bool) (kept : List String) (name : String) : List String :=
  if name = "." then kept
  else if name = ".." then
    match kept with
    | [] => if root then [] else [".."]
    | top :: rest => if top = ".." then ".." :: kept else rest
  else name :: kept

theorem resolveDots_cons (root : Bool) (kept : List String) (name : String) (names : List String) :
    resolveDots root kept (name :: names) = resolveDots root (keepName root kept name) names := by
  unfold keepName
  conv => lhs; unfold resolveDots
  split
  · rfl
  · split
    · cases kept with
      | nil => dsimp only; split <;> rfl
      | cons top rest => dsimp only; split <;> rfl
    · rfl

theorem resolveDots_append (root : Bool) (kept xs ys : List String) :
    resolveDots root kept (xs ++ ys) = resolveDots root (resolveDots root kept xs).reverse ys := by
  induction xs generalizing kept with
  | nil => simp [resolveDots]
  | cons name xs ih => rw [List.cons_append, resolveDots_cons, resolveDots_cons, ih]

theorem resolveDots_of_noDots {root : Bool} {kept names : List String}
    (h : ∀ name ∈ names, name ≠ "." ∧ name ≠ "..") :
    resolveDots root kept names = kept.reverse ++ names := by
  induction names generalizing kept with
  | nil => simp [resolveDots]
  | cons name names ih =>
    obtain ⟨hdot, hdots⟩ := h name List.mem_cons_self
    have hkeep : keepName root kept name = name :: kept := by simp [keepName, hdot, hdots]
    rw [resolveDots_cons, hkeep, ih fun n hn => h n (List.mem_cons_of_mem _ hn)]
    simp

theorem keepName_noDots {kept : List String} {name : String}
    (h : ∀ n ∈ kept, n ≠ "." ∧ n ≠ "..") :
    ∀ n ∈ keepName true kept name, n ≠ "." ∧ n ≠ ".." := by
  unfold keepName
  split
  · exact h
  · split
    · cases kept with
      | nil => exact fun n hn => nomatch hn
      | cons top rest =>
        dsimp only
        rw [if_neg (h top List.mem_cons_self).2]
        exact fun n hn => h n (List.mem_cons_of_mem _ hn)
    next hdot hdots =>
      intro n hn
      rcases List.mem_cons.1 hn with rfl | hn
      · exact ⟨hdot, hdots⟩
      · exact h n hn

/-- No dot names are left below the root. -/
theorem noDots_resolveDots {names : List String} (kept : List String) (h : ∀ n ∈ kept, n ≠ "." ∧ n ≠ "..") :
    ∀ n ∈ resolveDots true kept names, n ≠ "." ∧ n ≠ ".." := by
  induction names generalizing kept with
  | nil =>
    intro n hn
    exact h n (List.mem_reverse.1 (by simpa [resolveDots] using hn))
  | cons name names ih =>
    rw [resolveDots_cons]
    exact ih _ (keepName_noDots h)

theorem resolveDots_singleton (root : Bool) (kept : List String) (name : String) :
    resolveDots root kept [name] = (keepName root kept name).reverse := by
  rw [resolveDots_cons, resolveDots]

/-- A name does the same to a relative path before it is followed from
somewhere and after. -/
theorem resolveDots_keepName {start kept : List String} (name : String) (h : "." ∉ kept) :
    resolveDots true start (keepName false kept name).reverse =
      resolveDots true start (kept.reverse ++ [name]) := by
  rw [resolveDots_append, resolveDots_singleton]
  by_cases hdot : name = "."
  · simp [keepName, hdot]
  · by_cases hdots : name = ".."
    · subst hdots
      cases kept with
      | nil => simp [keepName, resolveDots_singleton, resolveDots]
      | cons top rest =>
        have htop : top ≠ "." := fun htop => h (htop ▸ List.mem_cons_self)
        by_cases hup : top = ".."
        · have hkeep : keepName false (top :: rest) ".." = ".." :: top :: rest := by
            simp [keepName, hup]
          rw [hkeep, List.reverse_cons, resolveDots_append, resolveDots_singleton]
        · rw [List.reverse_cons, resolveDots_append, resolveDots_singleton]
          simp [keepName, htop, hup]
    · simp [keepName, hdot, hdots, resolveDots_append, resolveDots_singleton]

/-- Relative names may be normalized before they are followed from somewhere. -/
theorem resolveDots_resolveDots {start names : List String} (kept : List String)
    (h : "." ∉ kept) :
    resolveDots true start (resolveDots false kept names) =
      resolveDots true start (kept.reverse ++ names) := by
  induction names generalizing kept with
  | nil => rw [resolveDots, List.append_nil]
  | cons name names ih =>
    have hkept : "." ∉ keepName false kept name := by
      unfold keepName
      split
      · exact h
      · split
        · cases kept with
          | nil => decide
          | cons top rest =>
            dsimp only
            split
            · simpa using h
            · exact fun hrest => h (List.mem_cons_of_mem _ hrest)
        next hdot _ => exact fun hmem => (List.mem_cons.1 hmem).elim (fun he => hdot he.symm) h
    rw [resolveDots_cons, ih _ hkept, resolveDots_append, resolveDots_keepName name h,
      ← resolveDots_append]
    simp

end Path

theorem PlainName.noDots {names : List String} (h : ∀ name ∈ names, PlainName name) :
    ∀ name ∈ names, name ≠ "." ∧ name ≠ ".." := by
  intro name hname
  obtain ⟨_, hdot, hdots, _⟩ := h name hname
  exact ⟨hdot, hdots⟩

namespace Path

/-- Nothing follows a plain name at the end of the normal form. -/
theorem lexicallyNormal_of_plain {p : Path} (hroot : p.root = true) (htrailing : p.trailing = false)
    (hlast : ∃ name, p.names.getLast? = some name ∧ PlainName name) :
    p.lexicallyNormal = ⟨true, p.lexicallyNormal.names, false⟩ := by
  obtain ⟨name, hname, _, hdot, hdots, _⟩ := hlast
  unfold lexicallyNormal
  rw [if_neg (by simp [hroot]), hroot, htrailing, hname]
  dsimp only
  split
  · rfl
  · simp [hdot, hdots]

end Path

namespace FileTree

theorem names_lexicallyNormal {p : Path} (h : p.root = true) :
    p.lexicallyNormal.names = Path.resolveDots true [] p.names := by
  unfold Path.lexicallyNormal
  rw [if_neg (by simp [h]), h]
  dsimp only
  split
  next hnil => rw [hnil]; rfl
  next => rfl

theorem lexicallyNormal_root (p : Path) : p.lexicallyNormal.root = p.root := by
  unfold Path.lexicallyNormal
  split
  · rfl
  · dsimp only
    split
    · split
      next hroot => exact hroot.symm
      next hroot => exact (Bool.eq_false_iff.2 hroot).symm
    · rfl

theorem resolveDots_lexicallyNormal {p : Path} (h : p.root = false) {start : List String} :
    Path.resolveDots true start p.lexicallyNormal.names =
      Path.resolveDots true start p.names := by
  have hsame : Path.resolveDots true start (Path.resolveDots false [] p.names) =
      Path.resolveDots true start p.names :=
    Path.resolveDots_resolveDots [] List.not_mem_nil
  rw [← hsame]
  unfold Path.lexicallyNormal
  split
  next hnil => rw [hnil.2]; rfl
  next =>
    rw [h]
    dsimp only
    split
    next hnil =>
      rw [hnil, if_neg Bool.false_ne_true, Path.resolveDots_singleton]
      simp [Path.keepName, Path.resolveDots]
    next => rfl

theorem resolve_eq (tree : FileTree) (p : Path) :
    tree.resolve p =
      Path.resolveDots true [] (if p.root then p.names else tree.currentPath ++ p.names) := by
  unfold resolve weaklyCanonical
  rw [names_lexicallyNormal (by rw [Path.div_root]; rfl)]
  cases h : p.root with
  | false => rw [Path.div_of_relative h]; rfl
  | true => rw [Path.div_of_root h]; rfl

theorem resolve_div_relative (tree : FileTree) (p : Path) {q : Path} (h : q.root = false) :
    tree.resolve (p / q) = Path.resolveDots true (tree.resolve p).reverse q.names := by
  rw [resolve_eq, resolve_eq, Path.div_of_relative h, ← Path.resolveDots_append]
  cases p.root <;> simp

/-- Plain names below a path lead further down. -/
theorem resolve_div {tree : FileTree} {p : Path} {names : List String} {trailing : Bool}
    (h : ∀ name ∈ names, PlainName name) :
    tree.resolve (p / ⟨false, names, trailing⟩) = tree.resolve p ++ names := by
  rw [resolve_div_relative tree p rfl, Path.resolveDots_of_noDots (PlainName.noDots h),
    List.reverse_reverse]

theorem noDots_resolve (tree : FileTree) (p : Path) :
    ∀ name ∈ tree.resolve p, name ≠ "." ∧ name ≠ ".." := by
  rw [resolve_eq]
  exact Path.noDots_resolveDots [] fun _ hn => nomatch hn

theorem resolve_trailing (tree : FileTree) (root : Bool) (names : List String) (trailing : Bool) :
    tree.resolve ⟨root, names, trailing⟩ = tree.resolve ⟨root, names, false⟩ := by
  rw [resolve_eq, resolve_eq]

/-- The normal form of a path leads to the same place. -/
theorem resolve_normalizePath (tree : FileTree) (base : Path) {p q : Path}
    (h : p.normalizePath = some q) : tree.resolve (base / q) = tree.resolve (base / p) := by
  obtain ⟨hroot, hnames⟩ : q.root = p.lexicallyNormal.root ∧ q.names = p.lexicallyNormal.names := by
    unfold Path.normalizePath at h
    dsimp only at h
    split at h
    · cases h
    · cases h
      exact ⟨rfl, rfl⟩
  cases hp : p.root with
  | true =>
    have hq : q.root = true := by rw [hroot, lexicallyNormal_root, hp]
    rw [Path.div_of_root hp, Path.div_of_root hq, resolve_eq, resolve_eq, if_pos hp, if_pos hq,
      hnames, names_lexicallyNormal hp,
      Path.resolveDots_of_noDots (Path.noDots_resolveDots [] fun _ hn => nomatch hn)]
    rfl
  | false =>
    have hq : q.root = false := by rw [hroot, lexicallyNormal_root, hp]
    rw [resolve_div_relative tree base hp, resolve_div_relative tree base hq, hnames]
    exact resolveDots_lexicallyNormal hp

/-- The file of one more name below a path is in the directory of the path. -/
theorem fileAt_div_ofFilename (tree : FileTree) (p : Path) {name : String} (h : name ≠ "") :
    tree.fileAt (p / Path.ofFilename name) = (tree.resolve p, name) := by
  unfold Path.ofFilename
  rw [if_neg h, Path.div_of_relative rfl]
  have hnames : (p.names ++ [name]).dropLast = p.names := by simp
  simp only [fileAt, Path.parentPath, Path.filename, List.cons_ne_nil, if_false, hnames,
    Bool.false_eq_true, List.getLast?_append, List.getLast?_singleton, Option.some_or,
    Option.getD_some]
  exact congrArg (·, name) (tree.resolve_trailing p.root p.names p.trailing).symm

theorem weaklyCanonical_div (tree : FileTree) (p : Path) {dirs : List String} {name : String}
    (hdirs : ∀ d ∈ dirs, PlainName d) (hname : PlainName name) :
    tree.weaklyCanonical (p / ⟨false, dirs ++ [name], false⟩) =
      ⟨true, tree.resolve p ++ dirs ++ [name], false⟩ := by
  have hplain : ∀ n ∈ dirs ++ [name], PlainName n := by
    intro n hn
    rcases List.mem_append.1 hn with hn | hn
    · exact hdirs n hn
    · rw [List.mem_singleton.1 hn]
      exact hname
  have hnames : tree.resolve (p / ⟨false, dirs ++ [name], false⟩) =
      tree.resolve p ++ (dirs ++ [name]) := resolve_div hplain
  have hlast : ∀ names : List String, (names ++ (dirs ++ [name])).getLast? = some name := by simp
  rw [List.append_assoc, ← hnames, Path.div_of_relative rfl]
  unfold resolve weaklyCanonical
  cases hroot : p.root with
  | false =>
    rw [Path.div_of_relative rfl]
    apply Path.lexicallyNormal_of_plain rfl (by simp)
    exact ⟨name, by rw [← List.append_assoc]; exact hlast _, hname⟩
  | true =>
    rw [Path.div_of_root rfl]
    exact Path.lexicallyNormal_of_plain rfl (by simp) ⟨name, hlast _, hname⟩

/-- A resolved path names the same file. -/
theorem fileAt_weaklyCanonical (tree : FileTree) (p : Path) {dirs : List String} {name : String}
    (hdirs : ∀ d ∈ dirs, PlainName d) (hname : PlainName name) :
    tree.fileAt (tree.weaklyCanonical (p / ⟨false, dirs ++ [name], false⟩)) =
      (tree.resolve p ++ dirs, name) := by
  have hnoDots : ∀ n ∈ tree.resolve p ++ dirs, n ≠ "." ∧ n ≠ ".." := by
    intro n hn
    rcases List.mem_append.1 hn with hn | hn
    · exact noDots_resolve tree p n hn
    · exact PlainName.noDots hdirs n hn
  have hdrop : (tree.resolve p ++ dirs ++ [name]).dropLast = tree.resolve p ++ dirs := by simp
  have hparent : tree.resolve ⟨true, tree.resolve p ++ dirs, false⟩ = tree.resolve p ++ dirs := by
    rw [resolve_eq, if_pos rfl, Path.resolveDots_of_noDots hnoDots]
    rfl
  rw [weaklyCanonical_div tree p hdirs hname]
  simp only [fileAt, Path.parentPath, Path.filename, Bool.false_eq_true, if_false, hdrop, hparent]
  simp

theorem relative_div (tree : FileTree) (p : Path) {names : List String}
    (h : ∀ name ∈ names, PlainName name) (hne : names ≠ []) :
    tree.relative (p / ⟨false, names, false⟩) p = ⟨false, names, false⟩ := by
  have hcommon : ∀ base, Path.dropCommon (base ++ names) base = (names, []) := by
    intro base
    induction base with
    | nil => cases names <;> rfl
    | cons b base ih => simpa [Path.dropCommon] using ih
  have hnames : (tree.weaklyCanonical (p / ⟨false, names, false⟩)).names =
      (tree.weaklyCanonical p).names ++ names := resolve_div h
  unfold relative Path.lexicallyRelative
  rw [hnames, hcommon]
  simp [hne]

/-- A file is below a directory by the names that lead on from there. -/
theorem below_eq_some {dir file rel : List String} :
    (if dir.isPrefixOf file then some (file.drop dir.length) else none) = some rel ↔
      file = dir ++ rel := by
  constructor
  · intro h
    split at h
    next hpre =>
      obtain ⟨rest, rfl⟩ := List.isPrefixOf_iff_prefix.1 hpre
      cases h
      simp
    next => cases h
  · rintro rfl
    rw [if_pos (List.isPrefixOf_iff_prefix.2 ⟨rel, rfl⟩)]
    simp

theorem mem_below {tree : FileTree} {dir rel : List String} :
    rel ∈ tree.below dir ↔ dir ++ rel ∈ tree.files := by
  unfold below
  rw [List.mem_filterMap]
  constructor
  · rintro ⟨file, hfile, h⟩
    exact below_eq_some.1 h ▸ hfile
  · exact fun h => ⟨dir ++ rel, h, below_eq_some.2 rfl⟩

theorem plain_of_mem_below {tree : FileTree} {dir rel : List String} (h : rel ∈ tree.below dir) :
    ∀ name ∈ rel, PlainName name := fun name hname =>
  tree.plain _ (mem_below.1 h) name (List.mem_append_right _ hname)

theorem nodup_below (tree : FileTree) (dir : List String) : (tree.below dir).Nodup := by
  apply List.Nodup.filterMap _ tree.nodup
  intro a b rel ha hb
  exact (below_eq_some.1 ha).trans (below_eq_some.1 hb).symm

end FileTree

end Bpt
