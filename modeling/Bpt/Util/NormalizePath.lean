-- SUMMARY: The loop of `normalize_path` over all spellings of a path: where it ends, and that it does not at the root.
import Bpt.Base.While
import Bpt.Util.PathText

/-!
# Normalized paths

The loop takes the parent of a normal form as long as its filename is empty. The root directory
has no filename and is its own parent.
-/

namespace Bpt.Path

variable {p p' q : Path} {root : Bool} {kept names : List String} {s : String}

def isEmpty (p : Path) : Bool := !p.root && p.names.isEmpty

/-- The condition of the loop. -/
def isOpen (p : Path) : Bool := !p.isEmpty && p.filename.isEmpty

/-- `normalize_path` ends and returns the second path. -/
def NormalizesTo (p q : Path) : Prop := While.Ends isOpen parentPath p.lexicallyNormal q

/-! ## The end of the loop -/

theorem not_isOpen_of_named (h : ∀ name ∈ p.names, name ≠ "") (hne : p.names ≠ [])
    (htrailing : p.trailing = false) : p.isOpen = false := by
  have hlast := h _ (List.getLast_mem hne)
  unfold isOpen filename
  rw [htrailing, List.getLast?_eq_some_getLast hne]
  simp [hlast]

theorem isOpen_of_trailing (hne : p.names ≠ []) (htrailing : p.trailing = true) :
    p.isOpen = true := by
  unfold isOpen isEmpty filename
  rw [htrailing]
  simp [hne]

/-- The loop ends with the separator removed, and not at all on the root. -/
theorem normalizesTo_iff (h : p.Legible) : NormalizesTo p q ↔ p.normalizePath = some q := by
  have hnormal := legible_lexicallyNormal h
  have hnames : ∀ name ∈ p.lexicallyNormal.names, name ≠ "" := fun name hname =>
    (hnormal.names name hname).1
  unfold NormalizesTo normalizePath
  generalize p.lexicallyNormal = n at hnormal hnames
  obtain ⟨root, names, trailing⟩ := n
  dsimp only at hnames ⊢
  by_cases hnil : names = []
  · subst hnil
    have htrailing : trailing = false := by simpa using mt hnormal.trailing
    subst htrailing
    cases root with
    | true =>
      apply iff_of_false
      · refine While.not_ends (I := fun n => n = ⟨true, [], false⟩) ?_ ?_ rfl
        · rintro _ rfl
          rfl
        · rintro _ rfl
          rfl
      · rw [if_pos ⟨rfl, rfl⟩]
        exact nofun
    | false =>
      rw [While.ends_of_not rfl]
      simp
  · rw [if_neg fun h => hnil h.2, Option.some_inj]
    have hclosed : isOpen ⟨root, names, false⟩ = false := not_isOpen_of_named hnames hnil rfl
    cases trailing with
    | true =>
      rw [While.ends_body (isOpen_of_trailing hnil rfl)]
      exact While.ends_of_not hclosed
    | false => exact While.ends_of_not hclosed

/-! ## What the result depends on -/

theorem resolveDots_filter :
    resolveDots root kept (names.filter (· ≠ ".")) = resolveDots root kept names := by
  induction names generalizing kept with
  | nil => rfl
  | cons name names ih =>
    by_cases hdot : name = "."
    · rw [List.filter_cons_of_neg (by simp [hdot]), ih, hdot]
      rfl
    · rw [List.filter_cons_of_pos (by simp [hdot]), resolveDots_cons, resolveDots_cons, ih]

theorem normalizePath_eq (p : Path) : p.normalizePath =
    if p.root = false ∧ p.names = [] then some ⟨p.root, p.names, false⟩
    else if resolveDots p.root [] p.names = [] then
      if p.root then none else some ⟨false, ["."], false⟩
    else some ⟨p.root, resolveDots p.root [] p.names, false⟩ := by
  unfold normalizePath lexicallyNormal
  by_cases hempty : p.root = false ∧ p.names = []
  · simp [hempty]
  · rw [if_neg hempty, if_neg hempty]
    dsimp only
    by_cases hnil : resolveDots p.root [] p.names = []
    · rw [if_pos hnil, if_pos hnil]
      cases p.root <;> rfl
    · rw [if_neg hnil, if_neg hnil, if_neg fun h => hnil h.2]

/-- Dot names and separators at the end do not change the result. -/
theorem normalizePath_congr (hroot : p.root = p'.root)
    (hempty : p.root = false → (p.names = [] ↔ p'.names = []))
    (hnames : p.names.filter (· ≠ ".") = p'.names.filter (· ≠ ".")) :
    p.normalizePath = p'.normalizePath := by
  have hsame : (p.root = false ∧ p.names = []) ↔ (p'.root = false ∧ p'.names = []) := by
    rw [← hroot]
    exact and_congr_right hempty
  have hresolve : resolveDots p.root [] p.names = resolveDots p'.root [] p'.names := by
    rw [← resolveDots_filter, hnames, resolveDots_filter, hroot]
  rw [normalizePath_eq, normalizePath_eq p']
  by_cases h : p.root = false ∧ p.names = []
  · rw [if_pos h, if_pos (hsame.mp h), h.2, (hsame.mp h).2, hroot]
  · rw [if_neg h, if_neg (mt hsame.mpr h), hresolve, hroot]

/-- A result is its own result. -/
theorem normalizePath_of_normalizePath (h : p.normalizePath = some q) :
    q.normalizePath = some q := by
  rw [normalizePath_eq] at h
  split at h
  next hempty =>
    cases h
    rw [normalizePath_eq, if_pos hempty]
  next =>
    split at h
    next =>
      split at h
      · cases h
      · cases h
        rfl
    next hne =>
      cases h
      rw [normalizePath_eq, resolveDots_idem, if_neg fun h => hne h.2, if_neg hne]

theorem trailing_normalizePath (h : p.normalizePath = some q) : q.trailing = false := by
  unfold normalizePath at h
  dsimp only at h
  split at h
  · cases h
  · cases h
    rfl

theorem legible_normalizePath (hp : p.Legible) (h : p.normalizePath = some q) : q.Legible := by
  have hnormal := legible_lexicallyNormal hp
  unfold normalizePath at h
  dsimp only at h
  split at h
  · cases h
  · cases h
    exact ⟨hnormal.names, nofun⟩

/-! ## Paths that name the root -/

/-- How far a name leads down, from a depth below the root. -/
def climb (depth : Nat) (name : String) : Nat :=
  if name = "." then depth else if name = ".." then depth - 1 else depth + 1

/-- How far below the root the names lead. -/
def depth (names : List String) : Nat := names.foldl climb 0

/-- The path is absolute, and names the root directory. -/
def NamesRoot (p : Path) : Prop := p.root = true ∧ depth p.names = 0

theorem length_keepName {name : String} (h : ∀ n ∈ kept, n ≠ "." ∧ n ≠ "..") :
    (keepName true kept name).length = climb kept.length name := by
  unfold keepName climb
  split
  · rfl
  split
  · cases kept with
    | nil => rfl
    | cons top rest =>
      dsimp only
      rw [if_neg (h top List.mem_cons_self).2]
      rfl
  · rfl

theorem length_resolveDots (h : ∀ n ∈ kept, n ≠ "." ∧ n ≠ "..") :
    (resolveDots true kept names).length = names.foldl climb kept.length := by
  induction names generalizing kept with
  | nil => exact List.length_reverse
  | cons name names ih =>
    rw [resolveDots_cons, ih (keepName_noDots h), length_keepName h]
    rfl

theorem normalizePath_eq_none_iff : p.normalizePath = none ↔ p.NamesRoot := by
  have hdepth : p.root = true → (resolveDots p.root [] p.names = [] ↔ depth p.names = 0) := by
    intro hroot
    rw [hroot, ← List.length_eq_zero_iff, length_resolveDots (by simp)]
    rfl
  rw [normalizePath_eq]
  unfold NamesRoot
  cases hroot : p.root with
  | true =>
    rw [hroot] at hdepth
    rw [if_neg (by simp)]
    by_cases hnil : resolveDots true [] p.names = []
    · simp [hnil, (hdepth rfl).mp hnil]
    · simp [hnil, mt (hdepth rfl).mpr hnil]
  | false =>
    apply iff_of_false
    · split
      · exact nofun
      · split
        · exact nofun
        · exact nofun
    · exact fun h => Bool.noConfusion h.1

/-! ## Spellings -/

/-- The texts differ in repeated separators, dot components and separators at the end only. The
empty path is not the working directory, so it has no other spelling. -/
structure SameSpelling (s s' : String) : Prop where
  empty : s = "" ↔ s' = ""
  root : (ofString s).root = (ofString s').root
  names : (ofString s).names.filter (· ≠ ".") = (ofString s').names.filter (· ≠ ".")

/-- A change of a text that only changes how a path is spelled. -/
inductive Edit : List Char → List Char → Prop where
  | repeated (before after : List Char) :
    Edit (before ++ '/' :: after) (before ++ '/' :: '/' :: after)
  | dot (before after : List Char) :
    Edit (before ++ '/' :: after) (before ++ '/' :: '.' :: '/' :: after)
  | leadingDot (c : Char) (after : List Char) :
    c ≠ '/' → Edit (c :: after) ('.' :: '/' :: c :: after)
  | trailing (c : Char) (before : List Char) : Edit (c :: before) (c :: before ++ ['/'])
  | trailingDot (before : List Char) : Edit (before ++ ['/']) (before ++ ['/', '.'])

theorem splitSeparator_append_separator (before after : List Char) :
    splitSeparator (before ++ '/' :: after) = splitSeparator before ++ splitSeparator after := by
  induction before with
  | nil => simp [splitSeparator]
  | cons c before ih =>
    have hne : splitSeparator before ≠ [] := by
      cases before with
      | nil => exact List.cons_ne_nil _ _
      | cons d before =>
        unfold splitSeparator
        split
        · exact List.cons_ne_nil _ _
        · split <;> exact List.cons_ne_nil _ _
    obtain ⟨piece, pieces, hpieces⟩ := List.exists_cons_of_ne_nil hne
    rw [List.cons_append, splitSeparator, ih, hpieces]
    conv => rhs; rw [splitSeparator, hpieces]
    split <;> rfl

theorem spelledNames_append_separator (before after : List Char) :
    spelledNames (before ++ '/' :: after) = spelledNames before ++ spelledNames after := by
  unfold spelledNames
  rw [splitSeparator_append_separator, List.filter_append, List.map_append]

theorem Edit.sameSpelling {cs cs' : List Char} (h : Edit cs cs') :
    SameSpelling (String.ofList cs) (String.ofList cs') := by
  have hdot : spelledNames ['.'] = ["."] := by decide
  cases h with
  | repeated before after =>
    constructor
    · simp
    · cases before <;> simp [ofString_eq]
    · simp [ofString_eq, spelledNames_append_separator]
  | dot before after =>
    constructor
    · simp
    · cases before <;> simp [ofString_eq]
    · have hafter : spelledNames ('.' :: '/' :: after) = "." :: spelledNames after := by
        rw [← List.singleton_append, spelledNames_append_separator, hdot]
        rfl
      simp [ofString_eq, spelledNames_append_separator, hafter]
  | leadingDot c after hc =>
    constructor
    · simp
    · simp [ofString_eq, hc]
    · have hafter : spelledNames ('.' :: '/' :: c :: after) =
          "." :: spelledNames (c :: after) := by
        rw [← List.singleton_append, spelledNames_append_separator, hdot]
        rfl
      simp [ofString_eq, hafter]
  | trailing c before =>
    constructor
    · simp
    · simp [ofString_eq]
    · have hbefore : spelledNames (c :: before ++ ['/']) = spelledNames (c :: before) := by
        rw [spelledNames_append_separator, spelledNames_nil, List.append_nil]
      rw [List.cons_append] at hbefore
      simp [ofString_eq, hbefore]
  | trailingDot before =>
    constructor
    · simp
    · cases before <;> simp [ofString_eq]
    · simp [ofString_eq, spelledNames_append_separator, hdot]

/-- The path is normalized to one that is normalized, has no separator at its end unless it is
the root, and is what all spellings are normalized to. -/
def Canonical (s : String) : Prop :=
  ∃ q, NormalizesTo (ofString s) q ∧ NormalizesTo q q ∧
    (q.toGenericString.toList.getLast? = some '/' → q.toGenericString = "/") ∧
    ∀ s', SameSpelling s s' → NormalizesTo (ofString s') q

/-- A relative text that is not empty has a name. -/
theorem names_ofString_eq_nil (hroot : (ofString s).root = false) :
    (ofString s).names = [] ↔ s = "" := by
  rw [ofString_eq] at hroot ⊢
  dsimp only at hroot ⊢
  rw [decide_eq_false_iff_not] at hroot
  rw [← String.toList_eq_nil_iff]
  cases htext : s.toList with
  | nil => exact iff_of_true rfl rfl
  | cons c cs =>
    apply iff_of_false _ (List.cons_ne_nil c cs)
    have hc : c ≠ '/' := by simpa [htext] using hroot
    unfold spelledNames splitSeparator
    rw [if_neg hc]
    cases splitSeparator cs <;> simp

/-- All spellings have one result. -/
theorem SameSpelling.normalizePath {s' : String} (h : SameSpelling s s') :
    (ofString s).normalizePath = (ofString s').normalizePath := by
  apply normalizePath_congr h.root _ h.names
  intro hroot
  rw [names_ofString_eq_nil hroot, names_ofString_eq_nil (h.root ▸ hroot)]
  exact h.empty

/-- Only the root ends with a separator when none follows the last name. -/
theorem toGenericString_of_getLast (h : p.Legible) (htrailing : p.trailing = false)
    (hlast : p.toGenericString.toList.getLast? = some '/') : p.toGenericString = "/" := by
  rw [toList_toGenericString, htrailing, if_neg Bool.false_ne_true, List.append_nil] at hlast
  by_cases hnil : p.names = []
  · rw [← String.toList_inj, toList_toGenericString, htrailing, if_neg Bool.false_ne_true, hnil]
    rw [hnil] at hlast
    cases hroot : p.root with
    | true => rfl
    | false =>
      rw [hroot] at hlast
      cases hlast
  · obtain ⟨-, hends, hne⟩ := joinedNames_ends h.names hnil
    rw [List.getLast?_append_of_ne_nil _ hne] at hlast
    exact absurd hlast hends

/-- Paths are normalized to one form for all spellings, but for those that name the root, where
the loop does not end. -/
theorem canonical_iff (s : String) : Canonical s ↔ ¬ (ofString s).NamesRoot := by
  rw [← normalizePath_eq_none_iff]
  have hread := legible_ofString s
  constructor
  · rintro ⟨q, hq, -⟩ hnone
    rw [normalizesTo_iff hread, hnone] at hq
    cases hq
  · intro hsome
    obtain ⟨q, hq⟩ := Option.ne_none_iff_exists'.mp hsome
    have hlegible := legible_normalizePath hread hq
    refine ⟨q, (normalizesTo_iff hread).mpr hq,
      (normalizesTo_iff hlegible).mpr (normalizePath_of_normalizePath hq),
      toGenericString_of_getLast hlegible (trailing_normalizePath hq), fun s' hs' => ?_⟩
    rw [normalizesTo_iff (legible_ofString s'), ← hs'.normalizePath]
    exact hq

/-- The loop does not end on the root directory. -/
theorem not_canonical_root : ¬ Canonical "/" := by
  rintro ⟨q, hq, -⟩
  have hnone : (ofString "/").normalizePath = none := by decide
  rw [normalizesTo_iff (legible_ofString "/"), hnone] at hq
  cases hq

end Bpt.Path
