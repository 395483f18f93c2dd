-- SUMMARY: Paths as texts: a printed path is read back, and a normal form is its own normal form.
import Bpt.Util.FileTree

/-!
# Paths as texts

The names of a path that was read from a text are not empty and hold no
separators. Such a path is read back from what it prints. Normalizing keeps this,
and once normalized a path does not change any more: the dot-dot names that are
left come first, and no dot names are left.
-/

namespace Bpt.Path

/-! ## Printing and reading -/

/-- The names are such as a text can spell. -/
structure Legible (p : Path) : Prop where
  names : ∀ name ∈ p.names, name ≠ "" ∧ '/' ∉ name.toList
  trailing : p.trailing = true → p.names ≠ []

/-- The names that a text spells. -/
def spelledNames (cs : List Char) : List String :=
  ((splitSeparator cs).filter (· ≠ [])).map String.ofList

@[simp] theorem spelledNames_nil : spelledNames [] = [] := rfl

@[simp] theorem spelledNames_separator (cs : List Char) :
    spelledNames ('/' :: cs) = spelledNames cs := by
  simp [spelledNames, splitSeparator]

theorem splitSeparator_append {cs rest : List Char} (h : '/' ∉ cs) :
    splitSeparator (cs ++ '/' :: rest) = cs :: splitSeparator rest := by
  induction cs with
  | nil => simp [splitSeparator]
  | cons c cs ih =>
      obtain ⟨hc, hcs⟩ := not_or.1 (mt List.mem_cons.2 h)
      rw [List.cons_append, splitSeparator, if_neg fun hc' => hc hc'.symm, ih hcs]

theorem spelledNames_of_noSeparator {name : String} (hne : name ≠ "") (h : '/' ∉ name.toList) :
    spelledNames name.toList = [name] := by
  simp [spelledNames, splitSeparator_of_noSeparator h, hne]

theorem spelledNames_append {name : String} {rest : List Char} (hne : name ≠ "")
    (h : '/' ∉ name.toList) :
    spelledNames (name.toList ++ '/' :: rest) = name :: spelledNames rest := by
  simp [spelledNames, splitSeparator_append h, hne]

/-- The characters of the names, with a separator between any two. -/
def joinedNames (names : List String) : List Char :=
  List.intercalate ['/'] (names.map String.toList)

theorem joinedNames_cons_cons (name name' : String) (names : List String) :
    joinedNames (name :: name' :: names) =
      name.toList ++ '/' :: joinedNames (name' :: names) := by
  simp [joinedNames, List.intercalate_cons_cons]

theorem spelledNames_joinedNames {names : List String} {tail : List Char}
    (h : ∀ name ∈ names, name ≠ "" ∧ '/' ∉ name.toList) (htail : tail = [] ∨ tail = ['/']) :
    spelledNames (joinedNames names ++ tail) = names := by
  induction names with
  | nil => obtain rfl | rfl := htail <;> rfl
  | cons name names ih =>
      obtain ⟨hne, hsep⟩ := h name List.mem_cons_self
      have hrest := ih fun n hn => h n (List.mem_cons_of_mem _ hn)
      cases names with
      | nil =>
          obtain rfl | rfl := htail
          · simpa [joinedNames] using spelledNames_of_noSeparator hne hsep
          · have happend : spelledNames (name.toList ++ ['/']) = [name] :=
              spelledNames_append hne hsep
            simpa [joinedNames] using happend
      | cons name' names =>
          rw [joinedNames_cons_cons, List.append_assoc, List.cons_append,
            spelledNames_append hne hsep, hrest]

/-- The names do not start or end with a separator. -/
theorem joinedNames_ends {names : List String}
    (h : ∀ name ∈ names, name ≠ "" ∧ '/' ∉ name.toList) (hne : names ≠ []) :
    (joinedNames names).head? ≠ some '/' ∧ (joinedNames names).getLast? ≠ some '/' ∧
      joinedNames names ≠ [] := by
  induction names with
  | nil => exact absurd rfl hne
  | cons name names ih =>
      obtain ⟨hname, hsep⟩ := h name List.mem_cons_self
      have hchars : name.toList ≠ [] := fun hnil => hname (String.toList_eq_nil_iff.1 hnil)
      have hhead : name.toList.head? ≠ some '/' := fun hh => hsep (List.mem_of_mem_head? hh)
      have hlast : name.toList.getLast? ≠ some '/' := fun hl => hsep (List.mem_of_getLast? hl)
      cases names with
      | nil => simpa [joinedNames] using ⟨hhead, hlast, hname⟩
      | cons name' names =>
          obtain ⟨_, hlast', hne'⟩ := ih (fun n hn => h n (List.mem_cons_of_mem _ hn)) (by simp)
          rw [joinedNames_cons_cons]
          refine ⟨?_, ?_, by simp⟩
          · cases hcs : name.toList with
            | nil => exact absurd hcs hchars
            | cons c cs => simpa [hcs] using hhead
          · rw [List.getLast?_append_of_ne_nil _ (by simp), List.getLast?_cons]
            cases hjoin : (joinedNames (name' :: names)).getLast? with
            | none => exact absurd (List.getLast?_eq_none_iff.1 hjoin) hne'
            | some c => simpa [hjoin] using hlast'

theorem toList_toGenericString (p : Path) :
    p.toGenericString.toList =
      (if p.root then ['/'] else []) ++ (joinedNames p.names ++ if p.trailing then ['/'] else []) := by
  unfold toGenericString joinedNames
  cases p.root <;> cases p.trailing <;> simp [String.toList_append, String.toList_intercalate]

theorem ofString_eq (s : String) :
    ofString s =
      ⟨s.toList.head? = some '/', spelledNames s.toList,
        spelledNames s.toList ≠ [] ∧ s.toList.getLast? = some '/'⟩ := rfl

theorem spelledNames_toGenericString {p : Path} (h : p.Legible) :
    spelledNames p.toGenericString.toList = p.names := by
  rw [toList_toGenericString]
  have htail : (if p.trailing then ['/'] else []) = [] ∨
      (if p.trailing then ['/'] else []) = ['/'] := by
    cases p.trailing <;> simp
  have hnames := spelledNames_joinedNames h.names htail
  cases p.root with
  | false => exact hnames
  | true => exact (spelledNames_separator _).trans hnames

/-- What a path prints is read as that path. -/
theorem ofString_toGenericString {p : Path} (h : p.Legible) : ofString p.toGenericString = p := by
  obtain ⟨root, names, trailing⟩ := p
  rw [ofString_eq, spelledNames_toGenericString h, toList_toGenericString]
  simp only [mk.injEq, true_and]
  cases names with
  | nil =>
      have htrailing : trailing = false := by simpa using mt h.trailing
      subst htrailing
      cases root <;> simp [joinedNames]
  | cons name names =>
      obtain ⟨hhead, hlast, hne⟩ := joinedNames_ends h.names (List.cons_ne_nil name names)
      have hlast' : ∀ cs : List Char,
          (cs ++ joinedNames (name :: names)).getLast? ≠ some '/' := by
        intro cs
        rwa [List.getLast?_append_of_ne_nil _ hne]
      constructor
      · cases root with
        | true => simp
        | false => simpa [List.head?_append_of_ne_nil _ hne] using hhead
      · cases trailing with
        | true => simp
        | false => simpa using hlast' _

theorem noSeparator_of_mem_splitSeparator {cs piece : List Char}
    (h : piece ∈ splitSeparator cs) : '/' ∉ piece := by
  induction cs generalizing piece with
  | nil =>
      rw [List.mem_singleton.mp h]
      exact List.not_mem_nil
  | cons c cs ih =>
      unfold splitSeparator at h
      split at h
      · obtain rfl | h := List.mem_cons.mp h
        · exact List.not_mem_nil
        · exact ih h
      next hc =>
        split at h
        · rw [List.mem_singleton.mp h]
          simpa using Ne.symm hc
        next first pieces hsplit =>
          obtain rfl | h := List.mem_cons.mp h
          · have hfirst := ih (hsplit ▸ List.mem_cons_self)
            simpa [hfirst] using Ne.symm hc
          · exact ih (hsplit ▸ List.mem_cons_of_mem _ h)

theorem legible_ofString (s : String) : (ofString s).Legible := by
  constructor
  · intro name hname
    obtain ⟨piece, hpiece, rfl⟩ := List.mem_map.mp hname
    obtain ⟨hmem, hne⟩ := List.mem_filter.mp hpiece
    have hsep := noSeparator_of_mem_splitSeparator hmem
    simpa [hsep] using hne
  · intro htrailing
    exact (of_decide_eq_true htrailing).1

/-! ## Normal forms -/

theorem mem_of_mem_keepName {root : Bool} {kept : List String} {name n : String}
    (h : n ∈ keepName root kept name) : n ∈ kept ∨ n = name := by
  unfold keepName at h
  split at h
  · exact .inl h
  split at h
  next hdots =>
    cases kept with
    | nil =>
        cases root
        · exact .inr ((List.mem_singleton.mp h).trans hdots.symm)
        · cases h
    | cons top rest =>
        dsimp only at h
        split at h
        · exact (List.mem_cons.mp h).elim (fun hn => .inr (hn.trans hdots.symm)) .inl
        · exact .inl (List.mem_cons_of_mem _ h)
  next => exact (List.mem_cons.mp h).symm

theorem mem_of_mem_resolveDots {root : Bool} {kept names : List String} {n : String}
    (h : n ∈ resolveDots root kept names) : n ∈ kept ∨ n ∈ names := by
  induction names generalizing kept with
  | nil => exact .inl (List.mem_reverse.mp h)
  | cons name names ih =>
      rw [resolveDots_cons] at h
      obtain h | h := ih h
      · obtain h | rfl := mem_of_mem_keepName h
        · exact .inl h
        · exact .inr List.mem_cons_self
      · exact .inr (List.mem_cons_of_mem _ h)

theorem legible_lexicallyNormal {p : Path} (h : p.Legible) : p.lexicallyNormal.Legible := by
  unfold lexicallyNormal
  split
  · exact h
  dsimp only
  split
  · cases p.root <;> exact ⟨by simp, by simp⟩
  next hne =>
    refine ⟨fun name hname => ?_, fun _ => hne⟩
    exact h.names name ((mem_of_mem_resolveDots hname).resolve_left List.not_mem_nil)

/-- No dot names, and dot-dot names only in front, in the order of the path. -/
def DotDotsFirst (names : List String) : Prop :=
  "." ∉ names ∧ names.Pairwise fun a b => b = ".." → a = ".."

theorem dotDotsFirst_keepName {kept : List String} {name : String}
    (h : DotDotsFirst kept.reverse) : DotDotsFirst (keepName false kept name).reverse := by
  obtain ⟨hdot, hfirst⟩ := h
  rw [List.mem_reverse] at hdot
  rw [List.pairwise_reverse] at hfirst
  unfold DotDotsFirst
  rw [List.mem_reverse, List.pairwise_reverse]
  unfold keepName
  split
  · exact ⟨hdot, hfirst⟩
  split
  next hdots =>
    cases kept with
    | nil => simp
    | cons top rest =>
        obtain ⟨htop, hrest⟩ := List.pairwise_cons.mp hfirst
        dsimp only
        split
        next htop' =>
          refine ⟨by simpa using hdot, List.pairwise_cons.mpr ⟨fun n hn _ => ?_, hfirst⟩⟩
          obtain rfl | hn := List.mem_cons.mp hn
          · exact htop'
          · exact htop n hn htop'
        · exact ⟨fun hmem => hdot (List.mem_cons_of_mem _ hmem), hrest⟩
  next hname hdots =>
    refine ⟨fun hmem => ?_, List.pairwise_cons.mpr ⟨fun _ _ h => absurd h hdots, hfirst⟩⟩
    exact (List.mem_cons.mp hmem).elim (fun he => hname he.symm) hdot

theorem dotDotsFirst_resolveDots {kept names : List String} (h : DotDotsFirst kept.reverse) :
    DotDotsFirst (resolveDots false kept names) := by
  induction names generalizing kept with
  | nil => exact h
  | cons name names ih =>
      rw [resolveDots_cons]
      exact ih (dotDotsFirst_keepName h)

/-- Names with their dot-dot names in front are already resolved. -/
theorem resolveDots_of_dotDotsFirst {kept names : List String} (h : DotDotsFirst names)
    (hkept : ∀ k ∈ kept, k = "..") : resolveDots false kept names = kept.reverse ++ names := by
  induction names generalizing kept with
  | nil => simp [resolveDots]
  | cons name names ih =>
      obtain ⟨hdot, hfirst⟩ := h
      obtain ⟨hname, hrest⟩ := List.pairwise_cons.mp hfirst
      have hdot' : "." ∉ names := fun hmem => hdot (List.mem_cons_of_mem _ hmem)
      by_cases hdots : name = ".."
      · have hkeep : keepName false kept name = name :: kept := by
          cases kept with
          | nil => simp [keepName, hdots]
          | cons top rest => simp [keepName, hdots, hkept top List.mem_cons_self]
        rw [resolveDots_cons, hkeep, ih ⟨hdot', hrest⟩ (by simpa [hdots] using hkept)]
        simp
      · refine resolveDots_of_noDots fun n hn => ?_
        obtain rfl | hn' := List.mem_cons.mp hn
        · exact ⟨fun h => hdot (h ▸ hn), hdots⟩
        · exact ⟨fun h => hdot' (h ▸ hn'), fun h => hdots (hname n hn' h)⟩

theorem noDot_resolveDots (root : Bool) (names : List String) :
    "." ∉ resolveDots root [] names := by
  cases root with
  | true => exact fun hmem => (noDots_resolveDots [] (by simp) "." hmem).1 rfl
  | false => exact (dotDotsFirst_resolveDots (by simp [DotDotsFirst])).1

theorem resolveDots_idem (root : Bool) (names : List String) :
    resolveDots root [] (resolveDots root [] names) = resolveDots root [] names := by
  cases root with
  | true => exact resolveDots_of_noDots (noDots_resolveDots [] (by simp))
  | false =>
      have hfirst : DotDotsFirst (resolveDots false [] names) :=
        dotDotsFirst_resolveDots ⟨by simp, .nil⟩
      exact resolveDots_of_dotDotsFirst hfirst (by simp)

/-- A normal form is its own normal form. -/
theorem lexicallyNormal_idem (p : Path) : p.lexicallyNormal.lexicallyNormal = p.lexicallyNormal := by
  by_cases hempty : p.root = false ∧ p.names = []
  · have hp : p.lexicallyNormal = p := if_pos hempty
    rw [hp, hp]
  have hnormal : p.lexicallyNormal = _ := if_neg hempty
  dsimp only at hnormal
  by_cases hnames : resolveDots p.root [] p.names = []
  · rw [if_pos hnames] at hnormal
    rw [hnormal]
    cases p.root <;> rfl
  · rw [if_neg hnames] at hnormal
    rw [hnormal]
    have hdot : (resolveDots p.root [] p.names).getLast? ≠ some "." := fun hlast =>
      noDot_resolveDots p.root p.names (List.mem_of_getLast? hlast)
    unfold lexicallyNormal
    rw [if_neg fun h => hnames h.2]
    dsimp only
    rw [resolveDots_idem, if_neg hnames, mk.injEq]
    refine ⟨rfl, rfl, ?_⟩
    by_cases hlast : (resolveDots p.root [] p.names).getLast? = some ".." <;> simp [hlast, hdot]

/-! ## Paths on one line -/

/-- No name of the path holds a line break. -/
def OneLine (p : Path) : Prop := ∀ name ∈ p.names, '\n' ∉ name.toList

instance : DecidablePred OneLine := fun _ => inferInstanceAs (Decidable (∀ _ ∈ _, _))

theorem OneLine.div {p q : Path} (hp : OneLine p) (hq : OneLine q) :
    OneLine (p / q) := by
  intro name hname
  cases hroot : q.root with
  | true =>
    rw [div_of_root hroot] at hname
    exact hq name hname
  | false =>
    rw [div_of_relative hroot] at hname
    exact (List.mem_append.mp hname).elim (hp name) (hq name)

theorem OneLine.parentPath {p : Path} (h : OneLine p) : OneLine p.parentPath := by
  intro name hname
  unfold Path.parentPath at hname
  split at hname
  · exact h name hname
  · exact h name (List.dropLast_subset _ hname)

theorem mem_of_mem_splitSeparator {cs piece : List Char} {c : Char}
    (h : piece ∈ splitSeparator cs) (hc : c ∈ piece) : c ∈ cs := by
  induction cs generalizing piece with
  | nil =>
    rw [List.mem_singleton.mp h] at hc
    exact hc
  | cons d cs ih =>
    unfold splitSeparator at h
    split at h
    · rcases List.mem_cons.mp h with rfl | h
      · cases hc
      · exact List.mem_cons_of_mem d (ih h hc)
    · split at h
      · rw [List.mem_singleton.mp h] at hc
        exact List.mem_singleton.mp hc ▸ List.mem_cons_self
      next first pieces hsplit =>
        rcases List.mem_cons.mp h with rfl | h
        · rcases List.mem_cons.mp hc with rfl | hc
          · exact List.mem_cons_self
          · exact List.mem_cons_of_mem d (ih (hsplit ▸ List.mem_cons_self) hc)
        · exact List.mem_cons_of_mem d (ih (hsplit ▸ List.mem_cons_of_mem first h) hc)

theorem oneLine_ofString {s : String} (h : '\n' ∉ s.toList) :
    OneLine (ofString s) := by
  intro name hname
  obtain ⟨piece, hpiece, rfl⟩ := List.mem_map.mp hname
  rw [String.toList_ofList]
  exact fun hmem => h (mem_of_mem_splitSeparator (List.mem_filter.mp hpiece).1 hmem)

theorem noBreak_joinedNames {names : List String} (h : ∀ name ∈ names, '\n' ∉ name.toList) :
    '\n' ∉ joinedNames names := by
  induction names with
  | nil => exact List.not_mem_nil
  | cons name names ih =>
    have hname := h name List.mem_cons_self
    have hrest := ih fun n hn => h n (List.mem_cons_of_mem _ hn)
    cases names with
    | nil => simpa [joinedNames] using hname
    | cons name' names =>
      rw [joinedNames_cons_cons]
      simp [hname, hrest]

theorem OneLine.noBreak {p : Path} (h : OneLine p) : '\n' ∉ p.toGenericString.toList := by
  have hnames := noBreak_joinedNames h
  rw [toList_toGenericString]
  cases p.root <;> cases p.trailing <;> simp [hnames]

end Bpt.Path
