-- SUMMARY: Package ids read from their strings, and which strings are printed again.
import Bpt.Crs.Prefetch
import Bpt.Util.FromChars

/-!
# Package id strings

A package id is written `name@version~revision`, and the revision may be left out.
The revision is read up to the first character that is no digit.
-/

namespace Bpt.Crs

/-! ## Cut at a character -/

/-- The text before the first `sep` and the text behind it. -/
def cutAt (sep : Char) (s : List Char) : Option (List Char × List Char) :=
  match s.dropWhile (· ≠ sep) with
  | [] => none
  | _ :: rest => some (s.takeWhile (· ≠ sep), rest)

theorem cutAt_append {sep : Char} {before : List Char} (h : sep ∉ before) (after : List Char) :
    cutAt sep (before ++ sep :: after) = some (before, after) := by
  have hbefore : ∀ c ∈ before, decide (c ≠ sep) = true := by
    intro c hc
    rw [decide_eq_true_iff]
    rintro rfl
    exact h hc
  unfold cutAt
  rw [List.dropWhile_append_of_pos hbefore, List.takeWhile_append_of_pos hbefore]
  simp

theorem cutAt_eq_none {sep : Char} {s : List Char} : cutAt sep s = none ↔ sep ∉ s := by
  unfold cutAt
  split
  next hnil =>
    refine ⟨fun _ hmem => ?_, fun _ => rfl⟩
    have hne := List.dropWhile_eq_nil_iff.mp hnil sep hmem
    simp at hne
  next c rest hcons =>
    refine ⟨fun h => ?_, fun hnot => absurd ?_ hnot⟩
    · cases h
    have hhead := List.head?_dropWhile_not (· ≠ sep) s
    rw [hcons] at hhead
    obtain rfl : c = sep := by simpa using hhead
    exact (List.dropWhile_suffix (· ≠ c)).mem (hcons ▸ List.mem_cons_self)

theorem cutAt_eq_some {sep : Char} {s before after : List Char} :
    cutAt sep s = some (before, after) ↔ s = before ++ sep :: after ∧ sep ∉ before := by
  constructor
  · intro h
    obtain ⟨front, back, rfl, hfront⟩ : ∃ front back, s = front ++ sep :: back ∧ sep ∉ front := by
      apply List.eq_append_cons_of_mem
      by_contra hnot
      rw [cutAt_eq_none.mpr hnot] at h
      cases h
    rw [cutAt_append hfront] at h
    cases h
    exact ⟨rfl, hfront⟩
  · rintro ⟨rfl, h⟩
    exact cutAt_append h after

/-! ## Reading -/

inductive PkgIdError where
  /-- The error `e_human_message`. -/
  | human (message : String)
  | invalidName (e : Name.InvalidName)
  | invalidVersion (str : String)
  deriving DecidableEq

variable {V : Type} [Semver V]

/-- The version string and the revision behind it, if there is one. -/
def splitRevision (verStr : List Char) : Except PkgIdError (List Char × Int) :=
  match cutAt '~' verStr with
  | none => .ok (verStr, 0)
  | some (front, tail) =>
    match fromCharsInt tail with
    | none => .error (.human "Invalid pkg-version integer suffix in package ID string")
    | some pkgVersion => .ok (front, pkgVersion)

def PkgId.parse [LeafResult] (sv : String) : Except PkgIdError (PkgId V) := do
  match cutAt '@' sv.toList with
  | none =>
    .error (.human
      "Package ID must contain an '@' character between the package name and the version")
  | some (nameSv, rest) =>
    let name ← (LeafResult.deref (Name.fromString (String.ofList nameSv))).mapError .invalidName
    let (verStr, pkgVersion) ← splitRevision rest
    match Semver.parse (String.ofList verStr) with
    | none => .error (.invalidVersion (String.ofList verStr))
    | some version => .ok ⟨name, version, pkgVersion⟩

/-- What a string that is read consists of. -/
theorem PkgId.parse_eq_ok [LeafResult] {sv : String} {id : PkgId V} :
    PkgId.parse sv = .ok id ↔
      ∃ nameSv rest verStr, cutAt '@' sv.toList = some (nameSv, rest) ∧
        Name.fromString (String.ofList nameSv) = .ok id.name ∧
        splitRevision rest = .ok (verStr, id.revision) ∧
        Semver.parse (String.ofList verStr) = some id.version := by
  unfold PkgId.parse
  cases hcut : cutAt '@' sv.toList with
  | none =>
    constructor
    · intro h
      cases h
    · rintro ⟨_, _, _, hfound, -⟩
      cases hfound
  | some found =>
    obtain ⟨nameSv, rest⟩ := found
    simp only [Fallible.bind_eq_ok, Fallible.mapError_eq_ok, LeafResult.deref_eq]
    constructor
    · rintro ⟨name, hname, ⟨verStr, pkgVersion⟩, hrevision, h⟩
      dsimp only at h
      cases hversion : (Semver.parse (String.ofList verStr) : Option V) with
      | none =>
        rw [hversion] at h
        cases h
      | some version =>
        rw [hversion] at h
        cases h
        exact ⟨nameSv, rest, verStr, rfl, hname, hrevision, hversion⟩
    · rintro ⟨nameSv', rest', verStr, heq, hname, hrevision, hversion⟩
      cases heq
      refine ⟨id.name, hname, (verStr, id.revision), hrevision, ?_⟩
      dsimp only
      rw [hversion]

/-! ## Printing and reading -/

/-- The string of a package id, its version and its revision spelled in some way. -/
def spelled (name verStr revStr : List Char) : List Char := name ++ '@' :: verStr ++ '~' :: revStr

theorem PkgId.toString_eq_spelled (id : PkgId V) :
    id.toString.toList =
      spelled id.name.str.toList (Semver.toStr id.version).toList id.revision.repr.toList := by
  have htext : id.toString =
      id.name.str ++ "@" ++ Semver.toStr id.version ++ "~" ++ id.revision.repr := rfl
  rw [htext]
  simp [spelled, String.toList_append]

theorem cutAt_spelled {name : List Char} (hname : '@' ∉ name) (verStr revStr : List Char) :
    cutAt '@' (spelled name verStr revStr) = some (name, verStr ++ '~' :: revStr) := by
  unfold spelled
  rw [List.append_assoc]
  exact cutAt_append hname _

/-- A string has only one revision behind its first `~`. -/
theorem spelled_unique {name verStr revStr name' verStr' revStr' : List Char}
    (h : spelled name verStr revStr = spelled name' verStr' revStr') (hname : '@' ∉ name)
    (hname' : '@' ∉ name') (hver : '~' ∉ verStr) (hver' : '~' ∉ verStr') : revStr = revStr' := by
  have hcut := cutAt_spelled hname verStr revStr
  rw [h, cutAt_spelled hname', Option.some.injEq, Prod.mk.injEq] at hcut
  have hrest := cutAt_append hver revStr
  rw [← hcut.2, cutAt_append hver', Option.some.injEq, Prod.mk.injEq] at hrest
  exact hrest.2.symm

/-- A package id as it can be built. -/
structure PkgId.Valid (id : PkgId V) : Prop where
  name : Name.fromString id.name.str = .ok id.name
  nonneg : 0 ≤ id.revision
  /-- The revision is an `int`. -/
  le : id.revision ≤ 2147483647

theorem not_mem_of_fromString {str : String} {name : Name} (h : Name.fromString str = .ok name)
    {c : Char} (hc : Name.isNameChar c = false) : c ∉ name.str.toList := by
  intro hmem
  have htrue := (Name.isNameChar_of_fromString h).2 c hmem
  rw [hc] at htrue
  cases htrue

theorem PkgId.parse_toString [LeafResult]
    (htilde : ∀ v : V, '~' ∉ (Semver.toStr v).toList) {id : PkgId V} (h : id.Valid) :
    PkgId.parse id.toString = .ok id := by
  apply PkgId.parse_eq_ok.mpr
  rw [PkgId.toString_eq_spelled]
  have hname : '@' ∉ id.name.str.toList := not_mem_of_fromString h.name (by decide)
  refine ⟨id.name.str.toList,
    (Semver.toStr id.version).toList ++ '~' :: id.revision.repr.toList,
    (Semver.toStr id.version).toList, ?_, ?_, ?_, ?_⟩
  · exact cutAt_spelled hname _ _
  · rw [String.ofList_toList]
    exact h.name
  · unfold splitRevision
    rw [cutAt_append (htilde id.version)]
    dsimp only
    rw [fromCharsInt_intRepr h.nonneg h.le]
  · rw [String.ofList_toList]
    exact Semver.parse_toStr id.version

/-- The string is the printed id, without a revision that is zero, up to the spelling of its
version and zeros in front of its revision. -/
def Reprints (sv : String) (id : PkgId V) : Prop :=
  ∃ verStr revStr : List Char, '~' ∉ verStr ∧
    Semver.parse (String.ofList verStr) = some id.version ∧
    AddsZeros revStr id.revision.repr.toList ∧
    (sv.toList = spelled id.name.str.toList verStr revStr ∨
      sv.toList ++ "~0".toList = spelled id.name.str.toList verStr revStr)

/-- What follows the first `~` behind the name is an integer to its end. -/
def RevisionIsInteger (sv : String) : Prop :=
  ∀ name verStr revStr, sv.toList = spelled name verStr revStr → '@' ∉ name → '~' ∉ verStr →
    IsIntegerText revStr

theorem splitRevision_eq_ok {rest verStr : List Char} {revision : Int} :
    splitRevision rest = .ok (verStr, revision) ↔
      ('~' ∉ rest ∧ verStr = rest ∧ revision = 0) ∨
        ∃ tail, rest = verStr ++ '~' :: tail ∧ '~' ∉ verStr ∧
          fromCharsInt tail = some revision := by
  unfold splitRevision
  cases hcut : cutAt '~' rest with
  | none =>
    have hnot := cutAt_eq_none.mp hcut
    constructor
    · intro h
      cases h
      exact .inl ⟨hnot, rfl, rfl⟩
    · rintro (⟨-, rfl, rfl⟩ | ⟨tail, rfl, -, -⟩)
      · rfl
      · exact absurd (List.mem_append_right _ List.mem_cons_self) hnot
  | some found =>
    obtain ⟨front, tail⟩ := found
    obtain ⟨rfl, hfront⟩ := cutAt_eq_some.mp hcut
    constructor
    · intro h
      dsimp only at h
      split at h
      next => cases h
      next hread =>
        cases h
        exact .inr ⟨tail, rfl, hfront, hread⟩
    · rintro (⟨hnot, -, -⟩ | ⟨tail', heq, hver, hread⟩)
      · exact absurd (List.mem_append_right _ List.mem_cons_self) hnot
      · have hcut' := cutAt_append hver tail'
        rw [← heq, hcut] at hcut'
        cases hcut'
        dsimp only
        rw [hread]

theorem not_mem_of_addsZeros {text : List Char} {i : Int} (h : AddsZeros text i.repr.toList) :
    '~' ∉ text := by
  obtain ⟨sign, k, digits, hsign, hdigits, -, rfl⟩ := h
  intro hmem
  rcases List.mem_append.mp hmem with hmem | hmem
  · rcases List.mem_append.mp hmem with hmem | hmem
    · rcases hsign with rfl | rfl
      · cases hmem
      · exact absurd (List.mem_singleton.mp hmem) (by decide)
    · exact absurd (List.eq_of_mem_replicate hmem) (by decide)
  · exact absurd (hdigits _ hmem) (by decide)

theorem reprints_iff [LeafResult] {sv : String} {id : PkgId V} (h : PkgId.parse sv = .ok id) :
    Reprints sv id ↔ RevisionIsInteger sv := by
  obtain ⟨nameSv, rest, verStr, hcut, hname, hrevision, hversion⟩ := PkgId.parse_eq_ok.mp h
  obtain ⟨hsv, hat⟩ := cutAt_eq_some.mp hcut
  have hstr : id.name.str.toList = nameSv := by
    rw [Name.fromString_str hname, String.toList_ofList]
  rcases splitRevision_eq_ok.mp hrevision with ⟨htilde, rfl, hzero⟩ | ⟨tail, rfl, htilde, hread⟩
  · constructor
    · intro _ name verStr revStr heq hname' _
      rw [heq, cutAt_spelled hname', Option.some.injEq, Prod.mk.injEq] at hcut
      rw [← hcut.2] at htilde
      exact absurd (List.mem_append_right _ List.mem_cons_self) htilde
    · intro _
      refine ⟨verStr, ['0'], htilde, hversion, ?_, .inr ?_⟩
      · rw [hzero]
        exact ⟨[], 0, ['0'], .inl rfl, by simp, rfl, rfl⟩
      · rw [hsv, hstr]
        simp [spelled]
  · have hspelled : sv.toList = spelled nameSv verStr tail := by
      rw [hsv]
      simp [spelled]
    constructor
    · rintro ⟨verStr', revStr', htilde', -, hzeros, hsame⟩ name verStr₁ revStr₁ heq hname₁ htilde₁
      rw [hstr] at hsame
      have htail : revStr₁ = tail :=
        spelled_unique (heq.symm.trans hspelled) hname₁ hat htilde₁ htilde
      rcases hsame with hsame | hsame
      · have htail' := spelled_unique (hsame.symm.trans hspelled) hat hat htilde' htilde
        rw [htail, ← addsZeros_iff hread, ← htail']
        exact hzeros
      · have hback : sv.toList ++ "~0".toList = spelled nameSv verStr (tail ++ "~0".toList) := by
          rw [hspelled]
          simp [spelled]
        have htail' := spelled_unique (hsame.symm.trans hback) hat hat htilde' htilde
        have hnot := not_mem_of_addsZeros hzeros
        rw [htail'] at hnot
        exact absurd (List.mem_append_right _ (by decide)) hnot
    · intro hinteger
      have htext := hinteger nameSv verStr tail hspelled hat htilde
      refine ⟨verStr, tail, htilde, hversion, (addsZeros_iff hread).mpr htext, .inl ?_⟩
      rw [hstr]
      exact hspelled

/-- Printed ids are read again. A string that is read is printed again if its revision,
where it has one, is an integer to its end. -/
theorem PkgId.parse_toString_iff [LeafResult]
    (htilde : ∀ v : V, '~' ∉ (Semver.toStr v).toList) :
    (∀ id : PkgId V, id.Valid → PkgId.parse id.toString = .ok id) ∧
      ∀ (sv : String) (id : PkgId V), PkgId.parse sv = .ok id →
        (Reprints sv id ↔ RevisionIsInteger sv) :=
  ⟨fun _ h => PkgId.parse_toString htilde h, fun _ _ h => reprints_iff h⟩

theorem PkgId.parse_toString_iff_patchRelease :
    (∀ id : PkgId PatchRelease, id.Valid → PkgId.parse id.toString = .ok id) ∧
      ∀ (sv : String) (id : PkgId PatchRelease), PkgId.parse sv = .ok id →
        (Reprints sv id ↔ RevisionIsInteger sv) := by
  apply PkgId.parse_toString_iff
  intro v hmem
  have htext : (Semver.toStr v).toList = "0.0.".toList ++ Nat.toDigits 10 v.patch := by
    show ("0.0." ++ String.ofList (Nat.toDigits 10 v.patch)).toList = _
    simp [String.toList_append]
  rw [htext] at hmem
  cases List.mem_append.mp hmem with
  | inl hfront => exact absurd hfront (by decide)
  | inr hdigit => exact absurd (isDigit_of_mem_toDigits hdigit) (by decide)

/-- The letters behind the revision are passed over. -/
theorem PkgId.parse_not_reprints :
    PkgId.parse "foo@0.0.1~4abc" = .ok (⟨⟨"foo"⟩, ⟨1⟩, 4⟩ : PkgId PatchRelease) ∧
      ¬ Reprints "foo@0.0.1~4abc" (⟨⟨"foo"⟩, ⟨1⟩, 4⟩ : PkgId PatchRelease) := by
  have hparse : PkgId.parse "foo@0.0.1~4abc" = .ok (⟨⟨"foo"⟩, ⟨1⟩, 4⟩ : PkgId PatchRelease) := by
    decide
  refine ⟨hparse, fun h => ?_⟩
  have hinteger := (reprints_iff hparse).mp h "foo".toList "0.0.1".toList "4abc".toList
    (by decide) (by decide) (by decide)
  exact absurd (hinteger 'a' (by decide)) (by decide)

end Bpt.Crs
