-- SUMMARY: URI references, how they are read, and how they are resolved against a base.
import Mathlib.Data.List.TakeWhile
import Bpt.Base.SplitFold

/-!
# URI references

The generic syntax: a reference is split into its parts, and what it refers to is
found from the URI it is relative to. Schemes and hosts are in lower case.
-/

namespace Uri

/-- The user information is left out. -/
structure Authority where
  host : List Char
  port : Option Nat := none
  deriving DecidableEq

structure Reference where
  scheme : Option (List Char) := none
  authority : Option Authority := none
  path : List Char
  query : Option (List Char) := none
  fragment : Option (List Char) := none
  deriving DecidableEq

/-- A URI without its fragment. -/
structure Target where
  scheme : List Char
  authority : Option Authority
  path : List Char
  query : Option (List Char)
  deriving DecidableEq

/-! ## Reading a reference -/

def endsScheme (c : Char) : Bool := c ∈ [':', '/', '?', '#']

def endsAuthority (c : Char) : Bool := c ∈ ['/', '?', '#']

def endsPath (c : Char) : Bool := c ∈ ['?', '#']

def splitScheme (s : List Char) : Option (List Char) × List Char :=
  match s.takeWhile (!endsScheme ·), s.dropWhile (!endsScheme ·) with
  | c :: cs, ':' :: rest => (some ((c :: cs).map Char.toLower), rest)
  | _, _ => (none, s)

def splitAuthority : List Char → Option (List Char) × List Char
  | '/' :: '/' :: rest =>
    (some (rest.takeWhile (!endsAuthority ·)), rest.dropWhile (!endsAuthority ·))
  | rest => (none, rest)

def splitQuery : List Char → Option (List Char) × List Char
  | '?' :: rest => (some (rest.takeWhile (· ≠ '#')), rest.dropWhile (· ≠ '#'))
  | rest => (none, rest)

def splitFragment : List Char → Option (List Char)
  | '#' :: rest => some rest
  | _ => none

/-- The host is a name, or an address in brackets. -/
def splitHost : List Char → List Char × List Char
  | '[' :: rest =>
    ('[' :: rest.takeWhile (· ≠ ']') ++ [']'], (rest.dropWhile (· ≠ ']')).drop 1)
  | rest => (rest.takeWhile (· ≠ ':'), rest.dropWhile (· ≠ ':'))

def portValue (digits : List Char) : Nat :=
  digits.foldl (fun n c => 10 * n + (c.toNat - '0'.toNat)) 0

/-- An authority, when its port is a number. -/
def Authority.ofList (s : List Char) : Option Authority :=
  match splitHost (s.reverse.takeWhile (· ≠ '@')).reverse with
  | (host, []) => some { host := host.map Char.toLower }
  | (host, [':']) => some { host := host.map Char.toLower }
  | (host, ':' :: digits) =>
    if digits.all Char.isDigit then
      some { host := host.map Char.toLower, port := some (portValue digits) }
    else none
  | _ => none

def Reference.ofList (s : List Char) : Option Reference :=
  let scheme := splitScheme s
  let authority := splitAuthority scheme.2
  let rest := authority.2.dropWhile (!endsPath ·)
  let read (authority' : Option Authority) : Reference :=
    { scheme := scheme.1
      authority := authority'
      path := authority.2.takeWhile (!endsPath ·)
      query := (splitQuery rest).1
      fragment := splitFragment (splitQuery rest).2 }
  match authority.1 with
  | none => some (read none)
  | some text => (Authority.ofList text).map fun authority' => read (some authority')

example : Reference.ofList "HTTP://me@Example.com:8080/a/b?c#d".toList =
    some {
      scheme := "http".toList
      authority := some { host := "example.com".toList, port := some 8080 }
      path := "/a/b".toList, query := "c".toList, fragment := "d".toList } := by
  decide +kernel

/-! ## The text of a reference -/

/-- A part with the character before it. -/
def partText (sep : Char) : Option (List Char) → List Char
  | none => []
  | some text => sep :: text

theorem partText_splitFragment {s : List Char} (h : ∀ c ∈ s.head?, c = '#') :
    partText '#' (splitFragment s) = s := by
  cases s with
  | nil => rfl
  | cons c cs =>
    obtain rfl : c = '#' := h c rfl
    rfl

theorem head_dropWhile {p : Char → Bool} {s : List Char} {c : Char}
    (h : c ∈ (s.dropWhile p).head?) : p c = false := by
  have hhead := List.head?_dropWhile_not p s
  rw [Option.mem_def.mp h] at hhead
  simpa using hhead

theorem partText_splitQuery {s : List Char} (h : ∀ c ∈ s.head?, c = '?' ∨ c = '#') :
    partText '?' (splitQuery s).1 ++ partText '#' (splitFragment (splitQuery s).2) = s := by
  unfold splitQuery
  split
  next rest =>
    rw [partText_splitFragment, partText, List.cons_append, List.takeWhile_append_dropWhile]
    intro c hc
    simpa using head_dropWhile hc
  next hquery =>
    rw [partText_splitFragment, partText, List.nil_append]
    intro c hc
    refine (h c hc).resolve_left ?_
    rintro rfl
    obtain ⟨rest, rfl⟩ := List.head?_eq_some_iff.mp hc
    exact hquery rest rfl

theorem not_mem_takeWhile {p : Char → Bool} {s : List Char} {c : Char} (hc : p c = false) :
    c ∉ s.takeWhile p := fun h => by
  cases hc.symm.trans (List.mem_takeWhile_imp h)

theorem splitScheme_none {s : List Char} (h : (splitScheme s).1 = none) : (splitScheme s).2 = s := by
  unfold splitScheme at h ⊢
  split at h
  next => cases h
  next hnone => exact rfl

theorem endsPath_iff {c : Char} : endsPath c = true ↔ c = '?' ∨ c = '#' := by
  simp [endsPath]

/-- The parts of a reference without a scheme make up its text. -/
theorem Reference.text_eq {s : List Char} {ref : Reference} (h : Reference.ofList s = some ref)
    (hscheme : ref.scheme = none) :
    ∃ authority : List Char,
      s = authority ++ (ref.path ++ (partText '?' ref.query ++ partText '#' ref.fragment)) ∧
      (ref.authority = none ∧ authority = [] ∨
        ref.authority ≠ none ∧ ['/', '/'] <+: authority) := by
  have hread (rest : List Char) :
      rest.takeWhile (!endsPath ·) ++
        (partText '?' (splitQuery (rest.dropWhile (!endsPath ·))).1 ++
          partText '#' (splitFragment (splitQuery (rest.dropWhile (!endsPath ·))).2)) = rest := by
    rw [partText_splitQuery, List.takeWhile_append_dropWhile]
    intro c hc
    rw [← endsPath_iff]
    simpa using head_dropWhile hc
  unfold Reference.ofList at h
  dsimp only at h
  split at h
  next hnone =>
    obtain rfl := Option.some.inj h
    rw [splitScheme_none hscheme] at hnone ⊢
    refine ⟨[], ?_, .inl ⟨rfl, rfl⟩⟩
    dsimp only
    unfold splitAuthority at hnone ⊢
    split at hnone
    next => cases hnone
    next => rw [hread, List.nil_append]
  next text hsome =>
    obtain ⟨authority, -, rfl⟩ := Option.map_eq_some_iff.mp h
    rw [splitScheme_none hscheme] at hsome ⊢
    refine ⟨'/' :: '/' :: text, ?_, .inr ⟨by simp, by simp⟩⟩
    dsimp only
    rw [hread]
    unfold splitAuthority at hsome ⊢
    split at hsome
    next rest =>
      obtain rfl := Option.some.inj hsome
      simp
    next => cases hsome

theorem Reference.scheme_of_slash {s : List Char} {ref : Reference}
    (h : Reference.ofList ('/' :: s) = some ref) : ref.scheme = none := by
  have hscheme : (splitScheme ('/' :: s)).1 = none := by simp [splitScheme, endsScheme]
  unfold Reference.ofList at h
  dsimp only at h
  split at h
  next => exact Option.some.inj h ▸ hscheme
  next =>
    obtain ⟨_, -, rfl⟩ := Option.map_eq_some_iff.mp h
    exact hscheme

theorem Reference.not_mem_path {s : List Char} {ref : Reference}
    (h : Reference.ofList s = some ref) : '?' ∉ ref.path := by
  unfold Reference.ofList at h
  dsimp only at h
  split at h
  next =>
    obtain rfl := Option.some.inj h
    exact not_mem_takeWhile rfl
  next =>
    obtain ⟨_, -, rfl⟩ := Option.map_eq_some_iff.mp h
    exact not_mem_takeWhile rfl

/-! ## Dot segments -/

def dot : List Char := ['.']

def dotDot : List Char := ['.', '.']

/-- The segments without dot segments, after those that are kept in reverse. A dot
segment at the end leaves the slash before it. -/
def dotless : List (List Char) → List (List Char) → List (List Char)
  | kept, [] => kept.reverse
  | kept, seg :: rest =>
    if seg = dot then
      if rest = [] then (([] : List Char) :: kept).reverse else dotless kept rest
    else if seg = dotDot then
      if rest = [] then (([] : List Char) :: kept.tail).reverse else dotless kept.tail rest
    else dotless (seg :: kept) rest

/-- A path that follows an authority is empty or begins with a slash. -/
def removeDotSegments : List Char → List Char
  | '/' :: path => '/' :: ['/'].intercalate (dotless [] (path.splitOn '/'))
  | path => path

example : removeDotSegments "/a/b/c/./../../g".toList = "/a/g".toList := by decide +kernel

/-- The path has no dot segments. -/
def Plain (path : List Char) : Prop := ∀ seg ∈ path.splitOn '/', seg ≠ dot ∧ seg ≠ dotDot

instance (path : List Char) : Decidable (Plain path) :=
  inferInstanceAs (Decidable (∀ seg ∈ path.splitOn '/', seg ≠ dot ∧ seg ≠ dotDot))

theorem plain_cons_slash {path : List Char} :
    Plain ('/' :: path) ↔ ∀ seg ∈ path.splitOn '/', seg ≠ dot ∧ seg ≠ dotDot := by
  have hsplit : ('/' :: path).splitOn '/' = [] :: path.splitOn '/' :=
    List.splitOn_append_cons_self_of_not_mem List.not_mem_nil path
  unfold Plain
  rw [hsplit, List.forall_mem_cons]
  exact and_iff_right ⟨(List.cons_ne_nil _ _).symm, (List.cons_ne_nil _ _).symm⟩

theorem dotless_of_plain {segs : List (List Char)} (h : ∀ seg ∈ segs, seg ≠ dot ∧ seg ≠ dotDot)
    (kept : List (List Char)) : dotless kept segs = kept.reverse ++ segs := by
  induction segs generalizing kept with
  | nil => exact (List.append_nil _).symm
  | cons seg rest ih =>
    obtain ⟨hdot, hdotDot⟩ := h seg List.mem_cons_self
    rw [dotless, if_neg hdot, if_neg hdotDot,
      ih fun seg' hseg => h seg' (List.mem_cons_of_mem seg hseg), List.reverse_cons,
      List.append_assoc]
    rfl

/-- A segment that is left was kept, is no dot segment, or stands for one at the end. -/
theorem mem_dotless {kept segs : List (List Char)} {seg : List Char}
    (h : seg ∈ dotless kept segs) :
    seg ∈ kept ∨ seg = [] ∨ (seg ∈ segs ∧ seg ≠ dot ∧ seg ≠ dotDot) := by
  fun_induction dotless kept segs with
  | case1 kept => exact .inl (List.mem_reverse.mp h)
  | case2 kept =>
    rcases List.mem_cons.mp (List.mem_reverse.mp h) with rfl | hseg
    · exact .inr (.inl rfl)
    · exact .inl hseg
  | case3 kept rest _ ih =>
    exact (ih h).imp_right (.imp_right fun hseg => ⟨List.mem_cons_of_mem _ hseg.1, hseg.2⟩)
  | case4 kept =>
    rcases List.mem_cons.mp (List.mem_reverse.mp h) with rfl | hseg
    · exact .inr (.inl rfl)
    · exact .inl (List.mem_of_mem_tail hseg)
  | case5 kept rest _ _ ih =>
    rcases ih h with hkept | hrest
    · exact .inl (List.mem_of_mem_tail hkept)
    · exact .inr (hrest.imp_right fun hseg => ⟨List.mem_cons_of_mem _ hseg.1, hseg.2⟩)
  | case6 kept first rest hdot hdotDot ih =>
    rcases ih h with hkept | hrest
    · rcases List.mem_cons.mp hkept with rfl | hkept
      · exact .inr (.inr ⟨List.mem_cons_self, hdot, hdotDot⟩)
      · exact .inl hkept
    · exact .inr (hrest.imp_right fun hseg => ⟨List.mem_cons_of_mem _ hseg.1, hseg.2⟩)

theorem dotless_ne_nil {kept segs : List (List Char)} (h : kept ≠ [] ∨ segs ≠ []) :
    dotless kept segs ≠ [] := by
  fun_induction dotless kept segs with
  | case1 => exact List.reverse_ne_nil_iff.mpr (h.resolve_right (not_not_intro rfl))
  | case2 => simp
  | case3 _ _ hrest ih => exact ih (.inr hrest)
  | case4 => simp
  | case5 _ _ hrest _ ih => exact ih (.inr hrest)
  | case6 _ _ _ _ _ ih => exact ih (.inl (List.cons_ne_nil _ _))

/-- The length of the segments, each with a slash before it. -/
def segmentsLength : List (List Char) → Nat
  | [] => 0
  | seg :: segs => seg.length + 1 + segmentsLength segs

@[simp] theorem segmentsLength_nil : segmentsLength [] = 0 := rfl

@[simp] theorem segmentsLength_cons (seg : List Char) (segs : List (List Char)) :
    segmentsLength (seg :: segs) = seg.length + 1 + segmentsLength segs := rfl

theorem segmentsLength_append (segs segs' : List (List Char)) :
    segmentsLength (segs ++ segs') = segmentsLength segs + segmentsLength segs' := by
  induction segs with
  | nil => simp
  | cons seg segs ih =>
    rw [List.cons_append, segmentsLength_cons, segmentsLength_cons, ih]
    omega

theorem segmentsLength_reverse (segs : List (List Char)) :
    segmentsLength segs.reverse = segmentsLength segs := by
  induction segs with
  | nil => rfl
  | cons seg segs ih =>
    rw [List.reverse_cons, segmentsLength_append, ih]
    simp only [segmentsLength_cons, segmentsLength_nil]
    omega

theorem segmentsLength_tail_le (segs : List (List Char)) :
    segmentsLength segs.tail ≤ segmentsLength segs := by
  cases segs with
  | nil => exact Nat.le_refl _
  | cons seg segs => exact Nat.le_add_left _ _

theorem segmentsLength_dotless_le (kept segs : List (List Char)) :
    segmentsLength (dotless kept segs) ≤ segmentsLength kept + segmentsLength segs := by
  fun_induction dotless kept segs with
  | case1 kept => exact Nat.le_of_eq (segmentsLength_reverse kept)
  | case2 kept =>
    rw [segmentsLength_reverse]
    simp [dot]
    omega
  | case3 kept rest _ ih =>
    simp only [segmentsLength_cons]
    omega
  | case4 kept =>
    rw [segmentsLength_reverse]
    have htail := segmentsLength_tail_le kept
    simp [dotDot]
    omega
  | case5 kept rest _ _ ih =>
    have htail := segmentsLength_tail_le kept
    simp only [segmentsLength_cons]
    omega
  | case6 kept first rest _ _ ih =>
    simp only [segmentsLength_cons] at ih ⊢
    omega

theorem length_intercalate_slash {segs : List (List Char)} (h : segs ≠ []) :
    (['/'].intercalate segs).length + 1 = segmentsLength segs := by
  induction segs with
  | nil => exact absurd rfl h
  | cons seg rest ih =>
    cases rest with
    | nil => simp [segmentsLength]
    | cons next rest =>
      have hrest := ih (List.cons_ne_nil _ _)
      rw [List.intercalate_cons_cons, segmentsLength_cons, ← hrest]
      simp only [List.length_append, List.length_singleton]
      omega

theorem removeDotSegments_eq_iff {path : List Char} :
    removeDotSegments ('/' :: path) = '/' :: path ↔ Plain ('/' :: path) := by
  rw [removeDotSegments, plain_cons_slash, List.cons_inj_right]
  constructor
  · intro h seg hseg
    have hsegs : ∀ seg ∈ dotless [] (path.splitOn '/'), '/' ∉ seg := by
      intro seg hseg hslash
      rcases mem_dotless hseg with hkept | rfl | ⟨hmem, -⟩
      · cases hkept
      · cases hslash
      · rw [List.splitOn_eq_splitOnP] at hmem
        have hsep := SplitFold.not_isSep_of_mem hmem hslash
        simp at hsep
    have hdotless := List.splitOn_intercalate '/' hsegs (dotless_ne_nil (.inr (List.splitOn_ne_nil _ _)))
    rw [h] at hdotless
    rw [hdotless] at hseg
    rcases mem_dotless hseg with hkept | rfl | ⟨-, hplain⟩
    · cases hkept
    · exact ⟨(List.cons_ne_nil _ _).symm, (List.cons_ne_nil _ _).symm⟩
    · exact hplain
  · intro h
    rw [dotless_of_plain h, List.reverse_nil, List.nil_append, List.intercalate_splitOn]

theorem length_removeDotSegments_le (path : List Char) :
    (removeDotSegments path).length ≤ path.length := by
  unfold removeDotSegments
  split
  next path =>
    have hne := List.splitOn_ne_nil '/' path
    have hle := segmentsLength_dotless_le [] (path.splitOn '/')
    rw [← length_intercalate_slash (dotless_ne_nil (.inr hne)), ← length_intercalate_slash hne,
      List.intercalate_splitOn] at hle
    simp only [List.length_cons]
    have hzero : segmentsLength [] = 0 := rfl
    omega
  next => exact Nat.le_refl _

theorem mem_intercalate_slash {segs : List (List Char)} {c : Char} (hc : c ≠ '/') :
    c ∈ ['/'].intercalate segs ↔ ∃ seg ∈ segs, c ∈ seg := by
  induction segs with
  | nil => simp
  | cons seg rest ih =>
    cases rest with
    | nil => simp
    | cons next rest =>
      rw [List.intercalate_cons_cons, List.mem_append, List.mem_append, ih]
      simp [hc]

theorem mem_of_mem_removeDotSegments {path : List Char} {c : Char}
    (h : c ∈ removeDotSegments path) (hc : c ≠ '/') : c ∈ path := by
  unfold removeDotSegments at h
  split at h
  next path =>
    obtain ⟨seg, hseg, hmem⟩ :=
      (mem_intercalate_slash hc).mp (List.mem_of_ne_of_mem hc h)
    rcases mem_dotless hseg with hkept | rfl | ⟨hsplit, -⟩
    · cases hkept
    · cases hmem
    · refine List.mem_cons_of_mem _ ?_
      rw [← @List.intercalate_splitOn _ path _ _ '/']
      exact (mem_intercalate_slash hc).mpr ⟨seg, hsplit, hmem⟩
  next => exact h

/-! ## Resolving a reference -/

/-- The path after the last slash of the base is replaced. -/
def mergePaths (base : Target) (path : List Char) : List Char :=
  if base.authority.isSome ∧ base.path = [] then '/' :: path
  else (base.path.reverse.dropWhile (· ≠ '/')).reverse ++ path

def resolve (base : Target) (ref : Reference) : Target :=
  match ref.scheme with
  | some scheme => ⟨scheme, ref.authority, removeDotSegments ref.path, ref.query⟩
  | none =>
    match ref.authority with
    | some authority => ⟨base.scheme, some authority, removeDotSegments ref.path, ref.query⟩
    | none =>
      if ref.path = [] then ⟨base.scheme, base.authority, base.path, ref.query <|> base.query⟩
      else if ref.path.head? = some '/' then
        ⟨base.scheme, base.authority, removeDotSegments ref.path, ref.query⟩
      else ⟨base.scheme, base.authority, removeDotSegments (mergePaths base ref.path), ref.query⟩

end Uri
