-- SUMMARY: The compile-time and the run-time patterns of one pattern string, and when they match the same strings.
import Mathlib.Data.List.TakeWhile
import Bpt.Util.CtPattern
import Bpt.Util.Fnmatch

/-!
# Compile-time and run-time patterns

Both compilers read the same elements, except that the run-time compiler takes the
`!` of a negated group for a character of the group.
-/

namespace Bpt

open Fallible Wildcard

/-! ## Run-time patterns as wildcards -/

namespace Fnmatch

open CtPattern (isChar)

def PatternElem.items : PatternElem → List (Item Char)
  | .star => [.star]
  | .anyChar => [.one fun _ => true]
  | .oneof chars => [.one fun d => chars.contains d]
  | .lit chars => chars.map fun c => .one (isChar c)

/-- The items of a pattern. -/
def items (pattern : Pattern) : List (Item Char) := pattern.flatMap PatternElem.items

theorem accepts_lit (lit : List Char) (items : List (Item Char)) (s : List Char) :
    accepts ((lit.map fun c => .one (isChar c)) ++ items) s =
      (lit.isPrefixOf s && accepts items (s.drop lit.length)) := by
  induction lit generalizing s with
  | nil => rfl
  | cons c lit ih =>
    cases s with
    | nil => rfl
    | cons d s =>
      rw [List.map_cons, List.cons_append, accepts, ih, List.isPrefixOf, List.length_cons,
        List.drop_succ_cons, Bool.and_assoc, isChar]
      congr 1
      rw [Bool.eq_iff_iff, decide_eq_true_iff, beq_iff_eq, eq_comm]

theorem matchElems_eq (pattern : Pattern) (s : List Char) :
    matchElems pattern s = accepts (items pattern) s := by
  induction pattern generalizing s with
  | nil => rfl
  | cons elem pattern ih =>
    have hitems : items (elem :: pattern) = elem.items ++ items pattern := rfl
    rw [hitems]
    cases elem with
    | star =>
      rw [matchElems]
      simp only [ih]
      rfl
    | anyChar =>
      cases s with
      | nil => rfl
      | cons d rest =>
        rw [matchElems, ih]
        rfl
    | oneof chars =>
      cases s with
      | nil => rfl
      | cons d rest =>
        rw [matchElems, ih]
        rfl
    | lit lit => rw [matchElems, ih, PatternElem.items, accepts_lit]

/-! ## Elements one character at a time -/

theorem compileOneof_append (s front chars : List Char) :
    compileOneof s (front ++ chars) =
      (compileOneof s chars).map fun found => (front ++ found.1, found.2) := by
  fun_induction compileOneof s chars with
  | case1 => rfl
  | case2 => rfl
  | case3 => rfl
  | case4 c rest chars ih => rw [compileOneof, List.append_assoc, ih]
  | case5 c rest chars hclose hescape hlast ih =>
    rw [compileOneof, List.append_assoc, ih]
    all_goals assumption

theorem compileLit_append (s front lit : List Char) :
    compileLit s (front ++ lit) =
      (compileLit s lit).map fun found => (front ++ found.1, found.2) := by
  fun_induction compileLit s lit with
  | case1 => rfl
  | case2 => rfl
  | case3 c rest lit ih => rw [compileLit, List.append_assoc, ih]
  | case4 c rest lit hescape hlast hc =>
    rw [compileLit, if_pos hc]
    · rfl
    all_goals assumption
  | case5 c rest lit hescape hlast hc ih =>
    rw [compileLit, if_neg hc, List.append_assoc, ih]
    all_goals assumption

theorem compileNext_star {rest : List Char} {pattern : Pattern}
    (h : compileNext ('*' :: rest) = .ok pattern) :
    ∃ pattern', compileNext rest = .ok pattern' ∧ items pattern = .star :: items pattern' := by
  rw [compileNext, if_pos rfl] at h
  obtain ⟨pattern', hrest, rfl⟩ := map_eq_ok.mp h
  exact ⟨pattern', hrest, rfl⟩

theorem compileNext_any {rest : List Char} {pattern : Pattern}
    (h : compileNext ('?' :: rest) = .ok pattern) :
    ∃ pattern', compileNext rest = .ok pattern' ∧
      items pattern = .one (fun _ => true) :: items pattern' := by
  rw [compileNext, if_neg (by decide), if_neg (by decide), if_pos rfl] at h
  obtain ⟨pattern', hrest, rfl⟩ := map_eq_ok.mp h
  exact ⟨pattern', hrest, rfl⟩

theorem compileNext_group {rest : List Char} {pattern : Pattern}
    (h : compileNext ('[' :: rest) = .ok pattern) :
    ∃ chars rest' pattern', compileOneof rest [] = .ok (chars, rest') ∧
      compileNext rest' = .ok pattern' ∧
      items pattern = .one (fun d => chars.contains d) :: items pattern' := by
  rw [compileNext, if_neg (by decide), if_pos rfl] at h
  split at h
  next => cases h
  next chars rest' hgroup =>
    obtain ⟨pattern', hrest, rfl⟩ := map_eq_ok.mp h
    exact ⟨chars, rest', pattern', hgroup, hrest, rfl⟩

theorem compileNext_eq_oneof {rest chars rest' : List Char}
    (h : compileOneof rest [] = .ok (chars, rest')) :
    compileNext ('[' :: rest) = (compileNext rest').map (.oneof chars :: ·) := by
  rw [compileNext, if_neg (by decide), if_pos rfl]
  split
  next what herror => cases h.symm.trans herror
  next chars' after hok =>
    cases h.symm.trans hok
    rfl

theorem compileNext_eq_lit {c : Char} {s lit rest : List Char}
    (hc : ¬ (c = '*' ∨ c = '[' ∨ c = '?')) (h : compileLit (c :: s) [] = .ok (lit, rest)) :
    compileNext (c :: s) = (compileNext rest).map (.lit lit :: ·) := by
  obtain ⟨hstar, hgroup, hany⟩ := not_or.mp hc |>.imp_right not_or.mp
  rw [compileNext, if_neg hstar, if_neg hgroup, if_neg hany]
  split
  next what herror => cases h.symm.trans herror
  next lit' rest' hok =>
    cases h.symm.trans hok
    rfl

/-- A literal and what follows it, also where the literal is empty. -/
theorem compileNext_of_lit {s lit rest : List Char} {pattern : Pattern}
    (h : compileLit s [] = .ok (lit, rest)) (hrest : compileNext rest = .ok pattern) :
    ∃ pattern', compileNext s = .ok pattern' ∧
      items pattern' = (lit.map fun c => .one (isChar c)) ++ items pattern := by
  cases s with
  | nil =>
    cases h
    exact ⟨pattern, hrest, rfl⟩
  | cons c s =>
    by_cases hc : c = '*' ∨ c = '[' ∨ c = '?'
    · have hnone : compileLit (c :: s) [] = .ok ([], c :: s) := by
        rcases hc with rfl | rfl | rfl <;> rfl
      rw [hnone] at h
      cases h
      exact ⟨pattern, hrest, rfl⟩
    · refine ⟨.lit lit :: pattern, ?_, rfl⟩
      rw [compileNext_eq_lit hc h, hrest]
      rfl

/-- The first character of a literal is an element of its own, as far as matching goes. -/
theorem compileNext_lit {c d : Char} {s rest : List Char} {pattern : Pattern}
    (hd : ¬ (d = '*' ∨ d = '[' ∨ d = '?'))
    (hlit : compileLit (d :: s) [] = compileLit rest [c])
    (h : compileNext (d :: s) = .ok pattern) :
    ∃ pattern', compileNext rest = .ok pattern' ∧
      items pattern = .one (isChar c) :: items pattern' := by
  rw [← List.append_nil [c], compileLit_append] at hlit
  cases hfound : compileLit rest [] with
  | error what =>
    obtain ⟨hstar, hgroup, hany⟩ := not_or.mp hd |>.imp_right not_or.mp
    rw [hfound] at hlit
    rw [compileNext, if_neg hstar, if_neg hgroup, if_neg hany] at h
    split at h
    next => cases h
    next lit rest' hok => cases hlit.symm.trans hok
  | ok found =>
    rw [hfound] at hlit
    rw [compileNext_eq_lit hd hlit] at h
    obtain ⟨after, hafter, rfl⟩ := map_eq_ok.mp h
    obtain ⟨pattern', hpattern, hitems⟩ := compileNext_of_lit hfound hafter
    refine ⟨pattern', hpattern, ?_⟩
    rw [hitems]
    rfl

theorem compileNext_escape {c : Char} {rest : List Char} {pattern : Pattern}
    (h : compileNext ('\\' :: c :: rest) = .ok pattern) :
    ∃ pattern', compileNext rest = .ok pattern' ∧
      items pattern = .one (isChar c) :: items pattern' :=
  compileNext_lit (by decide) rfl h

theorem compileNext_char {c : Char} {rest : List Char} {pattern : Pattern}
    (hc : ¬ (c = '*' ∨ c = '[' ∨ c = '?')) (hescape : c ≠ '\\')
    (h : compileNext (c :: rest) = .ok pattern) :
    ∃ pattern', compileNext rest = .ok pattern' ∧
      items pattern = .one (isChar c) :: items pattern' := by
  refine compileNext_lit hc ?_ h
  rw [compileLit, if_neg hc]
  · rfl
  · exact fun heq _ => hescape heq
  · exact fun _ _ heq _ => hescape heq

end Fnmatch

/-! ## The compilers -/

namespace CtPattern

/-- What the run-time compiler makes of an element. -/
def Elem.runtimeItem : Elem → Item Char
  | .notOneof chars => .one fun d => ('!' :: chars).contains d
  | elem => elem.item

/-- The compilers read the same groups. -/
theorem compileOneofChars_eq_ok {s chars : List Char} {found : List Char × List Char}
    (h : compileOneofChars s chars = .ok found) : Fnmatch.compileOneof s chars = .ok found := by
  fun_induction compileOneofChars s chars with
  | case1 => cases h
  | case2 => exact h
  | case3 => cases h
  | case4 c rest chars ih => exact ih h
  | case5 c rest chars hclose hescape hlast ih =>
    rw [Fnmatch.compileOneof, ih h]
    all_goals assumption

/-- The run-time group of a compile-time group. -/
theorem runtime_group {s rest rest' chars : List Char} {elem : Elem}
    (h : compileOneof s = .ok (elem, rest)) (h' : Fnmatch.compileOneof s [] = .ok (chars, rest')) :
    rest' = rest ∧ elem.runtimeItem = .one fun d => chars.contains d := by
  rcases compileOneof_eq_ok h with ⟨s', found, rfl, rfl, hfound⟩ | ⟨found, -, rfl, hfound⟩
  · have happend := Fnmatch.compileOneof_append s' ['!'] []
    rw [compileOneofChars_eq_ok hfound] at happend
    have heq : Fnmatch.compileOneof ('!' :: s') [] = Fnmatch.compileOneof s' (['!'] ++ []) := by
      rw [Fnmatch.compileOneof]
      · rfl
      all_goals simp
    rw [heq, happend] at h'
    cases h'
    exact ⟨rfl, rfl⟩
  · rw [compileOneofChars_eq_ok hfound] at h'
    cases h'
    exact ⟨rfl, rfl⟩

theorem compileNext_eq_group {rest rest' : List Char} {elem : Elem}
    (h : compileOneof rest = .ok (elem, rest')) :
    compileNext ('[' :: rest) = (compileNext rest').map (elem :: ·) := by
  rw [compileNext]
  split
  next what herror => cases h.symm.trans herror
  next elem' after hok =>
    cases h.symm.trans hok
    rfl

/-- The compilers make the same of a pattern string, negated groups apart. -/
theorem compile_items {s : List Char} {elems : List Elem} {pattern : Fnmatch.Pattern}
    (h : compileNext s = .ok elems) (h' : Fnmatch.compileNext s = .ok pattern) :
    Fnmatch.items pattern = elems.map Elem.runtimeItem := by
  fun_induction compileNext s generalizing elems pattern with
  | case1 =>
    rw [Fnmatch.compileNext] at h'
    cases h
    cases h'
    rfl
  | case2 rest ih =>
    obtain ⟨elems', hrest, rfl⟩ := map_eq_ok.mp h
    obtain ⟨pattern', hrest', hitems⟩ := Fnmatch.compileNext_star h'
    rw [hitems, ih hrest hrest']
    rfl
  | case3 rest ih =>
    obtain ⟨elems', hrest, rfl⟩ := map_eq_ok.mp h
    obtain ⟨pattern', hrest', hitems⟩ := Fnmatch.compileNext_any h'
    rw [hitems, ih hrest hrest']
    rfl
  | case4 => cases h
  | case5 rest elem after hgroup ih =>
    obtain ⟨elems', hrest, rfl⟩ := map_eq_ok.mp h
    obtain ⟨chars, after', pattern', hgroup', hrest', hitems⟩ := Fnmatch.compileNext_group h'
    obtain ⟨rfl, hitem⟩ := runtime_group hgroup hgroup'
    rw [hitems, ih hrest hrest', List.map_cons, hitem]
  | case6 => cases h
  | case7 c rest ih =>
    obtain ⟨elems', hrest, rfl⟩ := map_eq_ok.mp h
    obtain ⟨pattern', hrest', hitems⟩ := Fnmatch.compileNext_escape h'
    rw [hitems, ih hrest hrest']
    rfl
  | case8 c rest hstar hany hgroup hlast hescape ih =>
    obtain ⟨elems', hrest, rfl⟩ := map_eq_ok.mp h
    have hc : ¬ (c = '*' ∨ c = '[' ∨ c = '?') :=
      not_or.mpr ⟨hstar, not_or.mpr ⟨hgroup, hany⟩⟩
    have hplain : c ≠ '\\' := by
      intro heq
      cases rest with
      | nil => exact hlast heq rfl
      | cons d rest => exact hescape d rest heq rfl
    obtain ⟨pattern', hrest', hitems⟩ := Fnmatch.compileNext_char hc hplain h'
    rw [hitems, ih hrest hrest']
    rfl

/-! ## Groups of a pattern string -/

/-- What follows the end of a group. -/
def afterGroup : List Char → List Char
  | [] => []
  | ']' :: rest => rest
  | ['\\'] => []
  | '\\' :: _ :: rest => afterGroup rest
  | _ :: rest => afterGroup rest

theorem length_afterGroup_le (s : List Char) : (afterGroup s).length ≤ s.length := by
  fun_induction afterGroup s with
  | case1 => exact Nat.le_refl _
  | case2 => exact Nat.le_succ _
  | case3 => exact Nat.zero_le _
  | case4 c rest ih =>
    simp only [List.length_cons]
    omega
  | case5 c rest _ _ _ ih => exact Nat.le_succ_of_le ih

/-- The rest of the pattern string behind each `[` that begins a group. -/
def groupTexts (s : List Char) : List (List Char) :=
  match s with
  | [] => []
  | '[' :: rest => rest :: groupTexts (afterGroup rest)
  | ['\\'] => []
  | '\\' :: _ :: rest => groupTexts rest
  | _ :: rest => groupTexts rest
termination_by s.length
decreasing_by
  · exact Nat.lt_succ_of_le (length_afterGroup_le rest)
  · simp only [List.length_cons]
    omega
  · simp

def HasNegatedGroup (s : List Char) : Prop := ∃ text ∈ groupTexts s, text.head? = some '!'

/-- A group without characters, which nothing matches. -/
def HasEmptyGroup (s : List Char) : Prop := ∃ text ∈ groupTexts s, text.head? = some ']'

theorem compileOneofChars_rest {s chars found rest : List Char}
    (h : compileOneofChars s chars = .ok (found, rest)) : rest = afterGroup s := by
  fun_induction compileOneofChars s chars with
  | case1 => cases h
  | case2 =>
    cases h
    rfl
  | case3 => cases h
  | case4 c rest' chars ih => exact ih h
  | case5 c rest' chars hclose hescape hlast ih =>
    rw [afterGroup, ih h]
    all_goals assumption

theorem compileOneof_rest {s rest : List Char} {elem : Elem}
    (h : compileOneof s = .ok (elem, rest)) : rest = afterGroup s := by
  rcases compileOneof_eq_ok h with ⟨s', chars, rfl, -, hchars⟩ | ⟨chars, -, -, hchars⟩
  · rw [compileOneofChars_rest hchars, afterGroup]
    all_goals simp
  · exact compileOneofChars_rest hchars

/-- What holds of the texts of groups holds of the elements that are made of them. -/
theorem exists_group_iff {P : Elem → Prop} {Q : List Char → Prop} (hstar : ¬ P .star)
    (hany : ¬ P .anyOne) (hjust : ∀ c, ¬ P (.just c))
    (hgroup : ∀ text elem rest, compileOneof text = .ok (elem, rest) → (Q text ↔ P elem))
    {s : List Char} {elems : List Elem} (h : compileNext s = .ok elems) :
    (∃ text ∈ groupTexts s, Q text) ↔ ∃ elem ∈ elems, P elem := by
  fun_induction compileNext s generalizing elems with
  | case1 =>
    cases h
    simp [groupTexts]
  | case2 rest ih =>
    obtain ⟨elems', hrest, rfl⟩ := map_eq_ok.mp h
    rw [groupTexts, ih hrest]
    · simp [hstar]
    all_goals simp
  | case3 rest ih =>
    obtain ⟨elems', hrest, rfl⟩ := map_eq_ok.mp h
    rw [groupTexts, ih hrest]
    · simp [hany]
    all_goals simp
  | case4 => cases h
  | case5 rest elem after hcompiled ih =>
    obtain ⟨elems', hrest, rfl⟩ := map_eq_ok.mp h
    rw [groupTexts, ← compileOneof_rest hcompiled, List.exists_mem_cons_iff,
      List.exists_mem_cons_iff, ih hrest, hgroup rest elem after hcompiled]
  | case6 => cases h
  | case7 c rest ih =>
    obtain ⟨elems', hrest, rfl⟩ := map_eq_ok.mp h
    rw [groupTexts, ih hrest]
    simp [hjust]
  | case8 c rest _ _ hbracket hlast hescape ih =>
    obtain ⟨elems', hrest, rfl⟩ := map_eq_ok.mp h
    rw [groupTexts, ih hrest]
    · simp [hjust]
    all_goals assumption

/-- The characters of a group are collected, and come from the pattern string. -/
theorem compileOneofChars_chars {s chars found rest : List Char}
    (h : compileOneofChars s chars = .ok (found, rest)) :
    chars <+: found ∧ (∀ c ∈ found, c ∈ chars ∨ c ∈ s) ∧ ∀ c ∈ rest, c ∈ s := by
  fun_induction compileOneofChars s chars with
  | case1 => cases h
  | case2 rest' chars =>
    cases h
    exact ⟨List.prefix_refl _, fun c hc => .inl hc, fun c hc => List.mem_cons_of_mem _ hc⟩
  | case3 => cases h
  | case4 c rest' chars ih =>
    obtain ⟨hbegins, hfound, hrest⟩ := ih h
    refine ⟨(List.prefix_append _ _).trans hbegins, fun d hd => ?_, fun d hd => ?_⟩
    · have hmem := hfound d hd
      rw [List.mem_append, List.mem_singleton] at hmem
      rw [List.mem_cons, List.mem_cons]
      tauto
    · exact List.mem_cons_of_mem _ (List.mem_cons_of_mem _ (hrest d hd))
  | case5 c rest' chars _ _ _ ih =>
    obtain ⟨hbegins, hfound, hrest⟩ := ih h
    refine ⟨(List.prefix_append _ _).trans hbegins, fun d hd => ?_, fun d hd => ?_⟩
    · have hmem := hfound d hd
      rw [List.mem_append, List.mem_singleton] at hmem
      rw [List.mem_cons]
      tauto
    · exact List.mem_cons_of_mem _ (hrest d hd)

/-- Only a group that ends at once has no characters. -/
theorem compileOneofChars_nil_iff {s found rest : List Char}
    (h : compileOneofChars s [] = .ok (found, rest)) : s.head? = some ']' ↔ found = [] := by
  have hne {rest' : List Char} {c : Char} (h' : compileOneofChars rest' [c] = .ok (found, rest)) :
      found ≠ [] := by
    rintro rfl
    exact List.cons_ne_nil _ _ (List.prefix_nil.mp (compileOneofChars_chars h').1)
  unfold compileOneofChars at h
  split at h
  next => cases h
  next =>
    cases h
    exact ⟨fun _ => rfl, fun _ => rfl⟩
  next => cases h
  next =>
    refine ⟨fun hhead => ?_, fun hnil => absurd hnil (hne h)⟩
    cases hhead
  next c rest' hclose _ _ =>
    refine ⟨fun hhead => ?_, fun hnil => absurd hnil (hne h)⟩
    exact absurd (Option.some.inj hhead) hclose

theorem hasNegatedGroup_iff {s : List Char} {elems : List Elem} (h : compileNext s = .ok elems) :
    HasNegatedGroup s ↔ ∃ chars, .notOneof chars ∈ elems := by
  have hiff := exists_group_iff (P := fun elem => ∃ chars, elem = .notOneof chars)
    (Q := fun text => text.head? = some '!') (by simp) (by simp) (by simp) ?_ h
  · refine hiff.trans ⟨?_, ?_⟩
    · rintro ⟨elem, helem, chars, rfl⟩
      exact ⟨chars, helem⟩
    · rintro ⟨chars, hmem⟩
      exact ⟨_, hmem, chars, rfl⟩
  · intro text elem rest hcompiled
    rcases compileOneof_eq_ok hcompiled with ⟨s', chars, rfl, rfl, -⟩ | ⟨chars, hhead, rfl, -⟩
    · simp
    · simp [hhead]

theorem hasEmptyGroup_iff {s : List Char} {elems : List Elem} (h : compileNext s = .ok elems) :
    HasEmptyGroup s ↔ .oneof [] ∈ elems := by
  have hiff := exists_group_iff (P := fun elem => elem = .oneof [])
    (Q := fun text => text.head? = some ']') (by simp) (by simp) (by simp) ?_ h
  · exact hiff.trans (by simp)
  · intro text elem rest hcompiled
    rcases compileOneof_eq_ok hcompiled with ⟨s', chars, rfl, rfl, -⟩ | ⟨chars, -, rfl, hchars⟩
    · simp
    · rw [compileOneofChars_nil_iff hchars]
      simp

/-! ## Samples -/

/-- The characters that an element names. -/
def Elem.chars : Elem → List Char
  | .star => []
  | .anyOne => []
  | .oneof chars => chars
  | .notOneof chars => chars
  | .just c => [c]

theorem compileOneof_chars {s rest : List Char} {elem : Elem}
    (h : compileOneof s = .ok (elem, rest)) : (∀ c ∈ elem.chars, c ∈ s) ∧ ∀ c ∈ rest, c ∈ s := by
  rcases compileOneof_eq_ok h with ⟨s', chars, rfl, rfl, hchars⟩ | ⟨chars, -, rfl, hchars⟩
  · obtain ⟨-, hfound, hrest⟩ := compileOneofChars_chars hchars
    refine ⟨fun c hc => ?_, fun c hc => List.mem_cons_of_mem _ (hrest c hc)⟩
    exact List.mem_cons_of_mem _ ((hfound c hc).resolve_left List.not_mem_nil)
  · obtain ⟨-, hfound, hrest⟩ := compileOneofChars_chars hchars
    exact ⟨fun c hc => (hfound c hc).resolve_left List.not_mem_nil, hrest⟩

/-- Elements name only characters of the pattern string. -/
theorem mem_of_mem_chars {s : List Char} {elems : List Elem} (h : compileNext s = .ok elems) :
    ∀ elem ∈ elems, ∀ c ∈ elem.chars, c ∈ s := by
  fun_induction compileNext s generalizing elems with
  | case1 =>
    cases h
    simp
  | case2 rest ih =>
    obtain ⟨elems', hrest, rfl⟩ := map_eq_ok.mp h
    refine List.forall_mem_cons.mpr ⟨by simp [Elem.chars], fun elem helem c hc => ?_⟩
    exact List.mem_cons_of_mem _ (ih hrest elem helem c hc)
  | case3 rest ih =>
    obtain ⟨elems', hrest, rfl⟩ := map_eq_ok.mp h
    refine List.forall_mem_cons.mpr ⟨by simp [Elem.chars], fun elem helem c hc => ?_⟩
    exact List.mem_cons_of_mem _ (ih hrest elem helem c hc)
  | case4 => cases h
  | case5 rest group after hcompiled ih =>
    obtain ⟨elems', hrest, rfl⟩ := map_eq_ok.mp h
    obtain ⟨hgroup, hafter⟩ := compileOneof_chars hcompiled
    refine List.forall_mem_cons.mpr ⟨fun c hc => ?_, fun elem helem c hc => ?_⟩
    · exact List.mem_cons_of_mem _ (hgroup c hc)
    · exact List.mem_cons_of_mem _ (hafter c (ih hrest elem helem c hc))
  | case6 => cases h
  | case7 d rest ih =>
    obtain ⟨elems', hrest, rfl⟩ := map_eq_ok.mp h
    refine List.forall_mem_cons.mpr ⟨by simp [Elem.chars], fun elem helem c hc => ?_⟩
    exact List.mem_cons_of_mem _ (List.mem_cons_of_mem _ (ih hrest elem helem c hc))
  | case8 d rest _ _ _ _ _ ih =>
    obtain ⟨elems', hrest, rfl⟩ := map_eq_ok.mp h
    refine List.forall_mem_cons.mpr ⟨by simp [Elem.chars], fun elem helem c hc => ?_⟩
    exact List.mem_cons_of_mem _ (ih hrest elem helem c hc)

/-- A character for each element, where `negated` chooses that of a negated group. -/
def Elem.sample (negated : List Char → Char) : Elem → Option Char
  | .star => none
  | .anyOne => some 'a'
  | .oneof chars => some (chars.headD 'a')
  | .notOneof chars => some (negated chars)
  | .just c => some c

theorem sample_item (negated : List Char → Char) (elem : Elem) :
    Sample elem.item (elem.sample negated) := by
  cases elem with
  | star => exact .star
  | _ => exact .one _ _

theorem sample_runtimeItem (negated : List Char → Char) (elem : Elem) :
    Sample elem.runtimeItem (elem.sample negated) := by
  cases elem with
  | star => exact .star
  | _ => exact .one _ _

/-- Apart from negated groups and empty groups, a sample passes. -/
theorem passes_item {negated : List Char → Char} {elem : Elem}
    (hnegated : ∀ chars, elem = .notOneof chars → negated chars ∉ chars)
    (hempty : elem ≠ .oneof []) : Passes elem.item (elem.sample negated) := by
  rintro test hitem c hc
  cases elem with
  | star => cases hitem
  | anyOne =>
    cases hitem
    rfl
  | oneof chars =>
    cases hitem
    cases hc
    cases chars with
    | nil => exact absurd rfl hempty
    | cons d ds => simp
  | notOneof chars =>
    cases hitem
    cases hc
    simpa using hnegated chars rfl
  | just d =>
    cases hitem
    cases hc
    exact decide_eq_true rfl

theorem passes_runtimeItem {negated : List Char → Char} {elem : Elem}
    (hnegated : ∀ chars, elem = .notOneof chars → negated chars ∈ '!' :: chars)
    (hempty : elem ≠ .oneof []) : Passes elem.runtimeItem (elem.sample negated) := by
  cases elem with
  | notOneof chars =>
    rintro test hitem c hc
    cases hitem
    cases hc
    simpa using hnegated chars rfl
  | _ => exact passes_item (by simp) hempty

theorem not_mem_samples {negated : List Char → Char} {elems : List Elem}
    (hchars : ∀ elem ∈ elems, '\x00' ∉ elem.chars)
    (hnegated : ∀ chars, '\x00' ∉ chars → negated chars ≠ '\x00') :
    '\x00' ∉ elems.filterMap (Elem.sample negated) := by
  intro hmem
  obtain ⟨elem, helem, hsample⟩ := List.mem_filterMap.mp hmem
  have hnone := hchars elem helem
  cases elem with
  | star => cases hsample
  | anyOne => exact absurd (Option.some.inj hsample) (by decide)
  | oneof chars =>
    cases chars with
    | nil => exact absurd (Option.some.inj hsample) (by decide)
    | cons c cs => exact hnone (Option.some.inj hsample ▸ List.mem_cons_self)
  | notOneof chars => exact hnegated chars hnone (Option.some.inj hsample)
  | just c => exact hnone (Option.some.inj hsample ▸ List.mem_cons_self)

/-! ## Agreement -/

theorem items_agree {elems : List Elem} (h : ∀ chars, .notOneof chars ∉ elems) :
    elems.map Elem.runtimeItem = elems.map Elem.item := by
  apply List.map_congr_left
  intro elem helem
  cases elem with
  | notOneof chars => exact absurd helem (h chars)
  | _ => rfl

theorem headD_mem_cons (chars : List Char) : chars.headD '!' ∈ '!' :: chars := by
  cases chars with
  | nil => exact List.mem_cons_self
  | cons c cs => exact List.mem_cons_of_mem _ List.mem_cons_self

theorem headD_ne_nul {d : Char} (hd : d ≠ '\x00') (chars : List Char) (h : '\x00' ∉ chars) :
    chars.headD d ≠ '\x00' := by
  cases chars with
  | nil => exact hd
  | cons c cs => exact fun heq => h (heq ▸ List.mem_cons_self)

/-- Nothing matches a pattern with an empty group. -/
theorem accepts_empty_group {f : Elem → Item Char} {elems : List Elem} (h : .oneof [] ∈ elems)
    (hf : f (.oneof []) = .one fun d => [].contains d) (s : List Char) :
    accepts (elems.map f) s = false :=
  accepts_eq_false (hf ▸ List.mem_map_of_mem h) (fun _ => rfl) s

/-- The patterns agree on all strings if there is no negated group, or an empty one. -/
theorem accepts_agree_iff {s : List Char} {elems : List Elem} (h : compileNext s = .ok elems)
    (hnul : '\x00' ∉ s) :
    (∀ str : List Char, '\x00' ∉ str →
      accepts (elems.map Elem.item) str = accepts (elems.map Elem.runtimeItem) str) ↔
      (HasNegatedGroup s → HasEmptyGroup s) := by
  rw [hasNegatedGroup_iff h, hasEmptyGroup_iff h]
  constructor
  · rintro hagree ⟨chars, hmem⟩
    by_contra hempty
    have hnone : ∀ elem ∈ elems, elem ≠ .oneof [] := fun elem helem heq => hempty (heq ▸ helem)
    have hchars : ∀ elem ∈ elems, '\x00' ∉ elem.chars := fun elem helem hc =>
      hnul (mem_of_mem_chars h _ helem _ hc)
    -- The run-time pattern takes a character that a negated group names.
    have hnil : ∀ chars, .notOneof chars ∈ elems → chars = [] := by
      intro chars hmem
      have hstr := @not_mem_samples (fun chars => chars.headD '!') elems hchars
        (headD_ne_nul (by decide))
      have hruntime := (accepts_samples fun elem _ => sample_runtimeItem _ elem).mpr
        fun elem helem => passes_runtimeItem
          (fun chars _ => headD_mem_cons chars) (hnone elem helem)
      rw [← hagree _ hstr] at hruntime
      have hpasses := (accepts_samples fun elem _ => sample_item _ elem).mp hruntime _ hmem
      have hnot := hpasses _ rfl _ rfl
      cases chars with
      | nil => rfl
      | cons c cs => simp at hnot
    -- The compile-time pattern takes a character that is no `!` where nothing is named.
    obtain rfl := hnil chars hmem
    have hstr := @not_mem_samples (fun _ => 'a') elems hchars fun _ _ => by decide
    have hcompiled := (accepts_samples fun elem _ => sample_item (fun _ => 'a') elem).mpr
      fun elem helem => passes_item
        (fun chars heq => hnil chars (heq ▸ helem) ▸ List.not_mem_nil) (hnone elem helem)
    rw [hagree _ hstr] at hcompiled
    have hpasses := (accepts_samples fun elem _ => sample_runtimeItem _ elem).mp hcompiled _ hmem
    exact absurd (hpasses _ rfl _ rfl) (by decide)
  · intro hcondition str _
    by_cases hnegated : ∃ chars, .notOneof chars ∈ elems
    · have hempty := hcondition hnegated
      rw [accepts_empty_group hempty rfl, accepts_empty_group hempty rfl]
    · rw [items_agree fun chars hmem => hnegated ⟨chars, hmem⟩]

theorem takeWhile_of_nul {s : List Char} (h : '\x00' ∉ s) : s.takeWhile (· ≠ '\x00') = s := by
  rw [List.takeWhile_eq_self_iff]
  intro c hc
  rw [decide_eq_true_iff]
  rintro rfl
  exact h hc

/-- The patterns that the two compilers make of a string match the same strings if it has
no negated group, or an empty one, which nothing matches. -/
theorem isMatch_agree_iff {str : String} {elems : List Elem} {pattern : Fnmatch.Pattern}
    (hnul : '\x00' ∉ str.toList) (h : compile str = .ok elems)
    (h' : Fnmatch.compile str = .ok pattern) :
    (∀ fname : String, '\x00' ∉ fname.toList →
      isMatch elems fname = Fnmatch.Pattern.isMatch pattern fname) ↔
      (HasNegatedGroup str.toList → HasEmptyGroup str.toList) := by
  unfold compile at h
  rw [takeWhile_of_nul hnul] at h
  have hitems := compile_items h h'
  rw [← accepts_agree_iff h hnul]
  constructor
  · intro hagree s hs
    have heq := hagree (String.ofList s) (by rwa [String.toList_ofList])
    unfold isMatch Fnmatch.Pattern.isMatch at heq
    rwa [String.toList_ofList, takeWhile_of_nul hs, match1_eq, Fnmatch.matchElems_eq, hitems] at heq
  · intro hagree fname hfname
    unfold isMatch Fnmatch.Pattern.isMatch
    rw [takeWhile_of_nul hfname, match1_eq, Fnmatch.matchElems_eq, hitems]
    exact hagree _ hfname

theorem isMatch_agree_iff_group :
    (∀ fname : String, '\x00' ∉ fname.toList →
      isMatch [.star, .oneof ['c', 'h']] fname =
        Fnmatch.Pattern.isMatch [.star, .oneof ['c', 'h']] fname) ↔
      (HasNegatedGroup "*[ch]".toList → HasEmptyGroup "*[ch]".toList) := by
  apply isMatch_agree_iff (by decide)
  · show compileNext ['*', '[', 'c', 'h', ']'] = _
    have hgroup : compileOneof ['c', 'h', ']'] = .ok (.oneof ['c', 'h'], []) := rfl
    rw [compileNext, compileNext_eq_group hgroup, compileNext]
    rfl
  · show Fnmatch.compileNext ['*', '[', 'c', 'h', ']'] = _
    have hgroup : Fnmatch.compileOneof ['c', 'h', ']'] [] = .ok (['c', 'h'], []) := rfl
    rw [Fnmatch.compileNext, if_pos rfl, Fnmatch.compileNext_eq_oneof hgroup, Fnmatch.compileNext]
    rfl

/-- The run-time compiler takes the `!` for a character of the group. -/
theorem isMatch_not_agree :
    compile "[!a]" = .ok [.notOneof ['a']] ∧ Fnmatch.compile "[!a]" = .ok [.oneof ['!', 'a']] ∧
      isMatch [.notOneof ['a']] "b" = true ∧
      Fnmatch.Pattern.isMatch [.oneof ['!', 'a']] "b" = false := by
  refine ⟨?_, ?_, by decide, by decide⟩
  · show compileNext ['[', '!', 'a', ']'] = _
    have hgroup : compileOneof ['!', 'a', ']'] = .ok (.notOneof ['a'], []) := rfl
    rw [compileNext_eq_group hgroup, compileNext]
    rfl
  · show Fnmatch.compileNext ['[', '!', 'a', ']'] = _
    have hgroup : Fnmatch.compileOneof ['!', 'a', ']'] [] = .ok (['!', 'a'], []) := rfl
    rw [Fnmatch.compileNext_eq_oneof hgroup, Fnmatch.compileNext]
    rfl

end CtPattern

end Bpt
