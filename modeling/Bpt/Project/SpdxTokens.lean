-- SUMMARY: The tokens of a license expression, and how the parsers' views stand for them.
import Bpt.Project.Spdx

/-!
# Tokens of license expressions

Words are as long as they can be, and whitespace is between tokens only. A plus
sign knows whether it directly follows a word or a plus sign.
-/

namespace Bpt.Project

inductive SpdxToken where
  | word (text : List Char)
  | plus (direct : Bool)
  | opening
  | closing
  /-- A character of no token. -/
  | other (c : Char)
  deriving DecidableEq

namespace SpdxToken

def ofWord (word : List Char) : List SpdxToken := if word = [] then [] else [.word word]

def ofSymbol (c : Char) : SpdxToken :=
  if c = '(' then .opening else if c = ')' then .closing else .other c

/-- The tokens of a text that goes on with a word. `direct` tells whether a plus
sign would directly follow a word or a plus sign. -/
def lex (word : List Char) (direct : Bool) : List Char → List SpdxToken
  | [] => ofWord word
  | c :: cs =>
    if isIdstringChar c then lex (word ++ [c]) true cs
    else
      ofWord word ++
        if Name.isSpace c then lex [] false cs
        else if c = '+' then .plus direct :: lex [] true cs
        else ofSymbol c :: lex [] false cs

/-- The tokens of a text. -/
def tokens (sv : List Char) : List SpdxToken := lex [] false sv

example : tokens "(GPL-2.0+ OR MIT )".toList =
    [.opening, .word "GPL-2.0".toList, .plus true, .word "OR".toList, .word "MIT".toList,
      .closing] := by
  decide

/-! ## Lexing -/

theorem isSpace_of_isIdstringChar {c : Char} (h : isIdstringChar c = true) :
    Name.isSpace c = false := by
  by_contra hspace
  simp only [Bool.not_eq_false, Name.isSpace, Bool.or_eq_true, decide_eq_true_eq] at hspace
  rcases hspace with ((((rfl | rfl) | rfl) | rfl) | rfl) | rfl <;> cases h

theorem not_isIdstringChar {c : Char} (h : Name.isSpace c = true) : isIdstringChar c = false := by
  by_contra hid
  rw [isSpace_of_isIdstringChar (Bool.not_eq_false _ ▸ hid)] at h
  cases h

theorem lex_run (word : List Char) (direct : Bool) {run : List Char} (hrun : run ≠ [])
    (hchars : ∀ c ∈ run, isIdstringChar c = true) (rest : List Char) :
    lex word direct (run ++ rest) = lex (word ++ run) true rest := by
  induction run generalizing word direct with
  | nil => exact absurd rfl hrun
  | cons c run ih =>
    rw [List.cons_append, lex, if_pos (hchars c List.mem_cons_self)]
    cases run with
    | nil => rfl
    | cons d run =>
      rw [ih _ _ (List.cons_ne_nil _ _) fun c hc => hchars c (List.mem_cons_of_mem _ hc),
        List.append_cons _ c (d :: run)]

/-- A word ends where no further character of it follows. -/
theorem lex_word {word : List Char} (hword : word ≠ []) {rest : List Char}
    (hrest : ∀ c ∈ rest.head?, isIdstringChar c = false) :
    lex word true rest = .word word :: lex [] true rest := by
  cases rest with
  | nil => simp [lex, ofWord, hword]
  | cons c rest =>
    have hc := hrest c rfl
    simp [lex, ofWord, hword, hc]

theorem tokens_space {c : Char} (hc : Name.isSpace c = true) (cs : List Char) (direct : Bool) :
    lex [] direct (c :: cs) = tokens cs := by
  simp [lex, ofWord, not_isIdstringChar hc, hc, tokens]

theorem tokens_dropWhile (sv : List Char) : tokens (sv.dropWhile Name.isSpace) = tokens sv := by
  induction sv with
  | nil => rfl
  | cons c cs ih =>
    by_cases hc : Name.isSpace c = true
    · rw [List.dropWhile_cons_of_pos hc, ih]
      exact (tokens_space hc cs false).symm
    · rw [List.dropWhile_cons_of_neg hc]

theorem lex_append_spaces {spaces : List Char} (hspaces : ∀ c ∈ spaces, Name.isSpace c = true)
    (word : List Char) (direct : Bool) (sv : List Char) :
    lex word direct (sv ++ spaces) = lex word direct sv := by
  induction sv generalizing word direct with
  | nil =>
    induction spaces generalizing word direct with
    | nil => rfl
    | cons c cs ih =>
      have hc := hspaces c List.mem_cons_self
      have hid : isIdstringChar c = false := not_isIdstringChar hc
      have hrest := ih (fun d hd => hspaces d (List.mem_cons_of_mem c hd)) [] false
      rw [List.nil_append] at hrest ⊢
      simp [lex, hid, hc, hrest, ofWord]
  | cons c cs ih =>
    rw [List.cons_append, lex, lex, ih, ih, ih]

theorem tokens_trimView (sv : List Char) : tokens (trimView sv) = tokens sv := by
  rw [trimView_eq, ← tokens_dropWhile sv]
  conv_rhs => rw [← List.rdropWhile_append_rtakeWhile (p := Name.isSpace) (l := sv.dropWhile _)]
  exact (lex_append_spaces (fun _ hc => List.mem_rtakeWhile_imp hc) [] false _).symm

/-! ## Views -/

/-- What a view begins with, after whitespace. -/
inductive Front (sv : List Char) : Prop where
  | done (trim : trimView sv = []) (next : nextToken sv = []) (tokens : tokens sv = [])
  | symbol (c : Char) (cs : List Char) (trim : trimView sv = c :: cs) (paren : c = '(' ∨ c = ')')
      (next : nextToken sv = [c]) (tokens : tokens sv = ofSymbol c :: SpdxToken.tokens cs)
  | plus (cs : List Char) (trim : trimView sv = '+' :: cs) (next : nextToken sv = ['+'])
      (tokens : tokens sv = .plus false :: lex [] true cs)
  | other (c : Char) (cs : List Char) (trim : trimView sv = c :: cs) (next : nextToken sv = [])
      (tokens : tokens sv = .other c :: SpdxToken.tokens cs)
  | word (word rest : List Char) (trim : trimView sv = word ++ rest) (ne_nil : word ≠ [])
      (chars : ∀ c ∈ word, isIdstringChar c = true)
      (ends : ∀ c ∈ rest.head?, isIdstringChar c = false) (next : nextToken sv = word)
      (tokens : tokens sv = .word word :: lex [] true rest)

theorem front (sv : List Char) : Front sv := by
  cases htrim : trimView sv with
  | nil =>
    refine .done htrim ?_ ?_
    · unfold nextToken
      rw [htrim]
    · rw [← tokens_trimView, htrim]
      rfl
  | cons c cs =>
    have hspace := trimView_head sv (List.head?_eq_some_iff.mpr ⟨_, htrim⟩)
    have htokens : tokens sv = lex [] false (c :: cs) := by rw [← htrim, ← tokens, tokens_trimView]
    have hnext : nextToken sv = if c = '(' ∨ c = ')' ∨ c = '+' then [c]
        else (c :: cs).takeWhile isIdstringChar := by
      unfold nextToken
      rw [htrim]
    by_cases hid : isIdstringChar c = true
    · have hne : ¬ (c = '(' ∨ c = ')' ∨ c = '+') := by
        rintro (rfl | rfl | rfl) <;> cases hid
      have hword : (c :: cs).takeWhile isIdstringChar ≠ [] := by
        rw [List.takeWhile_cons_of_pos hid]
        exact List.cons_ne_nil _ _
      have hchars : ∀ d ∈ (c :: cs).takeWhile isIdstringChar, isIdstringChar d = true :=
        fun _ hd => List.mem_takeWhile_imp hd
      have hends : ∀ d ∈ ((c :: cs).dropWhile isIdstringChar).head?, isIdstringChar d = false := by
        intro d hd
        have hhead := List.head?_dropWhile_not isIdstringChar (c :: cs)
        rw [Option.mem_def.mp hd] at hhead
        simpa using hhead
      refine .word _ ((c :: cs).dropWhile isIdstringChar) ?_ hword hchars hends ?_ ?_
      · rw [htrim, List.takeWhile_append_dropWhile]
      · rw [hnext, if_neg hne]
      · rw [htokens, ← List.takeWhile_append_dropWhile (p := isIdstringChar) (l := c :: cs),
          lex_run _ _ hword hchars, List.takeWhile_append_dropWhile]
        exact lex_word hword hends
    · have hsymbol : c ≠ '+' → tokens sv = ofSymbol c :: tokens cs := by
        intro hplus
        rw [htokens]
        simp [lex, ofWord, hid, hspace, hplus, tokens]
      by_cases hparen : c = '(' ∨ c = ')'
      · refine .symbol c cs htrim hparen ?_ (hsymbol ?_)
        · rw [hnext, if_pos (hparen.imp_right .inl)]
        · rintro rfl
          simp at hparen
      · by_cases hplus : c = '+'
        · subst hplus
          refine .plus cs htrim hnext ?_
          rw [htokens]
          simp [lex, ofWord, hid, hspace]
        · rw [not_or] at hparen
          refine .other c cs htrim ?_ ?_
          · rw [hnext, if_neg (by simp [hparen, hplus]), List.takeWhile_cons_of_neg hid]
          · rw [hsymbol hplus, ofSymbol, if_neg hparen.1, if_neg hparen.2]

/-- The token that a view begins with. -/
def nextOf : List SpdxToken → List Char
  | [] => []
  | .word text :: _ => text
  | .plus _ :: _ => ['+']
  | .opening :: _ => ['(']
  | .closing :: _ => [')']
  | .other _ :: _ => []

theorem nextToken_eq (sv : List Char) : nextToken sv = nextOf (tokens sv) := by
  cases front sv with
  | done _ next htokens => rw [next, htokens]; rfl
  | symbol c cs _ paren next htokens =>
    rw [next, htokens]
    rcases paren with rfl | rfl <;> rfl
  | plus cs _ next htokens => rw [next, htokens]; rfl
  | other c cs _ next htokens => rw [next, htokens]; rfl
  | word word rest _ _ _ _ next htokens => rw [next, htokens]; rfl

theorem trimView_eq_nil_iff (sv : List Char) : trimView sv = [] ↔ tokens sv = [] := by
  cases front sv with
  | done trim _ htokens => simp [trim, htokens]
  | symbol c cs trim _ _ htokens => simp [trim, htokens]
  | plus cs trim _ htokens => simp [trim, htokens]
  | other c cs trim _ htokens => simp [trim, htokens]
  | word word rest trim ne_nil _ _ _ htokens => simp [trim, htokens, ne_nil]

/-- What is left after a parenthesis. -/
theorem tokens_drop_symbol {sv : List Char} {t : SpdxToken} {ts : List SpdxToken}
    (h : tokens sv = t :: ts) (ht : t = .opening ∨ t = .closing) :
    tokens ((trimView sv).drop 1) = ts := by
  cases front sv with
  | done _ _ htokens => cases htokens.symm.trans h
  | symbol c cs trim _ _ htokens =>
    rw [trim]
    exact (List.cons.inj (htokens.symm.trans h)).2
  | plus cs _ _ htokens =>
    obtain ⟨rfl, -⟩ := List.cons.inj (htokens.symm.trans h)
    simp at ht
  | other c cs _ _ htokens =>
    obtain ⟨rfl, -⟩ := List.cons.inj (htokens.symm.trans h)
    simp at ht
  | word word rest _ _ _ _ _ htokens =>
    obtain ⟨rfl, -⟩ := List.cons.inj (htokens.symm.trans h)
    simp at ht

/-- What is left after a word. -/
theorem lex_drop_word {sv text : List Char} {ts : List SpdxToken}
    (h : tokens sv = .word text :: ts) : lex [] true ((trimView sv).drop text.length) = ts := by
  cases front sv with
  | done _ _ htokens => cases htokens.symm.trans h
  | symbol c cs _ paren _ htokens =>
    obtain ⟨hc, -⟩ := List.cons.inj (htokens.symm.trans h)
    rcases paren with rfl | rfl <;> cases hc
  | plus cs _ _ htokens => cases htokens.symm.trans h
  | other c cs _ _ htokens => cases htokens.symm.trans h
  | word word rest trim _ _ _ _ htokens =>
    obtain ⟨hword, hrest⟩ := List.cons.inj (htokens.symm.trans h)
    obtain rfl := SpdxToken.word.inj hword
    rw [trim, List.drop_left]
    exact hrest

/-- Only a plus sign right at the start tells the rest of a word from a text. -/
theorem lex_true (sv : List Char) :
    lex [] true sv = tokens sv ∨
      ∃ cs, sv = '+' :: cs ∧ lex [] true sv = .plus true :: lex [] true cs ∧
        tokens sv = .plus false :: lex [] true cs := by
  cases sv with
  | nil => exact .inl rfl
  | cons c cs =>
    by_cases hplus : c = '+'
    · subst hplus
      exact .inr ⟨cs, rfl, rfl, rfl⟩
    · refine .inl ?_
      unfold tokens
      rw [lex, lex, if_neg hplus, if_neg hplus]

end SpdxToken

end Bpt.Project
