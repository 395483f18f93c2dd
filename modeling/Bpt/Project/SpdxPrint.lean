-- SUMMARY: A printed license expression has the tokens it was read from, and is read as the same tree.
import Bpt.Project.SpdxAccepts

/-!
# Printed license expressions

The printer writes one blank around an operator and no parentheses but those of a
group. What is read is printed with the tokens it was read from, since only a
license stands to the left of an operator.
-/

namespace Bpt.Project

open SpdxToken

namespace SpdxToken

/-! ## Tokens of joined texts -/

/-- What may come right after an expression without changing its last token. -/
def EndsToken (rest : List Char) : Prop :=
  ∀ c ∈ rest.head?, isIdstringChar c = false ∧ c ≠ '+'

theorem endsToken_nil : EndsToken [] := by
  rintro c ⟨⟩

theorem endsToken_cons {c : Char} (hid : isIdstringChar c = false) (hplus : c ≠ '+')
    (cs : List Char) : EndsToken (c :: cs) := by
  rintro d ⟨⟩
  exact ⟨hid, hplus⟩

theorem lex_true_of_ends {rest : List Char} (h : EndsToken rest) :
    lex [] true rest = tokens rest := by
  cases lex_true rest with
  | inl heq => exact heq
  | inr hplus =>
    obtain ⟨cs, rfl, -⟩ := hplus
    exact absurd rfl (h '+' rfl).2

theorem tokens_word_append {word rest : List Char} (hword : word ≠ [])
    (hchars : ∀ c ∈ word, isIdstringChar c = true)
    (hrest : ∀ c ∈ rest.head?, isIdstringChar c = false) :
    tokens (word ++ rest) = .word word :: lex [] true rest := by
  rw [tokens, lex_run [] false hword hchars, List.nil_append, lex_word hword hrest]

theorem tokens_blank (cs : List Char) : tokens (' ' :: cs) = tokens cs := tokens_space rfl cs false

theorem tokens_opening (cs : List Char) : tokens ('(' :: cs) = .opening :: tokens cs := rfl

theorem tokens_closing (cs : List Char) : tokens (')' :: cs) = .closing :: tokens cs := rfl

/-- An operator between blanks. -/
theorem tokens_operator {word : List Char} (hword : word ≠ [])
    (hchars : ∀ c ∈ word, isIdstringChar c = true) (cs : List Char) :
    tokens (' ' :: (word ++ ' ' :: cs)) = .word word :: tokens cs := by
  have hends : EndsToken (' ' :: cs) := endsToken_cons rfl (by decide) cs
  rw [tokens_blank, tokens_word_append hword hchars fun c hc => (hends c hc).1,
    lex_true_of_ends hends, tokens_blank]

end SpdxToken

/-! ## Printed trees -/

theorem ReadsLicense.tokens_str {license : SimpleExpression} {ts : List SpdxToken}
    (h : ReadsLicense license ts) {rest : List Char} (hrest : EndsToken rest) :
    tokens (license.str.toList ++ rest) = ts ++ tokens rest := by
  cases h with
  | @id word listed chars =>
    obtain ⟨c, cs, hword, -⟩ := ne_nil_of_license listed
    have hne : word ≠ [] := hword ▸ List.cons_ne_nil _ _
    rw [SimpleExpression.str, String.toList_ofList,
      tokens_word_append hne chars fun c hc => (hrest c hc).1, lex_true_of_ends hrest]
    rfl
  | @plus word listed chars =>
    obtain ⟨c, cs, hword, -⟩ := ne_nil_of_license listed
    have hne : word ≠ [] := hword ▸ List.cons_ne_nil _ _
    have htext : (SimpleExpression.licenseIdPlus (String.ofList word)).str.toList ++ rest =
        word ++ '+' :: rest := by
      simp [SimpleExpression.str, String.toList_append]
    rw [htext, tokens_word_plus hne chars rest, lex_true_of_ends hrest]
    rfl

/-- What is printed has the tokens that were read. -/
theorem ReadsExpr.tokens_str {expr : CompoundExpression} {ts : List SpdxToken}
    (h : ReadsExpr expr ts) {rest : List Char} (hrest : EndsToken rest) :
    tokens (expr.str.toList ++ rest) = ts ++ tokens rest := by
  induction h generalizing rest with
  | simple reads => exact reads.tokens_str hrest
  | @and license rhs left right reads _ ih =>
    have htext : (CompoundExpression.andLicense (.simple license) rhs).str.toList ++ rest =
        license.str.toList ++ ' ' :: (['A', 'N', 'D'] ++ ' ' :: (rhs.str.toList ++ rest)) := by
      simp [CompoundExpression.str, String.toList_append]
    rw [htext, reads.tokens_str (endsToken_cons rfl (by decide) _),
      tokens_operator (List.cons_ne_nil _ _) (List.all_eq_true.mp (by decide)), ih hrest,
      List.append_assoc]
    rfl
  | @or license rhs left right reads _ ih =>
    have htext : (CompoundExpression.orLicense (.simple license) rhs).str.toList ++ rest =
        license.str.toList ++ ' ' :: (['O', 'R'] ++ ' ' :: (rhs.str.toList ++ rest)) := by
      simp [CompoundExpression.str, String.toList_append]
    rw [htext, reads.tokens_str (endsToken_cons rfl (by decide) _),
      tokens_operator (List.cons_ne_nil _ _) (List.all_eq_true.mp (by decide)), ih hrest,
      List.append_assoc]
    rfl
  | @group expr ts reads ih =>
    have htext : (CompoundExpression.parenGrouped expr).str.toList ++ rest =
        '(' :: (expr.str.toList ++ ')' :: rest) := by
      simp [CompoundExpression.str, String.toList_append]
    rw [htext, tokens_opening, ih (endsToken_cons rfl (by decide) _), tokens_closing]
    simp

namespace SpdxLicenseExpression

/-- What is read from a string is read from its printed form. -/
theorem parse_printed {sv : String} {license : SpdxLicenseExpression} (h : parse sv = .ok license) :
    parse (SpdxLicense.toStr license) = .ok license := by
  have hreads := parse_eq_ok.mp h
  apply parse_eq_ok.mpr
  have htokens : tokens (SpdxLicense.toStr license).toList = tokens sv.toList := by
    have hprinted := hreads.tokens_str endsToken_nil
    rw [List.append_nil] at hprinted
    exact hprinted.trans (List.append_nil _)
  rw [htokens]
  exact hreads

theorem parse_printed_group :
    ∃ license, parse "( MIT OR\tGPL-2.0+)" = .ok license ∧
      parse (SpdxLicense.toStr license) = .ok license := by
  have hmit : String.ofList "MIT".toList ∈ allLicenses := by decide +kernel
  have hgpl : String.ofList "GPL-2.0".toList ∈ allLicenses := by decide +kernel
  have hreads := ReadsExpr.group
    (.or (.id hmit (List.all_eq_true.mp (by decide)))
      (.simple (.plus hgpl (List.all_eq_true.mp (by decide)))))
  have htokens : tokens "( MIT OR\tGPL-2.0+)".toList =
      .opening :: ([.word "MIT".toList] ++ orToken :: [.word "GPL-2.0".toList, .plus true]) ++
        [.closing] := by
    decide
  rw [← htokens] at hreads
  have hparse := parse_eq_ok.mpr hreads
  exact ⟨_, hparse, parse_printed hparse⟩

end SpdxLicenseExpression

end Bpt.Project
