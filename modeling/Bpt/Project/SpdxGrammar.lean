-- SUMMARY: The grammar of license expressions, and the part of it that the parser accepts.
import Bpt.Project.SpdxTokens

/-!
# The grammar of license expressions

The parser returns after a group and after an exception without looking at what
follows, so it accepts a part of the grammar only.
-/

namespace Bpt.Project

open SpdxToken

namespace SpdxToken

def andToken : SpdxToken := .word ['A', 'N', 'D']

def orToken : SpdxToken := .word ['O', 'R']

def withToken : SpdxToken := .word ['W', 'I', 'T', 'H']

end SpdxToken

/-! ## The grammar -/

/-- A listed license, which a plus sign may directly follow. -/
inductive SimpleLicense : List SpdxToken → Prop where
  | id {id : String} (listed : id ∈ allLicenses) : SimpleLicense (tokens id.toList)
  | plus {id : String} (listed : id ∈ allLicenses) : SimpleLicense (tokens (id ++ "+").toList)

inductive LicenseExpr : List SpdxToken → Prop where
  | simple {ts : List SpdxToken} (license : SimpleLicense ts) : LicenseExpr ts
  | withException {ts : List SpdxToken} {exception : String} (license : SimpleLicense ts)
      (listed : exception ∈ allExceptions) :
      LicenseExpr (ts ++ withToken :: tokens exception.toList)
  | and {left right : List SpdxToken} (left_expr : LicenseExpr left)
      (right_expr : LicenseExpr right) : LicenseExpr (left ++ andToken :: right)
  | or {left right : List SpdxToken} (left_expr : LicenseExpr left)
      (right_expr : LicenseExpr right) : LicenseExpr (left ++ orToken :: right)
  | group {ts : List SpdxToken} (expr : LicenseExpr ts) :
      LicenseExpr (.opening :: ts ++ [.closing])

/-! ## What is accepted -/

/-- One token may come right before another. -/
def MayPrecede (a b : SpdxToken) : Prop :=
  ¬ (a = .closing ∧ (b = andToken ∨ b = orToken)) ∧ ¬ (a = .plus true ∧ b = .plus true)

/-- There is no exception, no operator after a group and no double plus sign. -/
structure Supported (ts : List SpdxToken) : Prop where
  no_with : withToken ∉ ts
  adjacent : ts.IsChain MayPrecede

inductive AcceptedLicense : List SpdxToken → Prop where
  | id {word : List Char} (listed : String.ofList word ∈ allLicenses)
      (chars : ∀ c ∈ word, isIdstringChar c = true) : AcceptedLicense [.word word]
  | plus {word : List Char} (listed : String.ofList word ∈ allLicenses)
      (chars : ∀ c ∈ word, isIdstringChar c = true) : AcceptedLicense [.word word, .plus true]

inductive AcceptedExpr : List SpdxToken → Prop where
  | simple {ts : List SpdxToken} (license : AcceptedLicense ts) : AcceptedExpr ts
  | and {left right : List SpdxToken} (license : AcceptedLicense left)
      (expr : AcceptedExpr right) : AcceptedExpr (left ++ andToken :: right)
  | or {left right : List SpdxToken} (license : AcceptedLicense left)
      (expr : AcceptedExpr right) : AcceptedExpr (left ++ orToken :: right)
  | group {ts : List SpdxToken} (expr : AcceptedExpr ts) :
      AcceptedExpr (.opening :: ts ++ [.closing])

/-! ## Accepted trees -/

/-- The tokens of a license as it is read. -/
inductive ReadsLicense : SimpleExpression → List SpdxToken → Prop where
  | id {word : List Char} (listed : String.ofList word ∈ allLicenses)
      (chars : ∀ c ∈ word, isIdstringChar c = true) :
      ReadsLicense (.justLicenseId (String.ofList word)) [.word word]
  | plus {word : List Char} (listed : String.ofList word ∈ allLicenses)
      (chars : ∀ c ∈ word, isIdstringChar c = true) :
      ReadsLicense (.licenseIdPlus (String.ofList word)) [.word word, .plus true]

/-- The tokens of an expression as it is read: an operator has one license to its left. -/
inductive ReadsExpr : CompoundExpression → List SpdxToken → Prop where
  | simple {license : SimpleExpression} {ts : List SpdxToken} (reads : ReadsLicense license ts) :
      ReadsExpr (.simple license) ts
  | and {license : SimpleExpression} {rhs : CompoundExpression} {left right : List SpdxToken}
      (reads : ReadsLicense license left) (reads_right : ReadsExpr rhs right) :
      ReadsExpr (.andLicense (.simple license) rhs) (left ++ andToken :: right)
  | or {license : SimpleExpression} {rhs : CompoundExpression} {left right : List SpdxToken}
      (reads : ReadsLicense license left) (reads_right : ReadsExpr rhs right) :
      ReadsExpr (.orLicense (.simple license) rhs) (left ++ orToken :: right)
  | group {expr : CompoundExpression} {ts : List SpdxToken} (reads : ReadsExpr expr ts) :
      ReadsExpr (.parenGrouped expr) (.opening :: ts ++ [.closing])

theorem acceptedLicense_iff {ts : List SpdxToken} :
    AcceptedLicense ts ↔ ∃ license, ReadsLicense license ts := by
  constructor
  · intro h
    cases h with
    | id listed chars => exact ⟨_, .id listed chars⟩
    | plus listed chars => exact ⟨_, .plus listed chars⟩
  · rintro ⟨license, h⟩
    cases h with
    | id listed chars => exact .id listed chars
    | plus listed chars => exact .plus listed chars

theorem ReadsLicense.accepted {license : SimpleExpression} {ts : List SpdxToken}
    (h : ReadsLicense license ts) : AcceptedLicense ts := acceptedLicense_iff.mpr ⟨license, h⟩

theorem ReadsExpr.accepted {expr : CompoundExpression} {ts : List SpdxToken}
    (h : ReadsExpr expr ts) : AcceptedExpr ts := by
  induction h with
  | simple reads => exact .simple reads.accepted
  | and reads _ ih => exact .and reads.accepted ih
  | or reads _ ih => exact .or reads.accepted ih
  | group _ ih => exact .group ih

theorem AcceptedExpr.exists_reads {ts : List SpdxToken} (h : AcceptedExpr ts) :
    ∃ expr, ReadsExpr expr ts := by
  induction h with
  | simple license =>
    obtain ⟨expr, hexpr⟩ := acceptedLicense_iff.mp license
    exact ⟨_, .simple hexpr⟩
  | and license _ ih =>
    obtain ⟨expr, hexpr⟩ := acceptedLicense_iff.mp license
    obtain ⟨rhs, hrhs⟩ := ih
    exact ⟨_, .and hexpr hrhs⟩
  | or license _ ih =>
    obtain ⟨expr, hexpr⟩ := acceptedLicense_iff.mp license
    obtain ⟨rhs, hrhs⟩ := ih
    exact ⟨_, .or hexpr hrhs⟩
  | group _ ih =>
    obtain ⟨expr, hexpr⟩ := ih
    exact ⟨_, .group hexpr⟩

/-! ## Licenses -/

theorem ne_nil_of_license {word : List Char} (h : String.ofList word ∈ allLicenses) :
    ∃ c cs, word = c :: cs ∧ isIdstringChar c = true := by
  have hfirst : ∀ id : String, IdText id → ∃ c cs, id.toList = c :: cs ∧ isIdstringChar c = true := by
    intro id hid
    cases hchars : id.toList with
    | nil => exact absurd (String.toList_eq_nil_iff.mp hchars) hid.ne_empty
    | cons c cs => exact ⟨c, cs, rfl, hid.chars c (hchars ▸ List.mem_cons_self)⟩
  rcases idText_of_license h with htext | ⟨base, _, hbase, heq⟩
  · simpa using hfirst _ htext
  · obtain ⟨c, cs, hchars, hc⟩ := hfirst base hbase
    refine ⟨c, cs ++ ['+'], ?_, hc⟩
    have hword := congrArg String.toList heq
    rw [String.toList_ofList, String.toList_append, hchars] at hword
    exact hword

theorem tokens_word {word : List Char} (hword : word ≠ [])
    (hchars : ∀ c ∈ word, isIdstringChar c = true) : tokens word = [.word word] := by
  have hlex := lex_run [] false hword hchars []
  rw [List.append_nil, List.nil_append] at hlex
  rw [tokens, hlex, lex_word hword (by simp)]
  rfl

theorem tokens_word_plus {word : List Char} (hword : word ≠ [])
    (hchars : ∀ c ∈ word, isIdstringChar c = true) (pluses : List Char) :
    tokens (word ++ '+' :: pluses) = .word word :: .plus true :: lex [] true pluses := by
  rw [tokens, lex_run [] false hword hchars, List.nil_append, lex_word hword]
  · rfl
  · rintro c ⟨⟩
    rfl

theorem AcceptedLicense.derivable {ts : List SpdxToken} (h : AcceptedLicense ts) :
    SimpleLicense ts := by
  cases h with
  | @id word listed chars =>
    obtain ⟨c, cs, hword, -⟩ := ne_nil_of_license listed
    have htokens : tokens (String.ofList word).toList = [.word word] := by
      rw [String.toList_ofList]
      exact tokens_word (hword ▸ List.cons_ne_nil _ _) chars
    exact htokens ▸ .id listed
  | @plus word listed chars =>
    obtain ⟨c, cs, hword, -⟩ := ne_nil_of_license listed
    have htokens : tokens (String.ofList word ++ "+").toList = [.word word, .plus true] := by
      rw [String.toList_append, String.toList_ofList]
      exact tokens_word_plus (hword ▸ List.cons_ne_nil _ _) chars []
    exact htokens ▸ .plus listed

theorem IdText.accepted {id : String} (hid : IdText id) (listed : id ∈ allLicenses) :
    AcceptedLicense (tokens id.toList) ∧ AcceptedLicense (tokens (id ++ "+").toList) := by
  have hne : id.toList ≠ [] := fun h => hid.ne_empty (String.toList_eq_nil_iff.mp h)
  have hlisted : String.ofList id.toList ∈ allLicenses := by rwa [String.ofList_toList]
  rw [String.toList_append, tokens_word hne hid.chars]
  refine ⟨.id hlisted hid.chars, ?_⟩
  have hplus := tokens_word_plus hne hid.chars []
  exact hplus ▸ .plus hlisted hid.chars

/-- Of the licenses, those with two plus signs are not accepted. -/
theorem SimpleLicense.accepted {ts : List SpdxToken} (h : SimpleLicense ts)
    (hadjacent : ts.IsChain MayPrecede) : AcceptedLicense ts := by
  cases h with
  | id listed =>
    rcases idText_of_license listed with hid | ⟨base, hbase, htext, rfl⟩
    · exact (hid.accepted listed).1
    · exact (htext.accepted hbase).2
  | plus listed =>
    rcases idText_of_license listed with hid | ⟨base, hbase, htext, rfl⟩
    · exact (hid.accepted listed).2
    · have hne : base.toList ≠ [] := fun h => htext.ne_empty (String.toList_eq_nil_iff.mp h)
      have htokens : tokens (base ++ "+" ++ "+").toList =
          [.word base.toList, .plus true, .plus true] := by
        rw [String.toList_append, String.toList_append, List.append_assoc]
        exact tokens_word_plus hne htext.chars ['+']
      rw [htokens] at hadjacent
      simp [MayPrecede] at hadjacent

/-! ## Accepted expressions -/

theorem AcceptedLicense.ne_nil {ts : List SpdxToken} (h : AcceptedLicense ts) : ts ≠ [] := by
  cases h <;> exact List.cons_ne_nil _ _

theorem AcceptedExpr.ne_nil {ts : List SpdxToken} (h : AcceptedExpr ts) : ts ≠ [] := by
  cases h with
  | simple license => exact license.ne_nil
  | and => simp
  | or => simp
  | group => simp

theorem AcceptedExpr.derivable {ts : List SpdxToken} (h : AcceptedExpr ts) : LicenseExpr ts := by
  induction h with
  | simple license => exact .simple license.derivable
  | and license _ ih => exact .and (.simple license.derivable) ih
  | or license _ ih => exact .or (.simple license.derivable) ih
  | group _ ih => exact .group ih

theorem mayPrecede_operator {a op : SpdxToken} (hop : op = andToken ∨ op = orToken) :
    MayPrecede a op ↔ a ≠ .closing := by
  have hplus : op ≠ .plus true := by rcases hop with rfl | rfl <;> exact SpdxToken.noConfusion
  simp [MayPrecede, hop, hplus]

theorem operator_mayPrecede {op b : SpdxToken} (hop : op = andToken ∨ op = orToken) :
    MayPrecede op b := by
  rcases hop with rfl | rfl <;> simp [MayPrecede, andToken, orToken]

/-- An operator may stand between expressions that are supported, the first of
which does not end with a group. -/
theorem supported_operator {left right : List SpdxToken} {op : SpdxToken}
    (hop : op = andToken ∨ op = orToken) :
    Supported (left ++ op :: right) ↔
      Supported left ∧ Supported right ∧ left.getLast? ≠ some .closing := by
  have hwith : withToken ≠ op := by rcases hop with rfl | rfl <;> decide
  have hlast : (∀ a ∈ left.getLast?, ∀ b ∈ (op :: right).head?, MayPrecede a b) ↔
      left.getLast? ≠ some .closing := by
    simp only [List.head?_cons, Option.mem_def, Option.some.injEq, forall_eq',
      mayPrecede_operator hop]
    exact ⟨fun h hclosing => h _ hclosing rfl, fun h a ha hclosing => h (hclosing ▸ ha)⟩
  have hright : (op :: right).IsChain MayPrecede ↔ right.IsChain MayPrecede := by
    rw [List.isChain_cons]
    exact and_iff_right fun b _ => operator_mayPrecede hop
  constructor
  · rintro ⟨hnone, hchain⟩
    rw [List.isChain_append, hlast, hright] at hchain
    rw [List.mem_append, List.mem_cons, not_or, not_or] at hnone
    exact ⟨⟨hnone.1, hchain.1⟩, ⟨hnone.2.2, hchain.2.1⟩, hchain.2.2⟩
  · rintro ⟨hl, hr, hclosing⟩
    refine ⟨?_, ?_⟩
    · rw [List.mem_append, List.mem_cons, not_or, not_or]
      exact ⟨hl.no_with, hwith, hr.no_with⟩
    · rw [List.isChain_append, hlast, hright]
      exact ⟨hl.adjacent, hr.adjacent, hclosing⟩

theorem supported_group {ts : List SpdxToken} :
    Supported (.opening :: ts ++ [.closing]) ↔ Supported ts := by
  have hchain : (SpdxToken.opening :: ts ++ [SpdxToken.closing]).IsChain MayPrecede ↔
      ts.IsChain MayPrecede := by
    have hopening (b : SpdxToken) : MayPrecede .opening b := by simp [MayPrecede]
    have hclosing (a : SpdxToken) : MayPrecede a .closing := by
      simp [MayPrecede, andToken, orToken]
    rw [List.isChain_append, List.isChain_cons]
    simp [hopening, hclosing]
  constructor
  · rintro ⟨hnone, hadjacent⟩
    refine ⟨fun hmem => hnone ?_, hchain.mp hadjacent⟩
    simp [hmem]
  · rintro ⟨hnone, hadjacent⟩
    refine ⟨?_, hchain.mpr hadjacent⟩
    rw [List.cons_append, List.mem_cons, List.mem_append, List.mem_singleton, not_or, not_or]
    exact ⟨SpdxToken.noConfusion, hnone, SpdxToken.noConfusion⟩

theorem AcceptedLicense.supported {ts : List SpdxToken} (h : AcceptedLicense ts) :
    Supported ts ∧ ts.getLast? ≠ some .closing := by
  have hlisted : String.ofList ['W', 'I', 'T', 'H'] ∉ allLicenses := by decide +kernel
  cases h with
  | @id word listed _ =>
    refine ⟨⟨?_, by simp⟩, by simp⟩
    rw [List.mem_singleton, withToken, SpdxToken.word.injEq]
    rintro rfl
    exact hlisted listed
  | @plus word listed _ =>
    refine ⟨⟨?_, by simp [MayPrecede]⟩, by simp⟩
    rw [List.mem_cons, List.mem_singleton, withToken, SpdxToken.word.injEq, not_or]
    refine ⟨?_, SpdxToken.noConfusion⟩
    rintro rfl
    exact hlisted listed

theorem AcceptedExpr.supported {ts : List SpdxToken} (h : AcceptedExpr ts) : Supported ts := by
  induction h with
  | simple license => exact license.supported.1
  | and license _ ih =>
    exact (supported_operator (.inl rfl)).mpr ⟨license.supported.1, ih, license.supported.2⟩
  | or license _ ih =>
    exact (supported_operator (.inr rfl)).mpr ⟨license.supported.1, ih, license.supported.2⟩
  | group _ ih => exact supported_group.mpr ih

theorem getLast?_operator {left right : List SpdxToken} (op : SpdxToken) (hright : right ≠ []) :
    (left ++ op :: right).getLast? = right.getLast? := by
  rw [List.append_cons, List.getLast?_append_of_ne_nil _ hright]

/-- An accepted expression goes on with an operator, unless it ends with a group. -/
theorem AcceptedExpr.append {left right : List SpdxToken} {op : SpdxToken}
    (h : AcceptedExpr left) (hright : AcceptedExpr right) (hop : op = andToken ∨ op = orToken)
    (hlast : left.getLast? ≠ some .closing) : AcceptedExpr (left ++ op :: right) := by
  induction h with
  | simple license =>
    rcases hop with rfl | rfl
    · exact .and license hright
    · exact .or license hright
  | and hlicense hexpr ih =>
    rw [getLast?_operator _ hexpr.ne_nil] at hlast
    rw [List.append_assoc, List.cons_append]
    exact .and hlicense (ih hlast)
  | or hlicense hexpr ih =>
    rw [getLast?_operator _ hexpr.ne_nil] at hlast
    rw [List.append_assoc, List.cons_append]
    exact .or hlicense (ih hlast)
  | group => exact absurd List.getLast?_concat hlast

/-- What is accepted is what can be derived, as far as it is supported. -/
theorem acceptedExpr_iff {ts : List SpdxToken} :
    AcceptedExpr ts ↔ LicenseExpr ts ∧ Supported ts := by
  constructor
  · exact fun h => ⟨h.derivable, h.supported⟩
  · rintro ⟨h, hsupported⟩
    induction h with
    | simple license => exact .simple (license.accepted hsupported.adjacent)
    | withException => exact absurd (by simp) hsupported.no_with
    | and _ _ ihl ihr =>
      obtain ⟨hl, hr, hlast⟩ := (supported_operator (.inl rfl)).mp hsupported
      exact (ihl hl).append (ihr hr) (.inl rfl) hlast
    | or _ _ ihl ihr =>
      obtain ⟨hl, hr, hlast⟩ := (supported_operator (.inr rfl)).mp hsupported
      exact (ihl hl).append (ihr hr) (.inr rfl) hlast
    | group _ ih => exact .group (ih (supported_group.mp hsupported))

end Bpt.Project
