-- SUMMARY: Parsing and printing of SPDX license expressions.
import Bpt.Project.Manifest
import Bpt.Project.SpdxTable
import Bpt.Util.String

/-!
# SPDX license expressions

The parsers take a view of the text and leave what they have not read. A view is
trimmed before a token is looked at, but not always before it is removed.
-/

namespace Bpt.Project

/-! ## Expressions -/

inductive SimpleExpression where
  | justLicenseId (license : String)
  | licenseIdPlus (license : String)

inductive CompoundExpression where
  | simple (expr : SimpleExpression)
  | andLicense (left right : CompoundExpression)
  | orLicense (left right : CompoundExpression)
  | parenGrouped (expr : CompoundExpression)
  | withException (license : SimpleExpression) (exception : String)

structure SpdxLicenseExpression where
  expr : CompoundExpression

/-! ## Parsing -/

def nextToken (sv : List Char) : List Char :=
  match trimView sv with
  | [] => []
  | c :: cs =>
    if c = '(' ∨ c = ')' ∨ c = '+' then [c] else (c :: cs).takeWhile isIdstringChar

def SimpleExpression.parse (sv : List Char) : Except String (SimpleExpression × List Char) :=
  let sv := trimView sv
  let tok := nextToken sv
  match findWithId allLicenses (String.ofList tok) with
  | none => .error ("No such SPDX license '" ++ String.ofList tok ++ "'")
  | some license =>
    let sv := sv.drop tok.length
    if nextToken sv = ['+'] then .ok (.licenseIdPlus license, sv.drop 1)
    else .ok (.justLicenseId license, sv)

theorem length_trimView_le (sv : List Char) : (trimView sv).length ≤ sv.length := by
  unfold trimView
  rw [List.length_reverse]
  refine (List.length_dropWhile_le _ _).trans ?_
  rw [List.length_reverse]
  exact List.length_dropWhile_le _ _

theorem length_nextToken_le (sv : List Char) : (nextToken sv).length ≤ (trimView sv).length := by
  unfold nextToken
  split
  next hnil => rw [hnil]
  next c cs hcons =>
    rw [hcons]
    split
    · simp
    · exact (List.takeWhile_sublist _).length_le

theorem SimpleExpression.length_parse_le {sv rest : List Char} {expr : SimpleExpression}
    (h : parse sv = .ok (expr, rest)) : rest.length ≤ sv.length := by
  have htrim := length_trimView_le sv
  unfold parse at h
  dsimp only at h
  split at h
  next => cases h
  next =>
    split at h
    all_goals
      obtain ⟨-, rfl⟩ := Prod.mk.inj (Except.ok.inj h)
      simp only [List.length_drop]
      omega

/-- What is left after a token is shorter than the view. -/
theorem length_drop_lt {sv rest tok : List Char} (hle : rest.length ≤ sv.length) (htok : tok ≠ [])
    (hnext : nextToken (trimView rest) = tok) :
    ((trimView rest).drop tok.length).length < sv.length := by
  have htrim := length_trimView_le rest
  have htrim' := length_trimView_le (trimView rest)
  have hlen := length_nextToken_le (trimView rest)
  have hpos := List.length_pos_iff.mpr htok
  rw [hnext] at hlen
  rw [List.length_drop]
  omega

namespace CompoundExpression

def parse (sv : List Char) : Except String (CompoundExpression × List Char) :=
  if _hopen : nextToken (trimView sv) = ['('] then
    match parse ((trimView sv).drop 1) with
    | .error err => .error err
    | .ok (inner, sv) =>
      if nextToken (trimView sv) ≠ [')'] then .error "Missing closing parenthesis"
      else .ok (.parenGrouped inner, (trimView sv).drop 1)
  else
    match _hsimple : SimpleExpression.parse (trimView sv) with
    | .error err => .error err
    | .ok (license, sv) =>
      if _hor : nextToken (trimView sv) = ['O', 'R'] then
        match parse ((trimView sv).drop 2) with
        | .error err => .error err
        | .ok (rhs, sv) => .ok (.orLicense (.simple license) rhs, sv)
      else if _hand : nextToken (trimView sv) = ['A', 'N', 'D'] then
        match parse ((trimView sv).drop 3) with
        | .error err => .error err
        | .ok (rhs, sv) => .ok (.andLicense (.simple license) rhs, sv)
      else if nextToken (trimView sv) = ['W', 'I', 'T', 'H'] then
        let sv := (trimView sv).drop 4
        let excId := nextToken sv
        match findWithId allExceptions (String.ofList excId) with
        | none => .error ("No such SPDX license exception '" ++ String.ofList excId ++ "'")
        -- the blanks before the exception are still in the view
        | some exception => .ok (.withException license exception, sv.drop excId.length)
      else .ok (.simple license, trimView sv)
termination_by sv.length
decreasing_by
  · exact length_drop_lt le_rfl (List.cons_ne_nil _ _) _hopen
  · exact length_drop_lt ((SimpleExpression.length_parse_le _hsimple).trans (length_trimView_le _))
      (List.cons_ne_nil _ _) _hor
  · exact length_drop_lt ((SimpleExpression.length_parse_le _hsimple).trans (length_trimView_le _))
      (List.cons_ne_nil _ _) _hand

end CompoundExpression

/-! ## Printing -/

def SimpleExpression.str : SimpleExpression → String
  | .justLicenseId license => license
  | .licenseIdPlus license => license ++ "+"

def CompoundExpression.str : CompoundExpression → String
  | .simple expr => expr.str
  | .andLicense left right => left.str ++ " AND " ++ right.str
  | .orLicense left right => left.str ++ " OR " ++ right.str
  | .parenGrouped expr => "(" ++ expr.str ++ ")"
  | .withException license exception => license.str ++ " WITH " ++ exception

namespace SpdxLicenseExpression

def parse (sv : String) : Except String SpdxLicenseExpression :=
  match CompoundExpression.parse sv.toList with
  | .error err => .error err
  | .ok (expr, rest) =>
    if trimView rest ≠ [] then
      .error ("Unknown trailing string content '" ++ String.ofList rest ++ "'")
    else .ok ⟨expr⟩

instance : SpdxLicense SpdxLicenseExpression where
  parse := parse
  toStr license := license.expr.str

end SpdxLicenseExpression

end Bpt.Project
