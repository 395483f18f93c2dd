-- SUMMARY: The parser of license expressions accepts what the grammar derives, when that is supported.
import Bpt.Project.SpdxGrammar

/-!
# What the parser of license expressions accepts

A view that is left over stands for the tokens that are left over, except after an
exception: what is left there begins inside the exception's identifier.
-/

namespace Bpt.Project

open SpdxToken

/-! ## Tokens of a view -/

namespace SpdxToken

theorem tokens_of_next_word {sv word : List Char} {c : Char} {cs : List Char}
    (hword : word = c :: cs) (hc : isIdstringChar c = true) (h : nextToken sv = word) :
    ∃ rest, trimView sv = word ++ rest ∧ tokens sv = .word word :: lex [] true rest ∧
      ∀ d ∈ word, isIdstringChar d = true := by
  subst hword
  cases front sv with
  | done _ next => cases next.symm.trans h
  | symbol d _ _ paren next =>
    obtain ⟨rfl, -⟩ := List.cons.inj (next.symm.trans h)
    rcases paren with rfl | rfl <;> cases hc
  | plus _ _ next =>
    obtain ⟨rfl, -⟩ := List.cons.inj (next.symm.trans h)
    cases hc
  | other _ _ _ next => cases next.symm.trans h
  | word word rest trim _ chars _ next htokens =>
    obtain rfl := next.symm.trans h
    exact ⟨rest, trim, htokens, chars⟩

theorem tokens_of_next_symbol {sv : List Char} {c : Char} (hc : isIdstringChar c = false)
    (h : nextToken sv = [c]) :
    ∃ t ts, tokens sv = t :: ts ∧ (c = '(' ∧ t = .opening ∨ c = ')' ∧ t = .closing ∨
      c = '+' ∧ t = .plus false) := by
  cases front sv with
  | done _ next => cases next.symm.trans h
  | symbol d _ _ paren next htokens =>
    obtain ⟨rfl, -⟩ := List.cons.inj (next.symm.trans h)
    refine ⟨_, _, htokens, ?_⟩
    rcases paren with rfl | rfl
    · exact .inl ⟨rfl, rfl⟩
    · exact .inr (.inl ⟨rfl, rfl⟩)
  | plus _ _ next htokens =>
    obtain ⟨rfl, -⟩ := List.cons.inj (next.symm.trans h)
    exact ⟨_, _, htokens, .inr (.inr ⟨rfl, rfl⟩)⟩
  | other _ _ _ next => cases next.symm.trans h
  | word word _ _ _ chars _ next =>
    obtain rfl := next.symm.trans h
    cases hc.symm.trans (chars c List.mem_cons_self)

theorem tokens_of_next_opening {sv : List Char} (h : nextToken sv = ['(']) :
    ∃ ts, tokens sv = .opening :: ts := by
  obtain ⟨t, ts, htokens, hc⟩ := tokens_of_next_symbol rfl h
  obtain rfl : t = .opening := by simpa using hc
  exact ⟨ts, htokens⟩

theorem tokens_of_next_closing {sv : List Char} (h : nextToken sv = [')']) :
    ∃ ts, tokens sv = .closing :: ts := by
  obtain ⟨t, ts, htokens, hc⟩ := tokens_of_next_symbol rfl h
  obtain rfl : t = .closing := by simpa using hc
  exact ⟨ts, htokens⟩

theorem tokens_of_next_plus {sv : List Char} (h : nextToken sv = ['+']) :
    ∃ ts, tokens sv = .plus false :: ts := by
  obtain ⟨t, ts, htokens, hc⟩ := tokens_of_next_symbol rfl h
  obtain rfl : t = .plus false := by simpa using hc
  exact ⟨ts, htokens⟩

/-- At the start of a view no plus sign directly follows a word. -/
theorem tokens_ne_plus (sv : List Char) (ts : List SpdxToken) : tokens sv ≠ .plus true :: ts := by
  intro h
  cases front sv with
  | done _ _ htokens => cases htokens.symm.trans h
  | symbol d _ _ paren _ htokens =>
    have heq := htokens.symm.trans h
    rcases paren with rfl | rfl <;> cases heq
  | plus _ _ _ htokens => cases htokens.symm.trans h
  | other _ _ _ _ htokens => cases htokens.symm.trans h
  | word _ _ _ _ _ _ _ htokens => cases htokens.symm.trans h

/-- A plus sign that is not right at the start is still there after the first character. -/
theorem next_drop_plus {sv : List Char} (h : nextToken sv = ['+']) (hsv : sv.head? ≠ some '+') :
    nextToken (sv.drop 1) = ['+'] := by
  cases sv with
  | nil => exact h
  | cons c cs =>
    by_cases hspace : Name.isSpace c = true
    · rw [List.drop_one, List.tail_cons, nextToken_eq, ← tokens_space hspace cs false, ← tokens,
        ← nextToken_eq, h]
    · exfalso
      have hsub : trimView (c :: cs) <+: c :: cs := by
        rw [trimView_eq, List.dropWhile_cons_of_neg hspace]
        exact List.rdropWhile_prefix Name.isSpace _
      cases front (c :: cs) with
      | done _ next => cases next.symm.trans h
      | symbol d _ _ paren next =>
        obtain ⟨rfl, -⟩ := List.cons.inj (next.symm.trans h)
        simp at paren
      | plus _ trim =>
        rw [trim, List.cons_prefix_cons] at hsub
        exact hsv (congrArg some hsub.1.symm)
      | other _ _ _ next => cases next.symm.trans h
      | word _ _ _ _ chars _ next =>
        obtain rfl := next.symm.trans h
        cases chars '+' List.mem_cons_self

theorem tokens_of_lex_true {sv : List Char} {ts : List SpdxToken} (h : lex [] true sv = ts)
    (hplus : ∀ more, ts ≠ .plus true :: more) : tokens sv = ts := by
  rcases lex_true sv with heq | ⟨cs, -, heq, -⟩
  · exact heq.symm.trans h
  · exact absurd (h.symm.trans heq) (hplus _)

end SpdxToken

/-! ## Licenses -/

theorem findWithId_license {id found : String} :
    findWithId allLicenses id = some found ↔ found = id ∧ id ∈ allLicenses :=
  findWithId_eq_some sorted_allLicenses

theorem SimpleExpression.parse_of_reads {expr : SimpleExpression} {ts rest : List SpdxToken}
    (h : ReadsLicense expr ts) {sv : List Char} (htokens : tokens sv = ts ++ rest)
    (hrest : ∀ d more, rest ≠ .plus d :: more) :
    ∃ sv', SimpleExpression.parse sv = .ok (expr, sv') ∧ tokens sv' = rest := by
  unfold SimpleExpression.parse
  cases h with
  | @id word listed chars =>
    have hnext : nextToken (trimView sv) = word := by
      rw [nextToken_eq, tokens_trimView, htokens]
      rfl
    have hleft := tokens_of_lex_true (lex_drop_word htokens) (hrest true)
    dsimp only
    rw [hnext, findWithId_license.mpr ⟨rfl, listed⟩]
    dsimp only
    rw [if_neg]
    · exact ⟨_, rfl, hleft⟩
    · intro hplus
      obtain ⟨more, hmore⟩ := tokens_of_next_plus hplus
      exact hrest _ _ (hleft.symm.trans hmore)
  | @plus word listed chars =>
    have hnext : nextToken (trimView sv) = word := by
      rw [nextToken_eq, tokens_trimView, htokens]
      rfl
    dsimp only
    rw [hnext, findWithId_license.mpr ⟨rfl, listed⟩]
    dsimp only
    have hleft := lex_drop_word htokens
    rcases lex_true ((trimView sv).drop word.length) with heq | ⟨cs, hcs, heq, hplus⟩
    · exact absurd (heq.symm.trans hleft) (tokens_ne_plus _ _)
    · rw [if_pos (by rw [nextToken_eq, hplus]; rfl), hcs]
      refine ⟨_, rfl, tokens_of_lex_true ?_ (hrest true)⟩
      exact (List.cons.inj (heq.symm.trans hleft)).2

/-- What is left begins with a plus sign, or a license was read that none follows. -/
theorem SimpleExpression.of_parse {sv sv' : List Char} {expr : SimpleExpression}
    (h : SimpleExpression.parse sv = .ok (expr, sv')) :
    nextToken sv' = ['+'] ∨ ∃ ts, ReadsLicense expr ts ∧ tokens sv = ts ++ tokens sv' := by
  unfold SimpleExpression.parse at h
  dsimp only at h
  split at h
  next => cases h
  next license hfind =>
    obtain ⟨rfl, hlisted⟩ := findWithId_license.mp hfind
    obtain ⟨c, cs, hword, hc⟩ := ne_nil_of_license hlisted
    obtain ⟨_, -, htokens, hchars⟩ := tokens_of_next_word hword hc rfl
    rw [tokens_trimView] at htokens
    have hleft := lex_drop_word htokens
    generalize (trimView sv).drop (nextToken (trimView sv)).length = left at h hleft
    split at h
    next hplus =>
      obtain ⟨rfl, rfl⟩ := Prod.mk.inj (Except.ok.inj h)
      rcases lex_true left with heq | ⟨after, rfl, heq, -⟩
      · refine .inl (next_drop_plus hplus fun hhead => ?_)
        obtain ⟨after, rfl⟩ := List.head?_eq_some_iff.mp hhead
        exact tokens_ne_plus _ _ heq.symm
      · rcases lex_true after with hafter | ⟨_, rfl, -, htokens'⟩
        · refine .inr ⟨_, .plus hlisted hchars, ?_⟩
          rw [htokens, ← hleft, heq, hafter]
          rfl
        · refine .inl ?_
          rw [List.drop_one, List.tail_cons, nextToken_eq, htokens']
          rfl
    next hplus =>
      obtain ⟨rfl, rfl⟩ := Prod.mk.inj (Except.ok.inj h)
      refine .inr ⟨_, .id hlisted hchars, ?_⟩
      rw [htokens, tokens_of_lex_true hleft]
      · rfl
      · intro more hmore
        rcases lex_true left with heq | ⟨_, _, _, hnext⟩
        · exact tokens_ne_plus _ _ (heq.symm.trans (hleft.trans hmore))
        · exact hplus (by rw [nextToken_eq, hnext]; rfl)

/-! ## Exceptions -/

/-- What is left can neither be read on nor end a group. -/
structure Stuck (sv : List Char) : Prop where
  ne_nil : tokens sv ≠ []
  ne_closing : nextToken sv ≠ [')']

theorem stuck_of_next {sv tok : List Char} (h : nextToken sv = tok) (hnil : tok ≠ [])
    (hclosing : tok ≠ [')']) : Stuck sv := by
  refine ⟨fun htokens => hnil ?_, h ▸ hclosing⟩
  rw [← h, nextToken_eq, htokens]
  rfl

/-- A text that goes on with a word begins with a word. -/
theorem lex_starts_word {word : List Char} (hword : word ≠ []) (direct : Bool) (sv : List Char) :
    ∃ more ts, lex word direct sv = .word (word ++ more) :: ts := by
  induction sv generalizing word direct with
  | nil => exact ⟨[], [], by simp [lex, ofWord, hword]⟩
  | cons c cs ih =>
    by_cases hid : isIdstringChar c = true
    · obtain ⟨more, ts, hmore⟩ := @ih (word ++ [c]) (by simp) true
      refine ⟨c :: more, ts, ?_⟩
      rw [lex, if_pos hid, hmore, List.append_assoc]
      rfl
    · rw [lex, if_neg hid, ofWord, if_neg hword]
      exact ⟨[], _, by rw [List.append_nil]; rfl⟩

theorem stuck_of_blanks {spaces : List Char} (hspaces : ∀ c ∈ spaces, Name.isSpace c = true)
    {c : Char} (hc : isIdstringChar c = true) (cs : List Char) : Stuck (spaces ++ c :: cs) := by
  induction spaces with
  | nil =>
    obtain ⟨more, ts, htokens⟩ := lex_starts_word (List.cons_ne_nil c []) true cs
    have hlex : tokens (c :: cs) = lex [c] true cs := if_pos hc
    rw [htokens] at hlex
    rw [List.nil_append]
    refine ⟨hlex ▸ List.cons_ne_nil _ _, ?_⟩
    rw [nextToken_eq, hlex, nextOf]
    intro h
    obtain ⟨rfl, -⟩ := List.cons.inj h
    cases hc
  | cons d spaces ih =>
    have hd := hspaces d List.mem_cons_self
    obtain ⟨hnil, hclosing⟩ := ih fun e he => hspaces e (List.mem_cons_of_mem d he)
    have htokens : tokens (d :: (spaces ++ c :: cs)) = tokens (spaces ++ c :: cs) :=
      tokens_space hd _ false
    rw [nextToken_eq] at hclosing
    refine ⟨?_, ?_⟩
    · rwa [List.cons_append, htokens]
    · rwa [List.cons_append, nextToken_eq, htokens]

/-- Taking the length of a word off a view that begins with blanks leaves a part of
the word. -/
theorem stuck_drop_word {sv word : List Char} {c : Char} {cs : List Char} (hword : word = c :: cs)
    (hc : isIdstringChar c = true) (hnext : nextToken sv = word)
    (hblank : ∀ d ∈ sv.head?, isIdstringChar d = false) : Stuck (sv.drop word.length) := by
  obtain ⟨rest, hrest, hchars⟩ : ∃ rest, sv.dropWhile Name.isSpace = word ++ rest ∧
      ∀ d ∈ word, isIdstringChar d = true := by
    obtain ⟨after, htrim, -, hchars⟩ := tokens_of_next_word hword hc hnext
    rw [trimView_eq] at htrim
    obtain ⟨rest, hrest⟩ := (List.prefix_append word after).trans
      (htrim ▸ List.rdropWhile_prefix Name.isSpace _)
    exact ⟨rest, hrest.symm, hchars⟩
  have hspaces : ∀ d ∈ sv.takeWhile Name.isSpace, Name.isSpace d = true :=
    fun _ hd => List.mem_takeWhile_imp hd
  have hsv : sv = sv.takeWhile Name.isSpace ++ (word ++ rest) := by
    rw [← hrest, List.takeWhile_append_dropWhile]
  generalize sv.takeWhile Name.isSpace = spaces at hspaces hsv
  subst hsv
  have hpos : 0 < spaces.length := by
    rw [List.length_pos_iff]
    rintro rfl
    subst hword
    cases hc.symm.trans (hblank c rfl)
  rw [← List.append_assoc, List.drop_append_of_le_length (by simp), List.drop_append]
  cases hleft : word.drop (word.length - spaces.length) with
  | nil =>
    rw [List.drop_eq_nil_iff] at hleft
    have hlength : 0 < word.length := hword ▸ Nat.succ_pos _
    omega
  | cons d ds =>
    have hd : d ∈ word := List.mem_of_mem_drop (hleft ▸ List.mem_cons_self)
    rw [List.append_assoc, List.cons_append]
    exact stuck_of_blanks (fun e he => hspaces e (List.mem_of_mem_drop he)) (hchars d hd) _

/-! ## Expressions -/

theorem nextToken_trimView (sv : List Char) : nextToken (trimView sv) = nextToken sv := by
  unfold nextToken
  rw [trimView_trimView]

theorem AcceptedLicense.starts_word {ts : List SpdxToken} (h : AcceptedLicense ts) :
    ∃ c cs more, ts = .word (c :: cs) :: more ∧ isIdstringChar c = true := by
  cases h with
  | id listed =>
    obtain ⟨c, cs, rfl, hc⟩ := ne_nil_of_license listed
    exact ⟨c, cs, _, rfl, hc⟩
  | plus listed =>
    obtain ⟨c, cs, rfl, hc⟩ := ne_nil_of_license listed
    exact ⟨c, cs, _, rfl, hc⟩

theorem AcceptedExpr.ne_plus {ts : List SpdxToken} (h : AcceptedExpr ts) (direct : Bool)
    (more rest : List SpdxToken) : ts ++ more ≠ .plus direct :: rest := by
  have hlicense {left : List SpdxToken} (hleft : AcceptedLicense left) (after : List SpdxToken) :
      left ++ after ≠ .plus direct :: rest := by
    obtain ⟨_, _, _, rfl, -⟩ := hleft.starts_word
    exact fun heq => by cases heq
  cases h with
  | simple license => exact hlicense license more
  | and license => exact List.append_assoc _ _ more ▸ hlicense license _
  | or license => exact List.append_assoc _ _ more ▸ hlicense license _
  | group => exact fun heq => by cases heq

namespace CompoundExpression

/-- What is read when a word comes after a license and an expression after the word. -/
theorem of_operator {sv left rest word : List Char} {license : SimpleExpression} {c : Char}
    {cs : List Char} (hword : word = c :: cs) (hc : isIdstringChar c = true)
    (hsimple : SimpleExpression.parse (trimView sv) = .ok (license, left))
    (hnext : nextToken (trimView left) = word) {rhs : CompoundExpression}
    (hexpr : ∃ ts, ReadsExpr rhs ts ∧
      tokens ((trimView left).drop word.length) = ts ++ tokens rest) :
    ∃ ls ts, ReadsLicense license ls ∧ ReadsExpr rhs ts ∧
      tokens sv = (ls ++ .word word :: ts) ++ tokens rest := by
  obtain ⟨ts, hts, hdrop⟩ := hexpr
  obtain ⟨after, htrim, htokens, -⟩ := tokens_of_next_word hword hc hnext
  rw [trimView_trimView] at htrim
  rw [tokens_trimView] at htokens
  rw [htrim, List.drop_left] at hdrop
  have hafter : lex [] true after = ts ++ tokens rest := by
    rcases lex_true after with heq | ⟨_, -, -, hplus⟩
    · rw [heq, hdrop]
    · exact absurd (hdrop.symm.trans hplus) (hts.accepted.ne_plus _ _ _)
  rcases SimpleExpression.of_parse hsimple with hplus | ⟨ls, hls, hlicense⟩
  · rw [nextToken_trimView, hplus] at hnext
    obtain ⟨rfl, -⟩ := List.cons.inj (hnext.trans hword)
    cases hc
  · refine ⟨ls, ts, hls, hts, ?_⟩
    rw [tokens_trimView, htokens, hafter] at hlicense
    rw [hlicense, List.append_assoc, List.cons_append]

/-- What is left after an exception is stuck. -/
theorem stuck_exception {sv : List Char} {exception : String}
    (hnext : nextToken (trimView sv) = ['W', 'I', 'T', 'H'])
    (hfind : findWithId allExceptions (String.ofList (nextToken ((trimView sv).drop 4))) =
      some exception) :
    Stuck (((trimView sv).drop 4).drop (nextToken ((trimView sv).drop 4)).length) := by
  have hid := idText_of_exception ((findWithId_eq_some sorted_allExceptions).mp hfind).2
  have hblank : ∀ d ∈ ((trimView sv).drop 4).head?, isIdstringChar d = false := by
    cases front (trimView sv) with
    | done _ next => cases next.symm.trans hnext
    | symbol _ _ _ _ next => cases next.symm.trans hnext
    | plus _ _ next => cases next.symm.trans hnext
    | other _ _ _ next => cases next.symm.trans hnext
    | word word rest trim _ _ ends next =>
      obtain rfl := next.symm.trans hnext
      rw [trimView_trimView] at trim
      rwa [trim]
  cases hword : nextToken ((trimView sv).drop 4) with
  | nil => exact absurd (by rw [hword]) hid.ne_empty
  | cons c cs =>
    have hc : isIdstringChar c = true := hid.chars c (by rw [hword]; simp)
    exact stuck_drop_word rfl hc hword hblank

/-- What is left is stuck, or an accepted expression was read as its tree. -/
theorem of_parse {sv rest : List Char} {expr : CompoundExpression}
    (h : CompoundExpression.parse sv = .ok (expr, rest)) :
    Stuck rest ∨ ∃ ts, ReadsExpr expr ts ∧ tokens sv = ts ++ tokens rest := by
  fun_induction CompoundExpression.parse sv generalizing expr rest with
  | case1 => cases h
  | case2 => cases h
  | case3 sv hopen inner left hinner hclosing ih =>
    obtain ⟨rfl, rfl⟩ := Prod.mk.inj (Except.ok.inj h)
    rw [not_not, nextToken_trimView] at hclosing
    rw [nextToken_trimView] at hopen
    obtain ⟨us, hus⟩ := tokens_of_next_opening hopen
    obtain ⟨vs, hvs⟩ := tokens_of_next_closing hclosing
    rcases ih hinner with hstuck | ⟨ts, hts, hdrop⟩
    · exact absurd hclosing hstuck.ne_closing
    · refine .inr ⟨_, .group hts, ?_⟩
      rw [tokens_drop_symbol hus (.inl rfl), hvs] at hdrop
      rw [tokens_drop_symbol hvs (.inr rfl), hus, hdrop, List.cons_append, List.cons_append,
        List.append_assoc]
      rfl
  | case4 => cases h
  | case5 => cases h
  | case6 sv _ license left hsimple hor rhs after hrhs ih =>
    obtain ⟨rfl, rfl⟩ := Prod.mk.inj (Except.ok.inj h)
    refine (ih hrhs).imp_right fun hexpr => ?_
    obtain ⟨ls, ts, hls, hts, htokens⟩ := of_operator rfl rfl hsimple hor hexpr
    exact ⟨_, .or hls hts, htokens⟩
  | case7 => cases h
  | case8 sv _ license left hsimple _ hand rhs after hrhs ih =>
    obtain ⟨rfl, rfl⟩ := Prod.mk.inj (Except.ok.inj h)
    refine (ih hrhs).imp_right fun hexpr => ?_
    obtain ⟨ls, ts, hls, hts, htokens⟩ := of_operator rfl rfl hsimple hand hexpr
    exact ⟨_, .and hls hts, htokens⟩
  | case9 => cases h
  | case10 sv _ license left _ _ _ hwith =>
    rename_i exception hfind
    obtain ⟨rfl, rfl⟩ := Prod.mk.inj (Except.ok.inj h)
    exact .inl (stuck_exception hwith hfind)
  | case11 sv _ license left hsimple =>
    obtain ⟨rfl, rfl⟩ := Prod.mk.inj (Except.ok.inj h)
    rcases SimpleExpression.of_parse hsimple with hplus | ⟨ls, hls, hlicense⟩
    · refine .inl (stuck_of_next ((nextToken_trimView left).trans hplus) ?_ ?_)
      · exact List.cons_ne_nil _ _
      · decide
    · rw [tokens_trimView] at hlicense
      exact .inr ⟨ls, .simple hls, by rw [hlicense, tokens_trimView]⟩

/-! ## Everything accepted is read -/

theorem ends_ne_plus {rest : List SpdxToken} (h : nextOf rest = [] ∨ nextOf rest = [')'])
    (direct : Bool) (more : List SpdxToken) : rest ≠ .plus direct :: more := by
  rintro rfl
  rcases h with h | h <;> cases h

theorem parse_license {expr : SimpleExpression} {ls rest : List SpdxToken}
    (h : ReadsLicense expr ls) {sv : List Char} (htokens : tokens sv = ls ++ rest)
    (hrest : ∀ direct more, rest ≠ .plus direct :: more) :
    nextToken (trimView sv) ≠ ['('] ∧ ∃ left,
      SimpleExpression.parse (trimView sv) = .ok (expr, left) ∧ tokens left = rest := by
  refine ⟨?_, SimpleExpression.parse_of_reads h ((tokens_trimView sv).trans htokens) hrest⟩
  obtain ⟨c, cs, more, rfl, hc⟩ := h.accepted.starts_word
  rw [nextToken_trimView, nextToken_eq, htokens]
  intro hopen
  obtain ⟨rfl, -⟩ := List.cons.inj hopen
  cases hc

/-- What is left after an operator. -/
theorem tokens_drop_operator {left word : List Char} {ts rest : List SpdxToken}
    (hts : AcceptedExpr ts) (hleft : tokens left = .word word :: (ts ++ rest)) :
    nextToken (trimView left) = word ∧ tokens ((trimView left).drop word.length) = ts ++ rest := by
  refine ⟨?_, tokens_of_lex_true (lex_drop_word hleft) (hts.ne_plus true rest)⟩
  rw [nextToken_trimView, nextToken_eq, hleft]
  rfl

/-- How the parser goes on after a license. -/
theorem parse_after_license {sv left : List Char} {license : SimpleExpression}
    (hopen : nextToken (trimView sv) ≠ ['('])
    (hparse : SimpleExpression.parse (trimView sv) = .ok (license, left)) :
    CompoundExpression.parse sv =
      if nextToken (trimView left) = ['O', 'R'] then
        match CompoundExpression.parse ((trimView left).drop 2) with
        | .error err => .error err
        | .ok (rhs, sv) => .ok (.orLicense (.simple license) rhs, sv)
      else if nextToken (trimView left) = ['A', 'N', 'D'] then
        match CompoundExpression.parse ((trimView left).drop 3) with
        | .error err => .error err
        | .ok (rhs, sv) => .ok (.andLicense (.simple license) rhs, sv)
      else if nextToken (trimView left) = ['W', 'I', 'T', 'H'] then
        let sv := (trimView left).drop 4
        let excId := nextToken sv
        match findWithId allExceptions (String.ofList excId) with
        | none => .error ("No such SPDX license exception '" ++ String.ofList excId ++ "'")
        | some exception => .ok (.withException license exception, sv.drop excId.length)
      else .ok (.simple license, trimView left) := by
  rw [CompoundExpression.parse, dif_neg hopen]
  split
  next err herr => cases herr.symm.trans hparse
  next license' left' hok =>
    obtain ⟨rfl, rfl⟩ := Prod.mk.inj (Except.ok.inj (hok.symm.trans hparse))
    rfl

theorem parse_of_reads {expr : CompoundExpression} {ts rest : List SpdxToken}
    (h : ReadsExpr expr ts) {sv : List Char} (htokens : tokens sv = ts ++ rest)
    (hrest : nextOf rest = [] ∨ nextOf rest = [')']) :
    ∃ sv', CompoundExpression.parse sv = .ok (expr, sv') ∧ tokens sv' = rest := by
  induction h generalizing sv rest with
  | simple license =>
    obtain ⟨hopen, left, hparse, hleft⟩ := parse_license license htokens (ends_ne_plus hrest)
    have hend : nextToken (trimView left) = nextOf rest := by
      rw [nextToken_trimView, nextToken_eq, hleft]
    rw [parse_after_license hopen hparse, hend, if_neg, if_neg, if_neg]
    · exact ⟨_, rfl, (tokens_trimView _).trans hleft⟩
    all_goals rcases hrest with hrest | hrest <;> rw [hrest] <;> decide
  | and license hright ih =>
    rw [List.append_assoc, List.cons_append] at htokens
    obtain ⟨hopen, left, hparse, hleft⟩ := parse_license license htokens (by simp [andToken])
    obtain ⟨hand, hdrop⟩ := tokens_drop_operator hright.accepted hleft
    obtain ⟨sv', hrhs, hsv'⟩ := ih hdrop hrest
    rw [List.length_cons, List.length_cons, List.length_singleton] at hrhs
    rw [parse_after_license hopen hparse, if_neg (by rw [hand]; decide), if_pos hand, hrhs]
    exact ⟨_, rfl, hsv'⟩
  | or license hright ih =>
    rw [List.append_assoc, List.cons_append] at htokens
    obtain ⟨hopen, left, hparse, hleft⟩ := parse_license license htokens (by simp [orToken])
    obtain ⟨hor, hdrop⟩ := tokens_drop_operator hright.accepted hleft
    obtain ⟨sv', hrhs, hsv'⟩ := ih hdrop hrest
    rw [List.length_cons, List.length_singleton] at hrhs
    rw [parse_after_license hopen hparse, if_pos hor, hrhs]
    exact ⟨_, rfl, hsv'⟩
  | @group expr ts hts ih =>
    have hopen : nextToken (trimView sv) = ['('] := by
      rw [nextToken_trimView, nextToken_eq, htokens]
      rfl
    have hdrop : tokens ((trimView sv).drop 1) = ts ++ .closing :: rest := by
      refine tokens_drop_symbol (htokens.trans ?_) (.inl rfl)
      simp
    obtain ⟨left, hinner, hleft⟩ := ih hdrop (.inr rfl)
    have hclosing : nextToken (trimView left) = [')'] := by
      rw [nextToken_trimView, nextToken_eq, hleft]
      rfl
    rw [CompoundExpression.parse, dif_pos hopen, hinner]
    dsimp only
    rw [if_neg (not_not.mpr hclosing)]
    exact ⟨_, rfl, tokens_drop_symbol hleft (.inr rfl)⟩

end CompoundExpression

/-! ## The whole string -/

namespace SpdxLicenseExpression

/-- A string is read as the tree of its tokens. -/
theorem parse_eq_ok {sv : String} {license : SpdxLicenseExpression} :
    parse sv = .ok license ↔ ReadsExpr license.expr (tokens sv.toList) := by
  constructor
  · intro h
    unfold parse at h
    split at h
    next => cases h
    next expr rest hparse =>
      split at h
      next => cases h
      next hrest =>
        cases h
        rw [not_not, trimView_eq_nil_iff] at hrest
        rcases CompoundExpression.of_parse hparse with hstuck | ⟨ts, hts, htokens⟩
        · exact absurd hrest hstuck.ne_nil
        · rwa [htokens, hrest, List.append_nil]
  · intro h
    obtain ⟨rest, hparse, hrest⟩ :=
      CompoundExpression.parse_of_reads h (List.append_nil _).symm (.inl rfl)
    unfold parse
    rw [hparse]
    exact if_neg (not_not.mpr ((trimView_eq_nil_iff rest).mpr hrest))

/-- A string is accepted when its tokens are an accepted expression. -/
theorem parse_iff_accepted (sv : String) :
    (∃ license, parse sv = .ok license) ↔ AcceptedExpr (tokens sv.toList) := by
  constructor
  · rintro ⟨license, h⟩
    exact (parse_eq_ok.mp h).accepted
  · intro h
    obtain ⟨expr, hexpr⟩ := h.exists_reads
    exact ⟨⟨expr⟩, parse_eq_ok.mpr hexpr⟩

/-- The parser agrees with the grammar on exactly the strings that, when derivable,
are supported. -/
theorem parse_iff_derivable_iff (sv : String) :
    ((∃ license, parse sv = .ok license) ↔ LicenseExpr (tokens sv.toList)) ↔
      (LicenseExpr (tokens sv.toList) → Supported (tokens sv.toList)) := by
  rw [parse_iff_accepted, acceptedExpr_iff]
  tauto

/-- An operator after a group and an exception are in the grammar only. -/
theorem not_parse_group_and :
    ¬ ((∃ license, parse "(MIT) AND MIT" = .ok license) ↔
      LicenseExpr (tokens "(MIT) AND MIT".toList)) ∧
    ¬ ((∃ license, parse "MIT WITH LLVM-exception" = .ok license) ↔
      LicenseExpr (tokens "MIT WITH LLVM-exception".toList)) := by
  have hlisted : "MIT" ∈ allLicenses := by decide +kernel
  have hexception : "LLVM-exception" ∈ allExceptions := by decide +kernel
  have hmit : LicenseExpr [.word "MIT".toList] := .simple (.id hlisted)
  have hgroup : tokens "(MIT) AND MIT".toList =
      (.opening :: [.word "MIT".toList] ++ [.closing]) ++ andToken :: [.word "MIT".toList] := by
    decide
  have hwith : tokens "MIT WITH LLVM-exception".toList =
      [.word "MIT".toList] ++ withToken :: tokens "LLVM-exception".toList := by
    decide
  rw [parse_iff_accepted, parse_iff_accepted, acceptedExpr_iff, acceptedExpr_iff, hgroup, hwith]
  refine ⟨fun h => ?_, fun h => ?_⟩
  · obtain ⟨-, -, hadjacent⟩ := h.mpr (.and (.group hmit) hmit)
    simp [MayPrecede] at hadjacent
  · obtain ⟨-, hnone, -⟩ := h.mpr (.withException (.id hlisted) hexception)
    exact hnone (by simp)

end SpdxLicenseExpression

end Bpt.Project
