-- SUMMARY: The grammar of shorthand dependency strings, and that the reader accepts exactly its strings.
import Bpt.Project.Valid

/-!
# Shorthand dependencies

A shorthand is a name, an operator and a version, and then perhaps `using` and
the names of libraries. The reader goes from token to token: a comma, or
characters up to a blank or a comma.
-/

namespace Bpt.Project.ProjectDependency

open Fallible

/-! ## Tokens -/

/-- Only whitespace. -/
def Blank (cs : List Char) : Prop := ∀ c ∈ cs, Name.isSpace c = true

/-- A character that a blank or a comma does not end. -/
def isWordChar (c : Char) : Bool := !Name.isSpace c && c ≠ ','

def Word (cs : List Char) : Prop := ∀ c ∈ cs, isWordChar c = true

/-- What comes next does not go on with a word. -/
def EndsWord (rest : List Char) : Prop := ∀ c ∈ rest.head?, isWordChar c = false

/-- The next token of a text, and what follows it. -/
inductive Advances : List Char → List Char → List Char → Prop where
  | done {blank} : Blank blank → Advances blank [] []
  | comma {blank rest} : Blank blank → Advances (blank ++ ',' :: rest) [','] rest
  | word {blank tok rest} : Blank blank → tok ≠ [] → Word tok → EndsWord rest →
      Advances (blank ++ (tok ++ rest)) tok rest

theorem Blank.dropWhile_append {blank : List Char} (h : Blank blank) (rest : List Char) :
    (blank ++ rest).dropWhile Name.isSpace = rest.dropWhile Name.isSpace :=
  List.dropWhile_append_of_pos h

theorem Word.not_isSpace {tok : List Char} (h : Word tok) {c : Char} (hc : c ∈ tok) :
    Name.isSpace c = false ∧ c ≠ ',' := by
  simpa [isWordChar] using h c hc

/-- Trailing whitespace is no part of a word. -/
theorem takeWhile_rdropWhile (cs : List Char) :
    (cs.rdropWhile Name.isSpace).takeWhile isWordChar = cs.takeWhile isWordChar := by
  induction cs using List.reverseRecOn with
  | nil => rfl
  | append_singleton cs c ih =>
      by_cases hc : Name.isSpace c = true
      · have hword : isWordChar c = false := by simp [isWordChar, hc]
        rw [List.rdropWhile_concat_pos _ _ _ hc, ih, List.takeWhile_append]
        split
        next hall =>
            have hcs : cs.takeWhile isWordChar = cs :=
              (List.takeWhile_sublist _).eq_of_length hall
            rw [hcs, List.takeWhile_cons_of_neg (by simp [hword]), List.append_nil]
        next => rfl
      · rw [List.rdropWhile_concat_neg _ _ _ hc]

/-- The token does not depend on the whitespace at the end. -/
theorem nextToken_eq (remain : List Char) :
    nextToken remain =
      match remain.dropWhile Name.isSpace with
      | [] => []
      | c :: cs => if c = ',' then [','] else (c :: cs).takeWhile isWordChar := by
  unfold nextToken
  rw [trimView_eq]
  cases hrest : remain.dropWhile Name.isSpace with
  | nil => rfl
  | cons c cs =>
      have hc : Name.isSpace c = false := by
        have := List.head?_dropWhile_not Name.isSpace remain
        rwa [hrest] at this
      have hkeep : (c :: cs).rdropWhile Name.isSpace = c :: cs.rdropWhile Name.isSpace :=
        rdropWhile_append_cons [] cs hc
      have htake := takeWhile_rdropWhile (c :: cs)
      rw [hkeep] at htake ⊢
      dsimp only
      split
      · rfl
      · exact htake

theorem advToken_of_advances {remain tok rest : List Char} (h : Advances remain tok rest) :
    advToken remain = (tok, rest) := by
  unfold advToken
  rw [nextToken_eq]
  cases h with
  | done hblank =>
      rw [List.dropWhile_eq_nil_iff.mpr hblank]
      rfl
  | comma hblank =>
      rw [hblank.dropWhile_append, List.dropWhile_cons_of_neg (by decide)]
      rfl
  | @word blank tok rest hblank hne hword hends =>
      obtain ⟨c, cs, rfl⟩ := List.exists_cons_of_ne_nil hne
      obtain ⟨hspace, hcomma⟩ := hword.not_isSpace List.mem_cons_self
      have htake : ((c :: cs) ++ rest).takeWhile isWordChar = c :: cs := by
        rw [List.takeWhile_append_of_pos hword]
        have hrest : rest.takeWhile isWordChar = [] := by
          cases rest with
          | nil => rfl
          | cons d rest => exact List.takeWhile_cons_of_neg (by simp [hends d rfl])
        rw [hrest, List.append_nil]
      rw [hblank.dropWhile_append, List.cons_append,
        List.dropWhile_cons_of_neg (by simp [hspace])]
      dsimp only
      rw [if_neg hcomma, ← List.cons_append, htake, List.drop_left]

theorem advances_advToken (remain : List Char) :
    Advances remain (advToken remain).1 (advToken remain).2 := by
  obtain ⟨blank, rest, rfl, hblank, hrest⟩ : ∃ blank rest, remain = blank ++ rest ∧ Blank blank ∧
      ∀ c ∈ rest.head?, Name.isSpace c = false := by
    refine ⟨_, _, (List.takeWhile_append_dropWhile (p := Name.isSpace)).symm, ?_, ?_⟩
    · exact fun c hc => List.mem_takeWhile_imp hc
    · intro c hc
      have := List.head?_dropWhile_not Name.isSpace remain
      rw [Option.mem_def] at hc
      rwa [hc] at this
  suffices h : ∃ tok after, Advances (blank ++ rest) tok after by
    obtain ⟨tok, after, h⟩ := h
    rw [advToken_of_advances h]
    exact h
  cases rest with
  | nil => exact ⟨[], [], by simpa using .done hblank⟩
  | cons c cs =>
      by_cases hcomma : c = ','
      · subst hcomma
        exact ⟨_, _, .comma hblank⟩
      · have hword : isWordChar c = true := by simp [isWordChar, hrest c rfl, hcomma]
        refine ⟨(c :: cs).takeWhile isWordChar, (c :: cs).dropWhile isWordChar, ?_⟩
        have hsplit := List.takeWhile_append_dropWhile (p := isWordChar) (l := c :: cs)
        have hne : (c :: cs).takeWhile isWordChar ≠ [] := by simp [hword]
        have hends : EndsWord ((c :: cs).dropWhile isWordChar) := by
          intro d hd
          have := List.head?_dropWhile_not isWordChar (c :: cs)
          rw [Option.mem_def] at hd
          rwa [hd] at this
        conv => arg 1; rw [← hsplit]
        exact .word hblank hne (fun d hd => List.mem_takeWhile_imp hd) hends

/-! ## The grammar -/

/-- Names with commas between them, and whitespace around the commas. -/
inductive UsesList : List Char → List Name → Prop where
  | last {name : Name} : name.Valid → UsesList name.str.toList [name]
  | cons {name : Name} {before after rest names} : name.Valid → Blank before → Blank after →
      UsesList rest names →
      UsesList (name.str.toList ++ (before ++ ',' :: (after ++ rest))) (name :: names)

variable {V S : Type} [Semver V] [VersionRangeSet S V] [SemverRange V]

/-- A name, an operator and a version, where `@` is another spelling of `^`. -/
inductive NameAndRange : List Char → ProjectDependency S → Prop where
  | mk {name : Name} {op : Char} {version : List Char} {low high : V} :
      name.Valid → op ∈ rangeOperators → Word version →
      SemverRange.parseRestricted (String.ofList ((if op = '@' then '^' else op) :: version)) =
        some (low, high) →
      NameAndRange (name.str.toList ++ op :: version) ⟨name, IntervalOps.ofInterval low high, none⟩

inductive Shorthand : List Char → ProjectDependency S → Prop where
  | plain {before spec after dep} : Blank before → NameAndRange spec dep → Blank after →
      Shorthand (before ++ (spec ++ after)) dep
  | withUses {before spec sep sep' list after} {dep : ProjectDependency S} {names} :
      Blank before → NameAndRange spec dep → Blank sep → sep ≠ [] → Blank sep' → sep' ≠ [] →
      UsesList list names → Blank after →
      Shorthand (before ++ (spec ++ (sep ++ ("using".toList ++ (sep' ++ (list ++ after))))))
        { dep with explicitUses := some names }

/-! ## The characters of a specifier -/

theorem isWordChar_of_isNameChar {c : Char} (h : Name.isNameChar c = true) :
    isWordChar c = true := by
  by_contra hword
  simp only [isWordChar, Name.isSpace, Bool.and_eq_true, Bool.not_eq_true', Bool.or_eq_false_iff,
    decide_eq_false_iff_not, decide_eq_true_iff] at hword
  have hone : c = ' ' ∨ c = '\t' ∨ c = '\n' ∨ c = '\x0b' ∨ c = '\x0c' ∨ c = '\r' ∨ c = ',' := by
    tauto
  rcases hone with rfl | rfl | rfl | rfl | rfl | rfl | rfl <;> exact absurd h (by decide)

theorem notMem_rangeOperators {c : Char} (h : Name.isNameChar c = true) : c ∉ rangeOperators := by
  intro hop
  simp only [rangeOperators, List.mem_cons, List.not_mem_nil, or_false] at hop
  rcases hop with rfl | rfl | rfl | rfl | rfl <;> exact absurd h (by decide)

theorem isWordChar_of_mem_rangeOperators {op : Char} (h : op ∈ rangeOperators) :
    isWordChar op = true := by
  simp only [rangeOperators, List.mem_cons, List.not_mem_nil, or_false] at h
  rcases h with rfl | rfl | rfl | rfl | rfl <;> rfl

theorem word_of_valid {name : Name} (h : name.Valid) : Word name.str.toList :=
  fun c hc => isWordChar_of_isNameChar ((Name.isNameChar_of_fromString h).2 c hc)

theorem ne_nil_of_valid {name : Name} (h : name.Valid) : name.str.toList ≠ [] :=
  (Name.isNameChar_of_fromString h).1

theorem NameAndRange.word {spec : List Char} {dep : ProjectDependency S}
    (h : NameAndRange spec dep) : spec ≠ [] ∧ Word spec := by
  obtain ⟨hname, hop, hversion, -⟩ := h
  refine ⟨by simp, fun c hc => ?_⟩
  rcases List.mem_append.mp hc with hc | hc
  · exact word_of_valid hname c hc
  · rcases List.mem_cons.mp hc with rfl | hc
    · exact isWordChar_of_mem_rangeOperators hop
    · exact hversion c hc

/-- The operator is the first character that no name has. -/
theorem parseDepRangeShorthand_eq_ok_iff {sv : List Char} {dep : ProjectDependency S}
    (hword : Word sv) : parseDepRangeShorthand sv = .ok dep ↔ NameAndRange sv dep := by
  constructor
  · intro h
    unfold parseDepRangeShorthand at h
    split at h
    · cases h
    next op version hrest =>
      obtain ⟨name, hname, h⟩ := bind_eq_ok.mp h
      obtain ⟨hvalid, hstr⟩ := nameFromString_eq_ok_iff.mp (lift_eq_ok.mp hname)
      have hop : op ∈ rangeOperators := by
        have := List.head?_dropWhile_not (fun c => decide (c ∉ rangeOperators)) sv
        rw [hrest] at this
        simpa using this
      have hsv : sv = name.str.toList ++ op :: version := by
        rw [hstr, String.toList_ofList, ← hrest, List.takeWhile_append_dropWhile]
      dsimp only at h
      cases hrange : (SemverRange.parseRestricted
          (String.ofList ((if op = '@' then '^' else op) :: version)) : Option (V × V)) with
      | none =>
          rw [hrange] at h
          cases h
      | some range =>
          rw [hrange] at h
          cases h
          rw [hsv]
          refine .mk hvalid hop (fun c hc => hword c ?_) hrange
          rw [hsv]
          exact List.mem_append_right _ (List.mem_cons_of_mem _ hc)
  · rintro ⟨hname, hop, hversion, hrange⟩
    rename_i name op version low high
    have hnotOp : ∀ c ∈ name.str.toList, decide (c ∉ rangeOperators) = true :=
      fun c hc => decide_eq_true (notMem_rangeOperators ((Name.isNameChar_of_fromString hname).2 c hc))
    have hstop : ¬ decide (op ∉ rangeOperators) = true := by simpa using hop
    have hdrop : (name.str.toList ++ op :: version).dropWhile (· ∉ rangeOperators) =
        op :: version := by
      rw [List.dropWhile_append_of_pos hnotOp]
      exact List.dropWhile_cons_of_neg hstop
    have htake : (name.str.toList ++ op :: version).takeWhile (· ∉ rangeOperators) =
        name.str.toList := by
      have hop' : (op :: version).takeWhile (· ∉ rangeOperators) = [] :=
        List.takeWhile_cons_of_neg hstop
      rw [List.takeWhile_append_of_pos hnotOp, hop', List.append_nil]
    unfold parseDepRangeShorthand
    rw [hdrop, htake, String.ofList_toList]
    refine bind_eq_ok.mpr ⟨name, lift_eq_ok.mpr (nameFromString_eq_ok_iff.mpr ⟨hname, rfl⟩), ?_⟩
    dsimp only
    rw [hrange]
    rfl

/-! ## The list of names -/

theorem Blank.endsWord {blank rest : List Char} (h : Blank blank) (hne : blank ≠ []) :
    EndsWord (blank ++ rest) := by
  obtain ⟨c, cs, rfl⟩ := List.exists_cons_of_ne_nil hne
  intro d hd
  obtain rfl : c = d := by simpa using hd
  simp [isWordChar, h c List.mem_cons_self]

theorem Blank.endsWord_nil {blank : List Char} (h : Blank blank) : EndsWord blank := by
  intro c hc
  simp [isWordChar, h c (List.mem_of_mem_head? hc)]

theorem Blank.endsWord_comma {blank rest : List Char} (h : Blank blank) :
    EndsWord (blank ++ ',' :: rest) := by
  by_cases hne : blank = []
  · subst hne
    intro c hc
    obtain rfl : ',' = c := by simpa using hc
    rfl
  · exact h.endsWord hne

theorem ne_comma_of_valid {name : Name} (h : name.Valid) : name.str.toList ≠ [','] := by
  intro hcomma
  have hchars := (Name.isNameChar_of_fromString h).2
  rw [hcomma] at hchars
  exact absurd (hchars ',' List.mem_cons_self) (by decide)

theorem not_word_comma : ¬ Word [','] := fun h => absurd (h ',' List.mem_cons_self) (by decide)

/-- A token that is a name is a word. -/
theorem name_of_fromString {remain : List Char} {name : Name}
    (h : Name.fromString (String.ofList (advToken remain).1) = .ok name) :
    ∃ before after, remain = before ++ (name.str.toList ++ after) ∧ Blank before ∧ name.Valid ∧
      EndsWord after := by
  have hvalid := Name.valid_of_fromString h
  have hstr : name.str.toList = (advToken remain).1 := by
    rw [Name.fromString_str h, String.toList_ofList]
  have hadv := advances_advToken remain
  generalize (advToken remain).1 = tok, (advToken remain).2 = rest at hstr hadv
  cases hadv with
  | done _ => exact absurd hstr (ne_nil_of_valid hvalid)
  | comma _ => exact absurd hstr (ne_comma_of_valid hvalid)
  | word hblank _ _ hends => exact ⟨_, _, by rw [hstr], hblank, hvalid, hends⟩

theorem comma_of_advToken {remain : List Char} (h : (advToken remain).1 = [',']) :
    ∃ blank, Blank blank ∧ remain = blank ++ ',' :: (advToken remain).2 := by
  have hadv := advances_advToken remain
  generalize (advToken remain).1 = tok, (advToken remain).2 = rest at h hadv
  cases hadv with
  | done _ => cases h
  | comma hblank => exact ⟨_, hblank, rfl⟩
  | word _ _ hword _ => exact absurd (h ▸ hword) not_word_comma

theorem blank_of_advToken {remain : List Char} (h : (advToken remain).1 = []) : Blank remain := by
  have hadv := advances_advToken remain
  generalize (advToken remain).1 = tok, (advToken remain).2 = rest at h hadv
  cases hadv with
  | done hblank => exact hblank
  | comma _ => cases h
  | word _ hne _ _ => exact absurd h hne

theorem word_using : Word "using".toList := by
  unfold Word
  rw [← List.all_eq_true]
  decide

theorem UsesList.word {list : List Char} {names : List Name} (h : UsesList list names) :
    ∃ c cs, list = c :: cs ∧ isWordChar c = true := by
  have hfirst : ∀ (name : Name) (rest : List Char), name.Valid →
      ∃ c cs, name.str.toList ++ rest = c :: cs ∧ isWordChar c = true := by
    intro name rest hname
    obtain ⟨c, cs, hcs⟩ := List.exists_cons_of_ne_nil (ne_nil_of_valid hname)
    have hword := word_of_valid hname
    rw [hcs] at hword ⊢
    exact ⟨c, cs ++ rest, rfl, hword c List.mem_cons_self⟩
  cases h with
  | @last name hname => simpa using hfirst name [] hname
  | cons hname => exact hfirst _ _ hname

/-- A word that follows another is set apart from it. -/
theorem EndsWord.blank_ne_nil {blank rest : List Char} {c : Char}
    (h : EndsWord (blank ++ c :: rest)) (hc : isWordChar c = true) : blank ≠ [] := by
  rintro rfl
  exact absurd hc (by simp [h c rfl])

variable [LeafResult]

/-- One name is read, and then the token after it. -/
theorem parseUses_of_name {before after : List Char} {name : Name} (hbefore : Blank before)
    (hname : name.Valid) (hends : EndsWord after) :
    parseUses (before ++ (name.str.toList ++ after)) =
      if (advToken after).1 = [','] then do
        let (names, tok, remain) ← parseUses (advToken after).2
        return (name :: names, tok, remain)
      else .ok ([name], (advToken after).1, after) := by
  have hadv : advToken (before ++ (name.str.toList ++ after)) = (name.str.toList, after) :=
    advToken_of_advances (.word hbefore (ne_nil_of_valid hname) (word_of_valid hname) hends)
  have hread : LeafResult.deref (Name.fromString (String.ofList name.str.toList)) = .ok name := by
    rw [LeafResult.deref_eq, String.ofList_toList]
    exact hname
  rw [parseUses, hadv, if_neg (ne_comma_of_valid hname), hread]
  dsimp only
  split <;> rfl

theorem parseUses_of_usesList {list after : List Char} {names : List Name}
    (h : UsesList list names) (hafter : Blank after) {before : List Char} (hbefore : Blank before) :
    ∃ rest, parseUses (before ++ (list ++ after)) = .ok (names, [], rest) := by
  induction h generalizing before with
  | @last name hname =>
      refine ⟨after, ?_⟩
      rw [parseUses_of_name hbefore hname hafter.endsWord_nil,
        advToken_of_advances (.done hafter), if_neg (by simp)]
  | @cons name blank blank' list names hname hblank hblank' _ ih =>
      obtain ⟨rest, ih⟩ := ih hblank'
      refine ⟨rest, ?_⟩
      rw [List.append_assoc, List.append_assoc, List.cons_append, List.append_assoc,
        parseUses_of_name hbefore hname hblank.endsWord_comma,
        advToken_of_advances (.comma hblank), if_pos rfl, ih]
      rfl

theorem usesList_of_parseUses {remain rest : List Char} {names : List Name}
    (h : parseUses remain = .ok (names, [], rest)) :
    ∃ before list after, remain = before ++ (list ++ after) ∧ Blank before ∧ UsesList list names ∧
      Blank after := by
  induction remain using parseUses.induct generalizing names rest with
  | case1 remain hcomma =>
      rw [parseUses, if_pos hcomma] at h
      cases h
  | case2 remain hcomma err hname =>
      rw [parseUses, if_neg hcomma, hname] at h
      cases h
  | case3 remain hcomma name hname hsep ih =>
      obtain ⟨before, after, rfl, hbefore, hvalid, hends⟩ :=
        name_of_fromString (LeafResult.deref_eq _ ▸ hname)
      rw [advToken_of_advances (.word hbefore (ne_nil_of_valid hvalid) (word_of_valid hvalid) hends)]
        at hsep ih
      rw [parseUses_of_name hbefore hvalid hends, if_pos hsep] at h
      obtain ⟨⟨names', tok, rest'⟩, hrest, h⟩ := bind_eq_ok.mp h
      cases h
      obtain ⟨blank', list, after', hremain, hblank', hlist, hafter'⟩ := ih hrest
      obtain ⟨blank, hblank, hafter⟩ := comma_of_advToken hsep
      dsimp only at hremain hafter
      rw [hafter, hremain]
      refine ⟨before, name.str.toList ++ (blank ++ ',' :: (blank' ++ list)), after', by simp,
        hbefore, .cons hvalid hblank hblank' hlist, hafter'⟩
  | case4 remain hcomma name hname hsep =>
      obtain ⟨before, after, rfl, hbefore, hvalid, hends⟩ :=
        name_of_fromString (LeafResult.deref_eq _ ▸ hname)
      rw [advToken_of_advances (.word hbefore (ne_nil_of_valid hvalid) (word_of_valid hvalid) hends)]
        at hsep
      rw [parseUses_of_name hbefore hvalid hends, if_neg hsep] at h
      simp only [Except.ok.injEq, Prod.mk.injEq] at h
      obtain ⟨rfl, hdone, rfl⟩ := h
      exact ⟨before, name.str.toList, after, rfl, hbefore, .last hvalid, blank_of_advToken hdone⟩

/-! ## The whole specifier -/

theorem fromShorthandString_of_shorthand {s : String} {dep : ProjectDependency S}
    (h : Shorthand s.toList dep) : fromShorthandString s = .ok dep := by
  unfold fromShorthandString
  generalize s.toList = cs at h
  cases h with
  | @plain before spec after dep hbefore hspec hafter =>
      obtain ⟨hne, hword⟩ := hspec.word
      rw [advToken_of_advances (.word hbefore hne hword hafter.endsWord_nil)]
      dsimp only
      rw [if_neg hne, advToken_of_advances (.done hafter)]
      exact bind_eq_ok.mpr ⟨dep, (parseDepRangeShorthand_eq_ok_iff hword).mpr hspec, rfl⟩
  | @withUses before spec sep sep' list after dep names hbefore hspec hsep hne hsep' hne' hlist
      hafter =>
      obtain ⟨hspecNe, hword⟩ := hspec.word
      obtain ⟨rest, huses⟩ := parseUses_of_usesList hlist hafter hsep'
      rw [advToken_of_advances (.word hbefore hspecNe hword (hsep.endsWord hne))]
      dsimp only
      rw [if_neg hspecNe,
        advToken_of_advances (.word hsep (by decide) word_using (hsep'.endsWord hne'))]
      refine bind_eq_ok.mpr ⟨dep, (parseDepRangeShorthand_eq_ok_iff hword).mpr hspec, ?_⟩
      dsimp only
      rw [if_neg (by decide), if_neg (by decide), huses]
      rfl

theorem shorthand_of_fromShorthandString {s : String} {dep : ProjectDependency S}
    (h : fromShorthandString s = .ok dep) : Shorthand s.toList dep := by
  unfold fromShorthandString at h
  generalize s.toList = cs at h
  have hadv := advances_advToken cs
  generalize advToken cs = first at h hadv
  obtain ⟨tok, rest⟩ := first
  dsimp only at h hadv
  cases hadv with
  | done _ => cases h
  | comma _ => cases h
  | @word before spec rest hbefore hne hword hends =>
      rw [if_neg hne] at h
      replace h := bind_eq_ok.mp h
      obtain ⟨ret, hret, h⟩ := h
      have hspec := (parseDepRangeShorthand_eq_ok_iff hword).mp hret
      have hadv' := advances_advToken rest
      generalize advToken rest = second at h hadv'
      obtain ⟨tok', rest'⟩ := second
      dsimp only at h hadv'
      cases hadv' with
      | done hafter =>
          cases h
          exact .plain hbefore hspec hafter
      | comma _ => cases h
      | @word sep using_ rest' hsep hne' _ hends' =>
          rw [if_neg hne'] at h
          split at h
          · cases h
          next husing =>
            obtain rfl := not_not.mp husing
            obtain ⟨⟨names, tok, remain⟩, huses, h⟩ := bind_eq_ok.mp h
            dsimp only at h
            split at h
            · cases h
            next hdone =>
              cases h
              obtain rfl := not_not.mp hdone
              obtain ⟨sep', list, after, rfl, hsep', hlist, hafter⟩ := usesList_of_parseUses huses
              refine .withUses hbefore hspec hsep (hends.blank_ne_nil (c := 'u') rfl) hsep' ?_
                hlist hafter
              obtain ⟨c, cs, rfl, hc⟩ := hlist.word
              exact hends'.blank_ne_nil hc

/-- The reader accepts the strings of the grammar, with what they spell. -/
theorem fromShorthandString_exact (s : String) :
    (∀ dep : ProjectDependency S,
      fromShorthandString s = .ok dep ↔ Shorthand s.toList dep) ∧
    ((¬ ∃ dep : ProjectDependency S, Shorthand s.toList dep) →
      ∃ err, (fromShorthandString s : Except ProjectExn (ProjectDependency S)) = .error err) := by
  have hiff : ∀ dep : ProjectDependency S,
      fromShorthandString s = .ok dep ↔ Shorthand s.toList dep :=
    fun dep => ⟨shorthand_of_fromShorthandString, fromShorthandString_of_shorthand⟩
  refine ⟨hiff, fun hnot => ?_⟩
  cases hread : (fromShorthandString s : Except ProjectExn (ProjectDependency S)) with
  | ok dep => exact absurd ⟨dep, (hiff dep).mp hread⟩ hnot
  | error err => exact ⟨err, rfl⟩

end Bpt.Project.ProjectDependency
