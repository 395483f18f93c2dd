-- SUMMARY: When a Cache-Control header allows a cached repository to be used, and when the cache decides so.
import Bpt.Crs.SyncRemote
import Bpt.Util.FromChars

/-!
# Fresh repositories

A Cache-Control header is a list of directives with commas between them. The
cache cuts it at a comma and one space, so that a directive without a space
before it stays in one piece with those before it. It looks for `max-age` only
where a piece begins.
-/

namespace Bpt.Crs

/-! ## Directives -/

/-- The directives of a header, without the whitespace around them. -/
def directives (cacheControl : String) : List (List Char) :=
  (splitView cacheControl.toList [',']).map trimView

/-- Decimal digits, perhaps after a minus. -/
def isInteger : List Char → Bool
  | '-' :: ds => !ds.isEmpty && ds.all fun c => '0' ≤ c && c ≤ '9'
  | ds => !ds.isEmpty && ds.all fun c => '0' ≤ c && c ≤ '9'

/-- A directive that lets the resource be used at this time. -/
def FreshDirective (directive : List Char) (resourceTime now : Int) : Prop :=
  ∃ value age, directive = "max-age=".toList ++ value ∧ isInteger (trimView value) = true ∧
    fromCharsInt (trimView value) = some age ∧ ¬ resourceTime + age * ticksPerSecond < now

/-- The header lets the resource be used without asking again. -/
def AllowsReuse (cacheControl : String) (resourceTime now : Int) : Prop :=
  (∃ directive ∈ directives cacheControl, FreshDirective directive resourceTime now) ∧
    "no-cache".toList ∉ directives cacheControl

/-! ## Directives that are found -/

/-- What stands in a field behind the one space after its comma. -/
def afterSpace : List Char → Option (List Char)
  | ' ' :: rest => some rest
  | _ => none

/-- The text at the start of a header and behind each comma that one space
follows, up to the next comma. -/
def shownTexts : List (List Char) → List (List Char)
  | [] => []
  | field :: fields => field :: fields.filterMap afterSpace

/-- The value of the first `max-age` directive that stands at the start or right
behind a comma and one space. -/
def firstShownMaxAge (cacheControl : String) : Option (List Char) :=
  ((shownTexts (splitView cacheControl.toList [','])).find? ("max-age=".toList.isPrefixOf ·)).map
    (·.drop "max-age=".length)

/-- The value begins with an integer that lets the resource be used at this time,
whatever follows the integer. -/
def BeginsFresh (value : List Char) (resourceTime now : Int) : Prop :=
  ∃ age, fromCharsInt (trimView value) = some age ∧ ¬ resourceTime + age * ticksPerSecond < now

/-- A header whose `max-age` directives say the same where they are shown. -/
structure ShowsMaxAge (cacheControl : String) (resourceTime now : Int) : Prop where
  /-- If a directive is fresh, some `max-age` is shown. -/
  shown : (∃ directive ∈ directives cacheControl, FreshDirective directive resourceTime now) →
    firstShownMaxAge cacheControl ≠ none
  /-- If a directive is fresh, the first one shown begins with a fresh integer. -/
  first : (∃ directive ∈ directives cacheControl, FreshDirective directive resourceTime now) →
    ∀ value, firstShownMaxAge cacheControl = some value → BeginsFresh value resourceTime now
  /-- The first one shown has nothing behind a fresh integer, or else another
  directive is fresh. -/
  whole : ∀ value, firstShownMaxAge cacheControl = some value →
    BeginsFresh value resourceTime now → isInteger (trimView value) = true ∨
      ∃ directive ∈ directives cacheControl, FreshDirective directive resourceTime now

/-! ## Pieces -/

/-- What stands between two occurrences of a comma and a space. -/
def pieces (cacheControl : String) : List (List Char) := splitView cacheControl.toList ", ".toList

/-- The first piece that begins with `max-age=` goes on with a number that lets
the resource be used at this time. -/
def FirstPieceFresh (cacheControl : String) (resourceTime now : Int) : Prop :=
  ∃ piece age, (pieces cacheControl).find? ("max-age=".toList.isPrefixOf ·) = some piece ∧
    fromCharsInt (trimView (piece.drop "max-age=".length)) = some age ∧
    ¬ resourceTime + age * ticksPerSecond < now

theorem shouldRevalidate_eq_false_iff {cacheControl : String} {resourceTime now : Int} :
    shouldRevalidate cacheControl resourceTime now = false ↔
      (∀ piece ∈ pieces cacheControl, trimView piece ≠ "no-cache".toList) ∧
        FirstPieceFresh cacheControl resourceTime now := by
  unfold shouldRevalidate FirstPieceFresh pieces
  dsimp only
  generalize splitView cacheControl.toList ", ".toList = parts
  split
  next hany =>
    obtain ⟨piece, hpiece, hno⟩ := List.any_eq_true.mp hany
    exact iff_of_false nofun fun h => h.1 piece hpiece (of_decide_eq_true hno)
  next hany =>
    have hall : ∀ piece ∈ parts, trimView piece ≠ "no-cache".toList := by
      intro piece hpiece hno
      exact hany (List.any_eq_true.mpr ⟨piece, hpiece, decide_eq_true hno⟩)
    rw [and_iff_right hall]
    split
    next hfind =>
      refine iff_of_false nofun ?_
      rintro ⟨piece, _, hsome, _⟩
      cases hfind.symm.trans hsome
    next maxAge hfind =>
      split
      next hage =>
        refine iff_of_false nofun ?_
        rintro ⟨piece, _, hsome, hsomeAge, _⟩
        cases hfind.symm.trans hsome
        cases hage.symm.trans hsomeAge
      next age hage =>
        rw [decide_eq_false_iff_not]
        constructor
        · exact fun hfresh => ⟨maxAge, age, hfind, hage, hfresh⟩
        · rintro ⟨piece, _, hsome, hsomeAge, hfresh⟩
          cases hfind.symm.trans hsome
          cases hage.symm.trans hsomeAge
          exact hfresh

theorem splitView_comma (cs : List Char) :
    splitView (',' :: cs) [','] = [] :: splitView cs [','] := by
  simp [splitView, splitViewFrom, List.isPrefixOf]

theorem splitView_commaSpace (cs : List Char) :
    splitView (',' :: ' ' :: cs) [',', ' '] = [] :: splitView cs [',', ' '] := by
  simp [splitView, splitViewFrom, List.isPrefixOf]

def upToComma (piece : List Char) : List Char := piece.takeWhile (· ≠ ',')

theorem afterSpace_cons {c : Char} (hc : c ≠ ' ') (cs : List Char) : afterSpace (c :: cs) = none := by
  unfold afterSpace
  split
  next heq => exact absurd (List.cons.inj heq).1 hc
  next => rfl

theorem afterSpace_first {c : Char} (hc : c ≠ ' ') {cs field : List Char} {fields : List (List Char)}
    (h : splitView (c :: cs) [','] = field :: fields) : afterSpace field = none := by
  by_cases hcomma : c = ','
  · rw [hcomma, splitView_comma] at h
    cases h
    rfl
  · obtain ⟨first, rest, heq⟩ := List.exists_cons_of_ne_nil (splitView_ne_nil cs [','])
    rw [splitView_cons (by simp [List.isPrefixOf, Ne.symm hcomma]), heq] at h
    cases h
    exact afterSpace_cons hc first

/-- Up to their commas the pieces are what is shown. -/
theorem map_upToComma (s : List Char) :
    (splitView s [',', ' ']).map upToComma = shownTexts (splitView s [',']) := by
  induction hlen : s.length using Nat.strong_induction_on generalizing s with
  | _ n ih =>
  cases s with
  | nil => rfl
  | cons c cs =>
      obtain ⟨piece, pieces, hpieces⟩ :=
        List.exists_cons_of_ne_nil (splitView_ne_nil cs [',', ' '])
      obtain ⟨field, fields, hfields⟩ :=
        List.exists_cons_of_ne_nil (splitView_ne_nil cs [','])
      have hrest := ih cs.length (by simp [← hlen]) cs rfl
      rw [hpieces, hfields] at hrest
      by_cases hc : c = ','
      · subst hc
        rw [splitView_comma, hfields]
        cases cs with
        | nil =>
            cases hfields
            rfl
        | cons d ds =>
            by_cases hd : d = ' '
            · subst hd
              have hds := ih ds.length (by simp only [← hlen, List.length_cons]; omega) ds rfl
              obtain ⟨field', fields', hfields'⟩ :=
                List.exists_cons_of_ne_nil (splitView_ne_nil ds [','])
              rw [splitView_cons (by rfl), hfields'] at hfields
              cases hfields
              rw [hfields'] at hds
              rw [splitView_commaSpace, List.map_cons]
              exact congrArg (List.cons _) hds
            · rw [splitView_cons (by simp [List.isPrefixOf, Ne.symm hd]), hpieces]
              have hfield : afterSpace field = none := afterSpace_first hd hfields
              simp only [shownTexts, List.map_cons, List.cons.injEq] at hrest
              simp [shownTexts, upToComma, hfield, hrest.2]
      · rw [splitView_cons (by simp [List.isPrefixOf, Ne.symm hc]), hpieces,
          splitView_cons (by simp [List.isPrefixOf, Ne.symm hc]), hfields]
        simp only [shownTexts, List.map_cons, List.cons.injEq] at hrest
        simp [shownTexts, upToComma, hc, ← hrest.1, hrest.2]

theorem trimView_of_mem_shownTexts {fields : List (List Char)} {text : List Char}
    (h : text ∈ shownTexts fields) : ∃ field ∈ fields, trimView field = trimView text := by
  cases fields with
  | nil => cases h
  | cons field fields =>
      rcases List.mem_cons.mp h with rfl | h
      · exact ⟨_, List.mem_cons_self, rfl⟩
      · obtain ⟨field', hmem, hspace⟩ := List.mem_filterMap.mp h
        refine ⟨field', List.mem_cons_of_mem _ hmem, ?_⟩
        unfold afterSpace at hspace
        split at hspace
        next =>
          cases hspace
          exact trimView_space text
        next => cases hspace

/-- A piece without a comma is a directive. -/
theorem mem_directives_of_piece {cacheControl : String} {piece : List Char}
    (h : piece ∈ pieces cacheControl) (hcomma : ',' ∉ piece) :
    trimView piece ∈ directives cacheControl := by
  have hup : upToComma piece = piece :=
    List.takeWhile_eq_self_iff.mpr fun c hc => decide_eq_true fun heq => hcomma (heq ▸ hc)
  have hmem : upToComma piece ∈ shownTexts (splitView cacheControl.toList [',']) := by
    rw [← map_upToComma]
    exact List.mem_map_of_mem h
  obtain ⟨field, hfield, htrim⟩ := trimView_of_mem_shownTexts hmem
  exact List.mem_map.mpr ⟨field, hfield, by rw [htrim, hup]⟩

/-- A piece that says `no-cache` is a directive. -/
theorem mem_directives_of_noCache {cacheControl : String} {piece : List Char}
    (h : piece ∈ pieces cacheControl) (hno : trimView piece = "no-cache".toList) :
    "no-cache".toList ∈ directives cacheControl := by
  rw [← hno]
  refine mem_directives_of_piece h fun hcomma => ?_
  have hmem := mem_trimView hcomma (by decide)
  rw [hno] at hmem
  exact absurd hmem (by decide)

/-- The number before a comma is read as if nothing followed. -/
theorem fromCharsInt_comma (value rest : List Char) :
    fromCharsInt (trimView (value ++ ',' :: rest)) = fromCharsInt (trimView value) := by
  have hdrop : (value ++ ',' :: rest).dropWhile Name.isSpace =
      value.dropWhile Name.isSpace ++ ',' :: rest := by
    rw [List.dropWhile_append]
    split
    next hempty => rw [List.isEmpty_iff.mp hempty]; rfl
    next => rfl
  rw [fromCharsInt_trimView, fromCharsInt_trimView, hdrop]
  refine fromCharsInt_append fun c hc => ?_
  cases hc
  decide
/-- A text without a comma begins a piece if it begins what stands before its comma. -/
theorem isPrefixOf_upToComma {start : List Char} (hstart : ',' ∉ start) (piece : List Char) :
    start.isPrefixOf (upToComma piece) = start.isPrefixOf piece := by
  induction start generalizing piece with
  | nil => rw [List.isPrefixOf_nil_left, List.isPrefixOf_nil_left]
  | cons c start ih =>
      rw [List.mem_cons, not_or] at hstart
      cases piece with
      | nil => rfl
      | cons d piece =>
          unfold upToComma
          by_cases hd : d = ','
          · simp [hd, List.isPrefixOf, Ne.symm hstart.1]
          · rw [List.takeWhile_cons_of_pos (by simpa using hd), List.isPrefixOf, List.isPrefixOf]
            exact congrArg _ (ih hstart.2 piece)

theorem beginsFresh_upToComma {piece : List Char}
    (hstart : "max-age=".toList.isPrefixOf piece = true) (resourceTime now : Int) :
    BeginsFresh ((upToComma piece).drop "max-age=".length) resourceTime now ↔
      BeginsFresh (piece.drop "max-age=".length) resourceTime now := by
  rw [← isPrefixOf_upToComma (by decide), List.isPrefixOf_iff_prefix] at hstart
  obtain ⟨value, hvalue⟩ := hstart
  have hpiece : piece = "max-age=".toList ++ value ++ piece.dropWhile (· ≠ ',') := by
    rw [hvalue, upToComma, List.takeWhile_append_dropWhile]
  have hdrop : ∀ rest, ("max-age=".toList ++ rest).drop "max-age=".length = rest := fun _ => rfl
  rw [← hvalue, hpiece, List.append_assoc, hdrop, hdrop]
  cases hrest : piece.dropWhile (· ≠ ',') with
  | nil => rw [List.append_nil]
  | cons c rest =>
      have hc : c = ',' := by
        have hhead := List.head?_dropWhile_not (· ≠ ',') piece
        rw [hrest] at hhead
        simpa using hhead
      rw [BeginsFresh, BeginsFresh, hc, fromCharsInt_comma]

/-- The piece that counts is the first `max-age` directive that is shown. -/
theorem firstPieceFresh_iff {cacheControl : String} {resourceTime now : Int} :
    FirstPieceFresh cacheControl resourceTime now ↔
      ∃ value, firstShownMaxAge cacheControl = some value ∧ BeginsFresh value resourceTime now := by
  have hfind : firstShownMaxAge cacheControl =
      ((pieces cacheControl).find? ("max-age=".toList.isPrefixOf ·)).map
        fun piece => (upToComma piece).drop "max-age=".length := by
    rw [firstShownMaxAge, ← map_upToComma, List.find?_map, Option.map_map]
    have hstart : ("max-age=".toList.isPrefixOf ·) ∘ upToComma = ("max-age=".toList.isPrefixOf ·) :=
      funext fun piece => isPrefixOf_upToComma (by decide) piece
    rw [hstart]
    rfl
  rw [hfind, FirstPieceFresh]
  constructor
  · rintro ⟨piece, age, hpiece, hage, hfresh⟩
    refine ⟨_, by rw [hpiece]; rfl, ?_⟩
    exact (beginsFresh_upToComma (List.find?_some hpiece) _ _).mpr ⟨age, hage, hfresh⟩
  · rintro ⟨value, hvalue, hfresh⟩
    obtain ⟨piece, hpiece, rfl⟩ := Option.map_eq_some_iff.mp hvalue
    obtain ⟨age, hage, hfresh⟩ := (beginsFresh_upToComma (List.find?_some hpiece) _ _).mp hfresh
    exact ⟨piece, age, hpiece, hage, hfresh⟩

/-- The first `max-age` directive that is shown is fresh if it is an integer to its end. -/
theorem exists_fresh_of_shown {cacheControl : String} {value : List Char} {resourceTime now : Int}
    (hvalue : firstShownMaxAge cacheControl = some value)
    (hfresh : BeginsFresh value resourceTime now) (hinteger : isInteger (trimView value) = true) :
    ∃ directive ∈ directives cacheControl, FreshDirective directive resourceTime now := by
  obtain ⟨text, hfind, rfl⟩ := Option.map_eq_some_iff.mp hvalue
  obtain ⟨field, hfield, htrim⟩ := trimView_of_mem_shownTexts (List.mem_of_find?_eq_some hfind)
  obtain ⟨rest, rfl⟩ := List.isPrefixOf_iff_prefix.mp (List.find?_some hfind)
  have hdrop : ("max-age=".toList ++ rest).drop "max-age=".length = rest := rfl
  rw [hdrop] at hfresh hinteger
  obtain ⟨age, hage, hfresh⟩ := hfresh
  refine ⟨trimView field, List.mem_map_of_mem hfield, rest.rdropWhile Name.isSpace, age, ?_, ?_⟩
  · have hfront : ("max-age=".toList ++ rest).dropWhile Name.isSpace = "max-age".toList ++ '=' :: rest :=
      rfl
    rw [htrim, trimView_eq, hfront, rdropWhile_append_cons _ _ (by decide)]
    rfl
  · rw [trimView_rdropWhile]
    exact ⟨hinteger, hage, hfresh⟩

theorem showsMaxAge_iff {cacheControl : String} {resourceTime now : Int} :
    ShowsMaxAge cacheControl resourceTime now ↔
      ((∃ directive ∈ directives cacheControl, FreshDirective directive resourceTime now) ↔
        ∃ value, firstShownMaxAge cacheControl = some value ∧
          BeginsFresh value resourceTime now) := by
  constructor
  · rintro ⟨hshown, hfirst, hwhole⟩
    constructor
    · intro hfresh
      obtain ⟨value, hvalue⟩ := Option.ne_none_iff_exists'.mp (hshown hfresh)
      exact ⟨value, hvalue, hfirst hfresh value hvalue⟩
    · rintro ⟨value, hvalue, hfresh⟩
      rcases hwhole value hvalue hfresh with hinteger | hother
      · exact exists_fresh_of_shown hvalue hfresh hinteger
      · exact hother
  · intro hsame
    refine ⟨fun hfresh hnone => ?_, fun hfresh value hvalue => ?_,
      fun value hvalue hfresh => .inr (hsame.mpr ⟨value, hvalue, hfresh⟩)⟩
    · obtain ⟨value, hvalue, -⟩ := hsame.mp hfresh
      exact nomatch hnone.symm.trans hvalue
    · obtain ⟨value', hvalue', hfresh'⟩ := hsame.mp hfresh
      cases hvalue.symm.trans hvalue'
      exact hfresh'

/-- The cache decides as the header says if and only if `no-cache` is alone in
its piece or of no effect, and without `no-cache` the first `max-age` directive
that is shown says what all of them say. -/
theorem shouldRevalidate_allowsReuse_iff (cacheControl : String) (resourceTime now : Int) :
    (shouldRevalidate cacheControl resourceTime now = false ↔
      AllowsReuse cacheControl resourceTime now) ↔
    ("no-cache".toList ∈ directives cacheControl →
      (∃ piece ∈ pieces cacheControl, trimView piece = "no-cache".toList) ∨
        ∀ value, firstShownMaxAge cacheControl = some value →
          ¬ BeginsFresh value resourceTime now) ∧
    ("no-cache".toList ∉ directives cacheControl →
      ShowsMaxAge cacheControl resourceTime now) := by
  rw [shouldRevalidate_eq_false_iff, AllowsReuse, firstPieceFresh_iff, showsMaxAge_iff]
  by_cases hno : "no-cache".toList ∈ directives cacheControl
  · simp only [hno, not_true, and_false, iff_false, not_and, true_implies, false_implies, and_true]
    rw [imp_iff_or_not, or_comm, not_forall]
    simp only [Classical.not_imp, not_not, not_exists, not_and]
  · have hall : ∀ piece ∈ pieces cacheControl, trimView piece ≠ "no-cache".toList :=
      fun piece hpiece h => hno (mem_directives_of_noCache hpiece h)
    simp only [hno, false_implies, true_and, not_false_iff, true_implies, and_true]
    rw [and_iff_right hall]
    exact iff_comm

/-- `no-cache` stands behind a comma without a space. -/
theorem shouldRevalidate_hidden_noCache :
    ¬ (shouldRevalidate "max-age=100,no-cache" 0 0 = false ↔
      AllowsReuse "max-age=100,no-cache" 0 0) := by
  intro h
  have hreuse := h.mp (by decide +kernel)
  exact absurd hreuse.2 (by decide +kernel)

end Bpt.Crs
