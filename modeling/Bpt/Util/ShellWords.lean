-- SUMMARY: What the words of a command line stand for, and which of them the lexer reads in full.
import Bpt.Base.SplitFold
import Bpt.Util.Shlex
import Mathlib.Data.List.DropRight

/-!
# The words of a command line

Words are separated by blanks that are neither quoted nor escaped. A word stands
for its characters, without the quotes, the backslashes that escape and the
newlines that are escaped. The lexer starts a token anew at every opening quote.
-/

namespace Bpt

/-! ## Pieces -/

/-- A part of a command line. Closing quotes, backslashes that escape and escaped
newlines are none. -/
inductive ShellPiece where
  | separator
  | openQuote
  | char (c : Char)
  /-- A character escaped outside of quotes. -/
  | escaped (c : Char)
  deriving DecidableEq

namespace ShellPiece

/-- The pieces of a text that starts inside of quotes or after a backslash, if so told. -/
def pieces (curQuote : Option Char) (isEscaped : Bool) : List Char → List ShellPiece
  | [] => []
  | c :: rest =>
    if isEscaped then
      if c = '\n' then pieces curQuote false rest
      else (if curQuote.isSome then .char c else .escaped c) :: pieces curQuote false rest
    else if c = '\\' then pieces curQuote true rest
    else
      match curQuote with
      | some q => if c = q then pieces none false rest else .char c :: pieces (some q) false rest
      | none =>
        if c = '"' ∨ c = '\'' then .openQuote :: pieces (some c) false rest
        else if ShellLexer.isBlank c then .separator :: pieces none false rest
        else .char c :: pieces none false rest

def isSeparator (p : ShellPiece) : Bool := p = .separator

/-- The characters that a piece stands for. -/
def contents : ShellPiece → List Char
  | .separator => []
  | .openQuote => []
  | .char c => [c]
  | .escaped c => [c]

/-- The word that stands for the pieces. -/
def keep (word : Option (List Char)) (p : ShellPiece) : Option (List Char) :=
  some (word.getD [] ++ p.contents)

/-- A null character escaped outside of quotes. -/
def null : ShellPiece := .escaped ShellLexer.noQuote

/-- The characters that the lexer adds to a token. A null character keeps the
backslash that escapes it. -/
def lexed (p : ShellPiece) : List Char := if p = null then '\\' :: p.contents else p.contents

/-- What the lexer makes of a piece. -/
def lex (token : Option (List Char)) : ShellPiece → Option (List Char)
  | .separator => none
  | .openQuote => some []
  | .char c => some (token.getD [] ++ lexed (.char c))
  | .escaped c => some (token.getD [] ++ lexed (.escaped c))

end ShellPiece

open ShellPiece SplitFold

/-- The words of a command line. -/
def shellWords (shell : String) : List String :=
  (words isSeparator keep none (pieces none false shell.toList)).map String.ofList

/-! ## The lexer reads the pieces -/

/-- The quote that the pieces are read in is the lexer's. -/
structure InQuote (s : ShellLexer) (q : Option Char) : Prop where
  curQuote : s.curQuote = q.getD ShellLexer.noQuote
  isQuote : ∀ c, q = some c → c = '"' ∨ c = '\''

theorem InQuote.curQuote_ne {s : ShellLexer} {c : Char} (h : InQuote s (some c)) :
    s.curQuote ≠ ShellLexer.noQuote := by
  rw [h.curQuote, Option.getD_some]
  rcases h.isQuote c rfl with rfl | rfl <;> decide

theorem InQuote.of_curQuote {s s' : ShellLexer} {q : Option Char} (h : InQuote s q)
    (hsame : s'.curQuote = s.curQuote) : InQuote s' q :=
  ⟨hsame.trans h.curQuote, h.isQuote⟩

theorem inQuote_none {s : ShellLexer} (h : s.curQuote = ShellLexer.noQuote) : InQuote s none :=
  ⟨h, fun _ hnone => nomatch hnone⟩

theorem append_escaped {s s' : ShellLexer} (houtside : s.curQuote = ShellLexer.noQuote) {c : Char} :
    (if s.curQuote ≠ ShellLexer.noQuote ∨ c ≠ s.curQuote ∨ c = '\\' then s'.append [c]
      else s'.append ['\\', c]) = s'.append (lexed (.escaped c)) := by
  rw [houtside]
  by_cases hnull : c = ShellLexer.noQuote
  · subst hnull
    rfl
  · have hne : ShellPiece.escaped c ≠ null := fun h => hnull (ShellPiece.escaped.inj h)
    rw [if_pos (.inr (.inl hnull)), lexed, if_neg hne]
    rfl

/-- The tokens are those that were there, and what the lexer makes of the pieces. -/
theorem tokens_run (s : ShellLexer) {q : Option Char} (hq : InQuote s q) (text : List Char) :
    (s.run text).tokens = s.acc ++ words isSeparator lex s.token (pieces q s.isEscaped text) := by
  induction text generalizing s q with
  | nil => rfl
  | cons c rest ih =>
    rw [ShellLexer.run_cons]
    unfold ShellLexer.step pieces
    split
    next =>
      dsimp only
      split
      next => exact ih _ (hq.of_curQuote rfl)
      next =>
        cases q with
        | some q =>
          rw [if_pos (.inl hq.curQuote_ne)]
          exact ih (.append { s with isEscaped := false } [c]) (hq.of_curQuote rfl)
        | none =>
          have houtside : s.curQuote = ShellLexer.noQuote := hq.curQuote
          rw [append_escaped houtside]
          exact ih (.append { s with isEscaped := false } _) (hq.of_curQuote rfl)
    next hescaped =>
      replace hescaped := Bool.eq_false_iff.mpr hescaped
      split
      next => exact ih _ (hq.of_curQuote rfl)
      next =>
        cases q with
        | some q =>
          rw [if_pos hq.curQuote_ne, show s.curQuote = q from hq.curQuote]
          dsimp only
          split
          next =>
            rw [← hescaped]
            exact ih { s with curQuote := ShellLexer.noQuote } (inQuote_none rfl)
          next =>
            rw [← hescaped]
            exact ih (s.append [c]) (hq.of_curQuote rfl)
        | none =>
          have houtside : s.curQuote = ShellLexer.noQuote := hq.curQuote
          rw [if_neg (not_not.mpr houtside)]
          dsimp only
          split
          next hopen =>
            rw [← hescaped]
            exact ih { s with curQuote := c, token := some [] } ⟨rfl, fun _ hc => Option.some.inj hc ▸ hopen⟩
          next =>
            split
            next =>
              rw [← hescaped]
              refine (ih { s with acc := s.tokens, token := none } (hq.of_curQuote rfl)).trans ?_
              exact List.append_assoc _ _ _
            next =>
              rw [← hescaped]
              exact ih (s.append [c]) (hq.of_curQuote rfl)

/-! ## One word -/

namespace ShellPiece

/-- The pieces after the last quote that is opened. -/
def sinceQuote (word : List ShellPiece) : List ShellPiece := word.rtakeWhile (· ≠ .openQuote)

/-- The pieces up to the last quote that is opened. -/
def uptoQuote (word : List ShellPiece) : List ShellPiece := word.rdropWhile (· ≠ .openQuote)

theorem contents_split (word : List ShellPiece) :
    word.flatMap contents = (uptoQuote word).flatMap contents ++ (sinceQuote word).flatMap contents := by
  unfold uptoQuote sinceQuote
  rw [← List.flatMap_append, List.rdropWhile_append_rtakeWhile]

theorem wordOf_keep (word : List ShellPiece) :
    wordOf keep word = if word = [] then none else some (word.flatMap contents) := by
  induction word using List.reverseRecOn with
  | nil => rfl
  | append_singleton word p ih =>
    have hword : (wordOf keep word).getD [] = word.flatMap contents := by
      rw [ih]
      split
      next hnil => rw [hnil]; rfl
      next => rfl
    rw [if_neg (by simp), List.flatMap_append, List.flatMap_singleton, ← hword, wordOf,
      List.foldl_append]
    rfl

theorem wordOf_lex {word : List ShellPiece} (hword : .separator ∉ word) :
    wordOf lex word = if word = [] then none else some ((sinceQuote word).flatMap lexed) := by
  induction word using List.reverseRecOn with
  | nil => rfl
  | append_singleton word p ih =>
    replace ih := ih fun h => hword (List.mem_append_left _ h)
    have hread : (wordOf lex word).getD [] = (sinceQuote word).flatMap lexed := by
      rw [ih]
      split
      next hnil => rw [hnil]; rfl
      next => rfl
    have hfold : wordOf lex (word ++ [p]) = lex (wordOf lex word) p := List.foldl_append
    have hsince (hp : p ≠ .openQuote) : (sinceQuote (word ++ [p])).flatMap lexed =
        (wordOf lex word).getD [] ++ lexed p := by
      rw [hread, sinceQuote, List.rtakeWhile_concat_pos _ _ _ (by simpa using hp),
        List.flatMap_append, List.flatMap_singleton, sinceQuote]
    rw [if_neg (by simp), hfold]
    cases p with
    | separator => exact absurd (by simp) hword
    | openQuote =>
      rw [sinceQuote, List.rtakeWhile_concat_neg _ _ _ (by simp)]
      rfl
    | char c => rw [hsince (by simp)]; rfl
    | escaped c => rw [hsince (by simp)]; rfl

/-- One null character is escaped, and only backslashes come before it. -/
inductive NullAfterBackslashes : List ShellPiece → Prop where
  | null {rest : List ShellPiece} (only : null ∉ rest) : NullAfterBackslashes (null :: rest)
  | backslash {p : ShellPiece} {rest : List ShellPiece} (ne_null : p ≠ null)
      (backslash : ∀ c ∈ p.contents, c = '\\') (after : NullAfterBackslashes rest) :
      NullAfterBackslashes (p :: rest)

/-- The lexer reads all of a word: no characters come before a quote that is opened
in it, and no null character is escaped. The backslash that a null character keeps
may stand in for one that was dropped. -/
inductive ReadInFull (word : List ShellPiece) : Prop where
  | kept (start : (uptoQuote word).flatMap contents = []) (null : null ∉ sinceQuote word)
  | replaced (start : (uptoQuote word).flatMap contents = ['\\'])
      (null : NullAfterBackslashes (sinceQuote word))

theorem nullAfterBackslashes_cons {p : ShellPiece} (hp : p ≠ null) {rest : List ShellPiece} :
    NullAfterBackslashes (p :: rest) ↔
      (∀ c ∈ p.contents, c = '\\') ∧ NullAfterBackslashes rest := by
  constructor
  · intro h
    cases h with
    | null => exact absurd rfl hp
    | backslash _ hbackslash hafter => exact ⟨hbackslash, hafter⟩
  · exact fun h => .backslash hp h.1 h.2

theorem nullAfterBackslashes_null {rest : List ShellPiece} :
    NullAfterBackslashes (null :: rest) ↔ null ∉ rest := by
  constructor
  · intro h
    cases h with
    | null honly => exact honly
    | backslash hne => exact absurd rfl hne
  · exact .null

/-- A piece other than the escaped null stands for at most one character. -/
theorem contents_cases (p : ShellPiece) : p.contents = [] ∨ ∃ c, p.contents = [c] := by
  cases p with
  | separator => exact .inl rfl
  | openQuote => exact .inl rfl
  | char c => exact .inr ⟨c, rfl⟩
  | escaped c => exact .inr ⟨c, rfl⟩

/-- What is dropped is made up for by the backslashes of null characters in one case. -/
theorem append_contents_eq_lexed {dropped : List Char} {word : List ShellPiece} :
    dropped ++ word.flatMap contents = word.flatMap lexed ↔
      (dropped = [] ∧ null ∉ word) ∨ (dropped = ['\\'] ∧ NullAfterBackslashes word) := by
  induction word generalizing dropped with
  | nil =>
    have hnone : ¬ NullAfterBackslashes [] := fun h => nomatch h
    simp [hnone]
  | cons p rest ih =>
    rw [List.flatMap_cons, List.flatMap_cons, lexed]
    by_cases hp : p = null
    · subst hp
      rw [if_pos rfl, nullAfterBackslashes_null]
      have hcontents : contents null = [ShellLexer.noQuote] := rfl
      rw [hcontents]
      match dropped with
      | [] => simp [ShellLexer.noQuote]
      | [d] =>
        have hrest := @ih []
        simp only [List.nil_append, true_and, List.ne_cons_self, false_and, or_false] at hrest
        simp [hrest]
      | d :: e :: dropped =>
        -- a second character would have to be the null character itself
        have hmove : d :: e :: dropped ++ ([ShellLexer.noQuote] ++ rest.flatMap contents) =
              '\\' :: [ShellLexer.noQuote] ++ rest.flatMap lexed ↔
            d = '\\' ∧ e = ShellLexer.noQuote ∧
              dropped ++ [ShellLexer.noQuote] ++ rest.flatMap contents = rest.flatMap lexed := by
          simp
        rw [hmove, ih]
        simp [List.append_eq_singleton_iff, ShellLexer.noQuote]
    · rw [if_neg hp, nullAfterBackslashes_cons hp, List.mem_cons, not_or]
      rcases contents_cases p with hc | ⟨c, hc⟩
      · rw [hc, List.nil_append, List.nil_append, ih]
        simp [Ne.symm hp]
      · rw [hc]
        cases dropped with
        | nil =>
          have hrest := @ih []
          simp [Ne.symm hp] at hrest ⊢
          exact hrest
        | cons d dropped =>
          have hmove : d :: dropped ++ ([c] ++ rest.flatMap contents) = [c] ++ rest.flatMap lexed ↔
              d = c ∧ dropped ++ [c] ++ rest.flatMap contents = rest.flatMap lexed := by
            simp
          rw [hmove, ih]
          simp only [List.append_eq_nil_iff, List.cons_ne_self, and_false, false_and, false_or,
            List.append_eq_singleton_iff, List.cons.injEq, List.forall_mem_singleton, or_false,
            reduceCtorEq]
          constructor
          · rintro ⟨rfl, ⟨rfl, rfl, -⟩, hafter⟩
            exact ⟨⟨rfl, rfl⟩, rfl, hafter⟩
          · rintro ⟨⟨rfl, rfl⟩, rfl, hafter⟩
            exact ⟨rfl, ⟨rfl, rfl, trivial⟩, hafter⟩

/-- The word that a run of pieces stands for is read exactly when it is read in full. -/
theorem wordOf_lex_eq_keep_iff {word : List ShellPiece} (hword : .separator ∉ word) :
    wordOf lex word = wordOf keep word ↔ ReadInFull word := by
  rw [wordOf_keep, wordOf_lex hword, contents_split word]
  split
  next hnil =>
    subst hnil
    exact iff_of_true rfl (.kept rfl (by simp [sinceQuote]))
  next =>
    rw [Option.some.injEq, eq_comm, append_contents_eq_lexed]
    constructor
    · rintro (⟨hstart, hnull⟩ | ⟨hstart, hnull⟩)
      · exact .kept hstart hnull
      · exact .replaced hstart hnull
    · intro h
      cases h with
      | kept hstart hnull => exact .inl ⟨hstart, hnull⟩
      | replaced hstart hnull => exact .inr ⟨hstart, hnull⟩

end ShellPiece

/-! ## Segments -/

/-- A character that means nothing else outside of quotes. -/
def isPlain (c : Char) : Bool :=
  c ≠ '\\' ∧ c ≠ '"' ∧ c ≠ '\'' ∧ ShellLexer.isBlank c = false

inductive QuotedChar (quote : Char) where
  | plain (c : Char) (ne_quote : c ≠ quote) (ne_backslash : c ≠ '\\')
  | escape (c : Char)

inductive ShellSegment where
  | unquoted (run : List Char) (plain : ∀ c ∈ run, isPlain c = true)
  | quoted (quote : Char) (isQuote : quote = '"' ∨ quote = '\'') (body : List (QuotedChar quote))
  | escape (c : Char)

/-- What a backslash and a character stand for. -/
def escapeContents (c : Char) : List Char := if c = '\n' then [] else [c]

namespace QuotedChar

variable {quote : Char}

def text : QuotedChar quote → List Char
  | .plain c _ _ => [c]
  | .escape c => ['\\', c]

def contents : QuotedChar quote → List Char
  | .plain c _ _ => [c]
  | .escape c => escapeContents c

theorem pieces_text (part : QuotedChar quote) (rest : List Char) :
    pieces (some quote) false (part.text ++ rest) =
      part.contents.map .char ++ pieces (some quote) false rest := by
  cases part with
  | plain c hquote hbackslash =>
    rw [text, List.singleton_append, pieces]
    simp [hquote, hbackslash, contents]
  | escape c =>
    unfold text contents escapeContents
    by_cases hnewline : c = '\n'
    · simp [pieces, hnewline]
    · simp [pieces, hnewline]

end QuotedChar

namespace ShellSegment

def text : ShellSegment → List Char
  | .unquoted run _ => run
  | .quoted quote _ body => quote :: (body.flatMap (·.text) ++ [quote])
  | .escape c => ['\\', c]

def contents : ShellSegment → List Char
  | .unquoted run _ => run
  | .quoted _ _ body => body.flatMap (·.contents)
  | .escape c => escapeContents c

def pieces : ShellSegment → List ShellPiece
  | .unquoted run _ => run.map .char
  | .quoted _ _ body => .openQuote :: (body.flatMap (·.contents)).map .char
  | .escape c => (escapeContents c).map .escaped

theorem pieces_run {run : List Char} (hrun : ∀ c ∈ run, isPlain c = true) (rest : List Char) :
    ShellPiece.pieces none false (run ++ rest) =
      run.map .char ++ ShellPiece.pieces none false rest := by
  induction run with
  | nil => rfl
  | cons c run ih =>
    have hc := hrun c List.mem_cons_self
    simp only [isPlain, decide_eq_true_eq] at hc
    obtain ⟨hbackslash, hdouble, hsingle, hblank⟩ := hc
    rw [List.cons_append, List.map_cons, List.cons_append,
      ← ih fun c hc => hrun c (List.mem_cons_of_mem _ hc), ShellPiece.pieces]
    simp [hbackslash, hdouble, hsingle, hblank]

theorem pieces_body {quote : Char} (body : List (QuotedChar quote)) (rest : List Char) :
    ShellPiece.pieces (some quote) false (body.flatMap (·.text) ++ rest) =
      (body.flatMap (·.contents)).map .char ++ ShellPiece.pieces (some quote) false rest := by
  induction body with
  | nil => rfl
  | cons part body ih =>
    rw [List.flatMap_cons, List.append_assoc, QuotedChar.pieces_text, ih, List.flatMap_cons,
      List.map_append, List.append_assoc]

theorem pieces_text (seg : ShellSegment) (rest : List Char) :
    ShellPiece.pieces none false (seg.text ++ rest) =
      seg.pieces ++ ShellPiece.pieces none false rest := by
  cases seg with
  | unquoted run plain => exact pieces_run plain rest
  | quoted quote isQuote body =>
    have hquote : quote ≠ '\\' := by rcases isQuote with rfl | rfl <;> decide
    have hclose : ShellPiece.pieces (some quote) false (quote :: rest) =
        ShellPiece.pieces none false rest := by
      simp [ShellPiece.pieces, hquote]
    unfold text pieces
    rw [List.cons_append, List.append_assoc, List.singleton_append, List.cons_append, ← hclose,
      ← pieces_body, ShellPiece.pieces]
    simp [hquote, isQuote]
  | escape c =>
    unfold text pieces escapeContents
    by_cases hnewline : c = '\n'
    · simp [ShellPiece.pieces, hnewline]
    · simp [ShellPiece.pieces, hnewline]

theorem pieces_texts (segs : List ShellSegment) :
    ShellPiece.pieces none false (segs.flatMap (·.text)) = segs.flatMap (·.pieces) := by
  induction segs with
  | nil => rfl
  | cons seg segs ih => rw [List.flatMap_cons, pieces_text, ih, List.flatMap_cons]

theorem not_separator {seg : ShellSegment} {p : ShellPiece} (hp : p ∈ seg.pieces) :
    p ≠ .separator := by
  rintro rfl
  cases seg <;> simp [pieces] at hp

theorem contents_pieces (seg : ShellSegment) :
    seg.pieces.flatMap ShellPiece.contents = seg.contents := by
  have hchars (cs : List Char) : (cs.map ShellPiece.char).flatMap ShellPiece.contents = cs := by
    rw [List.flatMap_map]
    exact List.flatMap_singleton' cs
  cases seg with
  | unquoted run plain => exact hchars run
  | quoted quote isQuote body => exact hchars _
  | escape c =>
    unfold pieces
    rw [List.flatMap_map]
    exact List.flatMap_singleton' _

end ShellSegment

/-! ## Command lines -/

/-- The pieces between separators. -/
def shellRuns (shell : String) : List (List ShellPiece) :=
  (pieces none false shell.toList).splitOnP isSeparator

theorem splitShellString_eq (shell : String) :
    splitShellString shell =
      (words isSeparator lex none (pieces none false shell.toList)).map String.ofList := by
  unfold splitShellString
  rw [tokens_run ShellLexer.init (inQuote_none rfl)]
  rfl

theorem splitShellString_eq_shellWords_iff (shell : String) :
    splitShellString shell = shellWords shell ↔ ∀ word ∈ shellRuns shell, ReadInFull word := by
  have hinj : (String.ofList).Injective := fun _ _ => String.ofList_injective
  have hseparator : ∀ word ∈ shellRuns shell, .separator ∉ word := by
    intro word hword hmem
    cases not_isSep_of_mem hword hmem
  rw [splitShellString_eq, shellWords, hinj.list_map.eq_iff, words_eq_words_iff]
  · exact forall₂_congr fun word hword => wordOf_lex_eq_keep_iff (hseparator word hword)
  · intro word hword
    rw [wordOf_keep, wordOf_lex (hseparator word hword)]
    split <;> rfl

theorem shellRuns_segments (segs : List ShellSegment) :
    shellRuns (String.ofList (segs.flatMap (·.text))) = [segs.flatMap (·.pieces)] := by
  unfold shellRuns
  rw [String.toList_ofList, ShellSegment.pieces_texts]
  refine List.splitOnP_eq_singleton fun p hp => ?_
  obtain ⟨seg, _, hp⟩ := List.mem_flatMap.mp hp
  simpa [isSeparator] using ShellSegment.not_separator hp

/-- Segments without a blank between them are one word. -/
theorem shellWords_segments {segs : List ShellSegment} (hne : segs.flatMap (·.pieces) ≠ []) :
    shellWords (String.ofList (segs.flatMap (·.text))) =
      [String.ofList (segs.flatMap (·.contents))] := by
  have hruns := shellRuns_segments segs
  unfold shellRuns at hruns
  have hcontents : (segs.flatMap (·.pieces)).flatMap ShellPiece.contents =
      segs.flatMap (·.contents) := by
    rw [List.flatMap_assoc]
    exact List.flatMap_congr fun seg _ => seg.contents_pieces
  unfold shellWords
  rw [words_none, hruns, List.filterMap_cons, wordOf_keep, if_neg hne, hcontents]
  rfl

/-- The words of a command line are read exactly when each of them is read in full,
and segments are read as one token of their contents exactly when they are. -/
theorem splitShellString_keeps_iff (shell : String) (segs : List ShellSegment) :
    (splitShellString shell = shellWords shell ↔ ∀ word ∈ shellRuns shell, ReadInFull word) ∧
    (segs.flatMap (·.pieces) ≠ [] →
      (splitShellString (String.ofList (segs.flatMap (·.text))) =
        [String.ofList (segs.flatMap (·.contents))] ↔ ReadInFull (segs.flatMap (·.pieces)))) := by
  refine ⟨splitShellString_eq_shellWords_iff shell, fun hne => ?_⟩
  rw [← shellWords_segments hne, splitShellString_eq_shellWords_iff, shellRuns_segments,
    List.forall_mem_singleton]

/-- The argument `'a 'b` is read. -/
theorem splitShellString_keeps_iff_quoted :
    let segs : List ShellSegment :=
      [.quoted '\'' (.inr rfl) [.plain 'a' (by decide) (by decide), .plain ' ' (by decide) (by decide)],
        .unquoted ['b'] (List.forall_mem_singleton.mpr rfl)]
    (splitShellString (String.ofList (segs.flatMap (·.text))) =
        [String.ofList (segs.flatMap (·.contents))] ↔ ReadInFull (segs.flatMap (·.pieces))) ∧
      ReadInFull (segs.flatMap (·.pieces)) := by
  refine ⟨(splitShellString_keeps_iff "" _).2 (by decide), .kept (by decide) (by decide)⟩

/-- What comes before a quote is lost. -/
theorem splitShellString_drops :
    splitShellString "-DNAME=\"a b\"" = ["a b"] ∧
      shellWords "-DNAME=\"a b\"" = ["-DNAME=a b"] := by
  decide

end Bpt
