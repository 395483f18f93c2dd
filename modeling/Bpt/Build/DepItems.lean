-- SUMMARY: What the lexer loses of the paths of a rule, and that it loses nothing only of readable paths.
import Bpt.Build.Depfile

/-!
# The items of a rule

The quotes, the backslashes and the blanks that the lexer keeps are paid for by
those of the paths. When all of them are kept, each item is read without loss.
-/

namespace Bpt.Build

open ShellLexer

/-! ## Text in which no quote is opened -/

def isQuote (c : Char) : Bool := c = '"' ∨ c = '\''

/-- All quotes of the text end up in the tokens. -/
structure QuoteFree (s : ShellLexer) (text : List Char) : Prop where
  outside : s.curQuote = noQuote
  tight : Potential.Tight ShellLexer.step (count isQuote) (fun c => (isQuote c).toNat) s text

namespace QuoteFree

variable {s : ShellLexer} {c : Char} {rest text : List Char}

theorem count_step (h : QuoteFree s (c :: rest)) :
    (s.step c).count isQuote = s.count isQuote + (isQuote c).toNat :=
  ((paid_count rfl).tight_cons trivial h.tight).1

/-- A quote that opened a token would be lost. -/
theorem isQuote_eq_false (h : QuoteFree s (c :: rest)) (hescape : s.isEscaped = false) :
    isQuote c = false := by
  by_contra hquote
  rw [Bool.not_eq_false] at hquote
  have hcount := h.count_step
  have hc : c = '"' ∨ c = '\'' := by simpa [isQuote] using hquote
  have hbackslash : c ≠ '\\' := by rcases hc with rfl | rfl <;> decide
  have hopen : s.step c = { s with curQuote := c, token := some [] } := by
    simp [ShellLexer.step, hescape, hbackslash, h.outside, hc]
  have hdrop := count_openQuote isQuote s c
  rw [hopen, hquote, Bool.toNat_true] at hcount
  omega

theorem step (h : QuoteFree s (c :: rest)) : QuoteFree (s.step c) rest := by
  refine ⟨?_, ((paid_count rfl).tight_cons trivial h.tight).2⟩
  have hquote := h.isQuote_eq_false
  have hstep := steps s c
  generalize s.step c = s' at hstep
  cases hstep with
  | close => rfl
  | openQuote escape _ quote =>
    have hc := hquote escape
    rcases quote with rfl | rfl <;> cases hc
  | _ => exact h.outside

theorem run (h : QuoteFree s (text ++ rest)) : QuoteFree (s.run text) rest := by
  induction text generalizing s with
  | nil => exact h
  | cons c text ih => exact ih h.step

/-- Nothing but backslashes and blanks is lost. -/
theorem count_run (h : QuoteFree s text) {test : Char → Bool} (hbackslash : test '\\' = false)
    (hnull : test noQuote = false) (hblank : ∀ c, isBlank c = true → test c = false) :
    (s.run text).count test = s.count test + text.countP test := by
  induction text generalizing s with
  | nil => rfl
  | cons c rest ih =>
    have hsame : (s.step c).count test = s.count test + (test c).toNat := by
      have hquote := h.isQuote_eq_false
      have hstep := steps s c
      generalize s.step c = s' at hstep
      cases hstep with
      | skipNewline _ newline =>
        rw [newline, hblank '\n' (by decide)]
        rfl
      | appendEscaped => exact count_append _ _ _
      | appendBackslash _ null =>
        rw [null, count, text_append, List.countP_append]
        simp [hbackslash, hnull, count, ShellLexer.text]
      | escape _ backslash =>
        rw [backslash, hbackslash]
        rfl
      | close _ _ quote =>
        rw [quote, h.outside, hnull]
        rfl
      | appendQuoted _ _ inside => exact absurd h.outside inside
      | openQuote escape _ quote =>
        have hc := hquote escape
        rcases quote with rfl | rfl <;> cases hc
      | blank _ _ isBlank =>
        rw [count_blank, hblank c isBlank]
        rfl
      | append => exact count_append _ _ _
    rw [run_cons, ih h.step, hsame, List.countP_cons]
    cases test c <;> simp [Nat.add_assoc, Nat.add_comm]

end QuoteFree

/-! ## Items of a rule -/

/-- A rule without line continuations, as the characters of its paths and what
is between them. -/
inductive DepItem where
  | path (c : Char)
  | space
  | newline
  deriving DecidableEq

namespace DepItem

def text : DepItem → List Char
  | .path c => mkEscape c
  | .space => [' ']
  | .newline => ['\n']

def chars : DepItem → List Char
  | .path c => [c]
  | .space => []
  | .newline => []

end DepItem

/-- The lexer reads an item. -/
def readItem (s : ShellLexer) (item : DepItem) : ShellLexer := s.run item.text

theorem foldl_readItem (s : ShellLexer) (items : List DepItem) :
    items.foldl readItem s = s.run (items.flatMap DepItem.text) := by
  induction items generalizing s with
  | nil => rfl
  | cons item rest ih => rw [List.foldl_cons, ih, List.flatMap_cons, run_append, readItem]

theorem countP_text {test : Char → Bool} (item : DepItem) (hbackslash : test '\\' = false)
    (hspace : test ' ' = false) (hnewline : test '\n' = false) (hdollar : test '$' = false) :
    item.text.countP test = item.chars.countP test := by
  cases item with
  | path c =>
    show (mkEscape c).countP test = [c].countP test
    unfold mkEscape
    by_cases hc : c = ' '
    · simp [hc, hbackslash, hspace]
    by_cases hc' : c = '#'
    · simp [hc', hbackslash, List.countP_cons]
    by_cases hc'' : c = '$'
    · simp [hc'', hdollar]
    rw [if_neg hc, if_neg hc', if_neg hc'']
  | space => simp [DepItem.text, DepItem.chars, hspace]
  | newline => simp [DepItem.text, DepItem.chars, hnewline]

/-- After a backslash. -/
def escaping (acc : List (List Char)) (token : Option (List Char)) : ShellLexer :=
  ⟨acc, token, noQuote, true⟩

section

variable {acc : List (List Char)} {token : Option (List Char)} {test : Char → Bool}

theorem count_outside :
    (outside acc token).count test = acc.flatten.countP test + (token.getD []).countP test := by
  simp [outside, count, ShellLexer.text]

theorem count_escaping : (escaping acc token).count test = (outside acc token).count test := rfl

theorem count_blank_outside :
    (outside (acc ++ token.toList) none).count test = (outside acc token).count test := by
  rw [count_outside, count_outside]
  cases token <;> simp

theorem count_append_outside (cs : List Char) :
    (outside acc (some (token.getD [] ++ cs))).count test =
      (outside acc token).count test + cs.countP test := by
  rw [count_outside, count_outside, Option.getD_some, List.countP_append, Nat.add_assoc]

theorem count_escaped_outside :
    (outside (acc ++ [token.getD [] ++ ['\\']]) none).count test =
      (outside acc token).count test + ['\\'].countP test := by
  rw [← count_append_outside]
  exact @count_blank_outside acc (some (token.getD [] ++ ['\\'])) test

/-- A character after a backslash. -/
theorem step_escaping (c : Char) :
    (escaping acc token).step c =
      if c = '\n' then outside acc token
      else outside acc (some (token.getD [] ++ if c = noQuote then ['\\', c] else [c])) := by
  unfold escaping ShellLexer.step
  by_cases hnewline : c = '\n'
  · simp [hnewline, outside]
  · by_cases hnull : c = noQuote
    · subst hnull
      rfl
    · simp [hnewline, hnull, outside, append]

theorem step_outside {c : Char} (hquote : isQuote c = false) (hbackslash : c ≠ '\\') :
    (outside acc token).step c =
      if isBlank c then outside (acc ++ token.toList) none
      else outside acc (some (token.getD [] ++ [c])) := by
  simp only [isQuote, decide_eq_false_iff_not, not_or] at hquote
  simp [ShellLexer.step, outside, hbackslash, hquote, append, tokens]

/-- What reading an item does outside of quotes. -/
inductive OutsideRead (acc : List (List Char)) (token : Option (List Char)) :
    DepItem → ShellLexer → Prop where
  | gap {item : DepItem} (between : item.chars = []) :
      OutsideRead acc token item (outside (acc ++ token.toList) none)
  | backslash : OutsideRead acc token (.path '\\') (escaping acc token)
  | lost {c : Char} (blank : isBlank c = true) (ne_space : c ≠ ' ') :
      OutsideRead acc token (.path c) (outside (acc ++ token.toList) none)
  | kept {c : Char} {cs : List Char} (ne_backslash : c ≠ '\\') (blank : isBlank c = true → c = ' ')
      (read : cs = [c] ∨ c = '$' ∧ cs = ['$', '$']) :
      OutsideRead acc token (.path c) (outside acc (some (token.getD [] ++ cs)))

theorem readItem_outside {item : DepItem} {rest : List Char}
    (h : QuoteFree (outside acc token) (item.text ++ rest)) :
    OutsideRead acc token item (readItem (outside acc token) item) := by
  cases item with
  | space => exact .gap rfl
  | newline => exact .gap rfl
  | path c =>
    by_cases hspace : c = ' '
    · subst hspace
      exact .kept (by decide) (fun _ => rfl) (.inl rfl)
    by_cases hhash : c = '#'
    · subst hhash
      exact .kept (by decide) (by decide) (.inl rfl)
    by_cases hdollar : c = '$'
    · subst hdollar
      have hread : readItem (outside acc token) (.path '$') =
          outside acc (some (token.getD [] ++ ['$', '$'])) := by
        simp [readItem, DepItem.text, mkEscape, run_cons, run_nil, ShellLexer.step, outside, append,
          noQuote, isBlank]
      rw [hread]
      exact .kept (by decide) (by decide) (.inr ⟨rfl, rfl⟩)
    have htext : (DepItem.path c).text = [c] := by
      show mkEscape c = [c]
      unfold mkEscape
      rw [if_neg hspace, if_neg hhash, if_neg hdollar]
    rw [readItem, htext, run_cons, run_nil]
    rw [htext] at h
    have hquote := h.isQuote_eq_false rfl
    by_cases hbackslash : c = '\\'
    · subst hbackslash
      exact .backslash
    rw [step_outside hquote hbackslash]
    split
    next hblank => exact .lost hblank hspace
    next hblank => exact .kept hbackslash (fun hc => absurd hc hblank) (.inl rfl)

/-- What reading an item does after a backslash. -/
inductive EscapingRead (acc : List (List Char)) (token : Option (List Char)) :
    DepItem → ShellLexer → Prop where
  | escapedSpace : EscapingRead acc token .space (outside acc (some (token.getD [] ++ [' '])))
  | escapedNewline {item : DepItem} (newline : item.text = ['\n']) :
      EscapingRead acc token item (outside acc token)
  | escapedBackslash :
      EscapingRead acc token (.path ' ') (outside (acc ++ [token.getD [] ++ ['\\']]) none)
  | kept {c : Char} (keeps : keepsBackslash c = true) :
      EscapingRead acc token (.path c) (outside acc (some (token.getD [] ++ ['\\', c])))
  | dropped {c : Char} {cs : List Char} (ne_space : c ≠ ' ')
      (read : cs = [c] ∨ c = '$' ∧ cs = ['$', '$']) :
      EscapingRead acc token (.path c) (outside acc (some (token.getD [] ++ cs)))

theorem readItem_escaping (item : DepItem) :
    EscapingRead acc token item (readItem (escaping acc token) item) := by
  cases item with
  | space => exact .escapedSpace
  | newline => exact .escapedNewline rfl
  | path c =>
    by_cases hspace : c = ' '
    · subst hspace
      exact .escapedBackslash
    by_cases hhash : c = '#'
    · subst hhash
      have hread : readItem (escaping acc token) (.path '#') =
          outside acc (some (token.getD [] ++ ['\\', '#'])) := by
        simp [readItem, DepItem.text, mkEscape, run_cons, run_nil, ShellLexer.step, outside, escaping,
          append, noQuote, isBlank]
      rw [hread]
      exact .kept rfl
    by_cases hdollar : c = '$'
    · subst hdollar
      have hread : readItem (escaping acc token) (.path '$') =
          outside acc (some (token.getD [] ++ ['$', '$'])) := by
        simp [readItem, DepItem.text, mkEscape, run_cons, run_nil, ShellLexer.step, outside, escaping,
          append, noQuote, isBlank]
      rw [hread]
      exact .dropped (by decide) (.inr ⟨rfl, rfl⟩)
    have htext : (DepItem.path c).text = [c] := by
      show mkEscape c = [c]
      unfold mkEscape
      rw [if_neg hspace, if_neg hhash, if_neg hdollar]
    rw [readItem, htext, run_cons, run_nil, step_escaping]
    by_cases hnewline : c = '\n'
    · subst hnewline
      exact .escapedNewline rfl
    rw [if_neg hnewline]
    by_cases hnull : c = noQuote
    · subst hnull
      exact .kept rfl
    · rw [if_neg hnull]
      exact .dropped hspace (.inl rfl)

end

/-! ## Counting backslashes and blanks -/

/-- The worth of the backslashes in the tokens, and of one that is being read. -/
def backslashes (s : ShellLexer) : Nat := s.count isBackslash + s.isEscaped.toNat

def backslashWeight (item : DepItem) : Nat := item.chars.countP isBackslash

theorem backslashes_outside (acc : List (List Char)) (token : Option (List Char)) :
    backslashes (outside acc token) = (outside acc token).count isBackslash := rfl

theorem backslashes_escaping (acc : List (List Char)) (token : Option (List Char)) :
    backslashes (escaping acc token) = (outside acc token).count isBackslash + 1 := rfl

theorem countP_read {c : Char} {cs : List Char} (read : cs = [c] ∨ c = '$' ∧ cs = ['$', '$'])
    {test : Char → Bool} (hdollar : test '$' = false) : cs.countP test = [c].countP test := by
  rcases read with rfl | ⟨rfl, rfl⟩
  · rfl
  · simp [hdollar]

section

variable {acc : List (List Char)} {token : Option (List Char)} {item : DepItem} {s : ShellLexer}

theorem OutsideRead.backslashes_le (h : OutsideRead acc token item s) :
    backslashes s ≤ backslashes (outside acc token) + backslashWeight item := by
  unfold backslashWeight
  cases h with
  | gap => exact count_blank_outside.le.trans (Nat.le_add_right _ _)
  | backslash => exact le_rfl
  | lost => exact count_blank_outside.le.trans (Nat.le_add_right _ _)
  | kept _ _ read =>
    rw [backslashes_outside, count_append_outside, countP_read read rfl]
    exact le_rfl

/-- After a backslash, nothing is lost only on a character that keeps it or that is
escaped itself. -/
theorem EscapingRead.backslashes_le (h : EscapingRead acc token item s) :
    backslashes s ≤ backslashes (escaping acc token) + backslashWeight item ∧
      (backslashes s = backslashes (escaping acc token) + backslashWeight item →
        ∃ c, item = .path c ∧ (c = ' ' ∨ keepsBackslash c = true)) := by
  unfold backslashWeight
  rw [backslashes_escaping]
  cases h with
  | escapedSpace =>
    rw [backslashes_outside, count_append_outside]
    have hnone : [' '].countP isBackslash = 0 := rfl
    omega
  | escapedNewline =>
    rw [backslashes_outside]
    omega
  | escapedBackslash =>
    refine ⟨?_, fun _ => ⟨' ', rfl, .inl rfl⟩⟩
    rw [backslashes_outside, count_escaped_outside]
    exact le_rfl
  | kept keeps =>
    refine ⟨?_, fun _ => ⟨_, rfl, .inr keeps⟩⟩
    rw [backslashes_outside, count_append_outside]
    simp [DepItem.chars, List.countP_cons, isBackslash]
    omega
  | dropped _ read =>
    rw [backslashes_outside, count_append_outside, countP_read read rfl, DepItem.chars]
    omega

def blankWeight (item : DepItem) : Nat := item.chars.countP isBlank

theorem OutsideRead.blanks_le (h : OutsideRead acc token item s) :
    s.count isBlank ≤ (outside acc token).count isBlank + blankWeight item ∧
      (s.count isBlank = (outside acc token).count isBlank + blankWeight item →
        ∀ c, item = .path c → isBlank c = true → c = ' ') := by
  unfold blankWeight
  cases h with
  | gap between =>
    refine ⟨count_blank_outside.le.trans (Nat.le_add_right _ _), ?_⟩
    rintro - c rfl
    cases between
  | backslash => exact ⟨le_rfl, fun _ c hc hblank => by cases hc; cases hblank⟩
  | @lost c blank _ =>
    have hone : [c].countP isBlank = 1 := by simp [blank]
    rw [count_blank_outside, DepItem.chars, hone]
    omega
  | kept _ blank read =>
    rw [count_append_outside, countP_read read rfl]
    refine ⟨le_rfl, fun _ d hd => ?_⟩
    rw [← DepItem.path.inj hd]
    exact blank

/-- A space of a path is lost after a backslash. -/
theorem EscapingRead.blanks_le {c : Char} (h : EscapingRead acc token (.path c) s)
    (hc : c = ' ' ∨ keepsBackslash c = true) :
    s.count isBlank ≤ (escaping acc token).count isBlank + blankWeight (.path c) ∧
      (s.count isBlank = (escaping acc token).count isBlank + blankWeight (.path c) →
        keepsBackslash c = true) := by
  unfold blankWeight
  rw [count_escaping]
  cases h with
  | escapedNewline newline =>
    refine ⟨Nat.le_add_right _ _, fun _ => ?_⟩
    rcases hc with rfl | hc
    · cases newline
    · exact hc
  | escapedBackslash =>
    rw [count_escaped_outside]
    have hspace : [' '].countP isBlank = 1 := rfl
    have hbackslash : ['\\'].countP isBlank = 0 := rfl
    rw [DepItem.chars, hspace, hbackslash]
    omega
  | kept keeps =>
    refine ⟨?_, fun _ => keeps⟩
    rw [count_append_outside, List.countP_cons_of_neg (by decide)]
    exact le_rfl
  | dropped ne_space read =>
    rw [count_append_outside, countP_read read rfl]
    exact ⟨le_rfl, fun _ => hc.resolve_left ne_space⟩

end

/-- Outside of quotes the lexer is after a backslash or is not. -/
theorem quoteFree_cases {s : ShellLexer} {text : List Char} (h : QuoteFree s text) :
    ∃ acc token, s = outside acc token ∨ s = escaping acc token := by
  obtain ⟨acc, token, q, isEscaped⟩ := s
  obtain rfl : q = noQuote := h.outside
  cases isEscaped with
  | false => exact ⟨acc, token, .inl rfl⟩
  | true => exact ⟨acc, token, .inr rfl⟩

theorem QuoteFree.readItem {s : ShellLexer} {item : DepItem} {rest : List DepItem}
    (h : QuoteFree s ((item :: rest).flatMap DepItem.text)) :
    QuoteFree (readItem s item) (rest.flatMap DepItem.text) := by
  rw [List.flatMap_cons] at h
  exact h.run

/-- The backslashes of the tokens are paid for by those of the paths. -/
theorem paid_backslashes : Potential.Paid readItem backslashes backslashWeight
    fun s items => QuoteFree s (items.flatMap DepItem.text) := by
  refine ⟨fun s item rest h => h.readItem, fun s item rest h => ?_⟩
  obtain ⟨acc, token, rfl | rfl⟩ := quoteFree_cases h
  · exact (readItem_outside h).backslashes_le
  · exact (readItem_escaping item).backslashes_le.1

/-- All backslashes of the paths end up in the tokens. -/
structure KeepsBackslashes (s : ShellLexer) (items : List DepItem) : Prop where
  quoteFree : QuoteFree s (items.flatMap DepItem.text)
  tight : Potential.Tight readItem backslashes backslashWeight s items

theorem KeepsBackslashes.readItem {s : ShellLexer} {item : DepItem} {rest : List DepItem}
    (h : KeepsBackslashes s (item :: rest)) : KeepsBackslashes (readItem s item) rest :=
  ⟨h.quoteFree.readItem, (paid_backslashes.tight_cons h.quoteFree h.tight).2⟩

/-- What comes after a backslash. -/
theorem KeepsBackslashes.eq_path {acc : List (List Char)} {token : Option (List Char)}
    {item : DepItem} {rest : List DepItem} (h : KeepsBackslashes (escaping acc token) (item :: rest)) :
    ∃ c, item = .path c ∧ (c = ' ' ∨ keepsBackslash c = true) :=
  (readItem_escaping item).backslashes_le.2 (paid_backslashes.tight_cons h.quoteFree h.tight).1

theorem paid_blanks : Potential.Paid readItem (count isBlank) blankWeight KeepsBackslashes := by
  refine ⟨fun s item rest h => h.readItem, fun s item rest h => ?_⟩
  obtain ⟨acc, token, rfl | rfl⟩ := quoteFree_cases h.quoteFree
  · exact (readItem_outside h.quoteFree).blanks_le.1
  · obtain ⟨c, rfl, hc⟩ := h.eq_path
    exact ((readItem_escaping _).blanks_le hc).1

/-! ## What is read is readable -/

/-- `Readable` for the paths of a list of items. -/
def ReadableItems : List DepItem → Prop
  | [] => True
  | item :: rest =>
    (∀ c, item = .path c → isMisread c = false ∧
      (c = '\\' → ∃ d more, rest = .path d :: more ∧ keepsBackslash d = true)) ∧
      ReadableItems rest

/-- A character that keeps a backslash is read as written. -/
theorem isMisread_of_keeps {c : Char} (h : keepsBackslash c = true) :
    isMisread c = false ∧ c ≠ '\\' := by
  simp only [keepsBackslash, decide_eq_true_eq] at h
  rcases h with rfl | rfl <;> decide

theorem QuoteFree.isMisread_eq_false {acc : List (List Char)} {token : Option (List Char)} {c : Char}
    {rest : List Char} (h : QuoteFree (Build.outside acc token) ((DepItem.path c).text ++ rest))
    (hblank : isBlank c = true → c = ' ') (hdollar : c ≠ '$') : isMisread c = false := by
  by_contra hmisread
  simp only [Bool.not_eq_false, isMisread, decide_eq_true_eq] at hmisread
  rcases hmisread with rfl | rfl | rfl | rfl | rfl | rfl | rfl
  · cases h.isQuote_eq_false rfl
  · cases h.isQuote_eq_false rfl
  · exact hdollar rfl
  all_goals exact absurd (hblank (by decide)) (by decide)

/-- When nothing of the paths is lost, they are readable. -/
theorem readableItems_of_tight {s : ShellLexer} {items : List DepItem}
    (h : KeepsBackslashes s items)
    (htight : Potential.Tight readItem (count isBlank) blankWeight s items)
    (hend : (items.foldl readItem s).isEscaped = false) (hdollar : .path '$' ∉ items) :
    ReadableItems items ∧
      (s.isEscaped = true → ∃ d more, items = .path d :: more ∧ keepsBackslash d = true) := by
  induction items generalizing s with
  | nil => exact ⟨trivial, fun hescaped => absurd (hend.symm.trans hescaped) Bool.false_ne_true⟩
  | cons item rest ih =>
    obtain ⟨hblanks, htight⟩ := paid_blanks.tight_cons h htight
    obtain ⟨hrest, hnext⟩ := ih h.readItem htight hend fun hmem =>
      hdollar (List.mem_cons_of_mem _ hmem)
    obtain ⟨acc, token, rfl | rfl⟩ := quoteFree_cases h.quoteFree
    · refine ⟨⟨?_, hrest⟩, fun hescaped => nomatch hescaped⟩
      rintro c rfl
      have hblank := (readItem_outside h.quoteFree).blanks_le.2 hblanks c rfl
      refine ⟨h.quoteFree.isMisread_eq_false hblank ?_, ?_⟩
      · rintro rfl
        exact hdollar List.mem_cons_self
      · rintro rfl
        exact hnext rfl
    · obtain ⟨c, rfl, hc⟩ := h.eq_path
      have hkeeps := ((readItem_escaping _).blanks_le hc).2 hblanks
      obtain ⟨hmisread, hbackslash⟩ := isMisread_of_keeps hkeeps
      refine ⟨⟨?_, hrest⟩, fun _ => ⟨c, rest, rfl, hkeeps⟩⟩
      rintro d ⟨⟩
      exact ⟨hmisread, fun hd => absurd hd hbackslash⟩

theorem weight_chars (test : Char → Bool) (items : List DepItem) :
    Potential.weight (fun item => item.chars.countP test) items =
      (items.flatMap DepItem.chars).countP test := by
  induction items with
  | nil => rfl
  | cons item rest ih => rw [Potential.weight, ih, List.flatMap_cons, List.countP_append]

theorem countP_texts {test : Char → Bool} {times : Nat}
    (htext : ∀ item : DepItem, item.text.countP test = times * item.chars.countP test)
    (items : List DepItem) :
    (items.flatMap DepItem.text).countP test =
      times * (items.flatMap DepItem.chars).countP test := by
  induction items with
  | nil => rfl
  | cons item rest ih =>
    rw [List.flatMap_cons, List.flatMap_cons, List.countP_append, List.countP_append, ih, htext,
      Nat.mul_add]

/-- A rule whose tokens have the characters of its paths is readable. -/
theorem readableItems_of_text {items : List DepItem}
    (h : (init.run (items.flatMap DepItem.text)).text = items.flatMap DepItem.chars) :
    ReadableItems items := by
  have hcount (test : Char → Bool) : (init.run (items.flatMap DepItem.text)).count test =
      (items.flatMap DepItem.chars).countP test := by
    rw [count, h]
  have hquoteFree : QuoteFree init (items.flatMap DepItem.text) := by
    refine ⟨rfl, ?_⟩
    unfold Potential.Tight
    have htext (item : DepItem) : item.text.countP isQuote = 1 * item.chars.countP isQuote :=
      (countP_text item rfl rfl rfl rfl).trans (Nat.one_mul _).symm
    rw [weight_toNat, countP_texts htext, Nat.one_mul]
    exact (hcount isQuote).trans (Nat.zero_add _).symm
  have hdollar : .path '$' ∉ items := by
    intro hmem
    have htext (item : DepItem) :
        item.text.countP (· = '$') = 2 * item.chars.countP (· = '$') := by
      cases item with
      | path c =>
        show (mkEscape c).countP (· = '$') = 2 * [c].countP (· = '$')
        unfold mkEscape
        split_ifs with hspace hhash hd <;> simp_all
      | space => rfl
      | newline => rfl
    have hkept := @QuoteFree.count_run _ _ hquoteFree (· = '$') rfl rfl (by
      intro c hblank
      by_contra hc
      simp only [Bool.not_eq_false, decide_eq_true_eq] at hc
      subst hc
      cases hblank)
    rw [hcount, countP_texts htext] at hkept
    have hzero : init.count (· = '$') = 0 := rfl
    have hpos : 0 < (items.flatMap DepItem.chars).countP (· = '$') :=
      List.countP_pos_iff.mpr ⟨'$', List.mem_flatMap.mpr ⟨_, hmem, List.mem_singleton_self _⟩, rfl⟩
    omega
  have hle := paid_backslashes.foldl_le hquoteFree
  have hweight : Potential.weight backslashWeight items =
      (items.flatMap DepItem.chars).countP isBackslash := weight_chars isBackslash items
  have hinit : backslashes init = 0 := rfl
  have hbackslashes := hcount isBackslash
  rw [← foldl_readItem] at hbackslashes
  have hworth : backslashes (items.foldl readItem init) =
      (items.foldl readItem init).count isBackslash +
        (items.foldl readItem init).isEscaped.toNat := rfl
  refine (readableItems_of_tight (s := init) ⟨hquoteFree, ?_⟩ ?_ ?_ hdollar).1
  · unfold Potential.Tight
    omega
  · unfold Potential.Tight
    rw [foldl_readItem, hcount]
    exact ((Nat.zero_add _).trans (weight_chars isBlank items)).symm
  · rw [← Bool.toNat_eq_zero]
    omega

end Bpt.Build
