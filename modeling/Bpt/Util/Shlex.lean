-- SUMMARY: Splitting a command line into arguments, and when quoting a command and splitting it again is the identity.
import Bpt.Base.Potential
import Bpt.Util.Proc

/-!
# Splitting command lines

The lexer drops a backslash that is not escaped itself, and the quoting of an
argument does not escape backslashes; an empty argument is quoted as nothing.
-/

namespace Bpt

/-! ## The lexer -/

/-- The local variables of the loop. Outside of quotes `curQuote` is the null
character. -/
structure ShellLexer where
  acc : List (List Char)
  token : Option (List Char)
  curQuote : Char
  isEscaped : Bool

namespace ShellLexer

def noQuote : Char := '\x00'

def init : ShellLexer := ⟨[], none, noQuote, false⟩

def isBlank (c : Char) : Bool := c = '\t' || c = ' ' || c = '\n' || c = '\r' || c = '\x0c'

/-- `token = token.value_or("") + cs`. -/
def append (s : ShellLexer) (cs : List Char) : ShellLexer :=
  { s with token := some (s.token.getD [] ++ cs) }

/-- The tokens when the text ends here. -/
def tokens (s : ShellLexer) : List (List Char) := s.acc ++ s.token.toList

def step (s : ShellLexer) (c : Char) : ShellLexer :=
  if s.isEscaped then
    let s' := { s with isEscaped := false }
    if c = '\n' then s'
    else if s.curQuote ≠ noQuote ∨ c ≠ s.curQuote ∨ c = '\\' then s'.append [c]
    else s'.append ['\\', c]
  else if c = '\\' then { s with isEscaped := true }
  else if s.curQuote ≠ noQuote then
    if c = s.curQuote then { s with curQuote := noQuote } else s.append [c]
  else if c = '"' ∨ c = '\'' then { s with curQuote := c, token := some [] }
  else if isBlank c then { s with acc := s.tokens, token := none }
  else s.append [c]

def run (s : ShellLexer) (text : List Char) : ShellLexer := text.foldl step s

theorem run_nil (s : ShellLexer) : s.run [] = s := rfl

theorem run_cons (s : ShellLexer) (c : Char) (text : List Char) :
    s.run (c :: text) = (s.step c).run text := rfl

theorem run_append (s : ShellLexer) (text more : List Char) :
    s.run (text ++ more) = (s.run text).run more :=
  List.foldl_append

end ShellLexer

def splitShellString (shell : String) : List String :=
  (ShellLexer.init.run shell.toList).tokens.map String.ofList

example : splitShellString "foo \"\" 'a b' c\\ d" = ["foo", "", "a b", "c d"] := by decide

namespace ShellLexer

/-! ## Reading quoted arguments -/

/-- Between arguments: outside of quotes, with no token begun. -/
def between (acc : List (List Char)) : ShellLexer := ⟨acc, none, noQuote, false⟩

/-- Inside of double quotes. -/
def quoted (acc : List (List Char)) (token : List Char) : ShellLexer := ⟨acc, some token, '"', false⟩

/-- After an argument, before the blank that ends it. -/
def after (acc : List (List Char)) (arg : List Char) : ShellLexer :=
  ⟨acc, if arg = [] then none else some arg, noQuote, false⟩

/-- The text that stands for an argument inside of quotes. -/
def escaped (arg : List Char) : List Char := replace arg ['"'] ['\\', '"']

theorem escaped_cons (c : Char) (arg : List Char) :
    escaped (c :: arg) = (if c = '"' then ['\\', '"'] else [c]) ++ escaped arg := by
  unfold escaped
  rw [replace_singleton, replace_singleton, List.flatMap_cons]

/-- Without backslashes the text is read as the argument. -/
theorem run_escaped (acc : List (List Char)) (token : List Char) {arg : List Char}
    (harg : '\\' ∉ arg) : (quoted acc token).run (escaped arg) = quoted acc (token ++ arg) := by
  induction arg generalizing token with
  | nil => rw [List.append_nil]; rfl
  | cons c arg ih =>
    have hc : c ≠ '\\' := fun h => harg (h ▸ List.mem_cons_self)
    have hrest := fun token => ih token fun h => harg (List.mem_cons_of_mem c h)
    rw [escaped_cons, run_append, List.append_cons]
    by_cases hquote : c = '"'
    · subst hquote
      exact hrest (token ++ ['"'])
    · rw [if_neg hquote]
      have hstep : (quoted acc token).run [c] = quoted acc (token ++ [c]) := by
        simp [run_cons, run_nil, step, quoted, append, noQuote, hc, hquote]
      rw [hstep]
      exact hrest (token ++ [c])

theorem quoteArgument_eq (arg : List Char) :
    quoteArgument arg = if needsQuoting arg then '"' :: escaped arg ++ ['"'] else arg := rfl

theorem isOkay_of_mem {arg : List Char} (harg : needsQuoting arg = false) {c : Char}
    (hc : c ∈ arg) : isOkay c = true := by
  have hall : ∀ c ∈ arg, isOkay c = true := by simpa [needsQuoting] using harg
  exact hall c hc

/-- Outside of quotes okay characters are read as they are. -/
theorem step_okay (s : ShellLexer) (hescaped : s.isEscaped = false) (hquote : s.curQuote = noQuote)
    {c : Char} (hc : isOkay c = true) : s.step c = s.append [c] := by
  have hne : ∀ d : Char, isOkay d = false → c ≠ d := by
    rintro d hd rfl
    rw [hc] at hd
    cases hd
  have hblank : isBlank c = false := by
    simp [isBlank, hne '\t' (by decide), hne ' ' (by decide), hne '\n' (by decide),
      hne '\r' (by decide), hne '\x0c' (by decide)]
  simp [step, hescaped, hquote, hblank, hne '\\' (by decide), hne '"' (by decide),
    hne '\'' (by decide)]

theorem run_okay (acc : List (List Char)) (token : List Char) {arg : List Char}
    (harg : ∀ c ∈ arg, isOkay c = true) :
    (⟨acc, some token, noQuote, false⟩ : ShellLexer).run arg =
      ⟨acc, some (token ++ arg), noQuote, false⟩ := by
  induction arg generalizing token with
  | nil => rw [List.append_nil]; rfl
  | cons c arg ih =>
    rw [run_cons, step_okay _ rfl rfl (harg c List.mem_cons_self), List.append_cons]
    exact ih (token ++ [c]) fun d hd => harg d (List.mem_cons_of_mem c hd)

/-- An argument without backslashes is read back. -/
theorem run_quoteArgument (acc : List (List Char)) {arg : List Char} (harg : '\\' ∉ arg) :
    (between acc).run (quoteArgument arg) = after acc arg := by
  rw [quoteArgument_eq]
  split
  next hquoting =>
    have hne : arg ≠ [] := by
      rintro rfl
      cases hquoting
    rw [List.cons_append, run_cons, run_append]
    have hopen : (between acc).step '"' = quoted acc [] := rfl
    rw [hopen, run_escaped acc [] harg, List.nil_append, after, if_neg hne]
    rfl
  next hquoting =>
    have hokay : ∀ c ∈ arg, isOkay c = true := fun c =>
      isOkay_of_mem (Bool.eq_false_iff.mpr hquoting)
    cases arg with
    | nil => rfl
    | cons c arg =>
      rw [run_cons, step_okay _ rfl rfl (hokay c List.mem_cons_self)]
      exact run_okay acc [c] fun d hd => hokay d (List.mem_cons_of_mem c hd)

/-- The arguments read so far: empty ones leave nothing. -/
theorem tokens_after (acc : List (List Char)) (arg : List Char) :
    (after acc arg).tokens = acc ++ [arg].filter (· ≠ []) := by
  by_cases h : arg = [] <;> simp [after, tokens, h]

theorem step_after_blank (acc : List (List Char)) (arg : List Char) :
    (after acc arg).step ' ' = between (acc ++ [arg].filter (· ≠ [])) := by
  rw [← tokens_after]
  rfl

/-! ## Command lines -/

/-- Arguments with a space after each. -/
def spaced (args : List (List Char)) : List Char :=
  args.flatMap fun arg => quoteArgument arg ++ [' ']

theorem run_spaced (acc : List (List Char)) {args : List (List Char)}
    (hargs : ∀ arg ∈ args, '\\' ∉ arg) :
    (between acc).run (spaced args) = between (acc ++ args.filter (· ≠ [])) := by
  induction args generalizing acc with
  | nil => simp [spaced, run_nil]
  | cons arg args ih =>
    have hrest := fun acc => ih acc fun arg' h => hargs arg' (List.mem_cons_of_mem arg h)
    rw [spaced, List.flatMap_cons, run_append, run_append,
      run_quoteArgument acc (hargs arg List.mem_cons_self), run_cons, run_nil, step_after_blank]
    rw [← spaced, hrest, List.append_assoc, ← List.filter_append, List.singleton_append]

theorem toList_quoteCommand (args : List (List Char)) (last : List Char) :
    (quoteCommand ((args ++ [last]).map String.ofList)).toList =
      spaced args ++ quoteArgument last := by
  unfold quoteCommand spaced
  rw [String.toList_ofList, List.flatMap_map, List.flatMap_append, List.flatMap_singleton]
  simp only [String.toList_ofList]
  rw [← List.append_assoc, List.dropLast_concat]

/-- Without backslashes the nonempty arguments are read back. -/
theorem tokens_quoteCommand {args : List (List Char)} (hargs : ∀ arg ∈ args, '\\' ∉ arg) :
    (init.run (quoteCommand (args.map String.ofList)).toList).tokens = args.filter (· ≠ []) := by
  rcases List.eq_nil_or_concat' args with rfl | ⟨args, last, rfl⟩
  · rfl
  · rw [toList_quoteCommand, run_append]
    have hstart : init = between [] := rfl
    rw [hstart, run_spaced [] fun arg h => hargs arg (List.mem_append_left _ h),
      run_quoteArgument _ (hargs last (by simp)), tokens_after, List.nil_append, List.filter_append]

/-! ## What a step can do -/

inductive Steps (s : ShellLexer) (c : Char) : ShellLexer → Prop where
  | skipNewline (escape : s.isEscaped = true) (newline : c = '\n') :
      Steps s c { s with isEscaped := false }
  | appendEscaped (escape : s.isEscaped = true) :
      Steps s c ({ s with isEscaped := false }.append [c])
  | appendBackslash (escape : s.isEscaped = true) (null : c = noQuote) :
      Steps s c ({ s with isEscaped := false }.append ['\\', c])
  | escape (escape : s.isEscaped = false) (backslash : c = '\\') :
      Steps s c { s with isEscaped := true }
  | close (escape : s.isEscaped = false) (backslash : c ≠ '\\') (quote : c = s.curQuote) :
      Steps s c { s with curQuote := noQuote }
  | appendQuoted (escape : s.isEscaped = false) (backslash : c ≠ '\\')
      (inside : s.curQuote ≠ noQuote) (quote : c ≠ s.curQuote) : Steps s c (s.append [c])
  | openQuote (escape : s.isEscaped = false) (outside : s.curQuote = noQuote)
      (quote : c = '"' ∨ c = '\'') : Steps s c { s with curQuote := c, token := some [] }
  | blank (escape : s.isEscaped = false) (outside : s.curQuote = noQuote)
      (isBlank : isBlank c = true) : Steps s c { s with acc := s.tokens, token := none }
  | append (escape : s.isEscaped = false) (backslash : c ≠ '\\')
      (outside : s.curQuote = noQuote) (quote : ¬ (c = '"' ∨ c = '\'')) :
      Steps s c (s.append [c])

theorem steps (s : ShellLexer) (c : Char) : Steps s c (s.step c) := by
  unfold step
  split
  next hescape =>
    dsimp only
    split
    next hnewline => exact .skipNewline hescape hnewline
    next =>
      split
      next => exact .appendEscaped hescape
      next hnull =>
        simp only [not_or, not_not] at hnull
        exact .appendBackslash hescape (hnull.2.1.trans hnull.1)
  next hescape =>
    replace hescape := Bool.eq_false_iff.mpr hescape
    split
    next hbackslash => exact .escape hescape hbackslash
    next hbackslash =>
      split
      next hinside =>
        split
        next hquote => exact .close hescape hbackslash hquote
        next hquote => exact .appendQuoted hescape hbackslash hinside hquote
      next houtside =>
        replace houtside := not_not.mp houtside
        split
        next hquote => exact .openQuote hescape houtside hquote
        next hquote =>
          split
          next hblank => exact .blank hescape houtside hblank
          next => exact .append hescape hbackslash houtside hquote

/-! ## Counting quotes and backslashes -/

/-- All characters of the tokens. -/
def text (s : ShellLexer) : List Char := s.acc.flatten ++ s.token.getD []

theorem flatten_tokens (s : ShellLexer) : s.tokens.flatten = s.text := by
  obtain ⟨acc, token, curQuote, isEscaped⟩ := s
  cases token <;> simp [tokens, text]

theorem text_append (s : ShellLexer) (cs : List Char) : (s.append cs).text = s.text ++ cs := by
  simp [text, append]

/-- A blank ends the token and keeps its characters. -/
theorem text_blank (s : ShellLexer) : text { s with acc := s.tokens, token := none } = s.text := by
  rw [← flatten_tokens s]
  simp [text]

/-- An opening quote drops the token that it interrupts. -/
theorem text_openQuote (s : ShellLexer) (c : Char) :
    s.text = text { s with curQuote := c, token := some [] } ++ s.token.getD [] := by
  simp [text]

/-- The characters of the tokens that satisfy a test. -/
def count (test : Char → Bool) (s : ShellLexer) : Nat := s.text.countP test

theorem count_append (test : Char → Bool) (s : ShellLexer) (c : Char) :
    (s.append [c]).count test = s.count test + (test c).toNat := by
  rw [count, text_append, List.countP_append, List.countP_singleton]
  cases test c <;> rfl

theorem count_blank (test : Char → Bool) (s : ShellLexer) :
    count test { s with acc := s.tokens, token := none } = s.count test := by
  rw [count, text_blank, count]

theorem count_openQuote (test : Char → Bool) (s : ShellLexer) (c : Char) :
    s.count test = count test { s with curQuote := c, token := some [] } +
      (s.token.getD []).countP test := by
  rw [count, text_openQuote s c, List.countP_append, count]

/-- Every character of a token but a backslash is one of the text. -/
theorem paid_count {test : Char → Bool} (htest : test '\\' = false) :
    Potential.Paid step (count test) (fun c => (test c).toNat) (fun _ _ => True) := by
  refine ⟨fun _ _ _ _ => trivial, fun s c _ _ => ?_⟩
  have hstep := steps s c
  generalize s.step c = s' at hstep
  cases hstep with
  | skipNewline => exact Nat.le_add_right _ _
  | appendEscaped => exact (count_append _ _ _).le
  | appendBackslash =>
    rw [count, text_append, List.countP_append, List.countP_cons_of_neg (by simp [htest]),
      List.countP_singleton]
    cases test c <;> rfl
  | escape => exact Nat.le_add_right _ _
  | close => exact Nat.le_add_right _ _
  | appendQuoted => exact (count_append _ _ _).le
  | openQuote =>
    have hdrop := count_openQuote test s c
    omega
  | blank => exact (count_blank _ _).le.trans (Nat.le_add_right _ _)
  | append => exact (count_append _ _ _).le

/-! ### Single quotes -/

def isSingle (c : Char) : Bool := c = '\''

/-- All single quotes of the text end up in the tokens. -/
structure KeepsSingles (s : ShellLexer) (text : List Char) : Prop where
  quote : s.curQuote = noQuote ∨ s.curQuote = '"'
  tight : Potential.Tight step (count isSingle) (fun c => (isSingle c).toNat) s text

/-- A single quote that opened a token would be lost. -/
theorem KeepsSingles.step {s : ShellLexer} {c : Char} {rest : List Char}
    (h : KeepsSingles s (c :: rest)) : KeepsSingles (s.step c) rest := by
  obtain ⟨hcount, htight⟩ := (@paid_count isSingle rfl).tight_cons trivial h.tight
  refine ⟨?_, htight⟩
  have hstep := steps s c
  generalize s.step c = s' at hstep hcount
  cases hstep with
  | skipNewline => exact h.quote
  | appendEscaped => exact h.quote
  | appendBackslash => exact h.quote
  | escape => exact h.quote
  | close => exact .inl rfl
  | appendQuoted => exact h.quote
  | openQuote _ _ quote =>
    rcases quote with rfl | rfl
    · exact .inr rfl
    · have hdrop := count_openQuote isSingle s '\''
      have hone : (isSingle '\'').toNat = 1 := rfl
      omega
  | blank => exact h.quote
  | append => exact h.quote

/-! ### Double quotes and backslashes -/

/-- The characters that a backslash has to be spent on. -/
def isCostly (c : Char) : Bool := c = '"' || c = '\\'

def isBackslash (c : Char) : Bool := c = '\\'

/-- The backslashes that the tokens are worth, and one that is being read. -/
def cost (s : ShellLexer) : Nat := s.count isCostly + s.isEscaped.toNat

theorem isCostly_of_ne {c : Char} (hquote : c ≠ '"') (hbackslash : c ≠ '\\') :
    isCostly c = false := by
  simp [isCostly, hquote, hbackslash]

/-- Every double quote and every backslash of a token costs a backslash of the
text, outside of single quotes. -/
theorem paid_cost :
    Potential.Paid step cost (fun c => (isBackslash c).toNat) KeepsSingles := by
  refine ⟨fun s c rest h => h.step, fun s c rest h => ?_⟩
  have hquote := h.quote
  have hstep := steps s c
  generalize s.step c = s' at hstep
  unfold cost
  cases hstep with
  | skipNewline escape =>
    rw [escape]
    exact Nat.add_le_add (Nat.add_le_add_left (Nat.zero_le _) _) (Nat.zero_le _)
  | appendEscaped escape =>
    have happend := count_append isCostly { s with isEscaped := false } c
    have hcostly := Bool.toNat_le (isCostly c)
    rw [happend, escape]
    exact (Nat.add_le_add_left hcostly _).trans (Nat.le_add_right _ _)
  | appendBackslash escape null =>
    subst null
    rw [escape, count, text_append, List.countP_append]
    exact Nat.le_add_right _ _
  | escape escape backslash =>
    subst backslash
    rw [escape]
    exact le_rfl
  | close escape => exact Nat.le_add_right _ _
  | appendQuoted escape backslash inside quote =>
    -- the quotes are double quotes
    have hdouble : c ≠ '"' := (hquote.resolve_left inside) ▸ quote
    rw [count_append, isCostly_of_ne hdouble backslash]
    exact Nat.le_add_right _ _
  | openQuote escape =>
    have hdrop := count_openQuote isCostly s c
    refine le_trans (Nat.add_le_add_right ?_ _) (Nat.le_add_right _ _)
    omega
  | blank escape =>
    rw [count_blank]
    exact Nat.le_add_right _ _
  | append escape backslash outside quote =>
    rw [not_or] at quote
    rw [count_append, isCostly_of_ne quote.1 backslash]
    exact Nat.le_add_right _ _

/-- All that quotes and backslashes may cost is spent. -/
structure SpendsAll (s : ShellLexer) (text : List Char) : Prop where
  singles : KeepsSingles s text
  tight : Potential.Tight ShellLexer.step cost (fun c => (isBackslash c).toNat) s text

theorem SpendsAll.cost_eq {s : ShellLexer} {c : Char} {rest : List Char}
    (h : SpendsAll s (c :: rest)) : (s.step c).cost = s.cost + (isBackslash c).toNat :=
  (paid_cost.tight_cons h.singles h.tight).1

theorem SpendsAll.step {s : ShellLexer} {c : Char} {rest : List Char}
    (h : SpendsAll s (c :: rest)) : SpendsAll (s.step c) rest :=
  ⟨h.singles.step, (paid_cost.tight_cons h.singles h.tight).2⟩

theorem SpendsAll.run {s : ShellLexer} {text rest : List Char} (h : SpendsAll s (text ++ rest)) :
    SpendsAll (s.run text) rest := by
  induction text generalizing s with
  | nil => exact h
  | cons c text ih => exact ih h.step

/-! ## Where a backslash is lost -/

/-- The finished tokens stay. -/
theorem exists_tokens_run (s : ShellLexer) (text : List Char) :
    ∃ more, (s.run text).tokens = s.acc ++ more := by
  induction text generalizing s with
  | nil => exact ⟨s.token.toList, rfl⟩
  | cons c text ih =>
    obtain ⟨more, hmore⟩ := ih (s.step c)
    rw [run_cons, hmore]
    have hstep := steps s c
    generalize s.step c = s' at hstep
    cases hstep with
    | blank => exact ⟨s.token.toList ++ more, List.append_assoc _ _ _⟩
    | _ => exact ⟨more, rfl⟩

/-- A token that a backslash was spent on is not dropped. -/
theorem SpendsAll.exists_tokens_run {s : ShellLexer} {text : List Char} (h : SpendsAll s text)
    {token : List Char} (htoken : s.token = some token) (hcostly : 0 < token.countP isCostly) :
    ∃ more rest, (s.run text).tokens = s.acc ++ (token ++ more) :: rest := by
  induction text generalizing s token with
  | nil => exact ⟨[], [], by simp [run_nil, tokens, htoken]⟩
  | cons c text ih =>
    have ih := @ih _ h.step
    have hcost := h.cost_eq
    have hkept := ShellLexer.exists_tokens_run (s.step c) text
    have hstep := steps s c
    rw [run_cons]
    generalize s.step c = s' at hstep ih hcost hkept
    have happend : ∀ cs, s'.token = some (token ++ cs) → s'.acc = s.acc →
        ∃ more rest, (s'.run text).tokens = s.acc ++ (token ++ more) :: rest := by
      intro cs htoken' hacc
      obtain ⟨more, rest, heq⟩ := ih htoken' (by rw [List.countP_append]; omega)
      exact ⟨cs ++ more, rest, by rw [heq, hacc, List.append_assoc]⟩
    cases hstep with
    | skipNewline => exact happend [] (by simp [htoken]) rfl
    | appendEscaped => exact happend [c] (by simp [append, htoken]) rfl
    | appendBackslash => exact happend ['\\', c] (by simp [append, htoken]) rfl
    | escape => exact happend [] (by simp [htoken]) rfl
    | close => exact happend [] (by simp [htoken]) rfl
    | appendQuoted => exact happend [c] (by simp [append, htoken]) rfl
    | openQuote escape outside quote =>
      exfalso
      have hdrop := count_openQuote isCostly s c
      have hbackslash : (isBackslash c).toNat = 0 := by rcases quote with rfl | rfl <;> rfl
      rw [htoken, Option.getD_some] at hdrop
      unfold cost at hcost
      dsimp only at hcost
      omega
    | blank =>
      obtain ⟨more, hmore⟩ := hkept
      exact ⟨[], more, by rw [hmore]; simp [tokens, htoken]⟩
    | append => exact happend [c] (by simp [append, htoken]) rfl

/-- A backslash of an argument is only paid back when a closing quote follows. -/
theorem SpendsAll.eq_quote_of_backslash {acc : List (List Char)} {token rest : List Char} {c : Char}
    (h : SpendsAll (quoted acc token) ('\\' :: c :: rest)) : c = '"' := by
  have hcost := h.step.cost_eq
  have hopen : (quoted acc token).step '\\' = { quoted acc token with isEscaped := true } := rfl
  have hbefore : cost { quoted acc token with isEscaped := true } =
      (quoted acc token).count isCostly + 1 := rfl
  rw [hopen, hbefore] at hcost
  by_cases hnewline : c = '\n'
  · subst hnewline
    have hafter : cost (ShellLexer.step { quoted acc token with isEscaped := true } '\n') =
        (quoted acc token).count isCostly := rfl
    omega
  · have hstep : ShellLexer.step { quoted acc token with isEscaped := true } c =
        (quoted acc token).append [c] := by
      simp [ShellLexer.step, hnewline, quoted, append, noQuote]
    have hafter : cost ((quoted acc token).append [c]) =
        (quoted acc token).count isCostly + (isCostly c).toNat :=
      count_append isCostly (quoted acc token) c
    rw [hstep, hafter] at hcost
    have hone : (isCostly c).toNat = 1 + (isBackslash c).toNat := by omega
    by_contra hquote
    by_cases hbackslash : c = '\\'
    · subst hbackslash
      cases hone
    · rw [isCostly_of_ne hquote hbackslash] at hone
      have hzero : false.toNat = 0 := rfl
      omega

/-! ## What a command line is worth -/

theorem weight_toNat (test : Char → Bool) (text : List Char) :
    Potential.weight (fun c => (test c).toNat) text = text.countP test := by
  induction text with
  | nil => rfl
  | cons c text ih => cases htest : test c <;> simp [Potential.weight, htest, ih, Nat.add_comm]

/-- Counting in the command line what a test of the arguments counts there. -/
structure Counts (test test' : Char → Bool) : Prop where
  quote : test '"' = false
  blank : test ' ' = false
  escaped_char : ∀ c, (if c = '"' then ['\\', '"'] else [c]).countP test = (test' c).toNat

theorem counts_singles : Counts isSingle isSingle := by
  refine ⟨rfl, rfl, fun c => ?_⟩
  by_cases hquote : c = '"'
  · subst hquote
    rfl
  · rw [if_neg hquote, List.countP_singleton]
    cases isSingle c <;> rfl

theorem counts_cost : Counts isBackslash isCostly := by
  refine ⟨rfl, rfl, fun c => ?_⟩
  by_cases hquote : c = '"'
  · subst hquote
    rfl
  · by_cases hbackslash : c = '\\'
    · subst hbackslash
      rfl
    · rw [if_neg hquote, List.countP_singleton, isCostly_of_ne hquote hbackslash]
      simp [isBackslash, hbackslash]

section

variable {test test' : Char → Bool}

theorem Counts.escaped (h : Counts test test') (arg : List Char) :
    (escaped arg).countP test = arg.countP test' := by
  induction arg with
  | nil => rfl
  | cons c arg ih =>
    rw [escaped_cons, List.countP_append, h.escaped_char, ih, List.countP_cons]
    cases test' c <;> simp [Nat.add_comm]

theorem Counts.quoteArgument (h : Counts test test') (arg : List Char) :
    (quoteArgument arg).countP test = arg.countP test' := by
  rw [quoteArgument_eq]
  split
  next => simp [h.escaped, h.quote]
  next hquoting =>
    -- an argument that is not quoted is not changed by escaping
    have hsame : ShellLexer.escaped arg = arg := by
      unfold ShellLexer.escaped
      rw [replace_singleton]
      have hchar : ∀ c ∈ arg, (if c = '"' then ['\\', '"'] else [c]) = [c] := by
        intro c hc
        refine if_neg ?_
        rintro rfl
        cases isOkay_of_mem (Bool.eq_false_iff.mpr hquoting) hc
      rw [List.flatMap_congr hchar]
      exact List.flatMap_singleton' arg
    rw [← h.escaped, hsame]

theorem Counts.spaced (h : Counts test test') (args : List (List Char)) :
    (spaced args).countP test = args.flatten.countP test' := by
  induction args with
  | nil => rfl
  | cons arg args ih =>
    rw [ShellLexer.spaced, List.flatMap_cons, List.countP_append, List.countP_append,
      h.quoteArgument, ← ShellLexer.spaced, ih, List.flatten_cons, List.countP_append]
    simp [h.blank]

theorem Counts.quoteCommand (h : Counts test test') (args : List (List Char)) :
    (quoteCommand (args.map String.ofList)).toList.countP test = args.flatten.countP test' := by
  rcases List.eq_nil_or_concat' args with rfl | ⟨args, last, rfl⟩
  · rfl
  · rw [toList_quoteCommand, List.countP_append, h.spaced, h.quoteArgument, List.flatten_append,
      List.countP_append, List.flatten_singleton]

end

/-- When the arguments are read back, nothing is lost on the way. -/
theorem spendsAll_of_tokens {args : List (List Char)}
    (h : (init.run (quoteCommand (args.map String.ofList)).toList).tokens = args) :
    SpendsAll init (quoteCommand (args.map String.ofList)).toList := by
  have hcount : ∀ test, (init.run (quoteCommand (args.map String.ofList)).toList).count test =
      args.flatten.countP test := by
    intro test
    rw [count, ← flatten_tokens, h]
  have hsingles : KeepsSingles init (quoteCommand (args.map String.ofList)).toList := by
    refine ⟨.inl rfl, ?_⟩
    unfold Potential.Tight
    rw [weight_toNat, counts_singles.quoteCommand, ← hcount]
    exact (Nat.zero_add _).symm
  refine ⟨hsingles, ?_⟩
  have hle := paid_cost.foldl_le hsingles
  unfold Potential.Tight
  rw [weight_toNat, counts_cost.quoteCommand, ← hcount] at hle ⊢
  have hcost : (init.run (quoteCommand (args.map String.ofList)).toList).count isCostly ≤
      cost (List.foldl ShellLexer.step init (quoteCommand (args.map String.ofList)).toList) :=
    Nat.le_add_right _ _
  have hinit : init.cost = 0 := rfl
  omega

/-! ## Reading a command back -/

/-- An argument stands in the command line after those before it. -/
theorem exists_toList_quoteCommand (before : List (List Char)) (arg : List Char)
    (after : List (List Char)) :
    ∃ tail, (quoteCommand ((before ++ arg :: after).map String.ofList)).toList =
      spaced before ++ (quoteArgument arg ++ tail) := by
  rcases List.eq_nil_or_concat' after with rfl | ⟨after, last, rfl⟩
  · exact ⟨[], by rw [toList_quoteCommand, List.append_nil]⟩
  · refine ⟨' ' :: (spaced after ++ quoteArgument last), ?_⟩
    rw [← List.cons_append, ← List.append_assoc, toList_quoteCommand]
    simp [spaced]

/-- Nonempty arguments followed by a token that is not empty are where they were. -/
theorem eq_of_filter_append {before more after : List (List Char)} {token arg : List Char}
    (htoken : token ≠ [])
    (h : before.filter (· ≠ []) ++ token :: more = before ++ arg :: after) : token = arg := by
  induction before with
  | nil => exact (List.cons.inj h).1
  | cons first before ih =>
    by_cases hfirst : first = []
    · -- the first token would be empty
      subst hfirst
      have hhead : ∀ xs : List (List Char), (∀ x ∈ xs, x ≠ []) →
          xs ++ token :: more ≠ [] ++ ([] :: (before ++ arg :: after)) := by
        intro xs hxs heq
        cases xs with
        | nil => exact htoken (List.cons.inj heq).1
        | cons x xs => exact hxs x List.mem_cons_self (List.cons.inj heq).1
      refine absurd h (hhead _ fun x hx => ?_)
      simpa using (List.mem_filter.mp hx).2
    · rw [List.filter_cons_of_pos (by simpa using hfirst), List.cons_append, List.cons_append] at h
      exact ih (List.cons.inj h).2

/-- A command with a backslash is not read back. -/
theorem tokens_ne_of_backslash {args : List (List Char)} (hargs : ∃ arg ∈ args, '\\' ∈ arg) :
    (init.run (quoteCommand (args.map String.ofList)).toList).tokens ≠ args := by
  intro h
  -- the first argument with a backslash, and its first backslash
  obtain ⟨arg, hfind⟩ := Option.isSome_iff_exists.mp
    (show (args.find? fun arg => decide ('\\' ∈ arg)).isSome by simpa using hargs)
  obtain ⟨harg, before, after, rfl, hbefore⟩ := List.find?_eq_some_iff_append.mp hfind
  obtain ⟨start, rest, rfl, hstart⟩ := List.eq_append_cons_of_mem (of_decide_eq_true harg)
  obtain ⟨tail, hline⟩ := exists_toList_quoteCommand before (start ++ '\\' :: rest) after
  have hspends := spendsAll_of_tokens h
  have hquoting : needsQuoting (start ++ '\\' :: rest) = true := by
    simp [needsQuoting, show isOkay '\\' = false by decide]
  -- the lexer is inside of quotes at the backslash
  have hbegin : init.run (spaced before) = between (before.filter (· ≠ [])) :=
    run_spaced [] fun arg' harg' => by simpa using hbefore arg' harg'
  have hescaped : escaped (start ++ '\\' :: rest) = escaped start ++ '\\' :: escaped rest := by
    unfold escaped
    rw [replace_singleton, replace_singleton, replace_singleton, List.flatMap_append,
      List.flatMap_cons]
    rfl
  have hopen : (between (before.filter (· ≠ []))).run ('"' :: escaped start) =
      quoted (before.filter (· ≠ [])) start := by
    rw [run_cons]
    exact run_escaped _ [] hstart
  have htext : quoteArgument (start ++ '\\' :: rest) ++ tail =
      '"' :: escaped start ++ '\\' :: (escaped rest ++ '"' :: tail) := by
    rw [quoteArgument_eq, if_pos hquoting, hescaped]
    simp
  rw [hline, htext] at hspends h
  replace hspends := hspends.run
  rw [hbegin] at hspends
  replace hspends := hspends.run
  rw [hopen] at hspends
  rw [run_append, hbegin, run_append, hopen] at h
  cases rest with
  | nil =>
    -- the closing quote is read as part of the token, which stays
    have hspent : SpendsAll (quoted (before.filter (· ≠ [])) (start ++ ['"'])) tail :=
      hspends.step.step
    obtain ⟨more, rest, htokens⟩ := hspent.exists_tokens_run rfl (by simp [isCostly])
    have heq := eq_of_filter_append (by simp) (htokens.symm.trans h)
    simp at heq
  | cons c rest =>
    rw [escaped_cons] at hspends
    by_cases hquote : c = '"'
    · rw [if_pos hquote] at hspends
      cases hspends.eq_quote_of_backslash
    · rw [if_neg hquote] at hspends
      exact hquote hspends.eq_quote_of_backslash

end ShellLexer

/-- The arguments are read back when their characters are. -/
theorem splitShellString_eq_iff {args : List String} :
    splitShellString (quoteCommand args) = args ↔
      (ShellLexer.init.run (quoteCommand ((args.map String.toList).map String.ofList)).toList).tokens =
        args.map String.toList := by
  have hargs : (args.map String.toList).map String.ofList = args := by simp
  rw [hargs, splitShellString]
  constructor
  · intro h
    have hchars := congrArg (List.map String.toList) h
    simpa using hchars
  · intro h
    rw [h, hargs]

/-- A command is read back from its command line exactly when no argument is
empty or has a backslash. -/
theorem splitShellString_quoteCommand_iff (args : List String) :
    splitShellString (quoteCommand args) = args ↔
      ∀ arg ∈ args, arg ≠ "" ∧ '\\' ∉ arg.toList := by
  rw [splitShellString_eq_iff]
  constructor
  · intro h
    have hbackslash : ∀ arg ∈ args.map String.toList, '\\' ∉ arg := by
      intro arg harg hmem
      exact ShellLexer.tokens_ne_of_backslash ⟨arg, harg, hmem⟩ h
    rw [ShellLexer.tokens_quoteCommand hbackslash, List.filter_eq_self] at h
    intro arg harg
    have hmem : arg.toList ∈ args.map String.toList := List.mem_map_of_mem harg
    refine ⟨?_, hbackslash _ hmem⟩
    rintro rfl
    simpa using h _ hmem
  · intro h
    have hbackslash : ∀ arg ∈ args.map String.toList, '\\' ∉ arg := by
      intro _ hmem
      obtain ⟨arg, harg, rfl⟩ := List.mem_map.mp hmem
      exact (h arg harg).2
    rw [ShellLexer.tokens_quoteCommand hbackslash, List.filter_eq_self]
    intro _ hmem
    obtain ⟨arg, harg, rfl⟩ := List.mem_map.mp hmem
    simpa using (h arg harg).1

/-- A backslash is lost. -/
theorem splitShellString_quoteCommand_backslash :
    splitShellString (quoteCommand ["a\\b"]) = ["ab"] ∧
      splitShellString (quoteCommand ["a\\b"]) ≠ ["a\\b"] := by
  decide

end Bpt
