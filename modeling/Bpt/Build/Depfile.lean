-- SUMMARY: Reading the Makefile rules that compilers write, and which rules are read as they are meant.
import Bpt.Util.Shlex

/-!
# Depfiles

A rule is escaped for `make` and read by the lexer for command lines, with its
line continuations still in it.
-/

namespace Bpt.Build

/-! ## Reading a rule -/

/-- What is read from a rule, as the texts of the paths. -/
structure MkfileDeps where
  output : String := ""
  inputs : List String := []
  deriving DecidableEq

def parseMkfileDepsStr (str : String) : MkfileDeps :=
  -- the text in which escaped newlines are removed is not the one that is split
  let _noNewlines := replace str.toList ['\\', '\n'] [' ']
  match splitShellString str with
  | [] => {}
  | head :: inputs =>
    if head.toList.getLast? = some ':' then
      { output := String.ofList head.toList.dropLast, inputs := inputs }
    else {}

/-! ## Writing a rule -/

/-- How a character of a path is written. -/
def mkEscape (c : Char) : List Char :=
  if c = ' ' then ['\\', ' '] else if c = '#' then ['\\', '#'] else if c = '$' then ['$', '$']
  else [c]

def mkPath (path : List Char) : List Char := path.flatMap mkEscape

inductive Break where
  | space
  | continuation
  deriving DecidableEq

def Break.text : Break → List Char
  | .space => [' ']
  | .continuation => ['\\', '\n']

/-- An input, with what separates it from what comes before. -/
structure DepInput where
  separator : List Break
  separated : separator ≠ []
  path : String

structure DepRule where
  output : String
  inputs : List DepInput
  /-- A newline ends the rule. -/
  newline : Bool

namespace DepInput

def text (input : DepInput) : List Char :=
  input.separator.flatMap Break.text ++ mkPath input.path.toList

/-- The input, with its line continuations replaced by spaces. -/
def spaced (input : DepInput) : DepInput where
  separator := input.separator.map fun _ => .space
  separated := by simpa using input.separated
  path := input.path

theorem space_mem_spaced (input : DepInput) : .space ∈ input.spaced.separator := by
  obtain ⟨b, breaks, hseparator⟩ := List.exists_cons_of_ne_nil input.separated
  simp [spaced, hseparator]

end DepInput

namespace DepRule

def text (rule : DepRule) : String :=
  String.ofList (mkPath rule.output.toList ++ ':' :: rule.inputs.flatMap DepInput.text ++
    if rule.newline then ['\n'] else [])

def spaced (rule : DepRule) : DepRule := { rule with inputs := rule.inputs.map DepInput.spaced }

def deps (rule : DepRule) : MkfileDeps := ⟨rule.output, rule.inputs.map (·.path)⟩

end DepRule

example : parseMkfileDepsStr "foo.o: bar.c \\\n baz.c" = ⟨"foo.o", ["bar.c", "baz.c"]⟩ := by decide

/-! ## Rules that are read -/

/-- A backslash that comes before the character is read. -/
def keepsBackslash (c : Char) : Bool := c = '#' ∨ c = ShellLexer.noQuote

/-- A character that is not read as written in a rule. -/
def isMisread (c : Char) : Bool :=
  c = '"' ∨ c = '\'' ∨ c = '$' ∨ c = '\t' ∨ c = '\n' ∨ c = '\r' ∨ c = '\x0c'

/-- No character is misread, and every backslash comes right before one that keeps it. -/
def Readable : List Char → Prop
  | [] => True
  | c :: rest =>
    isMisread c = false ∧ (c = '\\' → ∃ d more, rest = d :: more ∧ keepsBackslash d = true) ∧
      Readable rest

/-- The paths are readable, no input is empty, and each separator has a space. -/
structure DepRule.Readable (rule : DepRule) : Prop where
  output : Build.Readable rule.output.toList
  inputs : ∀ input ∈ rule.inputs, Build.Readable input.path.toList
  nonempty : ∀ input ∈ rule.inputs, input.path ≠ ""
  separators : ∀ input ∈ rule.inputs, .space ∈ input.separator

/-! ## Reading paths -/

open ShellLexer

/-- Outside of quotes, and not after a backslash. -/
def outside (acc : List (List Char)) (token : Option (List Char)) : ShellLexer :=
  ⟨acc, token, noQuote, false⟩

theorem step_plain (acc : List (List Char)) (token : Option (List Char)) {c : Char}
    (hmisread : isMisread c = false) (hspace : c ≠ ' ') (hbackslash : c ≠ '\\') :
    (outside acc token).step c = outside acc (some (token.getD [] ++ [c])) := by
  simp only [isMisread, decide_eq_false_iff_not, not_or] at hmisread
  obtain ⟨hdouble, hsingle, -, htab, hnewline, hreturn, hfeed⟩ := hmisread
  simp [ShellLexer.step, outside, append, isBlank, hdouble, hsingle, htab, hnewline, hreturn, hfeed,
    hspace, hbackslash]

theorem run_mkEscape (acc : List (List Char)) (token : Option (List Char)) {c : Char}
    (hmisread : isMisread c = false) (hbackslash : c ≠ '\\') :
    (outside acc token).run (mkEscape c) = outside acc (some (token.getD [] ++ [c])) := by
  unfold mkEscape
  by_cases hspace : c = ' '
  · subst hspace
    rfl
  by_cases hhash : c = '#'
  · subst hhash
    rfl
  have hdollar : c ≠ '$' := by
    rintro rfl
    cases hmisread
  rw [if_neg hspace, if_neg hhash, if_neg hdollar, run_cons, run_nil,
    step_plain acc token hmisread hspace hbackslash]

/-- A backslash before a character that keeps it is read. -/
theorem run_backslash (acc : List (List Char)) (token : Option (List Char)) {d : Char}
    (hd : keepsBackslash d = true) :
    (outside acc token).run ('\\' :: mkEscape d) =
      (outside acc (some (token.getD [] ++ ['\\']))).run (mkEscape d) := by
  simp only [keepsBackslash, decide_eq_true_eq] at hd
  rcases hd with rfl | rfl
  · simp [mkEscape, outside, run_cons, run_nil, ShellLexer.step, append, noQuote, isBlank]
  · simp [mkEscape, outside, run_cons, run_nil, ShellLexer.step, append, noQuote, isBlank]

theorem run_mkPath (acc : List (List Char)) (token : Option (List Char)) {path : List Char}
    (hpath : Readable path) :
    (outside acc token).run (mkPath path) =
      outside acc (if path = [] then token else some (token.getD [] ++ path)) := by
  induction path generalizing token with
  | nil => rfl
  | cons c rest ih =>
    obtain ⟨hmisread, hbackslash, hrest⟩ := hpath
    rw [if_neg (List.cons_ne_nil _ _)]
    by_cases hc : c = '\\'
    · subst hc
      obtain ⟨d, more, rfl, hd⟩ := hbackslash rfl
      have htext : mkPath ('\\' :: d :: more) = ('\\' :: mkEscape d) ++ mkPath more := rfl
      rw [htext, run_append, run_backslash acc token hd, ← run_append,
        show mkEscape d ++ mkPath more = mkPath (d :: more) from rfl, ih _ hrest,
        if_neg (List.cons_ne_nil _ _), Option.getD_some, List.append_cons _ '\\' (d :: more)]
    · rw [mkPath, List.flatMap_cons, run_append, run_mkEscape acc token hmisread hc, ← mkPath,
        ih _ hrest]
      split
      next hnil => rw [hnil]
      next => rw [Option.getD_some, List.append_cons _ c rest]

theorem run_separator (acc : List (List Char)) (token : Option (List Char))
    (separator : List Break) :
    (outside acc token).run (separator.flatMap Break.text) =
      if .space ∈ separator then outside (acc ++ token.toList) none else outside acc token := by
  induction separator generalizing acc token with
  | nil => rfl
  | cons b rest ih =>
    rw [List.flatMap_cons, run_append]
    cases b with
    | space =>
      have hspace : (outside acc token).run Break.space.text = outside (acc ++ token.toList) none := rfl
      rw [hspace, ih, if_pos List.mem_cons_self, Option.toList_none, List.append_nil, ite_self]
    | continuation =>
      have hcontinue : (outside acc token).run Break.continuation.text = outside acc token := by
        simp [Break.text, outside, run_cons, run_nil, ShellLexer.step]
      rw [hcontinue, ih]
      simp

/-! ## Reading inputs -/

/-- The state after an input is between tokens or at the end of one. -/
def afterInput (acc : List (List Char)) (token : Option (List Char)) (input : DepInput) :
    ShellLexer :=
  let path := input.path.toList
  if .space ∈ input.separator then
    outside (acc ++ token.toList) (if path = [] then none else some path)
  else outside acc (if path = [] then token else some (token.getD [] ++ path))

theorem run_input (acc : List (List Char)) (token : Option (List Char)) {input : DepInput}
    (hpath : Readable input.path.toList) :
    (outside acc token).run input.text = afterInput acc token input := by
  unfold DepInput.text afterInput
  rw [run_append, run_separator]
  split
  next => exact run_mkPath _ _ hpath
  next => exact run_mkPath _ _ hpath

/-- When each separator has a space, the tokens are the paths that are not empty. -/
theorem tokens_run_inputs (acc : List (List Char)) (token : Option (List Char))
    {inputs : List DepInput} (hpaths : ∀ input ∈ inputs, Readable input.path.toList)
    (hspaces : ∀ input ∈ inputs, .space ∈ input.separator) :
    ∃ acc' token', (outside acc token).run (inputs.flatMap DepInput.text) = outside acc' token' ∧
      acc' ++ token'.toList =
        acc ++ token.toList ++ (inputs.map (·.path.toList)).filter (· ≠ []) := by
  induction inputs generalizing acc token with
  | nil => exact ⟨acc, token, rfl, by simp⟩
  | cons input rest ih =>
    rw [List.flatMap_cons, run_append, run_input acc token (hpaths input List.mem_cons_self),
      afterInput, if_pos (hspaces input List.mem_cons_self)]
    obtain ⟨acc', token', hrun, htokens⟩ := ih (acc ++ token.toList)
      (if input.path.toList = [] then none else some input.path.toList)
      (fun input hinput => hpaths input (List.mem_cons_of_mem _ hinput))
      fun input hinput => hspaces input (List.mem_cons_of_mem _ hinput)
    refine ⟨acc', token', hrun, htokens.trans ?_⟩
    rw [List.map_cons]
    by_cases hnil : input.path.toList = []
    · simp [hnil]
    · simp [hnil]

/-- There are no more tokens than separators with a space, and the one that has begun. -/
theorem length_run_inputs (acc : List (List Char)) (token : Option (List Char))
    {inputs : List DepInput} (hpaths : ∀ input ∈ inputs, Readable input.path.toList) :
    ∃ acc' token', (outside acc token).run (inputs.flatMap DepInput.text) = outside acc' token' ∧
      acc'.length ≤ acc.length + inputs.countP fun input => .space ∈ input.separator := by
  induction inputs generalizing acc token with
  | nil => exact ⟨acc, token, rfl, le_rfl⟩
  | cons input rest ih =>
    rw [List.flatMap_cons, run_append, run_input acc token (hpaths input List.mem_cons_self),
      afterInput]
    have hrest := fun acc token => ih acc token fun input hinput =>
      hpaths input (List.mem_cons_of_mem _ hinput)
    rw [List.countP_cons]
    split
    next hspace =>
      obtain ⟨acc', token', hrun, hlength⟩ := hrest (acc ++ token.toList) _
      refine ⟨acc', token', hrun, hlength.trans ?_⟩
      have htoken : token.toList.length ≤ 1 := by cases token <;> simp
      rw [List.length_append, if_pos (by simpa using hspace)]
      omega
    next hspace =>
      obtain ⟨acc', token', hrun, hlength⟩ := hrest acc _
      exact ⟨acc', token', hrun, hlength.trans (by omega)⟩

end Bpt.Build
