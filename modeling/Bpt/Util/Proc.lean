-- SUMMARY: The quoting of command lines, and that it loses nothing.
import Mathlib.Data.List.TakeWhile
import Bpt.Util.String

/-!
# Command lines

An argument is quoted when it has a character that a shell may not take as it
is. Only quotes are escaped in it, so from the front a backslash before a quote
can be read in two ways. From the back it cannot: `readArgument` reads reversed
command lines, and a command line determines the command it was made from.
-/

namespace Bpt

/-! ## Quoting -/

def okayChars : List Char := "@%-+=:,./|_".toList

def isOkay (c : Char) : Bool := c.isAlphanum || okayChars.contains c

def needsQuoting (s : List Char) : Bool := !s.all isOkay

def quoteArgument (s : List Char) : List Char :=
  if needsQuoting s then
    -- the source escapes the backslashes first, but then starts from `s` again
    '"' :: replace s ['"'] ['\\', '"'] ++ ['"']
  else s

/-- Every argument with a space after it, less the last space. -/
def quoteCommand (command : List String) : String :=
  String.ofList (command.flatMap fun arg => quoteArgument arg.toList ++ [' ']).dropLast

example : quoteCommand ["cc", "-c", "a b"] = "cc -c \"a b\"" := by decide

/-! ## Reading back -/

/-- The characters between quotes and what follows, in a reversed command line.
A quote that is part of the argument has a backslash behind it. -/
def readQuoted : List Char → Option (List Char × List Char)
  | [] => none
  | '"' :: '\\' :: rest => (readQuoted rest).map fun r => ('"' :: r.1, r.2)
  | '"' :: rest => some ([], rest)
  | c :: rest => (readQuoted rest).map fun r => (c :: r.1, r.2)

/-- The argument at the front of a reversed command line, and what follows. -/
def readArgument : List Char → Option (List Char × List Char)
  | '"' :: rest => readQuoted rest
  | cs => some (cs.takeWhile (· ≠ ' '), cs.dropWhile (· ≠ ' '))

/-- Nothing follows an argument, or a space does. -/
def EndsArgument (rest : List Char) : Prop := rest = [] ∨ ∃ cs, rest = ' ' :: cs

/-- What stands for a character between quotes, reversed. -/
def escapeBack (c : Char) : List Char := if c = '"' then ['"', '\\'] else [c]

theorem readQuoted_end {rest : List Char} (hrest : EndsArgument rest) :
    readQuoted ('"' :: rest) = some ([], rest) := by
  rcases hrest with rfl | ⟨cs, rfl⟩ <;> rfl

theorem readQuoted_escape (s : List Char) {rest : List Char} (hrest : EndsArgument rest) :
    readQuoted (s.flatMap escapeBack ++ '"' :: rest) = some (s, rest) := by
  induction s with
  | nil => exact readQuoted_end hrest
  | cons c s ih =>
      rw [List.flatMap_cons, List.append_assoc]
      by_cases hquote : c = '"'
      · subst hquote
        have hescape : escapeBack '"' = ['"', '\\'] := rfl
        rw [hescape, List.cons_append, List.singleton_append, readQuoted, ih]
        rfl
      · have hescape : escapeBack c = [c] := if_neg hquote
        rw [hescape, List.singleton_append, readQuoted, ih]
        · rfl
        · rintro _ rfl
          exact absurd rfl hquote
        · exact hquote

theorem isOkay_space : isOkay ' ' = false := by decide

theorem isOkay_quote : isOkay '"' = false := by decide

theorem reverse_replace (s : List Char) :
    (replace s ['"'] ['\\', '"']).reverse = s.reverse.flatMap escapeBack := by
  rw [replace_singleton, List.reverse_flatMap]
  congr 1
  funext c
  unfold escapeBack
  by_cases hquote : c = '"' <;> simp [hquote]

theorem readArgument_quoteArgument (s : List Char) {rest : List Char} (hrest : EndsArgument rest) :
    readArgument ((quoteArgument s).reverse ++ rest) = some (s.reverse, rest) := by
  unfold quoteArgument
  split
  next =>
    rw [List.reverse_append, List.reverse_singleton, List.reverse_cons, reverse_replace,
      List.singleton_append, List.cons_append, List.append_assoc, List.singleton_append]
    exact readQuoted_escape s.reverse hrest
  next hok =>
    have hall : ∀ c ∈ s, isOkay c = true := by simpa [needsQuoting] using hok
    have hspace : ∀ c ∈ s.reverse, decide (c ≠ ' ') = true := by
      intro c hc
      rw [decide_eq_true_iff]
      rintro rfl
      simpa [isOkay_space] using hall _ (List.mem_reverse.mp hc)
    have htake : (s.reverse ++ rest).takeWhile (· ≠ ' ') = s.reverse ∧
        (s.reverse ++ rest).dropWhile (· ≠ ' ') = rest := by
      rw [List.takeWhile_append_of_pos hspace, List.dropWhile_append_of_pos hspace]
      rcases hrest with rfl | ⟨cs, rfl⟩ <;> simp
    unfold readArgument
    split
    next cs' heq =>
      -- an argument that is not quoted has no quote
      cases hs : s.reverse with
      | nil =>
          rw [hs] at heq
          rcases hrest with rfl | ⟨cs, rfl⟩ <;> cases heq
      | cons c s' =>
          rw [hs] at heq
          cases heq
          have hmem : '"' ∈ s := List.mem_reverse.mp (hs ▸ List.mem_cons_self)
          simpa [isOkay_quote] using hall _ hmem
    next => rw [htake.1, htake.2]

/-! ## Commands -/

/-- The reversed command line before its last argument, the last argument first:
each argument has a space behind it. -/
def earlierArguments (args : List String) : List Char :=
  args.flatMap fun arg => ' ' :: (quoteArgument arg.toList).reverse

theorem earlierArguments_cons (arg : String) (args : List String) :
    earlierArguments (arg :: args) =
      ' ' :: ((quoteArgument arg.toList).reverse ++ earlierArguments args) := rfl

theorem endsArgument_earlier (args : List String) : EndsArgument (earlierArguments args) := by
  cases args with
  | nil => exact .inl rfl
  | cons arg args => exact .inr ⟨_, rfl⟩

theorem reverse_quoteCommand (args : List String) (last : String) :
    (quoteCommand (args ++ [last])).toList.reverse =
      (quoteArgument last.toList).reverse ++ earlierArguments args.reverse := by
  unfold quoteCommand earlierArguments
  rw [String.toList_ofList, List.flatMap_append, List.flatMap_singleton, ← List.append_assoc,
    List.dropLast_concat, List.reverse_append, List.reverse_flatMap]
  congr 2
  funext arg
  simp

theorem earlierArguments_injective {args args' : List String}
    (h : earlierArguments args = earlierArguments args') : args = args' := by
  induction args generalizing args' with
  | nil =>
      cases args' with
      | nil => rfl
      | cons arg' args' => cases h
  | cons arg args ih =>
      cases args' with
      | nil => cases h
      | cons arg' args' =>
          rw [earlierArguments_cons, earlierArguments_cons] at h
          have hread := readArgument_quoteArgument arg.toList (endsArgument_earlier args)
          have hread' := readArgument_quoteArgument arg'.toList (endsArgument_earlier args')
          rw [(List.cons.inj h).2, hread'] at hread
          obtain ⟨harg, hargs⟩ := Prod.mk.inj (Option.some.inj hread)
          rw [String.toList_injective (List.reverse_injective harg), ih hargs.symm]

/-- Commands of one command line are equal, unless one is empty. -/
theorem quoteCommand_injective {command command' : List String} (hne : command ≠ [])
    (hne' : command' ≠ []) (h : quoteCommand command = quoteCommand command') :
    command = command' := by
  obtain ⟨args, last, rfl⟩ := List.eq_nil_or_concat' command |>.resolve_left hne
  obtain ⟨args', last', rfl⟩ := List.eq_nil_or_concat' command' |>.resolve_left hne'
  have hline : readArgument (quoteCommand (args ++ [last])).toList.reverse =
      readArgument (quoteCommand (args' ++ [last'])).toList.reverse := by rw [h]
  rw [reverse_quoteCommand, reverse_quoteCommand,
    readArgument_quoteArgument _ (endsArgument_earlier _),
    readArgument_quoteArgument _ (endsArgument_earlier _)] at hline
  obtain ⟨hlast, hargs⟩ := Prod.mk.inj (Option.some.inj hline)
  rw [String.toList_injective (List.reverse_injective hlast),
    List.reverse_injective (earlierArguments_injective hargs)]

end Bpt
