-- SUMMARY: The line syntax of libman files, the readers of their keys, and the printed pairs that are read back.
import Mathlib.Data.List.ReduceOption
import Bpt.Base.Fallible
import Bpt.UsageReqs.Map
import Bpt.Util.String

/-!
# Libman files

A libman file is a list of lines, each with a key and a value. The files are
read by a row of readers: each pair goes to the first reader that takes it, and
a pair that none of them takes is passed over.
-/

namespace Bpt.Libman

structure Pair where
  key : String
  value : String
  deriving DecidableEq

inductive LibmanError where
  /-- A file that cannot be opened. -/
  | noFile (path : Path)
  | invalidLine (line : String)
  | duplicatedKey (context key : String)
  | missingKey (context key : String)
  | unexpectedValue (context key expect value : String)
  | invalidUsageString (str : String)
  /-- A package of an index that is not a name and a path. -/
  | invalidPackage (index : Path) (line : String)
  deriving DecidableEq

/-! ## Lines -/

/-- The key of a line and what follows its colon. Only a colon before a space or
at the end of the line ends the key; what stands behind another colon is passed
over with it. -/
def splitKey : List Char → Option (List Char × List Char)
  | [] => none
  | [c] => if c = ':' then some ([], []) else none
  | c :: d :: cs =>
    if c = ':' then
      if d = ' ' then some ([], d :: cs)
      else (splitKey cs).map fun found => (c :: d :: found.1, found.2)
    else (splitKey (d :: cs)).map fun found => (c :: found.1, found.2)

/-- The pair of a line, none for an empty line and for a comment. -/
def parseLine (wholeLine : List Char) : Except LibmanError (Option Pair) :=
  let line := trimView wholeLine
  if line = [] ∨ line.head? = some '#' then .ok none
  else
    match splitKey line with
    | none => .error (.invalidLine (String.ofList wholeLine))
    | some (key, value) =>
      .ok (some ⟨String.ofList (trimView key), String.ofList (trimView value)⟩)

/-- The lines of a text, where the first argument is the part of a line read so
far, reversed. There is no line behind the last line break. -/
def linesFrom : List Char → List Char → List (List Char)
  | part, [] => if part = [] then [] else [part.reverse]
  | part, c :: cs => if c = '\n' then part.reverse :: linesFrom [] cs else linesFrom (c :: part) cs

def parseString (s : String) : Except LibmanError (List Pair) := do
  let pairs ← (linesFrom [] s.toList).mapM parseLine
  return pairs.reduceOption

/-- Read the pairs of a file. -/
def parseFile (readFile : Path → Option String) (fpath : Path) : Except LibmanError (List Pair) :=
  match readFile fpath with
  | none => .error (.noFile fpath)
  | some text => parseString text

/-- The text of a file with the pairs. -/
def writePairs (pairs : List Pair) : String :=
  String.join (pairs.map fun pair => pair.key ++ ": " ++ pair.value ++ "\n")

/-! ## Readers -/

variable {σ : Type}

/-- A reader keeps what it read in a state, if it takes the pair. -/
abbrev Reader (σ : Type) := String → Pair → σ → Except LibmanError (Option σ)

def readRequired (key : String) (ref : σ → Option String) (store : String → σ → σ) : Reader σ :=
  fun context pair s =>
    if pair.key ≠ key then .ok none
    else if (ref s).isSome then .error (.duplicatedKey context pair.key)
    else .ok (some (store pair.value s))

/-- The flag for a repeated key is never set, so the last value stands. -/
def readOpt (key : String) (store : String → σ → σ) : Reader σ :=
  fun _ pair s => .ok (if pair.key = key then some (store pair.value s) else none)

def readCheckEq (key expect : String) : Reader σ :=
  fun context pair s =>
    if pair.key ≠ key then .ok none
    else if pair.value ≠ expect then .error (.unexpectedValue context pair.key expect pair.value)
    else .ok (some s)

/-- The value may be refused before it is added. -/
def readAccumulate (key : String) (push : String → σ → Except LibmanError σ) : Reader σ :=
  fun _ pair s => if pair.key = key then (push pair.value s).map some else .ok none

/-- The first reader that takes the pair. -/
def readPair (context : String) (pair : Pair) : List (Reader σ) → σ → Except LibmanError σ
  | [], s => .ok s
  | reader :: readers, s => do
    match ← reader context pair s with
    | some s' => return s'
    | none => readPair context pair readers s

def read (context : String) (pairs : List Pair) (readers : List (Reader σ)) (s : σ) :
    Except LibmanError σ :=
  pairs.foldlM (fun s pair => readPair context pair readers s) s

/-- A key that must have been read. -/
def validate (context key : String) : Option String → Except LibmanError String
  | none => .error (.missingKey context key)
  | some value => .ok value

def splitUsageString (str : String) : Except LibmanError Usage :=
  match str.toList.dropWhile (· ≠ '/') with
  | [] => .error (.invalidUsageString str)
  | _ :: name => .ok ⟨String.ofList (str.toList.takeWhile (· ≠ '/')), String.ofList name⟩

example : parseString "# a comment\n a::b: c \nd:" = .ok [⟨"a::b", "c"⟩, ⟨"d", ""⟩] := by decide

/-! ## Printed pairs -/

/-- A key that stands for itself in a line. -/
def PlainKey (key : String) : Prop :=
  ':' ∉ key.toList ∧ '\n' ∉ key.toList ∧ trimView key.toList = key.toList ∧
    key.toList.head?.any (fun c => c ≠ '#' ∧ Name.isSpace c = false) = true

instance : DecidablePred PlainKey := fun _ => inferInstanceAs (Decidable (_ ∧ _))

theorem splitKey_append {key value : List Char} (h : ':' ∉ key)
    (hvalue : value = [] ∨ value.head? = some ' ') :
    splitKey (key ++ ':' :: value) = some (key, value) := by
  induction key with
  | nil =>
      cases value with
      | nil => rfl
      | cons d cs =>
          obtain rfl : d = ' ' := by simpa using hvalue
          rfl
  | cons c key ih =>
      obtain ⟨hc, hkey⟩ := not_or.1 (mt List.mem_cons.2 h)
      obtain ⟨d, rest, hrest⟩ : ∃ d rest, key ++ ':' :: value = d :: rest := by
        cases key with
        | nil => exact ⟨_, _, rfl⟩
        | cons d key => exact ⟨_, _, rfl⟩
      have hfound := ih hkey
      rw [hrest] at hfound
      rw [List.cons_append, hrest, splitKey, if_neg (Ne.symm hc), hfound]
      rfl

/-- The line of a pair. -/
def Pair.line (pair : Pair) : String := pair.key ++ ": " ++ pair.value

/-- A value as it is read back. -/
def Pair.trimmed (pair : Pair) : Pair := ⟨pair.key, String.ofList (trimView pair.value.toList)⟩

theorem parseLine_line {pair : Pair} (h : PlainKey pair.key) :
    parseLine pair.line.toList = .ok (some pair.trimmed) := by
  obtain ⟨hcolon, -, htrimmed, hstarts⟩ := h
  obtain ⟨c, hhead, hfirst⟩ := (Option.any_eq_true _ _).mp hstarts
  obtain ⟨cs, hstart⟩ := List.head?_eq_some_iff.mp hhead
  obtain ⟨hhash, hspace⟩ := of_decide_eq_true hfirst
  have hline : pair.line.toList = pair.key.toList ++ ':' :: ' ' :: pair.value.toList := by
    simp [Pair.line, String.toList_append]
  have hfront : pair.line.toList.dropWhile Name.isSpace = pair.line.toList := by
    rw [hline, hstart, List.cons_append, List.dropWhile_cons_of_neg (by simp [hspace])]
  have htrim : trimView pair.line.toList =
      pair.key.toList ++ ':' :: (' ' :: pair.value.toList).rdropWhile Name.isSpace := by
    rw [trimView_eq, hfront, hline, rdropWhile_append_cons _ _ (by decide)]
  have hvalue : (' ' :: pair.value.toList).rdropWhile Name.isSpace = [] ∨
      ((' ' :: pair.value.toList).rdropWhile Name.isSpace).head? = some ' ' := by
    have hprefix := List.rdropWhile_prefix Name.isSpace (l := ' ' :: pair.value.toList)
    cases hrest : (' ' :: pair.value.toList).rdropWhile Name.isSpace with
    | nil => exact .inl rfl
    | cons d rest =>
        rw [hrest] at hprefix
        exact .inr (by simpa using (List.cons_prefix_cons.mp hprefix).1)
  have hkept : ¬ (trimView pair.line.toList = [] ∨
      (trimView pair.line.toList).head? = some '#') := by
    rw [htrim, hstart]
    simpa using hhash
  unfold parseLine
  dsimp only
  rw [if_neg hkept, htrim, splitKey_append hcolon hvalue]
  dsimp only
  rw [htrimmed, trimView_rdropWhile, trimView_space, String.ofList_toList]
  rfl

theorem linesFrom_append {l : List Char} (h : '\n' ∉ l) (part rest : List Char) :
    linesFrom part (l ++ '\n' :: rest) = (part.reverse ++ l) :: linesFrom [] rest := by
  induction l generalizing part with
  | nil => simp [linesFrom]
  | cons c l ih =>
      obtain ⟨hc, hl⟩ := not_or.1 (mt List.mem_cons.2 h)
      rw [List.cons_append, linesFrom, if_neg (Ne.symm hc), ih hl]
      simp

/-- Lines without a line break of their own are found again. -/
theorem linesFrom_flatMap {ls : List (List Char)} (h : ∀ l ∈ ls, '\n' ∉ l) :
    linesFrom [] (ls.flatMap (· ++ ['\n'])) = ls := by
  induction ls with
  | nil => rfl
  | cons l ls ih =>
      have hrest := ih fun l' hl' => h l' (List.mem_cons_of_mem _ hl')
      rw [List.flatMap_cons, List.append_assoc, List.singleton_append,
        linesFrom_append (h l List.mem_cons_self), hrest]
      rfl

/-- A pair that is printed on one line. -/
structure Pair.OneLine (pair : Pair) : Prop where
  key : PlainKey pair.key
  value : '\n' ∉ pair.value.toList

theorem writePairs_toList (pairs : List Pair) :
    (writePairs pairs).toList = (pairs.map fun pair => pair.line.toList).flatMap (· ++ ['\n']) := by
  simp [writePairs, Pair.line, String.toList_join, List.flatMap_map, String.toList_append]

theorem mapM_parseLine {pairs : List Pair} (h : ∀ pair ∈ pairs, pair.OneLine) :
    (pairs.map fun pair => pair.line.toList).mapM parseLine =
      .ok (pairs.map fun pair => some pair.trimmed) := by
  induction pairs with
  | nil => rfl
  | cons pair pairs ih =>
      have hrest := ih fun p hp => h p (List.mem_cons_of_mem _ hp)
      rw [List.map_cons, List.mapM_cons, parseLine_line (h pair List.mem_cons_self).key, hrest]
      rfl

/-- What is printed is read back, with the values trimmed. -/
theorem parseString_writePairs {pairs : List Pair} (h : ∀ pair ∈ pairs, pair.OneLine) :
    parseString (writePairs pairs) = .ok (pairs.map Pair.trimmed) := by
  have hlines : linesFrom [] (writePairs pairs).toList = pairs.map fun pair => pair.line.toList := by
    rw [writePairs_toList]
    apply linesFrom_flatMap
    intro l hl
    obtain ⟨pair, hpair, rfl⟩ := List.mem_map.mp hl
    have hkey := (h pair hpair).key.2.1
    have hvalue := (h pair hpair).value
    simp [Pair.line, String.toList_append, hkey, hvalue]
  unfold parseString
  rw [hlines, mapM_parseLine h]
  change Except.ok (List.reduceOption _) = _
  simp [List.reduceOption]

/-! ## What a reader takes -/

section

variable {σ : Type} {context key : String} {pair : Pair} {s s' : σ}

theorem readRequired_eq_some {ref : σ → Option String} {store : String → σ → σ} :
    readRequired key ref store context pair s = .ok (some s') ↔
      pair.key = key ∧ ref s = none ∧ store pair.value s = s' := by
  unfold readRequired
  by_cases hkey : pair.key = key
  · cases href : ref s <;> simp [hkey]
  · simp [hkey]

theorem readOpt_eq_some {store : String → σ → σ} :
    readOpt key store context pair s = .ok (some s') ↔
      pair.key = key ∧ store pair.value s = s' := by
  unfold readOpt
  by_cases hkey : pair.key = key <;> simp [hkey]

theorem readCheckEq_eq_some {expect : String} :
    readCheckEq key expect context pair s = .ok (some s') ↔
      pair.key = key ∧ pair.value = expect ∧ s = s' := by
  unfold readCheckEq
  by_cases hkey : pair.key = key
  · by_cases hvalue : pair.value = expect <;> simp [hkey, hvalue]
  · simp [hkey]

theorem readAccumulate_eq_some {push : String → σ → Except LibmanError σ} :
    readAccumulate key push context pair s = .ok (some s') ↔
      pair.key = key ∧ push pair.value s = .ok s' := by
  unfold readAccumulate
  by_cases hkey : pair.key = key
  · cases hpush : push pair.value s <;> simp [hkey, Except.map]
  · simp [hkey]

end

theorem validate_eq_ok {context key s : String} {value : Option String} :
    validate context key value = .ok s ↔ value = some s := by
  cases value <;> simp [validate]

/-! ## What reading keeps -/

section

variable {σ : Type} {context : String} {P : σ → Prop} {readers : List (Reader σ)}

theorem readPair_keeps {pair : Pair} {s s' : σ}
    (hkeeps : ∀ reader ∈ readers, ∀ s s', P s → reader context pair s = .ok (some s') → P s')
    (h : readPair context pair readers s = .ok s') (hs : P s) : P s' := by
  induction readers with
  | nil =>
      cases h
      exact hs
  | cons reader readers ih =>
      unfold readPair at h
      obtain ⟨taken, htaken, h⟩ := Fallible.bind_eq_ok.mp h
      cases taken with
      | some s₁ =>
          cases h
          exact hkeeps reader List.mem_cons_self s _ hs htaken
      | none => exact ih (fun r hr => hkeeps r (List.mem_cons_of_mem _ hr)) h

/-- What every reader keeps holds when all pairs are read. -/
theorem read_keeps {pairs : List Pair} {s s' : σ}
    (hkeeps : ∀ pair ∈ pairs, ∀ reader ∈ readers, ∀ s s', P s →
      reader context pair s = .ok (some s') → P s')
    (h : read context pairs readers s = .ok s') (hs : P s) : P s' := by
  unfold read at h
  induction pairs generalizing s with
  | nil =>
      cases h
      exact hs
  | cons pair pairs ih =>
      rw [List.foldlM_cons] at h
      obtain ⟨s₁, hfirst, h⟩ := Fallible.bind_eq_ok.mp h
      have hs₁ := readPair_keeps (hkeeps pair List.mem_cons_self) hfirst hs
      exact ih (fun p hp => hkeeps p (List.mem_cons_of_mem _ hp)) h hs₁

end

end Bpt.Libman
