-- SUMMARY: What a terminal shows of a text with control sequences that select graphic renditions, and the text without them.
import Mathlib.Data.List.Basic

/-!
# Graphic renditions

A terminal reads a text one character after the other. A control sequence that ends with `m`
changes the attributes of what follows by its parameters, in their order.
-/

namespace Sgr

def esc : Char := '\x1b'

/-- What a character is shown with. A color is one of eight, and bright or not. -/
structure Attributes where
  bold : Bool := false
  faint : Bool := false
  italic : Bool := false
  underline : Bool := false
  reverse : Bool := false
  strike : Bool := false
  foreground : Option (Nat × Bool) := none
  background : Option (Nat × Bool) := none
  deriving DecidableEq

/-- The effect of one parameter. -/
def Attributes.apply (a : Attributes) : Nat → Attributes
  | 0 => {}
  | 1 => { a with bold := true }
  | 2 => { a with faint := true }
  | 3 => { a with italic := true }
  | 4 => { a with underline := true }
  | 7 => { a with reverse := true }
  | 9 => { a with strike := true }
  | 22 => { a with bold := false, faint := false }
  | 23 => { a with italic := false }
  | 24 => { a with underline := false }
  | 27 => { a with reverse := false }
  | 29 => { a with strike := false }
  | 39 => { a with foreground := none }
  | 49 => { a with background := none }
  | code =>
    if 30 ≤ code ∧ code ≤ 37 then { a with foreground := some (code - 30, false) }
    else if 90 ≤ code ∧ code ≤ 97 then { a with foreground := some (code - 90, true) }
    else if 40 ≤ code ∧ code ≤ 47 then { a with background := some (code - 40, false) }
    else if 100 ≤ code ∧ code ≤ 107 then { a with background := some (code - 100, true) }
    else a

def Attributes.applyAll (a : Attributes) (codes : List Nat) : Attributes := codes.foldl apply a

/-! ## The terminal -/

inductive Mode where
  | ground
  | escape
  /-- Within a control sequence, after these characters of its parameters. -/
  | control (parameters : List Char)
  deriving DecidableEq

structure Terminal where
  mode : Mode := .ground
  attributes : Attributes := {}
  /-- The characters that were shown, each with its attributes. -/
  shown : List (Char × Attributes) := []
  deriving DecidableEq

def isParameter (c : Char) : Bool := c.isDigit || c == ';'

/-- The numbers between the semicolons. No digits stand for zero. -/
def parameters (text : List Char) : List Nat :=
  (text.splitOn ';').map fun digits => Nat.ofDigitChars 10 digits 0

def Terminal.read (t : Terminal) (c : Char) : Terminal :=
  match t.mode with
  | .ground =>
    if c = esc then { t with mode := .escape }
    else { t with shown := t.shown ++ [(c, t.attributes)] }
  | .escape => { t with mode := if c = '[' then .control [] else .ground }
  | .control text =>
    if isParameter c then { t with mode := .control (text ++ [c]) }
    else if c = 'm' then
      { t with mode := .ground, attributes := t.attributes.applyAll (parameters text) }
    else { t with mode := .ground }

def Terminal.readAll (t : Terminal) (text : List Char) : Terminal := text.foldl read t

/-- What a terminal shows that starts with no attributes. -/
def shown (text : List Char) : List (Char × Attributes) := (({} : Terminal).readAll text).shown

/-- A text without its control sequences that end with `m`, from a mode on. -/
def stripFrom : Mode → List Char → List Char
  | .ground, [] => []
  | .escape, [] => [esc]
  | .control text, [] => esc :: '[' :: text
  | .ground, c :: rest => if c = esc then stripFrom .escape rest else c :: stripFrom .ground rest
  | .escape, c :: rest =>
    if c = '[' then stripFrom (.control []) rest
    else if c = esc then esc :: stripFrom .escape rest
    else esc :: c :: stripFrom .ground rest
  | .control text, c :: rest =>
    if isParameter c then stripFrom (.control (text ++ [c])) rest
    else if c = 'm' then stripFrom .ground rest
    else esc :: '[' :: text ++ c :: stripFrom .ground rest

def strip (text : List Char) : List Char := stripFrom .ground text

/-! ## Sequences -/

/-- The parameters of a control sequence. -/
def spell (codes : List Nat) : List Char := [';'].intercalate (codes.map (Nat.toDigits 10))

/-- The control sequence with these parameters. -/
def controlSequence (codes : List Nat) : List Char := esc :: '[' :: (spell codes ++ ['m'])

variable {codes : List Nat} {text rest : List Char} {t : Terminal}

theorem spell_eq_nil : spell codes = [] ↔ codes = [] := by
  cases codes with
  | nil => exact iff_of_true rfl rfl
  | cons code codes =>
    apply iff_of_false _ (List.cons_ne_nil _ _)
    cases codes with
    | nil => simp [spell, Nat.toDigits_ne_nil]
    | cons next codes => simp [spell]

theorem spell_concat (codes : List Nat) (code : Nat) : spell (codes ++ [code]) =
    (if codes = [] then spell codes else spell codes ++ [';']) ++ Nat.toDigits 10 code := by
  induction codes with
  | nil => simp [spell]
  | cons first codes ih =>
    cases codes with
    | nil => simp [spell]
    | cons next codes =>
      simp only [reduceCtorEq, if_false] at ih ⊢
      simp only [spell, List.cons_append, List.map_cons, List.intercalate_cons_cons] at ih ⊢
      rw [ih]
      simp

theorem isParameter_of_mem_digits {code : Nat} {c : Char} (h : c ∈ Nat.toDigits 10 code) :
    isParameter c = true := by
  unfold isParameter
  rw [Nat.isDigit_of_mem_toDigits (by decide) (by decide) h, Bool.true_or]

theorem isParameter_of_mem_spell {c : Char} (h : c ∈ spell codes) : isParameter c = true := by
  induction codes with
  | nil => exact absurd h List.not_mem_nil
  | cons code codes ih =>
    unfold spell at h ih
    cases codes with
    | nil =>
      rw [List.map_cons, List.map_nil, List.intercalate_singleton] at h
      exact isParameter_of_mem_digits h
    | cons next codes =>
      rw [List.map_cons, List.map_cons, List.intercalate_cons_cons, List.mem_append,
        List.mem_append, List.mem_singleton] at h
      obtain (h | rfl) | h := h
      · exact isParameter_of_mem_digits h
      · rfl
      · exact ih h

theorem parameters_spell (h : codes ≠ []) : parameters (spell codes) = codes := by
  have hseparator : ∀ digits ∈ codes.map (Nat.toDigits 10), ';' ∉ digits := by
    intro digits hdigits hmem
    obtain ⟨code, -, rfl⟩ := List.mem_map.mp hdigits
    exact absurd (Nat.isDigit_of_mem_toDigits (by decide) (by decide) hmem) (by decide)
  unfold parameters spell
  rw [List.splitOn_intercalate ';' hseparator (by simpa using h), List.map_map]
  apply List.map_id''
  intro code
  exact Nat.ofDigitChars_ten_toDigits

theorem Terminal.readAll_append (t : Terminal) (text rest : List Char) :
    t.readAll (text ++ rest) = (t.readAll text).readAll rest :=
  List.foldl_append

/-- A text without escapes is shown as it is. -/
theorem Terminal.readAll_text (hmode : t.mode = .ground) (h : esc ∉ text) :
    t.readAll text = { t with shown := t.shown ++ text.map fun c => (c, t.attributes) } := by
  induction text generalizing t with
  | nil =>
    rw [List.map_nil, List.append_nil]
    rfl
  | cons c text ih =>
    rw [List.mem_cons, not_or] at h
    obtain ⟨hc, htext⟩ := h
    have hread : t.read c = { t with shown := t.shown ++ [(c, t.attributes)] } := by
      unfold read
      rw [hmode]
      exact if_neg (Ne.symm hc)
    have hrest := ih (t := { t with shown := t.shown ++ [(c, t.attributes)] }) hmode htext
    unfold readAll at hrest ⊢
    rw [List.foldl_cons, hread, hrest, List.append_assoc]
    rfl

theorem Terminal.readAll_parameters {seen : List Char} (hmode : t.mode = .control seen)
    (h : ∀ c ∈ text, isParameter c = true) :
    t.readAll text = { t with mode := .control (seen ++ text) } := by
  induction text generalizing t seen with
  | nil =>
    rw [List.append_nil, ← hmode]
    rfl
  | cons c text ih =>
    have hread : t.read c = { t with mode := .control (seen ++ [c]) } := by
      unfold read
      rw [hmode]
      exact if_pos (h c List.mem_cons_self)
    unfold readAll at ih ⊢
    rw [List.foldl_cons, hread, ih rfl fun c hc => h c (List.mem_cons_of_mem _ hc),
      List.append_assoc]
    rfl

/-- A sequence changes the attributes, and is not shown. -/
theorem Terminal.readAll_controlSequence (hmode : t.mode = .ground) (h : codes ≠ []) :
    t.readAll (controlSequence codes) = { t with attributes := t.attributes.applyAll codes } := by
  have hstart : (t.read esc).read '[' = { t with mode := .control [] } := by
    unfold read
    rw [hmode]
    rfl
  have hend : ({ t with mode := .control (spell codes) } : Terminal).read 'm' =
      { t with attributes := t.attributes.applyAll codes } := by
    unfold read
    dsimp only
    rw [parameters_spell h, hmode]
    rfl
  calc t.readAll (controlSequence codes)
      = (({ t with mode := .control [] } : Terminal).readAll (spell codes)).readAll ['m'] := by
        rw [← readAll_append, ← hstart]
        rfl
    _ = ({ t with mode := .control (spell codes) } : Terminal).read 'm' := by
        rw [readAll_parameters rfl fun c => isParameter_of_mem_spell, List.nil_append]
        rfl
    _ = { t with attributes := t.attributes.applyAll codes } := hend

theorem stripFrom_parameters {seen : List Char} (h : ∀ c ∈ text, isParameter c = true) :
    stripFrom (.control seen) (text ++ rest) = stripFrom (.control (seen ++ text)) rest := by
  induction text generalizing seen with
  | nil => rw [List.nil_append, List.append_nil]
  | cons c text ih =>
    rw [List.cons_append, stripFrom, if_pos (h c List.mem_cons_self),
      ih fun c hc => h c (List.mem_cons_of_mem _ hc), List.append_assoc]
    rfl

theorem strip_controlSequence : strip (controlSequence codes ++ rest) = strip rest := by
  unfold strip controlSequence
  rw [List.cons_append, List.cons_append, stripFrom, if_pos rfl, stripFrom, if_pos rfl,
    List.append_assoc, stripFrom_parameters fun c => isParameter_of_mem_spell, List.cons_append,
    stripFrom, if_neg (by decide), if_pos rfl]
  rfl

/-- Before any text, a text leaves these characters. -/
def Strips (text left : List Char) : Prop := ∀ rest, strip (text ++ rest) = left ++ strip rest

theorem strips_nil : Strips [] [] := fun _ => rfl

theorem strips_controlSequence (codes : List Nat) : Strips (controlSequence codes) [] :=
  fun _ => strip_controlSequence

theorem Strips.cons {left : List Char} {c : Char} (h : Strips text left) (hc : c ≠ esc) :
    Strips (c :: text) (c :: left) := by
  intro rest
  have hrest := h rest
  unfold strip at hrest ⊢
  rw [List.cons_append, stripFrom, if_neg hc, hrest, List.cons_append]

theorem Strips.append {more left left' : List Char} (h : Strips text left)
    (hmore : Strips more left') : Strips (text ++ more) (left ++ left') := by
  intro rest
  rw [List.append_assoc, h, hmore, List.append_assoc]

theorem Strips.strip_eq {left : List Char} (h : Strips text left) : strip text = left := by
  have hnil := h []
  rw [List.append_nil] at hnil
  rw [hnil]
  exact List.append_nil left

end Sgr
