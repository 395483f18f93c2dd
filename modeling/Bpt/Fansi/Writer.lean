-- SUMMARY: The writer of styled text, which encodes each change of style as a delta or as a reset.
import Bpt.Base.Sgr

/-!
# The text writer

A change of the style is written as the control codes of what has changed, or as a reset
and the codes of what is on, where that is shorter. The codes of both are collected first.
-/

namespace Bpt.Fansi

open Sgr

inductive StdColor where
  | unspecified
  | black
  | red
  | green
  | yellow
  | blue
  | magent
  | cyan
  | white
  | normal
  deriving DecidableEq

def StdColor.toInt : StdColor → Int
  | .unspecified => -1
  | .black => 0
  | .red => 1
  | .green => 2
  | .yellow => 3
  | .blue => 4
  | .magent => 5
  | .cyan => 6
  | .white => 7
  | .normal => 9

structure TextStyle where
  fgColor : StdColor := .normal
  bgColor : StdColor := .normal
  bright : Bool := false
  bold : Bool := false
  faint : Bool := false
  italic : Bool := false
  underline : Bool := false
  reverse : Bool := false
  strike : Bool := false
  deriving DecidableEq

structure TextWriter where
  buf : List Char := []
  visSize : Nat := 0
  style : TextStyle := {}

def TextWriter.write (w : TextWriter) (text : List Char) : TextWriter :=
  { w with buf := w.buf ++ text, visSize := w.visSize + text.length }

def TextWriter.putc (w : TextWriter) (c : Char) : TextWriter := w.write [c]

/-! ## Styles -/

/-- No color has a negative code. -/
def codeForColor (col : StdColor) (bright : Bool) : Nat :=
  (30 + col.toInt).toNat + if bright ∧ col ≠ .normal then 60 else 0

/-- The two encodings of a change, as far as they are collected. -/
structure Encodings where
  unbold : Bool := false
  resetThenEnable : List Char := ['0']
  setToggles : List Char := []

def appendInt (out : List Char) (i : Nat) : List Char :=
  (if out.isEmpty then out else out ++ [';']) ++ Nat.toDigits 10 i

def appendToggle (e : Encodings) (myState prevState : Bool) (onVal : Nat) : Encodings :=
  let offVal := onVal + 20
  if myState = false then
    if prevState ≠ myState then
      -- terminals disagree on the meaning of 21
      { e with
        setToggles := appendInt e.setToggles offVal
        unbold := e.unbold || offVal == 21 }
    else e
  else
    { e with
      resetThenEnable := appendInt e.resetThenEnable onVal
      setToggles := if prevState ≠ myState then appendInt e.setToggles onVal else e.setToggles }

/-- The foreground and the background color are appended alike. -/
def appendColor (e : Encodings) (color : StdColor) (code prevCode : Nat) : Encodings :=
  { e with
    -- a reset brings back the normal color
    resetThenEnable :=
      if color = .normal then e.resetThenEnable else appendInt e.resetThenEnable code
    setToggles := if code ≠ prevCode then appendInt e.setToggles code else e.setToggles }

def encodings (prev new : TextStyle) : Encodings :=
  let e : Encodings := {}
  let e := appendToggle e new.bold prev.bold 1
  let e := appendToggle e new.faint prev.faint 2
  let e := appendToggle e new.italic prev.italic 3
  let e := appendToggle e new.underline prev.underline 4
  let e := appendToggle e new.reverse prev.reverse 7
  let e := appendToggle e new.strike prev.strike 9
  let e := appendColor e new.fgColor (codeForColor new.fgColor new.bright)
    (codeForColor prev.fgColor prev.bright)
  appendColor e new.bgColor (codeForColor new.bgColor new.bright + 10)
    (codeForColor prev.bgColor prev.bright + 10)

/-- The reset is chosen. -/
def resets (prev new : TextStyle) : Bool :=
  let e := encodings prev new
  e.unbold || decide (e.resetThenEnable.length < e.setToggles.length)

def emitted (prev new : TextStyle) : List Char :=
  let e := encodings prev new
  if e.setToggles.isEmpty then []
  else if resets prev new then esc :: '[' :: (e.resetThenEnable ++ ['m'])
  else esc :: '[' :: (e.setToggles ++ ['m'])

def TextWriter.putStyle (w : TextWriter) (newStyle : TextStyle) : TextWriter :=
  { w with buf := w.buf ++ emitted w.style newStyle, style := newStyle }

/-! ## Codes -/

/-- The code of a state that is on. -/
def onCode (state : Bool) (onVal : Nat) : List Nat := if state then [onVal] else []

/-- The code of a state that has changed. -/
def toggleCode (myState prevState : Bool) (onVal : Nat) : List Nat :=
  if prevState = myState then [] else [if myState then onVal else onVal + 20]

def setColorCode (color : StdColor) (code : Nat) : List Nat :=
  if color = .normal then [] else [code]

def changeColorCode (code prevCode : Nat) : List Nat := if code = prevCode then [] else [code]

/-- The codes of a style after a reset. -/
def resetCodes (new : TextStyle) : List Nat :=
  [0] ++ onCode new.bold 1 ++ onCode new.faint 2 ++ onCode new.italic 3 ++
    onCode new.underline 4 ++ onCode new.reverse 7 ++ onCode new.strike 9 ++
    setColorCode new.fgColor (codeForColor new.fgColor new.bright) ++
    setColorCode new.bgColor (codeForColor new.bgColor new.bright + 10)

/-- The codes of what has changed. -/
def toggleCodes (prev new : TextStyle) : List Nat :=
  toggleCode new.bold prev.bold 1 ++ toggleCode new.faint prev.faint 2 ++
    toggleCode new.italic prev.italic 3 ++ toggleCode new.underline prev.underline 4 ++
    toggleCode new.reverse prev.reverse 7 ++ toggleCode new.strike prev.strike 9 ++
    changeColorCode (codeForColor new.fgColor new.bright) (codeForColor prev.fgColor prev.bright) ++
    changeColorCode (codeForColor new.bgColor new.bright + 10)
      (codeForColor prev.bgColor prev.bright + 10)

variable {e : Encodings} {reset toggles codes : List Nat} {prev new : TextStyle} {w : TextWriter}

/-- What has been collected spells two lists of codes. -/
structure Encodings.Spells (e : Encodings) (reset toggles : List Nat) : Prop where
  reset : e.resetThenEnable = spell reset
  toggles : e.setToggles = spell toggles

theorem appendInt_spell (codes : List Nat) (i : Nat) :
    appendInt (spell codes) i = spell (codes ++ [i]) := by
  unfold appendInt
  rw [spell_concat]
  simp only [List.isEmpty_iff, spell_eq_nil]

theorem Encodings.Spells.appendToggle (h : e.Spells reset toggles) (my prev : Bool) (onVal : Nat) :
    (Fansi.appendToggle e my prev onVal).Spells (reset ++ onCode my onVal)
      (toggles ++ toggleCode my prev onVal) := by
  unfold Fansi.appendToggle onCode toggleCode
  rw [h.reset, h.toggles]
  cases my <;> cases prev <;> constructor <;>
    simp [h.reset, h.toggles, appendInt_spell]

theorem Encodings.Spells.appendColor (h : e.Spells reset toggles) (color : StdColor)
    (code prevCode : Nat) :
    (Fansi.appendColor e color code prevCode).Spells (reset ++ setColorCode color code)
      (toggles ++ changeColorCode code prevCode) := by
  unfold Fansi.appendColor setColorCode changeColorCode
  constructor
  · rw [h.reset]
    split
    next => rw [List.append_nil]
    next => exact appendInt_spell reset code
  · rw [h.toggles]
    by_cases heq : code = prevCode
    · rw [if_pos heq, if_neg (not_not_intro heq), List.append_nil]
    · rw [if_neg heq, if_pos heq]
      exact appendInt_spell toggles code

theorem encodings_spells (prev new : TextStyle) :
    (encodings prev new).Spells (resetCodes new) (toggleCodes prev new) := by
  have hstart : ({} : Encodings).Spells [0] [] := ⟨rfl, rfl⟩
  exact (((((((hstart.appendToggle _ _ _).appendToggle _ _ _).appendToggle _ _ _).appendToggle
    _ _ _).appendToggle _ _ _).appendToggle _ _ _).appendColor _ _ _).appendColor _ _ _

/-- Only bold that goes off forces a reset. -/
theorem unbold_encodings (prev new : TextStyle) :
    (encodings prev new).unbold = (prev.bold && !new.bold) := by
  have htoggle : ∀ (e : Encodings) (my prev : Bool) (onVal : Nat), onVal ≠ 1 →
      (appendToggle e my prev onVal).unbold = e.unbold := by
    intro e my prev onVal hval
    have hoff : (onVal + 20 == 21) = false := by
      rw [beq_eq_false_iff_ne]
      omega
    unfold appendToggle
    cases my <;> cases prev <;> simp [hoff]
  unfold encodings
  simp only [appendColor, htoggle _ _ _ _ (show 9 ≠ 1 by decide),
    htoggle _ _ _ _ (show 7 ≠ 1 by decide), htoggle _ _ _ _ (show 4 ≠ 1 by decide),
    htoggle _ _ _ _ (show 3 ≠ 1 by decide), htoggle _ _ _ _ (show 2 ≠ 1 by decide)]
  unfold appendToggle
  cases new.bold <;> cases prev.bold <;> rfl

/-- A reset is chosen when bold goes off, or when it is shorter. -/
theorem resets_eq (prev new : TextStyle) : resets prev new = (prev.bold && !new.bold ||
    decide ((spell (resetCodes new)).length < (spell (toggleCodes prev new)).length)) := by
  have hspells := encodings_spells prev new
  unfold resets
  rw [← unbold_encodings, ← hspells.reset, ← hspells.toggles]

/-- A change is written as one control sequence, or not at all when nothing has changed. -/
theorem emitted_eq (prev new : TextStyle) : emitted prev new =
    if toggleCodes prev new = [] then []
    else if resets prev new then controlSequence (resetCodes new)
    else controlSequence (toggleCodes prev new) := by
  have hspells := encodings_spells prev new
  unfold emitted controlSequence
  simp only [hspells.reset, hspells.toggles, List.isEmpty_iff, spell_eq_nil]

end Bpt.Fansi
