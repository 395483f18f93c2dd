-- SUMMARY: When a terminal shows what was written in the style that was put last, over all runs of a writer.
import Bpt.Fansi.Writer

/-!
# What is displayed

The terminal keeps the style of the writer but for bold, which the code that turns faint off
turns off as well. A bold that is lost in this way comes back with the next reset.
-/

namespace Bpt.Fansi

open Sgr

variable {prev new style : TextStyle} {a : Attributes} {lost : Bool}

/-! ## Styles on a terminal -/

/-- What a color looks like. The normal one has no bright form. -/
def StdColor.shown (color : StdColor) (bright : Bool) : Option (Nat × Bool) :=
  if color = .normal then none else some (color.toInt.toNat, bright)

def TextStyle.shown (style : TextStyle) : Attributes where
  bold := style.bold
  faint := style.faint
  italic := style.italic
  underline := style.underline
  reverse := style.reverse
  strike := style.strike
  foreground := style.fgColor.shown style.bright
  background := style.bgColor.shown style.bright

/-- Both colors are specified. -/
def TextStyle.Specified (style : TextStyle) : Prop :=
  style.fgColor ≠ .unspecified ∧ style.bgColor ≠ .unspecified

theorem applyAll_append (a : Attributes) (codes more : List Nat) :
    a.applyAll (codes ++ more) = (a.applyAll codes).applyAll more :=
  List.foldl_append

theorem apply_foreground {color : StdColor} (h : color ≠ .unspecified) (bright : Bool) :
    a.apply (codeForColor color bright) = { a with foreground := color.shown bright } := by
  cases color with
  | unspecified => exact absurd rfl h
  | black | red | green | yellow | blue | magent | cyan | white | normal => cases bright <;> rfl

theorem apply_background {color : StdColor} (h : color ≠ .unspecified) (bright : Bool) :
    a.apply (codeForColor color bright + 10) = { a with background := color.shown bright } := by
  cases color with
  | unspecified => exact absurd rfl h
  | black | red | green | yellow | blue | magent | cyan | white | normal => cases bright <;> rfl

/-- Colors with the same code look alike. -/
theorem shown_eq_of_code {color color' : StdColor} {bright bright' : Bool}
    (h : color ≠ .unspecified) (h' : color' ≠ .unspecified)
    (hcode : codeForColor color bright = codeForColor color' bright') :
    color.shown bright = color'.shown bright' := by
  have hcolor := apply_foreground (a := {}) h bright
  have hcolor' := apply_foreground (a := {}) h' bright'
  rw [hcode, hcolor'] at hcolor
  exact (congrArg Attributes.foreground hcolor).symm

/-! ## The two encodings -/

theorem applyAll_setColorCodes (h : new.Specified) (hforeground : a.foreground = none)
    (hbackground : a.background = none) :
    a.applyAll (setColorCode new.fgColor (codeForColor new.fgColor new.bright) ++
      setColorCode new.bgColor (codeForColor new.bgColor new.bright + 10)) =
      { a with
        foreground := new.fgColor.shown new.bright
        background := new.bgColor.shown new.bright } := by
  have hfirst : a.applyAll (setColorCode new.fgColor (codeForColor new.fgColor new.bright)) =
      { a with foreground := new.fgColor.shown new.bright } := by
    unfold setColorCode
    split
    next hnormal =>
      rw [hnormal]
      exact congrArg (fun color => { a with foreground := color }) hforeground
    next => exact apply_foreground h.1 new.bright
  rw [applyAll_append, hfirst]
  unfold setColorCode
  split
  next hnormal =>
    rw [hnormal]
    exact congrArg (fun color => ({ a with
      foreground := new.fgColor.shown new.bright, background := color } : Attributes)) hbackground
  next => exact apply_background h.2 new.bright

/-- A reset and the codes of a style show the style. -/
theorem applyAll_resetCodes (h : new.Specified) : a.applyAll (resetCodes new) = new.shown := by
  have hstates : a.applyAll ([0] ++ onCode new.bold 1 ++ onCode new.faint 2 ++
      onCode new.italic 3 ++ onCode new.underline 4 ++ onCode new.reverse 7 ++
      onCode new.strike 9) = { new.shown with foreground := none, background := none } := by
    unfold TextStyle.shown
    cases new.bold <;> cases new.faint <;> cases new.italic <;> cases new.underline <;>
      cases new.reverse <;> cases new.strike <;> rfl
  unfold resetCodes
  rw [List.append_assoc _ (setColorCode new.fgColor _), applyAll_append, hstates,
    applyAll_setColorCodes h rfl rfl]
  rfl

/-- The code of a state that has changed sets the state. -/
theorem applyAll_toggleCode (set : Bool → Attributes) {my prevState : Bool} {onVal : Nat}
    (hsame : set prevState = a) (hon : prevState = false → my = true → a.apply onVal = set true)
    (hoff : prevState = true → my = false → a.apply (onVal + 20) = set false) :
    a.applyAll (toggleCode my prevState onVal) = set my := by
  unfold toggleCode
  cases my <;> cases prevState
  · exact hsame.symm
  · exact hoff rfl rfl
  · exact hon rfl rfl
  · exact hsame.symm

section

variable (my prevState : Bool)

theorem applyAll_toggleBold (ha : a.bold = (prevState && !lost))
    (hlost : lost = true → prevState = true) (hbold : prevState = true → my = true) :
    a.applyAll (toggleCode my prevState 1) = { a with bold := my && !lost } := by
  apply applyAll_toggleCode fun b => { a with bold := b && !lost }
  · rw [← ha]
  · intro hprev _
    cases lost with
    | false => rfl
    | true => exact absurd (hlost rfl) (by rw [hprev]; decide)
  · intro hprev hmy
    exact absurd (hbold hprev) (by rw [hmy]; decide)

/-- The code that turns faint off turns bold off as well. -/
theorem applyAll_toggleFaint (ha : a.faint = prevState) :
    a.applyAll (toggleCode my prevState 2) =
      { a with bold := a.bold && !(prevState && !my), faint := my } := by
  apply applyAll_toggleCode fun b => { a with bold := a.bold && !(prevState && !b), faint := b }
  · rw [← ha, Bool.and_not_self, Bool.not_false, Bool.and_true]
  · intro hprev _
    rw [hprev, Bool.false_and, Bool.not_false, Bool.and_true]
    rfl
  · intro hprev _
    rw [hprev, Bool.not_false, Bool.and_true, Bool.not_true, Bool.and_false]
    rfl

theorem applyAll_toggleItalic (ha : a.italic = prevState) :
    a.applyAll (toggleCode my prevState 3) = { a with italic := my } :=
  applyAll_toggleCode (fun b => { a with italic := b }) (by rw [← ha]) (fun _ _ => rfl)
    fun _ _ => rfl

theorem applyAll_toggleUnderline (ha : a.underline = prevState) :
    a.applyAll (toggleCode my prevState 4) = { a with underline := my } :=
  applyAll_toggleCode (fun b => { a with underline := b }) (by rw [← ha]) (fun _ _ => rfl)
    fun _ _ => rfl

theorem applyAll_toggleReverse (ha : a.reverse = prevState) :
    a.applyAll (toggleCode my prevState 7) = { a with reverse := my } :=
  applyAll_toggleCode (fun b => { a with reverse := b }) (by rw [← ha]) (fun _ _ => rfl)
    fun _ _ => rfl

theorem applyAll_toggleStrike (ha : a.strike = prevState) :
    a.applyAll (toggleCode my prevState 9) = { a with strike := my } :=
  applyAll_toggleCode (fun b => { a with strike := b }) (by rw [← ha]) (fun _ _ => rfl)
    fun _ _ => rfl

end

theorem applyAll_changeForeground (hnew : new.Specified) (hprev : prev.Specified)
    (ha : a.foreground = prev.fgColor.shown prev.bright) :
    a.applyAll (changeColorCode (codeForColor new.fgColor new.bright)
      (codeForColor prev.fgColor prev.bright)) =
        { a with foreground := new.fgColor.shown new.bright } := by
  unfold changeColorCode
  split
  next hcode =>
    rw [shown_eq_of_code hnew.1 hprev.1 hcode, ← ha]
    rfl
  next => exact apply_foreground hnew.1 new.bright

theorem applyAll_changeBackground (hnew : new.Specified) (hprev : prev.Specified)
    (ha : a.background = prev.bgColor.shown prev.bright) :
    a.applyAll (changeColorCode (codeForColor new.bgColor new.bright + 10)
      (codeForColor prev.bgColor prev.bright + 10)) =
        { a with background := new.bgColor.shown new.bright } := by
  unfold changeColorCode
  split
  next hcode =>
    rw [shown_eq_of_code hnew.2 hprev.2 (Nat.add_right_cancel hcode), ← ha]
    rfl
  next => exact apply_background hnew.2 new.bright

/-- Whether bold is lost by a change that turns faint off, or stays lost. A reset brings it
back. -/
def boldLost (prev new : TextStyle) (lost : Bool) : Bool :=
  !resets prev new && (lost || (prev.faint && !new.faint && new.bold))

/-- What a terminal has that shows a style, but for bold where it is lost. -/
def TextStyle.shownBut (style : TextStyle) (lost : Bool) : Attributes :=
  { style.shown with bold := style.bold && !lost }

/-- Where bold does not go off, faint takes bold with it when it goes off. -/
theorem applyAll_toggleBoldFaint (hlost : lost = true → prev.bold = true)
    (hbold : prev.bold = true → new.bold = true) :
    ((prev.shownBut lost).applyAll (toggleCode new.bold prev.bold 1)).applyAll
        (toggleCode new.faint prev.faint 2) =
      { prev.shown with
        bold := new.bold && !(lost || (prev.faint && !new.faint && new.bold))
        faint := new.faint } := by
  have hbold' : (prev.shownBut lost).applyAll (toggleCode new.bold prev.bold 1) =
      { prev.shown with bold := new.bold && !lost } :=
    applyAll_toggleBold _ _ rfl hlost hbold
  have hshown : (new.bold && !(lost || (prev.faint && !new.faint && new.bold))) =
      (new.bold && !lost && !(prev.faint && !new.faint)) := by
    cases new.bold <;> cases lost <;> cases prev.faint <;> cases new.faint <;> rfl
  rw [hbold', hshown]
  exact applyAll_toggleFaint _ _ rfl

/-- The other codes of what has changed leave bold and faint alone. -/
theorem applyAll_toggleOthers (hnew : new.Specified) (hprev : prev.Specified) (lost : Bool) :
    ((((((({ prev.shown with
        bold := new.bold && !lost, faint := new.faint } : Attributes).applyAll
      (toggleCode new.italic prev.italic 3)).applyAll
      (toggleCode new.underline prev.underline 4)).applyAll
      (toggleCode new.reverse prev.reverse 7)).applyAll
      (toggleCode new.strike prev.strike 9)).applyAll
      (changeColorCode (codeForColor new.fgColor new.bright)
        (codeForColor prev.fgColor prev.bright))).applyAll
      (changeColorCode (codeForColor new.bgColor new.bright + 10)
        (codeForColor prev.bgColor prev.bright + 10))) = new.shownBut lost := by
  have hitalic : ({ prev.shown with
      bold := new.bold && !lost, faint := new.faint } : Attributes).applyAll
        (toggleCode new.italic prev.italic 3) =
          { prev.shown with
            bold := new.bold && !lost, faint := new.faint, italic := new.italic } :=
    applyAll_toggleItalic _ _ rfl
  have hunderline : ({ prev.shown with
      bold := new.bold && !lost, faint := new.faint, italic := new.italic } : Attributes).applyAll
        (toggleCode new.underline prev.underline 4) =
          { new.shownBut lost with
            reverse := prev.reverse, strike := prev.strike
            foreground := prev.shown.foreground, background := prev.shown.background } :=
    applyAll_toggleUnderline _ _ rfl
  have hreverse : ({ new.shownBut lost with
      reverse := prev.reverse, strike := prev.strike, foreground := prev.shown.foreground
      background := prev.shown.background } : Attributes).applyAll
        (toggleCode new.reverse prev.reverse 7) =
          { new.shownBut lost with
            strike := prev.strike, foreground := prev.shown.foreground
            background := prev.shown.background } :=
    applyAll_toggleReverse _ _ rfl
  have hstrike : ({ new.shownBut lost with
      strike := prev.strike, foreground := prev.shown.foreground
      background := prev.shown.background } : Attributes).applyAll
        (toggleCode new.strike prev.strike 9) =
          { new.shownBut lost with
            foreground := prev.shown.foreground, background := prev.shown.background } :=
    applyAll_toggleStrike _ _ rfl
  have hforeground : ({ new.shownBut lost with
      foreground := prev.shown.foreground
      background := prev.shown.background } : Attributes).applyAll
        (changeColorCode (codeForColor new.fgColor new.bright)
          (codeForColor prev.fgColor prev.bright)) =
            { new.shownBut lost with background := prev.shown.background } :=
    applyAll_changeForeground hnew hprev rfl
  rw [hitalic, hunderline, hreverse, hstrike, hforeground]
  exact applyAll_changeBackground hnew hprev rfl

/-- Where bold does not go off, the codes of what has changed show the new style, but that
faint takes bold with it. -/
theorem applyAll_toggleCodes (hnew : new.Specified) (hprev : prev.Specified)
    (hlost : lost = true → prev.bold = true) (hbold : prev.bold = true → new.bold = true) :
    (prev.shownBut lost).applyAll (toggleCodes prev new) =
      new.shownBut (lost || (prev.faint && !new.faint && new.bold)) := by
  unfold toggleCodes
  simp only [applyAll_append]
  rw [applyAll_toggleBoldFaint hlost hbold]
  exact applyAll_toggleOthers hnew hprev _

/-! ## One change of style -/

/-- Nothing is reset when nothing has changed. -/
theorem resets_eq_false (h : toggleCodes prev new = []) : resets prev new = false := by
  have hbold : prev.bold = new.bold := by
    by_contra hne
    simp [toggleCodes, toggleCode, hne] at h
  rw [resets_eq, h, hbold, Bool.and_not_self, Bool.false_or]
  simp [spell]

/-- A bold that goes off forces a reset. -/
theorem bold_of_resets (h : resets prev new = false) (hbold : prev.bold = true) :
    new.bold = true := by
  rw [resets_eq, Bool.or_eq_false_iff, hbold, Bool.true_and, Bool.not_eq_false'] at h
  exact h.1

theorem bold_of_boldLost (hlost : lost = true → prev.bold = true)
    (h : boldLost prev new lost = true) : new.bold = true := by
  obtain ⟨hresets, h⟩ := Bool.and_eq_true_iff.mp h
  obtain h | h := Bool.or_eq_true_iff.mp h
  · exact bold_of_resets ((Bool.not_eq_true' _).mp hresets) (hlost h)
  · exact (Bool.and_eq_true_iff.mp h).2

/-- The terminal shows the new style after a change, but for bold where it is lost. -/
theorem readAll_emitted {t : Terminal} (hmode : t.mode = .ground) (hnew : new.Specified)
    (hprev : prev.Specified) (hlost : lost = true → prev.bold = true)
    (ht : t.attributes = prev.shownBut lost) :
    t.readAll (emitted prev new) =
      { t with attributes := new.shownBut (boldLost prev new lost) } := by
  have htoggles : resets prev new = false →
      (prev.shownBut lost).applyAll (toggleCodes prev new) =
        new.shownBut (boldLost prev new lost) := by
    intro hresets
    unfold boldLost
    rw [hresets]
    exact applyAll_toggleCodes hnew hprev hlost (bold_of_resets hresets)
  rw [emitted_eq]
  split
  next hnone =>
    have hsame := htoggles (resets_eq_false hnone)
    rw [hnone] at hsame
    rw [← hsame, ← ht]
    rfl
  next hne =>
    split
    next hresets =>
      rw [Terminal.readAll_controlSequence hmode (by simp [resetCodes]), applyAll_resetCodes hnew]
      unfold boldLost
      rw [hresets]
      simp [TextStyle.shownBut, TextStyle.shown]
    next hresets =>
      rw [Terminal.readAll_controlSequence hmode hne, ht, htoggles (Bool.not_eq_true _ ▸ hresets)]

/-! ## Runs of the writer -/

inductive Op where
  | write (text : List Char)
  | putStyle (style : TextStyle)

def TextWriter.step (w : TextWriter) : Op → TextWriter
  | .write text => w.write text
  | .putStyle style => w.putStyle style

def TextWriter.run (w : TextWriter) (ops : List Op) : TextWriter := ops.foldl step w

/-- Every character that is written, in the style that was put last. -/
def requested (style : TextStyle) : List Op → List (Char × Attributes)
  | [] => []
  | .write text :: ops => text.map (fun c => (c, style.shown)) ++ requested style ops
  | .putStyle new :: ops => requested new ops

/-- Every character that is written, with bold as it was kept. -/
def displayed (style : TextStyle) (lost : Bool) : List Op → List (Char × Attributes)
  | [] => []
  | .write text :: ops =>
    text.map (fun c => (c, style.shownBut lost)) ++ displayed style lost ops
  | .putStyle new :: ops => displayed new (boldLost style new lost) ops

/-- Nothing is written while bold is lost. -/
def BoldKept (style : TextStyle) (lost : Bool) : List Op → Prop
  | [] => True
  | .write text :: ops => (lost = true → text = []) ∧ BoldKept style lost ops
  | .putStyle new :: ops => BoldKept new (boldLost style new lost) ops

/-- No escape is written as a text. -/
def NoEscape (ops : List Op) : Prop := ∀ text, .write text ∈ ops → esc ∉ text

/-- All colors of the styles are specified. -/
def AllSpecified (ops : List Op) : Prop := ∀ style, .putStyle style ∈ ops → style.Specified

variable {ops : List Op}

/-- What a terminal shows of a run, from a state in which it shows the style of the writer but
for a lost bold. -/
theorem shown_run {w : TextWriter} (hescape : NoEscape ops) (hspecified : AllSpecified ops)
    (hstyle : w.style.Specified) (hlost : lost = true → w.style.bold = true)
    (hmode : (({} : Terminal).readAll w.buf).mode = .ground)
    (hattributes : (({} : Terminal).readAll w.buf).attributes = w.style.shownBut lost) :
    Sgr.shown (w.run ops).buf = Sgr.shown w.buf ++ displayed w.style lost ops := by
  induction ops generalizing w lost with
  | nil => exact (List.append_nil _).symm
  | cons op ops ih =>
    have hescape' : NoEscape ops := fun text htext => hescape text (.tail _ htext)
    have hspecified' : AllSpecified ops := fun style hmem => hspecified style (.tail _ hmem)
    have hrun : w.run (op :: ops) = (w.step op).run ops := rfl
    rw [hrun]
    cases op with
    | write text =>
      have hread : ({} : Terminal).readAll (w.write text).buf = _ :=
        (Terminal.readAll_append _ _ _).trans
          (Terminal.readAll_text hmode (hescape text (.head _)))
      have hrest := ih hescape' hspecified' (w := w.write text) hstyle hlost
        ((congrArg Terminal.mode hread).trans hmode)
        ((congrArg Terminal.attributes hread).trans hattributes)
      have hshown : Sgr.shown (w.write text).buf =
          Sgr.shown w.buf ++ text.map fun c => (c, w.style.shownBut lost) := by
        rw [← hattributes]
        exact congrArg Terminal.shown hread
      rw [show w.step (.write text) = w.write text from rfl, hrest, hshown, List.append_assoc]
      rfl
    | putStyle new =>
      have hnew := hspecified new (.head _)
      have hread : ({} : Terminal).readAll (w.putStyle new).buf = _ :=
        (Terminal.readAll_append _ _ _).trans
          (readAll_emitted hmode hnew hstyle hlost hattributes)
      have hrest := ih hescape' hspecified' (w := w.putStyle new) hnew
        (bold_of_boldLost hlost) ((congrArg Terminal.mode hread).trans hmode)
        (congrArg Terminal.attributes hread)
      have hshown : Sgr.shown (w.putStyle new).buf = Sgr.shown w.buf := by
        have hfield := congrArg Terminal.shown hread
        exact hfield
      rw [show w.step (.putStyle new) = w.putStyle new from rfl, hrest, hshown]
      rfl

theorem map_shownBut_iff {text : List Char} (hlost : lost = true → style.bold = true) :
    text.map (fun c => (c, style.shownBut lost)) = text.map (fun c => (c, style.shown)) ↔
      (lost = true → text = []) := by
  cases lost with
  | false =>
    have hsame : style.shownBut false = style.shown := by simp [TextStyle.shownBut, TextStyle.shown]
    rw [hsame]
    exact iff_of_true rfl (fun h => absurd h (by decide))
  | true =>
    cases text with
    | nil => exact iff_of_true rfl fun _ => rfl
    | cons c text =>
      apply iff_of_false
      · intro h
        have hbold := congrArg (fun shown => shown.head?.map (·.2.bold)) h
        simp [TextStyle.shownBut, TextStyle.shown, hlost rfl] at hbold
      · exact fun h => absurd (h rfl) (List.cons_ne_nil _ _)

/-- What is displayed is what was requested when nothing is written while bold is lost. -/
theorem displayed_eq_iff (hlost : lost = true → style.bold = true) :
    displayed style lost ops = requested style ops ↔ BoldKept style lost ops := by
  induction ops generalizing style lost with
  | nil => exact iff_of_true rfl trivial
  | cons op ops ih =>
    cases op with
    | write text =>
      unfold displayed requested BoldKept
      rw [← ih hlost, ← map_shownBut_iff hlost]
      constructor
      · intro h
        exact List.append_inj h (by rw [List.length_map, List.length_map])
      · rintro ⟨htext, hops⟩
        rw [htext, hops]
    | putStyle new => exact ih (bold_of_boldLost hlost)

/-- An escape is never shown. -/
theorem esc_not_mem_shown (text : List Char) (a : Attributes) : (esc, a) ∉ Sgr.shown text := by
  have hread : ∀ (text : List Char) (t : Terminal), (esc, a) ∉ t.shown →
      (esc, a) ∉ (t.readAll text).shown := by
    intro text
    induction text with
    | nil => exact fun _ h => h
    | cons c text ih =>
      intro t ht
      apply ih (t.read c)
      unfold Terminal.read
      split
      · split
        next => exact ht
        next hne =>
          rw [List.mem_append, List.mem_singleton, not_or]
          exact ⟨ht, fun h => hne (congrArg Prod.fst h).symm⟩
      · exact ht
      · split
        next => exact ht
        next => split <;> exact ht
  exact hread text {} List.not_mem_nil

theorem mem_requested {text : List Char} (h : .write text ∈ ops) {c : Char} (hc : c ∈ text)
    (style : TextStyle) : ∃ a, (c, a) ∈ requested style ops := by
  induction ops generalizing style with
  | nil => exact absurd h List.not_mem_nil
  | cons op ops ih =>
    cases op with
    | write first =>
      unfold requested
      obtain heq | htail := List.mem_cons.mp h
      · cases heq
        exact ⟨_, List.mem_append_left _ (List.mem_map.mpr ⟨c, hc, rfl⟩)⟩
      · obtain ⟨a, ha⟩ := ih htail style
        exact ⟨a, List.mem_append_right _ ha⟩
    | putStyle new =>
      obtain heq | htail := List.mem_cons.mp h
      · cases heq
      · exact ih htail new

/-- A terminal shows every character in the style that was put last when no text has an escape
and nothing is written while bold is lost, and only then. -/
theorem shown_eq_requested_iff (h : AllSpecified ops) :
    Sgr.shown (({} : TextWriter).run ops).buf = requested {} ops ↔
      NoEscape ops ∧ BoldKept {} false ops := by
  have hlost : false = true → ({} : TextStyle).bold = true := fun h => absurd h (by decide)
  have hrun : NoEscape ops →
      Sgr.shown (({} : TextWriter).run ops).buf = displayed {} false ops := fun hescape =>
    shown_run hescape h ⟨by decide, by decide⟩ hlost rfl rfl
  constructor
  · intro hshown
    have hescape : NoEscape ops := by
      intro text htext hmem
      obtain ⟨a, ha⟩ := mem_requested htext hmem {}
      rw [← hshown] at ha
      exact esc_not_mem_shown _ a ha
    refine ⟨hescape, (displayed_eq_iff hlost).mp ?_⟩
    rw [← hrun hescape, hshown]
  · rintro ⟨hescape, hkept⟩
    rw [hrun hescape]
    exact (displayed_eq_iff hlost).mpr hkept

/-- A word in red with a part of it in bold. -/
def boldInRed : List Op :=
  [.putStyle { fgColor := .red }, .write ['a'], .putStyle { fgColor := .red, bold := true },
    .write ['b'], .putStyle { fgColor := .red }, .write ['c'], .putStyle {}, .write ['d']]

theorem shown_boldInRed :
    Sgr.shown (({} : TextWriter).run boldInRed).buf = requested {} boldInRed := by
  apply (shown_eq_requested_iff ?_).mpr
  · constructor
    · intro text htext
      simp only [boldInRed, List.mem_cons, List.not_mem_nil, reduceCtorEq, Op.write.injEq, false_or,
        or_false] at htext
      obtain rfl | rfl | rfl | rfl := htext <;> decide
    · refine ⟨?_, ?_, ?_, ?_, trivial⟩ <;> decide
  · intro style hstyle
    simp only [boldInRed, List.mem_cons, List.not_mem_nil, reduceCtorEq, Op.putStyle.injEq,
      false_or, or_false] at hstyle
    obtain rfl | rfl | rfl | rfl := hstyle <;> exact ⟨by decide, by decide⟩

/-- Bold and faint, then bold only. -/
def faintOff : List Op :=
  [.putStyle { bold := true, faint := true }, .putStyle { bold := true }, .write ['x']]

/-- Bold goes off with faint. -/
theorem shown_faintOff_ne : AllSpecified faintOff ∧
    Sgr.shown (({} : TextWriter).run faintOff).buf ≠ requested {} faintOff := by
  refine ⟨fun style hstyle => ?_, by decide⟩
  simp only [faintOff, List.mem_cons, List.not_mem_nil, reduceCtorEq, Op.putStyle.injEq,
    or_false] at hstyle
  obtain rfl | rfl := hstyle <;> exact ⟨by decide, by decide⟩

end Bpt.Fansi
