-- SUMMARY: When a styled string without styling is the styled one without its sequences, over all documents.
import Bpt.Fansi.Styled

/-!
# Styling off

Without styling no style is put where a style starts, but the enclosing style is put where one
ends. An escape is written then when the enclosing style shows anything.
-/

namespace Bpt.Fansi

open Sgr

variable {prev new style : TextStyle} {w : TextWriter} {doc : Doc} {inside doStyle : Bool}

/-! ## The text of a document -/

/-- The characters that are not part of a style. -/
def Doc.text : Doc → List Char
  | .nil => []
  | .plain c rest => c :: rest.text
  | .escaped c rest => c :: rest.text
  | .styled _ _ body rest => body.text ++ rest.text

/-- A change of the style leaves nothing. -/
theorem strips_emitted (prev new : TextStyle) : Strips (emitted prev new) [] := by
  rw [emitted_eq]
  split
  · exact strips_nil
  · split
    · exact strips_controlSequence _
    · exact strips_controlSequence _

/-- In both modes a document is written as its text and sequences. -/
theorem render_strips (doStyle : Bool) (style : TextStyle) (w : TextWriter)
    (h : doc.WellFormed inside) :
    ∃ out, (doc.render doStyle style w).buf = w.buf ++ out ∧ Strips out doc.text := by
  induction doc generalizing inside style w with
  | nil => exact ⟨[], (List.append_nil _).symm, strips_nil⟩
  | plain c doc ih =>
    obtain ⟨-, hc, hdoc⟩ := h
    obtain ⟨out, hbuf, hout⟩ := ih style (w.putc c) hdoc
    exact ⟨c :: out, hbuf.trans (List.append_assoc _ _ _), hout.cons hc⟩
  | escaped c doc ih =>
    obtain ⟨hc, hdoc⟩ := h
    obtain ⟨out, hbuf, hout⟩ := ih style (w.putc c) hdoc
    exact ⟨c :: out, hbuf.trans (List.append_assoc _ _ _), hout.cons hc⟩
  | styled first more body doc ihbody ih =>
    obtain ⟨hbody, hdoc⟩ := h
    let inner := applyClasses style first more
    let w₁ := if doStyle then w.putStyle inner else w
    obtain ⟨start, hstart, hstrips⟩ : ∃ start, w₁.buf = w.buf ++ start ∧ Strips start [] := by
      cases doStyle with
      | true => exact ⟨_, rfl, strips_emitted _ _⟩
      | false => exact ⟨[], (List.append_nil _).symm, strips_nil⟩
    obtain ⟨out, hbuf, hout⟩ := ihbody inner w₁ hbody
    let w₂ := body.render doStyle inner w₁
    obtain ⟨out', hbuf', hout'⟩ := ih style (w₂.putStyle style) hdoc
    refine ⟨start ++ (out ++ (emitted w₂.style style ++ out')), ?_,
      hstrips.append (hout.append ((strips_emitted _ _).append hout'))⟩
    calc ((Doc.styled first more body doc).render doStyle style w).buf
        = w₂.buf ++ emitted w₂.style style ++ out' := hbuf'
      _ = w.buf ++ start ++ out ++ emitted w₂.style style ++ out' := by rw [hbuf, hstart]
      _ = w.buf ++ (start ++ (out ++ (emitted w₂.style style ++ out'))) := by
        simp only [List.append_assoc]

theorem strip_render (h : doc.WellFormed inside) :
    strip (doc.render doStyle style {}).buf = doc.text := by
  obtain ⟨out, hbuf, hout⟩ := render_strips doStyle style {} h
  rw [hbuf]
  exact hout.strip_eq

/-! ## The mode without styles -/

/-- A style that shows nothing: no attribute is on, and no color is set. -/
def TextStyle.ShowsNothing (style : TextStyle) : Prop := style = { bright := style.bright }

instance (style : TextStyle) : Decidable style.ShowsNothing :=
  inferInstanceAs (Decidable (style = { bright := style.bright }))

/-- No style of a document is in a style that shows anything. -/
def Doc.RestoresNothing (style : TextStyle) : Doc → Prop
  | .nil => True
  | .plain _ rest => rest.RestoresNothing style
  | .escaped _ rest => rest.RestoresNothing style
  | .styled first more body rest =>
    style.ShowsNothing ∧ body.RestoresNothing (applyClasses style first more) ∧
      rest.RestoresNothing style

instance Doc.decidableRestoresNothing :
    (style : TextStyle) → (doc : Doc) → Decidable (doc.RestoresNothing style)
  | _, .nil => inferInstanceAs (Decidable True)
  | style, .plain _ rest => decidableRestoresNothing style rest
  | style, .escaped _ rest => decidableRestoresNothing style rest
  | style, .styled first more body rest =>
    have := decidableRestoresNothing (applyClasses style first more) body
    have := decidableRestoresNothing style rest
    inferInstanceAs (Decidable (_ ∧ _ ∧ _))

/-- A change from a style that shows nothing is written unless the new one shows nothing. -/
theorem toggleCodes_eq_nil_iff (hprev : prev.ShowsNothing) :
    toggleCodes prev new = [] ↔ new.ShowsNothing := by
  have hcolor : ∀ color bright bright', codeForColor color bright = codeForColor .normal bright' ↔
      color = .normal := by
    intro color bright bright'
    cases color <;> cases bright <;> cases bright' <;> decide
  have htoggle : ∀ state onVal, toggleCode state false onVal = [] ↔ state = false := by
    intro state onVal
    cases state <;> simp [toggleCode]
  unfold TextStyle.ShowsNothing at hprev ⊢
  rw [hprev]
  unfold toggleCodes changeColorCode
  simp only [List.append_eq_nil_iff, htoggle, ite_eq_left_iff, List.cons_ne_nil, imp_false,
    not_not, Nat.add_right_cancel_iff, hcolor]
  rw [TextStyle.mk.injEq]
  tauto

theorem esc_mem_emitted_iff (hprev : prev.ShowsNothing) :
    esc ∈ emitted prev new ↔ ¬ new.ShowsNothing := by
  rw [emitted_eq, ← toggleCodes_eq_nil_iff hprev]
  split
  next hnone => exact iff_of_false List.not_mem_nil (not_not_intro hnone)
  next hne =>
    apply iff_of_true _ hne
    split <;> exact List.mem_cons_self

theorem esc_mem_render (h : doc.WellFormed inside) (hw : esc ∈ w.buf) :
    esc ∈ (doc.render doStyle style w).buf := by
  obtain ⟨out, hbuf, -⟩ := render_strips doStyle style w h
  rw [hbuf]
  exact List.mem_append_left out hw

theorem esc_not_mem_text (h : doc.WellFormed inside) : esc ∉ doc.text := by
  induction doc generalizing inside with
  | nil => exact List.not_mem_nil
  | plain c doc ih =>
    obtain ⟨-, hc, hdoc⟩ := h
    exact List.not_mem_cons_of_ne_of_not_mem (Ne.symm hc) (ih hdoc)
  | escaped c doc ih =>
    obtain ⟨hc, hdoc⟩ := h
    exact List.not_mem_cons_of_ne_of_not_mem (Ne.symm hc) (ih hdoc)
  | styled first more body doc ihbody ih =>
    obtain ⟨hbody, hdoc⟩ := h
    unfold Doc.text
    rw [List.mem_append, not_or]
    exact ⟨ihbody hbody, ih hdoc⟩

/-- The text alone is written when every style that ends goes back to one that shows nothing. -/
theorem render_of_restoresNothing (hw : w.style.ShowsNothing) (hdoc : doc.RestoresNothing style) :
    (doc.render false style w).style.ShowsNothing ∧
      (doc.render false style w).buf = w.buf ++ doc.text := by
  induction doc generalizing style w with
  | nil => exact ⟨hw, (List.append_nil _).symm⟩
  | plain c doc ih =>
    obtain ⟨hstyle, hbuf⟩ := ih (w := w.putc c) hw hdoc
    exact ⟨hstyle, hbuf.trans (List.append_assoc _ _ _)⟩
  | escaped c doc ih =>
    obtain ⟨hstyle, hbuf⟩ := ih (w := w.putc c) hw hdoc
    exact ⟨hstyle, hbuf.trans (List.append_assoc _ _ _)⟩
  | styled first more body doc ihbody ih =>
    obtain ⟨hnothing, hbody, hrest⟩ := hdoc
    let w₂ := body.render false (applyClasses style first more) w
    obtain ⟨hstyle₂, hbuf₂⟩ : w₂.style.ShowsNothing ∧ w₂.buf = w.buf ++ body.text :=
      ihbody hw hbody
    have hsilent : emitted w₂.style style = [] := by
      rw [emitted_eq, if_pos ((toggleCodes_eq_nil_iff hstyle₂).mpr hnothing)]
    obtain ⟨hstyle, hbuf⟩ := ih (w := w₂.putStyle style) hnothing hrest
    refine ⟨hstyle, ?_⟩
    calc ((Doc.styled first more body doc).render false style w).buf
        = w₂.buf ++ emitted w₂.style style ++ doc.text := hbuf
      _ = w.buf ++ (body.text ++ doc.text) := by
        rw [hsilent, hbuf₂, List.append_nil, List.append_assoc]

/-- An escape is written where a style ends in one that shows something. -/
theorem esc_mem_render_of_not (h : doc.WellFormed inside) (hw : w.style.ShowsNothing)
    (hdoc : ¬ doc.RestoresNothing style) : esc ∈ (doc.render false style w).buf := by
  induction doc generalizing inside style w with
  | nil => exact absurd trivial hdoc
  | plain c doc ih =>
    obtain ⟨-, -, h⟩ := h
    exact ih (w := w.putc c) h hw hdoc
  | escaped c doc ih =>
    obtain ⟨-, h⟩ := h
    exact ih (w := w.putc c) h hw hdoc
  | styled first more body doc ihbody ih =>
    obtain ⟨hbody, hrest⟩ := h
    let inner := applyClasses style first more
    let w₂ := body.render false inner w
    have hlater : ∀ w : TextWriter, esc ∈ w.buf → esc ∈ (doc.render false style w).buf :=
      fun w => esc_mem_render hrest
    by_cases hinner : body.RestoresNothing inner
    · have hstyle₂ : w₂.style.ShowsNothing := (render_of_restoresNothing hw hinner).1
      by_cases hnothing : style.ShowsNothing
      · exact ih (w := w₂.putStyle style) hrest hnothing
          fun hdoc' => hdoc ⟨hnothing, hinner, hdoc'⟩
      · have hrestore : esc ∈ (w₂.putStyle style).buf :=
          List.mem_append_right _ ((esc_mem_emitted_iff hstyle₂).mpr hnothing)
        exact hlater _ hrestore
    · have hwithin : esc ∈ (w₂.putStyle style).buf :=
        List.mem_append_left _ (ihbody hbody hw hinner)
      exact hlater _ hwithin

/-! ## Both modes -/

/-- Without styles a string is rendered with no escape, as it is with styles but for the
sequences. -/
def StylingOff (detectShouldStyle : Bool) (text : List Char) : Prop :=
  ∃ never force, stylize detectShouldStyle text .never = .ok never ∧
    stylize detectShouldStyle text .force = .ok force ∧ esc ∉ never ∧ never = strip force

/-- Styling off is styling on without the sequences when no style is in a style that shows
anything, and only then. -/
theorem stylingOff_iff (detectShouldStyle : Bool) (h : doc.WellFormed false) :
    StylingOff detectShouldStyle doc.print ↔ doc.RestoresNothing {} := by
  obtain ⟨hforce, hnever⟩ := stylize_print h detectShouldStyle
  have hstart : ({} : TextWriter).style.ShowsNothing := rfl
  constructor
  · rintro ⟨never, force, hnever', -, hesc, -⟩
    by_contra hdoc
    obtain rfl := Except.ok.inj (hnever.symm.trans hnever')
    exact hesc (esc_mem_render_of_not h hstart hdoc)
  · intro hdoc
    refine ⟨_, _, hnever, hforce, ?_, ?_⟩
    · rw [(render_of_restoresNothing hstart hdoc).2]
      exact esc_not_mem_text h
    · rw [strip_render h, (render_of_restoresNothing hstart hdoc).2]
      rfl

/-- A bold word within a bright text, and one in red. -/
def brightAround : Doc :=
  .styled .br [] (.plain 'a' (.styled .bold [] (.plain 'b' .nil) .nil))
    (.styled (.color .red) [.underline] (.plain 'c' .nil) .nil)

theorem stylingOff_brightAround :
    StylingOff false ".br[a.bold[b]].red.underline[c]".toList := by
  have hformed : brightAround.WellFormed false := by decide
  exact (stylingOff_iff false hformed).mpr (by decide)

/-- A bold word within a red text. -/
def boldWithinRed : Doc :=
  .styled (.color .red) [] (.plain 'a' (.styled .bold [] (.plain 'b' .nil) (.plain 'c' .nil))) .nil

/-- The red text is restored after the bold word, though it was never put. -/
theorem not_stylingOff_boldWithinRed : boldWithinRed.WellFormed false ∧
    boldWithinRed.print = ".red[a.bold[b]c]".toList ∧
      ¬ StylingOff false ".red[a.bold[b]c]".toList := by
  have hformed : boldWithinRed.WellFormed false := by decide
  refine ⟨hformed, rfl, ?_⟩
  rintro ⟨never, -, hnever, -, hesc, -⟩
  have hrender := (stylize_print hformed false).2
  obtain rfl := Except.ok.inj (hrender.symm.trans hnever)
  exact absurd hesc (by decide)

end Bpt.Fansi
