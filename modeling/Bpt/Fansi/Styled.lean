-- SUMMARY: The scanner of styled strings, and what it writes for the text of a document.
import Bpt.Fansi.Writer

/-!
# Styled strings

In a styled string `.bold.red[text]` gives a style to a text, which may have styles within it.
A backtick escapes the next character. The scanner writes what it reads as it goes, with a stack
of the styles that it is in.
-/

namespace Bpt.Fansi

/-! ## The scanner -/

inductive ShouldStyle where
  | detect
  | force
  | never
  deriving DecidableEq

/-- The assertions of the scanner, and its reads behind the end of the string. -/
inductive StyleError where
  | incompleteEscape
  | expectedBracket
  | invalidClass (cls : List Char)
  deriving DecidableEq

/-- The scanner between two characters. -/
structure Styler where
  out : TextWriter := {}
  /-- What has been read since something was written. -/
  pending : List Char := []
  /-- The innermost style of the stack, and the styles around it. -/
  back : TextStyle := {}
  below : List TextStyle := []

def StdColor.name : StdColor → List Char
  | .unspecified => "unspecified".toList
  | .black => "black".toList
  | .red => "red".toList
  | .green => "green".toList
  | .yellow => "yellow".toList
  | .blue => "blue".toList
  | .magent => "magent".toList
  | .cyan => "cyan".toList
  | .white => "white".toList
  | .normal => "normal".toList

def StdColor.all : List StdColor :=
  [.unspecified, .black, .red, .green, .yellow, .blue, .magent, .cyan, .white, .normal]

def enumCast (cls : List Char) : Option StdColor :=
  StdColor.all.find? fun color => color.name == cls

def applyClass (style : TextStyle) (cls : List Char) : Except StyleError TextStyle :=
  match enumCast cls with
  | some color => .ok { style with fgColor := color }
  | none =>
    if cls = "bold".toList then .ok { style with bold := true }
    else if cls = "faint".toList then .ok { style with faint := true }
    else if cls = "italic".toList then .ok { style with italic := true }
    else if cls = "underline".toList then .ok { style with underline := true }
    else if cls = "reverse".toList then .ok { style with reverse := true }
    else if cls = "strike".toList then .ok { style with strike := true }
    else if cls = "br".toList then .ok { style with bright := true }
    else .error (.invalidClass cls)

/-- Reads the classes of a style up to its bracket, and returns what comes after it. -/
def readStyle (style : TextStyle) (pending : List Char) :
    List Char → Except StyleError (TextStyle × List Char)
  | [] => .error .expectedBracket
  | c :: rest =>
    if c = '[' then (applyClass style pending).map fun style => (style, rest)
    else if c = '.' then
      match applyClass style pending with
      | .error e => .error e
      | .ok style =>
        -- the first character of a class is not looked at
        match rest with
        | [] => .error .expectedBracket
        | c :: rest => readStyle style [c] rest
    else readStyle style (pending ++ [c]) rest

theorem length_of_readStyle {style style' : TextStyle} {pending text rest : List Char}
    (h : readStyle style pending text = .ok (style', rest)) : rest.length < text.length := by
  induction style, pending, text using readStyle.induct with
  | case1 => cases h
  | case2 style pending rest' =>
    rw [readStyle, if_pos rfl] at h
    cases happly : applyClass style pending with
    | error e =>
      rw [happly] at h
      cases h
    | ok applied =>
      rw [happly] at h
      cases h
      exact Nat.lt_succ_self _
  | case3 style pending rest' e happly hbracket =>
    rw [readStyle, if_neg hbracket, if_pos rfl, happly] at h
    cases h
  | case4 style pending applied happly hbracket =>
    rw [readStyle, if_neg hbracket, if_pos rfl, happly] at h
    cases h
  | case5 style pending applied happly c rest' hbracket ih =>
    rw [readStyle, if_neg hbracket, if_pos rfl, happly] at h
    exact Nat.lt_succ_of_lt (Nat.lt_succ_of_lt (ih h))
  | case6 style pending c rest' hbracket hdot ih =>
    rw [readStyle, if_neg hbracket, if_neg hdot] at h
    exact Nat.lt_succ_of_lt (ih h)

namespace Styler

/-- Writes what is pending. -/
def flush (s : Styler) : Styler := { s with out := s.out.write s.pending, pending := [] }

/-- Enters a style. -/
def pushStyle (doStyle : Bool) (s : Styler) (style : TextStyle) : Styler where
  out := if doStyle then s.out.putStyle style else s.out
  pending := []
  back := style
  below := s.back :: s.below

/-- Goes back to the style around the innermost one. -/
def popStyle (s : Styler) (enclosing : TextStyle) (below : List TextStyle) : Styler where
  out := s.out.putStyle enclosing
  pending := []
  back := enclosing
  below := below

def loop (doStyle : Bool) (s : Styler) : List Char → Except StyleError Styler
  | [] => .ok s.flush
  | c :: rest =>
    if c = '`' then
      match rest with
      | [] => .error .incompleteEscape
      | c :: rest => loop doStyle { s.flush with out := s.flush.out.putc c } rest
    else if c = '.' then
      if rest.head?.any Char.isAlpha then
        match _ : readStyle s.back [] rest with
        | .error e => .error e
        | .ok (style, rest) => loop doStyle (s.flush.pushStyle doStyle style) rest
      else loop doStyle { s.flush with pending := [c] } rest
    else if c = ']' then
      match s.below with
      | enclosing :: below => loop doStyle (s.flush.popStyle enclosing below) rest
      | [] => loop doStyle { s with pending := s.pending ++ [c] } rest
    else loop doStyle { s with pending := s.pending ++ [c] } rest
termination_by text => text.length
decreasing_by
  all_goals simp only [List.length_cons]
  all_goals try have hlt := length_of_readStyle ‹_›
  all_goals omega

end Styler

/-- The first parameter tells whether the standard output is a terminal. -/
def stylize (detectShouldStyle : Bool) (text : List Char) (should : ShouldStyle) :
    Except StyleError (List Char) :=
  let doStyle :=
    if should = .force then true
    else if should = .never then false
    else detectShouldStyle
  (Styler.loop doStyle {} text).map fun s => s.out.buf

/-! ## Documents -/

inductive StyleClass where
  | color (col : StdColor)
  | bold
  | faint
  | italic
  | underline
  | reverse
  | strike
  | br
  deriving DecidableEq

def StyleClass.name : StyleClass → List Char
  | .color col => col.name
  | .bold => "bold".toList
  | .faint => "faint".toList
  | .italic => "italic".toList
  | .underline => "underline".toList
  | .reverse => "reverse".toList
  | .strike => "strike".toList
  | .br => "br".toList

def StyleClass.apply (style : TextStyle) : StyleClass → TextStyle
  | .color col => { style with fgColor := col }
  | .bold => { style with bold := true }
  | .faint => { style with faint := true }
  | .italic => { style with italic := true }
  | .underline => { style with underline := true }
  | .reverse => { style with reverse := true }
  | .strike => { style with strike := true }
  | .br => { style with bright := true }

/-- What a styled string stands for. A style has at least one class. -/
inductive Doc where
  | nil
  | plain (c : Char) (rest : Doc)
  | escaped (c : Char) (rest : Doc)
  | styled (first : StyleClass) (more : List StyleClass) (body rest : Doc)

def printClasses (first : StyleClass) (more : List StyleClass) : List Char :=
  first.name ++ more.flatMap fun cls => '.' :: cls.name

def applyClasses (style : TextStyle) (first : StyleClass) (more : List StyleClass) : TextStyle :=
  (first :: more).foldl StyleClass.apply style

def Doc.print : Doc → List Char
  | .nil => []
  | .plain c rest => c :: rest.print
  | .escaped c rest => '`' :: c :: rest.print
  | .styled first more body rest =>
    '.' :: (printClasses first more ++ '[' :: (body.print ++ ']' :: rest.print))

/-- A character that stands for itself before a text, within a style or outside of all. -/
structure StandsPlain (inside : Bool) (c : Char) (text : List Char) : Prop where
  ne_escape : c ≠ '`'
  ne_bracket : inside = true → c ≠ ']'
  not_alpha : c = '.' → text.head?.any Char.isAlpha = false

/-- The plain characters of a document are read as such, and it has no escape byte. -/
def Doc.WellFormed (inside : Bool) : Doc → Prop
  | .nil => True
  | .plain c rest => StandsPlain inside c rest.print ∧ c ≠ Sgr.esc ∧ rest.WellFormed inside
  | .escaped c rest => c ≠ Sgr.esc ∧ rest.WellFormed inside
  | .styled _ _ body rest => body.WellFormed true ∧ rest.WellFormed inside

instance {inside : Bool} {c : Char} {text : List Char} : Decidable (StandsPlain inside c text) :=
  decidable_of_iff
    (c ≠ '`' ∧ (inside = true → c ≠ ']') ∧ (c = '.' → text.head?.any Char.isAlpha = false))
    ⟨fun h => ⟨h.1, h.2.1, h.2.2⟩, fun h => ⟨h.1, h.2, h.3⟩⟩

instance Doc.decidableWellFormed : (inside : Bool) → (doc : Doc) → Decidable (doc.WellFormed inside)
  | _, .nil => inferInstanceAs (Decidable True)
  | inside, .plain _ rest =>
    have := decidableWellFormed inside rest
    inferInstanceAs (Decidable (_ ∧ _ ∧ _))
  | inside, .escaped _ rest =>
    have := decidableWellFormed inside rest
    inferInstanceAs (Decidable (_ ∧ _))
  | inside, .styled _ _ body rest =>
    have := decidableWellFormed true body
    have := decidableWellFormed inside rest
    inferInstanceAs (Decidable (_ ∧ _))

/-- Writes a document in a style. Only the start of a style depends on `doStyle`. -/
def Doc.render (doStyle : Bool) (style : TextStyle) (w : TextWriter) : Doc → TextWriter
  | .nil => w
  | .plain c rest => rest.render doStyle style (w.putc c)
  | .escaped c rest => rest.render doStyle style (w.putc c)
  | .styled first more body rest =>
    let inner := applyClasses style first more
    let w := body.render doStyle inner (if doStyle then w.putStyle inner else w)
    rest.render doStyle style (w.putStyle style)

/-! ## Scanning a document -/

section

variable {style applied : TextStyle} {pending name text rest : List Char} {c : Char}
  {cls first : StyleClass} {more : List StyleClass} {doc : Doc} {inside doStyle : Bool}

theorem applyClass_name (style : TextStyle) (cls : StyleClass) :
    applyClass style cls.name = .ok (cls.apply style) := by
  cases cls with
  | color col => cases col <;> rfl
  | bold => rfl
  | faint => rfl
  | italic => rfl
  | underline => rfl
  | reverse => rfl
  | strike => rfl
  | br => rfl

/-- A name is made of letters, and has at least one. -/
theorem StyleClass.name_letters (cls : StyleClass) :
    cls.name.all Char.isAlpha = true ∧ cls.name ≠ [] := by
  cases cls with
  | color col => cases col <;> exact ⟨rfl, List.cons_ne_nil _ _⟩
  | bold => exact ⟨rfl, List.cons_ne_nil _ _⟩
  | faint => exact ⟨rfl, List.cons_ne_nil _ _⟩
  | italic => exact ⟨rfl, List.cons_ne_nil _ _⟩
  | underline => exact ⟨rfl, List.cons_ne_nil _ _⟩
  | reverse => exact ⟨rfl, List.cons_ne_nil _ _⟩
  | strike => exact ⟨rfl, List.cons_ne_nil _ _⟩
  | br => exact ⟨rfl, List.cons_ne_nil _ _⟩

theorem StyleClass.name_alpha (cls : StyleClass) : ∀ c ∈ cls.name, c.isAlpha = true :=
  List.all_eq_true.mp cls.name_letters.1

theorem ne_bracket_of_isAlpha (h : c.isAlpha = true) : c ≠ '[' := by
  rintro rfl
  exact absurd h (by decide)

theorem ne_dot_of_isAlpha (h : c.isAlpha = true) : c ≠ '.' := by
  rintro rfl
  exact absurd h (by decide)

/-- The letters of a name are collected. -/
theorem readStyle_name (h : ∀ c ∈ name, c.isAlpha = true) :
    readStyle style pending (name ++ rest) = readStyle style (pending ++ name) rest := by
  induction name generalizing pending with
  | nil => rw [List.nil_append, List.append_nil]
  | cons c name ih =>
    have hc := h c List.mem_cons_self
    rw [List.cons_append, readStyle, if_neg (ne_bracket_of_isAlpha hc),
      if_neg (ne_dot_of_isAlpha hc), ih fun c hmem => h c (List.mem_cons_of_mem _ hmem),
      List.append_assoc]
    rfl

theorem readStyle_bracket (happly : applyClass style pending = .ok applied) :
    readStyle style pending ('[' :: rest) = .ok (applied, rest) := by
  rw [readStyle, if_pos rfl, happly]
  rfl

theorem readStyle_dot (happly : applyClass style pending = .ok applied)
    (hc : c.isAlpha = true) :
    readStyle style pending ('.' :: c :: rest) = readStyle applied [] (c :: rest) := by
  have hskipped : readStyle applied [] (c :: rest) = readStyle applied [c] rest := by
    rw [readStyle, if_neg (ne_bracket_of_isAlpha hc), if_neg (ne_dot_of_isAlpha hc)]
    rfl
  rw [hskipped, readStyle, if_neg (by decide), if_pos rfl, happly]

/-- The classes of a style are applied in their order. -/
theorem readStyle_printClasses : readStyle style [] (printClasses first more ++ '[' :: rest) =
    .ok (applyClasses style first more, rest) := by
  induction more generalizing first style with
  | nil =>
    unfold printClasses
    rw [List.flatMap_nil, List.append_nil, readStyle_name first.name_alpha]
    exact readStyle_bracket (applyClass_name style first)
  | cons next more ih =>
    obtain ⟨c, name, hname⟩ := List.exists_cons_of_ne_nil next.name_letters.2
    have hc : c.isAlpha = true := next.name_alpha c (hname ▸ List.mem_cons_self)
    have hnext : printClasses next more ++ '[' :: rest =
        c :: (name ++ more.flatMap (fun cls => '.' :: cls.name) ++ '[' :: rest) := by
      unfold printClasses
      rw [hname]
      rfl
    have hprint : printClasses first (next :: more) ++ '[' :: rest =
        first.name ++ '.' :: (printClasses next more ++ '[' :: rest) := by
      unfold printClasses
      simp
    rw [hprint, readStyle_name first.name_alpha, List.nil_append, hnext,
      readStyle_dot (applyClass_name style first) hc, ← hnext, ih]
    rfl

theorem head_printClasses : (printClasses first more ++ text).head?.any Char.isAlpha = true := by
  obtain ⟨c, name, hname⟩ := List.exists_cons_of_ne_nil first.name_letters.2
  unfold printClasses
  rw [hname]
  exact first.name_alpha c (hname ▸ List.mem_cons_self)

theorem TextWriter.write_write (w : TextWriter) (text more : List Char) :
    (w.write text).write more = w.write (text ++ more) := by
  simp [TextWriter.write, Nat.add_assoc]

namespace Styler

variable {s : Styler}

/-- What has been written when all that is pending is written. -/
def written (s : Styler) : TextWriter := s.out.write s.pending

theorem written_of_pending_nil (h : s.pending = []) : s.written = s.out := by
  unfold written TextWriter.write
  rw [h]
  simp

/-- The scanner comes to the rest of a text in the same styles, when `w` has been written. -/
structure ReadsTo (doStyle : Bool) (s : Styler) (text rest : List Char) (w : TextWriter)
    (s' : Styler) : Prop where
  loop_eq : loop doStyle s text = loop doStyle s' rest
  written : s'.written = w
  back : s'.back = s.back
  below : s'.below = s.below

theorem ReadsTo.trans {s₁ s₂ : Styler} {last : List Char} {w w' : TextWriter}
    (h : ReadsTo doStyle s text rest w s₁) (hrest : ReadsTo doStyle s₁ rest last w' s₂) :
    ReadsTo doStyle s text last w' s₂ where
  loop_eq := h.loop_eq.trans hrest.loop_eq
  written := hrest.written
  back := hrest.back.trans h.back
  below := hrest.below.trans h.below

theorem loop_plain (doStyle : Bool) (h : StandsPlain (!s.below.isEmpty) c text) :
    ∃ s', ReadsTo doStyle s (c :: text) text (s.written.putc c) s' := by
  have hpending : ({ s with pending := s.pending ++ [c] } : Styler).written = s.written.putc c :=
    (TextWriter.write_write s.out s.pending [c]).symm
  by_cases hdot : c = '.'
  · refine ⟨{ s.flush with pending := [c] }, ?_, rfl, rfl, rfl⟩
    rw [loop.eq_def]
    dsimp only
    rw [if_neg h.ne_escape, if_pos hdot, if_neg (by rw [h.not_alpha hdot]; decide)]
  · refine ⟨{ s with pending := s.pending ++ [c] }, ?_, hpending, rfl, rfl⟩
    rw [loop.eq_def]
    dsimp only
    rw [if_neg h.ne_escape, if_neg hdot]
    split
    next hbracket =>
      have hbelow : s.below = [] := by
        by_contra hne
        apply h.ne_bracket _ hbracket
        rw [List.isEmpty_eq_false_iff.mpr hne]
        rfl
      rw [hbelow]
    next => rfl

theorem loop_escaped (doStyle : Bool) (s : Styler) (c : Char) (text : List Char) :
    ∃ s', ReadsTo doStyle s ('`' :: c :: text) text (s.written.putc c) s' := by
  refine ⟨{ s.flush with out := s.flush.out.putc c }, ?_, written_of_pending_nil rfl, rfl, rfl⟩
  rw [loop, if_pos rfl]

theorem loop_push : loop doStyle s ('.' :: (printClasses first more ++ '[' :: text)) =
    loop doStyle (s.flush.pushStyle doStyle (applyClasses s.back first more)) text := by
  rw [loop.eq_def]
  dsimp only
  rw [if_neg (by decide), if_pos rfl, if_pos head_printClasses]
  split
  next e herror =>
    rw [readStyle_printClasses] at herror
    cases herror
  next style rest hread =>
    rw [readStyle_printClasses] at hread
    cases hread
    rfl

theorem loop_pop {enclosing : TextStyle} {below : List TextStyle}
    (h : s.below = enclosing :: below) :
    loop doStyle s (']' :: text) = loop doStyle (s.flush.popStyle enclosing below) text := by
  rw [loop.eq_def]
  dsimp only
  rw [if_neg (by decide), if_neg (by decide), if_pos rfl, h]

/-- The scanner reads a document to its end, where it is in the style it was in before. -/
theorem loop_print (doStyle : Bool) (s : Styler) (rest : List Char)
    (hdoc : doc.WellFormed (!s.below.isEmpty)) (hrest : rest.head?.any Char.isAlpha = false) :
    ∃ s', ReadsTo doStyle s (doc.print ++ rest) rest (doc.render doStyle s.back s.written) s' := by
  induction doc generalizing s rest with
  | nil => exact ⟨s, rfl, rfl, rfl, rfl⟩
  | plain c doc ih =>
    obtain ⟨hplain, -, hdoc⟩ := hdoc
    have hbefore : StandsPlain (!s.below.isEmpty) c (doc.print ++ rest) := by
      refine ⟨hplain.ne_escape, hplain.ne_bracket, fun hdot => ?_⟩
      have halpha := hplain.not_alpha hdot
      cases hprint : doc.print with
      | nil => exact hrest
      | cons => rw [hprint] at halpha; exact halpha
    obtain ⟨s₁, h₁⟩ := loop_plain doStyle hbefore
    rw [← h₁.below] at hdoc
    obtain ⟨s₂, h₂⟩ := ih s₁ rest hdoc hrest
    rw [h₁.back, h₁.written] at h₂
    exact ⟨s₂, h₁.trans h₂⟩
  | escaped c doc ih =>
    obtain ⟨-, hdoc⟩ := hdoc
    obtain ⟨s₁, h₁⟩ := loop_escaped doStyle s c (doc.print ++ rest)
    rw [← h₁.below] at hdoc
    obtain ⟨s₂, h₂⟩ := ih s₁ rest hdoc hrest
    rw [h₁.back, h₁.written] at h₂
    exact ⟨s₂, h₁.trans h₂⟩
  | styled first more body doc ihbody ih =>
    obtain ⟨hbody, hdoc⟩ := hdoc
    let inner := applyClasses s.back first more
    let s₁ := s.flush.pushStyle doStyle inner
    have hwritten₁ : s₁.written = if doStyle then s.written.putStyle inner else s.written :=
      written_of_pending_nil rfl
    obtain ⟨s₂, h₂⟩ := ihbody s₁ (']' :: (doc.print ++ rest)) hbody rfl
    let s₃ := s₂.flush.popStyle s.back s.below
    have hwritten₃ : s₃.written = s₂.written.putStyle s.back := written_of_pending_nil rfl
    obtain ⟨s₄, h₄⟩ := ih s₃ rest hdoc hrest
    refine ⟨s₄, ?_, ?_, h₄.back, h₄.below⟩
    · calc loop doStyle s ((Doc.styled first more body doc).print ++ rest)
          = loop doStyle s ('.' :: (printClasses first more ++
              '[' :: (body.print ++ ']' :: (doc.print ++ rest)))) := by simp [Doc.print]
        _ = loop doStyle s₁ (body.print ++ ']' :: (doc.print ++ rest)) := loop_push
        _ = loop doStyle s₂ (']' :: (doc.print ++ rest)) := h₂.loop_eq
        _ = loop doStyle s₃ (doc.print ++ rest) := loop_pop h₂.below
        _ = loop doStyle s₄ rest := h₄.loop_eq
    · rw [h₄.written, hwritten₃, h₂.written, hwritten₁]
      rfl

end Styler

/-- The modes that force or refuse a style render a document. -/
theorem stylize_print (h : doc.WellFormed false) (detectShouldStyle : Bool) :
    stylize detectShouldStyle doc.print .force = .ok (doc.render true {} {}).buf ∧
      stylize detectShouldStyle doc.print .never = .ok (doc.render false {} {}).buf := by
  have hrender : ∀ doStyle, (Styler.loop doStyle {} doc.print).map (fun s => s.out.buf) =
      .ok (doc.render doStyle {} {}).buf := by
    intro doStyle
    obtain ⟨s, hreads⟩ := Styler.loop_print doStyle {} [] h rfl
    rw [List.append_nil] at hreads
    rw [hreads.loop_eq, Styler.loop]
    exact congrArg (fun w => Except.ok w.buf) hreads.written
  exact ⟨hrender true, hrender false⟩

end

end Bpt.Fansi
