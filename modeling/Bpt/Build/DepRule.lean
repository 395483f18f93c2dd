-- SUMMARY: Which rules are read as they are meant, with and without their line continuations, and what is recorded of a compile that wrote one.
import Bpt.Build.CompileExec
import Bpt.Build.DepItems

namespace Bpt.Build

open ShellLexer

/-! ## The items of a rule -/

def DepInput.items (input : DepInput) : List DepItem :=
  input.separator.map (fun _ => .space) ++ input.path.toList.map .path

namespace DepRule

def ending (rule : DepRule) : List DepItem := if rule.newline then [.newline] else []

def items (rule : DepRule) : List DepItem :=
  (rule.output.toList ++ [':']).map .path ++ (rule.inputs.flatMap DepInput.items ++ rule.ending)

end DepRule

theorem text_paths (path : List Char) :
    (path.map DepItem.path).flatMap DepItem.text = mkPath path := by
  rw [List.flatMap_map]
  rfl

theorem chars_paths (path : List Char) :
    (path.map DepItem.path).flatMap DepItem.chars = path := by
  rw [List.flatMap_map]
  exact List.flatMap_singleton' path

theorem DepInput.text_items (input : DepInput) :
    input.items.flatMap DepItem.text = input.spaced.text := by
  unfold items text spaced
  rw [List.flatMap_append, text_paths, List.flatMap_map, List.flatMap_map]
  rfl

theorem DepInput.chars_items (input : DepInput) :
    input.items.flatMap DepItem.chars = input.path.toList := by
  unfold items
  rw [List.flatMap_append, chars_paths, List.flatMap_map]
  simp [DepItem.chars]

theorem DepRule.text_items (rule : DepRule) :
    rule.items.flatMap DepItem.text = rule.spaced.text.toList := by
  have hcolon : mkPath [':'] = [':'] := rfl
  have hpath : mkPath (rule.output.toList ++ [':']) = mkPath rule.output.toList ++ [':'] :=
    List.flatMap_append
  have hinputs : (rule.inputs.flatMap DepInput.items).flatMap DepItem.text =
      (rule.inputs.map DepInput.spaced).flatMap DepInput.text := by
    rw [List.flatMap_assoc, List.flatMap_map]
    exact List.flatMap_congr fun input _ => input.text_items
  have hending : rule.ending.flatMap DepItem.text = if rule.newline then ['\n'] else [] := by
    unfold ending
    split <;> rfl
  unfold items spaced text
  rw [String.toList_ofList, List.flatMap_append, List.flatMap_append, text_paths, hpath, hinputs,
    hending]
  simp

theorem DepRule.chars_items (rule : DepRule) :
    rule.items.flatMap DepItem.chars =
      ((rule.output.toList ++ [':']) :: rule.inputs.map (·.path.toList)).flatten := by
  have hending : rule.ending.flatMap DepItem.chars = [] := by
    unfold ending
    split <;> rfl
  unfold items
  rw [List.flatMap_append, List.flatMap_append, chars_paths, hending, List.append_nil,
    List.flatMap_assoc, List.flatten_cons, ← List.flatMap_def]
  exact congrArg _ (List.flatMap_congr fun input _ => input.chars_items)

/-! ## From items back to paths -/

/-- No path goes on with these items. -/
def Separates (items : List DepItem) : Prop := ∀ d more, items ≠ .path d :: more

theorem readable_of_items {path : List Char} {rest : List DepItem} (hrest : Separates rest)
    (h : ReadableItems (path.map .path ++ rest)) : Readable path ∧ ReadableItems rest := by
  induction path with
  | nil => exact ⟨trivial, h⟩
  | cons c path ih =>
    obtain ⟨hc, h⟩ := h
    obtain ⟨hmisread, hbackslash⟩ := hc c rfl
    obtain ⟨hpath, h⟩ := ih h
    refine ⟨⟨hmisread, fun hc => ?_, hpath⟩, h⟩
    obtain ⟨d, more, hmore, hd⟩ := hbackslash hc
    cases path with
    | nil => exact absurd hmore (hrest d more)
    | cons e path =>
      obtain rfl := DepItem.path.inj (List.cons.inj hmore).1
      exact ⟨e, path, rfl, hd⟩

theorem DepRule.separates (rule : DepRule) (inputs : List DepInput) :
    Separates (inputs.flatMap DepInput.items ++ rule.ending) := by
  intro d more h
  cases inputs with
  | nil =>
    unfold ending at h
    split at h <;> cases h
  | cons input inputs =>
    obtain ⟨b, breaks, hseparator⟩ := List.exists_cons_of_ne_nil input.separated
    rw [List.flatMap_cons, DepInput.items, hseparator] at h
    cases h

theorem DepRule.readable_inputs (rule : DepRule) {inputs : List DepInput}
    (h : ReadableItems (inputs.flatMap DepInput.items ++ rule.ending)) :
    ∀ input ∈ inputs, Build.Readable input.path.toList := by
  induction inputs with
  | nil => exact List.forall_mem_nil _
  | cons input rest ih =>
    have hskip : ∀ (breaks : List Break) items,
        ReadableItems (breaks.map (fun _ => DepItem.space) ++ items) → ReadableItems items := by
      intro breaks items hitems
      induction breaks with
      | nil => exact hitems
      | cons b breaks ihb => exact ihb hitems.2
    rw [List.flatMap_cons, DepInput.items, List.append_assoc, List.append_assoc] at h
    obtain ⟨hinput, hrest⟩ := readable_of_items (rule.separates rest) (hskip _ _ h)
    exact List.forall_mem_cons.mpr ⟨hinput, ih hrest⟩

/-- A colon at the end does not make a path readable. -/
theorem readable_colon {path : List Char} : Readable (path ++ [':']) ↔ Readable path := by
  induction path with
  | nil => exact iff_of_true ⟨rfl, fun h => absurd h (by decide), trivial⟩ trivial
  | cons c path ih =>
    refine and_congr_right fun _ => and_congr (imp_congr_right fun _ => ?_) ih
    cases path with
    | nil =>
      refine iff_of_false ?_ ?_
      · rintro ⟨d, more, h, hd⟩
        obtain ⟨rfl, -⟩ := List.cons.inj h
        cases hd
      · rintro ⟨d, more, h, -⟩
        cases h
    | cons e path =>
      constructor
      · rintro ⟨d, more, h, hd⟩
        obtain ⟨rfl, -⟩ := List.cons.inj h
        exact ⟨e, path, rfl, hd⟩
      · rintro ⟨d, more, h, hd⟩
        obtain ⟨rfl, -⟩ := List.cons.inj h
        exact ⟨e, path ++ [':'], rfl, hd⟩

/-! ## Reading a rule back -/

namespace DepRule

/-- The tokens that a rule stands for. -/
def words (rule : DepRule) : List (List Char) :=
  (rule.output.toList ++ [':']) :: rule.inputs.map (·.path.toList)

theorem spaced_words (rule : DepRule) : rule.spaced.words = rule.words := by
  simp [words, spaced, DepInput.spaced]

theorem spaced_deps (rule : DepRule) : rule.spaced.deps = rule.deps := by
  simp [deps, spaced, DepInput.spaced]

/-- The tokens are those that the inputs leave. -/
theorem exists_tokens {rule : DepRule} (houtput : Build.Readable rule.output.toList)
    {acc : List (List Char)} {token : Option (List Char)}
    (hrun : (outside [] (some (rule.output.toList ++ [':']))).run
      (rule.inputs.flatMap DepInput.text) = outside acc token) :
    (init.run rule.text.toList).tokens = acc ++ token.toList := by
  have hhead : init.run (mkPath rule.output.toList ++ [':']) =
      outside [] (some (rule.output.toList ++ [':'])) := by
    have hpath : mkPath (rule.output.toList ++ [':']) = mkPath rule.output.toList ++ [':'] :=
      List.flatMap_append
    rw [← hpath, show init = outside [] none from rfl, run_mkPath _ _ (readable_colon.mpr houtput),
      if_neg (by simp)]
    rfl
  have hending : ((outside acc token).run (if rule.newline then ['\n'] else [])).tokens =
      acc ++ token.toList := by
    split
    · exact List.append_nil _
    · rfl
  unfold text
  rw [String.toList_ofList, run_append, List.append_cons, run_append, hhead, hrun, hending]

/-- A rule without paths is read. -/
theorem tokens_of_empty {rule : DepRule} (houtput : rule.output = "") (hinputs : rule.inputs = []) :
    (init.run rule.text.toList).tokens = rule.words := by
  have hrun : (outside [] (some (rule.output.toList ++ [':']))).run
      (rule.inputs.flatMap DepInput.text) = outside [] (some (rule.output.toList ++ [':'])) := by
    rw [hinputs]
    rfl
  rw [exists_tokens (by rw [houtput]; trivial) hrun, words, hinputs]
  rfl

theorem deps_eq_empty {rule : DepRule} (h : {} = rule.deps) :
    rule.output = "" ∧ rule.inputs = [] := by
  unfold deps at h
  obtain ⟨houtput, hinputs⟩ := MkfileDeps.mk.inj h
  exact ⟨houtput.symm, List.map_eq_nil_iff.mp hinputs.symm⟩

theorem parse_text_iff (rule : DepRule) :
    parseMkfileDepsStr rule.text = rule.deps ↔
      (init.run rule.text.toList).tokens = rule.words := by
  have hempty := fun h : {} = rule.deps =>
    tokens_of_empty (deps_eq_empty h).1 (deps_eq_empty h).2
  unfold parseMkfileDepsStr splitShellString
  generalize (init.run rule.text.toList).tokens = tokens at hempty ⊢
  cases tokens with
  | nil => exact ⟨hempty, fun h => nomatch h⟩
  | cons head rest =>
    rw [List.map_cons]
    dsimp only
    rw [String.toList_ofList]
    split
    next hcolon =>
      have hhead : head.dropLast ++ [':'] = head := List.dropLast_append_getLast? _ hcolon
      unfold deps words
      rw [MkfileDeps.mk.injEq, List.cons.injEq, ← hhead, List.append_left_inj, List.dropLast_concat]
      refine and_congr ?_ ?_
      · rw [← String.toList_inj, String.toList_ofList]
      · have hinj : (String.ofList).Injective := fun _ _ => String.ofList_injective
        have hpaths : String.ofList ∘ (fun input : DepInput => input.path.toList) = (·.path) :=
          funext fun input => String.ofList_toList
        rw [← hinj.list_map.eq_iff, List.map_map, hpaths]
    next hcolon =>
      refine ⟨hempty, fun h => absurd ?_ hcolon⟩
      rw [(List.cons.inj h).1]
      simp

theorem Readable.spaced {rule : DepRule} (h : rule.Readable) : rule.spaced.Readable := by
  have hinputs : ∀ input ∈ rule.spaced.inputs, ∃ input' ∈ rule.inputs, input = input'.spaced := by
    intro input hinput
    obtain ⟨input', hinput', rfl⟩ := List.mem_map.mp hinput
    exact ⟨input', hinput', rfl⟩
  refine ⟨h.output, fun input hinput => ?_, fun input hinput => ?_, fun input hinput => ?_⟩
  · obtain ⟨input, hmem, rfl⟩ := hinputs input hinput
    exact h.inputs input hmem
  · obtain ⟨input, hmem, rfl⟩ := hinputs input hinput
    exact h.nonempty input hmem
  · obtain ⟨input, -, rfl⟩ := hinputs input hinput
    exact input.space_mem_spaced

theorem Readable.parse {rule : DepRule} (h : rule.Readable) :
    parseMkfileDepsStr rule.text = rule.deps := by
  obtain ⟨acc, token, hrun, htokens⟩ :=
    tokens_run_inputs [] (some (rule.output.toList ++ [':'])) h.inputs h.separators
  have hnonempty : (rule.inputs.map (·.path.toList)).filter (· ≠ []) =
      rule.inputs.map (·.path.toList) := by
    refine List.filter_eq_self.mpr fun path hpath => ?_
    obtain ⟨input, hinput, rfl⟩ := List.mem_map.mp hpath
    simpa using h.nonempty input hinput
  rw [parse_text_iff, exists_tokens h.output hrun, htokens, hnonempty]
  rfl

/-- A rule that is read as it is meant, without its line continuations, has
readable paths. -/
theorem readable_of_parse_spaced {rule : DepRule}
    (h : parseMkfileDepsStr rule.spaced.text = rule.spaced.deps) :
    Build.Readable rule.output.toList ∧ (∀ input ∈ rule.inputs, Build.Readable input.path.toList) ∧
      ∀ input ∈ rule.inputs, input.path ≠ "" := by
  have htokens := (parse_text_iff _).mp h
  have htext : (init.run (rule.items.flatMap DepItem.text)).text =
      rule.items.flatMap DepItem.chars := by
    rw [← flatten_tokens, text_items, htokens, chars_items, spaced_words, words]
  obtain ⟨houtput, hrest⟩ := readable_of_items (rule.separates rule.inputs)
    (readableItems_of_text htext)
  replace houtput := readable_colon.mp houtput
  have hinputs := rule.readable_inputs hrest
  refine ⟨houtput, hinputs, fun input hinput hempty => ?_⟩
  -- an empty input would leave no token
  obtain ⟨acc, token, hrun, htokens'⟩ :=
    @tokens_run_inputs [] (some (rule.output.toList ++ [':'])) rule.spaced.inputs
      (List.forall_mem_map.mpr hinputs)
      (List.forall_mem_map.mpr fun input _ => input.space_mem_spaced)
  rw [@exists_tokens rule.spaced houtput _ _ hrun, htokens'] at htokens
  have hfilter := List.filter_eq_self.mp (List.cons.inj htokens).2 []
  refine absurd (hfilter ?_) (by decide)
  exact List.mem_map.mpr ⟨input.spaced, List.mem_map_of_mem hinput, by simp [DepInput.spaced, hempty]⟩

/-- A rule is read as it is meant, with its line continuations and with spaces in
their place, exactly when it is readable. -/
theorem parse_iff_readable (rule : DepRule) :
    (parseMkfileDepsStr rule.text = rule.deps ∧
        parseMkfileDepsStr rule.spaced.text = parseMkfileDepsStr rule.text) ↔
      rule.Readable := by
  constructor
  · rintro ⟨hparse, hspaced⟩
    obtain ⟨houtput, hinputs, hnonempty⟩ :=
      readable_of_parse_spaced (hspaced.trans (hparse.trans rule.spaced_deps.symm))
    refine ⟨houtput, hinputs, hnonempty, ?_⟩
    obtain ⟨acc, token, hrun, hlength⟩ :=
      length_run_inputs [] (some (rule.output.toList ++ [':'])) hinputs
    have htokens := congrArg List.length
      ((exists_tokens houtput hrun).symm.trans ((parse_text_iff rule).mp hparse))
    have htoken : token.toList.length ≤ 1 := by cases token <;> simp
    rw [words, List.length_append, List.length_cons, List.length_map] at htokens
    rw [List.length_nil] at hlength
    have hall := List.countP_eq_length.mp (le_antisymm List.countP_le_length
      (by omega : rule.inputs.length ≤ rule.inputs.countP fun input => .space ∈ input.separator))
    exact fun input hinput => of_decide_eq_true (hall input hinput)
  · intro h
    exact ⟨h.parse, h.spaced.parse.trans (rule.spaced_deps.trans h.parse.symm)⟩

/-- A dollar sign is read twice, and a line continuation joins two inputs. -/
theorem not_parse_dollar :
    let dollar : DepRule := ⟨"foo.o", [⟨[.space], by decide, "a$b.c"⟩], true⟩
    let joined : DepRule :=
      ⟨"foo.o", [⟨[.space], by decide, "a.c"⟩, ⟨[.continuation], by decide, "b.c"⟩], true⟩
    parseMkfileDepsStr dollar.text = ⟨"foo.o", ["a$$b.c"]⟩ ∧
      parseMkfileDepsStr dollar.text ≠ dollar.deps ∧
      parseMkfileDepsStr joined.text = ⟨"foo.o", ["a.cb.c"]⟩ ∧
      parseMkfileDepsStr joined.spaced.text = joined.deps ∧
      parseMkfileDepsStr joined.text ≠ joined.deps := by
  decide +kernel

/-! ## The depfile of a compile -/

/-- The rule that a compiler writes: its output is made from the files it has read. -/
structure Reports (rule : DepRule) (output : Path) (reads : List Path) : Prop where
  output : Path.ofString rule.output = output
  inputs : rule.inputs.map (fun input => Path.ofString input.path) = reads

/-- What is recorded of a compile is what is read from its depfile, where this is
a readable rule. -/
theorem Readable.newDepsInfo_eq {C : Type} {compiler : Compiler C} {rule : DepRule}
    (hrule : rule.Readable) {plan : CompileFilePlan compiler} {seen : Path → Option C}
    (hreports : rule.Reports plan.objectFilePath (compiler.reads plan.command seen))
    {proc : ProcResult} (hdepfile : proc.depfile = true) (toolchainHash startTime : Int) :
    newDepsInfo .gnu toolchainHash plan startTime seen proc = some
      { output := .ofString (parseMkfileDepsStr rule.text).output
        inputs := (parseMkfileDepsStr rule.text).inputs.map .ofString
        command := ⟨quoteCommand plan.command, proc.output, toolchainHash, proc.durMs⟩
        compileStartTime := startTime } := by
  have hinputs : rule.deps.inputs.map Path.ofString = compiler.reads plan.command seen := by
    rw [← hreports.inputs, deps, List.map_map]
    rfl
  have houtput : Path.ofString rule.deps.output = plan.objectFilePath := hreports.output
  rw [hrule.parse, hinputs, houtput]
  simp [newDepsInfo, hdepfile]

end DepRule

end Bpt.Build
