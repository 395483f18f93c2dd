-- SUMMARY: Words of a list, read one element after the other and ended by separators.
import Mathlib.Data.List.Basic

/-!
# Reading the words of a list

A word is read by a fold that starts without one. A separator ends the word that
is being read, if there is one.
-/

namespace SplitFold

variable {α τ : Type*} (isSep : α → Bool) (read : Option τ → α → Option τ)

/-- The words, of which the first has begun as `word`. -/
def words (word : Option τ) : List α → List τ
  | [] => word.toList
  | a :: rest => if isSep a then word.toList ++ words none rest else words (read word a) rest

/-- The word that the elements between two separators are read as. -/
def wordOf (between : List α) : Option τ := between.foldl read none

variable {isSep read}

/-- The elements before the first separator go on with the word that has begun. -/
theorem words_eq (word : Option τ) (l : List α) :
    ∃ first others, l.splitOnP isSep = first :: others ∧
      words isSep read word l = (first.foldl read word).toList ++
        others.flatMap fun between => (wordOf read between).toList := by
  induction l generalizing word with
  | nil => exact ⟨[], [], List.splitOnP_nil, by simp [words]⟩
  | cons a rest ih =>
    rw [List.splitOnP_cons_eq_if_modifyHead, words]
    by_cases hsep : isSep a = true
    · rw [if_pos hsep, if_pos hsep]
      obtain ⟨first, others, hsplit, hwords⟩ := ih none
      refine ⟨[], _, rfl, ?_⟩
      rw [hsplit, hwords, List.flatMap_cons, List.foldl_nil, wordOf]
    · rw [if_neg hsep, if_neg hsep]
      obtain ⟨first, others, hsplit, hwords⟩ := ih (read word a)
      refine ⟨a :: first, others, ?_, ?_⟩
      · rw [hsplit, List.modifyHead_cons]
      · rw [hwords, List.foldl_cons]

/-- There is a word for each run of elements between separators that is read as one. -/
theorem words_none (l : List α) :
    words isSep read none l = (l.splitOnP isSep).filterMap (wordOf read) := by
  obtain ⟨first, others, hsplit, hwords⟩ := @words_eq _ _ isSep read none l
  rw [List.filterMap_eq_flatMap_toList, hsplit, hwords, List.flatMap_cons]
  rfl

/-- No separator is between separators. -/
theorem not_isSep_of_mem {l between : List α} (hbetween : between ∈ l.splitOnP isSep) {a : α}
    (ha : a ∈ between) : isSep a = false := by
  induction l generalizing between with
  | nil =>
    rw [List.splitOnP_nil, List.mem_singleton] at hbetween
    rw [hbetween] at ha
    cases ha
  | cons b rest ih =>
    rw [List.splitOnP_cons_eq_if_modifyHead] at hbetween
    split at hbetween
    next =>
      rcases List.mem_cons.mp hbetween with rfl | hbetween
      · cases ha
      · exact ih hbetween ha
    next hb =>
      -- the element is put in front of the first of the others
      obtain ⟨first, others, hsplit⟩ :=
        List.exists_cons_of_ne_nil (List.splitOnP_ne_nil isSep rest)
      rw [hsplit] at hbetween ih
      rcases List.mem_cons.mp hbetween with rfl | hbetween
      · rcases List.mem_cons.mp ha with rfl | ha
        · exact Bool.eq_false_iff.mpr hb
        · exact ih List.mem_cons_self ha
      · exact ih (List.mem_cons_of_mem first hbetween) ha

/-- Two ways of reading that find words in the same places find the same words
exactly when each word is read in the same way. -/
theorem words_eq_words_iff {read' : Option τ → α → Option τ} {l : List α}
    (hplaces : ∀ between ∈ l.splitOnP isSep,
      (wordOf read between).isSome = (wordOf read' between).isSome) :
    words isSep read none l = words isSep read' none l ↔
      ∀ between ∈ l.splitOnP isSep, wordOf read between = wordOf read' between := by
  rw [words_none, words_none]
  generalize l.splitOnP isSep = runs at hplaces ⊢
  induction runs with
  | nil => simp
  | cons run runs ih =>
    have hrest := ih fun between hmem => hplaces between (List.mem_cons_of_mem run hmem)
    have hrun := hplaces run List.mem_cons_self
    rw [List.forall_mem_cons, ← hrest, List.filterMap_cons, List.filterMap_cons]
    cases hread : wordOf read run with
    | none =>
      rw [hread, Option.isSome_none] at hrun
      rw [Option.not_isSome_iff_eq_none.mp (Bool.eq_false_iff.mp hrun.symm)]
      exact (and_iff_right rfl).symm
    | some word =>
      rw [hread, Option.isSome_some] at hrun
      obtain ⟨word', hread'⟩ := Option.isSome_iff_exists.mp hrun.symm
      rw [hread', Option.some.injEq]
      exact List.cons_eq_cons

end SplitFold
