-- SUMMARY: When replacing a placeholder leaves a text as it is.
import Mathlib.Data.List.Infix
import Bpt.Util.String

namespace Bpt

variable {key repl s : List Char}

/-- Without an occurrence of the key nothing is replaced. -/
theorem replace_of_not_infix (h : ¬ key <:+: s) : replace s key repl = s := by
  unfold replace
  induction s with
  | nil => rfl
  | cons c s ih =>
    have hpre : key.isPrefixOf (c :: s) = false := by
      rw [Bool.eq_false_iff]
      exact fun hpre => h (List.isPrefixOf_iff_prefix.mp hpre).isInfix
    rw [replaceFrom, hpre, if_neg (by simp), ih fun hocc => h (List.infix_cons hocc)]

theorem replace_of_not_mem {c : Char} (hkey : key.head? = some c) (h : c ∉ s) :
    replace s key repl = s := by
  refine replace_of_not_infix fun hocc => h (hocc.subset ?_)
  exact List.mem_of_mem_head? hkey

/-- Where the key occurs the text changes, if what it is replaced by begins differently. -/
theorem replace_ne_of_infix (hkey : key ≠ []) (hrepl : repl ≠ []) (hhead : repl.head? ≠ key.head?)
    (h : key <:+: s) : replace s key repl ≠ s := by
  unfold replace
  induction s with
  | nil => exact absurd (List.infix_nil.mp h) hkey
  | cons c s ih =>
    rw [replaceFrom]
    split
    next hpre =>
      obtain ⟨d, key, rfl⟩ := List.exists_cons_of_ne_nil hkey
      obtain ⟨r, repl, rfl⟩ := List.exists_cons_of_ne_nil hrepl
      obtain ⟨rest, hrest⟩ := List.isPrefixOf_iff_prefix.mp hpre
      intro heq
      obtain ⟨rfl, -⟩ := List.cons.inj heq
      obtain ⟨rfl, -⟩ := List.cons.inj hrest
      exact hhead rfl
    next hpre =>
      intro heq
      have htail : key <:+: s := by
        rcases List.infix_cons_iff.mp h with hprefix | htail
        · exact absurd (List.isPrefixOf_iff_prefix.mpr hprefix) hpre
        · exact htail
      exact ih htail (List.cons.inj heq).2

theorem replace_eq_self_iff (hkey : key ≠ []) (hrepl : repl ≠ []) (hhead : repl.head? ≠ key.head?) :
    replace s key repl = s ↔ ¬ key <:+: s :=
  ⟨fun heq h => replace_ne_of_infix hkey hrepl hhead h heq, replace_of_not_infix⟩

end Bpt
