-- SUMMARY: What every interleaving of the workers keeps: one holder of the mutex, one call for each item taken, and an end.
import Bpt.Util.Parallel

/-!
# Runs of the workers

The mutex is held by at most one thread, so that what a worker has read of the shared
variables stays true until it lets the mutex go. Each item that the iterator has passed is
called once or waits in a worker for its call.
-/

namespace Bpt.Parallel

open Lts

variable {α : Type} {items : List α} {fn : Func α} {n : Nat} {s s' : State} {sh sh' : Shared}
  {pc pc' w : Pc} {e : Event} {es : List Event}

/-! ## The mutex -/

/-- Whether the worker holds the mutex. -/
def Pc.holds : Pc → Nat
  | .checkExceptions | .checkStop | .deref | .advance _ | .unlock _ | .record _ | .leave => 1
  | .lock | .call _ | .running _ | .relock _ | .ended => 0

def MainPc.holds : MainPc → Nat
  | .spawn => 1
  | .join | .log _ | .returned _ | .terminated => 0

/-- What a worker knows of the shared variables. -/
def Pc.Knows (items : List α) (sh : Shared) : Pc → Prop
  | .checkStop => sh.exceptions = []
  | .deref => sh.exceptions = [] ∧ sh.iter < items.length
  | .advance i => sh.exceptions = [] ∧ i = sh.iter ∧ i < items.length
  | .unlock i | .call i | .running i => i < items.length
  | .leave | .ended => sh.exceptions ≠ [] ∨ sh.iter = items.length
  | .lock | .checkExceptions | .relock _ | .record _ => True

/-- The mutex is held by one thread when it is locked, and the workers know what they have
read. -/
structure Guarded (items : List α) (s : State) : Prop where
  mutex : total Pc.holds s.workers + s.main.holds = s.locked.toNat
  iter_le : s.iter ≤ items.length
  knows : ∀ pc ∈ s.workers, pc.Knows items s.toShared

/-- A worker takes the mutex when it is free, and lets go of one that it holds. -/
theorem RunOne.locked (h : RunOne items fn sh pc e sh' pc') (hheld : pc.holds ≤ sh.locked.toNat) :
    sh'.locked.toNat + pc.holds = sh.locked.toNat + pc'.holds := by
  cases h with
  | acquire hfree | relock hfree => simp [Pc.holds, hfree]
  | unlock | leave =>
    have htrue : sh.locked = true := by
      cases hlocked : sh.locked with
      | true => rfl
      | false => simp [Pc.holds, hlocked] at hheld
    simp [Pc.holds, htrue]
  | someException | noException | stop | notStop | deref | advance | call | returns | throws
  | record => simp [Pc.holds]

/-- What is known at the next place. -/
theorem RunOne.knows (h : RunOne items fn sh pc e sh' pc') (hiter : sh.iter ≤ items.length)
    (hpc : pc.Knows items sh) : pc'.Knows items sh' ∧ sh'.iter ≤ items.length := by
  cases h with
  | unlock | call | leave => exact ⟨hpc, hiter⟩
  | acquire | returns | throws | relock => exact ⟨trivial, hiter⟩
  | someException hne => exact ⟨.inl hne, hiter⟩
  | noException heq => exact ⟨heq, hiter⟩
  | stop heq => exact ⟨.inr heq, hiter⟩
  | notStop hne => exact ⟨⟨hpc, Nat.lt_of_le_of_ne hiter hne⟩, hiter⟩
  | deref => exact ⟨⟨hpc.1, rfl, hpc.2⟩, hiter⟩
  | advance =>
    obtain ⟨-, rfl, hlt⟩ := hpc
    exact ⟨hlt, hlt⟩
  | record => exact ⟨.inl (List.concat_ne_nil _ _), hiter⟩

/-- What another worker knows stays true, as it does not hold the mutex at the same time. -/
theorem RunOne.knows_other (h : RunOne items fn sh pc e sh' pc') (hpc : pc.Knows items sh)
    (hw : w.Knows items sh) (halone : pc.holds + w.holds ≤ 1) : w.Knows items sh' := by
  cases h with
  | acquire | someException | noException | stop | notStop | deref | unlock | call | returns
  | throws | relock | leave => cases w <;> exact hw
  | advance =>
    obtain ⟨hnone, rfl, hlt⟩ := hpc
    cases w with
    | lock | checkExceptions | relock | record | unlock | call | running => exact hw
    | checkStop | deref | advance | leave => exact absurd halone (by simp [Pc.holds])
    | ended => exact absurd hw (by simp [Pc.Knows, hnone, Nat.ne_of_lt hlt])
  | record =>
    cases w with
    | lock | checkExceptions | relock | record | unlock | call | running => exact hw
    | checkStop | deref | advance | leave => exact absurd halone (by simp [Pc.holds])
    | ended => exact .inl (List.concat_ne_nil _ _)

theorem Guarded.holds_le (h : Guarded items s) : total Pc.holds s.workers ≤ s.locked.toNat := by
  have hmutex := h.mutex
  omega

theorem guarded_start : Guarded items start := by
  constructor
  · rfl
  · exact Nat.zero_le _
  · exact fun pc hpc => absurd hpc List.not_mem_nil

theorem Guarded.worker (h : Guarded items s) {workers : List Pc}
    (hone : RunOne items fn s.toShared pc e sh pc') (hmoves : Moves pc pc' s.workers workers) :
    Guarded items ⟨sh, workers, s.main⟩ := by
  have hholds := Nat.le_trans (le_total hmoves.mem Pc.holds) h.holds_le
  have hpc := h.knows pc hmoves.mem
  constructor
  · have hlocked := hone.locked hholds
    have htotal := hmoves.total_eq Pc.holds
    have hmutex := h.mutex
    dsimp only
    omega
  · exact (hone.knows h.iter_le hpc).2
  · apply hmoves.forall_mem Pc.holds h.knows (hone.knows h.iter_le hpc).1
    intro w hw halone
    have hone_le := Nat.le_trans h.holds_le (Bool.toNat_le s.locked)
    exact hone.knows_other hpc hw (Nat.le_trans halone hone_le)

theorem Guarded.main (h : Guarded items s) (hmain : RunMain n s s') : Guarded items s' := by
  have hmutex := h.mutex
  cases hmain with
  | spawn hspawn =>
    refine ⟨?_, h.iter_le, ?_⟩
    · rw [total_append, total_singleton]
      exact hmutex
    · intro pc hpc
      obtain hpc | hpc := List.mem_append.mp hpc
      · exact h.knows pc hpc
      · rw [List.mem_singleton.mp hpc]
        trivial
  | unlock hspawn =>
    refine ⟨?_, h.iter_le, ?_⟩
    · rw [hspawn] at hmutex
      have hle := Bool.toNat_le s.locked
      simp only [MainPc.holds] at hmutex ⊢
      simp only [Bool.toNat_false]
      omega
    · intro pc hpc
      have hknows := h.knows pc hpc
      cases pc <;> exact hknows
  | join hjoin | log hjoin | logOther hjoin | return_ hjoin =>
    rw [hjoin] at hmutex
    exact ⟨hmutex, h.iter_le, h.knows⟩

theorem Guarded.step (h : Guarded items s) (hstep : Step items fn n s e s') : Guarded items s' := by
  cases hstep with
  | worker hone hmoves => exact h.worker hone hmoves
  | main hmain => exact h.main hmain

/-! ## Calls and exceptions -/

/-- Whether the worker has taken the item `i` and has yet to call the function on it. -/
def Pc.pending (i : Nat) : Pc → Nat
  | .unlock j | .call j => if j = i then 1 else 0
  | _ => 0

/-- Whether the worker has caught `x` and has yet to record it. -/
def Pc.inFlight (x : Exn) : Pc → Nat
  | .relock e | .record e => if e = x then 1 else 0
  | _ => 0

def Event.thrown : Event → Option Exn
  | .throws _ e => some e
  | _ => none

def Event.recorded : Event → Option Exn
  | .record e => some e
  | _ => none

/-- What has happened up to a state. -/
structure History (es : List Event) (s : State) : Prop where
  calls : ∀ i, es.count (.call i) + total (Pc.pending i) s.workers = if i < s.iter then 1 else 0
  throws : ∀ x, (es.filterMap Event.thrown).count x =
    s.exceptions.count x + total (Pc.inFlight x) s.workers
  records : es.filterMap Event.recorded = s.exceptions
  order : es.Pairwise fun first second => ∀ e i, first = .record e → second ≠ .take i

theorem filterMap_concat {β γ : Type} (f : β → Option γ) (l : List β) (b : β) :
    (l ++ [b]).filterMap f = l.filterMap f ++ (f b).toList := by
  cases hb : f b <;> simp [hb]

theorem RunOne.calls (h : RunOne items fn sh pc e sh' pc') (hpc : pc.Knows items sh) (i : Nat) :
    [e].count (.call i) + pc'.pending i + (if i < sh.iter then 1 else 0) =
      pc.pending i + if i < sh'.iter then 1 else 0 := by
  cases h with
  | acquire | someException | noException | stop | notStop | deref | returns | throws | relock
  | record | leave | unlock => simp [Pc.pending]
  | call =>
    simp only [Pc.pending, List.count_singleton, beq_iff_eq, Event.call.injEq]
    omega
  | advance =>
    obtain ⟨-, rfl, -⟩ := hpc
    simp only [Pc.pending, List.count_singleton, beq_iff_eq, reduceCtorEq, if_false]
    split <;> split <;> split <;> omega

theorem RunOne.throws_eq (h : RunOne items fn sh pc e sh' pc') (x : Exn) :
    e.thrown.toList.count x + (sh.exceptions.count x + pc.inFlight x) =
      sh'.exceptions.count x + pc'.inFlight x := by
  cases h with
  | acquire | someException | noException | stop | notStop | deref | advance | unlock | call
  | returns | relock | leave => simp [Pc.inFlight, Event.thrown]
  | throws =>
    simp only [Pc.inFlight, Event.thrown, Option.toList_some, List.count_singleton, beq_iff_eq]
    omega
  | record =>
    simp only [Pc.inFlight, Event.thrown, Option.toList_none, List.count_nil, List.count_append,
      List.count_singleton, beq_iff_eq]
    omega

theorem RunOne.records_eq (h : RunOne items fn sh pc e sh' pc') :
    sh'.exceptions = sh.exceptions ++ e.recorded.toList := by
  cases h <;> simp [Event.recorded]

/-- An item is taken when nothing has been recorded. -/
theorem RunOne.not_take (h : RunOne items fn sh pc e sh' pc') (hpc : pc.Knows items sh)
    (hrecorded : sh.exceptions ≠ []) (i : Nat) : e ≠ .take i := by
  rintro rfl
  cases h with
  | advance => exact hrecorded hpc.1

theorem history_start : History [] start :=
  ⟨fun _ => rfl, fun _ => rfl, rfl, .nil⟩

theorem History.worker (h : History es s) (hguarded : Guarded items s) {workers : List Pc}
    (hone : RunOne items fn s.toShared pc e sh pc') (hmoves : Moves pc pc' s.workers workers) :
    History (es ++ [e]) ⟨sh, workers, s.main⟩ := by
  have hpc := hguarded.knows pc hmoves.mem
  constructor
  · intro i
    have hcalls := h.calls i
    have hone' := hone.calls hpc i
    have htotal := hmoves.total_eq (Pc.pending i)
    rw [List.count_append]
    dsimp only
    omega
  · intro x
    have hthrows := h.throws x
    have hone' := hone.throws_eq x
    have htotal := hmoves.total_eq (Pc.inFlight x)
    rw [filterMap_concat, List.count_append]
    dsimp only
    omega
  · rw [filterMap_concat, h.records]
    exact hone.records_eq.symm
  · rw [List.pairwise_append]
    refine ⟨h.order, List.pairwise_singleton _ _, ?_⟩
    rintro first hfirst second hsecond x i rfl
    rw [List.mem_singleton.mp hsecond]
    apply hone.not_take hpc
    rw [← h.records]
    exact List.ne_nil_of_mem (List.mem_filterMap.mpr ⟨_, hfirst, rfl⟩)

theorem History.main (h : History es s) (hmain : RunMain n s s') :
    History (es ++ [.internal]) s' := by
  have hsame : s'.iter = s.iter ∧ s'.exceptions = s.exceptions ∧
      ∀ f : Pc → Nat, f .lock = 0 → total f s'.workers = total f s.workers := by
    cases hmain with
    | spawn =>
      refine ⟨rfl, rfl, fun f hf => ?_⟩
      rw [total_append, total_singleton, hf, Nat.add_zero]
    | unlock | join | log | logOther | return_ => exact ⟨rfl, rfl, fun _ _ => rfl⟩
  obtain ⟨hiter, hexceptions, htotal⟩ := hsame
  constructor
  · intro i
    rw [List.count_append, hiter, htotal _ rfl]
    exact h.calls i
  · intro x
    rw [filterMap_concat, hexceptions, htotal _ rfl]
    exact (congrArg (List.count x) (List.append_nil _)).trans (h.throws x)
  · rw [filterMap_concat, hexceptions]
    exact (List.append_nil _).trans h.records
  · rw [List.pairwise_append]
    refine ⟨h.order, List.pairwise_singleton _ _, ?_⟩
    intro first _ second hsecond x i _
    rw [List.mem_singleton.mp hsecond]
    exact nofun

/-! ## The main thread -/

/-- What the main thread knows at each place. -/
def MainKnows (n : Nat) (s : State) : Prop :=
  match s.main with
  | .spawn => s.workers.length ≤ n
  | .join => s.workers.length = n
  | .log k => s.workers.length = n ∧ (∀ pc ∈ s.workers, pc = .ended) ∧
      k ≤ s.exceptions.length ∧ .other ∉ s.exceptions.take k
  | .returned result => s.workers.length = n ∧ (∀ pc ∈ s.workers, pc = .ended) ∧
      result = s.exceptions.isEmpty ∧ .other ∉ s.exceptions
  | .terminated => s.workers.length = n ∧ (∀ pc ∈ s.workers, pc = .ended) ∧
      .other ∈ s.exceptions

/-- A worker that has ended makes no step. -/
theorem RunOne.ne_ended (h : RunOne items fn sh pc e sh' pc') : pc ≠ .ended := by
  rintro rfl
  cases h

theorem mainKnows_step (h : MainKnows n s) (hstep : Step items fn n s e s') : MainKnows n s' := by
  cases hstep with
  | worker hone hmoves =>
    have hrunning : ¬ ∀ pc ∈ s.workers, pc = .ended := fun hall =>
      hone.ne_ended (hall _ hmoves.mem)
    unfold MainKnows at h ⊢
    cases hmain : s.main with
    | spawn | join =>
      rw [hmain] at h
      exact hmoves.length_eq ▸ h
    | log | returned | terminated =>
      rw [hmain] at h
      exact absurd h.2.1 hrunning
  | main hmain =>
    unfold MainKnows at h ⊢
    cases hmain with
    | spawn hspawn hlt =>
      dsimp only
      rw [hspawn, List.length_append]
      exact hlt
    | unlock hspawn hlength => exact hlength
    | join hjoin hended =>
      rw [hjoin] at h
      exact ⟨h, hended, Nat.zero_le _, List.not_mem_nil⟩
    | @log k e hlog hget hother =>
      rw [hlog] at h
      obtain ⟨hlength, hended, hle, hseen⟩ := h
      obtain ⟨hlt, heq⟩ := List.getElem?_eq_some_iff.mp hget
      refine ⟨hlength, hended, hlt, ?_⟩
      rw [List.take_succ_eq_append_getElem hlt, heq, List.mem_append, List.mem_singleton]
      exact not_or.mpr ⟨hseen, Ne.symm hother⟩
    | logOther hlog hget =>
      rw [hlog] at h
      exact ⟨h.1, h.2.1, List.mem_of_getElem? hget⟩
    | return_ hlog hlength =>
      rw [hlog] at h
      obtain ⟨hcount, hended, -, hseen⟩ := h
      rw [← hlength, List.take_length] at hseen
      exact ⟨hcount, hended, rfl, hseen⟩

/-! ## Along a run -/

/-- All that a run keeps. -/
structure Kept (items : List α) (n : Nat) (es : List Event) (s : State) : Prop where
  guarded : Guarded items s
  history : History es s
  main : MainKnows n s

theorem kept_of_run (h : Run (Step items fn n) start es s) : Kept items n es s := by
  apply Run.invariant ?_ ?_ h
  · exact ⟨guarded_start, history_start, Nat.zero_le n⟩
  · intro es t e u hkept hstep
    refine ⟨hkept.guarded.step hstep, ?_, mainKnows_step hkept.main hstep⟩
    cases hstep with
    | worker hone hmoves => exact hkept.history.worker hkept.guarded hone hmoves
    | main hmain => exact hkept.history.main hmain

/-! ## The end of a run -/

/-- The steps a worker can make before it takes an item or ends, and those after it took one. -/
def Pc.weight : Pc → Nat
  | .unlock _ => 9
  | .call _ => 8
  | .running _ => 7
  | .lock => 6
  | .checkExceptions => 5
  | .checkStop => 4
  | .relock _ => 4
  | .deref => 3
  | .record _ => 3
  | .advance _ => 2
  | .leave => 1
  | .ended => 0

/-- The steps that the main thread has left. -/
def mainWeight (n : Nat) (s : State) : Nat :=
  match s.main with
  | .spawn => 7 * (n - s.workers.length) + s.exceptions.length + 3
  | .join => s.exceptions.length + 2
  | .log k => s.exceptions.length - k + 1
  | .returned _ | .terminated => 0

def measure (items : List α) (n : Nat) (s : State) : Nat :=
  total Pc.weight s.workers + 8 * (items.length - s.iter) + mainWeight n s

theorem RunOne.weight_lt (h : RunOne items fn sh pc e sh' pc') (hpc : pc.Knows items sh) :
    pc'.weight + 8 * (items.length - sh'.iter) + sh'.exceptions.length <
      pc.weight + 8 * (items.length - sh.iter) + sh.exceptions.length := by
  cases h with
  | acquire | someException | noException | stop | notStop | deref | unlock | call | returns
  | throws | relock | leave =>
    simp only [Pc.weight]
    omega
  | advance =>
    obtain ⟨-, rfl, hlt⟩ := hpc
    simp only [Pc.weight]
    omega
  | record =>
    simp only [Pc.weight, List.length_append, List.length_singleton]
    omega

/-- Every step lowers the measure. -/
theorem measure_lt (h : Guarded items s) (hstep : Step items fn n s e s') :
    measure items n s' < measure items n s := by
  unfold measure mainWeight
  cases hstep with
  | @worker pc pc' e sh workers hone hmoves =>
    have hweight := hone.weight_lt (h.knows pc hmoves.mem)
    have htotal := hmoves.total_eq Pc.weight
    have hlength := hmoves.length_eq
    have hgrow : s.exceptions.length ≤ sh.exceptions.length := by
      rw [hone.records_eq, List.length_append]
      exact Nat.le_add_right _ _
    cases hmain : s.main <;> dsimp only <;> omega
  | main hmain =>
    cases hmain with
    | spawn hspawn hlt =>
      dsimp only
      rw [hspawn, total_append, total_singleton, List.length_append, List.length_singleton]
      dsimp only [Pc.weight]
      omega
    | unlock hmain | join hmain | return_ hmain =>
      rw [hmain]
      dsimp only
      omega
    | log hmain hget | logOther hmain hget =>
      obtain ⟨hlt, -⟩ := List.getElem?_eq_some_iff.mp hget
      rw [hmain]
      dsimp only
      omega

theorem RunOne.exists_step (fn : Func α) (hpc : pc.Knows items sh) (hended : pc ≠ .ended)
    (hfree : 0 < pc.holds ∨ sh.locked = false) : ∃ e sh' pc', RunOne items fn sh pc e sh' pc' := by
  cases pc with
  | lock => exact ⟨_, _, _, .acquire (hfree.resolve_left (Nat.lt_irrefl 0))⟩
  | checkExceptions =>
    by_cases hnone : sh.exceptions = []
    · exact ⟨_, _, _, .noException hnone⟩
    · exact ⟨_, _, _, .someException hnone⟩
  | checkStop =>
    by_cases hstop : sh.iter = items.length
    · exact ⟨_, _, _, .stop hstop⟩
    · exact ⟨_, _, _, .notStop hstop⟩
  | deref => exact ⟨_, _, _, .deref⟩
  | advance i => exact ⟨_, _, _, .advance⟩
  | unlock i => exact ⟨_, _, _, .unlock⟩
  | call i => exact ⟨_, _, _, .call⟩
  | running i =>
    have hget := List.getElem?_eq_getElem (l := items) hpc
    obtain ⟨thrown, hends⟩ := fn.exists_ends items[i]
    cases thrown with
    | none => exact ⟨_, _, _, .returns hget hends⟩
    | some e => exact ⟨_, _, _, .throws hget hends⟩
  | relock e => exact ⟨_, _, _, .relock (hfree.resolve_left (Nat.lt_irrefl 0))⟩
  | record e => exact ⟨_, _, _, .record⟩
  | leave => exact ⟨_, _, _, .leave⟩
  | ended => exact absurd rfl hended

/-- As long as a worker has not ended after all were started, a worker can make a step. -/
theorem Guarded.exists_step (fn : Func α) (n : Nat) (h : Guarded items s) (hmain : s.main.holds = 0)
    (hrunning : ¬ ∀ pc ∈ s.workers, pc = .ended) : ∃ e s', Step items fn n s e s' := by
  have hone : ∃ pc ∈ s.workers, pc ≠ .ended ∧ (0 < pc.holds ∨ s.locked = false) := by
    cases hlocked : s.locked with
    | false =>
      obtain ⟨pc, hpc⟩ := not_forall.mp hrunning
      obtain ⟨hmem, hne⟩ := Classical.not_imp.mp hpc
      exact ⟨pc, hmem, hne, .inr rfl⟩
    | true =>
      have hmutex := h.mutex
      rw [hmain, hlocked] at hmutex
      obtain ⟨pc, hmem, hpos⟩ := exists_of_total_pos (Nat.lt_of_lt_of_eq Nat.one_pos hmutex.symm)
      refine ⟨pc, hmem, ?_, .inl hpos⟩
      rintro rfl
      exact Nat.lt_irrefl 0 hpos
  obtain ⟨pc, hmem, hne, hfree⟩ := hone
  obtain ⟨e, sh', pc', hrun⟩ := RunOne.exists_step fn (h.knows pc hmem) hne hfree
  obtain ⟨workers, hmoves⟩ := exists_moves hmem pc'
  exact ⟨e, _, .worker hrun hmoves⟩

/-- A run that cannot go on has come to the end of the main thread. -/
theorem Kept.of_stuck (h : Kept items n es s) (hstuck : Stuck (Step items fn n) s) :
    (∃ result, s.main = .returned result) ∨ s.main = .terminated := by
  have hnone : ∀ s', ¬ RunMain n s s' := fun s' hmain => hstuck _ _ (.main hmain)
  have hknows := h.main
  unfold MainKnows at hknows
  cases hmain : s.main with
  | spawn =>
    rw [hmain] at hknows
    obtain hlt | heq := Nat.lt_or_eq_of_le hknows
    · exact absurd (.spawn hmain hlt) (hnone _)
    · exact absurd (.unlock hmain heq) (hnone _)
  | join =>
    by_cases hended : ∀ pc ∈ s.workers, pc = .ended
    · exact absurd (.join hmain hended) (hnone _)
    · obtain ⟨e, s', hstep⟩ := h.guarded.exists_step fn n (by rw [hmain]; rfl) hended
      exact absurd hstep (hstuck e s')
  | log k =>
    rw [hmain] at hknows
    obtain hlt | heq := Nat.lt_or_eq_of_le hknows.2.2.1
    · have hget := List.getElem?_eq_getElem hlt
      by_cases hother : s.exceptions[k] = .other
      · rw [hother] at hget
        exact absurd (.logOther hmain hget) (hnone _)
      · exact absurd (.log hmain hget hother) (hnone _)
    · exact absurd (.return_ hmain heq.symm) (hnone _)
  | returned result => exact .inl ⟨result, rfl⟩
  | terminated => exact .inr rfl

/-! ## What a run does -/

/-- The calls of a run, and how it ends. -/
structure Distributes (items : List α) (fn : Func α) (n : Nat) (es : List Event) (s : State) :
    Prop where
  /-- No run goes on for ever. -/
  length_le : es.length ≤ 7 * n + 8 * items.length + 3
  once : ∀ i, es.count (.call i) ≤ if i < items.length then 1 else 0
  notTaken : ∀ before after e i, es = before ++ .record e :: after → .take i ∉ after
  ended : Stuck (Step items fn n) s → s.workers = List.replicate n .ended
  all : Stuck (Step items fn n) s → (∀ i e, .throws i e ∉ es) →
    ∀ i < items.length, es.count (.call i) = 1
  result : Stuck (Step items fn n) s →
    ∃ result, s.main = .returned result ∧ (result = false ↔ ∃ i e, .throws i e ∈ es)

theorem mem_filterMap_thrown {x : Exn} :
    x ∈ es.filterMap Event.thrown ↔ ∃ i, .throws i x ∈ es := by
  rw [List.mem_filterMap]
  constructor
  · rintro ⟨e, hmem, hthrown⟩
    cases e with
    | throws i e =>
      cases hthrown
      exact ⟨i, hmem⟩
    | internal | take | call | returns | record => cases hthrown
  · rintro ⟨i, hmem⟩
    exact ⟨_, hmem, rfl⟩

theorem Kept.once (h : Kept items n es s) (i : Nat) :
    es.count (.call i) ≤ if i < items.length then 1 else 0 := by
  have hcalls := h.history.calls i
  have hiter := h.guarded.iter_le
  split at hcalls
  next hlt =>
    rw [if_pos (by omega)]
    omega
  next => omega

theorem Kept.notTaken (h : Kept items n es s) (before after : List Event) (e : Exn) (i : Nat)
    (heq : es = before ++ .record e :: after) : .take i ∉ after := by
  intro hmem
  have horder := h.history.order
  rw [heq, List.pairwise_append, List.pairwise_cons] at horder
  exact horder.2.1.1 _ hmem e i rfl rfl

/-- In the end every exception that was thrown has been recorded. -/
theorem Kept.thrown_iff (h : Kept items n es s) (hended : ∀ pc ∈ s.workers, pc = .ended) {x : Exn} :
    (∃ i, .throws i x ∈ es) ↔ x ∈ s.exceptions := by
  have hzero : total (Pc.inFlight x) s.workers = 0 := total_eq_zero fun pc hpc => by
    rw [hended pc hpc]
    rfl
  have hthrows := h.history.throws x
  rw [hzero, Nat.add_zero] at hthrows
  rw [← mem_filterMap_thrown, ← List.count_pos_iff, hthrows, List.count_pos_iff]

theorem Kept.all_called (h : Kept items n es s) (hended : ∀ pc ∈ s.workers, pc = .ended)
    (hlength : s.workers.length = n) (hn : 0 < n) (hnone : ∀ i e, .throws i e ∉ es) (i : Nat)
    (hi : i < items.length) : es.count (.call i) = 1 := by
  have hzero : total (Pc.pending i) s.workers = 0 := total_eq_zero fun pc hpc => by
    rw [hended pc hpc]
    rfl
  obtain ⟨pc, hpc⟩ := List.exists_mem_of_length_pos (hlength ▸ hn)
  have hknows := h.guarded.knows pc hpc
  rw [hended pc hpc] at hknows
  have hexceptions : s.exceptions = [] := by
    apply List.eq_nil_iff_forall_not_mem.mpr
    intro x hx
    obtain ⟨i, hthrows⟩ := (h.thrown_iff hended).mpr hx
    exact hnone i x hthrows
  have hiter := hknows.resolve_left (not_not_intro hexceptions)
  have hcalls := h.history.calls i
  rwa [hzero, Nat.add_zero, hiter, if_pos hi] at hcalls

/-- All workers have ended when the main thread has come to its end. -/
theorem Kept.ended_of_stuck (h : Kept items n es s) (hstuck : Stuck (Step items fn n) s) :
    s.workers.length = n ∧ ∀ pc ∈ s.workers, pc = .ended := by
  have hknows := h.main
  unfold MainKnows at hknows
  obtain ⟨result, hmain⟩ | hmain := h.of_stuck hstuck
  · rw [hmain] at hknows
    exact ⟨hknows.1, hknows.2.1⟩
  · rw [hmain] at hknows
    exact ⟨hknows.1, hknows.2.1⟩

/-- The work is distributed in a run when it has not thrown, up to its end, what is not caught
where the exceptions are logged, and only then. -/
theorem distributes_iff (nJobs : Int) (hardwareConcurrency : Nat)
    (h : Run (Step items fn (jobs nJobs hardwareConcurrency)) start es s) :
    Distributes items fn (jobs nJobs hardwareConcurrency) es s ↔
      (Stuck (Step items fn (jobs nJobs hardwareConcurrency)) s → ∀ i, .throws i .other ∉ es) := by
  have hkept := kept_of_run h
  have hknows := hkept.main
  unfold MainKnows at hknows
  constructor
  · rintro hdistributes hstuck i hother
    obtain ⟨result, hmain, -⟩ := hdistributes.result hstuck
    rw [hmain] at hknows
    exact hknows.2.2.2 ((hkept.thrown_iff hknows.2.1).mp ⟨i, hother⟩)
  · intro hnone
    refine ⟨?_, hkept.once, hkept.notTaken, ?_, ?_, ?_⟩
    · have hle := h.length_add_le (fun h => (kept_of_run h).guarded)
        fun _ _ _ _ hguarded hstep => measure_lt hguarded hstep
      have hstart : measure items (jobs nJobs hardwareConcurrency) start =
          0 + 8 * items.length + (7 * jobs nJobs hardwareConcurrency + 0 + 3) := rfl
      omega
    · intro hstuck
      obtain ⟨hlength, hended⟩ := hkept.ended_of_stuck hstuck
      exact List.eq_replicate_iff.mpr ⟨hlength, hended⟩
    · intro hstuck
      obtain ⟨hlength, hended⟩ := hkept.ended_of_stuck hstuck
      exact hkept.all_called hended hlength (jobs_pos _ _)
    · intro hstuck
      obtain ⟨result, hmain⟩ | hmain := hkept.of_stuck hstuck
      · rw [hmain] at hknows
        obtain ⟨-, hended, rfl, -⟩ := hknows
        refine ⟨_, hmain, ?_⟩
        rw [← Bool.not_eq_true, List.isEmpty_iff, List.eq_nil_iff_forall_not_mem, not_forall]
        simp only [not_not, ← hkept.thrown_iff hended]
        exact exists_comm
      · rw [hmain] at hknows
        obtain ⟨-, hended, hother⟩ := hknows
        obtain ⟨i, hthrows⟩ := (hkept.thrown_iff hended).mpr hother
        exact absurd hthrows (hnone hstuck i)

/-! ## A call that throws -/

/-- Every call throws `e`. -/
def throwing (e : Exn) : Func Unit where
  ends _ thrown := thrown = some e
  exists_ends _ := ⟨_, rfl⟩

def throwingEvents (e : Exn) : List Event :=
  [.internal, .internal, .internal, .internal, .internal, .internal, .take 0, .internal, .call 0,
    .throws 0 e, .internal, .record e, .internal, .internal]

theorem moves_single {p p' : Pc} : Moves p p' [p] [p'] := ⟨[], [], rfl, rfl⟩

/-- The run of one worker on one item, up to the loop that logs the exceptions. -/
theorem throwing_run (e : Exn) : Run (Step [()] (throwing e) (jobs 1 0)) start (throwingEvents e)
    ⟨⟨false, 1, [e]⟩, [.ended], .log 0⟩ := by
  have h₀ : Run (Step [()] (throwing e) (jobs 1 0)) start [] start := .nil
  have h₁ := h₀.snoc (.main (.spawn rfl (by decide)))
  have h₂ := h₁.snoc (.main (.unlock rfl rfl))
  have h₃ := h₂.snoc (.worker (.acquire rfl) moves_single)
  have h₄ := h₃.snoc (.worker (.noException rfl) moves_single)
  have h₅ := h₄.snoc (.worker (.notStop (by decide)) moves_single)
  have h₆ := h₅.snoc (.worker .deref moves_single)
  have h₇ := h₆.snoc (.worker .advance moves_single)
  have h₈ := h₇.snoc (.worker .unlock moves_single)
  have h₉ := h₈.snoc (.worker .call moves_single)
  have h₁₀ := h₉.snoc (.worker (.throws (e := e) rfl rfl) moves_single)
  have h₁₁ := h₁₀.snoc (.worker (.relock rfl) moves_single)
  have h₁₂ := h₁₁.snoc (.worker .record moves_single)
  have h₁₃ := h₁₂.snoc (.worker .leave moves_single)
  exact h₁₃.snoc (.main (.join rfl fun pc hpc => List.mem_singleton.mp hpc))

/-- Nothing goes on when the workers have ended and the main thread has come to its end. -/
theorem stuck_of_ended (hended : ∀ pc ∈ s.workers, pc = .ended)
    (hmain : s.main = .terminated ∨ ∃ result, s.main = .returned result) :
    Stuck (Step items fn n) s := by
  intro e s' hstep
  cases hstep with
  | worker hone hmoves => exact hone.ne_ended (hended _ hmoves.mem)
  | main hstep =>
    obtain hmain | ⟨result, hmain⟩ := hmain
    · cases hstep <;> simp_all
    · cases hstep <;> simp_all

/-- The call on `true` throws `e`. -/
def throwingAt (e : Exn) : Func Bool where
  ends item thrown := thrown = if item then some e else none
  exists_ends _ := ⟨_, rfl⟩

theorem throwingAt_true (e : Exn) : (throwingAt e).ends true (some e) := rfl

theorem throwingAt_false (e : Exn) : (throwingAt e).ends false none := rfl

theorem moves_first {p p' q : Pc} : Moves p p' [p, q] [p', q] := ⟨[], [q], rfl, rfl⟩

theorem moves_second {p p' q : Pc} : Moves p p' [q, p] [q, p'] := ⟨[q], [], rfl, rfl⟩

/-- The events of two workers that take an item each. The first one finds the exception of
the second when it comes back. -/
def twoWorkersEvents (e : Exn) : List Event :=
  [.internal, .internal, .internal, .internal, .internal, .internal, .internal, .take 0, .internal,
    .internal, .internal, .internal, .internal, .take 1, .internal, .call 0, .call 1, .throws 1 e,
    .returns 0, .internal, .record e, .internal, .internal, .internal, .internal, .internal]

theorem twoWorkers_run (e : Exn) :
    Run (Step [false, true] (throwingAt e) (jobs 2 0)) start (twoWorkersEvents e)
      ⟨⟨false, 2, [e]⟩, [.ended, .ended], .log 0⟩ := by
  have h₀ : Run (Step [false, true] (throwingAt e) (jobs 2 0)) start [] start := .nil
  have hspawned := (h₀.snoc (.main (.spawn rfl (by decide)))).snoc
    (.main (.spawn rfl (by decide)))
  have hstarted := hspawned.snoc (.main (.unlock rfl rfl))
  -- the first worker takes an item, and then the second
  have h₁ := hstarted.snoc (.worker (.acquire rfl) moves_first)
  have h₂ := h₁.snoc (.worker (.noException rfl) moves_first)
  have h₃ := h₂.snoc (.worker (.notStop (by decide)) moves_first)
  have h₄ := h₃.snoc (.worker .deref moves_first)
  have h₅ := h₄.snoc (.worker .advance moves_first)
  have h₆ := h₅.snoc (.worker .unlock moves_first)
  have h₇ := h₆.snoc (.worker (.acquire rfl) moves_second)
  have h₈ := h₇.snoc (.worker (.noException rfl) moves_second)
  have h₉ := h₈.snoc (.worker (.notStop (by decide)) moves_second)
  have h₁₀ := h₉.snoc (.worker .deref moves_second)
  have h₁₁ := h₁₀.snoc (.worker .advance moves_second)
  have h₁₂ := h₁₁.snoc (.worker .unlock moves_second)
  -- both call, and the second throws before the first returns
  have h₁₃ := h₁₂.snoc (.worker .call moves_first)
  have h₁₄ := h₁₃.snoc (.worker .call moves_second)
  have h₁₅ := h₁₄.snoc (.worker (.throws rfl (throwingAt_true e)) moves_second)
  have h₁₆ := h₁₅.snoc (.worker (.returns rfl (throwingAt_false e)) moves_first)
  have h₁₇ := h₁₆.snoc (.worker (.relock rfl) moves_second)
  have h₁₈ := h₁₇.snoc (.worker .record moves_second)
  have h₁₉ := h₁₈.snoc (.worker .leave moves_second)
  -- the first finds the exception
  have h₂₀ := h₁₉.snoc (.worker (.acquire rfl) moves_first)
  have h₂₁ := h₂₀.snoc (.worker (.someException (by simp)) moves_first)
  have h₂₂ := h₂₁.snoc (.worker .leave moves_first)
  exact h₂₂.snoc (.main (.join rfl (by simp)))

/-- An exception of the standard library makes the result false. -/
theorem distributes_throwing_std : ∃ es,
    Distributes [false, true] (throwingAt (.std "no space")) (jobs 2 0) es
      ⟨⟨false, 2, [.std "no space"]⟩, [.ended, .ended], .returned false⟩ := by
  have hrun := ((twoWorkers_run (.std "no space")).snoc (.main (.log rfl rfl nofun))).snoc
    (.main (.return_ rfl rfl))
  refine ⟨_, (distributes_iff 2 0 hrun).mpr ?_⟩
  intro _ i hother
  simp [twoWorkersEvents] at hother

/-- What is not an exception of the standard library ends the program. -/
theorem not_distributes_throwing_other : ∃ es s,
    Run (Step [()] (throwing .other) (jobs 1 0)) start es s ∧
      ¬ Distributes [()] (throwing .other) (jobs 1 0) es s := by
  refine ⟨_, _, (throwing_run .other).snoc (.main (.logOther rfl rfl)), fun h => ?_⟩
  obtain ⟨result, hmain, -⟩ := h.result (stuck_of_ended
    (fun pc hpc => List.mem_singleton.mp hpc) (.inl rfl))
  cases hmain

end Bpt.Parallel
