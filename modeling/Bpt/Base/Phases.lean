-- SUMMARY: Jobs that read cells and write one each, side by side within a phase and phase after phase, and what is left in the cells.
import Mathlib.Data.List.Nodup
import Mathlib.Data.List.NodupEquivFin
import Mathlib.Logic.Function.Basic
import Bpt.Base.Lts

/-!
# Phases of jobs

The jobs of a phase start and finish in any order, and a cell that is written while a job
runs may be seen by it in any state. As long as no job of a phase reads what another one
writes, the cells do not depend on the order. And when each phase reads only cells that are
known or were written before, what is written does not depend on what else was in the cells.
-/

namespace Phases

variable {κ ν : Type}

structure Job (κ ν : Type) where
  /-- The cell that is written, if one is. -/
  target : Option κ
  reads : (κ → ν) → List κ
  /-- What is written, if the job does not fail. -/
  make : (κ → ν) → Option ν
  congr : ∀ cells cells', (∀ k ∈ reads cells, cells' k = cells k) →
    reads cells' = reads cells ∧ make cells' = make cells

inductive Event where
  | start (i : Nat)
  | finish (i : Nat)

inductive Progress (κ : Type) where
  | waiting
  /-- With the cells that were written since the start. -/
  | running (touched : List κ)
  | finished

def Progress.touch (target : Option κ) : Progress κ → Progress κ
  | .running touched => .running (target.toList ++ touched)
  | p => p

structure State (κ ν : Type) where
  cells : κ → ν
  progress : Nat → Progress κ

def initial (cells : κ → ν) : State κ ν := ⟨cells, fun _ => .waiting⟩

section

variable [DecidableEq κ]

def write (cells : κ → ν) (target : Option κ) (v : ν) : κ → ν :=
  match target with
  | none => cells
  | some k => Function.update cells k v

/-- The state after job `i` has written. -/
def State.finish (s : State κ ν) (i : Nat) (target : Option κ) (v : ν) : State κ ν where
  cells := write s.cells target v
  progress := Function.update (fun j => (s.progress j).touch target) i .finished

theorem State.finish_self (s : State κ ν) (i : Nat) (target : Option κ) (v : ν) :
    (s.finish i target v).progress i = .finished := by
  unfold State.finish
  dsimp only
  rw [Function.update_self]

theorem State.finish_of_ne {i j : Nat} (h : j ≠ i) (s : State κ ν) (target : Option κ) (v : ν) :
    (s.finish i target v).progress j = (s.progress j).touch target := by
  unfold State.finish
  dsimp only
  rw [Function.update_of_ne h]

inductive Step (jobs : List (Job κ ν)) : State κ ν → Event → State κ ν → Prop where
  | start {s : State κ ν} {i : Nat} : i < jobs.length → s.progress i = .waiting →
      Step jobs s (.start i) ⟨s.cells, Function.update s.progress i (.running [])⟩
  | finish {s : State κ ν} {i : Nat} {job : Job κ ν} {touched : List κ} {seen : κ → ν} {v : ν} :
      jobs[i]? = some job → s.progress i = .running touched →
      (∀ k, k ∉ touched → seen k = s.cells k) → job.make seen = some v →
      Step jobs s (.finish i) (s.finish i job.target v)

end

def AllFinished (jobs : List (Job κ ν)) (s : State κ ν) : Prop :=
  ∀ i, i < jobs.length → s.progress i = .finished

/-- No two jobs write one cell, and none writes a cell that another one reads. -/
structure Independent (jobs : List (Job κ ν)) (cells : κ → ν) : Prop where
  targets : ∀ (i j : Nat) (job other : Job κ ν) (k : κ), jobs[i]? = some job → jobs[j]? = some other →
    job.target = some k → other.target = some k → i = j
  reads : ∀ job ∈ jobs, ∀ other ∈ jobs, ∀ k, job.target = some k → k ∉ other.reads cells

theorem Independent.congr {jobs : List (Job κ ν)} {cells cells' : κ → ν}
    (h : Independent jobs cells) (hsame : ∀ job ∈ jobs, ∀ k ∈ job.reads cells, cells' k = cells k) :
    Independent jobs cells' where
  targets := h.targets
  reads job hjob other hother k hk := by
    rw [(other.congr cells cells' (hsame other hother)).1]
    exact h.reads job hjob other hother k hk

theorem Independent.sublist {due jobs : List (Job κ ν)} {cells : κ → ν} (h : Independent jobs cells)
    (hdue : due.Sublist jobs) : Independent due cells where
  targets i j job other k hi hj hk hk' := by
    obtain ⟨f, hf⟩ := List.sublist_iff_exists_orderEmbedding_getElem?_eq.mp hdue
    have heq := h.targets (f i) (f j) job other k (hf i ▸ hi) (hf j ▸ hj) hk hk'
    exact f.injective heq
  reads job hjob other hother := h.reads job (hdue.subset hjob) other (hdue.subset hother)

/-- Jobs that are made for items write each file once when the files of the items differ. -/
theorem targets_of_nodup {α : Type} {R : α → Job κ ν → Prop} {items : List α}
    {jobs : List (Job κ ν)} {file : α → κ} (h : List.Forall₂ R items jobs)
    (htarget : ∀ a job k, R a job → job.target = some k → file a = k)
    (hnodup : (items.map file).Nodup) :
    ∀ (i j : Nat) (job other : Job κ ν) (k : κ), jobs[i]? = some job → jobs[j]? = some other →
      job.target = some k → other.target = some k → i = j := by
  have hitem : ∀ (i : Nat) (job : Job κ ν) (k : κ), jobs[i]? = some job → job.target = some k →
      (items.map file)[i]? = some k := by
    intro i job k hjob hk
    induction h generalizing i with
    | nil => cases hjob
    | @cons a b items jobs hab _ ih =>
      rw [List.map_cons, List.nodup_cons] at hnodup
      cases i with
      | zero =>
        cases hjob
        exact congrArg some (htarget a _ k hab hk)
      | succ i => exact ih hnodup.2 i hjob
  intro i j job other k hi hj hk hk'
  obtain ⟨hlt, hget⟩ := List.getElem?_eq_some_iff.mp (hitem i job k hi hk)
  obtain ⟨hlt', hget'⟩ := List.getElem?_eq_some_iff.mp (hitem j other k hj hk')
  exact hnodup.getElem_inj_iff.mp (hget.trans hget'.symm)

/-! ## One phase -/

/-- What is known at any time: running jobs were only touched by others, and what is finished
is made of the first cells. -/
structure Sound (jobs : List (Job κ ν)) (cells : κ → ν) (s : State κ ν) : Prop where
  running : ∀ i touched, s.progress i = .running touched →
    ∀ k ∈ touched, ∃ job ∈ jobs, job.target = some k
  finished : ∀ (i : Nat) (job : Job κ ν), jobs[i]? = some job → s.progress i = .finished →
    ∃ v, job.make cells = some v ∧ ∀ k, job.target = some k → s.cells k = v
  others : ∀ k, (∀ (i : Nat) (job : Job κ ν), jobs[i]? = some job → s.progress i = .finished →
    job.target ≠ some k) → s.cells k = cells k

variable {jobs : List (Job κ ν)} {cells : κ → ν} {s : State κ ν}

theorem sound_initial (jobs : List (Job κ ν)) (cells : κ → ν) : Sound jobs cells (initial cells) :=
  ⟨nofun, nofun, fun _ _ => rfl⟩

/-- What a job makes of the cells it may see is what it makes of the first ones. -/
theorem Sound.make (h : Sound jobs cells s) (hjobs : Independent jobs cells) {job : Job κ ν}
    (hjob : job ∈ jobs) {touched : List κ}
    (htouched : ∀ k ∈ touched, ∃ other ∈ jobs, other.target = some k) {seen : κ → ν}
    (hseen : ∀ k, k ∉ touched → seen k = s.cells k) : job.make seen = job.make cells := by
  refine (job.congr cells seen fun k hk => ?_).2
  have hk_apart : ∀ other ∈ jobs, other.target ≠ some k := fun other hother heq =>
    hjobs.reads other hother job hjob k heq hk
  rw [hseen k ?_]
  · exact h.others k fun i other hother _ => hk_apart other (List.mem_of_getElem? hother)
  · intro hmem
    obtain ⟨other, hother, heq⟩ := htouched k hmem
    exact hk_apart other hother heq

section

variable [DecidableEq κ]

theorem write_of_ne {target : Option κ} {k : κ} (h : target ≠ some k) (cells : κ → ν) (v : ν) :
    write cells target v k = cells k := by
  cases target with
  | none => rfl
  | some k' => exact Function.update_of_ne (fun heq => h (congrArg some heq.symm)) _ _

theorem Sound.step (h : Sound jobs cells s) (hjobs : Independent jobs cells) {e : Event}
    {s' : State κ ν} (hstep : Step jobs s e s') : Sound jobs cells s' := by
  cases hstep with
  | @start i hi hwaiting =>
    have hold : ∀ {j : Nat}, Function.update s.progress i (.running []) j = .finished →
        s.progress j = .finished := by
      intro j hj
      by_cases hij : j = i
      · rw [hij, Function.update_self] at hj
        cases hj
      · rwa [Function.update_of_ne hij] at hj
    refine ⟨fun j touched hj k hk => ?_, fun j other hother hj =>
      h.finished j other hother (hold hj), fun k hk => h.others k fun j other hother hj => ?_⟩
    · dsimp only at hj
      by_cases hij : j = i
      · rw [hij, Function.update_self] at hj
        cases hj
        cases hk
      · rw [Function.update_of_ne hij] at hj
        exact h.running j touched hj k hk
    · refine hk j other hother ?_
      have hij : j ≠ i := by
        rintro rfl
        rw [hwaiting] at hj
        cases hj
      exact (Function.update_of_ne hij _ _).trans hj
  | @finish i job touched seen v hjob hrunning hseen hmake =>
    have hmem := List.mem_of_getElem? hjob
    rw [h.make hjobs hmem (h.running i touched hrunning) hseen] at hmake
    refine ⟨fun j ts hj k hk => ?_, fun j other hother hj => ?_, fun k hk => ?_⟩
    · by_cases hij : j = i
      · rw [hij, State.finish_self] at hj
        cases hj
      · rw [State.finish_of_ne hij] at hj
        cases hprogress : s.progress j with
        | running old =>
          rw [hprogress] at hj
          cases hj
          rcases List.mem_append.mp hk with hk | hk
          · exact ⟨job, hmem, Option.mem_toList.mp hk⟩
          · exact h.running j old hprogress k hk
        | waiting =>
          rw [hprogress] at hj
          cases hj
        | finished =>
          rw [hprogress] at hj
          cases hj
    · by_cases hij : j = i
      · subst hij
        obtain rfl := Option.some.inj (hjob.symm.trans hother)
        refine ⟨v, hmake, fun k hk => ?_⟩
        rw [State.finish, hk]
        exact Function.update_self _ _ _
      · have hdone : s.progress j = .finished := by
          rw [State.finish_of_ne hij] at hj
          cases hprogress : s.progress j with
          | running old =>
            rw [hprogress] at hj
            cases hj
          | waiting =>
            rw [hprogress] at hj
            cases hj
          | finished => rfl
        obtain ⟨w, hw, hcells⟩ := h.finished j other hother hdone
        refine ⟨w, hw, fun k hk => ?_⟩
        rw [State.finish]
        dsimp only
        rw [write_of_ne fun heq => hij (hjobs.targets j i other job k hother hjob hk heq)]
        exact hcells k hk
    · have hne : job.target ≠ some k := hk i job hjob (State.finish_self _ _ _ _)
      refine (write_of_ne hne _ _).trans (h.others k fun j other hother hj => ?_)
      refine hk j other hother ?_
      by_cases hij : j = i
      · rw [hij]
        exact State.finish_self _ _ _ _
      · rw [State.finish_of_ne hij, hj]
        rfl

/-- What the cells hold after the phase, whatever the order. -/
structure Outcome (jobs : List (Job κ ν)) (cells cells' : κ → ν) : Prop where
  written : ∀ job ∈ jobs, ∃ v, job.make cells = some v ∧ ∀ k, job.target = some k → cells' k = v
  others : ∀ k, (∀ job ∈ jobs, job.target ≠ some k) → cells' k = cells k

theorem sound_of_run (hjobs : Independent jobs cells) {es : List Event}
    (hrun : Lts.Run (Step jobs) (initial cells) es s) : Sound jobs cells s :=
  hrun.invariant (I := fun _ s => Sound jobs cells s) (sound_initial jobs cells)
    fun _ _ _ _ hs hstep => hs.step hjobs hstep

theorem outcome_of_run (hjobs : Independent jobs cells) {es : List Event}
    (hrun : Lts.Run (Step jobs) (initial cells) es s) (hall : AllFinished jobs s) :
    Outcome jobs cells s.cells := by
  have h := sound_of_run hjobs hrun
  constructor
  · intro job hjob
    obtain ⟨i, hi⟩ := List.getElem?_of_mem hjob
    exact h.finished i job hi (hall i (List.getElem?_eq_some_iff.mp hi).1)
  · exact fun k hk => h.others k fun i job hi _ => hk job (List.mem_of_getElem? hi)

/-- The first jobs are finished, one after the other, and no other has started. -/
theorem exists_run_upTo (hjobs : Independent jobs cells)
    (hmake : ∀ job ∈ jobs, ∃ v, job.make cells = some v) (n : Nat) (hn : n ≤ jobs.length) :
    ∃ es s, Lts.Run (Step jobs) (initial cells) es s ∧ (∀ i, i < n → s.progress i = .finished) ∧
      ∀ i, n ≤ i → s.progress i = .waiting := by
  induction n with
  | zero => exact ⟨[], _, .nil, nofun, fun _ _ => rfl⟩
  | succ n ih =>
    obtain ⟨es, s, hrun, hdone, hwait⟩ := ih (Nat.le_of_succ_le hn)
    have hjob : jobs[n]? = some jobs[n] := List.getElem?_eq_getElem hn
    obtain ⟨v, hv⟩ := hmake jobs[n] (List.getElem_mem hn)
    have hstarted := hrun.snoc (.start hn (hwait n (Nat.le_refl n)))
    have hsame := (sound_of_run hjobs hstarted).make hjobs (List.getElem_mem hn)
      (List.forall_mem_nil _) fun _ _ => rfl
    have hfinished := hstarted.snoc
      (.finish hjob (Function.update_self n _ _) (fun _ _ => rfl) (hsame.trans hv))
    refine ⟨_, _, hfinished, fun i hi => ?_, fun i hi => ?_⟩
    · by_cases hin : i = n
      · rw [hin, State.finish_self]
      · rw [State.finish_of_ne hin]
        dsimp only
        rw [Function.update_of_ne hin, hdone i (by omega)]
        rfl
    · have hin : i ≠ n := by omega
      rw [State.finish_of_ne hin]
      dsimp only
      rw [Function.update_of_ne hin, hwait i (by omega)]
      rfl

/-! ## Phase after phase -/

/-- The phases run one after the other, each until all of its jobs are finished. -/
inductive Runs : List (List (Job κ ν)) → (κ → ν) → (κ → ν) → Prop where
  | nil (cells : κ → ν) : Runs [] cells cells
  | cons {jobs : List (Job κ ν)} {phases : List (List (Job κ ν))} {cells cells' : κ → ν}
      {es : List Event} {s : State κ ν} : Lts.Run (Step jobs) (initial cells) es s →
      AllFinished jobs s → Runs phases s.cells cells' → Runs (jobs :: phases) cells cells'

end

/-- The cell is written by a job of the phase. -/
def Written (jobs : List (Job κ ν)) (k : κ) : Prop := ∃ job ∈ jobs, job.target = some k

/-- The jobs of a phase are independent, and read only cells that are `known`. -/
structure SelfContained (known : κ → Prop) (jobs : List (Job κ ν)) (cells : κ → ν) : Prop where
  independent : Independent jobs cells
  reads : ∀ job ∈ jobs, ∀ k ∈ job.reads cells, known k

/-- Each phase fits what is `known` or was written in an earlier phase. -/
def Ordered (known : κ → Prop) : List (List (Job κ ν)) → (κ → ν) → Prop
  | [], _ => True
  | jobs :: phases, cells => SelfContained known jobs cells ∧ ∀ cells', Outcome jobs cells cells' →
      Ordered (fun k => known k ∨ Written jobs k) phases cells'

/-- The jobs that are not due would leave in the cells what is there. -/
def UpToDate (jobs due : List (Job κ ν)) (cells : κ → ν) : Prop :=
  ∀ job ∈ jobs, job ∉ due → ∃ v, job.make cells = some v ∧ ∀ k, job.target = some k → cells k = v

/-- Jobs that would leave what is there can be skipped. -/
theorem Outcome.of_due {due jobs : List (Job κ ν)} {cells cells' : κ → ν} (h : Outcome due cells cells')
    (hjobs : Independent jobs cells) (hdue : due ⊆ jobs) (hskip : UpToDate jobs due cells) :
    Outcome jobs cells cells' := by
  refine ⟨fun job hjob => ?_, fun k hk => h.others k fun job hjob => hk job (hdue hjob)⟩
  by_cases hmem : job ∈ due
  · exact h.written job hmem
  · obtain ⟨v, hv, hcells⟩ := hskip job hjob hmem
    refine ⟨v, hv, fun k hk => ?_⟩
    rw [h.others k ?_, hcells k hk]
    -- a due job that writes the same cell would be this one
    intro other hother hk'
    obtain ⟨i, hi⟩ := List.getElem?_of_mem hjob
    obtain ⟨j, hj⟩ := List.getElem?_of_mem (hdue hother)
    obtain rfl := hjobs.targets i j job other k hi hj hk hk'
    obtain rfl := Option.some.inj (hi.symm.trans hj)
    exact hmem hother

/-- The same known cells give the same outcome in all that is known afterwards. -/
theorem Outcome.agree {known : κ → Prop} {c d c' d' : κ → ν} (h : Outcome jobs c d)
    (h' : Outcome jobs c' d') (hreads : ∀ job ∈ jobs, ∀ k ∈ job.reads c, known k)
    (hknown : ∀ k, known k → c' k = c k) : ∀ k, known k ∨ Written jobs k → d' k = d k := by
  intro k hk
  by_cases hwritten : Written jobs k
  · obtain ⟨job, hjob, hk⟩ := hwritten
    obtain ⟨v, hv, hd⟩ := h.written job hjob
    obtain ⟨v', hv', hd'⟩ := h'.written job hjob
    rw [(job.congr c c' fun k hk => hknown k (hreads job hjob k hk)).2, hv] at hv'
    cases hv'
    rw [hd k hk, hd' k hk]
  · have hne : ∀ job ∈ jobs, job.target ≠ some k := fun job hjob heq => hwritten ⟨job, hjob, heq⟩
    rw [h.others k hne, h'.others k hne]
    exact hknown k (hk.resolve_right hwritten)

variable [DecidableEq κ]

/-- When one run of the phases ends, so does one from any cells with the same known ones, and
all runs leave the same in every cell that they write. -/
theorem Runs.deterministic {known : κ → Prop} {phases : List (List (Job κ ν))} {c d c' : κ → ν}
    (hphases : Ordered known phases c) (hknown : ∀ k, known k → c' k = c k)
    (hrun : Runs phases c d) :
    (∃ d', Runs phases c' d') ∧ ∀ d', Runs phases c' d' →
      ∀ k, known k ∨ (∃ jobs ∈ phases, Written jobs k) → d' k = d k := by
  induction phases generalizing known c c' with
  | nil =>
    cases hrun
    refine ⟨⟨c', .nil c'⟩, fun d' hrun' k hk => ?_⟩
    cases hrun'
    rcases hk with hk | ⟨_, hmem, -⟩
    · exact hknown k hk
    · cases hmem
  | cons jobs phases ih =>
    obtain ⟨⟨hjobs, hreads⟩, hrest⟩ := hphases
    have hjobs' := hjobs.congr fun job hjob k hk => hknown k (hreads job hjob k hk)
    cases hrun with
    | cons hevents hall hrun =>
      have h := outcome_of_run hjobs hevents hall
      have hmake : ∀ job ∈ jobs, ∃ v, job.make c' = some v := by
        intro job hjob
        obtain ⟨v, hv, -⟩ := h.written job hjob
        exact ⟨v, (job.congr c c' fun k hk => hknown k (hreads job hjob k hk)).2.trans hv⟩
      constructor
      · obtain ⟨es, s, hevents', hdone, -⟩ := exists_run_upTo hjobs' hmake _ (Nat.le_refl _)
        have h' := outcome_of_run hjobs' hevents' hdone
        obtain ⟨⟨d', hd'⟩, -⟩ := ih (hrest _ h) (h.agree h' hreads hknown) hrun
        exact ⟨d', .cons hevents' hdone hd'⟩
      · intro d' hrun' k hk
        cases hrun' with
        | cons hevents' hall' hrun' =>
          have h' := outcome_of_run hjobs' hevents' hall'
          refine (ih (hrest _ h) (h.agree h' hreads hknown) hrun).2 d' hrun' k ?_
          rcases hk with hk | ⟨js, hjs, hjob⟩
          · exact .inl (.inl hk)
          · rcases List.mem_cons.mp hjs with rfl | hjs
            · exact .inl (.inr hjob)
            · exact .inr ⟨js, hjs, hjob⟩

/-- It does not matter which jobs of the first phase are skipped, as long as they would leave
what is there. -/
theorem Runs.deterministic_of_due {known : κ → Prop} {jobs due due' : List (Job κ ν)}
    {phases : List (List (Job κ ν))} {c d c' : κ → ν} (hphases : Ordered known (jobs :: phases) c)
    (hknown : ∀ k, known k → c' k = c k) (hdue : due.Sublist jobs) (hdue' : due'.Sublist jobs)
    (hskip : UpToDate jobs due c) (hskip' : UpToDate jobs due' c') (hrun : Runs (due :: phases) c d) :
    (∃ d', Runs (due' :: phases) c' d') ∧ ∀ d', Runs (due' :: phases) c' d' →
      ∀ k, known k ∨ (∃ js ∈ jobs :: phases, Written js k) → d' k = d k := by
  obtain ⟨⟨hjobs, hreads⟩, hrest⟩ := hphases
  have hjobs' := hjobs.congr fun job hjob k hk => hknown k (hreads job hjob k hk)
  have hindependent' := hjobs'.sublist hdue'
  cases hrun with
  | cons hevents hall hrun =>
    have h := (outcome_of_run (hjobs.sublist hdue) hevents hall).of_due hjobs hdue.subset hskip
    have hsame : ∀ {d'}, Outcome due' c' d' → ∀ k, known k ∨ Written jobs k → d' k = _ := fun h' =>
      h.agree (h'.of_due hjobs' hdue'.subset hskip') hreads hknown
    constructor
    · have hmake : ∀ job ∈ due', ∃ v, job.make c' = some v := by
        intro job hjob
        obtain ⟨v, hv, -⟩ := h.written job (hdue'.subset hjob)
        have hcells := fun k hk => hknown k (hreads job (hdue'.subset hjob) k hk)
        exact ⟨v, (job.congr c c' hcells).2.trans hv⟩
      obtain ⟨es, s, hevents', hdone, -⟩ := exists_run_upTo hindependent' hmake _ (Nat.le_refl _)
      have h' := outcome_of_run hindependent' hevents' hdone
      obtain ⟨⟨d', hd'⟩, -⟩ := hrun.deterministic (hrest _ h) (hsame h')
      exact ⟨d', .cons hevents' hdone hd'⟩
    · intro d' hrun' k hk
      cases hrun' with
      | cons hevents' hall' hrun' =>
        have h' := outcome_of_run hindependent' hevents' hall'
        refine (hrun.deterministic (hrest _ h) (hsame h')).2 d' hrun' k ?_
        rcases hk with hk | ⟨js, hjs, hk⟩
        · exact .inl (.inl hk)
        · rcases List.mem_cons.mp hjs with rfl | hjs
          · exact .inl (.inr hk)
          · exact .inr ⟨js, hjs, hk⟩

/-- Phases whose jobs never fail run to their end. -/
theorem exists_runs {known : κ → Prop} {phases : List (List (Job κ ν))} {c : κ → ν}
    (hphases : Ordered known phases c)
    (hmake : ∀ jobs ∈ phases, ∀ job ∈ jobs, ∀ cells, ∃ v, job.make cells = some v) :
    ∃ d, Runs phases c d := by
  induction phases generalizing known c with
  | nil => exact ⟨c, .nil c⟩
  | cons jobs phases ih =>
    obtain ⟨hfits, hrest⟩ := hphases
    obtain ⟨hjobs, hothers⟩ := List.forall_mem_cons.mp hmake
    obtain ⟨es, s, hevents, hdone, -⟩ := exists_run_upTo hfits.independent
      (fun job hjob => hjobs job hjob c) _ (Nat.le_refl _)
    obtain ⟨d, hd⟩ := ih (hrest _ (outcome_of_run hfits.independent hevents hdone)) hothers
    exact ⟨d, .cons hevents hdone hd⟩

end Phases
