-- SUMMARY: The suggestion for a misspelled name, and the walk over the keys of an object that rejects the unknown ones with a suggestion.
import Bpt.Util.Dym

/-!
# Suggestions

`did_you_mean` keeps the first of the nearest strings. A `key_dym_tracker` offers the
known keys of an object that have not come up so far.
-/

namespace Bpt

open EditDistance

/-- The bytes of a string, as the table of distances has them. -/
def utf8Bytes (s : String) : List UInt8 := s.toUTF8.data.toList

/-- Whether a candidate takes the place of the best one so far (`ranges::min_element`). -/
def isCloser (fuel : Nat) (given candidate best : String) : Option Bool := do
  let d ← levEditDistance fuel (utf8Bytes candidate) (utf8Bytes given)
  let e ← levEditDistance fuel (utf8Bytes best) (utf8Bytes given)
  return d < e

def closestOf (fuel : Nat) (given : String) : String → List String → Option String
  | best, [] => some best
  | best, candidate :: strings => do
    let closer ← isCloser fuel given candidate best
    closestOf fuel given (if closer then candidate else best) strings

/-- `did_you_mean` with fuel for the loops of each distance. -/
def didYouMean (fuel : Nat) (given : String) : List String → Option (Option String)
  | [] => some none
  | first :: strings => (closestOf fuel given first strings).map some

example : didYouMean 10 "flag" ["flags", "debug", "flak"] = some (some "flags") := by
  decide +kernel

/-! ## The nearest string -/

/-- `d` is the number of edits that turn `s` into `given`. -/
def Distant (given s : String) (d : Nat) : Prop :=
  IsEditDistance (utf8Bytes s) (utf8Bytes given) d

/-- The distances from `given` fit the counters of the loops, and the fuel covers them. -/
structure Measurable (fuel : Nat) (given : String) (strings : List String) : Prop where
  given_short : (utf8Bytes given).length + 1 < 2 ^ 32
  given_fuel : (utf8Bytes given).length < fuel
  short : ∀ s ∈ strings, (utf8Bytes s).length + 1 < 2 ^ 32
  fuel : ∀ s ∈ strings, (utf8Bytes s).length < fuel

theorem Measurable.subset {fuel : Nat} {given : String} {strings strings' : List String}
    (h : Measurable fuel given strings) (hsub : ∀ s ∈ strings', s ∈ strings) :
    Measurable fuel given strings' where
  given_short := h.given_short
  given_fuel := h.given_fuel
  short s hs := h.short s (hsub s hs)
  fuel s hs := h.fuel s (hsub s hs)

theorem Measurable.distance {fuel : Nat} {given : String} {strings : List String}
    (h : Measurable fuel given strings) {s : String} (hs : s ∈ strings) :
    ∃ d, levEditDistance fuel (utf8Bytes s) (utf8Bytes given) = some d ∧ Distant given s d := by
  obtain ⟨d, hd⟩ := exists_levEditDistance (h.short s hs) h.given_short (h.fuel s hs) h.given_fuel
  exact ⟨d, hd, isEditDistance_of_levEditDistance hd⟩

/-- The string is in the list, no string is nearer to `given`, and none before it is as near. -/
def Nearest (given : String) (strings : List String) (s : String) : Prop :=
  ∃ before after d, strings = before ++ s :: after ∧ Distant given s d ∧
    (∀ t ∈ before, ∀ e, Distant given t e → d < e) ∧ ∀ t ∈ after, ∀ e, Distant given t e → d ≤ e

/-- The candidate is nearer than all that came before it, the best one among them. -/
theorem Nearest.next {given best candidate : String} {strings : List String} {d e : Nat}
    (h : Nearest given strings best) (hbest : Distant given best e)
    (hcandidate : Distant given candidate d) (hlt : d < e) :
    Nearest given (strings ++ [candidate]) candidate := by
  obtain ⟨before, after, e', rfl, hbest', hbefore, hafter⟩ := h
  obtain rfl := hbest'.unique hbest
  refine ⟨before ++ best :: after, [], d, rfl, hcandidate, ?_, nofun⟩
  intro t ht k hk
  rcases List.mem_append.mp ht with ht | ht
  · exact hlt.trans (hbefore t ht k hk)
  · rcases List.mem_cons.mp ht with rfl | ht
    · exact (hbest.unique hk) ▸ hlt
    · exact hlt.trans_le (hafter t ht k hk)

theorem Nearest.stay {given best candidate : String} {strings : List String} {d e : Nat}
    (h : Nearest given strings best) (hbest : Distant given best e)
    (hcandidate : Distant given candidate d) (hle : e ≤ d) :
    Nearest given (strings ++ [candidate]) best := by
  obtain ⟨before, after, e', rfl, hbest', hbefore, hafter⟩ := h
  obtain rfl := hbest'.unique hbest
  refine ⟨before, after ++ [candidate], e', by simp, hbest, hbefore, ?_⟩
  intro t ht k hk
  rcases List.mem_append.mp ht with ht | ht
  · exact hafter t ht k hk
  · obtain rfl := List.mem_singleton.mp ht
    exact (hcandidate.unique hk) ▸ hle

/-- Two strings of the list that are nearest are the same. -/
theorem Nearest.unique {given : String} {strings : List String} {s t : String}
    (hs : Nearest given strings s) (ht : Nearest given strings t) : s = t := by
  obtain ⟨before, after, d, rfl, hd, hbefore, hafter⟩ := hs
  obtain ⟨before', after', e, heq, he, hbefore', hafter'⟩ := ht
  rcases List.append_eq_append_iff.mp heq with ⟨more, rfl, hmore⟩ | ⟨more, rfl, hmore⟩
  · cases more with
    | nil => exact (List.cons.inj hmore).1
    | cons x more =>
      obtain ⟨rfl, rfl⟩ := List.cons.inj hmore
      have hlt := hbefore' s (by simp) d hd
      have hle := hafter t (by simp) e he
      omega
  · cases more with
    | nil => exact (List.cons.inj hmore).1.symm
    | cons x more =>
      obtain ⟨rfl, rfl⟩ := List.cons.inj hmore
      have hlt := hbefore t (by simp) e he
      have hle := hafter' s (by simp) d hd
      omega

theorem nearest_closestOf {fuel : Nat} {given best : String} {seen strings : List String}
    (hfuel : Measurable fuel given (seen ++ strings)) (hbest : Nearest given seen best) :
    ∃ s, closestOf fuel given best strings = some s ∧ Nearest given (seen ++ strings) s := by
  induction strings generalizing seen best with
  | nil => exact ⟨best, rfl, by simpa using hbest⟩
  | cons candidate strings ih =>
    have hbest_mem : best ∈ seen := by
      obtain ⟨before, after, -, rfl, -⟩ := hbest
      simp
    obtain ⟨e, he, hedist⟩ := hfuel.distance (List.mem_append_left _ hbest_mem)
    obtain ⟨d, hd, hddist⟩ := hfuel.distance (s := candidate) (by simp)
    have hrest : seen ++ candidate :: strings = (seen ++ [candidate]) ++ strings := by simp
    rw [hrest] at hfuel ⊢
    have hcloser : isCloser fuel given candidate best = some (decide (d < e)) := by
      rw [isCloser, hd, he]
      rfl
    rw [closestOf, hcloser]
    by_cases hlt : d < e
    · simp only [hlt, decide_true]
      exact ih hfuel (hbest.next hedist hddist hlt)
    · simp only [hlt, decide_false]
      exact ih hfuel (hbest.stay hedist hddist (Nat.le_of_not_lt hlt))

/-- A suggestion is the nearest string, and there is none only for want of strings. -/
def Suggests (given : String) (strings : List String) : Option String → Prop
  | none => strings = []
  | some s => Nearest given strings s

theorem suggests_didYouMean {fuel : Nat} {given : String} {strings : List String}
    (hfuel : Measurable fuel given strings) :
    ∃ dym, didYouMean fuel given strings = some dym ∧ Suggests given strings dym := by
  cases strings with
  | nil => exact ⟨none, rfl, rfl⟩
  | cons first strings =>
    obtain ⟨d, -, hd⟩ := hfuel.distance (s := first) List.mem_cons_self
    have hfirst : Nearest given [first] first := ⟨[], [], d, rfl, hd, nofun, nofun⟩
    have hfuel' : Measurable fuel given ([first] ++ strings) := hfuel
    obtain ⟨s, hs, hnearest⟩ := nearest_closestOf hfuel' hfirst
    exact ⟨some s, by rw [didYouMean, hs]; rfl, hnearest⟩

theorem Suggests.unique {given : String} {strings : List String} {dym dym' : Option String}
    (h : Suggests given strings dym) (h' : Suggests given strings dym') : dym = dym' := by
  cases dym with
  | none =>
    cases dym' with
    | none => rfl
    | some t =>
      obtain ⟨before, after, -, heq, -⟩ := h'
      rw [Suggests] at h
      simp [h] at heq
  | some s =>
    cases dym' with
    | none =>
      obtain ⟨before, after, -, heq, -⟩ := h
      rw [Suggests] at h'
      simp [h'] at heq
    | some t => rw [Nearest.unique h h']

/-! ## Unknown keys -/

/-- `key_dym_tracker`. The known keys are a set, in the order of their names. -/
structure KeyDymTracker where
  knownKeys : List String
  seenKeys : List String
  known_sorted : knownKeys.Pairwise (· < ·)

namespace KeyDymTracker

/-- Take note of a key, whether it is known or not. -/
def tracker (dym : KeyDymTracker) (key : String) : KeyDymTracker :=
  { dym with seenKeys := key :: dym.seenKeys }

def unseen (dym : KeyDymTracker) : List String := dym.knownKeys.filter (· ∉ dym.seenKeys)

/-- How a walk over the keys of an object ends. -/
inductive Walked where
  | accepted
  /-- `E{key, did_you_mean(key, unseen)}`. -/
  | rejected (key : String) (dym : Option String)
  /-- A distance is not computed. -/
  | noReturn
  deriving DecidableEq

def rejecter (fuel : Nat) (dym : KeyDymTracker) (key : String) : Walked :=
  match didYouMean fuel key dym.unseen with
  | some suggestion => .rejected key suggestion
  | none => .noReturn

/-- Each key is tracked, then given to its handler, and rejected when it has none. -/
def walkKeys (fuel : Nat) (handled : String → Bool) (dym : KeyDymTracker) : List String → Walked
  | [] => .accepted
  | key :: keys =>
    let dym := dym.tracker key
    if handled key then walkKeys fuel handled dym keys else dym.rejecter fuel key

/-- The known keys that are on offer when `key` is met after the keys `before`. -/
def offered (dym : KeyDymTracker) (before : List String) (key : String) : List String :=
  dym.unseen.filter fun known => known ∉ before ∧ known ≠ key

theorem unseen_tracker (dym : KeyDymTracker) (key : String) :
    (dym.tracker key).unseen = dym.unseen.filter (· ≠ key) := by
  unfold unseen tracker
  rw [List.filter_filter]
  apply List.filter_congr
  intro known _
  simp

theorem offered_tracker (dym : KeyDymTracker) (first key : String) (before : List String) :
    (dym.tracker first).offered before key = dym.offered (first :: before) key := by
  unfold offered
  rw [unseen_tracker, List.filter_filter]
  apply List.filter_congr
  intro known _
  simp only [List.mem_cons, not_or, decide_eq_decide, ← Bool.decide_and]
  tauto

theorem offered_nil (dym : KeyDymTracker) (key : String) :
    (dym.tracker key).unseen = dym.offered [] key := by
  rw [unseen_tracker, offered]
  apply List.filter_congr
  intro known _
  simp

/-- The distances to every key of the walk are computed. -/
def MeasuresAll (fuel : Nat) (dym : KeyDymTracker) (keys : List String) : Prop :=
  ∀ key ∈ keys, Measurable fuel key dym.knownKeys

theorem walkKeys_eq_accepted {fuel : Nat} {handled : String → Bool} {dym : KeyDymTracker}
    {keys : List String} :
    walkKeys fuel handled dym keys = .accepted ↔ ∀ key ∈ keys, handled key = true := by
  induction keys generalizing dym with
  | nil => simp [walkKeys]
  | cons first keys ih =>
    by_cases hfirst : handled first = true
    · simp [walkKeys, hfirst, ih]
    · have hrejecter : (dym.tracker first).rejecter fuel first ≠ .accepted := by
        unfold rejecter
        split <;> simp
      simp [walkKeys, hfirst, hrejecter]

theorem rejecter_eq {fuel : Nat} {dym : KeyDymTracker} {key : String}
    (hfuel : Measurable fuel key dym.knownKeys) {suggestion : Option String} {key' : String} :
    (dym.tracker key).rejecter fuel key = .rejected key' suggestion ↔
      key = key' ∧ Suggests key (dym.offered [] key) suggestion := by
  have hsub : ∀ s ∈ dym.offered [] key, s ∈ dym.knownKeys := fun s hs =>
    (List.mem_filter.mp (List.mem_filter.mp hs).1).1
  obtain ⟨found, hfound, hsuggests⟩ := suggests_didYouMean (hfuel.subset hsub)
  rw [rejecter, offered_nil, hfound]
  simp only [Walked.rejected.injEq]
  constructor
  · rintro ⟨rfl, rfl⟩
    exact ⟨rfl, hsuggests⟩
  · rintro ⟨rfl, hother⟩
    exact ⟨rfl, hsuggests.unique hother⟩

/-- A walk ends at the first key without a handler, and what it suggests for that key is
the nearest of the known keys that did not come before it. -/
theorem walkKeys_eq_rejected {fuel : Nat} {handled : String → Bool} {dym : KeyDymTracker}
    {keys : List String} (hfuel : dym.MeasuresAll fuel keys) {key : String}
    {suggestion : Option String} :
    walkKeys fuel handled dym keys = .rejected key suggestion ↔
      ∃ before after, keys = before ++ key :: after ∧ (∀ k ∈ before, handled k = true) ∧
        handled key = false ∧ Suggests key (dym.offered before key) suggestion := by
  induction keys generalizing dym with
  | nil => simp [walkKeys]
  | cons first keys ih =>
    have hrest : (dym.tracker first).MeasuresAll fuel keys := fun k hk =>
      hfuel k (List.mem_cons_of_mem _ hk)
    rw [walkKeys]
    by_cases hfirst : handled first = true
    · rw [if_pos hfirst, ih hrest]
      constructor
      · rintro ⟨before, after, rfl, hbefore, hkey, hsuggests⟩
        refine ⟨first :: before, after, rfl, ?_, hkey, offered_tracker dym first key before ▸ hsuggests⟩
        exact List.forall_mem_cons.mpr ⟨hfirst, hbefore⟩
      · rintro ⟨before, after, hkeys, hbefore, hkey, hsuggests⟩
        cases before with
        | nil =>
          obtain ⟨rfl, -⟩ := List.cons.inj hkeys
          rw [hfirst] at hkey
          cases hkey
        | cons k before =>
          obtain ⟨rfl, rfl⟩ := List.cons.inj hkeys
          refine ⟨before, after, rfl, (List.forall_mem_cons.mp hbefore).2, hkey, ?_⟩
          exact (offered_tracker dym first key before).symm ▸ hsuggests
    · rw [if_neg hfirst, rejecter_eq (hfuel first List.mem_cons_self)]
      constructor
      · rintro ⟨rfl, hsuggests⟩
        exact ⟨[], keys, rfl, nofun, by simpa using hfirst, hsuggests⟩
      · rintro ⟨before, after, hkeys, hbefore, hkey, hsuggests⟩
        cases before with
        | nil =>
          obtain ⟨rfl, -⟩ := List.cons.inj hkeys
          exact ⟨rfl, hsuggests⟩
        | cons k before =>
          obtain ⟨rfl, -⟩ := List.cons.inj hkeys
          exact absurd (hbefore first List.mem_cons_self) hfirst

/-- The tracker of a project dependency. -/
def ofDependency : KeyDymTracker := ⟨["dep", "using", "versions"], [], by decide⟩

def handledByDependency (key : String) : Bool := key ∈ ofDependency.knownKeys

theorem measuresAll_ofDependency : ofDependency.MeasuresAll 20 ["dep", "usign"] := by
  intro key hkey
  rcases List.mem_cons.mp hkey with rfl | hkey
  · exact ⟨by decide, by decide, by decide, by decide⟩
  · obtain rfl := List.mem_singleton.mp hkey
    exact ⟨by decide, by decide, by decide, by decide⟩

theorem walkKeys_usign : ∃ before after, ["dep", "usign"] = before ++ "usign" :: after ∧
    (∀ k ∈ before, handledByDependency k = true) ∧ handledByDependency "usign" = false ∧
    Suggests "usign" (ofDependency.offered before "usign") (some "using") :=
  (walkKeys_eq_rejected measuresAll_ofDependency).mp (by decide +kernel)

end KeyDymTracker

end Bpt
