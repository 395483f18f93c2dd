-- SUMMARY: JSON values with decidable equality, and the walk over a JSON object that the metadata readers use.
import Mathlib.Data.Rat.Defs
import Bpt.Base.Fallible
import Bpt.Util.Name

/-!
# JSON values and walks

A JSON text is modelled by the value `nlohmann::json::parse` gives for it, and
`json5::data` by the same type. The readers of the repository go through an
object with the walk library, which is not part of the repository: each key is
handed to the handler of that key, and then the required keys are looked up.
-/

namespace Bpt

inductive Json where
  | null
  | bool (b : Bool)
  | num (q : ℚ)
  | str (s : String)
  | arr (elems : List Json)
  | obj (fields : List (String × Json))

namespace Json

mutual
/-- Equality of values, with object fields in their order. -/
def beq : Json → Json → Bool
  | null, null => true
  | bool a, bool b => a = b
  | num a, num b => a = b
  | str a, str b => a = b
  | arr as, arr bs => beqElems as bs
  | obj as, obj bs => beqFields as bs
  | _, _ => false

def beqElems : List Json → List Json → Bool
  | [], [] => true
  | a :: as, b :: bs => beq a b && beqElems as bs
  | _, _ => false

def beqFields : List (String × Json) → List (String × Json) → Bool
  | [], [] => true
  | (k, a) :: as, (l, b) :: bs => k = l && beq a b && beqFields as bs
  | _, _ => false
end

mutual
theorem beq_iff : ∀ a b : Json, beq a b = true ↔ a = b
  | null, b => by cases b <;> simp [beq]
  | bool _, b => by cases b <;> simp [beq]
  | num _, b => by cases b <;> simp [beq]
  | str _, b => by cases b <;> simp [beq]
  | arr as, b => by
      cases b with
      | arr bs => simpa [beq] using beqElems_iff as bs
      | _ => simp [beq]
  | obj as, b => by
      cases b with
      | obj bs => simpa [beq] using beqFields_iff as bs
      | _ => simp [beq]

theorem beqElems_iff : ∀ as bs : List Json, beqElems as bs = true ↔ as = bs
  | [], bs => by cases bs <;> simp [beqElems]
  | a :: as, bs => by
      cases bs with
      | nil => simp [beqElems]
      | cons b bs =>
          simp only [beqElems, Bool.and_eq_true, List.cons.injEq]
          rw [beq_iff a b, beqElems_iff as bs]

theorem beqFields_iff : ∀ as bs : List (String × Json), beqFields as bs = true ↔ as = bs
  | [], bs => by cases bs <;> simp [beqFields]
  | (k, a) :: as, bs => by
      cases bs with
      | nil => simp [beqFields]
      | cons b bs =>
          obtain ⟨l, b⟩ := b
          simp only [beqFields, Bool.and_eq_true, decide_eq_true_iff, List.cons.injEq,
            Prod.mk.injEq]
          rw [beq_iff a b, beqFields_iff as bs]
end

instance : DecidableEq Json := fun a b => decidable_of_iff _ (beq_iff a b)

end Json

/-- A JSON text, as the value it parses to; `none` when the parser rejects it. -/
abbrev JsonText := Option Json

/-! ## Walks -/

/-- How the reading of a JSON value ends early. -/
inductive WalkExn where
  /-- `semester::walk_error`. -/
  | walkError (what : String)
  /-- `semver::invalid_version`. -/
  | invalidVersion (str : String)
  /-- The error of `name::from_string`. -/
  | invalidName (err : Name.InvalidName)
  /-- What the walk library throws for a value of an unexpected type. -/
  | typeMismatch
  deriving DecidableEq

/-- What the repository does not say about the walk library. -/
class Semester where
  /-- Whether a walk rejects the keys of an object that have no handler. -/
  rejectUnhandled : String → Option WalkExn
  /-- The error for a value of the wrong type where the walk names no type. -/
  mismatch : WalkExn

/-- A walk that passes over unknown keys. -/
@[reducible]
def Semester.permissive : Semester := ⟨fun _ => none, .typeMismatch⟩

/-- A reader of JSON values. -/
abbrev Reader (α : Type) := Json → Except WalkExn α

namespace Walk

open Fallible

def requireMapping (message : String) : Reader (List (String × Json))
  | .obj fields => .ok fields
  | _ => .error (.walkError message)

def requireArray (message : String) : Reader (List Json)
  | .arr elems => .ok elems
  | _ => .error (.walkError message)

def requireStr (message : String) : Reader String
  | .str s => .ok s
  | _ => .error (.walkError message)

/-- A string where the walk names no type. -/
def asString [Semester] : Reader String
  | .str s => .ok s
  | _ => .error Semester.mismatch

@[simp] theorem requireMapping_obj (message : String) (fields : List (String × Json)) :
    requireMapping message (.obj fields) = .ok fields := rfl

@[simp] theorem requireArray_arr (message : String) (elems : List Json) :
    requireArray message (.arr elems) = .ok elems := rfl

@[simp] theorem requireStr_str (message s : String) : requireStr message (.str s) = .ok s := rfl

@[simp] theorem asString_str [Semester] (s : String) : asString (.str s) = .ok s := rfl

def nameFromString (s : String) : Except WalkExn Name :=
  (Name.fromString s).mapError .invalidName

/-- Read every element of an array, in order. -/
def forEach {α : Type} (read : Reader α) : List Json → Except WalkExn (List α)
  | [] => .ok []
  | elem :: elems => do
    let a ← read elem
    let as ← forEach read elems
    pure (a :: as)

/-- Hand each field to its handler, which updates the value read so far. The
handler returns `none` for a key it does not know, and `unhandled` is asked. -/
def walkFields {ε σ : Type} (unhandled : String → σ → Except ε σ)
    (handle : String → Json → σ → Option (Except ε σ)) :
    List (String × Json) → σ → Except ε σ
  | [], acc => .ok acc
  | (key, value) :: fields, acc => do
    let acc ← (handle key value acc).getD (unhandled key acc)
    walkFields unhandled handle fields acc

def eachField [Semester] {σ : Type} (handle : String → Json → σ → Option (Except WalkExn σ)) :
    List (String × Json) → σ → Except WalkExn σ :=
  walkFields
    (fun key acc => match Semester.rejectUnhandled key with
      | some exn => .error exn
      | none => .ok acc)
    handle

/-- Look up the required keys, each with its message. -/
def requireKeys (fields : List (String × Json)) : List (String × String) → Except WalkExn Unit
  | [] => .ok ()
  | (key, message) :: keys =>
    if fields.any fun field => field.1 = key then requireKeys fields keys
    else .error (.walkError message)

/-- A walk over the fields of an object. -/
def mapping [Semester] {σ : Type} (required : List (String × String))
    (handle : String → Json → σ → Option (Except WalkExn σ)) (init : σ)
    (fields : List (String × Json)) : Except WalkExn σ := do
  let acc ← eachField handle fields init
  requireKeys fields required
  pure acc

/-! ### Successful walks -/

section

variable {α σ : Type}

theorem nameFromString_eq_ok {s : String} {n : Name} (h : nameFromString s = .ok n) : n.str = s := by
  unfold nameFromString at h
  cases hs : Name.fromString s with
  | error e => simp [hs, Except.mapError] at h
  | ok m =>
      simp only [hs, Except.mapError, Except.ok.injEq] at h
      exact h ▸ Name.fromString_str hs

theorem forEach_eq_ok {read : Reader α} {elems : List Json} {as : List α}
    (h : forEach read elems = .ok as) : List.Forall₂ (fun elem a => read elem = .ok a) elems as := by
  induction elems generalizing as with
  | nil =>
      cases h
      exact .nil
  | cons elem elems ih =>
      simp only [forEach, bind_eq_ok, pure_eq_ok] at h
      obtain ⟨a, ha, rest, hrest, rfl⟩ := h
      exact .cons ha (ih hrest)

theorem forEach_eq_ok_iff {read : Reader α} {elems : List Json} {as : List α} :
    forEach read elems = .ok as ↔ List.Forall₂ (fun elem a => read elem = .ok a) elems as := by
  refine ⟨forEach_eq_ok, fun h => ?_⟩
  induction h with
  | nil => rfl
  | cons helem _ ih => exact bind_eq_ok.mpr ⟨_, helem, bind_eq_ok.mpr ⟨_, ih, rfl⟩⟩

/-- Each value read from an array is read from one of its elements. -/
theorem exists_read_of_mem {read : Reader α} {elems : List Json} {as : List α}
    (h : forEach read elems = .ok as) {a : α} (ha : a ∈ as) : ∃ elem ∈ elems, read elem = .ok a := by
  induction elems generalizing as with
  | nil =>
      cases h
      cases ha
  | cons elem elems ih =>
      simp only [forEach, bind_eq_ok, pure_eq_ok] at h
      obtain ⟨b, hb, rest, hrest, rfl⟩ := h
      rcases List.mem_cons.mp ha with rfl | ha
      · exact ⟨elem, List.mem_cons_self, hb⟩
      · obtain ⟨elem', hmem, hread⟩ := ih hrest ha
        exact ⟨elem', List.mem_cons_of_mem _ hmem, hread⟩

/-- What every handler keeps holds after the walk, if unknown keys change nothing. -/
theorem walkFields_keeps {ε : Type} {unhandled : String → σ → Except ε σ}
    {handle : String → Json → σ → Option (Except ε σ)} {P : σ → Prop}
    (hunhandled : ∀ key acc acc', unhandled key acc = .ok acc' → acc' = acc)
    (hstep : ∀ key value acc acc', P acc → handle key value acc = some (.ok acc') → P acc')
    {fields : List (String × Json)} {acc r : σ} (hacc : P acc)
    (h : walkFields unhandled handle fields acc = .ok r) : P r := by
  induction fields generalizing acc with
  | nil =>
      cases h
      exact hacc
  | cons field fields ih =>
      obtain ⟨key, value⟩ := field
      obtain ⟨acc', hfirst, hrest⟩ := bind_eq_ok.mp h
      cases hhandle : handle key value acc with
      | some result =>
          rw [hhandle, Option.getD_some] at hfirst
          exact ih (hstep key value acc acc' hacc (hfirst ▸ hhandle)) hrest
      | none =>
          rw [hhandle, Option.getD_none] at hfirst
          exact ih (hunhandled key acc acc' hfirst ▸ hacc) hrest

/-- What the handler of a key that is there establishes, and every handler keeps,
holds after the walk. -/
theorem walkFields_establishes {ε : Type} {unhandled : String → σ → Except ε σ}
    {handle : String → Json → σ → Option (Except ε σ)} {P : σ → Prop} {key : String}
    (hunhandled : ∀ key acc acc', unhandled key acc = .ok acc' → acc' = acc)
    (hset : ∀ value acc acc',
      (handle key value acc).getD (unhandled key acc) = .ok acc' → P acc')
    (hkeep : ∀ key value acc acc', P acc → handle key value acc = some (.ok acc') → P acc')
    {fields : List (String × Json)} (hkey : ∃ field ∈ fields, field.1 = key) {acc r : σ}
    (h : walkFields unhandled handle fields acc = .ok r) : P r := by
  induction fields generalizing acc with
  | nil =>
      obtain ⟨_, hmem, _⟩ := hkey
      cases hmem
  | cons field fields ih =>
      obtain ⟨key', value⟩ := field
      obtain ⟨acc', hfirst, hrest⟩ := bind_eq_ok.mp h
      obtain ⟨field, hmem, hfield⟩ := hkey
      obtain rfl | hmem := List.mem_cons.mp hmem
      · obtain rfl : key' = key := hfield
        exact walkFields_keeps hunhandled hkeep (hset value acc acc' hfirst) hrest
      · exact ih ⟨field, hmem, hfield⟩ hrest

theorem requireKeys_eq_ok {fields : List (String × Json)} {required : List (String × String)}
    (h : requireKeys fields required = .ok ()) {key message : String}
    (hkey : (key, message) ∈ required) : ∃ field ∈ fields, field.1 = key := by
  induction required with
  | nil => cases hkey
  | cons first required ih =>
      unfold requireKeys at h
      split at h
      next hany =>
        obtain rfl | hkey := List.mem_cons.mp hkey
        · simpa using hany
        · exact ih h hkey
      next => cases h

variable [Semester] {handle : String → Json → σ → Option (Except WalkExn σ)}

/-- One step of a successful walk, at a key that has a handler. -/
theorem eachField_cons_eq_ok {key : String} {value : Json} {fields : List (String × Json)}
    {acc r : σ} {result : Except WalkExn σ} (hhandle : handle key value acc = some result) :
    eachField handle ((key, value) :: fields) acc = .ok r ↔
      ∃ acc', result = .ok acc' ∧ eachField handle fields acc' = .ok r := by
  simp only [eachField, walkFields, hhandle, Option.getD_some, bind_eq_ok]

theorem mapping_eq_ok {required : List (String × String)} {init : σ}
    {fields : List (String × Json)} {r : σ} (h : mapping required handle init fields = .ok r) :
    eachField handle fields init = .ok r ∧ requireKeys fields required = .ok () :=
  bind_check_eq_ok.mp h

/-- A key without a handler is passed over, or ends the walk. -/
theorem eachField_keeps {P : σ → Prop}
    (hstep : ∀ key value acc acc', P acc → handle key value acc = some (.ok acc') → P acc')
    {fields : List (String × Json)} {acc r : σ} (hacc : P acc)
    (h : eachField handle fields acc = .ok r) : P r := by
  refine walkFields_keeps (fun key acc acc' hkey => ?_) hstep hacc h
  split at hkey <;> cases hkey
  rfl

theorem mapping_establishes {P : σ → Prop} {required : List (String × String)} {init : σ}
    {fields : List (String × Json)} {r : σ} (h : mapping required handle init fields = .ok r)
    {key message : String} (hkey : (key, message) ∈ required)
    (hset : ∀ value acc, ∃ result, handle key value acc = some result ∧
      ∀ acc', result = .ok acc' → P acc')
    (hkeep : ∀ key value acc acc', P acc → handle key value acc = some (.ok acc') → P acc') :
    P r := by
  obtain ⟨hwalk, hrequired⟩ := mapping_eq_ok h
  refine walkFields_establishes (fun key acc acc' hkey => ?_) (fun value acc acc' hfirst => ?_)
    hkeep (requireKeys_eq_ok hrequired hkey) hwalk
  · split at hkey <;> cases hkey
    rfl
  · obtain ⟨result, hhandle, hP⟩ := hset value acc
    rw [hhandle, Option.getD_some] at hfirst
    exact hP acc' hfirst

end

end Walk

end Bpt
