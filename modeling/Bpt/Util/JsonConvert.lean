-- SUMMARY: The conversions between the two JSON representations: they put the fields of objects into key order and change nothing else.
import Bpt.Base.SortedMap
import Bpt.Util.Json

/-!
# JSON conversions

`json5::data` and `nlohmann::json` are modelled by one type. A conversion builds
up every object anew, entry by entry, so its fields come out in key order. What
is in key order everywhere stays as it is.
-/

namespace Bpt.Json

mutual
/-- A copy of a value whose objects are built up by `emplace`. -/
def convert : Json → Json
  | .arr elems => .arr (convertElems elems)
  | .obj fields => .obj (convertFields fields [])
  | data => data

def convertElems : List Json → List Json
  | [] => []
  | elem :: elems => convert elem :: convertElems elems

def convertFields : List (String × Json) → List (String × Json) → List (String × Json)
  | [], ret => ret
  | (key, value) :: fields, ret => convertFields fields (SortedMap.emplace key (convert value) ret)
end

def json5AsNlohmannJson (dat : Json) : Json := dat.convert

def nlohmannJsonAsJson5 (data : Json) : Json := data.convert

theorem convertElems_eq_map (elems : List Json) : convertElems elems = elems.map convert := by
  induction elems with
  | nil => rfl
  | cons elem elems ih => rw [convertElems, ih, List.map_cons]

/-- The two values are equal when the order of the fields does not count. -/
def Same (a b : Json) : Prop := a.convert = b.convert

/-! ## Values in key order -/

mutual
/-- The fields of every object are in key order. -/
def Canonical : Json → Prop
  | .arr elems => CanonicalElems elems
  | .obj fields => SortedMap.Sorted fields ∧ CanonicalFields fields
  | _ => True

def CanonicalElems : List Json → Prop
  | [] => True
  | elem :: elems => Canonical elem ∧ CanonicalElems elems

def CanonicalFields : List (String × Json) → Prop
  | [] => True
  | (_, value) :: fields => Canonical value ∧ CanonicalFields fields
end

theorem canonicalFields_iff {fields : List (String × Json)} :
    CanonicalFields fields ↔ ∀ field ∈ fields, Canonical field.2 := by
  induction fields with
  | nil => simp [CanonicalFields]
  | cons field fields ih => simp [CanonicalFields, ih]

theorem canonicalFields_emplace {key : String} {value : Json} {ret : List (String × Json)}
    (hvalue : Canonical value) (hret : CanonicalFields ret) :
    CanonicalFields (SortedMap.emplace key value ret) := by
  refine canonicalFields_iff.mpr fun field hfield => ?_
  obtain rfl | hfield := SortedMap.mem_of_mem_emplace hfield
  · exact hvalue
  · exact canonicalFields_iff.mp hret field hfield

mutual
theorem canonical_convert : ∀ data : Json, Canonical data.convert
  | .null => trivial
  | .bool _ => trivial
  | .num _ => trivial
  | .str _ => trivial
  | .arr elems => canonicalElems_convertElems elems
  | .obj fields => canonicalFields_convertFields fields [] .nil trivial

theorem canonicalElems_convertElems : ∀ elems : List Json, CanonicalElems (convertElems elems)
  | [] => trivial
  | elem :: elems => ⟨canonical_convert elem, canonicalElems_convertElems elems⟩

theorem canonicalFields_convertFields : ∀ fields ret : List (String × Json),
    SortedMap.Sorted ret → CanonicalFields ret →
      SortedMap.Sorted (convertFields fields ret) ∧ CanonicalFields (convertFields fields ret)
  | [], _, hsorted, hret => ⟨hsorted, hret⟩
  | (key, value) :: fields, _, hsorted, hret =>
      canonicalFields_convertFields fields _ (hsorted.emplace key _)
        (canonicalFields_emplace (canonical_convert value) hret)
end

mutual
theorem convert_of_canonical : ∀ {data : Json}, Canonical data → data.convert = data
  | .null, _ => rfl
  | .bool _, _ => rfl
  | .num _, _ => rfl
  | .str _, _ => rfl
  | .arr _, h => congrArg Json.arr (convertElems_of_canonical h)
  | .obj fields, h => congrArg Json.obj (@convertFields_of_canonical fields [] h.1 h.2)

theorem convertElems_of_canonical : ∀ {elems : List Json}, CanonicalElems elems →
    convertElems elems = elems
  | [], _ => rfl
  | _ :: _, h => by
      rw [convertElems, convert_of_canonical h.1, convertElems_of_canonical h.2]

/-- Fields in key order are put one behind the other. -/
theorem convertFields_of_canonical : ∀ {fields ret : List (String × Json)},
    SortedMap.Sorted (ret ++ fields) → CanonicalFields fields →
      convertFields fields ret = ret ++ fields
  | [], ret, _, _ => (List.append_nil ret).symm
  | (key, value) :: fields, ret, hsorted, h => by
      have hlast : SortedMap.emplace key value ret = ret ++ [(key, value)] := by
        refine SortedMap.emplace_of_lt fun entry hentry => ?_
        exact (List.pairwise_append.mp hsorted).2.2 entry hentry _ List.mem_cons_self
      have hsorted' : SortedMap.Sorted ((ret ++ [(key, value)]) ++ fields) := by
        rwa [List.append_assoc, List.singleton_append]
      rw [convertFields, convert_of_canonical h.1, hlast,
        convertFields_of_canonical hsorted' h.2, List.append_assoc, List.singleton_append]
end

@[simp] theorem convert_convert (data : Json) : data.convert.convert = data.convert :=
  convert_of_canonical (canonical_convert data)

/-- Values in key order are the same when they are equal. -/
theorem same_iff_eq {a b : Json} (ha : Canonical a) (hb : Canonical b) : a.Same b ↔ a = b := by
  rw [Same, convert_of_canonical ha, convert_of_canonical hb]

theorem convert_same (data : Json) : data.convert.Same data := convert_convert data

end Bpt.Json
