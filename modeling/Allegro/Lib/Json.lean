import Mathlib.Data.List.Basic

/-!
# JSON values

`serde_json::Value` with its ordered map (`preserve_order`), and the two
operations on objects that move a field in and out: `insert` and `remove`.
-/

/-- A JSON value. Numbers are integers. -/
inductive Json
  | null
  | bool (b : Bool)
  | number (n : Int)
  | string (s : String)
  | array (items : List Json)
  | object (fields : List (String × Json))

namespace Json

abbrev Fields := List (String × Json)

/-- `Map::insert`: a present key keeps its place. -/
def insert (fields : Fields) (key : String) (value : Json) : Fields :=
  if key ∈ fields.map Prod.fst then
    fields.map fun field => if field.1 = key then (key, value) else field
  else fields ++ [(key, value)]

/-- `Map::remove`: the last field takes the place of the removed one. -/
def remove (fields : Fields) (key : String) : Option (Json × Fields) := do
  let i ← fields.findIdx? fun field => field.1 == key
  let field ← fields[i]?
  let last ← fields.getLast?
  some (field.2, (fields.set i last).dropLast)

/-- A field that was not there is taken out again without a trace. -/
theorem remove_insert {fields : Fields} {key : String} (value : Json)
    (hnew : key ∉ fields.map Prod.fst) :
    remove (insert fields key value) key = some (value, fields) := by
  have hnone : fields.findIdx? (fun field => field.1 == key) = none := by
    rw [List.findIdx?_eq_none_iff]
    intro field hmem
    have hne : field.1 ≠ key := fun h => hnew (h ▸ List.mem_map_of_mem hmem)
    simpa using hne
  have hidx : (fields ++ [(key, value)]).findIdx? (fun field => field.1 == key) =
      some fields.length := by
    rw [List.findIdx?_append, hnone]
    simp
  rw [insert, if_neg hnew, remove, hidx]
  simp

end Json
