import Shading.Json.Basic

/-!
# Reading records out of JSON

A record is written as an object, or as a list of its fields in order. In an object a field may be
left out but not repeated, and what is no field of the record is passed over; in a list fields may
be left out at the end only, and nothing may follow the last one. A variant with a tag is such a
record whose tag field, or first item, names the variant. -/

namespace Shading.Json

def str? : Json → Option String
  | str s => some s
  | _ => none

def bool? : Json → Option Bool
  | bool b => some b
  | _ => none

def items? : Json → Option (List Json)
  | arr items => some items
  | _ => none

def members? : Json → Option (List (String × Json))
  | obj members => some members
  | _ => none

/-- The values that an object gives for a key. -/
def valuesOf (key : String) (members : List (String × Json)) : List Json :=
  members.filterMap fun (k, v) => if k == key then some v else none

/-- The value of a field in an object; fails if the field is repeated. -/
def field? (members : List (String × Json)) (key : String) : Option (Option Json) :=
  match valuesOf key members with
  | [] => some none
  | [v] => some (some v)
  | _ => none

/-- The values of a record's fields, none for each that is left out. -/
def record? (fields : List String) : Json → Option (List (Option Json))
  | obj members => fields.mapM (field? members)
  | arr items =>
    if items.length ≤ fields.length then
      some (items.map some ++ List.replicate (fields.length - items.length) none)
    else none
  | _ => none

/-- The variant that a tagged record names, and the record without its tag. -/
def tagged? (tag : String) : Json → Option (String × Json)
  | obj members =>
    match valuesOf tag members with
    | [str s] => some (s, obj (members.filter (·.1 != tag)))
    | _ => none
  | arr (str s :: items) => some (s, arr items)
  | _ => none

/-- Whether a record without fields may be written so. -/
def isEmptyRecord : Json → Bool
  | obj _ => true
  | arr [] => true
  | _ => false

/-- The name of an enumerated value: a string, or an object with the name as its only key and a null
value. -/
def enumName? : Json → Option String
  | str s => some s
  | obj [(s, null)] => some s
  | _ => none

/-- The name of an enumerated value inside a tagged record, where the value of the only key may also
be an empty object. -/
def nestedEnumName? : Json → Option String
  | obj [(s, obj [])] => some s
  | v => enumName? v

/-- A field that must be present. -/
def required {α : Type} (read : Json → Option α) (field : Option Json) : Option α := field.bind read

/-- A field that has a value of its own when it is left out. -/
def optional {α : Type} (value : α) (read : Json → Option α) : Option Json → Option α
  | none => some value
  | some v => read v

/-- Puts an entry into an ordered map. A key that is present keeps its place and takes the new
value. -/
def putEntry {α : Type} (entries : List (String × α)) (key : String) (value : α) :
    List (String × α) :=
  if entries.any (·.1 == key) then entries.map fun e => if e.1 == key then (key, value) else e
  else entries ++ [(key, value)]

/-- Reads an object as an ordered map. -/
def map? {α : Type} (read : Json → Option α) (v : Json) : Option (List (String × α)) := do
  let members ← v.members?
  members.foldlM (fun entries (k, v) => (read v).map (putEntry entries k)) []

end Shading.Json
