import Shading.Description.Basic

/-!
# Reading descriptions

A description is a JSON record with the fields `nodes`, `links`, `output` and `scene`, all of which
may be left out. -/

namespace Shading

open Json

namespace WrittenLiteral

def number? : Json → Option Binary32
  | .num n => n.value?.map Numeral.toBinary32
  | _ => none

def ofJson? : Json → Option WrittenLiteral
  | .bool b => some (boolean b)
  | .str s => some (text s)
  | .arr [x, y, z] => do return triple ⟨← number? x, ← number? y, ← number? z⟩
  | v => (number? v).map number

/-- Reads the literals of a node. -/
def values? (v : Json) : Option (List (String × WrittenLiteral)) := v.map? ofJson?

end WrittenLiteral

namespace Description

/-- A kind stands three levels deep in a description. -/
def kind? (v : Json) : Option NodeKind := NodeKind.ofJsonWithin? (NodeKind.maxDepth - 3) v

def node? (v : Json) : Option DescribedNode := do
  match ← v.record? ["name", "node", "values"] with
  | [name, kind, values] =>
    return ⟨← required str? name, ← required kind? kind,
      ← optional [] WrittenLiteral.values? values⟩
  | _ => none

def link? (v : Json) : Option DescribedLink := do
  match ← v.record? ["from", "to"] with
  | [source, target] => return ⟨← required str? source, ← required str? target⟩
  | _ => none

/-- Reads a list whose items are all of one form. -/
def list? {α : Type} (read : Json → Option α) (v : Json) : Option (List α) :=
  v.items?.bind (·.mapM read)

def ofJson? (v : Json) : Option Description := do
  match ← v.record? ["nodes", "links", "output", "scene"] with
  | [nodes, links, output, scene] =>
    return ⟨← optional [] (list? node?) nodes, ← optional [] (list? link?) links,
      ← optional [] WrittenLiteral.values? output, ← optional .empty Scene.ofJson? scene⟩
  | _ => none

/-- Reads a description from its text. -/
def parse (s : String) : Except DescriptionFault Description :=
  match (Json.parse? s).bind ofJson? with
  | some d => .ok d
  | none => .error .malformed

end Description

end Shading
