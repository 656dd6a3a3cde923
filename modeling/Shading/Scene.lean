import Shading.Json.Fields

/-!
# Scenes

What a graph has to know of the scene it is used in: the render passes (AOVs) that are registered,
and what each of them stores. -/

namespace Shading

inductive AovKind where
  | color | value
deriving DecidableEq

namespace AovKind

def name : AovKind → String
  | color => "color"
  | value => "value"

def all : List AovKind := [color, value]

def ofName? (s : String) : Option AovKind := all.find? (·.name == s)

end AovKind

/-- The registered render passes by name, in the order of their first registration. -/
structure Scene where
  aovs : List (String × AovKind)

namespace Scene

def empty : Scene := ⟨[]⟩

/-- Registers a render pass. A pass that is registered already changes what it stores. -/
def withAov (s : Scene) (name : String) (kind : AovKind) : Scene := ⟨Json.putEntry s.aovs name kind⟩

def aov? (s : Scene) (name : String) : Option AovKind := s.aovs.lookup name

open Json

def aovs? (v : Json) : Option (List (String × AovKind)) :=
  v.map? fun v => v.enumName?.bind AovKind.ofName?

def ofJson? (v : Json) : Option Scene := do
  match ← v.record? ["aovs"] with
  | [aovs] => pure ⟨← optional [] aovs? aovs⟩
  | _ => none

end Scene

end Shading
