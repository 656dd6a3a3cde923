import Shading.Fingerprint
import Shading.Fold.Propagate
import Shading.Lowering.Bump
import Shading.Lowering.ClosureWeight
import Shading.Lowering.Cycle
import Shading.Lowering.DefaultInput
import Shading.Lowering.Expansion
import Shading.Lowering.Merge
import Shading.Lowering.Proxy
import Shading.Lowering.Volume
import Shading.Scene

/-!
# Compilation

An authored graph is simplified to the nodes that matter, and then finalized into the form in which
it is executed: without cycles, without combined closures, and with the displacement turned into a
bumped normal. Simplifying a simplified graph and finalizing a finalized one do nothing. -/

namespace Shading

/-- How far a graph is compiled. -/
inductive Stage where
  | simplify | finalize
deriving DecidableEq

namespace Stage

def name : Stage → String
  | simplify => "simplify"
  | finalize => "finalize"

def all : List Stage := [simplify, finalize]

def ofName? (s : String) : Option Stage := all.find? (·.name == s)

end Stage

structure CompileOptions where
  stage : Stage := .finalize
  /-- Whether a bumped normal is derived from the displacement. -/
  bump : Bool := true
  objectSpace : Bool := false

namespace CompileOptions

open Json

def toJson (o : CompileOptions) : Json :=
  .obj [("stage", .str o.stage.name), ("do_bump", .bool o.bump),
    ("bump_in_object_space", .bool o.objectSpace)]

def ofJson? (v : Json) : Option CompileOptions := do
  match ← v.record? ["stage", "do_bump", "bump_in_object_space"] with
  | [stage, bump, objectSpace] =>
    pure ⟨← required (fun v => v.enumName?.bind Stage.ofName?) stage, ← required bool? bump,
      ← required bool? objectSpace⟩
  | _ => none

end CompileOptions

/-- What is known of a compiled graph. -/
structure Report where
  nodeCount : Nat
  linkCount : Nat
  closureSlots : Nat
  fingerprint : String
  diagnostics : List Diagnostic

def Report.members (r : Report) : List (String × Json) :=
  [("node_count", .nat r.nodeCount), ("link_count", .nat r.linkCount),
    ("num_closures", .nat r.closureSlots), ("displacement_hash", .str r.fingerprint),
    ("diagnostics", .arr (r.diagnostics.map Diagnostic.toJson))]

def Graph.summary (g : Graph) : Except Fault Report := do
  return {
    nodeCount := g.nodeCount
    linkCount := g.linkCount
    closureSlots := g.closureSlots
    fingerprint := ← g.fingerprint
    diagnostics := g.diagnostics }

namespace Edit

/-- Unlinks the input of an AOV output that its render pass does not store, and both inputs if there
is no such pass. -/
def adaptToScene (scene : Scene) (id : NodeId) : Edit Unit := do
  match (← ask (·.node id)).kind with
  | .aovOutput name =>
    if scene.aov? name ≠ some .value then disconnectIfLinked (← ask (·.inputRef id "Value"))
    if scene.aov? name ≠ some .color then disconnectIfLinked (← ask (·.inputRef id "Color"))
  | _ => pure ()

/-- Folds, merges and cuts a graph down to what its outputs depend on. -/
def clean (scene : Scene) : Edit Unit := do
  propagateConstants
  (← get).ids.forM (adaptToScene scene)
  discard mergeDuplicates
  verifyVolume
  let reachable ← breakCycles
  discard <| removeUnreachable reachable
  if !(← get).isAcyclic then throw .cycleSurvived

/-- Brings a graph into its smallest form. -/
def simplify (scene : Scene) : Edit Unit := do
  let g ← get
  if !g.simplified && !g.finalized then
    removeProxies
    expandNodes
    linkAllDefaults
    clean scene
    refineBumps
    markSimplified

/-- Simplifies a graph, and derives a bumped normal from its displacement if this is asked for. -/
def prepare (scene : Scene) (bump objectSpace : Bool) : Edit Unit := do
  simplify scene
  if bump then bumpFromDisplacement objectSpace

/-- Flattens the closures behind an input of the output node. -/
def flattenOutput (name : String) (volume : Bool) : Edit Unit := do
  let input ← ask (·.inputRef Graph.outputId name)
  if let some root ← ask (·.linkOf input) then flattenClosures volume root.node none

/-- Brings a graph into the form in which it is executed. -/
def finalize (scene : Scene) (bump objectSpace : Bool) : Edit Unit := do
  if !(← get).finalized then
    prepare scene bump objectSpace
    flattenOutput "Surface" false
    flattenOutput "Volume" true
    markFinalized

/-- Compiles a graph and sums up the result. -/
def compile (scene : Scene) (options : CompileOptions) : Edit Report := do
  match options.stage with
  | .simplify => simplify scene
  | .finalize => finalize scene options.bump options.objectSpace
  ask (·.summary)

end Edit

end Shading
