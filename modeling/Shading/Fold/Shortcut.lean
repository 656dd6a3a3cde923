import Shading.Fold.Output

/-!
# Algebraic shortcuts

An arithmetic node with some linked inputs may still be known to pass on one of its inputs, or to be
zero or one: adding zero, multiplying by one, and the like. Which of these holds is decided from the
unlinked inputs alone, and then carried out on an output. -/

namespace Shading

/-- What a node is known to compute. -/
inductive Shortcut where
  | keep
  | passThrough (input : String)
  | zero
  | one

namespace Shortcut

/-- Carries out a shortcut on an output. -/
def apply (o : OutputRef) (clamped : Bool) : Shortcut → Edit Unit
  | keep => pure ()
  | passThrough input => discard <| Edit.passThrough o input clamped
  | zero => Edit.makeZero o
  | one => Edit.makeOne o

end Shortcut

/-- Tests on the unlinked inputs of a node. They fail if the node has no such input. -/
structure InputTests where
  isZero : String → Except Fault Bool
  isOne : String → Except Fault Bool

namespace InputTests

def ofGraph (g : Graph) (id : NodeId) : InputTests := ⟨g.holdsZero id, g.holdsOne id⟩

/-- Whether one of two inputs is zero; the second is only looked at if the first is not. -/
def eitherZero (t : InputTests) (a b : String) : Except Fault Bool := do
  if ← t.isZero a then return true else t.isZero b

end InputTests

def MathOp.shortcut (op : MathOp) (t : InputTests) : Except Fault Shortcut := do
  match op with
  | add =>
    if ← t.isZero "Value1" then return .passThrough "Value2"
    if ← t.isZero "Value2" then return .passThrough "Value1"
    return .keep
  | subtract =>
    if ← t.isZero "Value2" then return .passThrough "Value1"
    return .keep
  | multiply =>
    if ← t.isOne "Value1" then return .passThrough "Value2"
    if ← t.isOne "Value2" then return .passThrough "Value1"
    if ← t.eitherZero "Value1" "Value2" then return .zero
    return .keep
  | divide =>
    if ← t.isOne "Value2" then return .passThrough "Value1"
    if ← t.isZero "Value1" then return .zero
    return .keep
  | power =>
    if ← t.isOne "Value1" then return .one
    if ← t.isZero "Value2" then return .one
    if ← t.isOne "Value2" then return .passThrough "Value1"
    return .keep
  | _ => return .keep

def VectorOp.shortcut (op : VectorOp) (t : InputTests) : Except Fault Shortcut := do
  match op with
  | add =>
    if ← t.isZero "Vector1" then return .passThrough "Vector2"
    if ← t.isZero "Vector2" then return .passThrough "Vector1"
    return .keep
  | subtract =>
    if ← t.isZero "Vector2" then return .passThrough "Vector1"
    return .keep
  | multiply =>
    if ← t.eitherZero "Vector1" "Vector2" then return .zero
    if ← t.isOne "Vector1" then return .passThrough "Vector2"
    if ← t.isOne "Vector2" then return .passThrough "Vector1"
    return .keep
  | divide =>
    if ← t.isZero "Vector1" then return .zero
    if ← t.isOne "Vector2" then return .passThrough "Vector1"
    return .keep
  | dotProduct | crossProduct =>
    if ← t.eitherZero "Vector1" "Vector2" then return .zero
    return .keep
  | length | absolute =>
    if ← t.isZero "Vector1" then return .zero
    return .keep
  | scale =>
    if ← t.eitherZero "Vector1" "Scale" then return .zero
    if ← t.isOne "Scale" then return .passThrough "Vector1"
    return .keep
  | _ => return .keep

/-- What is known of a mix besides the values of its unlinked colours. -/
structure MixFacts where
  /-- The factor is unlinked and at most zero. -/
  facZero : Bool
  /-- The factor is unlinked and at least one. -/
  facOne : Bool
  /-- Both colours are linked to one output. -/
  sameLink : Bool
  /-- Both colours are unlinked and equal. -/
  sameLiteral : Bool

def MixFacts.ofNode (n : Node) : MixFacts :=
  let fac := Scalar.saturate (n.float "Fac")
  let link₁ := n.link? "Color1"
  let link₂ := n.link? "Color2"
  { facZero := !n.isLinked "Fac" && fac == 0
    facOne := !n.isLinked "Fac" && fac == 1
    sameLink := link₁.isSome && link₁ == link₂
    sameLiteral := link₁.isNone && link₂.isNone && n.float3 "Color1" == n.float3 "Color2" }

def BlendMode.shortcut (mode : BlendMode) (facts : MixFacts) (t : InputTests) :
    Except Fault Shortcut := do
  match mode with
  | blend =>
    if facts.sameLink || facts.sameLiteral then return .passThrough "Color1"
    if facts.facOne then return .passThrough "Color2"
    return .keep
  | add =>
    if (← t.isZero "Color1") && facts.facOne then return .passThrough "Color2"
    if ← t.isZero "Color2" then return .passThrough "Color1"
    return .keep
  | subtract =>
    if ← t.isZero "Color2" then return .passThrough "Color1"
    if facts.sameLink && facts.facOne then return .zero
    return .keep
  | multiply =>
    if (← t.isOne "Color1") && facts.facOne then return .passThrough "Color2"
    if ← t.isOne "Color2" then return .passThrough "Color1"
    if ← t.isZero "Color1" then return .zero
    if (← t.isZero "Color2") && facts.facOne then return .zero
    return .keep
  | _ => return .keep

namespace Edit

/-- Applies what is known of a scalar operation to an output of its node. -/
def foldMath (o : OutputRef) (op : MathOp) : Edit Unit := do
  let shortcut ← ask fun g => op.shortcut (.ofGraph g o.node)
  shortcut.apply o false

/-- Applies what is known of a vector operation to an output of its node. -/
def foldVectorMath (o : OutputRef) (op : VectorOp) : Edit Unit := do
  let shortcut ← ask fun g => op.shortcut (.ofGraph g o.node)
  shortcut.apply o false

/-- Applies what is known of a mix to an output of its node. A factor of zero selects the first
colour; if that cannot replace the output, the mode may know more. -/
def foldMix (o : OutputRef) (mode : BlendMode) (clamped : Bool) : Edit Unit := do
  let facts := MixFacts.ofNode (← ask (·.node o.node))
  if facts.facZero then
    if ← passThrough o "Color1" clamped then return
  let shortcut ← ask fun g => mode.shortcut facts (.ofGraph g o.node)
  shortcut.apply o clamped

end Edit

end Shading
