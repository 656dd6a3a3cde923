import Shading.Fold.Shortcut

/-!
# Folding rules

What folding does to an output, by the kind of its node. A node whose inputs are all unlinked is
evaluated; otherwise what is known of its kind may still replace the output. -/

namespace Shading

namespace SocketType

/-- The conversions that can be carried out on literals. -/
def convertsLiterally (source target : SocketType) : Bool :=
  (source.isNumber && (target.isFloat3 || target.isNumber)) || (source.isFloat3 && target.isNumber)

end SocketType

namespace Edit

/-- Folds a conversion. Two conversions back and forth through a triple are left out. -/
def foldConvert (o : OutputRef) (n : Node) (source target : SocketType) : Edit Unit := do
  match n.inputs.head? with
  | none => pure ()
  | some input =>
    match input.link with
    | none =>
      if source.convertsLiterally target then
        makeConstant o (input.literal.convert target (source == .color))
      else if source.isFloat3 && target.isFloat3 then makeConstant o input.literal
    | some feed =>
      let previous ← ask (·.node feed.node)
      match previous.kind, previous.inputs.head? with
      | .convert first second _, some input =>
        if first = target && second = source && source.isFloat3 &&
            (target == .float || target.isFloat3) then
          if let some origin := input.link then redirect o origin
      | _, _ => pure ()

/-- Folds a bump without a height: only its normal is left. -/
def foldBump (o : OutputRef) (n : Node) : Edit Unit := do
  if !n.isLinked "Height" then
    match n.link? "Normal" with
    | some normal => redirect o normal
    | none =>
      let geometry ← addKind .geometry
      redirect o (← ask (·.outputRef geometry "Normal"))

/-- Folds a mix of two closures: a mix of one closure with itself, or one whose factor leaves
nothing of a branch. -/
def foldMixClosure (o : OutputRef) (n : Node) : Edit Unit := do
  let fac := n.float "Fac"
  let fixed := !n.isLinked "Fac"
  if n.link? "Closure1" = n.link? "Closure2" then redirectOrDrop o "Closure1"
  else if fixed && fac <= 0 then redirectOrDrop o "Closure1"
  else if fixed && 1 <= fac then redirectOrDrop o "Closure2"

/-- Folds a sum of two closures of which one is missing. -/
def foldAddClosure (o : OutputRef) (n : Node) : Edit Unit := do
  if !n.isLinked "Closure1" then redirectOrDrop o "Closure2"
  else if !n.isLinked "Closure2" then redirectOrDrop o "Closure1"

/-- Whether an emission is known to be dark. -/
def isDarkEmission (n : Node) : Bool :=
  (!n.isLinked "Color" && n.float3 "Color" == Vec3.splat 0) ||
    (!n.isLinked "Strength" && n.float "Strength" == 0)

/-- Whether a displacement by its literals is none. -/
def isFlatDisplacement (n : Node) : Bool :=
  n.float "Height" - n.float "Midlevel" == 0 || n.float "Scale" == 0

/-- The value of a scalar operation on the literals of its node. -/
def mathValue (n : Node) (op : MathOp) : Binary32 :=
  op.eval (n.float "Value1") (n.float "Value2") (n.float "Value3")

/-- The values of a vector operation on the literals of its node. -/
def vectorMathValue (n : Node) (op : VectorOp) : Binary32 × Vec3 Binary32 :=
  op.eval (n.float3 "Vector1") (n.float3 "Vector2") (n.float3 "Vector3") (n.float "Scale")

def mixValue (n : Node) (mode : BlendMode) : Vec3 Binary32 :=
  mode.eval (n.float "Fac") (n.float3 "Color1") (n.float3 "Color2")

def clampValue (n : Node) (mode : ClampMode) : Binary32 :=
  mode.eval (n.float "Value") (n.float "Min") (n.float "Max")

/-- Folds one output of a node. -/
def foldOutput (o : OutputRef) : Edit Unit := do
  let n ← ask (·.node o.node)
  let constant := !n.hasLinkedInput
  match n.kind with
  | .value => makeConstant o (.float (n.float "Value"))
  | .color => makeConstant o (.float3 (n.float3 "Value"))
  | .convert source target _ => foldConvert o n source target
  | .emission _ => if isDarkEmission n then dropConsumers o
  | .addClosure => foldAddClosure o n
  | .mixClosure => foldMixClosure o n
  | .math op clamped =>
    if constant then makeConstantClamped o (.float (mathValue n op)) clamped else foldMath o op
  | .clamp mode => if constant then makeConstant o (.float (clampValue n mode))
  | .vectorMath op =>
    if constant then
      let (value, vector) := vectorMathValue n op
      if (← ask (·.output o)).name == "Value" then makeConstant o (.float value)
      else makeConstant o (.float3 vector)
    else foldVectorMath o op
  | .mix mode clamped =>
    if constant then makeConstantClamped o (.float3 (mixValue n mode)) clamped
    else foldMix o mode clamped
  | .bump .. => foldBump o n
  | .displacement _ => if constant && isFlatDisplacement n then makeZero o
  | _ => pure ()

end Edit

end Shading
