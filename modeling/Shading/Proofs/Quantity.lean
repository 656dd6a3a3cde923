import Shading.Proofs.Exact
import Shading.Proofs.Meaning

/-!
# Arithmetic nodes over the rationals

The evaluators of arithmetic nodes are read over the rationals here, where sums and products are
exact. Of roots and powers only those values are fixed that every reading agrees on (`Elementary`).
A socket carries a number or a triple of numbers (`Quantity`), and a node computes its quantities
from those that its inputs receive (`exactArithmetic`). -/

namespace Shading

/-- Roots, powers and trigonometric functions over the rationals. -/
class Elementary where
  sqrt : ℚ → ℚ
  sin : ℚ → ℚ
  cos : ℚ → ℚ
  pow : ℚ → ℚ → ℚ
  sqrt_zero : sqrt 0 = 0
  one_pow : ∀ b, pow 1 b = 1
  pow_zero : ∀ a, pow a 0 = 1
  pow_one : ∀ a, pow a 1 = a

/-- Roots and powers that are as simple as the laws allow. -/
@[reducible] def Elementary.simplest : Elementary where
  sqrt a := a
  sin a := a
  cos a := a
  pow a b := if b = 0 then 1 else a
  sqrt_zero := rfl
  one_pow b := by simp
  pow_zero a := if_pos rfl
  pow_one a := if_neg one_ne_zero

instance [Elementary] : Scalar ℚ where
  zero := 0
  one := 1
  same a b := decide (a = b)
  less a b := decide (a < b)
  abs a := |a|
  sqrt := Elementary.sqrt
  sin := Elementary.sin
  cos := Elementary.cos
  pow := Elementary.pow
  isWhole a := decide (a.den = 1)

namespace Scalar

variable [Elementary]

@[simp] theorem zero_rat : (Scalar.zero : ℚ) = 0 := rfl

@[simp] theorem one_rat : (Scalar.one : ℚ) = 1 := rfl

theorem saturate_rat (q : ℚ) : saturate q = if q < 0 then 0 else if 1 < q then 1 else q := by
  simp only [saturate, less, decide_eq_true_eq, zero_rat, one_rat]
  split_ifs with h₁ h₂ h₃
  · exact absurd h₂ (by norm_num)
  · rfl
  · rfl
  · rfl

theorem saturate_eq_self_iff {q : ℚ} : saturate q = q ↔ 0 ≤ q ∧ q ≤ 1 := by
  rw [saturate_rat]
  grind

theorem saturate_eq_zero_iff {q : ℚ} : saturate q = 0 ↔ q ≤ 0 := by
  rw [saturate_rat]
  grind

theorem saturate_eq_one_iff {q : ℚ} : saturate q = 1 ↔ 1 ≤ q := by
  rw [saturate_rat]
  grind

theorem saturate_mem (q : ℚ) : 0 ≤ saturate q ∧ saturate q ≤ 1 := by
  rw [saturate_rat]
  grind

@[simp] theorem saturate_zero : saturate (0 : ℚ) = 0 := saturate_eq_self_iff.mpr (by norm_num)

@[simp] theorem saturate_one : saturate (1 : ℚ) = 1 := saturate_eq_self_iff.mpr (by norm_num)

@[simp] theorem safeDiv_zero_left (b : ℚ) : safeDiv 0 b = 0 := by simp [safeDiv]

@[simp] theorem safeDiv_one_right (a : ℚ) : safeDiv a 1 = a := by simp [safeDiv, same]

@[simp] theorem safePow_one_left (b : ℚ) : safePow 1 b = 1 := by
  have hless : less (1 : ℚ) 0 = false := by simp [less]
  simp only [safePow, zero_rat, hless, Bool.false_and, Bool.false_eq_true, if_false]
  exact Elementary.one_pow b

@[simp] theorem safePow_zero_right (a : ℚ) : safePow a 0 = 1 := by
  have hwhole : isWhole (0 : ℚ) = true := by simp [isWhole]
  simp only [safePow, hwhole, Bool.not_true, Bool.and_false, Bool.false_eq_true, if_false]
  exact Elementary.pow_zero a

@[simp] theorem safePow_one_right (a : ℚ) : safePow a 1 = a := by
  have hwhole : isWhole (1 : ℚ) = true := by simp [isWhole]
  simp only [safePow, hwhole, Bool.not_true, Bool.and_false, Bool.false_eq_true, if_false]
  exact Elementary.pow_one a

@[simp] theorem sqrt_zero : sqrt (0 : ℚ) = 0 := Elementary.sqrt_zero

@[simp] theorem abs_zero_rat : abs (0 : ℚ) = 0 := abs_zero

end Scalar

/-- Numbers are restricted to the unit interval without rounding. -/
theorem Binary32.toRat_saturate [Elementary] (x : Binary32) :
    (Scalar.saturate x).toRat = Scalar.saturate x.toRat := by
  have hsat : Scalar.saturate x = if x < 0 then 0 else if 1 < x then 1 else x := by
    simp only [Scalar.saturate, Scalar.less, Scalar.zero, Scalar.one, decide_eq_true_eq]
    split_ifs with h₁ h₂ h₃
    · exact absurd h₂ (by decide)
    · rfl
    · rfl
    · rfl
  simp only [hsat, Scalar.saturate_rat, ← lt_zero_iff, ← one_lt_iff]
  split_ifs
  · exact toRat_zero
  · exact toRat_one
  · rfl

/-- A link joins sockets of one shape. -/
theorem SocketType.sameShape_of_linksTo {a b : SocketType} (h : a.linksTo b = true) :
    (a = .float ↔ b = .float) ∧ a.isFloat3 = b.isFloat3 := by
  revert h
  cases a <;> cases b <;> decide

/-! ### Quantities -/

/-- What a socket carries. -/
inductive Quantity where
  | number (x : ℚ)
  | triple (v : Vec3 ℚ)

namespace Quantity

/-- The quantity where a number is expected. -/
def toNumber : Quantity → ℚ
  | number x => x
  | triple v => v.x

/-- The quantity where a triple is expected. -/
def toTriple : Quantity → Vec3 ℚ
  | number x => .splat x
  | triple v => v

/-- A socket type carries such quantities. -/
def HasType : Quantity → SocketType → Prop
  | number _, type => type = .float
  | triple _, type => type.isFloat3 = true

/-- The number `c`, or the triple that repeats it. -/
def IsConst (c : ℚ) (q : Quantity) : Prop := q = number c ∨ q = triple (.splat c)

/-- Restricts a quantity to the unit interval if so asked. -/
def clampIf [Elementary] (clamped : Bool) : Quantity → Quantity
  | number x => number (if clamped then Scalar.saturate x else x)
  | triple v => triple (if clamped then v.saturate else v)

variable {q q' : Quantity} {c : ℚ} {type type' : SocketType}

theorem IsConst.toNumber_eq (h : q.IsConst c) : q.toNumber = c := by
  rcases h with rfl | rfl <;> rfl

theorem IsConst.toTriple_eq (h : q.IsConst c) : q.toTriple = .splat c := by
  rcases h with rfl | rfl <;> rfl

theorem HasType.eq_number (h : q.HasType .float) : q = number q.toNumber := by
  cases q with
  | number x => rfl
  | triple v => cases h

theorem HasType.eq_triple (h : q.HasType type) (htype : type.isFloat3 = true) :
    q = triple q.toTriple := by
  cases q with
  | number x =>
    rw [HasType] at h
    rw [h] at htype
    cases htype
  | triple v => rfl

theorem HasType.linksTo (h : q.HasType type) (hfit : type.linksTo type' = true) :
    q.HasType type' := by
  obtain ⟨hfloat, hfloat3⟩ := SocketType.sameShape_of_linksTo hfit
  cases q with
  | number x => exact hfloat.mp h
  | triple v => exact hfloat3.symm.trans h

/-- Of each type there is one quantity that repeats a number. -/
theorem HasType.eq_of_isConst (h : q.HasType type) (h' : q'.HasType type) (hq : q.IsConst c)
    (hq' : q'.IsConst c) : q = q' := by
  by_cases htype : type.isFloat3 = true
  · rw [h.eq_triple htype, h'.eq_triple htype, hq.toTriple_eq, hq'.toTriple_eq]
  · cases q with
    | triple v => exact absurd h htype
    | number x =>
      cases q' with
      | triple v => exact absurd h' htype
      | number y =>
        have hx : x = c := hq.toNumber_eq
        have hy : y = c := hq'.toNumber_eq
        rw [hx, hy]

@[simp] theorem clampIf_false [Elementary] (q : Quantity) : q.clampIf false = q := by
  cases q <;> rfl

end Quantity

/-! ### Literals -/

namespace Literal

/-- The quantity that a literal stands for. What is neither a number nor a triple counts as zero. -/
def quantity : Literal → Quantity
  | float x => .number x.toRat
  | int n => .number n.toInt
  | float3 v => .triple (v.map Binary32.toRat)
  | _ => .number 0

variable {l : Literal} {type type' : SocketType}

theorem float_or_float3 (h : l.hasShape type = true) (hfloat : type.isFloating = true) :
    (∃ x, l = .float x ∧ type = .float) ∨ ∃ v, l = .float3 v ∧ type.isFloat3 = true := by
  cases l with
  | float x => exact Or.inl ⟨x, rfl, beq_iff_eq.mp h⟩
  | float3 v => exact Or.inr ⟨v, rfl, h⟩
  | _ =>
    obtain rfl := beq_iff_eq.mp h
    cases hfloat

theorem hasType_quantity (h : l.hasShape type = true) (hfloat : type.isFloating = true) :
    l.quantity.HasType type := by
  obtain ⟨x, rfl, hx⟩ | ⟨v, rfl, hv⟩ := float_or_float3 h hfloat
  · exact hx
  · exact hv

theorem convert_float3 (h : type.isFloat3 = true) (v : Vec3 Binary32) (fromColor : Bool) :
    (float3 v).convert type fromColor = float3 v := by
  cases type with
  | color | vector | point | normal => rfl
  | _ => cases h

/-- A literal of a floating type is stored as it is by an input that the type fits. -/
theorem convert_of_linksTo (h : l.hasShape type = true) (hfloat : type.isFloating = true)
    (hfit : type.linksTo type' = true) : l.convert type' false = l := by
  obtain ⟨hnumber, htriple⟩ := SocketType.sameShape_of_linksTo hfit
  obtain ⟨x, rfl, hx⟩ | ⟨v, rfl, hv⟩ := float_or_float3 h hfloat
  · rw [hnumber.mp hx]
    rfl
  · exact convert_float3 (htriple.symm.trans hv) v false

theorem isConst_quantity_float {x c : Binary32} (h : (x == c) = true) :
    (float x).quantity.IsConst c.toRat :=
  Or.inl (congrArg Quantity.number (Binary32.toRat_congr h))

theorem isConst_quantity_float3 {v : Vec3 Binary32} {c : Binary32} (h : v.all (· == c) = true) :
    (float3 v).quantity.IsConst c.toRat := by
  simp only [Vec3.all, Bool.and_eq_true] at h
  obtain ⟨⟨hx, hy⟩, hz⟩ := h
  refine Or.inr (congrArg Quantity.triple ?_)
  rw [Vec3.map, Binary32.toRat_congr hx, Binary32.toRat_congr hy, Binary32.toRat_congr hz, Vec3.splat]

theorem isConst_quantity_of_isZero (h : l.isZero = true) : l.quantity.IsConst 0 := by
  cases l with
  | float x => exact Binary32.toRat_zero ▸ isConst_quantity_float h
  | int n =>
    obtain rfl : n = 0 := beq_iff_eq.mp h
    exact Or.inl (by simp [quantity])
  | float3 v => exact Binary32.toRat_zero ▸ isConst_quantity_float3 h
  | _ => exact Or.inl rfl

theorem isConst_quantity_of_isOne (h : l.isOne = true) : l.quantity.IsConst 1 := by
  cases l with
  | float x => exact Binary32.toRat_one ▸ isConst_quantity_float h
  | int n =>
    obtain rfl : n = 1 := beq_iff_eq.mp h
    exact Or.inl (by simp [quantity])
  | float3 v => exact Binary32.toRat_one ▸ isConst_quantity_float3 h
  | _ => cases h

theorem isConst_quantity_zero (type : SocketType) : (zero type).quantity.IsConst 0 := by
  cases type with
  | boolean | string | closure => exact Or.inl rfl
  | _ => exact isConst_quantity_of_isZero (by decide +kernel)

theorem hasShape_saturate : l.saturate.hasShape type = l.hasShape type := by
  cases l <;> rfl

theorem quantity_saturate [Elementary] (h : l.hasShape type = true)
    (hfloat : type.isFloating = true) : l.saturate.quantity = l.quantity.clampIf true := by
  obtain ⟨x, rfl, -⟩ | ⟨v, rfl, -⟩ := float_or_float3 h hfloat
  · exact congrArg Quantity.number x.toRat_saturate
  · simp only [saturate, quantity, Quantity.clampIf, if_true, Vec3.saturate, Vec3.map,
      Binary32.toRat_saturate]

end Literal

/-! ### Nodes -/

/-- Arithmetic nodes compute their values, and other nodes nothing. -/
def exactArithmetic [Elementary] : Interpretation Quantity where
  literal := Literal.quantity
  eval
    | .math op clamped, _, [a, b, c] =>
      [Quantity.clampIf clamped (.number (op.eval a.toNumber b.toNumber c.toNumber))]
    | .vectorMath op, _, [a, b, c, k] =>
      let (value, vector) := op.eval a.toTriple b.toTriple c.toTriple k.toNumber
      [.number value, .triple vector]
    | .mix mode clamped, _, [f, a, b] =>
      [Quantity.clampIf clamped (.triple (mode.eval f.toNumber a.toTriple b.toTriple))]
    | _, _, _ => []
  missing := .number 0
  literal_congr a b h := by
    cases a <;> cases b
    case float.float x y => exact congrArg Quantity.number (Binary32.toRat_congr h)
    case int.int m n =>
      obtain rfl : m = n := beq_iff_eq.mp h
      rfl
    case float3.float3 v w =>
      change (v.x == w.x && (v.y == w.y && v.z == w.z)) = true at h
      simp only [Bool.and_eq_true] at h
      simp only [Literal.quantity, Vec3.map, Binary32.toRat_congr h.1, Binary32.toRat_congr h.2.1,
        Binary32.toRat_congr h.2.2]
    all_goals first | rfl | cases h

namespace Graph

variable {g : Graph} {x : NodeId} {n : Node} {v : OutputRef → Quantity}

/-- The outputs that a node is linked to have values of their types. -/
def Assigns (g : Graph) (x : NodeId) (v : OutputRef → Quantity) : Prop :=
  ∀ slot s e, g.linkAt ⟨x, slot⟩ = some s → g.outputDecl? s = some e → (v s).HasType e.type

/-- The assignment of one number to all outputs. -/
def uniform (g : Graph) (c : ℚ) (o : OutputRef) : Quantity :=
  if (g.outputDecl? o).any (·.type.isFloat3) then .triple (.splat c) else .number c

theorem isConst_uniform (g : Graph) (c : ℚ) (o : OutputRef) : (g.uniform c o).IsConst c := by
  unfold uniform
  split_ifs
  · exact Or.inr rfl
  · exact Or.inl rfl

theorem WellFormed.assigns_uniform (hg : g.WellFormed) {k : NodeKind} (hk : g.kind? x = some k)
    (hfloat : ∀ d ∈ k.inputDecls, d.type.isFloating = true) (c : ℚ) : g.Assigns x (g.uniform c) := by
  intro slot s e hs he
  obtain ⟨d, hd⟩ := g.inputDecl?_of_linkAt hs
  have hd' := hfloat d (List.mem_of_getElem? ((hg.inputDecl?_eq hk slot).symm.trans hd))
  obtain ⟨hnumber, htriple⟩ := SocketType.sameShape_of_linksTo (hg.typed _ s d e hs hd he).2
  rw [SocketType.isFloating, Bool.or_eq_true, beq_iff_eq, ← hnumber, ← htriple] at hd'
  by_cases hfloat3 : e.type.isFloat3 = true
  · rw [uniform, he, Option.any_some, if_pos hfloat3]
    exact hfloat3
  · rw [uniform, he, Option.any_some, if_neg hfloat3]
    exact hd'.resolve_right hfloat3

/-- Scalar operations are linked to numbers only, which may be any numbers. -/
theorem WellFormed.assigns_math (hg : g.WellFormed) {op : MathOp} {clamped : Bool}
    (hk : g.kind? x = some (.math op clamped)) (a : OutputRef → ℚ) :
    g.Assigns x fun o => .number (a o) := by
  intro slot s e hs he
  obtain ⟨d, hd⟩ := g.inputDecl?_of_linkAt hs
  have hfloat : ∀ d ∈ (NodeKind.math op clamped).inputDecls, d.type = .float := by
    simp [NodeKind.inputDecls, InputDecl.scalar]
  have hd' := hfloat d (List.mem_of_getElem? ((hg.inputDecl?_eq hk slot).symm.trans hd))
  exact (SocketType.sameShape_of_linksTo (hg.typed _ s d e hs hd he).2).1.mpr hd'

variable [Elementary]

theorem WellFormed.hasType_receivedAt (hg : g.WellFormed) (hv : g.Assigns x v) {slot : Nat}
    {d : InputDecl} (hd : g.inputDecl? ⟨x, slot⟩ = some d) (hfloat : d.type.isFloating = true) :
    (g.receivedAt exactArithmetic v ⟨x, slot⟩).HasType d.type := by
  cases hs : g.linkAt ⟨x, slot⟩ with
  | some s =>
    obtain ⟨e, he⟩ := hg.exists_output hs
    rw [receivedAt_of_link hs]
    exact (hv slot s e hs he).linksTo (hg.typed _ s d e hs hd he).2
  | none =>
    obtain ⟨i, hi, rfl⟩ := Option.map_eq_some_iff.mp hd
    have hl : g.literalAt ⟨x, slot⟩ = some i.literal := by simp [literalAt, hi]
    rw [receivedAt_of_literal hs hl]
    exact Literal.hasType_quantity (hg.shaped _ _ _ hd hl) hfloat

theorem WellFormed.hasType_receives (hg : g.WellFormed) (hv : g.Assigns x v) {k : NodeKind}
    (hk : g.kind? x = some k) {name : String} {i : Nat} (hslot : k.layout.inputSlot? name = some i)
    {d : InputDecl} (hd : k.inputDecls[i]? = some d) (hfloat : d.type.isFloating = true) :
    (g.receives exactArithmetic v x name).HasType d.type := by
  rw [receives_of_inputRef (hg.inputRef_eq hk hslot)]
  exact hg.hasType_receivedAt hv ((hg.inputDecl?_eq hk i).trans hd) hfloat

/-- The result of a scalar operation, before it is clamped. -/
def mathResult (g : Graph) (x : NodeId) (op : MathOp) (v : OutputRef → Quantity) : Quantity :=
  .number (op.eval (g.receives exactArithmetic v x "Value1").toNumber
    (g.receives exactArithmetic v x "Value2").toNumber
    (g.receives exactArithmetic v x "Value3").toNumber)

/-- The results of a vector operation. -/
def vectorResults (g : Graph) (x : NodeId) (op : VectorOp) (v : OutputRef → Quantity) : ℚ × Vec3 ℚ :=
  op.eval (g.receives exactArithmetic v x "Vector1").toTriple
    (g.receives exactArithmetic v x "Vector2").toTriple
    (g.receives exactArithmetic v x "Vector3").toTriple
    (g.receives exactArithmetic v x "Scale").toNumber

/-- The result of a mix, before it is clamped. -/
def mixResult (g : Graph) (x : NodeId) (mode : BlendMode) (v : OutputRef → Quantity) : Quantity :=
  .triple (mode.eval (g.receives exactArithmetic v x "Fac").toNumber
    (g.receives exactArithmetic v x "Color1").toTriple
    (g.receives exactArithmetic v x "Color2").toTriple)

variable (hg : g.WellFormed) (hn : g.node? x = some n)
include hg hn

theorem WellFormed.computed_math {op : MathOp} {clamped : Bool} (hkind : n.kind = .math op clamped) :
    n.computed exactArithmetic v 0 = (g.mathResult x op v).clampIf clamped := by
  have hk : g.kind? x = some (.math op clamped) := by simp [kind?, hn, hkind]
  rw [mathResult, receives_of_inputRef (hg.inputRef_eq hk (i := 0) rfl),
    receives_of_inputRef (hg.inputRef_eq hk (i := 1) rfl),
    receives_of_inputRef (hg.inputRef_eq hk (i := 2) rfl), Node.computed, hg.received_eq hn, hkind]
  rfl

theorem WellFormed.computed_vectorMath {op : VectorOp} (hkind : n.kind = .vectorMath op) :
    n.computed exactArithmetic v 0 = .number (g.vectorResults x op v).1 ∧
      n.computed exactArithmetic v 1 = .triple (g.vectorResults x op v).2 := by
  have hk : g.kind? x = some (.vectorMath op) := by simp [kind?, hn, hkind]
  rw [vectorResults, receives_of_inputRef (hg.inputRef_eq hk (i := 0) rfl),
    receives_of_inputRef (hg.inputRef_eq hk (i := 1) rfl),
    receives_of_inputRef (hg.inputRef_eq hk (i := 2) rfl),
    receives_of_inputRef (hg.inputRef_eq hk (i := 3) rfl), Node.computed, Node.computed,
    hg.received_eq hn, hkind]
  exact ⟨rfl, rfl⟩

theorem WellFormed.computed_mix {mode : BlendMode} {clamped : Bool}
    (hkind : n.kind = .mix mode clamped) :
    n.computed exactArithmetic v 0 = (g.mixResult x mode v).clampIf clamped := by
  have hk : g.kind? x = some (.mix mode clamped) := by simp [kind?, hn, hkind]
  rw [mixResult, receives_of_inputRef (hg.inputRef_eq hk (i := 0) rfl),
    receives_of_inputRef (hg.inputRef_eq hk (i := 1) rfl),
    receives_of_inputRef (hg.inputRef_eq hk (i := 2) rfl), Node.computed, hg.received_eq hn, hkind]
  rfl

end Graph

end Shading
