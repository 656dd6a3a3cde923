import Shading.Proofs.Primitive
import Shading.Proofs.Quantity

/-!
# Nodes that pass for linear

An arithmetic node is affine if each component of each of its results is an affine function of all
that comes over its links, where inputs that are not linked count with their literals. Nodes pass
for linear by their operation and by which of their inputs are linked, and then they are affine, but
for one case: colours that are multiplied with each other, both of them linked, unless the factor
leaves the first one as it is (`affine_iff_of_isLinear`). -/

namespace Shading

/-- What comes over the links of a node, for each slot three numbers. A socket that carries a single
number takes the first of them. -/
abbrev Feed := Nat → Fin 3 → ℚ

/-! ### Affine functions -/

def IsAffine (f : Feed → ℚ) : Prop := ∃ φ : Feed →ᵃ[ℚ] ℚ, ∀ w, f w = φ w

namespace IsAffine

variable {f g : Feed → ℚ}

theorem const (c : ℚ) : IsAffine fun _ => c := ⟨.const ℚ Feed c, fun _ => rfl⟩

theorem proj (slot : Nat) (c : Fin 3) : IsAffine fun w => w slot c :=
  ⟨(LinearMap.proj c ∘ₗ LinearMap.proj slot : Feed →ₗ[ℚ] ℚ).toAffineMap, fun _ => rfl⟩

theorem add (hf : IsAffine f) (hg : IsAffine g) : IsAffine fun w => f w + g w := by
  obtain ⟨φ, hφ⟩ := hf
  obtain ⟨ψ, hψ⟩ := hg
  exact ⟨φ + ψ, fun w => by simp [hφ, hψ]⟩

theorem const_mul (hf : IsAffine f) (c : ℚ) : IsAffine fun w => c * f w := by
  obtain ⟨φ, hφ⟩ := hf
  exact ⟨c • φ, fun w => by simp [hφ]⟩

theorem mul_const (hf : IsAffine f) (c : ℚ) : IsAffine fun w => f w * c := by
  simpa only [mul_comm] using hf.const_mul c

theorem sub (hf : IsAffine f) (hg : IsAffine g) : IsAffine fun w => f w - g w := by
  simpa only [neg_one_mul, ← sub_eq_add_neg] using hf.add (hg.const_mul (-1))

/-- Division by a fixed number, also by zero. -/
theorem safeDiv_const [Elementary] (hf : IsAffine f) (c : ℚ) :
    IsAffine fun w => Scalar.safeDiv (f w) c := by
  by_cases hc : c = 0
  · simpa [Scalar.safeDiv, Scalar.same, hc] using const 0
  · simpa [Scalar.safeDiv, Scalar.same, hc, div_eq_mul_inv] using hf.mul_const c⁻¹

/-- The values of an affine function at the corners of a parallelogram. -/
theorem add_zero_eq (hf : IsAffine f) (a b : Feed) : f (a + b) + f 0 = f a + f b := by
  obtain ⟨φ, hφ⟩ := hf
  have hlin : ∀ w, φ w = φ.linear w + φ 0 := fun w => by
    simpa using φ.map_vadd 0 w
  rw [hφ, hφ, hφ, hφ, hlin (a + b), hlin a, hlin b, map_add]
  ring

end IsAffine

/-- A triple with affine components. -/
structure IsAffineTriple (f : Feed → Vec3 ℚ) : Prop where
  x : IsAffine fun w => (f w).x
  y : IsAffine fun w => (f w).y
  z : IsAffine fun w => (f w).z

theorem IsAffineTriple.const (v : Vec3 ℚ) : IsAffineTriple fun _ => v := ⟨.const _, .const _, .const _⟩

theorem IsAffineTriple.zipWith {op : ℚ → ℚ → ℚ} {f g : Feed → Vec3 ℚ} (hf : IsAffineTriple f)
    (hg : IsAffineTriple g)
    (hop : ∀ {a b : Feed → ℚ}, IsAffine a → IsAffine b → IsAffine fun w => op (a w) (b w)) :
    IsAffineTriple fun w => Vec3.zipWith op (f w) (g w) :=
  ⟨hop hf.x hg.x, hop hf.y hg.y, hop hf.z hg.z⟩

theorem IsAffineTriple.zipWith_const {op : ℚ → ℚ → ℚ} {f : Feed → Vec3 ℚ} (hf : IsAffineTriple f)
    (v : Vec3 ℚ) (hop : ∀ {a : Feed → ℚ} (c : ℚ), IsAffine a → IsAffine fun w => op (a w) c) :
    IsAffineTriple fun w => Vec3.zipWith op (f w) v :=
  ⟨hop _ hf.x, hop _ hf.y, hop _ hf.z⟩

theorem IsAffineTriple.const_zipWith {op : ℚ → ℚ → ℚ} {f : Feed → Vec3 ℚ} (hf : IsAffineTriple f)
    (v : Vec3 ℚ) (hop : ∀ {a : Feed → ℚ} (c : ℚ), IsAffine a → IsAffine fun w => op c (a w)) :
    IsAffineTriple fun w => Vec3.zipWith op v (f w) :=
  ⟨hop _ hf.x, hop _ hf.y, hop _ hf.z⟩

/-! ### Inputs and results -/

namespace Input

/-- The quantity that an input takes from its link, or else from its literal. -/
def taken (i : Input) (w : Fin 3 → ℚ) : Quantity :=
  if i.isLinked then if i.type.isFloat3 then .triple ⟨w 0, w 1, w 2⟩ else .number (w 0)
  else i.literal.quantity

variable {i j : Input}

theorem taken_of_unlinked (h : i.link = none) (w : Fin 3 → ℚ) : i.taken w = i.literal.quantity := by
  simp [taken, isLinked, h]

theorem taken_of_float3 (h : i.link ≠ none) (h3 : i.type.isFloat3 = true) (w : Fin 3 → ℚ) :
    i.taken w = .triple ⟨w 0, w 1, w 2⟩ := by
  simp [taken, isLinked, Option.isSome_iff_ne_none.mpr h, h3]

theorem isAffine_toNumber (i : Input) (slot : Nat) :
    IsAffine fun w => (i.taken (w slot)).toNumber := by
  unfold taken
  split_ifs
  · exact .proj slot 0
  · exact .proj slot 0
  · exact .const _

theorem isAffineTriple_toTriple (i : Input) (slot : Nat) :
    IsAffineTriple fun w => (i.taken (w slot)).toTriple := by
  unfold taken
  split_ifs
  · exact ⟨.proj slot 0, .proj slot 1, .proj slot 2⟩
  · exact ⟨.proj slot 0, .proj slot 0, .proj slot 0⟩
  · exact .const _

/-- A product of which one factor is fixed. -/
theorem isAffine_mul (h : i.link = none ∨ j.link = none) (slot slot' : Nat) :
    IsAffine fun w => (i.taken (w slot)).toNumber * (j.taken (w slot')).toNumber := by
  rcases h with h | h
  · simpa only [taken_of_unlinked h] using (j.isAffine_toNumber slot').const_mul _
  · simpa only [taken_of_unlinked h] using (i.isAffine_toNumber slot).mul_const _

theorem isAffineTriple_mul (h : i.link = none ∨ j.link = none) (slot slot' : Nat) :
    IsAffineTriple fun w =>
      Vec3.zipWith (· * ·) (i.taken (w slot)).toTriple (j.taken (w slot')).toTriple := by
  rcases h with h | h
  · simp only [taken_of_unlinked h]
    exact (j.isAffineTriple_toTriple slot').const_zipWith _ fun c ha => ha.const_mul c
  · simp only [taken_of_unlinked h]
    exact (i.isAffineTriple_toTriple slot).zipWith_const _ fun c ha => ha.mul_const c

end Input

theorem exists_of_map_three {α β : Type} {f : α → β} {l : List α} {a b c : β} (h : l.map f = [a, b, c]) :
    ∃ x y z, l = [x, y, z] ∧ f x = a ∧ f y = b ∧ f z = c := by
  obtain ⟨x, rest, rfl, hx, hrest⟩ := List.map_eq_cons_iff.mp h
  obtain ⟨y, rest, rfl, hy, hrest⟩ := List.map_eq_cons_iff.mp hrest
  obtain ⟨z, rest, rfl, hz, hrest⟩ := List.map_eq_cons_iff.mp hrest
  obtain rfl := List.map_eq_nil_iff.mp hrest
  exact ⟨x, y, z, rfl, hx, hy, hz⟩

/-- One of the numbers that a quantity is made of. -/
def Quantity.component : Quantity → Fin 3 → ℚ
  | .number x, _ => x
  | .triple v, 0 => v.x
  | .triple v, 1 => v.y
  | .triple v, 2 => v.z

theorem IsAffineTriple.component {f : Feed → Vec3 ℚ} (h : IsAffineTriple f) (c : Fin 3) :
    IsAffine fun w => (Quantity.triple (f w)).component c := by
  match c with
  | 0 => exact h.x
  | 1 => exact h.y
  | 2 => exact h.z

/-- The kind of a node without the clamping of a scalar operation, which is a step of its own. -/
def NodeKind.withoutMathClamp : NodeKind → NodeKind
  | .math op _ => .math op false
  | k => k

/-- The kinds of nodes that compute with numbers. -/
def NodeKind.IsArithmetic : NodeKind → Prop
  | .math .. | .vectorMath _ | .mix .. => True
  | _ => False

namespace Node

theorem Sound.map_inputs {n : Node} (hn : n.Sound) :
    n.inputs.map (·.toInputDecl) = n.kind.inputDecls := congrArg Layout.inputs hn.laidOut

theorem Sound.link_eq {n : Node} (hn : n.Sound) {name : String} {j : Nat}
    (hslot : n.kind.layout.inputSlot? name = some j) {i : Input} (hi : n.inputs[j]? = some i) :
    i.link = n.link? name := by
  rw [link?, input?_of_layout hn.laidOut hslot, hi]
  rfl

theorem Sound.quantity_eq {n : Node} (hn : n.Sound) {name : String} {j : Nat}
    (hslot : n.kind.layout.inputSlot? name = some j) {i : Input} (hi : n.inputs[j]? = some i)
    (hty : i.type = .float) : i.literal.quantity = .number (n.float name).toRat := by
  have hshape := hn.shaped i (List.mem_of_getElem? hi)
  obtain ⟨x, hx, -⟩ | ⟨_, -, h3⟩ := Literal.float_or_float3 hshape (by rw [hty]; rfl)
  · rw [float, literal?, input?_of_layout hn.laidOut hslot, hi, Option.map_some, hx]
    rfl
  · rw [hty] at h3
    cases h3

/-- With at most one link, one of two inputs is not linked. -/
theorem unlinked_or {n : Node} {i j : Input} {rest : List Input} (h : n.inputs = i :: j :: rest)
    (hl : n.links.length ≤ 1) : i.link = none ∨ j.link = none := by
  rw [links, h] at hl
  cases hi : i.link with
  | none => exact Or.inl rfl
  | some o =>
    cases hj : j.link with
    | none => exact Or.inr rfl
    | some o' => simp [hi, hj] at hl

variable [Elementary]

/-- What a node computes from what comes over its links. -/
def results (n : Node) (w : Feed) : List Quantity :=
  exactArithmetic.eval n.kind.withoutMathClamp n.bump (n.inputs.mapIdx fun slot i => i.taken (w slot))

/-- Each component of each result is an affine function of what comes over all the links. -/
def Affine (n : Node) : Prop :=
  ∀ (output : Nat) (c : Fin 3), IsAffine fun w => ((n.results w).getD output (.number 0)).component c

variable {n : Node}

theorem affine_of_number {f : Feed → ℚ} (h : ∀ w, n.results w = [.number (f w)]) (hf : IsAffine f) :
    n.Affine := by
  intro output c
  simp only [h]
  rcases output with _ | output
  · exact hf
  · exact .const 0

theorem affine_of_number_triple {f : Feed → ℚ} {v : Feed → Vec3 ℚ}
    (h : ∀ w, n.results w = [.number (f w), .triple (v w)]) (hf : IsAffine f)
    (hv : IsAffineTriple v) : n.Affine := by
  intro output c
  simp only [h]
  rcases output with _ | _ | output
  · exact hf
  · exact hv.component c
  · exact .const 0

theorem affine_of_triple {v : Feed → Vec3 ℚ} (h : ∀ w, n.results w = [.triple (v w)])
    (hv : IsAffineTriple v) : n.Affine := by
  intro output c
  simp only [h]
  rcases output with _ | output
  · exact hv.component c
  · exact .const 0

/-! ### The operations -/

theorem affine_math (hn : n.Sound) {op : MathOp} {clamped : Bool} (hk : n.kind = .math op clamped)
    (h : n.isLinear = true) : n.Affine := by
  obtain ⟨i₁, i₂, i₃, hin, -⟩ := exists_of_map_three (hn.map_inputs.trans (by rw [hk]; rfl))
  have hres : ∀ w, n.results w = [.number (op.eval (i₁.taken (w 0)).toNumber
      (i₂.taken (w 1)).toNumber (i₃.taken (w 2)).toNumber)] := by
    intro w
    rw [results, hk, hin]
    rfl
  refine affine_of_number hres ?_
  simp only [isLinear, hk] at h
  cases op with
  | add => exact (i₁.isAffine_toNumber 0).add (i₂.isAffine_toNumber 1)
  | subtract => exact (i₁.isAffine_toNumber 0).sub (i₂.isAffine_toNumber 1)
  | multiply => exact Input.isAffine_mul (unlinked_or hin (of_decide_eq_true h)) 0 1
  | multiplyAdd =>
    exact (Input.isAffine_mul (unlinked_or hin (of_decide_eq_true h)) 0 1).add
      (i₃.isAffine_toNumber 2)
  | divide =>
    have hlink : i₂.link = n.link? "Value2" :=
      hn.link_eq (j := 1) (by rw [hk]; rfl) (by rw [hin]; rfl)
    simp only [MathOp.eval, Input.taken_of_unlinked (hlink.trans (by simpa [isLinked] using h))]
    exact (i₁.isAffine_toNumber 0).safeDiv_const _
  | _ => cases h

theorem affine_vectorMath (hn : n.Sound) {op : VectorOp} (hk : n.kind = .vectorMath op)
    (h : n.isLinear = true) : n.Affine := by
  obtain ⟨i₁, rest, hin, -, hrest⟩ := List.map_eq_cons_iff.mp
    (hn.map_inputs.trans (by rw [hk]; rfl))
  obtain ⟨i₂, i₃, i₄, rfl, -⟩ := exists_of_map_three hrest
  have hres : ∀ w, n.results w =
      [.number (op.eval (i₁.taken (w 0)).toTriple (i₂.taken (w 1)).toTriple
          (i₃.taken (w 2)).toTriple (i₄.taken (w 3)).toNumber).1,
        .triple (op.eval (i₁.taken (w 0)).toTriple (i₂.taken (w 1)).toTriple
          (i₃.taken (w 2)).toTriple (i₄.taken (w 3)).toNumber).2] := by
    intro w
    rw [results, hk, hin]
    rfl
  have h₁ := i₁.isAffineTriple_toTriple 0
  have h₂ := i₂.isAffineTriple_toTriple 1
  simp only [isLinear, hk] at h
  cases op with
  | add => exact affine_of_number_triple hres (.const 0) (h₁.zipWith h₂ .add)
  | subtract => exact affine_of_number_triple hres (.const 0) (h₁.zipWith h₂ .sub)
  | multiply =>
    have hmul := Input.isAffineTriple_mul (unlinked_or hin (of_decide_eq_true h)) 0 1
    exact affine_of_number_triple hres (.const 0) hmul
  | multiplyAdd =>
    have hmul := Input.isAffineTriple_mul (unlinked_or hin (of_decide_eq_true h)) 0 1
    exact affine_of_number_triple hres (.const 0)
      (hmul.zipWith (i₃.isAffineTriple_toTriple 2) .add)
  | divide =>
    have hlink : i₂.link = n.link? "Vector2" :=
      hn.link_eq (j := 1) (by rw [hk]; rfl) (by rw [hin]; rfl)
    have hfixed := Input.taken_of_unlinked (hlink.trans (by simpa [isLinked] using h))
    refine affine_of_number_triple hres (.const 0) ?_
    simp only [VectorOp.eval, hfixed]
    exact h₁.zipWith_const _ fun c ha => ha.safeDiv_const c
  | _ => cases h

/-- The result of a mix whose factor is fixed. -/
theorem exists_results_mix (hn : n.Sound) {mode : BlendMode} (hk : n.kind = .mix mode false)
    (hfac : n.link? "Fac" = none) : ∃ i j : Input, i.link = n.link? "Color1" ∧
      j.link = n.link? "Color2" ∧ i.type = .color ∧ j.type = .color ∧
      ∀ w, n.results w = [.triple (mode.eval (n.float "Fac").toRat (i.taken (w 1)).toTriple
        (j.taken (w 2)).toTriple)] := by
  obtain ⟨f, i, j, hin, hf, hi, hj⟩ := exists_of_map_three (hn.map_inputs.trans (by rw [hk]; rfl))
  have hflink : f.link = n.link? "Fac" := hn.link_eq (j := 0) (by rw [hk]; rfl) (by rw [hin]; rfl)
  have hquantity : f.literal.quantity = .number (n.float "Fac").toRat :=
    hn.quantity_eq (j := 0) (by rw [hk]; rfl) (by rw [hin]; rfl) (congrArg InputDecl.type hf)
  refine ⟨i, j, hn.link_eq (j := 1) (by rw [hk]; rfl) (by rw [hin]; rfl),
    hn.link_eq (j := 2) (by rw [hk]; rfl) (by rw [hin]; rfl), congrArg InputDecl.type hi,
    congrArg InputDecl.type hj, fun w => ?_⟩
  have htaken := (f.taken_of_unlinked (hflink.trans hfac) (w 0)).trans hquantity
  rw [results, hk, hin]
  change [Quantity.clampIf false (.triple (mode.eval (f.taken (w 0)).toNumber _ _))] = _
  rw [htaken]
  rfl

/-- The products of two colours are affine if one of them is fixed, or if the factor leaves nothing
of the second one. -/
theorem affine_multiply_iff (hn : n.Sound) (hk : n.kind = .mix .multiply false)
    (hfac : n.link? "Fac" = none) : n.Affine ↔
      n.link? "Color1" = none ∨ n.link? "Color2" = none ∨ (n.float "Fac").toRat ≤ 0 := by
  obtain ⟨i, j, hi, hj, hti, htj, hres⟩ := exists_results_mix hn hk hfac
  have h₁ := i.isAffineTriple_toTriple 1
  have h₂ := j.isAffineTriple_toTriple 2
  rw [← hi, ← hj, ← Scalar.saturate_eq_zero_iff]
  simp only [BlendMode.eval] at hres
  generalize Scalar.saturate (n.float "Fac").toRat = t at hres ⊢
  constructor
  · intro h
    by_contra hne
    obtain ⟨hi', hj', ht⟩ := not_or.mp hne |>.imp_right not_or.mp
    refine ht ?_
    have hval : ∀ w, ((n.results w).getD 0 (.number 0)).component 0 =
        w 1 0 * (1 - t + t * w 2 0) := by
      intro w
      rw [hres, i.taken_of_float3 hi' (by rw [hti]; rfl), j.taken_of_float3 hj' (by rw [htj]; rfl)]
      rfl
    -- The corners of a square on which only the two colours vary.
    have hcorners := (h 0 0).add_zero_eq (Pi.single 1 1) (Pi.single 2 1)
    simp only [hval] at hcorners
    simp at hcorners
    linarith
  · rintro (hi' | hj' | ht)
    · refine affine_of_triple hres ?_
      simp only [i.taken_of_unlinked hi']
      exact h₂.const_zipWith _ fun c ha => ((IsAffine.const _).add (ha.const_mul t)).const_mul c
    · refine affine_of_triple hres ?_
      simp only [j.taken_of_unlinked hj']
      exact h₁.zipWith_const _ fun c ha => ha.mul_const _
    · refine affine_of_triple hres (h₁.zipWith h₂ fun ha _ => ?_)
      simpa [ht] using ha

theorem affine_mix (hn : n.Sound) {mode : BlendMode} (hk : n.kind = .mix mode false)
    (hfac : n.link? "Fac" = none) (hmode : mode = .blend ∨ mode = .add ∨ mode = .subtract) :
    n.Affine := by
  obtain ⟨i, j, -, -, -, -, hres⟩ := exists_results_mix hn hk hfac
  have h₁ := i.isAffineTriple_toTriple 1
  have h₂ := j.isAffineTriple_toTriple 2
  refine affine_of_triple hres ?_
  rcases hmode with rfl | rfl | rfl <;> simp only [BlendMode.eval, Vec3.lerp] <;>
    refine h₁.zipWith h₂ fun ha hb => ?_
  · exact ha.add ((hb.sub ha).mul_const _)
  · exact ha.add (hb.const_mul _)
  · exact ha.sub (hb.const_mul _)

/-- **Nodes that pass for linear are affine, but for products of two colours.** -/
theorem affine_iff_of_isLinear (hn : n.Sound) (harith : n.kind.IsArithmetic)
    (h : n.isLinear = true) : n.Affine ↔
      ¬ (n.kind = .mix .multiply false ∧ n.isLinked "Color1" = true ∧ n.isLinked "Color2" = true ∧
        0 < (n.float "Fac").toRat) := by
  cases hk : n.kind with
  | math op clamped => simp [affine_math hn hk h]
  | vectorMath op => simp [affine_vectorMath hn hk h]
  | mix mode clamped =>
    have hfixed : clamped = false ∧ n.link? "Fac" = none ∧
        (mode = .blend ∨ mode = .add ∨ mode = .subtract ∨ mode = .multiply) := by
      simp only [isLinear, hk] at h
      cases mode <;> simp_all [isLinked]
    obtain ⟨rfl, hfac, hmode⟩ := hfixed
    by_cases hmul : mode = .multiply
    · subst hmul
      rw [affine_multiply_iff hn hk hfac]
      simp only [isLinked]
      cases n.link? "Color1" <;> cases n.link? "Color2" <;> simp
    · have haffine := affine_mix hn hk hfac (by tauto)
      simp [haffine, hmul]
  | _ =>
    rw [hk] at harith
    exact harith.elim

/-- A colour that is multiplied with a tint, where both come over links. -/
def tinted (fac : Binary32) : Graph := Primitive.runAll
  [.addKind .color, .addKind (.namedAttribute "tint"), .addKind (.mix .multiply false),
    .storeNamed 3 "Fac" (.float fac), .connect ⟨1, 0⟩ ⟨3, 1⟩, .connect ⟨2, 0⟩ ⟨3, 2⟩] Graph.empty

omit [Elementary] in
theorem exists_tinted (fac : Binary32) : ∃ n, (tinted fac).node? 3 = some n ∧ n.Sound ∧
    n.kind = .mix .multiply false ∧ n.link? "Fac" = none ∧ n.isLinked "Color1" = true ∧
    n.isLinked "Color2" = true ∧ n.float "Fac" = fac := by
  have hg : (tinted fac).WellFormed := (Primitive.follows_runAll Graph.wellFormed_empty _).wellFormed
  have hfacts : ((tinted fac).node? 3).map (fun n =>
      (n.kind, n.link? "Fac", n.isLinked "Color1", n.isLinked "Color2", n.float "Fac")) =
      some (.mix .multiply false, none, true, true, fac) := by rfl
  obtain ⟨n, hn, heq⟩ := Option.map_eq_some_iff.mp hfacts
  simp only [Prod.mk.injEq] at heq
  exact ⟨n, hn, hg.node_sound hn, heq⟩

omit [Elementary] in
/-- With a factor of zero the tint does not matter. -/
theorem affine_iff_of_isLinear_untinted : letI : Elementary := .simplest
    ∃ n, (tinted 0).node? 3 = some n ∧ n.Sound ∧ n.kind.IsArithmetic ∧ n.isLinear = true ∧
      n.isLinked "Color1" = true ∧ n.isLinked "Color2" = true ∧ n.Affine := by
  let _ : Elementary := .simplest
  obtain ⟨n, hn, hsound, hk, hfac, h₁, h₂, hzero⟩ := exists_tinted 0
  have hlinear : n.isLinear = true := by simp [isLinear, hk, isLinked, hfac]
  have harith : n.kind.IsArithmetic := by rw [hk]; trivial
  refine ⟨n, hn, hsound, harith, hlinear, h₁, h₂,
    (@affine_iff_of_isLinear .simplest n hsound harith hlinear).mpr ?_⟩
  simp [hzero, Binary32.toRat_zero]

omit [Elementary] in
/-- A mix of two linked colours passes for linear with a factor of one half, but is not affine. -/
theorem isLinear_not_affine : letI : Elementary := .simplest
    ∃ n, (tinted 0.5).node? 3 = some n ∧ n.kind.IsArithmetic ∧ n.isLinear = true ∧ ¬ n.Affine := by
  let _ : Elementary := .simplest
  obtain ⟨n, hn, hsound, hk, hfac, h₁, h₂, hhalf⟩ := exists_tinted 0.5
  refine ⟨n, hn, by rw [hk]; trivial, by simp [isLinear, hk, isLinked, hfac], ?_⟩
  rw [affine_multiply_iff hsound hk hfac, hhalf]
  have hpos : ¬ (0.5 : Binary32).toRat ≤ 0 := by
    have h : (0.5 : Binary32).unpacked = .finite .positive (2 ^ 23) (-24) (by decide) := by rfl
    rw [Binary32.toRat, h, valueOf]
    norm_num
  simp only [isLinked, Option.isSome_iff_ne_none] at h₁ h₂
  exact not_or.mpr ⟨h₁, not_or.mpr ⟨h₂, hpos⟩⟩

end Node

end Shading
