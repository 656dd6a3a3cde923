import Mathlib
import Shading.Literal

/-!
# Comparing numbers

Numbers are compared by their values. The test `==` is symmetric, for numbers and for literals,
though it is not reflexive. A number is unpacked, packed and unpacked again before it is compared,
which makes no difference (`unpack_pack_unpack`), so that numbers compare as they are
(`Binary32.beq_eq`, `Binary32.lt_iff`). Each number that is no NaN has a rational value
(`Binary32.toRat`). Whether two numbers differ by zero depends on their values alone
(`Binary32.sub_beq_zero_congr`). -/

namespace Shading

open Float.Model UnpackedFloat

theorem unpack_of_isNaNBits {spec : Format} {b : BitVec spec.numBits} (hb : isNaNBits b = true) :
    UnpackedFloat.unpack spec b = .notANumber := by
  obtain ⟨hexp, hman⟩ := of_decide_eq_true hb
  simp only [UnpackedFloat.unpack, hexp, hman, if_true, if_false]

theorem unpack_pack_unpack (b : BitVec 32) :
    UnpackedFloat.unpack .binary32
        (UnpackedFloat.pack .binary32 (UnpackedFloat.unpack .binary32 b)) =
      UnpackedFloat.unpack .binary32 b := by
  rw [@UnpackedFloat.pack_unpack .binary32 b (by decide)]
  split_ifs with hb
  · rw [unpack_packedNaN, unpack_of_isNaNBits hb]
  · rfl

namespace Binary32

/-- The sign, the significand and the exponent of a number. -/
def unpacked (x : Binary32) : UnpackedFloat := UnpackedFloat.unpack .binary32 x.bits.toBitVec

theorem beq_eq (x y : Binary32) : (x == y) = x.unpacked.beq y.unpacked := by
  show (UnpackedFloat.beq (UnpackedFloat.unpack .binary32 (UnpackedFloat.pack .binary32 _))
    (UnpackedFloat.unpack .binary32 (UnpackedFloat.pack .binary32 _))) = _
  rw [unpack_pack_unpack, unpack_pack_unpack]
  rfl

theorem lt_iff (x y : Binary32) : x < y ↔ x.unpacked.lt y.unpacked = true := by
  have h : x < y ↔ UnpackedFloat.lt
      (UnpackedFloat.unpack .binary32 (UnpackedFloat.pack .binary32 x.unpacked))
      (UnpackedFloat.unpack .binary32 (UnpackedFloat.pack .binary32 y.unpacked)) = true := by
    show decide (_ = true) = true ↔ _
    rw [decide_eq_true_iff]
    rfl
  rw [h, unpacked, unpacked, unpack_pack_unpack, unpack_pack_unpack]

theorem beq_comm (a b : Binary32) : (a == b) = (b == a) :=
  BEq.comm (a := a.toFloat32) (b := b.toFloat32)

end Binary32

theorem Vec3.beq_comm (v w : Vec3 Binary32) : (v == w) = (w == v) := by
  show (v.x == w.x && (v.y == w.y && v.z == w.z)) = (w.x == v.x && (w.y == v.y && w.z == v.z))
  rw [v.x.beq_comm, v.y.beq_comm, v.z.beq_comm]

theorem Literal.beq_comm (a b : Literal) : (a == b) = (b == a) := by
  cases a <;> cases b
  case boolean.boolean a b => exact BEq.comm (a := a) (b := b)
  case float.float a b => exact a.beq_comm b
  case int.int a b => exact BEq.comm (a := a) (b := b)
  case float3.float3 a b => exact a.beq_comm b
  case string.string a b => exact BEq.comm (a := a) (b := b)
  all_goals rfl

theorem Literal.option_beq_comm (a b : Option Literal) : (a == b) = (b == a) := by
  cases a <;> cases b
  case some.some a b => exact a.beq_comm b
  all_goals rfl

/-! ### Values -/

/-- The value of a finite number. An infinity counts as `2 ^ 128`, and a NaN as zero. -/
def valueOf : UnpackedFloat → ℚ
  | .finite .positive m e _ => m * 2 ^ e
  | .finite .negative m e _ => -(m * 2 ^ e)
  | .infinity .positive => 2 ^ 128
  | .infinity .negative => -2 ^ 128
  | .zero _ | .notANumber => 0

theorem valueOf_congr {a b : UnpackedFloat} (h : a.beq b = true) : valueOf a = valueOf b := by
  obtain ⟨-, -, rfl | ⟨rfl, rfl⟩ | ⟨rfl, rfl⟩⟩ := (beq_iff_ne_notANumber_and_eq a b).mp h
  all_goals rfl

namespace Binary32

def isFinite (x : Binary32) : Bool := x.exponentField != 255

def toRat (x : Binary32) : ℚ := valueOf x.unpacked

theorem toRat_congr {x y : Binary32} (h : (x == y) = true) : x.toRat = y.toRat := by
  rw [beq_eq] at h
  exact valueOf_congr h

theorem toRat_zero : (0 : Binary32).toRat = 0 := by
  have h : (0 : Binary32).unpacked = .zero .positive := by rfl
  rw [toRat, h, valueOf]

theorem toRat_one : (1 : Binary32).toRat = 1 := by
  have h : (1 : Binary32).unpacked = .finite .positive (2 ^ 23) (-23) (by decide) := by rfl
  rw [toRat, h, valueOf]
  norm_num

/-- There are two zeros. -/
theorem eq_of_beq_zero {x : Binary32} (h : (x == 0) = true) : x = ⟨0⟩ ∨ x = ⟨0x80000000⟩ := by
  have hzero : ∃ s, x.unpacked = .zero s := by
    rw [beq_eq, show (0 : Binary32).unpacked = .zero .positive by rfl] at h
    obtain ⟨-, -, hx | ⟨hx, -⟩ | ⟨hx, -⟩⟩ := (beq_iff_ne_notANumber_and_eq ..).mp h
    all_goals exact ⟨_, hx⟩
  obtain ⟨s, hs⟩ := hzero
  unfold unpacked UnpackedFloat.unpack at hs
  dsimp only at hs
  split_ifs at hs with h₁ h₂ h₃ h₄
  have he : x.bits.toNat >>> 23 % 256 = 0 := by
    simpa [unpackExponent] using congrArg BitVec.toNat h₃
  have hm : x.bits.toNat % 2 ^ 23 = 0 := by
    simpa [unpackMantissa] using congrArg BitVec.toNat h₄
  have hlt := x.bits.toNat_lt
  rw [Nat.shiftRight_eq_div_pow] at he
  have hbits : x.bits.toNat = 0 ∨ x.bits.toNat = 0x80000000 := by omega
  obtain ⟨bits⟩ := x
  exact hbits.imp (fun h => congrArg mk (UInt32.toNat_inj.mp h)) fun h =>
    congrArg mk (UInt32.toNat_inj.mp h)

/-- The significand of a finite number has 24 bits, unless the exponent is the least one. -/
theorem unpacked_finite {x : Binary32} {s : Sign} {m : Nat} {e : Int} {h : 0 < m}
    (hx : x.unpacked = .finite s m e h) : m < 2 ^ 24 ∧ (2 ^ 23 ≤ m ∨ e = -149) := by
  unfold unpacked UnpackedFloat.unpack at hx
  dsimp only at hx
  have hm := (@unpackMantissa .binary32 x.bits.toBitVec).isLt
  split_ifs at hx with h₁ h₂ h₃ h₄
  · cases hx
    refine ⟨Nat.lt_trans hm (by decide), Or.inr ?_⟩
    rw [h₃]
    decide
  · cases hx
    refine ⟨BitVec.isLt _, Or.inl ?_⟩
    rw [BitVec.toNat_append]
    exact Nat.left_le_or

theorem lt_zero_iff (x : Binary32) : x < 0 ↔ x.toRat < 0 := by
  rw [lt_iff, show (0 : Binary32).unpacked = .zero .positive by rfl, toRat]
  cases x.unpacked with
  | notANumber | zero s => simp [UnpackedFloat.lt, UnpackedFloat.compare, valueOf]
  | infinity s => cases s <;> simp [UnpackedFloat.lt, UnpackedFloat.compare, valueOf]
  | finite s m e hm =>
    have hpos : (0 : ℚ) < m * 2 ^ e := by positivity
    cases s with
    | positive => simpa [UnpackedFloat.lt, UnpackedFloat.compare, valueOf] using hpos.le
    | negative => simpa [UnpackedFloat.lt, UnpackedFloat.compare, valueOf] using hpos

/-- Exponents are compared before significands. This agrees with the values because a number above
the least exponent has all its bits. -/
theorem one_lt_iff (x : Binary32) : 1 < x ↔ 1 < x.toRat := by
  rw [lt_iff, show (1 : Binary32).unpacked = .finite .positive (2 ^ 23) (-23) (by decide) by rfl,
    toRat]
  cases hx : x.unpacked with
  | notANumber | zero s => norm_num [UnpackedFloat.lt, UnpackedFloat.compare, valueOf]
  | infinity s => cases s <;> norm_num [UnpackedFloat.lt, UnpackedFloat.compare, valueOf]
  | finite s m e hm =>
    cases s with
    | positive =>
      obtain ⟨hlt, hge⟩ := unpacked_finite hx
      rw [UnpackedFloat.lt, UnpackedFloat.compare, beq_iff_eq, Option.some.injEq,
        Ordering.then_eq_lt, compare_lt_iff_lt, compare_eq_iff_eq, compare_lt_iff_lt, valueOf]
      rcases lt_trichotomy (-23) e with he | rfl | he
      · have hm' : (2 : ℚ) ^ 23 ≤ m := by exact_mod_cast hge.resolve_right (by omega)
        have hbig : (1 : ℚ) < m * 2 ^ e := by
          calc (1 : ℚ) < 2 ^ 23 * 2 ^ (-22 : ℤ) := by norm_num
            _ ≤ m * 2 ^ e := mul_le_mul hm' (zpow_le_zpow_right₀ (by norm_num) (by omega))
              (by positivity) (by positivity)
        simp [he, hbig]
      · have hunit : (m * 2 ^ (-23 : ℤ) : ℚ) = m / 2 ^ 23 := by
          rw [zpow_neg, ← div_eq_mul_inv]
          norm_cast
        rw [hunit, one_lt_div (by positivity)]
        norm_cast
        simp
      · have hm' : (m : ℚ) < 2 ^ 24 := by exact_mod_cast hlt
        have hsmall : (m * 2 ^ e : ℚ) ≤ 1 := by
          calc (m * 2 ^ e : ℚ) ≤ 2 ^ 24 * 2 ^ (-24 : ℤ) :=
                mul_le_mul hm'.le (zpow_le_zpow_right₀ (by norm_num) (by omega)) (by positivity)
                  (by positivity)
            _ = 1 := by norm_num
        simp [he.ne', he.not_gt, hsmall]
    | negative =>
      have hneg : (-(m * 2 ^ e) : ℚ) ≤ 1 := by
        have hpos : (0 : ℚ) < m * 2 ^ e := by positivity
        linarith
      rw [UnpackedFloat.lt, UnpackedFloat.compare, valueOf]
      simp [hneg]

theorem add_one_of_beq_zero {x : Binary32} (h : (x == 0) = true) : (x + 1 == 1) = true := by
  rcases eq_of_beq_zero h with rfl | rfl <;> decide +kernel

/-! ### Differences -/

theorem unpacked_inj {x y : Binary32} (hx : x.unpacked ≠ .notANumber) (h : x.unpacked = y.unpacked) :
    x = y := by
  have hpack : ∀ z : Binary32, z.unpacked ≠ .notANumber →
      UnpackedFloat.pack .binary32 z.unpacked = z.bits.toBitVec := by
    intro z hz
    rw [unpacked, @UnpackedFloat.pack_unpack .binary32 z.bits.toBitVec (by decide), if_neg]
    exact fun hn => hz (unpack_of_isNaNBits hn)
  obtain ⟨x⟩ := x
  obtain ⟨y⟩ := y
  refine congrArg mk (UInt32.toBitVec_inj.mp ?_)
  rw [← hpack ⟨x⟩ hx, ← hpack ⟨y⟩ (h ▸ hx), h]

/-- Numbers with the same value have the same bits, unless they are zeros. -/
theorem eq_or_zero_of_beq {x y : Binary32} (h : (x == y) = true) :
    x = y ∨ (x == 0) = true ∧ (y == 0) = true := by
  rw [beq_eq] at h
  obtain ⟨hx, -, heq⟩ := (beq_iff_ne_notANumber_and_eq ..).mp h
  refine heq.imp (unpacked_inj hx) fun hzero => ?_
  simp only [beq_eq, show (0 : Binary32).unpacked = .zero .positive by rfl]
  rcases hzero with ⟨hx, hy⟩ | ⟨hx, hy⟩ <;> rw [hx, hy] <;> decide

theorem beq_zero_congr {x y : Binary32} (h : x = y ∨ (x == y) = true) : (x == 0) = (y == 0) := by
  rcases h with rfl | h
  · rfl
  · rcases eq_or_zero_of_beq h with rfl | ⟨hx, hy⟩
    · rfl
    · rw [hx, hy]

theorem toFloat32_sub_congr {x y x' y' : Binary32}
    (h : UnpackedFloat.sub .binary32 x.unpacked y.unpacked =
      UnpackedFloat.sub .binary32 x'.unpacked y'.unpacked) :
    x.toFloat32 - y.toFloat32 = x'.toFloat32 - y'.toFloat32 := by
  have hunpack : ∀ x : Binary32, x.toFloat32.toModel.unpack = x.unpacked := fun _ =>
    unpack_pack_unpack _
  refine congrArg (fun u => (⟨Float32.Model.pack u⟩ : Float32)) ?_
  rwa [hunpack, hunpack, hunpack, hunpack]

/-- A number that is no zero may be taken from either zero, and either zero from it. -/
theorem sub_zero_congr {x : Binary32} (hx : (x == 0) = false) :
    (⟨0⟩ - x : Binary32) = ⟨0x80000000⟩ - x ∧ (x - ⟨0⟩ : Binary32) = x - ⟨0x80000000⟩ := by
  have hne : ∀ s, x.unpacked ≠ .zero s := by
    intro s h
    rw [beq_eq, h] at hx
    cases s <;> exact absurd hx (by decide)
  have hsub : UnpackedFloat.sub .binary32 (⟨0⟩ : Binary32).unpacked x.unpacked =
        UnpackedFloat.sub .binary32 (⟨0x80000000⟩ : Binary32).unpacked x.unpacked ∧
      UnpackedFloat.sub .binary32 x.unpacked (⟨0⟩ : Binary32).unpacked =
        UnpackedFloat.sub .binary32 x.unpacked (⟨0x80000000⟩ : Binary32).unpacked := by
    cases hu : x.unpacked with
    | zero s => exact absurd hu (hne s)
    | _ => exact ⟨rfl, rfl⟩
  have hzero : (⟨0⟩ : Binary32).isNaN = false ∧ (⟨0x80000000⟩ : Binary32).isNaN = false := by decide
  constructor
  · show apply₂ (· - ·) _ _ = apply₂ (· - ·) _ _
    simp only [apply₂, hzero, toFloat32_sub_congr hsub.1, Bool.false_eq_true, if_false]
  · show apply₂ (· - ·) _ _ = apply₂ (· - ·) _ _
    simp only [apply₂, hzero, toFloat32_sub_congr hsub.2, Bool.false_eq_true, if_false]

/-- Whether a difference is zero depends on the values of the numbers. -/
theorem sub_beq_zero_congr {x y x' y' : Binary32} (hx : x = x' ∨ (x == x') = true)
    (hy : y = y' ∨ (y == y') = true) : (x - y == 0) = (x' - y' == 0) := by
  have hsplit : ∀ {a a' : Binary32}, a = a' ∨ (a == a') = true → a = a' ∨
      (a = ⟨0⟩ ∨ a = ⟨0x80000000⟩) ∧ (a' = ⟨0⟩ ∨ a' = ⟨0x80000000⟩) := by
    rintro a a' (h | h)
    · exact Or.inl h
    · exact (eq_or_zero_of_beq h).imp_right fun hz => ⟨eq_of_beq_zero hz.1, eq_of_beq_zero hz.2⟩
  have hzero : ∀ {z z' : Binary32}, z = ⟨0⟩ ∨ z = ⟨0x80000000⟩ → z' = ⟨0⟩ ∨ z' = ⟨0x80000000⟩ →
      (z - z' == 0) = true := by
    rintro _ _ (rfl | rfl) (rfl | rfl) <;> decide +kernel
  have hone : ∀ {a z z' : Binary32}, z = ⟨0⟩ ∨ z = ⟨0x80000000⟩ → z' = ⟨0⟩ ∨ z' = ⟨0x80000000⟩ →
      (z - a == 0) = (z' - a == 0) ∧ (a - z == 0) = (a - z' == 0) := by
    intro a z z' hz hz'
    by_cases ha : (a == 0) = true
    · have ha' := eq_of_beq_zero ha
      rw [hzero hz ha', hzero hz' ha', hzero ha' hz, hzero ha' hz']
      exact ⟨rfl, rfl⟩
    · obtain ⟨hl, hr⟩ := sub_zero_congr (Bool.eq_false_iff.mpr ha)
      rcases hz with rfl | rfl <;> rcases hz' with rfl | rfl <;> simp [hl, hr]
  rcases hsplit hx with rfl | ⟨hz, hz'⟩
  · rcases hsplit hy with rfl | ⟨hw, hw'⟩
    · rfl
    · exact (hone hw hw').2
  · rcases hsplit hy with rfl | ⟨hw, hw'⟩
    · exact (hone hz hz').1
    · rw [hzero hz hw, hzero hz' hw']

end Binary32

end Shading
