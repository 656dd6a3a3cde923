import Shading.Proofs.Exact

/-!
# Whole numbers in binary32

A whole number whose binary digits, up to trailing zeros, are at most 24 is a binary32 number
(`unpacked_ofInt`). The whole part of a binary32 number is of this kind. So an integer survives the
way to a number and back if it has such digits, and, but for the largest one, only then
(`toInt32_ofInt32_eq_iff`). One that was read off a number always does (`toInt32_ofInt32_toInt32`). -/

namespace Shading

open Float.Model UnpackedFloat

/-! ### Rounding without loss -/

theorem repeat_shiftRightOne (m k : Nat) :
    k.repeat ExtendedMantissa.shiftRightOne ⟨m * 2 ^ k, false, false⟩ = ⟨m, false, false⟩ := by
  induction k generalizing m with
  | zero => simp [Nat.repeat]
  | succ k ih =>
    have hsplit : m * 2 ^ (k + 1) = (m * 2) * 2 ^ k := by ring
    rw [Nat.repeat, hsplit, ih]
    simp [ExtendedMantissa.shiftRightOne]

section

variable {m : Nat} (hlow : 2 ^ 23 ≤ m) (hhigh : m < 2 ^ 24)
include hlow hhigh

theorem log2_mul_two_pow (k : Nat) : (m * 2 ^ k).log2 = 23 + k := by
  have hpos : 0 < 2 ^ k := Nat.two_pow_pos k
  rw [Nat.log2_eq_iff (by positivity), Nat.pow_add, show 23 + k + 1 = 24 + k by omega, Nat.pow_add]
  exact ⟨Nat.mul_le_mul_right _ hlow, Nat.mul_lt_mul_of_pos_right hhigh hpos⟩

/-- Zeros at the end of a significand are shifted out. -/
theorem shiftToTargetExponent_mul (k : Nat) {e : Int} (he : -149 ≤ e + k) :
    shiftToTargetExponent .binary32 (m * 2 ^ k) e .exact = (⟨m, false, false⟩, e + k) := by
  have htarget : Format.binary32.targetExponent (totalExponent (m * 2 ^ k) e) = e + k := by
    rw [totalExponent, log2_mul_two_pow hlow hhigh, Format.targetExponent]
    change max ((23 + k : Nat) + 1 + e - 24) (-149) = e + k
    omega
  have hshift : (e + k - e).toNat = k := by omega
  rw [shiftToTargetExponent, htarget, shiftToExponent, hshift]
  exact congrArg (·, e + (k : Int)) (repeat_shiftRightOne m k)

theorem roundWithAccuracy_mul (s : Sign) (k : Nat) {e : Int} (he : -149 ≤ e + k) :
    roundWithAccuracy .binary32 s (m * 2 ^ k) e .exact =
      .finite s m (e + k) (by omega) := by
  have hagain : shiftToTargetExponent .binary32 m (e + k) .exact = (⟨m, false, false⟩, e + k) := by
    simpa using shiftToTargetExponent_mul hlow hhigh 0 (e := e + k) (by simpa using he)
  have hround : ExtendedMantissa.roundedMantissa ⟨m, false, false⟩ = m := rfl
  simp only [roundWithAccuracy, shiftToTargetExponent_mul hlow hhigh k he, hround, hagain]
  rw [dif_neg (by omega)]

theorem toNat_one_append : (1#1 ++ BitVec.ofNat 23 m).toNat = m := by
  have hfraction : (BitVec.ofNat 23 m).toNat = m - 2 ^ 23 := by
    rw [BitVec.toNat_ofNat]
    omega
  rw [BitVec.toNat_append, hfraction]
  change (1 <<< 23) ||| (m - 2 ^ 23) = m
  rw [← Nat.shiftLeft_add_eq_or_of_lt (by omega)]
  omega

/-- A number with all its bits is packed and unpacked without loss. -/
theorem unpack_pack_finite (s : Sign) {e : Int} (he : -149 ≤ e) (he' : e ≤ 104) :
    UnpackedFloat.unpack .binary32 (UnpackedFloat.pack .binary32 (.finite s m e (by omega))) =
      .finite s m e (by omega) := by
  obtain ⟨b, rfl⟩ : ∃ b : Nat, e = b - 150 := ⟨(e + 150).toNat, by omega⟩
  have hlog : m.log2 + 1 = Format.binary32.mantissaBits := by
    change m.log2 + 1 = 23 + 1
    rw [Nat.add_right_cancel_iff, Nat.log2_eq_iff (by omega)]
    exact ⟨hlow, hhigh⟩
  have hpack : UnpackedFloat.pack .binary32 (.finite s m (b - 150) (by omega)) =
      packComponents .binary32 s (BitVec.ofNat 8 b) (BitVec.ofNat 23 m) := by
    have hbias : ((b : Int) - 150 + Format.binary32.exponentBias +
        Format.binary32.mantissaBitsWithoutImplicit).toNat = b := by
      change ((b : Int) - 150 + (127 : Nat) + (23 : Nat)).toNat = b
      omega
    simp only [UnpackedFloat.pack, hbias]
    rw [if_neg (by omega), if_pos hlog]
  have hb : (BitVec.ofNat 8 b).toNat = b := by
    rw [BitVec.toNat_ofNat]
    omega
  have hne : ∀ c : BitVec 8, c.toNat ≠ b → BitVec.ofNat 8 b ≠ c := by
    rintro c hc rfl
    exact hc hb
  rw [hpack]
  simp only [UnpackedFloat.unpack, unpackMantissa_packComponents, unpackExponent_packComponents,
    unpackSign_packComponents]
  rw [if_neg (hne _ (by change 255 ≠ b; omega)), if_neg (hne _ (by change 0 ≠ b; omega))]
  have hsign : Sign.ofBitVec s.toBitVec = s := by cases s <;> rfl
  simp only [toNat_one_append hlow hhigh, hb, hsign]
  rfl

end

/-! ### Whole numbers -/

/-- The number has a significand of 24 bits, which the exponent brings to a given magnitude. -/
structure Normalizes (n m k : Nat) : Prop where
  low : 2 ^ 23 ≤ m
  high : m < 2 ^ 24
  exponent : k ≤ 31
  eq : n * 2 ^ 23 = m * 2 ^ k

namespace Normalizes

variable {n m k : Nat} (h : Normalizes n m k)
include h

theorem pos : 0 < m := Nat.lt_of_lt_of_le (by decide) h.low

theorem ne_zero : n ≠ 0 := by
  rintro rfl
  have := Nat.mul_pos h.pos (Nat.two_pow_pos k)
  rw [← h.eq] at this
  omega

theorem log2_eq : n.log2 = k := by
  have hlow : 2 ^ k * 2 ^ 23 ≤ n * 2 ^ 23 := by
    rw [h.eq, Nat.mul_comm]
    exact Nat.mul_le_mul_right _ h.low
  have hhigh : n * 2 ^ 23 < 2 ^ (k + 1) * 2 ^ 23 := by
    rw [h.eq, show 2 ^ (k + 1) * 2 ^ 23 = 2 ^ 24 * 2 ^ k by ring]
    exact Nat.mul_lt_mul_of_pos_right h.high (Nat.two_pow_pos k)
  rw [Nat.log2_eq_iff h.ne_zero]
  exact ⟨Nat.le_of_mul_le_mul_right hlow (by decide), Nat.lt_of_mul_lt_mul_right hhigh⟩

/-- What comes out of one rounding can be packed. -/
theorem unpack_pack_round {j : Nat} {e : Int} (he : e + j = k - 23) :
    (Float32.Model.pack (roundWithAccuracy .binary32 .positive (m * 2 ^ j) e .exact)).unpack =
      .finite .positive m (k - 23) h.pos := by
  have hk := h.exponent
  rw [roundWithAccuracy_mul h.low h.high .positive j (by omega)]
  simp only [he]
  exact unpack_pack_finite h.low h.high .positive (by omega) (by omega)

theorem unpack_ofScientific :
    (Float32.Model.ofScientific n 0).unpack = .finite .positive m (k - 23) h.pos := by
  have hproduct : n <<< 24 * 10 ^ 0 = m * 2 ^ (k + 1) := by
    rw [Nat.shiftLeft_eq, pow_zero, mul_one, show n * 2 ^ 24 = n * 2 ^ 23 * 2 by ring, h.eq]
    ring
  have hround : UnpackedFloat.ofScientific .binary32 n 0 =
      roundWithAccuracy .binary32 .positive (n <<< 24 * 10 ^ 0) (-24) .exact := by
    have hlarge : ¬ (0 : Int) < -((2 ^ 8 : Int) + n.log2) := by omega
    rw [UnpackedFloat.ofScientific, dif_neg h.ne_zero, if_neg (by decide), if_neg hlarge,
      if_pos (by decide)]
    rfl
  rw [Float32.Model.ofScientific, hround, hproduct]
  exact h.unpack_pack_round (by push_cast; omega)

theorem unpack_ofUInt64 (hn : n < 2 ^ 23) :
    (Float32.Model.ofUInt64 n.toUInt64).unpack = .finite .positive m (k - 23) h.pos := by
  have hk : k ≤ 22 := by
    rw [← h.log2_eq, ← Nat.lt_succ_iff]
    exact (Nat.log2_lt h.ne_zero).mpr hn
  have hshift : n <<< (23 - k) = m := by
    have hsplit : 2 ^ 23 = 2 ^ (23 - k) * 2 ^ k := by rw [← Nat.pow_add]; congr 1; omega
    have heq := h.eq
    rw [hsplit, ← Nat.mul_assoc] at heq
    rw [Nat.shiftLeft_eq]
    exact Nat.eq_of_mul_eq_mul_right (Nat.two_pow_pos k) heq
  have htarget : Format.binary32.targetExponent (totalExponent n 0) = k - 23 := by
    rw [totalExponent, h.log2_eq, Format.targetExponent]
    change max ((k : Int) + 1 + 0 - 24) (-149) = k - 23
    omega
  have hround : UnpackedFloat.ofUInt64 .binary32 n.toUInt64 =
      roundWithAccuracy .binary32 .positive (m * 2 ^ 0) (k - 23) .exact := by
    have hsize : n.toUInt64.toNat = n := by
      rw [Nat.toUInt64_eq, UInt64.toNat_ofNat']
      omega
    have hcompare : compare (n : Int) 0 = .gt := by
      rw [compare_gt_iff_gt]
      have := h.ne_zero
      omega
    rw [UnpackedFloat.ofUInt64, hsize, UnpackedFloat.ofNat, UnpackedFloat.ofInt,
      UnpackedFloat.normalize, hcompare]
    simp only [UnpackedFloat.round, Int.toNat_natCast, htarget, decreaseExponent]
    rw [show (0 - ((k : Int) - 23)).toNat = 23 - k by omega, hshift, pow_zero, mul_one,
      show (0 : Int) - ((23 - k : Nat) : Int) = k - 23 by omega]
  rw [Float32.Model.ofUInt64, hround]
  exact h.unpack_pack_round (by simp)

theorem unpack_ofNat : (Float32.ofNat n).toModel.unpack = .finite .positive m (k - 23) h.pos := by
  change (Float32.ofScientific n false 0).toModel.unpack = _
  unfold Float32.ofScientific
  by_cases hn : n < 2 ^ 23
  · rw [dif_pos ⟨hn, by decide⟩]
    -- A small number is multiplied with one.
    change (Float32.Model.pack (UnpackedFloat.mul .binary32 (Float32.Model.ofUInt64 n.toUInt64).unpack
      (Float32.Model.ofBits 0x3F800000).unpack)).unpack = _
    have hone : (Float32.Model.ofBits 0x3F800000).unpack =
        .finite .positive (2 ^ 23) (-23) (by decide) := by rfl
    rw [h.unpack_ofUInt64 hn, hone]
    exact h.unpack_pack_round (by push_cast; omega)
  · rw [dif_neg fun hc => hn hc.1]
    exact h.unpack_ofScientific

end Normalizes

namespace Binary32

theorem unpacked_ofFloat32 {f : Float32} {s : Sign} {m : Nat} {e : Int} {hm : 0 < m}
    (h : f.toModel.unpack = .finite s m e hm) : (ofFloat32 f).unpacked = .finite s m e hm := by
  have hnan : f.isNaN = false := by
    change f.toModel.unpack.isNaN = false
    rw [h]
    rfl
  rw [ofFloat32, hnan, if_neg Bool.false_ne_true]
  exact h

/-- A whole number that binary32 can hold is held as it is. -/
theorem unpacked_ofInt {z : Int} {m k : Nat} (h : Normalizes z.natAbs m k) : (ofInt z).unpacked =
    .finite (if z < 0 then .negative else .positive) m (k - 23) h.pos := by
  refine unpacked_ofFloat32 ?_
  cases z with
  | ofNat n => exact h.unpack_ofNat
  | negSucc n =>
    have hk := h.exponent
    rw [if_pos (Int.negSucc_lt_zero n)]
    have hnat : (Float32.ofNat (n + 1)).toModel.unpack = _ := h.unpack_ofNat
    change (Float32.Model.pack (Float32.ofNat (n + 1)).toModel.unpack.neg).unpack = _
    rw [hnat]
    exact unpack_pack_finite h.low h.high .negative (by omega) (by omega)

theorem toNat_unpackExponent (x : Binary32) :
    (@unpackExponent .binary32 x.bits.toBitVec).toNat = x.exponentField := by
  simp [unpackExponent, exponentField]

theorem toNat_unpackMantissa (x : Binary32) :
    (@unpackMantissa .binary32 x.bits.toBitVec).toNat = x.fractionField := by
  simp [unpackMantissa, fractionField]

theorem isNegative_iff (x : Binary32) :
    x.isNegative = true ↔ Sign.ofBitVec (@unpackSign .binary32 x.bits.toBitVec) = .negative := by
  have hlt := x.bits.toNat_lt
  have hbit : (@unpackSign .binary32 x.bits.toBitVec).toNat = x.bits.toNat / 2 ^ 31 % 2 := by
    simp [unpackSign, Nat.shiftRight_eq_div_pow]
  have hsign : Sign.ofBitVec (@unpackSign .binary32 x.bits.toBitVec) = .negative ↔
      (@unpackSign .binary32 x.bits.toBitVec).toNat ≠ 0 := by
    rw [Sign.ofBitVec]
    split_ifs with h
    · simp [h]
    · exact iff_of_true rfl fun h' => h (BitVec.eq_of_toNat_eq h')
  rw [isNegative, decide_eq_true_eq, hsign, hbit]
  change 2147483648 ≤ x.bits.toNat ↔ _
  omega

/-- The fields of a number with all its bits. -/
theorem fields_of_unpacked {x : Binary32} {s : Sign} {m : Nat} {e : Int} {hm : 0 < m}
    (hx : x.unpacked = .finite s m e hm) (hlow : 2 ^ 23 ≤ m) :
    x.significand = m ∧ (x.scale : Int) = e + 150 ∧ x.isNaN = false ∧
      (x.isNegative = true ↔ s = .negative) := by
  unfold unpacked UnpackedFloat.unpack at hx
  dsimp only at hx
  have hfraction := (@unpackMantissa .binary32 x.bits.toBitVec).isLt
  split_ifs at hx with h₁ h₂ h₃ h₄
  · -- A subnormal number lacks the first bit.
    cases hx
    exact absurd hlow (Nat.not_le.mpr hfraction)
  · have hne : x.exponentField ≠ 0 := by
      rw [← toNat_unpackExponent]
      exact fun h => h₃ (BitVec.eq_of_toNat_eq h)
    have hne' : x.exponentField ≠ 255 := by
      rw [← toNat_unpackExponent]
      exact fun h => h₁ (BitVec.eq_of_toNat_eq h)
    cases hx
    refine ⟨?_, ?_, by simp [isNaN, hne'], isNegative_iff x⟩
    · rw [significand, if_neg hne, BitVec.toNat_append, toNat_unpackMantissa]
      exact Nat.shiftLeft_add_eq_or_of_lt (toNat_unpackMantissa x ▸ hfraction) 1
    · rw [scale, toNat_unpackExponent]
      change _ = (x.exponentField : Int) - ((127 : Nat) + (23 : Nat)) + 150
      omega

theorem wholePart_ofInt {z : Int} {m k : Nat} (h : Normalizes z.natAbs m k) :
    (ofInt z).wholePart = z := by
  obtain ⟨hsig, hscale, hnan, hneg⟩ := fields_of_unpacked (unpacked_ofInt h) h.low
  have hmag : (ofInt z).wholeMagnitude = z.natAbs := by
    have heq := h.eq
    rw [wholeMagnitude, hsig]
    split_ifs with hk
    · have hsplit : 2 ^ k = 2 ^ ((ofInt z).scale - 150) * 2 ^ 23 := by
        rw [← Nat.pow_add]
        congr 1
        omega
      rw [hsplit, ← Nat.mul_assoc] at heq
      rw [Nat.shiftLeft_eq]
      exact (Nat.eq_of_mul_eq_mul_right (by decide) heq).symm
    · have hsplit : 2 ^ 23 = 2 ^ (150 - (ofInt z).scale) * 2 ^ k := by
        rw [← Nat.pow_add]
        congr 1
        omega
      rw [hsplit, ← Nat.mul_assoc] at heq
      rw [Nat.shiftRight_eq_div_pow, ← Nat.eq_of_mul_eq_mul_right (Nat.two_pow_pos k) heq,
        Nat.mul_div_cancel _ (Nat.two_pow_pos _)]
  have hsign : (ofInt z).isNegative = true ↔ z < 0 := by
    rw [hneg]
    split_ifs with hz <;> simp [hz]
  rw [wholePart, hnan, if_neg Bool.false_ne_true, hmag]
  simp only [hsign]
  omega

/-- The whole part of a number has at most 24 digits before its trailing zeros. -/
theorem exists_natAbs_wholePart_eq (x : Binary32) :
    ∃ a j : Nat, a < 2 ^ 24 ∧ x.wholePart.natAbs = a * 2 ^ j := by
  have hfraction : x.fractionField < 2 ^ 23 := Nat.mod_lt _ (by decide)
  have hsig : x.significand < 2 ^ 24 := by
    rw [significand]
    split_ifs
    · omega
    · change 2 ^ 23 + _ < _
      omega
  have hmag : ∃ a j : Nat, a < 2 ^ 24 ∧ x.wholeMagnitude = a * 2 ^ j := by
    rw [wholeMagnitude]
    split_ifs
    · exact ⟨_, _, hsig, Nat.shiftLeft_eq _ _⟩
    · exact ⟨_, 0, Nat.lt_of_le_of_lt (Nat.shiftRight_le _ _) hsig, (Nat.mul_one _).symm⟩
  rw [wholePart]
  split_ifs
  · exact ⟨0, 0, by decide, rfl⟩
  · simpa using hmag
  · simpa using hmag

theorem exists_normalizes {a j : Nat} (ha : a < 2 ^ 24) (hpos : a ≠ 0) (hle : a * 2 ^ j ≤ 2 ^ 31) :
    ∃ m k, Normalizes (a * 2 ^ j) m k := by
  have hl : a.log2 ≤ 23 := Nat.lt_succ_iff.mp ((Nat.log2_lt hpos).mpr ha)
  obtain ⟨hlow, hhigh⟩ := (Nat.log2_eq_iff hpos).mp (rfl : a.log2 = a.log2)
  have hsplit : ∀ i, 2 ^ (i + 23) = 2 ^ (a.log2 + i) * 2 ^ (23 - a.log2) := fun i => by
    rw [← Nat.pow_add]
    congr 1
    omega
  refine ⟨a * 2 ^ (23 - a.log2), j + a.log2, ?_, ?_, ?_, ?_⟩
  · rw [show 2 ^ 23 = 2 ^ a.log2 * 2 ^ (23 - a.log2) from hsplit 0]
    exact Nat.mul_le_mul_right _ hlow
  · rw [show 2 ^ 24 = 2 ^ (a.log2 + 1) * 2 ^ (23 - a.log2) from hsplit 1]
    exact Nat.mul_lt_mul_of_pos_right hhigh (Nat.two_pow_pos _)
  · refine (Nat.pow_le_pow_iff_right (by decide : 1 < 2)).mp (Nat.le_trans ?_ hle)
    rw [Nat.add_comm, Nat.pow_add]
    exact Nat.mul_le_mul_right _ hlow
  · have h0 : 2 ^ 23 = 2 ^ a.log2 * 2 ^ (23 - a.log2) := hsplit 0
    rw [h0, Nat.pow_add]
    ring

theorem wholePart_ofInt_of_natAbs {z : Int} {a j : Nat} (ha : a < 2 ^ 24) (hz : z.natAbs = a * 2 ^ j)
    (hle : z.natAbs ≤ 2 ^ 31) : (ofInt z).wholePart = z := by
  by_cases hzero : a = 0
  · obtain rfl : z = 0 := by simpa [hzero] using hz
    decide +kernel
  · obtain ⟨m, k, h⟩ := exists_normalizes ha hzero (hz ▸ hle)
    exact wholePart_ofInt (hz ▸ h)

/-! ### There and back -/

/-- Whether an integer survives the way to a number and back. Its binary digits behind the first 24
have to be zeros. The largest integer survives besides: it goes to the next power of two, from where
it comes back since there is no larger integer. -/
def keeps (n : Int32) : Bool :=
  n == Int32.maxValue || n.toInt.natAbs % 2 ^ (n.toInt.natAbs.log2 - 23) == 0

theorem mod_two_pow_log2_eq_zero_iff {n : Nat} :
    n % 2 ^ (n.log2 - 23) = 0 ↔ ∃ a j, a < 2 ^ 24 ∧ n = a * 2 ^ j := by
  constructor
  · intro h
    have hcancel := Nat.div_mul_cancel (Nat.dvd_of_mod_eq_zero h)
    refine ⟨n / 2 ^ (n.log2 - 23), n.log2 - 23, ?_, hcancel.symm⟩
    refine Nat.div_lt_of_lt_mul (Nat.lt_of_lt_of_le Nat.lt_log2_self ?_)
    rw [← Nat.pow_add]
    exact Nat.pow_le_pow_right (by decide) (by omega)
  · rintro ⟨a, j, ha, rfl⟩
    by_cases hzero : a * 2 ^ j = 0
    · rw [hzero, Nat.zero_mod]
    · have hlt : a * 2 ^ j < 2 ^ (24 + j) := by
        rw [Nat.pow_add]
        exact Nat.mul_lt_mul_of_pos_right ha (Nat.two_pow_pos j)
      have hlog := (Nat.log2_lt hzero).mpr hlt
      exact Nat.mod_eq_zero_of_dvd (Nat.dvd_mul_left_of_dvd (Nat.pow_dvd_pow 2 (by omega)) a)

theorem keeps_iff {n : Int32} : keeps n = true ↔
    n = Int32.maxValue ∨ ∃ a j, a < 2 ^ 24 ∧ n.toInt.natAbs = a * 2 ^ j := by
  rw [keeps, Bool.or_eq_true, beq_iff_eq, beq_iff_eq, mod_two_pow_log2_eq_zero_iff]

/-- An integer that is read off a number is the whole part of the number, or lies at an end of the
range. -/
theorem keeps_toInt32 (x : Binary32) : keeps x.toInt32 = true := by
  obtain ⟨v, hv⟩ : ∃ v, v = min (max (wholePart x) (-0x80000000)) 0x7fffffff := ⟨_, rfl⟩
  have hx : x.toInt32 = Int32.ofInt v := by rw [toInt32, hv]
  have hint : x.toInt32.toInt = v := by
    rw [hx]
    exact Int32.toInt_ofInt_of_le (by omega) (by omega)
  rw [keeps_iff, hint, hx]
  by_cases htop : v = 0x7fffffff
  · exact Or.inl (htop ▸ rfl)
  · refine Or.inr ?_
    by_cases hbottom : v = -0x80000000
    · exact ⟨1, 31, by decide, hbottom ▸ rfl⟩
    · obtain rfl : v = x.wholePart := by omega
      exact x.exists_natAbs_wholePart_eq

theorem toInt32_ofInt32_of_keeps {n : Int32} (h : keeps n = true) : (ofInt32 n).toInt32 = n := by
  rcases keeps_iff.mp h with rfl | ⟨a, j, ha, hn⟩
  · decide +kernel
  · have hlow := n.le_toInt
    have hhigh := n.toInt_lt
    rw [ofInt32, toInt32, wholePart_ofInt_of_natAbs ha hn (by omega), max_eq_left (by omega),
      min_eq_left (by omega), Int32.ofInt_toInt]

/-- **Which integers survive the way to a number and back.** -/
theorem toInt32_ofInt32_eq_iff {n : Int32} : (ofInt32 n).toInt32 = n ↔ keeps n = true :=
  ⟨fun h => h ▸ keeps_toInt32 (ofInt32 n), toInt32_ofInt32_of_keeps⟩

/-- An integer that was read off a number survives. -/
theorem toInt32_ofInt32_toInt32 (x : Binary32) : (ofInt32 x.toInt32).toInt32 = x.toInt32 :=
  toInt32_ofInt32_of_keeps (keeps_toInt32 x)

end Binary32

end Shading
