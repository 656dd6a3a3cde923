import Mathlib.Algebra.GroupWithZero.Nat
import Mathlib.Tactic.Common
import Shading.Digest.Blake3

/-!
# Bytes and digests

A number or a text can be read back from its bytes, and a list of bytes from its hexadecimal form. A
digest always has 32 bytes, so the end of one can be found in a longer list. -/

namespace Shading

theorem UInt8.ofNat_inj_mod {m n : Nat} : UInt8.ofNat m = UInt8.ofNat n ↔ m % 256 = n % 256 := by
  rw [← UInt8.toNat_inj, UInt8.toNat_ofNat', UInt8.toNat_ofNat']

@[simp] theorem length_littleEndian (count n : Nat) : (littleEndian count n).length = count := by
  simp [littleEndian]

theorem littleEndian_succ (count n : Nat) :
    littleEndian (count + 1) n = UInt8.ofNat n :: littleEndian count (n / 256) := by
  rw [littleEndian, List.range_succ_eq_map, List.map_cons, List.map_map, littleEndian]
  refine congrArg₂ _ (by simp) (List.map_congr_left fun i _ => ?_)
  simp only [Function.comp_apply, Nat.shiftRight_eq_div_pow, Nat.div_div_eq_div_mul]
  rw [Nat.mul_succ, Nat.add_comm, Nat.pow_add]

/-- A number that fits is known from its bytes. -/
theorem littleEndian_inj {count m n : Nat} (hm : m < 256 ^ count) (hn : n < 256 ^ count)
    (h : littleEndian count m = littleEndian count n) : m = n := by
  induction count generalizing m n with
  | zero => rw [Nat.lt_one_iff.mp hm, Nat.lt_one_iff.mp hn]
  | succ count ih =>
    rw [littleEndian_succ, littleEndian_succ, List.cons.injEq, UInt8.ofNat_inj_mod] at h
    rw [Nat.pow_succ] at hm hn
    have hdiv := ih (Nat.div_lt_of_lt_mul (by omega)) (Nat.div_lt_of_lt_mul (by omega)) h.2
    omega

/-! ### Texts -/

theorem toList_loop_eq (bytes : ByteArray) (i : Nat) (r : List UInt8) :
    ByteArray.toList.loop bytes i r = r.reverse ++ bytes.data.toList.drop i := by
  fun_induction ByteArray.toList.loop bytes i r with
  | case1 i r hi ih =>
    have hlt : i < bytes.data.toList.length := hi
    have hget : bytes.get! i = bytes.data.toList[i] := by
      rw [Array.getElem_toList]
      exact getElem!_pos bytes.data i hi
    rw [ih, List.reverse_cons, List.append_assoc, List.singleton_append,
      List.drop_eq_getElem_cons hlt, hget]
  | case2 i r hi => rw [List.drop_eq_nil_of_le (Nat.not_lt.mp hi), List.append_nil]

theorem utf8_eq (s : String) : utf8 s = s.toByteArray.data.toList := by
  rw [utf8, ByteArray.toList, toList_loop_eq]
  simp

theorem utf8_append (s t : String) : utf8 (s ++ t) = utf8 s ++ utf8 t := by
  simp [utf8_eq]

theorem utf8_injective : Function.Injective utf8 := by
  intro s t h
  rw [utf8_eq, utf8_eq] at h
  exact String.toByteArray_inj.mp (ByteArray.ext (Array.toList_inj.mp h))

/-- The names in a list can be told apart from the start: none is the beginning of another one. -/
def PrefixFree (names : List String) : Prop :=
  names.Pairwise fun a b => ¬ utf8 a <+: utf8 b ∧ ¬ utf8 b <+: utf8 a

instance (names : List String) : Decidable (PrefixFree names) := by
  unfold PrefixFree; infer_instance

/-- One of these names is known from where it stands, whatever follows it. -/
theorem PrefixFree.append_inj {names : List String} (h : PrefixFree names) {i j : Nat}
    {a b : String} (ha : names[i]? = some a) (hb : names[j]? = some b) {r r' : List UInt8}
    (heq : utf8 a ++ r = utf8 b ++ r') : i = j ∧ r = r' := by
  obtain ⟨hi, rfl⟩ := List.getElem?_eq_some_iff.mp ha
  obtain ⟨hj, rfl⟩ := List.getElem?_eq_some_iff.mp hb
  have hor := List.prefix_or_prefix_of_prefix (List.prefix_append (utf8 names[i]) r)
    (heq ▸ List.prefix_append (utf8 names[j]) r')
  rcases Nat.lt_trichotomy i j with hlt | rfl | hlt
  · obtain ⟨h₁, h₂⟩ := List.pairwise_iff_getElem.mp h i j hi hj hlt
    exact (hor.elim h₁ h₂).elim
  · exact ⟨rfl, List.append_cancel_left heq⟩
  · obtain ⟨h₁, h₂⟩ := List.pairwise_iff_getElem.mp h j i hj hi hlt
    exact (hor.elim h₂ h₁).elim

theorem PrefixFree.append_inj_of_mem {names : List String} (h : PrefixFree names) {a b : String}
    (ha : a ∈ names) (hb : b ∈ names) {r r' : List UInt8} (heq : utf8 a ++ r = utf8 b ++ r') :
    a = b := by
  obtain ⟨i, hi⟩ := List.mem_iff_getElem?.mp ha
  obtain ⟨j, hj⟩ := List.mem_iff_getElem?.mp hb
  obtain ⟨rfl, -⟩ := h.append_inj hi hj heq
  exact Option.some.inj (hi.symm.trans hj)

namespace Blake3

theorem length_hash (bytes : List UInt8) : (hash bytes).length = 32 := by
  simp [hash, List.length_flatMap, List.map_const']

theorem hexDigit_inj : ∀ m < 16, ∀ n < 16, hexDigit m = hexDigit n → m = n := by decide

/-- Bytes can be read back from their digits. -/
theorem hex_injective : Function.Injective hex := by
  intro bs cs h
  replace h := String.ofList_injective h
  induction bs generalizing cs with
  | nil =>
    cases cs with
    | nil => rfl
    | cons c cs => simp at h
  | cons b bs ih =>
    cases cs with
    | nil => simp at h
    | cons c cs =>
      simp only [List.flatMap_cons, List.cons_append, List.nil_append, List.cons.injEq] at h
      obtain ⟨hhigh, hlow, hrest⟩ := h
      have hb := b.toNat_lt
      have hc := c.toNat_lt
      have hhigh' := hexDigit_inj _ (by omega) _ (by omega) hhigh
      have hlow' := hexDigit_inj _ (by omega) _ (by omega) hlow
      have hbc : b = c := UInt8.toNat_inj.mp (by omega)
      rw [hbc, ih hrest]

theorem hex_hash_ne_empty (bytes : List UInt8) : hex (hash bytes) ≠ "" := by
  intro h
  have hnil : hash bytes = [] := hex_injective h
  simpa [hnil] using length_hash bytes

end Blake3

end Shading
