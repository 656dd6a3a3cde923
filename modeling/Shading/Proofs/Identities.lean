import Shading.Fold.Shortcut
import Shading.Proofs.Quantity

/-!
# Shortcuts over the rationals

The algebraic identities behind the shortcuts. A test may miss a zero or a one, but it never finds
one where there is none (`InputTests.Tells`), and likewise for what is known of a mix
(`MixFacts.Tell`). Then each shortcut leads to the value of its node (`Shortcut.Gives`), whatever the
linked inputs receive: one case for each operation. -/

namespace Shading

variable {val : String → Quantity} {q : Quantity} {t : InputTests}

/-- The tests find no zero and no one where there is none. -/
structure InputTests.Tells (t : InputTests) (val : String → Quantity) : Prop where
  zero : ∀ {name}, t.isZero name = .ok true → (val name).IsConst 0
  one : ∀ {name}, t.isOne name = .ok true → (val name).IsConst 1

theorem InputTests.Tells.eitherZero (ht : t.Tells val) {a b : String}
    (h : t.eitherZero a b = .ok true) : (val a).IsConst 0 ∨ (val b).IsConst 0 := by
  unfold InputTests.eitherZero at h
  cases ha : t.isZero a with
  | error f => simp [ha, bind, Except.bind] at h
  | ok z =>
    rw [ha] at h
    cases z with
    | true => exact Or.inl (ht.zero ha)
    | false => exact Or.inr (ht.zero h)

namespace Shortcut

/-- A shortcut to the quantity `q`, where the inputs receive `val`. An input is only passed on by an
output of its type. -/
def Gives (val : String → Quantity) (q : Quantity) : Shortcut → Prop
  | keep => True
  | passThrough name => ∀ type, q.HasType type → (val name).HasType type → q = val name
  | zero => q.IsConst 0
  | one => q.IsConst 1

variable {name : String} {x : ℚ} {w : Vec3 ℚ}

theorem gives_number (h : x = (val name).toNumber) : (passThrough name).Gives val (.number x) := by
  rintro _ rfl hname
  rw [h]
  exact hname.eq_number.symm

theorem gives_triple (h : w = (val name).toTriple) : (passThrough name).Gives val (.triple w) := by
  intro type htype hname
  rw [h]
  exact (hname.eq_triple htype).symm

/-- A vector is not passed on by the output of a number. -/
theorem gives_mismatch (h : (val name).HasType .vector) :
    (passThrough name).Gives val (.number x) := by
  rintro _ rfl hname
  rw [hname.eq_number] at h
  cases h

/-- A shortcut to both results of a vector operation. -/
def GivesBoth (val : String → Quantity) (results : ℚ × Vec3 ℚ) (s : Shortcut) : Prop :=
  s.Gives val (.number results.1) ∧ s.Gives val (.triple results.2)

/-! ### Sequences of tests -/

/-- Whatever a sequence of tests ends with has a property. -/
def Yields (P : Shortcut → Prop) (r : Except Fault Shortcut) : Prop := ∀ s, r = .ok s → P s

variable {P : Shortcut → Prop} {r r' : Except Fault Shortcut} {s : Shortcut}

theorem yields_pure (h : P s) : Yields P (pure s) := by
  rintro _ ⟨⟩
  exact h

theorem yields_ite {c : Prop} [Decidable c] (h : c → Yields P r) (h' : ¬ c → Yields P r') :
    Yields P (if c then r else r') := by
  split_ifs with hc
  · exact h hc
  · exact h' hc

theorem yields_test {b : Except Fault Bool} {k : Bool → Except Fault Shortcut}
    (h : ∀ z, b = .ok z → Yields P (k z)) : Yields P (b >>= k) := by
  cases b with
  | error f => rintro s ⟨⟩
  | ok z => exact h z rfl

/-- A test that decides by itself. -/
theorem yields_check {b : Except Fault Bool} (h : b = .ok true → Yields P r) (h' : Yields P r') :
    Yields P (b >>= fun z => if z = true then r else r') :=
  yields_test fun _ hz => yields_ite (fun hc => h (hz.trans (congrArg _ hc))) fun _ => h'

/-- A test that decides together with something that is known already. -/
theorem yields_check_and {b : Except Fault Bool} {c : Bool}
    (h : b = .ok true → c = true → Yields P r) (h' : Yields P r') :
    Yields P (b >>= fun z => if (z && c) = true then r else r') :=
  yields_test fun z hz => yields_ite (fun hc => by
    rw [Bool.and_eq_true] at hc
    exact h (hz.trans (congrArg _ hc.1)) hc.2) fun _ => h'

end Shortcut

open Shortcut Quantity

variable [Elementary]

/-! ### Identities -/

theorem MathOp.gives_shortcut (ht : t.Tells val) (op : MathOp) :
    Yields (Gives val (.number (op.eval (val "Value1").toNumber (val "Value2").toNumber
      (val "Value3").toNumber))) (op.shortcut t) := by
  cases op with
  | add =>
    refine yields_check (fun h => yields_pure (gives_number ?_)) <|
      yields_check (fun h => yields_pure (gives_number ?_)) (yields_pure trivial)
    · simp [eval, (ht.zero h).toNumber_eq]
    · simp [eval, (ht.zero h).toNumber_eq]
  | subtract =>
    refine yields_check (fun h => yields_pure (gives_number ?_)) (yields_pure trivial)
    simp [eval, (ht.zero h).toNumber_eq]
  | multiply =>
    refine yields_check (fun h => yields_pure (gives_number ?_)) <|
      yields_check (fun h => yields_pure (gives_number ?_)) <|
      yields_check (fun h => yields_pure (Or.inl ?_)) (yields_pure trivial)
    · simp [eval, (ht.one h).toNumber_eq]
    · simp [eval, (ht.one h).toNumber_eq]
    · rcases ht.eitherZero h with h | h
      · simp [eval, h.toNumber_eq]
      · simp [eval, h.toNumber_eq]
  | divide =>
    refine yields_check (fun h => yields_pure (gives_number ?_)) <|
      yields_check (fun h => yields_pure (Or.inl ?_)) (yields_pure trivial)
    · simp [eval, (ht.one h).toNumber_eq]
    · simp [eval, (ht.zero h).toNumber_eq]
  | power =>
    refine yields_check (fun h => yields_pure (Or.inl ?_)) <|
      yields_check (fun h => yields_pure (Or.inl ?_)) <|
      yields_check (fun h => yields_pure (gives_number ?_)) (yields_pure trivial)
    · simp [eval, (ht.one h).toNumber_eq]
    · simp [eval, (ht.zero h).toNumber_eq]
    · simp [eval, (ht.one h).toNumber_eq]
  | _ => exact yields_pure trivial

theorem VectorOp.gives_shortcut (ht : t.Tells val) (h₁ : (val "Vector1").HasType .vector)
    (h₂ : (val "Vector2").HasType .vector) (op : VectorOp) :
    Yields (GivesBoth val (op.eval (val "Vector1").toTriple (val "Vector2").toTriple
      (val "Vector3").toTriple (val "Scale").toNumber)) (op.shortcut t) := by
  have hzero : ∀ {results : ℚ × Vec3 ℚ}, results.1 = 0 → results.2 = .splat 0 →
      Yields (GivesBoth val results) (pure .zero) :=
    fun hx hw => yields_pure ⟨Or.inl (by rw [hx]), Or.inr (by rw [hw])⟩
  have hpass : ∀ {name : String} {results : ℚ × Vec3 ℚ}, (val name).HasType .vector →
      results.2 = (val name).toTriple → Yields (GivesBoth val results) (pure (.passThrough name)) :=
    fun h hw => yields_pure ⟨gives_mismatch h, gives_triple hw⟩
  have hkeep : ∀ {results : ℚ × Vec3 ℚ}, Yields (GivesBoth val results) (pure .keep) :=
    yields_pure ⟨trivial, trivial⟩
  cases op with
  | add =>
    refine yields_check (fun h => hpass h₂ ?_) (yields_check (fun h => hpass h₁ ?_) hkeep)
    · simp [eval, (ht.zero h).toTriple_eq, Vec3.zipWith, Vec3.splat]
    · simp [eval, (ht.zero h).toTriple_eq, Vec3.zipWith, Vec3.splat]
  | subtract =>
    refine yields_check (fun h => hpass h₁ ?_) hkeep
    simp [eval, (ht.zero h).toTriple_eq, Vec3.zipWith, Vec3.splat]
  | multiply =>
    refine yields_check (fun h => hzero rfl ?_) <| yields_check (fun h => hpass h₂ ?_) <|
      yields_check (fun h => hpass h₁ ?_) hkeep
    · rcases ht.eitherZero h with h | h
      · simp [eval, h.toTriple_eq, Vec3.zipWith, Vec3.splat]
      · simp [eval, h.toTriple_eq, Vec3.zipWith, Vec3.splat]
    · simp [eval, (ht.one h).toTriple_eq, Vec3.zipWith, Vec3.splat]
    · simp [eval, (ht.one h).toTriple_eq, Vec3.zipWith, Vec3.splat]
  | divide =>
    refine yields_check (fun h => hzero rfl ?_) (yields_check (fun h => hpass h₁ ?_) hkeep)
    · simp [eval, (ht.zero h).toTriple_eq, Vec3.zipWith, Vec3.splat]
    · simp [eval, (ht.one h).toTriple_eq, Vec3.zipWith, Vec3.splat]
  | dotProduct =>
    refine yields_check (fun h => hzero ?_ rfl) hkeep
    rcases ht.eitherZero h with h | h
    · simp [eval, h.toTriple_eq, Vec3.dot, Vec3.splat]
    · simp [eval, h.toTriple_eq, Vec3.dot, Vec3.splat]
  | crossProduct =>
    refine yields_check (fun h => hzero rfl ?_) hkeep
    rcases ht.eitherZero h with h | h
    · simp [eval, h.toTriple_eq, Vec3.cross, Vec3.splat]
    · simp [eval, h.toTriple_eq, Vec3.cross, Vec3.splat]
  | length =>
    refine yields_check (fun h => hzero ?_ rfl) hkeep
    simp [eval, (ht.zero h).toTriple_eq, Vec3.length, Vec3.dot, Vec3.splat]
  | absolute =>
    refine yields_check (fun h => hzero rfl ?_) hkeep
    simp [eval, (ht.zero h).toTriple_eq, Vec3.map, Vec3.splat]
  | scale =>
    refine yields_check (fun h => hzero rfl ?_) (yields_check (fun h => hpass h₁ ?_) hkeep)
    · rcases ht.eitherZero h with h | h
      · simp [eval, h.toTriple_eq, Vec3.map, Vec3.splat]
      · simp [eval, h.toNumber_eq, Vec3.map, Vec3.splat]
    · simp [eval, (ht.one h).toNumber_eq, Vec3.map]
  | _ => exact hkeep

/-- What is known of a mix holds of what its inputs receive. -/
structure MixFacts.Tell (facts : MixFacts) (val : String → Quantity) : Prop where
  facZero : facts.facZero = true → Scalar.saturate (val "Fac").toNumber = 0
  facOne : facts.facOne = true → Scalar.saturate (val "Fac").toNumber = 1
  sameLink : facts.sameLink = true → val "Color1" = val "Color2"
  sameLiteral : facts.sameLiteral = true → val "Color1" = val "Color2"

/-- A factor of zero selects the first colour in every mode. -/
theorem BlendMode.eval_facZero {fac : ℚ} (h : Scalar.saturate fac = 0) (mode : BlendMode)
    (c₁ c₂ : Vec3 ℚ) : mode.eval fac c₁ c₂ = c₁ := by
  cases mode <;> simp [eval, h, Vec3.zipWith, Vec3.lerp]

theorem BlendMode.gives_shortcut {facts : MixFacts} (ht : t.Tells val) (hf : facts.Tell val)
    (mode : BlendMode) :
    Yields (Gives val (.triple (mode.eval (val "Fac").toNumber (val "Color1").toTriple
      (val "Color2").toTriple))) (mode.shortcut facts t) := by
  cases mode with
  | blend =>
    refine yields_ite (fun h => yields_pure (gives_triple ?_)) fun _ =>
      yields_ite (fun h => yields_pure (gives_triple ?_)) fun _ => yields_pure trivial
    · have hsame : val "Color1" = val "Color2" :=
        (Bool.or_eq_true _ _ ▸ h).elim hf.sameLink hf.sameLiteral
      simp [eval, hsame, Vec3.zipWith, Vec3.lerp]
    · simp [eval, hf.facOne h, Vec3.zipWith, Vec3.lerp]
  | add =>
    refine yields_check_and (fun h hone => yields_pure (gives_triple ?_)) <|
      yields_check (fun h => yields_pure (gives_triple ?_)) (yields_pure trivial)
    · simp [eval, (ht.zero h).toTriple_eq, hf.facOne hone, Vec3.zipWith, Vec3.splat]
    · simp [eval, (ht.zero h).toTriple_eq, Vec3.zipWith, Vec3.splat]
  | subtract =>
    refine yields_check (fun h => yields_pure (gives_triple ?_)) <|
      yields_ite (fun h => yields_pure (Or.inr ?_)) fun _ => yields_pure trivial
    · simp [eval, (ht.zero h).toTriple_eq, Vec3.zipWith, Vec3.splat]
    · rw [Bool.and_eq_true] at h
      simp [eval, hf.sameLink h.1, hf.facOne h.2, Vec3.zipWith, Vec3.splat]
  | multiply =>
    refine yields_check_and (fun h hone => yields_pure (gives_triple ?_)) <|
      yields_check (fun h => yields_pure (gives_triple ?_)) <|
      yields_check (fun h => yields_pure (Or.inr ?_)) <|
      yields_check_and (fun h hone => yields_pure (Or.inr ?_)) (yields_pure trivial)
    · simp [eval, (ht.one h).toTriple_eq, hf.facOne hone, Vec3.zipWith, Vec3.splat]
    · simp [eval, (ht.one h).toTriple_eq, Vec3.zipWith, Vec3.splat]
    · simp [eval, (ht.zero h).toTriple_eq, Vec3.zipWith, Vec3.splat]
    · simp [eval, (ht.zero h).toTriple_eq, hf.facOne hone, Vec3.zipWith, Vec3.splat]
  | _ => exact yields_pure trivial

end Shading
