import Mathlib.Tactic.Ring
import Shading.Proofs.Exact
import Shading.Proofs.Paths
import Shading.Proofs.Retention

/-!
# Closure weights are path sums

Flattening adds to the weight of each closure, for each path that leads to it, the product of the
factors along the path. Numbers are read as rationals here: a weight is split by a node that
computes `w * (1 - f)` and `w * f`, and added to another one by a node that computes a sum. The
nodes that were added stay as they are once they are linked, so that any evaluation of the added
nodes in the end is one in between. -/

namespace Shading

open Relation

/-- The nodes that flattening adds compute what they should, and finite numbers are what they
are. -/
structure Interpretation.IsArithmetic (I : Interpretation ℚ) : Prop where
  literal_float : ∀ x : Binary32, x.isFinite = true → I.literal (.float x) = x.toRat
  eval_split : ∀ bump w f, I.eval .mixClosureWeight bump [w, f] = [w * (1 - f), w * f]
  eval_add : ∀ bump a b c, I.eval (.math .add false) bump [a, b, c] = [a + b]

variable {I : Interpretation ℚ} {v : OutputRef → ℚ}

theorem SocketType.eq_float_of_linksTo {a : SocketType} (h : a.linksTo .float = true) :
    a = .float := by
  revert h
  cases a <;> decide

namespace Interpretation.IsArithmetic

variable (hI : I.IsArithmetic)
include hI

theorem literal_one : I.literal (.float 1) = 1 := by
  rw [hI.literal_float 1 (by decide), Binary32.toRat_one]

theorem literal_of_beq_zero {x : Binary32} (hx : (x == 0) = true) : I.literal (.float x) = 0 := by
  rw [I.literal_congr (.float x) (.float 0) hx, hI.literal_float 0 (by decide), Binary32.toRat_zero]

theorem literal_add_one {x : Binary32} (hx : (x == 0) = true) : I.literal (.float (x + 1)) = 1 := by
  rw [I.literal_congr (.float (x + 1)) (.float 1) (Binary32.add_one_of_beq_zero hx), hI.literal_one]

end Interpretation.IsArithmetic

namespace Graph

variable {g g' : Graph} {T : InputRef → Prop} {L : Set NodeId}

/-- The input takes the weight of a closure, as a number. -/
def TakesNumber (g : Graph) (volume : Bool) (r : InputRef) : Prop :=
  ∃ k d, g.kind? r.node = some k ∧ k.weightSlot? volume = some r.slot ∧ g.inputDecl? r = some d ∧
    d.type = .float

/-- The input takes the weight of a closure to which a path leads. -/
def TakesWeight (g : Graph) (volume : Bool) (root : NodeId) (r : InputRef) : Prop :=
  ReflTransGen g.Branches root r.node ∧
    ∃ k, g.kind? r.node = some k ∧ k.weightSlot? volume = some r.slot

theorem IsWeight.node_lt {r : InputRef} (h : g.IsWeight r) : r.node < g.idBound := by
  obtain ⟨k, -, hk, -⟩ := h
  exact g.lt_idBound_of_kind? hk

theorem TakesNumber.isWeight {volume : Bool} {r : InputRef} (h : g.TakesNumber volume r) :
    g.IsWeight r := by
  obtain ⟨k, d, hk, hi, -, -⟩ := h
  exact ⟨k, volume, hk, hi⟩

theorem TakesWeight.isWeight {volume : Bool} {root : NodeId} {r : InputRef}
    (h : g.TakesWeight volume root r) : g.IsWeight r := by
  obtain ⟨-, k, hk, hi⟩ := h
  exact ⟨k, volume, hk, hi⟩

/-- A number that comes from outputs. -/
def Floats (g : Graph) (source? : Option OutputRef) : Prop :=
  ∀ s, source? = some s → ∃ e, g.outputDecl? s = some e ∧ e.type = .float

theorem Floats.evolves {source? : Option OutputRef} (h : g.Floats source?) (h' : g.Evolves T g')
    (hg : g.WellFormed) : g'.Floats source? := by
  intro s hs
  obtain ⟨e, he, hty⟩ := h s hs
  exact ⟨e, h'.outputDecl?_some hg he, hty⟩

theorem Spares.receivedAt_eq (h : g.Spares T g') (hg : g.WellFormed) {r : InputRef}
    (hr : r.node < g.idBound) (hT : ¬ T r) : g'.receivedAt I v r = g.receivedAt I v r := by
  rw [receivedAt, receivedAt, h.input?_eq hg hr hT]

/-- An evaluation of nodes that are spared is one from the start. -/
theorem Spares.evaluatesOn (h : g.Spares T g') (hg : g.WellFormed)
    (hL : ∀ x ∈ L, ∀ slot, ¬ T ⟨x, slot⟩) (hv : g'.EvaluatesOn I v L) : g.EvaluatesOn I v L := by
  intro x hx n hn slot
  have hlt := g.lt_idBound_of_mem (mem_ids_of_node hn)
  obtain ⟨n', hn'⟩ := exists_node_of_mem (h.evolves.ids_subset (mem_ids_of_node hn))
  have hkind : n'.kind = n.kind := by
    have hk := h.evolves.kind?_eq x hlt
    simpa [kind?, hn, hn'] using hk
  have hbump : n'.bump = n.bump := by
    have hb := h.bump_eq x hlt
    simpa [hn, hn'] using hb
  rw [hv x hx n' hn', Node.computed_congr hkind hbump]
  rw [h.evolves.wellFormed.received_eq hn', hg.received_eq hn, hkind]
  exact List.map_congr_left fun i _ => h.receivedAt_eq hg hlt (hL x hx i)

theorem receivedAt_eq_elim {r : InputRef} {l : Literal} (hl : g.literalAt r = some l) :
    g.receivedAt I v r = (g.linkAt r).elim (I.literal l) v := by
  cases ho : g.linkAt r with
  | none => exact receivedAt_of_literal ho hl
  | some o => exact receivedAt_of_link ho

theorem WellFormed.floats_linkAt (hg : g.WellFormed) {r : InputRef} {d : InputDecl}
    (hd : g.inputDecl? r = some d) (hty : d.type = .float) : g.Floats (g.linkAt r) := by
  intro s hs
  obtain ⟨e, he⟩ := hg.exists_output hs
  have htyped := (hg.typed _ _ d e hs hd he).2
  rw [hty] at htyped
  exact ⟨e, he, SocketType.eq_float_of_linksTo htyped⟩

section

variable {x : NodeId} (hI : I.IsArithmetic) (hv : g.EvaluatesOn I v L) (hx : x ∈ L)
  (hg : g.WellFormed)
include hI hv hx hg

theorem EvaluatesOn.split_eq (hk : g.kind? x = some .mixClosureWeight) :
    v ⟨x, 0⟩ = g.receivedAt I v ⟨x, 0⟩ * (1 - g.receivedAt I v ⟨x, 1⟩) ∧
      v ⟨x, 1⟩ = g.receivedAt I v ⟨x, 0⟩ * g.receivedAt I v ⟨x, 1⟩ := by
  obtain ⟨bump, hvalue⟩ := hv.value_eq hx hg hk
  rw [hvalue, hvalue]
  simp [NodeKind.inputDecls, List.range_succ, hI.eval_split]

theorem EvaluatesOn.sum_eq (hk : g.kind? x = some (.math .add false)) :
    v ⟨x, 0⟩ = g.receivedAt I v ⟨x, 0⟩ + g.receivedAt I v ⟨x, 1⟩ := by
  obtain ⟨bump, hvalue⟩ := hv.value_eq hx hg hk
  rw [hvalue]
  simp [NodeKind.inputDecls, List.range_succ, hI.eval_add]

end

end Graph

namespace Edit

open Shading.Graph

variable {g : Graph} {s : OutputRef} {t : InputRef} {d : InputDecl} {weight : Option OutputRef}

/-- The weight that comes down the tree; no weight stands for one. -/
def carried (v : OutputRef → ℚ) (weight : Option OutputRef) : ℚ := weight.elim 1 v

/-! ### Feeding inputs -/

theorem ends_connect_spares {e : OutputDecl} (hg : g.WellFormed) (hm : g.finalized = false)
    (hs : g.outputDecl? s = some e) (ht : g.inputDecl? t = some d) :
    (connect s t).Ends g fun _ => g.Spares (· = t) := by
  have hend := (meets_connect_evolves hg s t).ends fun _ h => by simp [hm, hs, ht] at h
  refine (hend.and_meets (retains_connect (B := g.idBound) s t g)).mono ?_
  rintro _ g' ⟨h, hkeep⟩
  exact h.spares hkeep

/-- A number is linked to a free input for a number. -/
theorem ends_connect_number (hg : g.WellFormed) (hm : g.finalized = false)
    (hs : g.Floats (some s)) (ht : g.inputDecl? t = some d) (hfree : g.linkAt t = none)
    (hl : d.linkable = true) (hty : d.type = .float) :
    (connect s t).Ends g fun _ g' => g.Spares (· = t) g' ∧ g'.linkAt t = some s := by
  obtain ⟨e, he, hety⟩ := hs s rfl
  have hlinks : e.type.linksTo d.type = true := by rw [hety, hty]; rfl
  refine ends_connect_linked hm ⟨he, ht, hfree, hl⟩ hlinks ⟨?_, ?_⟩
  · exact (evolves_link hg he ht hfree hl hlinks).spares
      ((sameNodes_link s t).retains (idBound_link ..))
  · rw [linkAt_link _ (by simp [ht]), if_pos rfl]

theorem ends_feed (hg : g.WellFormed) (hm : g.finalized = false) (ht : g.inputDecl? t = some d)
    (hfree : g.linkAt t = none) (hl : d.linkable = true) {source? : Option OutputRef}
    (hs : ∀ s, source? = some s → ∃ e, g.outputDecl? s = some e) (l : Literal) :
    (feed source? l t).Ends g fun _ g' => g.Spares (· = t) g' ∧ (d.type = .float →
      g.Floats source? → l.hasShape .float = true → ∀ v,
        g'.receivedAt I v t = source?.elim (I.literal l) v) := by
  cases source? with
  | none =>
    refine meets_requireMutable_bind (fun _ => ?_) fun hf => by simp [hm] at hf
    rw [discard_bind]
    refine meets_ask_input_bind (fun _ _ => meets_modify ⟨spares_store hg t l, ?_⟩)
      fun hnone => by simp [hnone] at ht
    intro hty _ hshape v
    refine receivedAt_of_literal ((linkAt_store ..).trans hfree) ?_
    rw [literalAt_store, if_pos rfl, ht, Option.map_some, hty]
    cases l with
    | float x => rfl
    | _ => cases hshape
  | some s =>
    obtain ⟨e, he⟩ := hs s rfl
    refine ends_discard ?_
    by_cases hnumber : d.type = .float ∧ g.Floats (some s)
    · refine (ends_connect_number hg hm hnumber.2 ht hfree hl hnumber.1).mono ?_
      rintro _ g' ⟨h, hlink⟩
      exact ⟨h, fun _ _ _ v => receivedAt_of_link hlink⟩
    · refine (ends_connect_spares hg hm he ht).mono fun _ g' h => ⟨h, fun hty hs' => ?_⟩
      exact absurd ⟨hty, hs'⟩ hnumber

/-- `g'` is `g` with a new node of a kind, and some inputs of that node may have been fed. Those
where `P` holds are as they were made. -/
structure Fresh (k : NodeKind) (P : Nat → Prop) (g g' : Graph) : Prop where
  spares : g.Spares (fun _ => False) g'
  kind : g'.kind? g.idBound = some k
  free : ∀ i, P i → g'.linkAt ⟨g.idBound, i⟩ = none
  initial : ∀ i, P i → g'.literalAt ⟨g.idBound, i⟩ = (k.inputDecls[i]?).map (·.initial)

theorem fresh_push (hg : g.WellFormed) (k : NodeKind) :
    Fresh k (fun _ => True) g (g.push (Node.ofKind k)) where
  spares := (evolves_push hg (Node.sound_ofKind k)).spares (retains_push _)
  kind := g.kind?_push_self _
  free i _ := (g.linkAt_push _ _).trans (linkAt_of_idBound_le (Nat.le_refl _))
  initial i _ := by
    rw [literalAt_push, if_pos rfl]
    simp [Node.ofKind, InputDecl.fresh, Function.comp_def]

section

variable {k : NodeKind} {P : Nat → Prop} {g' : Graph} (h : Fresh k P g g') {i : Nat}
include h

/-- One more input of the new node was changed. -/
theorem Fresh.spare {g'' : Graph} (h' : g'.Spares (· = ⟨g.idBound, i⟩) g'') :
    Fresh k (fun j => P j ∧ j ≠ i) g g'' := by
  have hx := g'.lt_idBound_of_kind? h.kind
  have hne : ∀ j, j ≠ i → ¬ (⟨g.idBound, j⟩ : InputRef) = ⟨g.idBound, i⟩ := fun j hj => by
    simpa using hj
  refine ⟨h.spares.trans_fresh h' fun r hr => Or.inr (by rw [hr]),
    h'.evolves.kind?_some h.kind, ?_, ?_⟩
  · rintro j ⟨hj, hji⟩
    rw [h'.evolves.linkAt_eq _ hx (hne j hji), h.free j hj]
  · rintro j ⟨hj, hji⟩
    rw [h'.literalAt_eq _ hx (hne j hji), h.initial j hj]

theorem Fresh.ends_feed (hg : g.WellFormed) (hm : g.finalized = false) (hi : P i)
    (hd : k.inputDecls[i]? = some d) (hl : d.linkable = true) (hty : d.type = .float)
    {source? : Option OutputRef} (hs : ∀ s, source? = some s → ∃ e, g.outputDecl? s = some e)
    (l : Literal) :
    (feed source? l ⟨g.idBound, i⟩).Ends g' fun _ g'' => g'.Spares (· = ⟨g.idBound, i⟩) g'' ∧
      (g.Floats source? → l.hasShape .float = true → ∀ v,
        g''.receivedAt I v ⟨g.idBound, i⟩ = source?.elim (I.literal l) v) := by
  have hg' := h.spares.evolves.wellFormed
  refine (Edit.ends_feed (I := I) hg' (h.spares.evolves.finalized.trans hm)
    ((hg'.inputDecl?_eq h.kind i).trans hd) (h.free i hi) hl (fun s hs' => ?_) l).mono ?_
  · obtain ⟨e, he⟩ := hs s hs'
    exact ⟨e, h.spares.evolves.outputDecl?_some hg he⟩
  · rintro _ g'' ⟨h', hval⟩
    exact ⟨h', fun hf => hval hty (hf.evolves h.spares.evolves hg)⟩

end

/-! ### Weights -/

/-- The node that splits a weight computes its two parts. -/
theorem ends_splitWeight_value (hI : I.IsArithmetic) (hg : g.WellFormed) (hm : g.finalized = false)
    {id : NodeId} {i : Nat} (hd : g.inputDecl? ⟨id, i⟩ = some d) (hty : d.type = .float)
    (hw : g.Floats weight) :
    (splitWeight id i weight).Ends g fun parts g' => g.Spares (fun _ => False) g' ∧
      g'.Floats (some parts.1) ∧ g'.Floats (some parts.2) ∧
      ∀ v, g'.EvaluatesOn I v (Set.Ici g.idBound) →
        v parts.1 = carried v weight * (1 - g.receivedAt I v ⟨id, i⟩) ∧
          v parts.2 = carried v weight * g.receivedAt I v ⟨id, i⟩ := by
  have h₁ := fresh_push hg .mixClosureWeight
  refine ends_bind.mpr (ends_addKind hm ?_)
  have hd₁ := h₁.spares.evolves.inputDecl?_some hg hd
  refine meets_ask_input_bind (fun fac hfac => ?_) fun hnone => by simp [hnone] at hd₁
  have hlink : fac.link = g.linkAt ⟨id, i⟩ := by
    rw [← g.linkAt_push (Node.ofKind .mixClosureWeight), linkAt, hfac]
    rfl
  have hliteral : g.literalAt ⟨id, i⟩ = some fac.literal := by
    rw [← h₁.spares.literalAt_eq _ (node_lt_of_inputDecl? hd) not_false, literalAt, hfac]
    rfl
  have hshape : fac.literal.hasShape .float = true := hty ▸ hg.shaped _ d _ hd hliteral
  have hfloats := hg.floats_linkAt hd hty
  rw [hlink]
  refine ends_ask_bind (h₁.spares.evolves.wellFormed.inputRef_eq h₁.kind (i := 1) rfl) ?_
  refine Ends.bind (h₁.ends_feed (I := I) (i := 1) hg hm trivial rfl rfl rfl
    (fun s hs => (hfloats s hs).imp fun _ h => h.1) _) ?_
  rintro _ g₂ ⟨hsp₂, hfactor⟩
  have h₂ := h₁.spare hsp₂
  have hg₂ := h₂.spares.evolves.wellFormed
  refine ends_ask_bind (hg₂.inputRef_eq h₂.kind (i := 0) rfl) ?_
  have hweight : (connectTo weight ⟨g.idBound, 0⟩).Ends g₂ fun _ g₃ =>
      g₂.Spares (· = ⟨g.idBound, 0⟩) g₃ ∧
        ∀ v, g₃.receivedAt I v ⟨g.idBound, 0⟩ = carried v weight := by
    cases weight with
    | none =>
      refine ends_pure ⟨.refl hg₂, fun v => ?_⟩
      rw [receivedAt_of_literal (h₂.free 0 (by simp)) (h₂.initial 0 (by simp))]
      exact hI.literal_one
    | some w =>
      refine ends_discard ((ends_connect_number hg₂ (h₂.spares.evolves.finalized.trans hm)
        (hw.evolves h₂.spares.evolves hg) (hg₂.inputDecl?_eq h₂.kind 0) (h₂.free 0 (by simp)) rfl
          rfl).mono ?_)
      rintro _ g₃ ⟨hsp₃, hlink₃⟩
      exact ⟨hsp₃, fun v => receivedAt_of_link hlink₃⟩
  refine Ends.bind hweight ?_
  rintro _ g₃ ⟨hsp₃, hweight⟩
  have h₃ := h₂.spare hsp₃
  have hg₃ := h₃.spares.evolves.wellFormed
  refine ends_ask_bind (hg₃.outputRef_eq h₃.kind (i := 0) rfl) ?_
  refine ends_ask_bind (hg₃.outputRef_eq h₃.kind (i := 1) rfl) (ends_pure ⟨h₃.spares, ?_, ?_, ?_⟩)
  · rintro _ ⟨⟩
    exact ⟨_, hg₃.outputDecl?_eq h₃.kind 0, rfl⟩
  · rintro _ ⟨⟩
    exact ⟨_, hg₃.outputDecl?_eq h₃.kind 1, rfl⟩
  · intro v hv
    have hfactor₃ : g₃.receivedAt I v ⟨g.idBound, 1⟩ = g.receivedAt I v ⟨id, i⟩ := by
      rw [hsp₃.receivedAt_eq hg₂ (g₂.lt_idBound_of_kind? h₂.kind) (by simp),
        hfactor hfloats hshape v, receivedAt_eq_elim hliteral]
    have hsplit := hv.split_eq hI (Set.mem_Ici.mpr (Nat.le_refl _)) hg₃ h₃.kind
    rwa [hweight v, hfactor₃] at hsplit

/-- A sum takes the place of a weight. -/
theorem ends_addWeight_value (hI : I.IsArithmetic) (hg : g.WellFormed) (hm : g.finalized = false)
    (hd : g.inputDecl? t = some d) (hl : d.linkable = true) {present : Binary32}
    (hp : d.type = .float → g.literalAt t = some (.float present)) (hw : g.Floats weight) :
    (addWeight t (g.linkAt t) present weight).Ends g fun _ g' => g.Spares (· = t) g' ∧
      (d.type = .float → ∀ v, g'.EvaluatesOn I v (Set.Ici g.idBound) →
        g'.receivedAt I v t = g.receivedAt I v t + carried v weight) := by
  have ht := node_lt_of_inputDecl? hd
  have h₁ := fresh_push hg (.math .add false)
  refine ends_bind.mpr (ends_addKind hm ?_)
  refine ends_ask_bind (h₁.spares.evolves.wellFormed.inputRef_eq h₁.kind (i := 0) rfl) ?_
  refine Ends.bind (h₁.ends_feed (I := I) (i := 0) hg hm trivial rfl rfl rfl
    (fun s hs => hg.exists_output hs) _) ?_
  rintro _ g₂ ⟨hsp₂, hleft⟩
  have h₂ := h₁.spare hsp₂
  have hg₂ := h₂.spares.evolves.wellFormed
  refine ends_ask_bind (hg₂.inputRef_eq h₂.kind (i := 1) rfl) ?_
  refine Ends.bind (h₂.ends_feed (I := I) (i := 1) hg hm (by simp) rfl rfl rfl
    (fun s hs => (hw s hs).imp fun _ h => h.1) _) ?_
  rintro _ g₃ ⟨hsp₃, hright⟩
  have h₃ := h₂.spare hsp₃
  have hg₃ := h₃.spares.evolves.wellFormed
  have hm₃ := h₃.spares.evolves.finalized.trans hm
  have hd₃ := h₃.spares.evolves.inputDecl?_some hg hd
  refine Ends.bind ((ends_disconnectIfLinked hg₃ hm₃ hd₃).and_meets
    (retains_disconnectIfLinked (B := g₃.idBound) t g₃)) ?_
  rintro _ g₄ ⟨htrim, hkeep⟩
  have hsp₄ := htrim.evolves.spares hkeep
  have hk₄ := hsp₄.evolves.kind?_some h₃.kind
  have hfloats₄ : g₄.Floats (some ⟨g.idBound, 0⟩) := by
    rintro _ ⟨⟩
    exact ⟨_, htrim.wellFormed.outputDecl?_eq hk₄ 0, rfl⟩
  have hlast : (feed (some ⟨g.idBound, 0⟩) (.float 1) t).Ends g₄ fun _ g₅ =>
      g₄.Spares (· = t) g₅ ∧ (d.type = .float → g₄.Floats (some ⟨g.idBound, 0⟩) →
        Literal.hasShape (.float 1) .float = true →
          ∀ v, g₅.receivedAt I v t = v ⟨g.idBound, 0⟩) :=
    ends_feed htrim.wellFormed (htrim.finalized.trans hm₃) (hsp₄.evolves.inputDecl?_some hg₃ hd₃)
      (htrim.cut t rfl) hl (fun s hs => (hfloats₄ s hs).imp fun _ h => h.1) _
  refine ends_ask_bind (htrim.wellFormed.outputRef_eq hk₄ (i := 0) rfl) (hlast.mono ?_)
  rintro _ g₅ ⟨hsp₅, hlast⟩
  have hsp : g₃.Spares (· = t) g₅ := hsp₄.trans hsp₅
  refine ⟨(h₃.spares.mono fun _ => False.elim).trans hsp, fun hty v hv => ?_⟩
  have hne : ∀ i, ¬ (⟨g.idBound, i⟩ : InputRef) = t := fun i h =>
    Nat.lt_irrefl _ (congrArg InputRef.node h ▸ ht)
  have hx₂ := g₂.lt_idBound_of_kind? h₂.kind
  have hx₃ := g₃.lt_idBound_of_kind? h₃.kind
  have hleft₅ : g₅.receivedAt I v ⟨g.idBound, 0⟩ = g.receivedAt I v t := by
    rw [hsp.receivedAt_eq hg₃ hx₃ (hne 0), hsp₃.receivedAt_eq hg₂ hx₂ (by simp),
      hleft (hg.floats_linkAt hd hty) rfl v, receivedAt_eq_elim (hp hty)]
  have hright₅ : g₅.receivedAt I v ⟨g.idBound, 1⟩ = carried v weight := by
    rw [hsp.receivedAt_eq hg₃ hx₃ (hne 1), hright hw rfl v, hI.literal_one, carried]
  have hsum := hv.sum_eq hI (Set.mem_Ici.mpr (Nat.le_refl _)) hsp.evolves.wellFormed
    (hsp.evolves.kind?_some h₃.kind)
  rw [hlast hty hfloats₄ rfl v, hsum, hleft₅, hright₅]

/-- The weight of a closure grows by what has come down the tree. -/
theorem ends_addLeafWeight_value (hI : I.IsArithmetic) (hg : g.WellFormed)
    (hm : g.finalized = false) {id : NodeId} {k : NodeKind} (hk : g.kind? id = some k)
    {volume : Bool} {i : Nat} (hi : k.weightSlot? volume = some i)
    (hd : g.inputDecl? ⟨id, i⟩ = some d) (hw : g.Floats weight) :
    (addLeafWeight volume id weight).Ends g fun _ g' => g.Spares (· = ⟨id, i⟩) g' ∧
      (d.type = .float → ∀ v, g'.EvaluatesOn I v (Set.Ici g.idBound) →
        g'.receivedAt I v ⟨id, i⟩ = g.receivedAt I v ⟨id, i⟩ + carried v weight) := by
  have hl : d.linkable = true := by
    obtain ⟨d', hd', hl⟩ := NodeKind.exists_weightDecl hi
    rw [hg.inputDecl?_eq hk, hd', Option.some.injEq] at hd
    rwa [← hd]
  refine meets_ask_node_bind (fun node hnode => ?_) fun hnone => by simp [hnone] at hk
  have hslot : node.weightSlot? volume = some i := by
    rw [hg.weightSlot?_eq hnode]
    simp only [kind?, hnode, Option.map_some, Option.some.injEq] at hk
    rwa [hk]
  rw [hslot]
  dsimp only
  refine meets_ask_input_bind (fun input hinput => ?_) fun hnone => by simp [hnone] at hd
  have hlink : input.link = g.linkAt ⟨id, i⟩ := by simp [linkAt, hinput]
  have hliteral : g.literalAt ⟨id, i⟩ = some input.literal := by simp [literalAt, hinput]
  have hpresent : d.type = .float → input.literal = .float (input.literal.float?.getD 0) := by
    intro hty
    have hshape := hg.shaped _ d _ hd hliteral
    rw [hty] at hshape
    cases hlit : input.literal with
    | float x => rfl
    | _ => rw [hlit] at hshape; cases hshape
  by_cases hsum : (input.isLinked || input.literal.float?.getD 0 != 0) = true
  · rw [if_pos hsum, hlink]
    refine ends_addWeight_value hI hg hm hd hl (fun hty => ?_) hw
    rw [hliteral, ← hpresent hty]
  · rw [if_neg hsum]
    rw [Bool.or_eq_true, not_or] at hsum
    have hfree : g.linkAt ⟨id, i⟩ = none := by
      rw [← hlink]
      simpa [Input.isLinked] using hsum.1
    have hzero : (input.literal.float?.getD 0 == 0) = true := by
      simpa [bne] using hsum.2
    refine (ends_feed (I := I) hg hm hd hfree hl (fun s hs => (hw s hs).imp fun _ h => h.1)
      _).mono ?_
    rintro _ g' ⟨hsp, hval⟩
    refine ⟨hsp, fun hty v _ => ?_⟩
    rw [hval hty hw rfl v, hI.literal_add_one hzero,
      receivedAt_of_literal hfree (hliteral.trans (congrArg some (hpresent hty))),
      hI.literal_of_beq_zero hzero, zero_add, carried]

/-! ### The tree -/

/-- The edit gives to each closure what a weight becomes on the paths from a node to it. -/
structure Weighs (I : Interpretation ℚ) (b : Graph) (volume : Bool) (id : NodeId)
    (share : (OutputRef → ℚ) → NodeId → ℚ) (g g' : Graph) : Prop where
  spares : g.Spares (b.TakesWeight volume id) g'
  received : ∀ v, g'.EvaluatesOn I v (Set.Ici b.idBound) → ∀ r, b.TakesNumber volume r →
    g'.receivedAt I v r = g.receivedAt I v r + share v r.node

section

variable {b : Graph} {volume : Bool} {id : NodeId}

variable {share share' : (OutputRef → ℚ) → NodeId → ℚ}

/-- The nodes that were added before are not changed. -/
theorem Weighs.evaluatesOn {g' : Graph} (h : Weighs I b volume id share g g') (hg : g.WellFormed)
    (hv : g'.EvaluatesOn I v (Set.Ici b.idBound)) : g.EvaluatesOn I v (Set.Ici b.idBound) :=
  h.spares.evaluatesOn hg
    (fun _ hx _ hT => Nat.not_lt.mpr hx hT.isWeight.node_lt) hv

/-- The shares add up along a run. -/
theorem Weighs.trans {g₁ g₂ g₃ : Graph} (h : Weighs I b volume id share g₁ g₂)
    (h' : Weighs I b volume id share' g₂ g₃) :
    Weighs I b volume id (fun v leaf => share v leaf + share' v leaf) g₁ g₃ := by
  refine ⟨h.spares.trans h'.spares, fun v hv r hr => ?_⟩
  rw [h'.received v hv r hr,
    h.received v (h'.evaluatesOn h.spares.evolves.wellFormed hv) r hr, add_assoc]

end

/-- A closure that is no mix and no sum takes the whole weight. -/
theorem ends_addLeafWeight_weighs {b : Graph} (hI : I.IsArithmetic) (hb : b.WellFormed)
    (hm : b.finalized = false) {volume : Bool} {id : NodeId} {k : NodeKind}
    (hk : b.kind? id = some k) (hrole : k.role ≠ .combineClosure) (h : b.Spares b.IsWeight g)
    (hw : g.Floats weight) :
    (addLeafWeight volume id weight).Ends g fun _ =>
      Weighs I b volume id (fun v leaf => carried v weight * b.pathSum I v id leaf) g := by
  have hg := h.evolves.wellFormed
  have hkg := h.evolves.kind?_some hk
  -- the slot of a weight is fixed by the kind of its node
  have hslot : ∀ r, b.TakesNumber volume r → r.node = id → k.weightSlot? volume = some r.slot := by
    rintro r ⟨k', d, hk', hi, -, -⟩ hr
    rw [hr, hk, Option.some.injEq] at hk'
    rwa [hk']
  cases hi : k.weightSlot? volume with
  | none =>
    refine meets_ask_node_bind (fun n hn => ?_) fun hnone => by simp [hnone] at hkg
    have hnk : n.kind = k := by simpa [kind?, hn] using hkg
    rw [hg.weightSlot?_eq hn, hnk, hi]
    refine ends_pure ⟨.refl hg, fun v _ r hr => ?_⟩
    have hne : id ≠ r.node := fun heq => by simp [hslot r hr heq.symm] at hi
    rw [pathSum_leaf hk hrole, if_neg hne, mul_zero, add_zero]
  | some i =>
    obtain ⟨d, hd⟩ := hb.exists_inputDecl? hk hi
    refine (ends_addLeafWeight_value hI hg (h.evolves.finalized.trans hm) hkg hi
      (h.evolves.inputDecl?_some hb hd) hw).mono ?_
    rintro _ g' ⟨hsp, hval⟩
    refine ⟨hsp.mono fun r hr => hr ▸ ⟨.refl, k, hk, hi⟩, fun v hv r hr => ?_⟩
    rw [pathSum_leaf hk hrole]
    split_ifs with hid
    · obtain rfl : r = ⟨id, i⟩ := by
        have hr' := hslot r hr hid.symm
        rw [hi, Option.some.injEq] at hr'
        rw [hr', hid]
      obtain ⟨-, d', -, -, hd', hty⟩ := hr
      rw [hd, Option.some.injEq] at hd'
      rw [hval (hd' ▸ hty) v (hv.mono (Set.Ici_subset_Ici.mpr h.evolves.idBound_le)), mul_one]
    · have hlt := Nat.lt_of_lt_of_le hr.isWeight.node_lt h.evolves.idBound_le
      rw [hsp.receivedAt_eq hg hlt fun heq => hid (by rw [heq]), mul_zero, add_zero]

/-- Spreading any weight from a node gives to each closure the weight times the sum over the paths
that lead to it. The graph `b` is the one at the start. -/
def SpreadsPaths (I : Interpretation ℚ) (b : Graph) (volume : Bool) (combines : List NodeId)
    (id : NodeId) : Prop :=
  ∀ g weight, b.Spares b.IsWeight g → g.Floats weight →
    (spreadWeight volume combines id weight).Ends g fun _ =>
      Weighs I b volume id (fun v leaf => carried v weight * b.pathSum I v id leaf) g

section

variable {b : Graph} {volume : Bool} {id : NodeId} {k : NodeKind} {combines : List NodeId}

/-- The branches of a node are its two closures. -/
theorem ends_spreadBranch (hbelow : ∀ y, b.Branches id y → SpreadsPaths I b volume combines y)
    (hk : b.kind? id = some k) {second : Bool} {i : Nat} (hi : k.branchSlot? second = some i)
    (h : b.Spares b.IsWeight g) (hw : g.Floats weight) :
    ((b.linkAt ⟨id, i⟩).forM fun o => spreadWeight volume combines o.node weight).Ends g fun _ =>
      Weighs I b volume id (fun v leaf => carried v weight * b.branchSum I v id second leaf) g := by
  have hy := branch?_eq hk hi
  cases hl : b.linkAt ⟨id, i⟩ with
  | none =>
    rw [hl, Option.map_none] at hy
    refine ends_pure ⟨.refl h.evolves.wellFormed, fun v _ r _ => ?_⟩
    simp [branchSum, hy]
  | some o =>
    rw [hl, Option.map_some] at hy
    have ho : b.Branches id o.node := ⟨second, hy⟩
    refine (hbelow o.node ho g weight h hw).mono fun _ g' h' => ?_
    refine ⟨h'.spares.mono fun r hr => ⟨hr.1.head ho, hr.2⟩, fun v hv r hr => ?_⟩
    rw [h'.received v hv r hr, branchSum, hy, Option.map_some, Option.getD_some]

theorem ends_spreadBranches (hbelow : ∀ y, b.Branches id y → SpreadsPaths I b volume combines y)
    (hk : b.kind? id = some k) {i j : Nat} (hi : k.branchSlot? false = some i)
    (hj : k.branchSlot? true = some j) (h : b.Spares b.IsWeight g) {w₁ w₂ : Option OutputRef}
    (hw₁ : g.Floats w₁) (hw₂ : g.Floats w₂) :
    (do
      (b.linkAt ⟨id, i⟩).forM fun o => spreadWeight volume combines o.node w₁
      (b.linkAt ⟨id, j⟩).forM fun o => spreadWeight volume combines o.node w₂ : Edit Unit).Ends g
      fun _ => Weighs I b volume id (fun v leaf => carried v w₁ * b.branchSum I v id false leaf +
        carried v w₂ * b.branchSum I v id true leaf) g := by
  refine Ends.bind (ends_spreadBranch hbelow hk hi h hw₁) fun _ g₁ h₁ => ?_
  refine (ends_spreadBranch hbelow hk hj (h.trans (h₁.spares.mono fun _ => TakesWeight.isWeight))
    (hw₂.evolves h₁.spares.evolves h.evolves.wellFormed)).mono fun _ g₂ h₂ => ?_
  exact h₁.trans h₂

variable (hacc : Acc (fun y x => b.Branches x y) id)
include hacc

theorem pathSum_of_takesNumber (hk : b.kind? id = some k) (hcomb : k.role = .combineClosure)
    (v : OutputRef → ℚ) {r : InputRef} (hr : b.TakesNumber volume r) :
    b.pathSum I v id r.node = b.branchFactor I v id false * b.branchSum I v id false r.node +
      b.branchFactor I v id true * b.branchSum I v id true r.node := by
  refine pathSum_combine hacc fun heq => ?_
  subst heq
  exact not_isWeight (r := ⟨r.node, r.slot⟩) hk (Or.inl hcomb) hr.isWeight

/-- A sum passes the weight on to both of its closures. -/
theorem Weighs.of_sum {g' : Graph} (hk : b.kind? id = some .addClosure)
    (h : Weighs I b volume id (fun v leaf => carried v weight * b.branchSum I v id false leaf +
      carried v weight * b.branchSum I v id true leaf) g g') :
    Weighs I b volume id (fun v leaf => carried v weight * b.pathSum I v id leaf) g g' := by
  refine ⟨h.spares, fun v hv r hr => ?_⟩
  have hfactor : ∀ second, b.branchFactor I v id second = 1 := by
    intro second
    unfold branchFactor
    rw [hk]
    rfl
  rw [h.received v hv r hr, pathSum_of_takesNumber hacc hk rfl v hr, hfactor, hfactor]
  ring

/-- A mix splits the weight by its factor, which is still the one of the start. -/
theorem Weighs.of_mix {g₁ g₂ : Graph} {w₁ w₂ : OutputRef} (hb : b.WellFormed)
    (hk : b.kind? id = some .mixClosure) (h : b.Spares b.IsWeight g)
    (h₁ : g.Spares (fun _ => False) g₁)
    (hparts : ∀ v, g₁.EvaluatesOn I v (Set.Ici g.idBound) →
      v w₁ = carried v weight * (1 - g.receivedAt I v ⟨id, 0⟩) ∧
        v w₂ = carried v weight * g.receivedAt I v ⟨id, 0⟩)
    (h₂ : Weighs I b volume id (fun v leaf => carried v (some w₁) * b.branchSum I v id false leaf +
      carried v (some w₂) * b.branchSum I v id true leaf) g₁ g₂) :
    Weighs I b volume id (fun v leaf => carried v weight * b.pathSum I v id leaf) g g₂ := by
  refine ⟨(h₁.mono fun _ => False.elim).trans h₂.spares, fun v hv r hr => ?_⟩
  have hlt := Nat.lt_of_lt_of_le hr.isWeight.node_lt h.evolves.idBound_le
  obtain ⟨hv₁, hv₂⟩ := hparts v ((h₂.evaluatesOn h₁.evolves.wellFormed hv).mono
    (Set.Ici_subset_Ici.mpr h.evolves.idBound_le))
  have hfac : g.receivedAt I v ⟨id, 0⟩ = b.receivedAt I v ⟨id, 0⟩ :=
    h.receivedAt_eq hb (b.lt_idBound_of_kind? hk) (not_isWeight hk (Or.inl rfl))
  have hfactors : b.branchFactor I v id false = 1 - b.receivedAt I v ⟨id, 0⟩ ∧
      b.branchFactor I v id true = b.receivedAt I v ⟨id, 0⟩ := by
    unfold branchFactor
    rw [hk]
    exact ⟨rfl, rfl⟩
  have hcarried : ∀ w, carried v (some w) = v w := fun _ => rfl
  rw [h₂.received v hv r hr, h₁.receivedAt_eq h.evolves.wellFormed hlt not_false,
    pathSum_of_takesNumber hacc hk rfl v hr, hcarried, hcarried, hv₁, hv₂, hfac, hfactors.1,
    hfactors.2]
  ring

/-- **Spreading a weight.** The induction is along the paths, with the nodes that may still be
entered shrinking on the way. -/
theorem spreadsPaths (hI : I.IsArithmetic) (hb : b.WellFormed) (hm : b.finalized = false)
    (hid : id ∈ b.ids) (hun : b.Untangled id) (hc : b.CoversBelow id combines) :
    SpreadsPaths I b volume combines id := by
  induction hacc generalizing combines with
  | intro id hbelow ih =>
    intro g weight h hw
    have hg := h.evolves.wellFormed
    obtain ⟨k, hk⟩ := (b.mem_ids_iff_kind?).mp hid
    have hkg := h.evolves.kind?_some hk
    rw [spreadWeight.eq_def]
    refine meets_ask_node_bind (fun n hn => ?_) fun hnone => by simp [hnone] at hkg
    have hnk : n.kind = k := by simpa [kind?, hn] using hkg
    have hmem := hc id hid .refl
    rw [Node.role, hnk]
    split_ifs with hcomb
    · have hkeep : ∀ i, g.linkAt ⟨id, i⟩ = b.linkAt ⟨id, i⟩ := fun i =>
        h.evolves.linkAt_eq _ (b.lt_idBound_of_kind? hk) (not_isWeight hk (Or.inl hcomb))
      have hrest : ∀ y, b.Branches id y → SpreadsPaths I b volume (combines.erase id) y :=
        fun y hy => ih y hy (hb.mem_ids_of_feeds hy.feeds).1 (hun.branch hy) (hc.erase hun hy)
      rcases NodeKind.mix_or_add hcomb with rfl | rfl
      · refine ends_ask_bind (hg.linkOf_inputRef_eq hkg (i := 1) rfl) ?_
        refine ends_ask_bind (hg.linkOf_inputRef_eq hkg (i := 2) rfl) ?_
        rw [n.inputSlot?_eq_layout, hg.laidOut id n hn, hnk, hkeep, hkeep,
          show NodeKind.mixClosure.layout.inputSlot? "Fac" = some 0 from rfl]
        refine Ends.bind (ends_splitWeight_value hI hg (h.evolves.finalized.trans hm)
          (hg.inputDecl?_eq hkg 0) rfl hw) ?_
        rintro ⟨w₁, w₂⟩ g₁ ⟨h₁, hw₁, hw₂, hparts⟩
        refine (ends_spreadBranches hrest hk rfl rfl (h.trans (h₁.mono fun _ => False.elim)) hw₁
          hw₂).mono fun _ g₂ h₂ => ?_
        exact .of_mix ⟨id, hbelow⟩ hb hk h h₁ hparts h₂
      · refine ends_ask_bind (hg.linkOf_inputRef_eq hkg (i := 0) rfl) ?_
        refine ends_ask_bind (hg.linkOf_inputRef_eq hkg (i := 1) rfl) ?_
        rw [n.inputSlot?_eq_layout, hg.laidOut id n hn, hnk, hkeep, hkeep,
          show NodeKind.addClosure.layout.inputSlot? "Fac" = none from rfl]
        exact (ends_spreadBranches hrest hk rfl rfl h hw hw).mono fun _ g₁ h₁ =>
          .of_sum ⟨id, hbelow⟩ hk h₁
    · exact ends_addLeafWeight_weighs hI hb hm hk hcomb h hw

end

/-- **Closure weights.** Flattening the tree below a node comes to an end. However the outputs of
the graph are valued, the nodes that are added can be evaluated, and then a number that is the
weight of a closure has grown by the sum over the paths to that closure. Other inputs have not
changed, unless they are weights of closures in the tree. -/
theorem flattenClosures_path_sums (I : Interpretation ℚ) (hI : I.IsArithmetic) (g : Graph)
    (hg : g.WellFormed) (hm : g.finalized = false) (volume : Bool) (root : NodeId)
    (hroot : root ∈ g.ids) (hun : g.Untangled root) :
    (flattenClosures volume root none).Ends g fun _ g' =>
      (∀ v₀ : OutputRef → ℚ, ∃ v, (∀ o : OutputRef, o.node < g.idBound → v o = v₀ o) ∧
        g'.EvaluatesOn I v (Set.Ici g.idBound)) ∧
      (∀ v, g'.EvaluatesOn I v (Set.Ici g.idBound) → ∀ r, g.TakesNumber volume r →
        (g.paths root r.node).Finite ∧
          g'.receivedAt I v r = g.receivedAt I v r + g.pathSum I v root r.node) ∧
      (∀ id ∈ g.ids, g'.kind? id = g.kind? id) ∧
      ∀ r, r.node ∈ g.ids → ¬ g.TakesWeight volume root r → g'.input? r = g.input? r := by
  have hacc := hun.acc hg hroot
  have hc : g.CoversBelow root g.ids := fun _ hx _ => hx
  obtain ⟨O, hflat⟩ := exists_flattening hg
  have hone : Carries g O {a | a ∈ ([] : List NodeId)} none := by simp [Carries]
  have hfloats : g.Floats none := fun _ hs => by cases hs
  refine ends_get_bind (((spreads_spreadWeight hg hm hroot hun hc hc g O _ none hflat hone).and
    (spreadsPaths hacc hI hg hm hroot hun hc g none (.refl hg) hfloats)).mono ?_)
  rintro _ g' ⟨⟨O', hflat', -⟩, hw⟩
  refine ⟨fun v₀ => ?_, fun v hv r hr => ⟨finite_paths hacc, ?_⟩, fun id hid => ?_,
    fun r hr hT => ?_⟩
  · obtain ⟨rank, hr⟩ := hflat'.traced.ranked
    have hranked : g'.RankedOn (Set.Ici g.idBound) rank := hr
    obtain ⟨v, hv₀, hv⟩ := hranked.exists_evaluatesOn I v₀
    exact ⟨v, fun o ho => hv₀ o (Nat.not_le.mpr ho), hv⟩
  · rw [hw.received v hv r hr, carried, Option.elim_none, one_mul]
  · exact hw.spares.evolves.kind?_eq id (g.lt_idBound_of_mem hid)
  · exact hw.spares.input?_eq hg (g.lt_idBound_of_mem hr) hT

/-- Numbers as they are. Of the nodes, only those that flattening adds compute something. -/
def rationals : Interpretation ℚ where
  literal
    | .float x => x.toRat
    | _ => 0
  eval
    | .mixClosureWeight, _, [w, f] => [w * (1 - f), w * f]
    | .math .add false, _, [a, b, _] => [a + b]
    | _, _, _ => []
  missing := 0
  literal_congr a b h := by
    cases a with
    | float x =>
      cases b with
      | float y => exact Binary32.toRat_congr h
      | _ => cases h
    | _ =>
      cases b with
      | float y => cases h
      | _ => rfl

theorem isArithmetic_rationals : rationals.IsArithmetic :=
  ⟨fun _ _ => rfl, fun _ _ _ => rfl, fun _ _ _ _ => rfl⟩

/-- A diffuse closure is mixed with an emission, and added to the mix. -/
def sharedDiffuse : Graph :=
  Primitive.runAll [.addKind .diffuse, .addKind (.emission false), .addKind .mixClosure,
    .addKind .addClosure, .connect ⟨1, 0⟩ ⟨3, 1⟩, .connect ⟨2, 0⟩ ⟨3, 2⟩, .connect ⟨3, 0⟩ ⟨4, 0⟩,
    .connect ⟨1, 0⟩ ⟨4, 1⟩] Graph.empty

theorem ranked_sharedDiffuse : sharedDiffuse.Ranked id :=
  ranked_of_feeders (Primitive.follows_runAll wellFormed_empty _).wellFormed _ (by decide)

/-- One path to the diffuse closure goes through the mix, by a half, and one does not. -/
theorem pathSum_sharedDiffuse (v : OutputRef → ℚ) :
    sharedDiffuse.pathSum rationals v 4 1 = 3 / 2 := by
  have hg : sharedDiffuse.WellFormed := (Primitive.follows_runAll wellFormed_empty _).wellFormed
  have hacc : ∀ x ∈ sharedDiffuse.ids, Acc (fun b a => sharedDiffuse.Branches a b) x := fun x hx =>
    (ranked_sharedDiffuse.acyclic.untangled x).acc hg hx
  have hhalf : (0.5 : Binary32).unpacked = .finite .positive (2 ^ 23) (-24) (by decide) := by rfl
  have hfac : sharedDiffuse.receivedAt rationals v ⟨3, 0⟩ = 1 / 2 := by
    rw [receivedAt_of_literal (l := .float 0.5) (by decide) rfl]
    show Binary32.toRat 0.5 = 1 / 2
    rw [Binary32.toRat, hhalf, valueOf]
    norm_num
  have hmix : sharedDiffuse.pathSum rationals v 3 1 = 1 / 2 := by
    have hfactor : sharedDiffuse.branchFactor rationals v 3 false =
        1 - sharedDiffuse.receivedAt rationals v ⟨3, 0⟩ := rfl
    have hleft : sharedDiffuse.branch? 3 false = some 1 := by decide
    have hright : sharedDiffuse.branch? 3 true = some 2 := by decide
    rw [pathSum_combine (hacc 3 (by decide)) (by decide), branchSum, branchSum, hleft, hright,
      Option.map_some, Option.map_some, pathSum_leaf (k := .diffuse) (by decide) (by decide),
      pathSum_leaf (k := .emission false) (by decide) (by decide), hfactor, hfac]
    norm_num
  have hleft : sharedDiffuse.branch? 4 false = some 3 := by decide
  have hright : sharedDiffuse.branch? 4 true = some 1 := by decide
  have hone : ∀ second, sharedDiffuse.branchFactor rationals v 4 second = 1 := fun _ => rfl
  rw [pathSum_combine (hacc 4 (by decide)) (by decide), branchSum, branchSum, hleft, hright,
    Option.map_some, Option.map_some, hmix, pathSum_leaf (k := .diffuse) (by decide) (by decide),
    hone, hone]
  norm_num

theorem flattenClosures_path_sums_sharedDiffuse :
    rationals.IsArithmetic ∧ sharedDiffuse.WellFormed ∧ sharedDiffuse.finalized = false ∧
      4 ∈ sharedDiffuse.ids ∧ sharedDiffuse.Untangled 4 ∧ sharedDiffuse.TakesNumber false ⟨1, 3⟩ ∧
      (flattenClosures false 4 none).Ends sharedDiffuse fun _ g' => ∀ v,
        g'.EvaluatesOn rationals v (Set.Ici 5) → g'.receivedAt rationals v ⟨1, 3⟩ = 3 / 2 := by
  have hg : sharedDiffuse.WellFormed := (Primitive.follows_runAll wellFormed_empty _).wellFormed
  have hm : sharedDiffuse.finalized = false := by decide
  have hroot : 4 ∈ sharedDiffuse.ids := by decide
  have hun := ranked_sharedDiffuse.acyclic.untangled 4
  have hnumber : sharedDiffuse.TakesNumber false ⟨1, 3⟩ :=
    ⟨.diffuse, _, by decide, by decide, rfl, rfl⟩
  refine ⟨isArithmetic_rationals, hg, hm, hroot, hun, hnumber,
    (flattenClosures_path_sums rationals isArithmetic_rationals sharedDiffuse hg hm false 4 hroot
      hun).mono ?_⟩
  rintro _ g' ⟨-, h, -, -⟩ v hv
  obtain ⟨-, hsum⟩ := h v hv ⟨1, 3⟩ hnumber
  have hzero : sharedDiffuse.receivedAt rationals v ⟨1, 3⟩ = 0 := Binary32.toRat_zero
  rw [hsum, hzero, pathSum_sharedDiffuse, zero_add]

/-- A script that takes its weight as an integer. -/
def countedScript : Graph :=
  Primitive.runAll [.addKind (.osl ⟨"counted", "", [⟨"SurfaceMixWeight", .int⟩],
    [⟨"Closure", .closure⟩]⟩)] Graph.empty

/-- A weight that is no number is changed as well. -/
theorem flattenClosures_countedScript :
    countedScript.WellFormed ∧ countedScript.finalized = false ∧ 1 ∈ countedScript.ids ∧
      countedScript.Untangled 1 ∧ ¬ countedScript.TakesNumber false ⟨1, 0⟩ ∧
      countedScript.literalAt ⟨1, 0⟩ = some (.int 0) ∧
      (flattenClosures false 1 none).Ends countedScript fun _ g' =>
        g'.literalAt ⟨1, 0⟩ = some (.int 1) := by
  have hg : countedScript.WellFormed := (Primitive.follows_runAll wellFormed_empty _).wellFormed
  refine ⟨hg, by decide, by decide, ?_, ?_, rfl, ?_⟩
  · exact (ranked_of_feeders hg id (by decide)).acyclic.untangled 1
  · rintro ⟨k, d, -, -, hd, hty⟩
    cases hd
    cases hty
  · refine ends_get_bind ?_
    rw [spreadWeight.eq_def]
    exact ends_iff.mpr ⟨(), countedScript.modifyInput ⟨1, 0⟩ (Input.store (.float (0 + 1))), rfl,
      rfl⟩

end Edit

end Shading
