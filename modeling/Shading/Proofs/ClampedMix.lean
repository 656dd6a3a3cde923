import Shading.Proofs.Replacement

/-!
# Clamped mixes

A linked colour cannot replace a clamped mix, since it has to be clamped yet. Instead the mix is kept
and unlinked from everything else (`Graph.Narrows`), so that from then on it mixes the colour with its
own literals. By the identity that led to the shortcut this gives the colour again, with one
exception: a plain mix of a colour with itself. Here the identity needs both links, and one of them is
lost. -/

namespace Shading

open Shortcut

theorem Quantity.IsConst.clampIf [Elementary] {q : Quantity} {c : ℚ} (h : q.IsConst c)
    (hc : 0 ≤ c ∧ c ≤ 1) : (q.clampIf true).IsConst c := by
  have hsat : Scalar.saturate c = c := Scalar.saturate_eq_self_iff.mpr hc
  rcases h with rfl | rfl
  · exact Or.inl (congrArg Quantity.number hsat)
  · refine Or.inr (congrArg Quantity.triple ?_)
    simp [Vec3.saturate, Vec3.map, Vec3.splat, hsat]

/-- Whatever a colour is mixed with by a positive factor, black or white is not kept. -/
theorem BlendMode.eval_blend_ne [Elementary] {fac : ℚ} (hfac : 0 < fac) (c : Vec3 ℚ) :
    ∃ a, (BlendMode.blend.eval fac (.splat a) c).saturate ≠ (Vec3.splat a).saturate := by
  have hpos : 0 < Scalar.saturate fac := by
    refine lt_of_le_of_ne (Scalar.saturate_mem fac).1 fun h => ?_
    exact hfac.not_ge (Scalar.saturate_eq_zero_iff.mp h.symm)
  by_contra hall
  simp only [not_exists, not_not] at hall
  have hblack : Scalar.saturate (0 + (c.x - 0) * Scalar.saturate fac) = Scalar.saturate 0 :=
    congrArg Vec3.x (hall 0)
  have hwhite : Scalar.saturate (1 + (c.x - 1) * Scalar.saturate fac) = Scalar.saturate 1 :=
    congrArg Vec3.x (hall 1)
  rw [Scalar.saturate_zero, Scalar.saturate_eq_zero_iff] at hblack
  rw [Scalar.saturate_one, Scalar.saturate_eq_one_iff] at hwhite
  nlinarith

theorem MixFacts.sameLink_iff {n : Node} : (MixFacts.ofNode n).sameLink = true ↔
    ∃ s, n.link? "Color1" = some s ∧ n.link? "Color2" = some s := by
  simp only [MixFacts.ofNode, Bool.and_eq_true, beq_iff_eq, Option.isSome_iff_exists]
  grind

theorem MixFacts.le_zero_of_facZero [Elementary] {n : Node}
    (h : (MixFacts.ofNode n).facZero = true) : (n.float "Fac").toRat ≤ 0 := by
  simp only [MixFacts.ofNode, Bool.and_eq_true] at h
  rw [← Scalar.saturate_eq_zero_iff, ← Binary32.toRat_saturate, Binary32.toRat_congr h.2,
    Binary32.toRat_zero]

theorem MixFacts.facOne_of_facZero {n : Node} (h : (MixFacts.ofNode n).facZero = true) :
    (MixFacts.ofNode n).facOne = false := by
  simp only [MixFacts.ofNode, Bool.and_eq_true, Bool.and_eq_false_iff] at h ⊢
  refine Or.inr (Bool.eq_false_iff.mpr fun hone => ?_)
  have habs := (Binary32.toRat_congr h.2).symm.trans (Binary32.toRat_congr hone)
  rw [Binary32.toRat_zero, Binary32.toRat_one] at habs
  exact zero_ne_one habs

namespace BlendMode

variable {facts : MixFacts} {t : InputTests} {mode : BlendMode}

/-- Only a plain mix passes on a colour for the reason that both colours are linked to one output. -/
theorem shortcut_sameLink {name : String} (h : mode.shortcut facts t = .ok (.passThrough name))
    (hb : mode = .blend → facts.sameLink = false) :
    mode.shortcut { facts with sameLink := false } t = .ok (.passThrough name) := by
  cases mode with
  | blend =>
    rw [← hb rfl]
    exact h
  | subtract =>
    refine yields_check (P := fun s => s = .passThrough name → _) (fun ht => yields_pure ?_)
      (yields_ite (fun _ => yields_pure nofun) fun _ => yields_pure nofun) _ h rfl
    rintro ⟨⟩
    simp only [shortcut, ht]
    rfl
  | _ => exact h

/-- If the first colour is linked and the factor is not one, only the first colour is passed on. -/
theorem yields_shortcut (hone : facts.facOne = false) (h₀ : t.isZero "Color1" ≠ .ok true) :
    Yields (fun s => s = .keep ∨ s = .passThrough "Color1") (mode.shortcut facts t) := by
  have hkeep : Yields (fun s => s = .keep ∨ s = .passThrough "Color1") (pure .keep) :=
    yields_pure (Or.inl rfl)
  have hpass : Yields (fun s => s = .keep ∨ s = .passThrough "Color1")
    (pure (.passThrough "Color1")) := yields_pure (Or.inr rfl)
  have hno : ∀ {r : Except Fault Shortcut}, facts.facOne = true → Yields
    (fun s => s = .keep ∨ s = .passThrough "Color1") r := fun h => by simp [hone] at h
  cases mode with
  | blend => exact yields_ite (fun _ => hpass) fun _ => yields_ite hno fun _ => hkeep
  | add => exact yields_check_and (fun _ => hno) (yields_check (fun _ => hpass) hkeep)
  | subtract =>
    refine yields_check (fun _ => hpass) (yields_ite (fun h => hno ?_) fun _ => hkeep)
    exact (Bool.and_eq_true .. ▸ h).2
  | multiply =>
    exact yields_check_and (fun _ => hno) <| yields_check (fun _ => hpass) <|
      yields_check (fun h => absurd h h₀) <| yields_check_and (fun _ => hno) hkeep
  | _ => exact hkeep

end BlendMode

namespace Graph

variable {g g' : Graph} {x : NodeId} {i : Nat} {r : InputRef}

/-! ### Unlinked inputs -/

theorem Narrows.trans {g₁ g₂ g₃ : Graph} (h : g₁.Narrows r g₂) (h' : g₂.Narrows r g₃) :
    g₁.Narrows r g₃ :=
  ⟨(h.trims.trans h'.trims).congr fun _ _ _ => or_self_iff, fun r' =>
    (h'.literalAt_eq r').trans (h.literalAt_eq r')⟩

section

variable {V : Type*} {I : Interpretation V} {v : OutputRef → V} {k : NodeKind} {name : String}
  (h : g.Narrows ⟨x, i⟩ g')
include h

theorem Narrows.kind? (hk : g.kind? x = some k) : g'.kind? x = some k :=
  (h.trims.kind?_eq x).trans hk

theorem Narrows.receives_kept (hg : g.WellFormed) (hk : g.kind? x = some k)
    (hslot : k.layout.inputSlot? name = some i) {s : OutputRef} (hs : g.linkAt ⟨x, i⟩ = some s) :
    g'.receives I v x name = g.receives I v x name := by
  have hs' : g'.linkAt ⟨x, i⟩ = some s := (h.trims.kept _ fun hr => hr.2 rfl).trans hs
  rw [receives_of_inputRef (h.trims.wellFormed.inputRef_eq (h.kind? hk) hslot),
    receives_of_inputRef (hg.inputRef_eq hk hslot), receivedAt_of_link hs, receivedAt_of_link hs']

theorem Narrows.receives_literal (hk : g.kind? x = some k) {j : Nat}
    (hslot : k.layout.inputSlot? name = some j) (hj : j ≠ i) {l : Literal}
    (hl : g.literalAt ⟨x, j⟩ = some l) : g'.receives I v x name = I.literal l := by
  have hnone : g'.linkAt ⟨x, j⟩ = none :=
    h.trims.cut _ ⟨rfl, fun heq => hj (congrArg InputRef.slot heq)⟩
  rw [receives_of_inputRef (h.trims.wellFormed.inputRef_eq (h.kind? hk) hslot),
    receivedAt_of_literal hnone ((h.literalAt_eq _).trans hl)]

end

variable [Elementary] {v : OutputRef → Quantity} {mode : BlendMode}

/-- Inputs that were unlinked before receive what they received then. -/
theorem Narrows.readsLiterals (h : g.Narrows r g') :
    g.ReadsLiterals x (g'.receives exactArithmetic v x) := by
  intro name r' l hr hs hl
  rw [g.inputRef_eq_ok, ← h.trims.layout?_eq, ← g'.inputRef_eq_ok] at hr
  refine g'.readsLiterals_receives x v name r' l hr ?_ ((h.literalAt_eq r').trans hl)
  rw [Option.eq_none_iff_forall_ne_some]
  intro s hs'
  simp [(h.trims.linkAt_some hs').1] at hs

omit [Elementary] in
theorem linkAt_of_holdsZero {name : String} (hr : g.inputRef x name = .ok r)
    (h : g.holdsZero x name = .ok true) : g.linkAt r = none := by
  obtain ⟨r', i, hr', hi, htest⟩ := exists_of_test h
  obtain rfl : r = r' := Except.ok.inj (hr.symm.trans hr')
  simp only [Node.isZeroInput, Bool.and_eq_true, Bool.not_eq_true', Input.isLinked,
    Option.isSome_eq_false_iff, Option.isNone_iff_eq_none] at htest
  simp [linkAt, hi, htest.1.1]

/-- The consumers of an output receive given values. -/
def Sustains (o : OutputRef) (q : (OutputRef → Quantity) → Quantity) (g g' : Graph) : Prop :=
  ∀ r, g.linkAt r = some o → ∀ v, g.Assigns o.node v →
    g'.delivered exactArithmetic v o.node r = q v

theorem Supplants.sustains {o : OutputRef} {q : (OutputRef → Quantity) → Quantity}
    (h : g.Supplants o q g') : g.Sustains o q g' := fun r hr => (h r hr).2

/-- A clamped literal replaces the clamped mix. -/
theorem Stores.sustains {l : Literal} (h : g.Stores ⟨x, 0⟩ l.saturate g') (hg : g.WellFormed)
    (hk : g.kind? x = some (.mix mode true)) (hl : l.hasShape .color = true)
    (hq : ∀ v, g.Assigns x v → g.mixResult x mode v = l.quantity) :
    g.Sustains ⟨x, 0⟩ (fun v => (g.mixResult x mode v).clampIf true) g' := by
  have ho : g.outputDecl? ⟨x, 0⟩ = some ⟨"Color", .color⟩ := hg.outputDecl?_eq hk 0
  refine (h.supplants hg ho (Literal.hasShape_saturate.trans hl) rfl fun v hv => ?_).sustains
  rw [hq v hv, Literal.quantity_saturate hl rfl]

/-- The mix stays where it was, with what it is linked to yet. -/
theorem Narrows.delivered_eq (h : g.Narrows ⟨x, i⟩ g') {clamped : Bool}
    (hk : g.kind? x = some (.mix mode clamped)) (hself : ¬ g.Feeds x x)
    (hr : g.linkAt r = some ⟨x, 0⟩) :
    g'.delivered exactArithmetic v x r = (g'.mixResult x mode v).clampIf clamped := by
  have hfeeds : g.Feeds x r.node := feeds_of_linkAt hr
  have hne : r.node ≠ x := fun hx => hself (hx ▸ hfeeds)
  have hr' : g'.linkAt r = some ⟨x, 0⟩ := (h.trims.kept r fun hT => hne hT.1).trans hr
  obtain ⟨n, hn, hkind⟩ := Option.map_eq_some_iff.mp (h.kind? hk)
  have hv : g'.delivered exactArithmetic v x r = n.computed exactArithmetic v 0 :=
    delivered_of_node hr' hn
  rw [hv, h.trims.wellFormed.computed_mix hn hkind]

theorem Narrows.sustains (h : g.Narrows ⟨x, i⟩ g') (hk : g.kind? x = some (.mix mode true))
    (hself : ¬ g.Feeds x x)
    (hq : ∀ v, g.Assigns x v → g'.mixResult x mode v = g.mixResult x mode v) :
    g.Sustains ⟨x, 0⟩ (fun v => (g.mixResult x mode v).clampIf true) g' := by
  intro r hr v hv
  rw [h.delivered_eq hk hself hr, hq v hv]

section

variable {n : Node} {clamped : Bool} {s : OutputRef} (hg : g.WellFormed) (hn : g.node? x = some n)
  (hkind : n.kind = .mix mode clamped) (hs : n.link? "Color1" = some s)
include hg hn hkind hs

/-- A mix that keeps the link of its first colour only takes the rest from its literals. -/
theorem Narrows.mixResult_eq (h : g.Narrows ⟨x, 1⟩ g') :
    g'.mixResult x mode v = .triple (mode.eval (n.float "Fac").toRat (v s).toTriple
      ((n.float3 "Color2").map Binary32.toRat)) := by
  have hk : g.kind? x = some n.kind := by simp [Graph.kind?, hn]
  have hfac : n.kind.layout.inputSlot? "Fac" = some 0 := hkind ▸ rfl
  have hcolor₁ : n.kind.layout.inputSlot? "Color1" = some 1 := hkind ▸ rfl
  have hcolor₂ : n.kind.layout.inputSlot? "Color2" = some 2 := hkind ▸ rfl
  have hs' : g.linkAt ⟨x, 1⟩ = some s := (hg.link?_eq hn hcolor₁).symm.trans hs
  rw [mixResult, h.receives_kept hg hk hcolor₁ hs', receives_of_inputRef (hg.inputRef_eq hk hcolor₁),
    receivedAt_of_link hs', h.receives_literal hk hfac (by decide)
      (hg.literalAt_float hn hfac (by rw [hkind]; rfl) rfl),
    h.receives_literal hk hcolor₂ (by decide)
      (hg.literalAt_float3 hn hcolor₂ (by rw [hkind]; rfl) rfl)]
  rfl

/-- A plain mix of a colour with itself is the colour. -/
theorem WellFormed.mixResult_sameLink (hs₂ : n.link? "Color2" = some s) (hmode : mode = .blend) :
    g.mixResult x mode v = .triple (v s).toTriple := by
  have hk : g.kind? x = some n.kind := by simp [Graph.kind?, hn]
  have hcolor₁ : n.kind.layout.inputSlot? "Color1" = some 1 := hkind ▸ rfl
  have hcolor₂ : n.kind.layout.inputSlot? "Color2" = some 2 := hkind ▸ rfl
  rw [mixResult, receives_of_inputRef (hg.inputRef_eq hk hcolor₁),
    receives_of_inputRef (hg.inputRef_eq hk hcolor₂),
    receivedAt_of_link ((hg.link?_eq hn hcolor₁).symm.trans hs),
    receivedAt_of_link ((hg.link?_eq hn hcolor₂).symm.trans hs₂), hmode]
  simp [BlendMode.eval, Vec3.lerp, Vec3.zipWith]

end

end Graph

namespace Edit

section

variable {g : Graph} {x : NodeId} {mode : BlendMode} {n : Node}
  (hg : g.WellFormed) (hm : g.finalized = false) (hk : g.kind? x = some (.mix mode true))
include hg hm hk

/-! ### Passing on a colour -/

/-- A literal takes the place of the mix, and a link narrows it. -/
theorem ends_passThrough_color {name : String} {i : Nat}
    (hslot : (NodeKind.mix mode true).layout.inputSlot? name = some i)
    (hcolor : ((NodeKind.mix mode true).inputDecls[i]?).map (·.type) = some .color) :
    (passThrough ⟨x, 0⟩ name true).Ends g fun replaced g' =>
      if replaced then ∃ l, g.linkAt ⟨x, i⟩ = none ∧ g.literalAt ⟨x, i⟩ = some l ∧
        l.hasShape .color = true ∧ g.Stores ⟨x, 0⟩ l.saturate g'
      else g.linkAt ⟨x, i⟩ ≠ none ∧ g.Narrows ⟨x, i⟩ g' := by
  have ho : g.outputDecl? ⟨x, 0⟩ = some ⟨"Color", .color⟩ := hg.outputDecl?_eq hk 0
  obtain ⟨d, hd⟩ := hg.exists_inputDecl? hk hslot
  have hty : d.type = .color := by simpa [← hg.inputDecl?_eq hk, hd] using hcolor
  refine (ends_passThrough_passesOn (o := ⟨x, 0⟩) hg hm ho hk hslot hd true).mono
    fun replaced g' h => ?_
  cases h with
  | kept h =>
    rw [hty] at h
    cases h rfl
  | @stored l _ _ _ hs hl h => exact ⟨l, hs, hl, hty ▸ hg.shaped _ _ _ hd hl, h⟩
  | narrowed _ _ hs h => exact ⟨by simp [hs], h⟩
  | redirected _ hc => cases hc

omit hg in
/-- A linked colour can be passed on again, with the same effect. -/
theorem ends_shortcut_narrows {g₁ : Graph} (hs : g.linkAt ⟨x, 1⟩ ≠ none)
    (h : g.Narrows ⟨x, 1⟩ g₁) {facts : MixFacts} (hone : facts.facOne = false) :
    (do
      let s ← ask fun g => mode.shortcut facts (.ofGraph g x)
      s.apply ⟨x, 0⟩ true).Ends g₁ fun _ => g.Narrows ⟨x, 1⟩ := by
  have hg₁ := h.trims.wellFormed
  have hk₁ := h.kind? hk
  have hs₁ : g₁.linkAt ⟨x, 1⟩ ≠ none := by rwa [h.trims.kept _ fun hr => hr.2 rfl]
  have hzero : (InputTests.ofGraph g₁ x).isZero "Color1" ≠ .ok true := fun htest =>
    hs₁ (Graph.linkAt_of_holdsZero (hg₁.inputRef_eq hk₁ rfl) htest)
  obtain ⟨s, hs', -⟩ := mode.found_shortcut (answer_ofGraph hg₁ hk₁ rfl) facts
  refine ends_ask_bind hs' ?_
  obtain rfl | rfl := BlendMode.yields_shortcut hone hzero s hs'
  · exact ends_pure h
  · refine ends_discard ((ends_passThrough_color hg₁ (h.trims.finalized.trans hm) hk₁ (i := 1)
      rfl rfl).mono fun replaced g₂ h₂ => ?_)
    cases replaced with
    | true =>
      obtain ⟨_, hnone, -⟩ := h₂
      exact absurd hnone hs₁
    | false => exact h.trans h₂.2

end

/-! ### The rule -/

section

variable [Elementary] {g : Graph} {x : NodeId} {mode : BlendMode} {n : Node} (hg : g.WellFormed)
  (hm : g.finalized = false) (hn : g.node? x = some n) (hkind : n.kind = .mix mode true)
  (hself : ¬ g.Feeds x x)
include hg hm hn hkind hself

/-- A factor of zero selects the first colour, linked or not. -/
theorem ends_foldMix_facZero (hfac : (MixFacts.ofNode n).facZero = true) :
    (foldMix ⟨x, 0⟩ mode true).Ends g fun _ =>
      g.Sustains ⟨x, 0⟩ fun v => (g.mixResult x mode v).clampIf true := by
  have hk : g.kind? x = some (.mix mode true) := by simp [Graph.kind?, hn, hkind]
  have hresult : ∀ v, g.mixResult x mode v =
      .triple (g.receives exactArithmetic v x "Color1").toTriple := fun v =>
    congrArg Quantity.triple (mode.eval_facZero ((hg.tell_receives hn hkind).facZero hfac) ..)
  have hnarrow : ∀ g', g.linkAt ⟨x, 1⟩ ≠ none → g.Narrows ⟨x, 1⟩ g' → ∀ v,
      g'.mixResult x mode v = g.mixResult x mode v := fun g' hs h v => by
    obtain ⟨s, hs⟩ := Option.ne_none_iff_exists'.mp hs
    have hkept : g'.receives exactArithmetic v x "Color1" = g.receives exactArithmetic v x "Color1" :=
      h.receives_kept hg hk rfl hs
    have hreads : g.ReadsLiterals x (g'.receives exactArithmetic v x) := h.readsLiterals
    have htell := hreads.tell hg hn hkind (b := false) (absurd · Bool.false_ne_true)
    rw [hresult, ← hkept]
    exact congrArg Quantity.triple (mode.eval_facZero (htell.facZero hfac) ..)
  refine ends_ask_bind ((g.node_eq_ok).mpr hn) ?_
  dsimp only
  rw [if_pos hfac]
  refine Ends.bind (ends_passThrough_color hg hm hk (i := 1) rfl rfl) fun replaced g₁ h => ?_
  cases replaced with
  | true =>
    obtain ⟨l, hs, hl, hshape, h⟩ := h
    refine ends_pure (h.sustains hg hk hshape fun v hv => ?_)
    rw [hresult, Graph.receives_of_inputRef (hg.inputRef_eq hk (i := 1) rfl),
      Graph.receivedAt_of_literal hs hl]
    exact ((Literal.hasType_quantity hshape rfl).eq_triple rfl).symm
  | false =>
    have hone := MixFacts.facOne_of_facZero hfac
    exact (ends_shortcut_narrows hm hk h.1 h.2 hone).mono fun _ g' h' =>
      h'.sustains hk hself fun v _ => hnarrow g' h.1 h' v

/-- Another shortcut to a colour holds of the literals too. -/
theorem ends_foldMix_shortcut (hfac : (MixFacts.ofNode n).facZero = false)
    (hb : mode = .blend → (MixFacts.ofNode n).sameLink = false) :
    (foldMix ⟨x, 0⟩ mode true).Ends g fun _ =>
      g.Sustains ⟨x, 0⟩ fun v => (g.mixResult x mode v).clampIf true := by
  have hk : g.kind? x = some (.mix mode true) := by simp [Graph.kind?, hn, hkind]
  have ho : g.outputDecl? ⟨x, 0⟩ = some ⟨"Color", .color⟩ := hg.outputDecl?_eq hk 0
  have hkeep : g.Sustains ⟨x, 0⟩ (fun v => (g.mixResult x mode v).clampIf true) g :=
    fun r hr v _ => (Graph.delivered_of_node hr hn).trans (hg.computed_mix hn hkind)
  have hgives := fun v => mode.gives_shortcut (g.readsLiterals_receives x v).tells
    (hg.tell_receives hn hkind)
  have htype : ∀ v c, (g.mixResult x mode v).IsConst c → 0 ≤ c ∧ c ≤ 1 →
      ((g.mixResult x mode v).clampIf true).HasType .color ∧
        ((g.mixResult x mode v).clampIf true).IsConst c := fun v c h hc =>
    ⟨rfl, h.clampIf hc⟩
  refine ends_ask_bind ((g.node_eq_ok).mpr hn) ?_
  dsimp only
  rw [hfac, if_neg Bool.false_ne_true]
  obtain ⟨s, hs, hw⟩ := mode.found_shortcut (answer_ofGraph hg hk rfl) (MixFacts.ofNode n)
  refine ends_ask_bind hs ?_
  cases s with
  | keep => exact ends_pure hkeep
  | zero =>
    refine (ends_makeZero_supplants hg hm ho fun v _ => htype v 0 (hgives v _ hs)
      (by norm_num)).mono ?_
    rintro _ g' (rfl | h)
    · exact hkeep
    · exact h.sustains
  | one =>
    refine (ends_makeOne_supplants hg hm ho fun v _ => htype v 1 (hgives v _ hs)
      (by norm_num)).mono ?_
    rintro _ g' (rfl | h)
    · exact hkeep
    · exact h.sustains
  | passThrough name =>
    obtain ⟨i, hslot, hcolor⟩ : ∃ i, (NodeKind.mix mode true).layout.inputSlot? name = some i ∧
        ((NodeKind.mix mode true).inputDecls[i]?).map (·.type) = some .color := by
      simp only [Within, List.mem_cons, List.not_mem_nil, or_false] at hw
      rcases hw with rfl | rfl
      · exact ⟨1, rfl, rfl⟩
      · exact ⟨2, rfl, rfl⟩
    have hcolored : ∀ v, g.Assigns x v → (g.receives exactArithmetic v x name).HasType .color := by
      obtain ⟨d, hd, hty⟩ := Option.map_eq_some_iff.mp hcolor
      exact fun v hv => hty ▸ hg.hasType_receives hv hk hslot hd (hty ▸ rfl)
    have hpass : ∀ v, g.Assigns x v → g.mixResult x mode v = g.receives exactArithmetic v x name :=
      fun v hv => hgives v _ hs .color rfl (hcolored v hv)
    refine ends_discard ((ends_passThrough_color hg hm hk hslot hcolor).mono
      fun replaced g' h => ?_)
    cases replaced with
    | true =>
      obtain ⟨l, hnone, hl, hshape, h⟩ := h
      refine h.sustains hg hk hshape fun v hv => ?_
      rw [hpass v hv, Graph.receives_of_inputRef (hg.inputRef_eq hk hslot),
        Graph.receivedAt_of_literal hnone hl]
      rfl
    | false =>
      obtain ⟨hlink, h⟩ := h
      obtain ⟨o, ho⟩ := Option.ne_none_iff_exists'.mp hlink
      refine h.sustains hk hself fun v hv => ?_
      have hkept : g'.receives exactArithmetic v x name = g.receives exactArithmetic v x name :=
        h.receives_kept hg hk hslot ho
      have hreads : g.ReadsLiterals x (g'.receives exactArithmetic v x) := h.readsLiterals
      have htell := hreads.tell hg hn hkind (b := false) (absurd · Bool.false_ne_true)
      have hpass' := mode.gives_shortcut hreads.tells htell _ (BlendMode.shortcut_sameLink hs hb)
        .color rfl (hkept ▸ hcolored v hv)
      exact hpass'.trans (hkept.trans (hpass v hv).symm)

omit [Elementary] hself in
/-- A plain mix of a linked colour with itself keeps only the first link. -/
theorem ends_foldMix_sameLink (hfac : (MixFacts.ofNode n).facZero = false)
    (hsame : (MixFacts.ofNode n).sameLink = true) (hmode : mode = .blend) :
    (foldMix ⟨x, 0⟩ mode true).Ends g fun _ => g.Narrows ⟨x, 1⟩ := by
  subst hmode
  have hk : g.kind? x = some (.mix .blend true) := by simp [Graph.kind?, hn, hkind]
  have hslot : n.kind.layout.inputSlot? "Color1" = some 1 := by
    rw [hkind]
    rfl
  have hlink : g.linkAt ⟨x, 1⟩ ≠ none := by
    obtain ⟨s, hs, -⟩ := MixFacts.sameLink_iff.mp hsame
    simp [← hg.link?_eq hn hslot, hs]
  have hs : ∀ t, BlendMode.blend.shortcut (MixFacts.ofNode n) t = .ok (.passThrough "Color1") :=
    fun t => by simp [BlendMode.shortcut, hsame, pure, Except.pure]
  refine ends_ask_bind ((g.node_eq_ok).mpr hn) ?_
  dsimp only
  rw [hfac, if_neg Bool.false_ne_true]
  refine ends_ask_bind (hs _) (ends_discard ((ends_passThrough_color hg hm hk (i := 1)
    rfl rfl).mono fun replaced g' h => ?_))
  cases replaced with
  | true =>
    obtain ⟨_, hnone, -⟩ := h
    exact absurd hnone hlink
  | false => exact h.2

/-- The rule, except for a plain mix of a colour with itself by a positive factor. -/
theorem ends_foldMix_sustains (h : ¬ (mode = .blend ∧ 0 < (n.float "Fac").toRat ∧
      ∃ s, n.link? "Color1" = some s ∧ n.link? "Color2" = some s)) :
    (foldMix ⟨x, 0⟩ mode true).Ends g fun _ =>
      g.Sustains ⟨x, 0⟩ fun v => (g.mixResult x mode v).clampIf true := by
  have hk : g.kind? x = some (.mix mode true) := by simp [Graph.kind?, hn, hkind]
  cases hfac : (MixFacts.ofNode n).facZero with
  | true => exact ends_foldMix_facZero hg hm hn hkind hself hfac
  | false =>
    by_cases hblend : mode = .blend ∧ (MixFacts.ofNode n).sameLink = true
    · obtain ⟨hmode, hsame⟩ := hblend
      have hlinks := MixFacts.sameLink_iff.mp hsame
      have hzero : Scalar.saturate (n.float "Fac").toRat = 0 :=
        Scalar.saturate_eq_zero_iff.mpr (not_lt.mp fun hpos => h ⟨hmode, hpos, hlinks⟩)
      obtain ⟨s, hs₁, hs₂⟩ := hlinks
      refine (ends_foldMix_sameLink hg hm hn hkind hfac hsame hmode).mono fun _ g' h' =>
        h'.sustains hk hself fun v _ => ?_
      rw [h'.mixResult_eq hg hn hkind hs₁, hg.mixResult_sameLink hn hkind hs₁ hs₂ hmode,
        mode.eval_facZero hzero]
    · refine ends_foldMix_shortcut hg hm hn hkind hself hfac fun hmode => ?_
      exact Bool.eq_false_iff.mpr fun hsame => hblend ⟨hmode, hsame⟩

/-- With a positive factor, the literal of the second colour is mixed in. -/
theorem ends_foldMix_blend {s : OutputRef} (hmode : mode = .blend)
    (hpos : 0 < (n.float "Fac").toRat) (hs₁ : n.link? "Color1" = some s)
    (hs₂ : n.link? "Color2" = some s) :
    (foldMix ⟨x, 0⟩ mode true).Ends g fun _ g' => ∀ r, g.linkAt r = some ⟨x, 0⟩ → ∀ v,
      g'.delivered exactArithmetic v x r =
        (Quantity.triple (mode.eval (n.float "Fac").toRat (v s).toTriple
          ((n.float3 "Color2").map Binary32.toRat))).clampIf true := by
  have hk : g.kind? x = some (.mix mode true) := by simp [Graph.kind?, hn, hkind]
  have hfac : (MixFacts.ofNode n).facZero = false :=
    Bool.eq_false_iff.mpr fun h => hpos.not_ge (MixFacts.le_zero_of_facZero h)
  refine (ends_foldMix_sameLink hg hm hn hkind hfac (MixFacts.sameLink_iff.mpr ⟨s, hs₁, hs₂⟩)
    hmode).mono fun _ g' h r hr v => ?_
  rw [h.delivered_eq hk hself hr, h.mixResult_eq hg hn hkind hs₁]

omit [Elementary] hg hm hself in
theorem ends_foldOutput_mix (hlinked : n.hasLinkedInput = true) {Q : Unit → Graph → Prop}
    (h : (foldMix ⟨x, 0⟩ mode true).Ends g Q) : (foldOutput ⟨x, 0⟩).Ends g Q := by
  refine ends_ask_bind ((g.node_eq_ok).mpr hn) ?_
  dsimp only
  rw [hkind, hlinked]
  exact h

/-- **A mix of a colour with itself.** Folding a clamped mix keeps what its consumers receive for
all values upstream, unless it is a plain mix of a linked colour with itself by a positive factor.
Then the link of the second colour is lost, and its literal is mixed in. -/
theorem foldOutput_clamped_mix (hlinked : n.hasLinkedInput = true) :
    (foldOutput ⟨x, 0⟩).Ends g fun _ g' => ∀ r ∈ g.fanOut ⟨x, 0⟩,
      (∀ v, g.delivered exactArithmetic v x r = (g.mixResult x mode v).clampIf true) ∧
      ((∀ v, g.Assigns x v →
          g'.delivered exactArithmetic v x r = (g.mixResult x mode v).clampIf true) ↔
        ¬ (mode = .blend ∧ 0 < (n.float "Fac").toRat ∧
          ∃ s, n.link? "Color1" = some s ∧ n.link? "Color2" = some s)) ∧
      ∀ s, n.link? "Color1" = some s → n.link? "Color2" = some s → mode = .blend →
        0 < (n.float "Fac").toRat → ∀ v, g'.delivered exactArithmetic v x r =
          (Quantity.triple (mode.eval (n.float "Fac").toRat (v s).toTriple
            ((n.float3 "Color2").map Binary32.toRat))).clampIf true := by
  have hk : g.kind? x = some (.mix mode true) := by simp [Graph.kind?, hn, hkind]
  have hbefore : ∀ r ∈ g.fanOut ⟨x, 0⟩, ∀ v,
      g.delivered exactArithmetic v x r = (g.mixResult x mode v).clampIf true := fun r hr v =>
    (Graph.delivered_of_node ((hg.link_iff r _).mpr hr) hn).trans (hg.computed_mix hn hkind)
  refine ends_foldOutput_mix hn hkind hlinked ?_
  by_cases hbad : mode = .blend ∧ 0 < (n.float "Fac").toRat ∧
    ∃ s, n.link? "Color1" = some s ∧ n.link? "Color2" = some s
  · obtain ⟨hmode, hpos, s, hs₁, hs₂⟩ := hbad
    refine (ends_foldMix_blend hg hm hn hkind hself hmode hpos hs₁ hs₂).mono
      fun _ g' h r hr => ⟨hbefore r hr, iff_of_false (fun hall => ?_) ?_, ?_⟩
    -- black or white upstream
    · obtain ⟨a, ha⟩ := BlendMode.eval_blend_ne hpos ((n.float3 "Color2").map Binary32.toRat)
      have hfloat : ∀ d ∈ (NodeKind.mix mode true).inputDecls, d.type.isFloating = true :=
        List.all_eq_true.mp rfl
      have heq := hall _ (hg.assigns_uniform hk hfloat a)
      rw [h r ((hg.link_iff r _).mpr hr), hg.mixResult_sameLink hn hkind hs₁ hs₂ hmode,
        (g.isConst_uniform a s).toTriple_eq, hmode] at heq
      exact ha (Quantity.triple.inj heq)
    · exact fun hne => hne ⟨hmode, hpos, s, hs₁, hs₂⟩
    · rintro s' hs' - - - v
      obtain rfl : s = s' := Option.some.inj (hs₁.symm.trans hs')
      exact h r ((hg.link_iff r _).mpr hr) v
  · refine (ends_foldMix_sustains hg hm hn hkind hself hbad).mono fun _ g' h r hr => ?_
    refine ⟨hbefore r hr, iff_of_true (h r ((hg.link_iff r _).mpr hr)) hbad, ?_⟩
    exact fun s hs₁ hs₂ hmode hpos => absurd ⟨hmode, hpos, s, hs₁, hs₂⟩ hbad

end

/-- A clamped product with white, by a linked factor, as the colour of an emission. -/
def timesWhite : Graph :=
  Primitive.runAll [.addKind (.namedAttribute "tint"), .addKind (.mix .multiply true),
    .addKind (.emission false), .storeNamed 2 "Color2" (.float3 (.splat 1)),
    .connect ⟨1, 2⟩ ⟨2, 0⟩, .connect ⟨1, 0⟩ ⟨2, 1⟩, .connect ⟨2, 0⟩ ⟨3, 0⟩] Graph.empty

/-- The product is unlinked from its factor, and still receives the colour. -/
theorem foldOutput_clamped_mix_timesWhite :
    letI : Elementary := .simplest
    (foldOutput ⟨2, 0⟩).Ends timesWhite fun _ g' => g'.linkAt ⟨2, 0⟩ = none ∧
      g'.delivered exactArithmetic (timesWhite.uniform 3) 2 ⟨3, 0⟩ =
        (timesWhite.mixResult 2 .multiply (timesWhite.uniform 3)).clampIf true := by
  let _ : Elementary := .simplest
  have hg : timesWhite.WellFormed := (Primitive.follows_runAll Graph.wellFormed_empty _).wellFormed
  have hk : timesWhite.kind? 2 = some (.mix .multiply true) := by decide +kernel
  have hnode : (timesWhite.node? 2).any (·.hasLinkedInput) = true := by decide +kernel
  obtain ⟨n, hn, hlinked⟩ := (Option.any_eq_true ..).mp hnode
  have hkind : n.kind = .mix .multiply true := by simpa [Graph.kind?, hn] using hk
  have hself : ¬ timesWhite.Feeds 2 2 := by
    rw [← Graph.mem_feeders]
    decide +kernel
  have hends : (foldOutput ⟨2, 0⟩).Ends timesWhite fun _ g' => g'.linkAt ⟨2, 0⟩ = none := by
    decide +kernel
  refine (hends.and (foldOutput_clamped_mix hg (by decide +kernel) hn hkind hself
    hlinked)).mono fun _ g' h => ⟨h.1, ?_⟩
  obtain ⟨-, hiff, -⟩ := h.2 ⟨3, 0⟩ (by decide +kernel)
  exact hiff.mpr (fun hbad => nomatch hbad.1) _ (hg.assigns_uniform hk (by decide) 3)

/-- A clamped mix of white with itself as the colour of an emission. The literal of the second colour
is black, and the factor is one. -/
def selfMix : Graph :=
  Primitive.runAll [.addKind .color, .addKind (.mix .blend true), .addKind (.emission false),
    .storeNamed 1 "Value" (.float3 (.splat 1)), .storeNamed 2 "Fac" (.float 1),
    .storeNamed 2 "Color2" (.float3 (.splat 0)), .connect ⟨1, 0⟩ ⟨2, 1⟩, .connect ⟨1, 0⟩ ⟨2, 2⟩,
    .connect ⟨2, 0⟩ ⟨3, 0⟩, .connect ⟨3, 0⟩ ⟨0, 0⟩] Graph.empty

/-- The mix is white, and so is the emission if all constants are propagated. But if the mix is folded
first, the emission is black. -/
theorem foldOutput_selfMix_black :
    letI : Elementary := .simplest
    (selfMix.mixResult 2 .blend fun _ => .triple (.splat 1)).clampIf true = .triple (.splat 1) ∧
      ((foldOutput ⟨2, 0⟩).Ends selfMix fun _ g' => g'.linkAt ⟨2, 2⟩ = none ∧
        g'.delivered exactArithmetic (fun _ => .triple (.splat 1)) 2 ⟨3, 0⟩ =
          .triple (.splat 0)) ∧
      (propagateConstants.Ends selfMix fun _ g' =>
        (g'.literalAt ⟨3, 0⟩).any (·.isOne) = true) ∧
      (do foldOutput ⟨2, 0⟩; propagateConstants : Edit Unit).Ends selfMix fun _ g' =>
        (g'.literalAt ⟨3, 0⟩).any (·.isZero) = true := by
  let _ : Elementary := .simplest
  have hg : selfMix.WellFormed := (Primitive.follows_runAll Graph.wellFormed_empty _).wellFormed
  have hk : selfMix.kind? 2 = some (.mix .blend true) := by decide +kernel
  have hself : ¬ selfMix.Feeds 2 2 := by
    rw [← Graph.mem_feeders]
    decide +kernel
  have hnode : (selfMix.node? 2).any (fun n => n.hasLinkedInput && n.float "Fac" == 1 &&
    (Literal.float3 (n.float3 "Color2")).isZero && n.link? "Color1" == some ⟨1, 0⟩ &&
    n.link? "Color2" == some ⟨1, 0⟩) = true := by decide +kernel
  obtain ⟨n, hn, hp⟩ := (Option.any_eq_true ..).mp hnode
  simp only [Bool.and_eq_true] at hp
  obtain ⟨⟨⟨⟨hlinked, hfac⟩, hblack⟩, hs₁⟩, hs₂⟩ := hp
  rw [beq_iff_eq] at hs₁ hs₂
  have hkind : n.kind = .mix .blend true := by simpa [Graph.kind?, hn] using hk
  have hone : (n.float "Fac").toRat = 1 := (Binary32.toRat_congr hfac).trans Binary32.toRat_one
  have hzero : (n.float3 "Color2").map Binary32.toRat = .splat 0 :=
    (Literal.isConst_quantity_of_isZero hblack).toTriple_eq
  refine ⟨?_, ?_, by decide +kernel, by decide +kernel⟩
  · rw [hg.mixResult_sameLink hn hkind hs₁ hs₂ rfl]
    simp [Quantity.clampIf, Quantity.toTriple, Vec3.saturate, Vec3.map, Vec3.splat]
  · have hends : (foldOutput ⟨2, 0⟩).Ends selfMix fun _ g' => g'.linkAt ⟨2, 2⟩ = none := by
      decide +kernel
    have hfold := ends_foldOutput_mix hn hkind hlinked <| ends_foldMix_blend hg
      (by decide +kernel) hn hkind hself rfl (by simp [hone]) hs₁ hs₂
    refine (hends.and hfold).mono fun _ g' h => ⟨h.1, (h.2 ⟨3, 0⟩ (by decide +kernel) _).trans ?_⟩
    rw [hone, hzero]
    simp [Quantity.clampIf, Quantity.toTriple, BlendMode.eval, Vec3.lerp, Vec3.zipWith,
      Vec3.saturate, Vec3.map, Vec3.splat]

end Edit

end Shading
