import Shading.Proofs.Removal
import Shading.Proofs.Replacement
import Shading.Proofs.Retention

/-!
# Folding, step by step

What folding can do to an output is said once (`Graph.FoldsOutput`): its consumers are moved, or they
hold a literal, or they are dropped if they take a closure. All other inputs, but for those of the
folded node, keep their links and their literals.

A run of folding is a sequence of steps (`FoldState.Step`), each of which hands out a node or folds
one of its outputs. If the displacement has lost its link in a run, then one of the steps has stored
a literal in it, and it still holds that literal (`FoldState.exists_pushes`). -/

namespace Shading

open Shading.Graph Relation

namespace Graph

variable {g g' : Graph} {o s : OutputRef} {e : OutputDecl} {r : InputRef} {T : InputRef → Prop}

/-- The inputs of the node of an output, and the inputs that are linked to the output. -/
def Touches (g : Graph) (o : OutputRef) (r : InputRef) : Prop :=
  r.node = o.node ∨ g.linkAt r = some o

/-- What folding can do to an output. The consumers are linked to another output, or left alone; or
they hold a literal; or they are dropped. A colour may lose inputs of its node first. -/
inductive FoldsOutput (o : OutputRef) (e : OutputDecl) : Graph → Graph → Prop
  | moved {g g' : Graph} (h : g.Spares (g.Touches o) g')
    (hl : ∀ r, g.linkAt r = some o → g'.linkAt r ≠ none) : FoldsOutput o e g g'
  | stored {g g' : Graph} {l : Literal} (hl : l.hasShape e.type = true)
    (h : (Edit.makeConstant o l).run g = .ok () g') : FoldsOutput o e g g'
  | dropped {g g' : Graph} (he : e.type = .closure) (h : g.Spares (g.Touches o) g') :
    FoldsOutput o e g g'
  | narrowed {g g₁ g' : Graph} (he : e.type = .color) (h : g.Spares (·.node = o.node) g₁)
    (h' : FoldsOutput o e g₁ g') : FoldsOutput o e g g'

theorem FoldsOutput.refl (hg : g.WellFormed) : g.FoldsOutput o e g :=
  .moved (.refl hg) fun r hr => by simp [hr]

/-- What touches an output afterwards has touched it before. -/
theorem Evolves.touches (h : g.Evolves T g') (hT : ∀ r, T r → g.Touches o r)
    (hr : g'.Touches o r) : g.Touches o r ∨ g.idBound ≤ r.node := by
  rcases hr with hr | hr
  · exact Or.inl (Or.inl hr)
  · by_cases hlt : r.node < g.idBound
    · by_cases hTr : T r
      · exact Or.inl (hT r hTr)
      · exact Or.inl (Or.inr ((h.linkAt_eq r hlt hTr).symm.trans hr))
    · exact Or.inr (Nat.not_lt.mp hlt)

/-- All that has to do with a node with a single output touches that output. -/
theorem WellFormed.touches_of_around (hg : g.WellFormed) {k : NodeKind}
    (hk : g.kind? o.node = some k) (hlen : k.outputDecls.length = 1) (hslot : o.slot = 0)
    (hr : g.Around o.node r) : g.Touches o r := by
  obtain ⟨x, slot⟩ := o
  cases hslot
  rcases hr with hr | ⟨o', hl, ho'⟩
  · exact Or.inl hr
  · exact Or.inr (hl.trans (congrArg some (hg.eq_of_single_output hk hlen hl ho')))

/-- A closure may be lost. -/
theorem Folds.foldsOutput (h : g.Folds o.node g') (hg : g.WellFormed) {k : NodeKind}
    (hk : g.kind? o.node = some k) (hlen : k.outputDecls.length = 1)
    (ho : g.outputDecl? o = some e) (he : e.type = .closure) (hr : Retains g.idBound g g') :
    g.FoldsOutput o e g' :=
  .dropped he ((h.evolves.spares hr).mono fun _ =>
    hg.touches_of_around hk hlen (hg.slot_eq_zero hk hlen ho))

/-- The consumers of a bump find another normal. -/
theorem FoldsBump.foldsOutput (h : g.FoldsBump o.node g') (hg : g.WellFormed)
    (hk : g.IsBump o.node) (hslot : o.slot = 0) (hr : Retains g.idBound g g') :
    g.FoldsOutput o e g' := by
  have hspares := ((h.shortens hg hk).evolves.spares hr).mono fun r => by
    obtain ⟨_, _, hk⟩ := hk
    exact hg.touches_of_around hk rfl hslot
  obtain ⟨x, slot⟩ := o
  cases hslot
  refine .moved hspares fun r hl => ?_
  cases h with
  | idle _ => simp [hl]
  | normal _ h => simp [h.moved r hl]
  | geometry _ h => simp [h.moved r ((g.linkAt_push _ r).trans hl)]

theorem Thins.sameNodes (h : g.Thins g') : g.SameNodes g' := by
  have hcontent : ∀ (g : Graph) id, (g.bare? id).map Node.content = (g.node? id).map Node.content := by
    intro g id
    cases hn : g.node? id <;> simp [bare?, hn, Node.content, Node.unlinked, Input.unlink]
  intro id
  rw [← hcontent, ← hcontent, h.bare?_eq]

end Graph

namespace Edit

variable {g : Graph} {o s : OutputRef} {e : OutputDecl} {B : Nat}

/-! ### What folding retains -/

theorem retains_disconnectOutput (o : OutputRef) : (disconnectOutput o).Relates (Retains B) :=
  relates_requireMutable.bind fun _ => (relates_ask _).bind fun ts => relates_modify fun _ =>
    (thins_unlinkOutput o ts).sameNodes.retains (idBound_unlinkOutput ..)

theorem retains_redirect (o s : OutputRef) : (redirect o s).Relates (Retains B) :=
  (relates_ask _).bind fun _ => (retains_disconnectOutput o).bind fun _ =>
    .forM fun _ => (retains_connect _ _).discard

theorem retains_dropConsumers (o : OutputRef) : (dropConsumers o).Relates (Retains B) :=
  (relates_ask _).bind fun _ => retains_disconnectOutput o

theorem retains_redirectOrDrop (o : OutputRef) (name : String) :
    (redirectOrDrop o name).Relates (Retains B) := by
  refine (relates_ask _).bind fun source => ?_
  split
  · exact retains_redirect _ _
  · exact retains_dropConsumers _

theorem retains_keepOnlyInput (kept : InputRef) : (keepOnlyInput kept).Relates (Retains B) := by
  refine (relates_ask _).bind fun _ => .forM fun slot => ?_
  split_ifs
  · exact relates_pure _
  · exact retains_disconnectIfLinked _

theorem retains_foldBump (o : OutputRef) (n : Node) : (foldBump o n).Relates (Retains B) := by
  unfold foldBump
  split_ifs
  · split
    · exact retains_redirect _ _
    · exact (retains_addKind _).bind fun _ => (relates_ask _).bind fun _ => retains_redirect _ _
  · exact relates_pure _

theorem retains_foldMixClosure (o : OutputRef) (n : Node) :
    (foldMixClosure o n).Relates (Retains B) := by
  unfold foldMixClosure
  dsimp only
  split_ifs
  · exact retains_redirectOrDrop _ _
  · exact retains_redirectOrDrop _ _
  · exact retains_redirectOrDrop _ _
  · exact relates_pure _

theorem retains_foldAddClosure (o : OutputRef) (n : Node) :
    (foldAddClosure o n).Relates (Retains B) := by
  unfold foldAddClosure
  split_ifs
  · exact retains_redirectOrDrop _ _
  · exact retains_redirectOrDrop _ _
  · exact relates_pure _

/-! ### Rules -/

section

variable {k : NodeKind} (hg : g.WellFormed) (hm : g.finalized = false)
  (ho : g.outputDecl? o = some e)
include hg hm ho

theorem ends_makeConstant_spares (l : Literal) :
    (makeConstant o l).Ends g fun _ => g.Spares (g.linkAt · = some o) := by
  refine ends_consumersOf_bind ho (Ends.bind (P := fun _ g₁ => g.Spares (g.linkAt · = some o) g₁ ∧
    ∀ r, g₁.linkAt r = g.linkAt r) ?_ fun _ g₁ h₁ => ?_)
  · refine ends_forM_mem (I := fun g₁ => g.Spares (g.linkAt · = some o) g₁ ∧
      ∀ r, g₁.linkAt r = g.linkAt r) ⟨.refl hg, fun _ => rfl⟩ fun t ht g₁ h => ?_
    have hl := (hg.link_iff t o).mpr ht
    obtain ⟨d, hd⟩ := g.inputDecl?_of_linkAt hl
    refine (ends_store_eq (h.1.evolves.finalized.trans hm) (h.1.evolves.inputDecl?_some hg hd)
      l).mono ?_
    rintro _ _ rfl
    refine ⟨h.1.trans ((spares_store h.1.evolves.wellFormed t l).mono fun r hr => hr ▸ hl), fun r => ?_⟩
    exact ((trims_store h.1.evolves.wellFormed t l).kept r id).trans (h.2 r)
  · have he := h₁.1.evolves
    refine ((ends_disconnectOutput he.wellFormed (he.finalized.trans hm)
      (he.outputDecl?_some hg ho)).and_retains (retains_disconnectOutput o)).mono fun _ _ h => ?_
    exact h₁.1.trans ((h.1.evolves.spares h.2).mono fun r hr => (h₁.2 r).symm.trans hr)

theorem ends_makeConstant_foldsOutput {l : Literal} (hl : l.hasShape e.type = true) :
    (makeConstant o l).Ends g fun _ => g.FoldsOutput o e := by
  obtain ⟨_, g', hrun, -⟩ := ends_iff.mp (ends_makeConstant hg hm ho l)
  exact ends_iff.mpr ⟨(), g', hrun, .stored hl hrun⟩

theorem ends_makeConstantClamped_foldsOutput {l : Literal} (hl : l.hasShape e.type = true)
    (clamped : Bool) : (makeConstantClamped o l clamped).Ends g fun _ => g.FoldsOutput o e := by
  refine ends_makeConstant_foldsOutput hg hm ho ?_
  split_ifs
  · rwa [Literal.hasShape_saturate]
  · exact hl

theorem ends_makeZero_foldsOutput : (makeZero o).Ends g fun _ => g.FoldsOutput o e := by
  refine meets_ask_output_bind (fun out hout => ?_) fun hn => by simp [hn] at ho
  obtain rfl : e = out.toOutputDecl := by simpa [outputDecl?, hout] using ho.symm
  split_ifs
  · exact ends_makeConstant_foldsOutput hg hm ho (Literal.hasShape_zero _)
  · exact ends_pure (.refl hg)

theorem ends_makeOne_foldsOutput : (makeOne o).Ends g fun _ => g.FoldsOutput o e := by
  refine meets_ask_output_bind (fun out hout => ?_) fun hn => by simp [hn] at ho
  obtain rfl : e = out.toOutputDecl := by simpa [outputDecl?, hout] using ho.symm
  split_ifs with hfloat hfloat3
  · exact ends_makeConstant_foldsOutput hg hm ho (by rw [hfloat]; rfl)
  · exact ends_makeConstant_foldsOutput hg hm ho hfloat3
  · exact ends_pure (.refl hg)

theorem ends_redirect_foldsOutput {e' : OutputDecl} (hs : g.outputDecl? s = some e')
    (hty : e'.type.linksTo e.type = true) :
    (redirect o s).Ends g fun _ => g.FoldsOutput o e := by
  refine ((ends_redirect hg hm ho hs hty).and_retains (retains_redirect o s)).mono fun _ g' h => ?_
  refine .moved ((h.1.evolves.spares h.2).mono fun _ => Or.inr) fun r hr => ?_
  simp [h.1.moved r hr]

/-- An output is replaced by an input. If it is not, then at most the node has lost inputs, which
happens only to clamped colours. -/
theorem ends_passThrough_foldsOutput (hk : g.kind? o.node = some k) {name : String} {i : Nat}
    (hslot : k.layout.inputSlot? name = some i) {clamped : Bool}
    (hc : clamped = true → e.type = .color) :
    (passThrough o name clamped).Ends g fun replaced g' => g.FoldsOutput o e g' ∧
      (replaced = false → g.Spares (·.node = o.node) g') := by
  obtain ⟨d, hd⟩ := hg.exists_inputDecl? hk hslot
  refine ends_ask_bind (hg.inputRef_eq hk hslot) ?_
  refine meets_ask_input_bind (fun input hinput => ?_) fun hn => by simp [hn] at hd
  refine meets_ask_output_bind (fun out hout => ?_) fun hn => by simp [hn] at ho
  have hlink : g.linkAt ⟨o.node, i⟩ = input.link := by simp [linkAt, hinput]
  have hliteral : g.literalAt ⟨o.node, i⟩ = some input.literal := by simp [literalAt, hinput]
  obtain rfl : d = input.toInputDecl := by simpa [inputDecl?, hinput] using hd.symm
  obtain rfl : e = out.toOutputDecl := by simpa [outputDecl?, hout] using ho.symm
  split
  · exact ends_pure ⟨.refl hg, fun _ => .refl hg⟩
  · rename_i hty
    replace hty : input.type = out.type := not_not.mp hty
    split
    · split_ifs
      · have hshape := hg.shaped _ _ _ hd hliteral
        exact Ends.bind (ends_makeConstantClamped_foldsOutput hg hm ho (hty ▸ hshape) clamped)
          fun _ _ h => ends_pure ⟨h, by simp⟩
      · exact ends_pure ⟨.refl hg, fun _ => .refl hg⟩
    · rename_i s hs
      split_ifs with hclamped
      · refine Ends.bind ((ends_keepOnlyInput (r := ⟨o.node, i⟩) hg hm hk).and_retains
          (retains_keepOnlyInput _)) fun _ g' h => ?_
        have hspares : g.Spares (·.node = o.node) g' :=
          (h.1.trims.evolves.spares h.2).mono fun _ hr => hr.1
        exact ends_pure ⟨.narrowed (hc hclamped) hspares (.refl hspares.evolves.wellFormed),
          fun _ => hspares⟩
      · obtain ⟨e', he'⟩ := hg.exists_output (hlink.trans hs)
        have hfit := (hg.typed _ s _ e' (hlink.trans hs) hd he').2
        exact Ends.bind (ends_redirect_foldsOutput hg hm ho he' (hty ▸ hfit)) fun _ _ h =>
          ends_pure ⟨h, by simp⟩

theorem ends_apply_foldsOutput (hk : g.kind? o.node = some k) {names : List String}
    (hn : k.hasInputs names = true) {clamped : Bool} (hc : clamped = true → e.type = .color)
    {s : Shortcut} (hs : s.Within names) :
    (s.apply o clamped).Ends g fun _ => g.FoldsOutput o e := by
  cases s with
  | keep => exact ends_pure (.refl hg)
  | passThrough name =>
    obtain ⟨slot, hslot⟩ := k.exists_inputSlot? hn hs
    exact ends_discard ((ends_passThrough_foldsOutput hg hm ho hk hslot hc).mono fun _ _ h => h.1)
  | zero => exact ends_makeZero_foldsOutput hg hm ho
  | one => exact ends_makeOne_foldsOutput hg hm ho

theorem ends_ask_apply_foldsOutput (hk : g.kind? o.node = some k) {names : List String}
    (hn : k.hasInputs names = true) {clamped : Bool} (hc : clamped = true → e.type = .color)
    {q : Graph → Except Fault Shortcut} (hq : Shortcut.Found names (q g)) :
    (do let s ← ask q; s.apply o clamped).Ends g fun _ => g.FoldsOutput o e := by
  obtain ⟨s, hs, hw⟩ := hq
  exact ends_ask_bind hs (ends_apply_foldsOutput hg hm ho hk hn hc hw)

/-- The inputs of a clamped mix may be unlinked before a shortcut is looked for. -/
theorem ends_foldMix_foldsOutput {mode : BlendMode} {clamped : Bool}
    (hk : g.kind? o.node = some (.mix mode clamped)) :
    (foldMix o mode clamped).Ends g fun _ => g.FoldsOutput o e := by
  have hout : e.type = .color := by rw [List.mem_singleton.mp (hg.mem_outputDecls hk ho)]
  refine meets_ask_node_bind (fun n _ => ?_) fun hnone => by simp [hnone] at hk
  have hrest : ∀ g', g.Spares (·.node = o.node) g' → (do
      let s ← ask fun g => mode.shortcut (MixFacts.ofNode n) (.ofGraph g o.node)
      s.apply o clamped).Ends g' fun _ => g.FoldsOutput o e := by
    intro g' h
    have hk' := h.evolves.kind?_some hk
    have hg' := h.evolves.wellFormed
    exact (ends_ask_apply_foldsOutput hg' (h.evolves.finalized.trans hm)
      (h.evolves.outputDecl?_some hg ho) hk' rfl (fun _ => hout)
        (mode.found_shortcut (answer_ofGraph hg' hk' rfl) _)).mono fun _ _ h' => .narrowed hout h h'
  dsimp only
  split
  · refine Ends.bind (ends_passThrough_foldsOutput hg hm ho hk (i := 1) rfl fun _ => hout)
      fun replaced g' h => ?_
    split_ifs with hreplaced
    · exact ends_pure h.1
    · exact hrest g' (h.2 (by simpa using hreplaced))
  · exact hrest g (.refl hg)

theorem ends_foldConvert_foldsOutput {n : Node} (hn : g.node? o.node = some n)
    {source target : SocketType} {automatic : Bool}
    (hkind : n.kind = .convert source target automatic) :
    (foldConvert o n source target).Ends g fun _ => g.FoldsOutput o e :=
  ends_foldConvert_of hg ho hn hkind (.refl hg)
    (fun _ => ends_makeConstant_foldsOutput hg hm ho)
    fun _ _ he hty _ => ends_redirect_foldsOutput hg hm ho he hty

theorem ends_foldOutput_foldsOutput : (foldOutput o).Ends g fun _ => g.FoldsOutput o e := by
  have hconstant : ∀ {l : Literal}, l.hasShape e.type = true →
      (makeConstant o l).Ends g fun _ => g.FoldsOutput o e := ends_makeConstant_foldsOutput hg hm ho
  refine meets_ask_node_bind (fun n hn => ?_) fun hnone => ?_
  · have hk : g.kind? o.node = some n.kind := by simp [kind?, hn]
    have hmem := hg.mem_outputDecls hk ho
    dsimp only
    cases hkind : n.kind with
    | value | color =>
      rw [hkind] at hmem
      obtain rfl := List.mem_singleton.mp hmem
      exact hconstant rfl
    | convert source target _ => exact ends_foldConvert_foldsOutput hg hm ho hn hkind
    | emission _ =>
      rw [hkind] at hk hmem
      obtain rfl := List.mem_singleton.mp hmem
      dsimp only
      split_ifs
      · exact ((ends_dropConsumers hg hm ho).and_retains (retains_dropConsumers o)).mono
          fun _ _ h => h.1.folds.foldsOutput hg hk rfl ho rfl h.2
      · exact ends_pure (.refl hg)
    | addClosure =>
      rw [hkind] at hk hmem
      obtain rfl := List.mem_singleton.mp hmem
      exact ((ends_foldAddClosure hg hm ho hk).and_retains (retains_foldAddClosure o n)).mono
        fun _ _ h => h.1.foldsOutput hg hk rfl ho rfl h.2
    | mixClosure =>
      rw [hkind] at hk hmem
      obtain rfl := List.mem_singleton.mp hmem
      exact ((ends_foldMixClosure hg hm ho hk).and_retains (retains_foldMixClosure o n)).mono
        fun _ _ h => h.1.foldsOutput hg hk rfl ho rfl h.2
    | math op clamped =>
      rw [hkind] at hk hmem
      obtain rfl := List.mem_singleton.mp hmem
      dsimp only
      split_ifs
      · exact ends_makeConstantClamped_foldsOutput hg hm ho rfl clamped
      · exact ends_ask_apply_foldsOutput hg hm ho hk rfl (by simp)
          (op.found_shortcut (answer_ofGraph hg hk rfl))
    | clamp mode =>
      rw [hkind] at hmem
      obtain rfl := List.mem_singleton.mp hmem
      dsimp only
      split_ifs
      · exact hconstant rfl
      · exact ends_pure (.refl hg)
    | vectorMath op =>
      rw [hkind] at hk hmem
      dsimp only
      split
      · refine meets_ask_output_bind (fun out hout => ?_) fun hnone => by simp [hnone] at ho
        obtain rfl : e = out.toOutputDecl := by simpa [outputDecl?, hout] using ho.symm
        obtain hdecl | hdecl : out.toOutputDecl = ⟨"Value", .float⟩ ∨
            out.toOutputDecl = ⟨"Vector", .vector⟩ := by
          simpa [NodeKind.outputDecls] using hmem
        · rw [if_pos (by rw [hdecl]; rfl)]
          exact hconstant (by rw [hdecl]; rfl)
        · rw [if_neg (by rw [hdecl]; decide)]
          exact hconstant (by rw [hdecl]; rfl)
      · exact ends_ask_apply_foldsOutput hg hm ho hk rfl (by simp)
          (op.found_shortcut (answer_ofGraph hg hk rfl))
    | mix mode clamped =>
      rw [hkind] at hk hmem
      dsimp only
      split_ifs
      · obtain rfl := List.mem_singleton.mp hmem
        exact ends_makeConstantClamped_foldsOutput hg hm ho rfl clamped
      · exact ends_foldMix_foldsOutput hg hm ho hk
    | bump invert objectSpace =>
      rw [hkind] at hk
      have hslot := hg.slot_eq_zero hk rfl ho
      exact ((ends_foldBump hg hm ho hn hkind hslot).and_retains (retains_foldBump o n)).mono
        fun _ _ h => h.1.foldsOutput hg ⟨_, _, hk⟩ hslot h.2
    | displacement _ =>
      dsimp only
      split_ifs
      · exact ends_makeZero_foldsOutput hg hm ho
      · exact ends_pure (.refl hg)
    | _ => exact ends_pure (.refl hg)
  · obtain ⟨k', hk'⟩ := g.kind?_of_outputDecl? ho
    simp [hnone] at hk'

theorem ends_foldIfConsumed_foldsOutput :
    (foldIfConsumed o).Ends g fun _ => g.FoldsOutput o e := by
  refine ends_consumersOf_bind ho ?_
  split_ifs
  · exact ends_foldOutput_foldsOutput hg hm ho
  · exact ends_pure (.refl hg)

theorem ends_makeConstant_evolves (l : Literal) :
    (makeConstant o l).Ends g fun _ => g.Evolves (g.linkAt · = some o) :=
  (ends_makeConstant_spares hg hm ho l).mono fun _ _ h => h.evolves

theorem ends_makeZero_evolves :
    (makeZero o).Ends g fun _ => g.Evolves (g.linkAt · = some o) := by
  refine meets_ask_output_bind (fun out _ => ?_) fun hn => by simp [hn] at ho
  split_ifs
  · exact ends_makeConstant_evolves hg hm ho _
  · exact ends_pure (.refl hg)

theorem ends_apply_evolves (hk : g.kind? o.node = some k) {names : List String}
    (hn : k.hasInputs names = true) {s : Shortcut} (hs : s.Within names) :
    (s.apply o false).Ends g fun _ => g.Evolves (g.linkAt · = some o) := by
  cases s with
  | keep => exact ends_pure (.refl hg)
  | passThrough name =>
    obtain ⟨slot, hslot⟩ := k.exists_inputSlot? hn hs
    obtain ⟨i, hi⟩ := hg.exists_inputDecl? hk hslot
    refine ends_discard ((ends_passThrough_passesOn hg hm ho hk hslot hi false).mono
      fun _ _ h => ?_)
    cases h with
    | kept => exact .refl hg
    | stored _ _ _ _ h => exact h.trims.evolves
    | narrowed _ hc => cases hc
    | redirected _ _ _ h => exact h.evolves
  | zero => exact ends_makeZero_evolves hg hm ho
  | one =>
    refine meets_ask_output_bind (fun out _ => ?_) fun hn => by simp [hn] at ho
    split_ifs
    · exact ends_makeConstant_evolves hg hm ho _
    · exact ends_makeConstant_evolves hg hm ho _
    · exact ends_pure (.refl hg)

/-- Folding an output of a node with a spatial input leaves the inputs of the node alone. Only
closures and clamped mixes lose inputs of their own. -/
theorem ends_foldOutput_evolves (hk : g.kind? o.node = some k)
    (hin : (k.inputDecls.any (·.type.isSpatial)) = true) :
    (foldOutput o).Ends g fun _ => g.Evolves (g.linkAt · = some o) := by
  refine meets_ask_node_bind (fun n hn => ?_) fun hnone => by simp [hnone] at hk
  have hkn : n.kind = k := by simpa [kind?, hn] using hk
  dsimp only
  rw [hkn]
  cases k with
  | convert source target _ =>
    exact ends_foldConvert_of hg ho hn hkn (.refl hg) (fun l _ => ends_makeConstant_evolves hg hm ho l)
      fun s e' hs hty _ => (ends_redirect hg hm ho hs hty).mono fun _ _ h => h.evolves
  | vectorMath op =>
    dsimp only
    split
    · refine meets_ask_output_bind (fun out _ => ?_) fun hn => by simp [hn] at ho
      split
      · exact ends_makeConstant_evolves hg hm ho _
      · exact ends_makeConstant_evolves hg hm ho _
    · obtain ⟨s, hs, hw⟩ := op.found_shortcut (answer_ofGraph hg hk rfl)
      exact ends_ask_bind hs (ends_apply_evolves hg hm ho hk rfl hw)
  | bump invert objectSpace =>
    have hslot := hg.slot_eq_zero hk rfl ho
    refine (ends_foldBump hg hm ho hn hkn hslot).mono fun _ _ h => ?_
    rw [show o = ⟨o.node, 0⟩ by rw [← hslot]]
    cases h with
    | idle _ => exact .refl hg
    | normal _ h => exact h.evolves
    | geometry _ h =>
      exact (evolves_push hg (Node.sound_ofKind .geometry)).widen.trans
        (h.evolves.mono fun r hr => (g.linkAt_push _ r).symm.trans hr)
  | displacement _ =>
    dsimp only
    split_ifs
    · exact ends_makeZero_evolves hg hm ho
    · exact ends_pure (.refl hg)
  | value | color | emission | addClosure | mixClosure | math | clamp | mix => cases hin
  | _ => exact ends_pure (.refl hg)

end

end Edit

/-! ### What a folded output leaves alone -/

namespace Graph.FoldsOutput

variable {g g' : Graph} {o : OutputRef} {e : OutputDecl} {r : InputRef}

theorem spares (h : g.FoldsOutput o e g') (hg : g.WellFormed) (hm : g.finalized = false)
    (ho : g.outputDecl? o = some e) : g.Spares (g.Touches o) g' := by
  induction h with
  | moved h _ => exact h
  | stored _ h => exact ((Edit.ends_makeConstant_spares hg hm ho _).of_run h).mono fun _ => Or.inr
  | dropped _ h => exact h
  | narrowed _ h _ ih =>
    have he := h.evolves
    exact (h.mono fun _ => Or.inl).trans_fresh
      (ih he.wellFormed (he.finalized.trans hm) (he.outputDecl?_some hg ho))
        fun r hr => he.touches (fun _ => Or.inl) hr

/-- A consumer that takes a vector loses its link only to a literal. -/
theorem stored_of_unlinked (h : g.FoldsOutput o e g') (hfit : e.type.linksTo .vector = true)
    (hl : g.linkAt r = some o) (hn : g'.linkAt r = none) :
    ∃ l : Literal, l.hasShape e.type = true ∧ (Edit.makeConstant o l).run g = .ok () g' := by
  cases h with
  | moved _ hmoved => exact absurd hn (hmoved r hl)
  | stored hshape h => exact ⟨_, hshape, h⟩
  | dropped he _ =>
    rw [he] at hfit
    cases hfit
  | narrowed he _ _ =>
    rw [he] at hfit
    cases hfit

variable (h : g.FoldsOutput o e g') (hg : g.WellFormed) (hm : g.finalized = false)
  (ho : g.outputDecl? o = some e)
include h hg hm ho

/-- The output node has no outputs, so only what feeds its displacement can change it. -/
theorem displacement_eq (hne : g.linkAt ⟨outputId, 2⟩ ≠ some o) :
    g'.linkAt ⟨outputId, 2⟩ = g.linkAt ⟨outputId, 2⟩ ∧
      g'.literalAt ⟨outputId, 2⟩ = g.literalAt ⟨outputId, 2⟩ := by
  have hspares := h.spares hg hm ho
  have hlt := g.lt_idBound_of_kind? hg.kind?_output
  have htouch : ¬ g.Touches o ⟨outputId, 2⟩ := fun ht =>
    ht.elim (fun hnode => hg.node_ne_outputId ho hnode.symm) hne
  exact ⟨hspares.evolves.linkAt_eq _ hlt htouch, hspares.literalAt_eq _ hlt htouch⟩

/-- What is stored in the displacement is not converted. -/
theorem displacement_stored (hl : g.linkAt ⟨outputId, 2⟩ = some o)
    (hn : g'.linkAt ⟨outputId, 2⟩ = none) :
    ∃ l, (Edit.makeConstant o l).run g = .ok () g' ∧ g'.literalAt ⟨outputId, 2⟩ = some l := by
  have hd := hg.inputDecl?_eq hg.kind?_output 2
  have hfit : e.type.linksTo .vector = true := (hg.typed _ o _ e hl hd ho).2
  have hfloat : e.type.isFloating = true := by
    revert hfit
    cases e.type <;> decide
  obtain ⟨l, hshape, hrun⟩ := h.stored_of_unlinked hfit hl hn
  have hstores := (Edit.ends_makeConstant_stores hg hm ho l).of_run hrun
  refine ⟨l, hrun, (hstores.literalAt_eq _ _ hl hd).trans (congrArg some ?_)⟩
  exact Literal.convert_of_linksTo hshape hfloat hfit

end Graph.FoldsOutput

/-! ### Runs -/

/-- A state of folding: the outputs of the last node that are still to be folded, the nodes to
follow, and the graph. -/
structure FoldState where
  pending : List OutputRef
  worklist : Worklist
  graph : Graph

namespace FoldState

/-- One step of folding. The consumers of a node are scheduled when it is handed out. -/
inductive Step : FoldState → FoldState → Prop
  | handOut {w w' : Worklist} {g : Graph} {x : NodeId} {n : Node} (hx : w.next? = some (x, w'))
    (hn : g.node? x = some n) :
    Step ⟨[], w, g⟩ ⟨(List.range n.outputs.length).map (⟨x, ·⟩), w'.scheduleConsumers g x, g⟩
  | fold {o : OutputRef} {os : List OutputRef} {w : Worklist} {g g' : Graph}
    (h : (Edit.foldIfConsumed o).run g = .ok () g') : Step ⟨o :: os, w, g⟩ ⟨os, w, g'⟩

/-- What holds of every state of folding. -/
structure Valid (s : FoldState) : Prop where
  wellFormed : s.graph.WellFormed
  finalized : s.graph.finalized = false
  declared : ∀ o ∈ s.pending, ∃ e, s.graph.outputDecl? o = some e

variable {s s' : FoldState}

theorem Step.valid (h : Step s s') (hs : s.Valid) : s'.Valid := by
  cases h with
  | @handOut w w' g x n _ hn =>
    refine ⟨hs.wellFormed, hs.finalized, fun o ho => ?_⟩
    obtain ⟨slot, hslot, rfl⟩ := List.mem_map.mp ho
    exact (g.exists_outputDecl?_iff hn slot).mpr (List.mem_range.mp hslot)
  | @fold o os w g g' h =>
    obtain ⟨e, ho⟩ := hs.declared o List.mem_cons_self
    have hfolds := (Edit.ends_foldIfConsumed_foldsOutput hs.wellFormed hs.finalized ho).of_run h
    have he := (hfolds.spares hs.wellFormed hs.finalized ho).evolves
    refine ⟨he.wellFormed, he.finalized.trans hs.finalized, fun o' ho' => ?_⟩
    obtain ⟨e', he'⟩ := hs.declared o' (List.mem_cons_of_mem o ho')
    exact ⟨e', he.outputDecl?_some hs.wellFormed he'⟩

theorem valid_of_run (h : ReflTransGen Step s s') (hs : s.Valid) : s'.Valid := by
  induction h with
  | refl => exact hs
  | tail _ hstep ih => exact hstep.valid ih

/-- In a step of the run from `s` to `s'`, folding an output has stored the literal `l` in its
consumers, and the input `r` was one of them. -/
def Pushes (r : InputRef) (l : Literal) (s s' : FoldState) : Prop :=
  ∃ o os w g g', ReflTransGen Step s ⟨o :: os, w, g⟩ ∧ g.linkAt r = some o ∧
    (Edit.foldIfConsumed o).run g = .ok () g' ∧ (Edit.makeConstant o l).run g = .ok () g' ∧
    ReflTransGen Step ⟨os, w, g'⟩ s'

theorem Pushes.tail {r : InputRef} {l : Literal} {s₁ : FoldState} (h : Pushes r l s s₁)
    (hstep : Step s₁ s') : Pushes r l s s' := by
  obtain ⟨o, os, w, g, g', hrun, hl, hfold, hstore, hrest⟩ := h
  exact ⟨o, os, w, g, g', hrun, hl, hfold, hstore, hrest.tail hstep⟩

/-- If the displacement has lost its link in a run, then a literal was stored in it, and it still
holds that literal. -/
theorem exists_pushes (h : ReflTransGen Step s s') (hs : s.Valid)
    (hl : s.graph.linkAt ⟨outputId, 2⟩ ≠ none) (hn : s'.graph.linkAt ⟨outputId, 2⟩ = none) :
    ∃ l, Pushes ⟨outputId, 2⟩ l s s' ∧ s'.graph.literalAt ⟨outputId, 2⟩ = some l := by
  induction h with
  | refl => exact absurd hn hl
  | tail hrun hstep ih =>
    have hv := valid_of_run hrun hs
    cases hstep with
    | handOut hx hnode =>
      obtain ⟨l, hpush, hliteral⟩ := ih hn
      exact ⟨l, hpush.tail (.handOut hx hnode), hliteral⟩
    | @fold o os w g g' h =>
      obtain ⟨e, ho⟩ := hv.declared o List.mem_cons_self
      have hg : g.WellFormed := hv.wellFormed
      have hfolds := (Edit.ends_foldIfConsumed_foldsOutput hg hv.finalized ho).of_run h
      by_cases hfeed : g.linkAt ⟨outputId, 2⟩ = some o
      · obtain ⟨l, hstore, hliteral⟩ := hfolds.displacement_stored hg hv.finalized ho hfeed hn
        exact ⟨l, ⟨o, os, w, g, g', hrun, hfeed, h, hstore, .refl⟩, hliteral⟩
      · obtain ⟨hlink, hliteral⟩ := hfolds.displacement_eq hg hv.finalized ho hfeed
        obtain ⟨l, hpush, hl'⟩ := ih (hlink.symm.trans hn)
        exact ⟨l, hpush.tail (.fold h), hliteral.trans hl'⟩

end FoldState

namespace Edit

/-- The outputs of a node are folded in steps. -/
theorem meets_forM_foldIfConsumed (x : NodeId) (w : Worklist) {g : Graph} (slots : List Nat) :
    (slots.forM fun slot => foldIfConsumed ⟨x, slot⟩).Meets g
      (fun _ g' => ReflTransGen FoldState.Step ⟨slots.map (⟨x, ·⟩), w, g⟩ ⟨[], w, g'⟩)
        fun _ => True := by
  induction slots generalizing g with
  | nil => exact meets_pure .refl
  | cons slot slots ih =>
    refine (meets_run _).bind fun _ g₁ h₁ => ?_
    exact ih.mono (fun _ _ h => .head (.fold h₁) h) fun _ h => h

/-- Folding all nodes is a run of steps, until no node is left to be handed out. -/
theorem meets_foldAll_steps {g : Graph} (w : Worklist) :
    (foldAll w).Meets g (fun _ g' => ∃ w', ReflTransGen FoldState.Step ⟨[], w, g⟩ ⟨[], w', g'⟩ ∧
      w'.next? = none) fun _ => True := by
  rw [foldAll.eq_def]
  split
  · rename_i hx
    exact meets_pure ⟨w, .refl, hx⟩
  · rename_i x w' hx
    have hsize := Worklist.size_next? hx
    refine meets_get_bind (Meets.bind (P := fun _ g₁ => ReflTransGen FoldState.Step ⟨[], w, g⟩
      ⟨[], w'.scheduleConsumers g x, g₁⟩) ?_ fun _ g₁ h₁ => ?_)
    · refine meets_ask_node_bind (fun n hn => ?_) fun _ => trivial
      exact (meets_forM_foldIfConsumed x _ _).mono (fun _ _ h => .head (.handOut hx hn) h)
        fun _ h => h
    · refine (meets_foldAll_steps (w'.scheduleConsumers g x)).mono ?_ fun _ h => h
      rintro _ g₂ ⟨w₂, h₂, hend⟩
      exact ⟨w₂, h₁.trans h₂, hend⟩
termination_by w.size
decreasing_by
  rw [Worklist.size_scheduleConsumers]
  omega

end Edit

end Shading
