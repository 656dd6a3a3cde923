import Shading.Proofs.Primitive
import Shading.Proofs.Schedule

/-!
# What constant propagation leaves behind

A node of a kind that can be evaluated (`NodeKind.evaluates`) feeds nothing any more once all of its
inputs are literals (`Graph.Evaluated`). One run over the worklist is enough for that: when a node
is folded, the nodes that feed it have been folded before, and from then on its own links stay as
they are. The one node that is left is the colour that keeps the displacement linked
(`Graph.IsFallback`). -/

namespace Shading

open Relation

/-- The types of numbers and of triples of numbers. -/
def SocketType.isNumeric (type : SocketType) : Bool := type.isNumber || type.isFloat3

/-- The kinds of nodes whose outputs are known once all inputs are. -/
def NodeKind.evaluates : NodeKind → Bool
  | value | color | math .. | clamp _ | vectorMath _ | mix .. => true
  | convert source target _ => source.isNumeric && target.isNumeric
  | _ => false

/-- Numbers and triples are converted literally, and triples into each other by keeping them. -/
theorem SocketType.converts_of_isNumeric {source target : SocketType} (hs : source.isNumeric = true)
    (ht : target.isNumeric = true) :
    source.convertsLiterally target = true ∨ (source.isFloat3 && target.isFloat3) = true := by
  revert hs ht
  cases source <;> cases target <;> decide

namespace Graph

variable {g g' : Graph} {x : NodeId}

/-- If the node can be evaluated from literals, it feeds nothing. -/
def Evaluated (g : Graph) (x : NodeId) : Prop :=
  ∀ k, g.kind? x = some k → k.evaluates = true → ¬ g.Depends x → g.Unused x

/-- A change of other links, which brings no new consumers. -/
theorem Evaluated.shortens {T : InputRef → Prop} {N : Prop} (h : g.Evaluated x)
    (h' : g.Shortens T N g') (hlt : x < g.idBound) (hT : ∀ slot, ¬ T ⟨x, slot⟩) :
    g'.Evaluated x := by
  intro k hk hev hdep
  rw [h'.evolves.kind?_eq x hlt] at hk
  refine h'.unused (h k hk hev fun hd => hdep ?_) hlt
  obtain ⟨slot, hs⟩ := hd
  exact ⟨slot, (h'.evolves.linkAt_eq ⟨x, slot⟩ hlt (hT slot)).symm ▸ hs⟩

/-- Nodes that are added on the way cannot be evaluated, or feed nothing. -/
theorem Shortens.evaluated {T : InputRef → Prop} {N : Prop} (h : g.Shortens T N g')
    (hg : g.WellFormed) (hev : ∀ x ∈ g.ids, g'.Evaluated x) (x : NodeId) : g'.Evaluated x := by
  by_cases hx : x ∈ g.ids
  · exact hev x hx
  · rintro k hk hkind - r s hs rfl
    obtain ⟨o, ho, hp | ⟨-, -, hnew⟩⟩ := h.moved r s hs
    · refine hx ?_
      rcases ReflTransGen.cases_head (reflTransGen_feeds hp) with heq | ⟨c, hc, -⟩
      · exact heq ▸ (hg.mem_ids_of_feeds (feeds_of_linkAt ho)).1
      · exact (hg.mem_ids_of_feeds hc).1
    · rw [hk, Option.some.injEq] at hnew
      subst hnew
      cases hkind

/-- The colour node that `g'` has got, compared with `g`, to keep the displacement linked. -/
structure IsFallback (g g' : Graph) (x : NodeId) : Prop where
  displaced : g.linkAt ⟨outputId, 2⟩ ≠ none
  added : g.idBound ≤ x
  isColor : g'.kind? x = some .color
  feedsDisplacement : ∃ c, g'.kind? c = some (.convert .color .vector true) ∧
    g'.linkAt ⟨outputId, 2⟩ = some ⟨c, 0⟩ ∧ ∀ r o, g'.linkAt r = some o → (o.node = x ↔ r = ⟨c, 0⟩)

namespace Redisplaces

variable (h : g.Redisplaces g')
include h

theorem linkAt_displacement : g'.linkAt ⟨outputId, 2⟩ = some ⟨g.idBound + 1, 0⟩ := by
  rw [h.linkAt_eq, if_pos rfl]

/-- The new colour feeds the new conversion and nothing else. -/
theorem feeds_color_iff (hg : g.WellFormed) {r : InputRef} {o : OutputRef}
    (ho : g'.linkAt r = some o) : o.node = g.idBound ↔ r = ⟨g.idBound + 1, 0⟩ := by
  rw [h.linkAt_eq] at ho
  split_ifs at ho with hr hr'
  · cases ho
    simp [hr, outputId]
  · cases ho
    simp [hr']
  · exact iff_of_false (Nat.ne_of_lt (hg.source_lt ho)) hr'

/-- Other nodes than the new colour are evaluated if they were before. -/
theorem evaluated {x : NodeId} (hx : x ≠ g.idBound) (hev : g.Evaluated x) : g'.Evaluated x := by
  intro k hk hkind hdep
  have hdep' : ∀ slot, g'.linkAt ⟨x, slot⟩ = none := fun slot => by
    by_contra hs
    exact hdep ⟨slot, hs⟩
  rw [h.kind?_eq] at hk
  split_ifs at hk with hxc
  · have hlink := hdep' 0
    rw [hxc, h.linkAt_eq, if_neg (by simp), if_pos rfl] at hlink
    cases hlink
  have hunused := hev k hk hkind fun ⟨slot, hs⟩ => hs (by
    have hlink := hdep' slot
    rw [h.linkAt_eq] at hlink
    split_ifs at hlink
    exact hlink)
  intro r o ho hox
  have hro := h.linkAt_eq r
  rw [ho] at hro
  split_ifs at hro with hr hr'
  · exact hxc (hox ▸ congrArg OutputRef.node (Option.some.inj hro))
  · exact hx (hox ▸ congrArg OutputRef.node (Option.some.inj hro))
  · exact hunused r o hro.symm hox

end Redisplaces

end Graph

namespace Edit

open Shading.Graph

variable {g : Graph} {o : OutputRef} {e : OutputDecl} {id : NodeId} {k : NodeKind}

/-- A node is evaluated if all of its inputs are literals. -/
theorem ends_foldOutput_constant (hg : g.WellFormed) (hm : g.finalized = false)
    (ho : g.outputDecl? o = some e) (hk : g.kind? o.node = some k) (hev : k.evaluates = true)
    (hdep : ¬ g.Depends o.node) :
    (foldOutput o).Ends g fun _ => g.Trims (g.linkAt · = some o) := by
  have hconstant := ends_makeConstant hg hm ho
  refine meets_ask_node_bind (fun n hn => ?_) fun hnone => by simp [hnone] at hk
  have hfree : n.hasLinkedInput = false := by
    rw [← hasLinkedInput_iff hn] at hdep
    simpa using hdep
  obtain rfl : n.kind = k := by simpa [kind?, hn] using hk
  dsimp only
  cases hkind : n.kind with
  | value | color => exact hconstant _
  | math _ _ | clamp _ | mix _ _ =>
    rw [hfree]
    exact hconstant _
  | vectorMath _ =>
    rw [hfree]
    refine meets_ask_output_bind (fun out _ => ?_) fun hnone => by simp [hnone] at ho
    split_ifs
    · exact hconstant _
    · exact hconstant _
  | convert source target automatic =>
    have hlen : n.inputs.length = 1 := by
      rw [hg.length_inputs hn, hkind]
      rfl
    obtain ⟨i, hi⟩ : ∃ i, n.inputs.head? = some i :=
      Option.isSome_iff_exists.mp (by simp [List.head?_eq_getElem?, hlen])
    have hlink : i.link = none := by
      have h := List.any_eq_false.mp hfree i (List.mem_of_head? hi)
      simpa [Input.isLinked] using h
    rw [hkind, NodeKind.evaluates, Bool.and_eq_true] at hev
    simp only [foldConvert, hi, hlink]
    rcases SocketType.converts_of_isNumeric hev.1 hev.2 with hc | hc
    · rw [if_pos hc]
      exact hconstant _
    · rw [if_pos hc]
      split_ifs
      · exact hconstant _
      · exact hconstant _
  | _ => rw [hkind] at hev; cases hev

/-- Folding a node leaves it without consumers, if it can be evaluated. -/
theorem ends_foldNode_evaluated (hg : g.WellFormed) (hm : g.finalized = false)
    (hk : g.kind? id = some k) (hloop : ¬ TransGen g.Feeds id id) :
    (foldNode id).Ends g fun _ g' => g'.Evaluated id := by
  by_cases hev : k.evaluates = true
  · have hb : ∀ invert objectSpace, k ≠ .bump invert objectSpace := by
      rintro _ _ rfl
      cases hev
    by_cases hdep : g.Depends id
    · -- one of its inputs stays linked, so there is nothing to show
      refine (ends_foldNode_of_ne_bump hg hm hk hb).mono fun _ g' h _ _ _ hdep' => ?_
      exact absurd (h.depends hloop hdep) hdep'
    · refine meets_ask_node_bind (fun n hn => ?_) fun hnone => by simp [hnone] at hk
      refine (ends_forM_trims (T := fun slot r => g.linkAt r = some ⟨id, slot⟩) hg
        fun slot hslot T' g' h => ?_).mono fun _ g' h _ _ _ _ r o ho hox => ?_
      · obtain ⟨e, he⟩ := (g.exists_outputDecl?_iff hn slot).mpr (List.mem_range.mp hslot)
        have he' := h.evolves.outputDecl?_some hg he
        have hdep' : ¬ g'.Depends id := by
          rintro ⟨slot', hs'⟩
          obtain ⟨o, ho⟩ := Option.ne_none_iff_exists'.mp hs'
          exact hdep ⟨slot', by simp [(h.linkAt_some ho).1]⟩
        have hsame : ∀ r o, g'.linkAt r = some o →
            (g'.linkAt r = some ⟨id, slot⟩ ↔ g.linkAt r = some ⟨id, slot⟩) := fun r o ho => by
          rw [ho, (h.linkAt_some ho).1]
        refine ends_consumersOf_bind he' ?_
        split_ifs with hcons
        · exact (ends_foldOutput_constant h.wellFormed (h.finalized.trans hm) he'
            (h.evolves.kind?_some hk) hev hdep').mono fun _ _ h' => h'.congr hsame
        · refine ends_pure ((Trims.refl (T := (g'.linkAt · = some ⟨id, slot⟩)) h.wellFormed
            fun r hr => ?_).congr hsame)
          have hmem := (h.wellFormed.link_iff r _).mp hr
          simp only [Bool.not_eq_true', Bool.not_eq_false, List.isEmpty_iff] at hcons
          rw [hcons] at hmem
          cases hmem
      · obtain ⟨ho', hcut⟩ := h.linkAt_some ho
        obtain ⟨e, he⟩ := hg.exists_output ho'
        obtain ⟨id', slot⟩ := o
        cases hox
        exact hcut ⟨slot, List.mem_range.mpr ((g.exists_outputDecl?_iff hn slot).mp ⟨e, he⟩), ho'⟩
  · exact (ends_foldNode hg hm hk).mono fun _ g' h k' hk' hev' _ =>
      absurd (Option.some.inj ((h.evolves.kind?_some hk).symm.trans hk') ▸ hev') hev

/-- Every node that was on the worklist is evaluated in the end, or it waits for another one and so
depends on it. -/
theorem ends_foldAll_evaluated {g : Graph} {w : Worklist} {S : Set NodeId} {N : Nat}
    (hg : g.WellFormed) (hm : g.finalized = false) (hw : w.Within g) (hs : w.Sound S g)
    (ho : w.Ordered N g) (hN : N ≤ g.idBound) (hdone : ∀ x ∈ w.done, g.Evaluated x) :
    (foldAll w).Ends g fun _ g' => ∀ x ∈ S, g'.Evaluated x := by
  rw [foldAll.eq_def]
  split
  · rename_i hnone
    refine ends_pure fun x hx => ?_
    rcases hs.cover x hx with hc | hc | hc
    · simp [Worklist.queue_eq_nil_of_next? hnone] at hc
    · obtain ⟨a, ha, -⟩ := List.all_eq_false.mp (hs.blocked x hc)
      exact fun _ _ _ hdep => absurd (depends_iff_feeds.mpr ⟨a, mem_feeders.mp ha⟩) hdep
    · exact hdone x hc
  · rename_i id w' hx
    have hsize := Worklist.size_next? hx
    obtain ⟨hid, hw'⟩ := hw.next hx
    obtain ⟨k, hk⟩ := (g.mem_ids_iff_kind?).mp hid
    obtain ⟨hs', hdone', hwait⟩ := hs.next hg hx
    obtain ⟨hnew, hfed, ho'⟩ := ho.next hs hx
    refine ends_get_bind (Ends.bind ((ends_foldNode hg hm hk).and
      (ends_foldNode_evaluated hg hm hk (ho.not_transGen hnew hfed))) ?_)
    rintro _ g' ⟨h, hev⟩
    refine ends_foldAll_evaluated h.evolves.wellFormed (h.evolves.finalized.trans hm)
      ((hw'.scheduleConsumers g id).mono fun _ => h.evolves.ids_subset)
      (hs'.shortens (by simp [hdone']) hwait h) (ho'.shortens h hN)
      (Nat.le_trans hN h.evolves.idBound_le) fun x hxd => ?_
    rw [hdone', List.mem_cons] at hxd
    by_cases hxid : x = id
    · exact hxid ▸ hev
    · replace hxd := hxd.resolve_left hxid
      refine (hdone x hxd).shortens h (Nat.lt_of_lt_of_le (ho.below x (Or.inr hxd)) hN) ?_
      -- the node that is folded now does not feed one that was folded before
      rintro slot (hxx | ⟨o, hl, rfl⟩)
      · exact hxid hxx
      · exact hnew (ho.fed _ _ (feeds_of_linkAt hl) (Or.inr hxd))
termination_by w.size
decreasing_by
  rw [Worklist.size_scheduleConsumers]
  omega

/-- **Propagation is complete.** Whether a graph has cycles or not, in the end no node feeds
anything that could be evaluated from its literals, apart from the colour that keeps the
displacement linked. -/
theorem propagateConstants_complete (g : Graph) (hg : g.WellFormed) (hm : g.finalized = false) :
    propagateConstants.Ends g fun _ g' => ∀ x n, g'.node? x = some n → n.kind.evaluates = true →
      n.hasLinkedInput = false → n.isConsumed = true → g.IsFallback g' x := by
  refine (ends_propagateConstants hg hm (ends_foldAll_evaluated hg hm (Worklist.within_ofGraph g)
    (Worklist.sound_ofGraph g) (Worklist.ordered_ofGraph g) (Nat.le_refl _) nofun)).mono ?_
  rintro _ g' ⟨g₁, hev, h₁, hrest, hdisp⟩ x n hn hkind hfree hcons
  have hev₁ := h₁.evaluated hg hev
  have hg₁ := h₁.evolves.wellFormed
  have hk : g'.kind? x = some n.kind := by simp [kind?, hn]
  have hdep : ¬ g'.Depends x := by simp [← hasLinkedInput_iff hn, hfree]
  have hg' : g'.WellFormed := by
    rcases hrest with rfl | h
    · exact hg₁
    · exact h.evolves.wellFormed
  have hused : ¬ g'.Evaluated x := fun h => (hg'.isConsumed_iff hn).mp hcons (h _ hk hkind hdep)
  rcases hrest with rfl | h
  · exact absurd (hev₁ x) hused
  obtain rfl : x = g₁.idBound := by
    by_contra hx
    exact hused (h.evaluated hx (hev₁ x))
  refine ⟨hdisp.not.mp (by simp [h.linkAt_displacement]), h₁.evolves.idBound_le, ?_,
    g₁.idBound + 1, ?_, h.linkAt_displacement, fun r o ho => h.feeds_color_iff hg₁ ho⟩
  · rw [h.kind?_eq, if_neg (Nat.ne_of_lt (Nat.lt_succ_self _)), if_pos rfl]
  · rw [h.kind?_eq, if_pos rfl]

/-- A displacement by a sum of which one part is a value. -/
def summedDisplacement : Graph :=
  Primitive.runAll [.addKind .value, .addKind (.math .add false), .connect ⟨1, 0⟩ ⟨2, 0⟩,
    .connect ⟨2, 0⟩ ⟨0, 2⟩] Graph.empty

/-- The value and the sum are folded into the displacement, which is then fed by a colour. -/
theorem ends_propagateConstants_summed :
    propagateConstants.Ends summedDisplacement fun _ g' =>
      (∀ x ∈ [1, 2, 3], (g'.node? x).all (!·.isConsumed)) ∧
        (g'.node? 4).any fun n => n.kind.evaluates && !n.hasLinkedInput && n.isConsumed := by
  decide +kernel

theorem propagateConstants_complete_summed :
    summedDisplacement.WellFormed ∧ summedDisplacement.finalized = false ∧
      propagateConstants.Ends summedDisplacement fun _ g' =>
        summedDisplacement.IsFallback g' 4 := by
  have hg : summedDisplacement.WellFormed :=
    (Primitive.follows_runAll wellFormed_empty _).wellFormed
  have hm : summedDisplacement.finalized = false := by decide
  refine ⟨hg, hm, ((propagateConstants_complete summedDisplacement hg hm).and
    ends_propagateConstants_summed).mono ?_⟩
  rintro _ g' ⟨h, -, hleft⟩
  obtain ⟨n, hn, hp⟩ := (Option.any_eq_true ..).mp hleft
  simp only [Bool.and_eq_true, Bool.not_eq_true'] at hp
  exact h 4 n hn hp.1.1 hp.1.2 hp.2

end Edit

end Shading
