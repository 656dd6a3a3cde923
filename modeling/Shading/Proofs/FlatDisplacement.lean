import Shading.Proofs.Compilation
import Shading.Proofs.DefaultWiring
import Shading.Proofs.FoldedDisplacement
import Shading.Proofs.Preservation
import Shading.Proofs.ProxyChain

/-!
# Flat displacements

A displacement by literals that cancel each other displaces nothing, and there is a rule to fold it to
zero. The rule asks for a node without linked inputs. But when constants are folded, the normal of a
displacement is linked, if only to its default source (`Graph.Grounded`), and so the rule never
applies.

What becomes of a displacement is followed through all stages of simplification. Most of them uphold
it: it keeps its literals and goes on feeding what it feeds (`Graph.Upholds`). Merging may put another
displacement in its place, which resembles it (`Graph.Resembles`), and pruning takes consumers away.
-/

namespace Shading

open Shading.Graph Relation

namespace Graph

variable {g g' g'' : Graph} {d d' : NodeId} {r : InputRef} {space : DisplacementSpace}

/-- A displacement by literals that displaces nothing. -/
structure FlatDisplacement (g : Graph) (d : NodeId) : Prop where
  kind : ∃ space, g.kind? d = some (.displacement space)
  unlinked : ∀ slot < 3, g.linkAt ⟨d, slot⟩ = none
  flat : ∃ n, g.node? d = some n ∧ Edit.isFlatDisplacement n = true

/-- If the height, the middle or the scale of `d` is not linked in `g`, then that of `d'` is not
linked in `g'`, and both are the same literal up to the sign of a zero. -/
structure Resembles (d d' : NodeId) (g g' : Graph) : Prop where
  kind?_eq : g'.kind? d' = g.kind? d
  literals : ∀ slot < 3, g.linkAt ⟨d, slot⟩ = none → g'.linkAt ⟨d', slot⟩ = none ∧
    (g.literalAt ⟨d, slot⟩ = g'.literalAt ⟨d', slot⟩ ∨
      (g.literalAt ⟨d, slot⟩ == g'.literalAt ⟨d', slot⟩) = true)

/-- A displacement keeps the literals that it reads. -/
structure Preserves (d : NodeId) (g g' : Graph) : Prop where
  kind?_eq : g'.kind? d = g.kind? d
  literals : ∀ slot < 3, g.linkAt ⟨d, slot⟩ = none →
    g'.linkAt ⟨d, slot⟩ = none ∧ g'.literalAt ⟨d, slot⟩ = g.literalAt ⟨d, slot⟩

/-- A displacement also goes on feeding what it feeds. -/
structure Upholds (d : NodeId) (g g' : Graph) : Prop extends g.Preserves d g' where
  fed : ∀ r, g.linkAt r = some ⟨d, 0⟩ → g'.linkAt r = some ⟨d, 0⟩

namespace Preserves

theorem refl : g.Preserves d g := ⟨rfl, fun _ _ h => ⟨h, rfl⟩⟩

theorem trans (h : g.Preserves d g') (h' : g'.Preserves d g'') : g.Preserves d g'' := by
  refine ⟨h'.kind?_eq.trans h.kind?_eq, fun slot hs hn => ?_⟩
  obtain ⟨hn', hl⟩ := h.literals slot hs hn
  obtain ⟨hn'', hl'⟩ := h'.literals slot hs hn'
  exact ⟨hn'', hl'.trans hl⟩

theorem resembles (h : g.Preserves d g') : g.Resembles d d g' :=
  ⟨h.kind?_eq, fun slot hs hn => (h.literals slot hs hn).imp_right fun hl => Or.inl hl.symm⟩

theorem trans_resembles (h : g.Preserves d g') (h' : g'.Resembles d d' g'') :
    g.Resembles d d' g'' := by
  refine ⟨h'.kind?_eq.trans h.kind?_eq, fun slot hs hn => ?_⟩
  obtain ⟨hn', hl⟩ := h.literals slot hs hn
  rw [← hl]
  exact h'.literals slot hs hn'

end Preserves

theorem Resembles.trans_preserves (h : g.Resembles d d' g') (h' : g'.Preserves d' g'') :
    g.Resembles d d' g'' := by
  refine ⟨h'.kind?_eq.trans h.kind?_eq, fun slot hs hn => ?_⟩
  obtain ⟨hn', hl⟩ := h.literals slot hs hn
  obtain ⟨hn'', hl'⟩ := h'.literals slot hs hn'
  exact ⟨hn'', by rwa [hl']⟩

theorem Upholds.refl : g.Upholds d g := ⟨.refl, fun _ h => h⟩

theorem Upholds.trans (h : g.Upholds d g') (h' : g'.Upholds d g'') : g.Upholds d g'' :=
  ⟨h.toPreserves.trans h'.toPreserves, fun r hr => h'.fed r (h.fed r hr)⟩

/-- What resembles a flat displacement is flat. -/
theorem FlatDisplacement.resembles (h : g.FlatDisplacement d) (hg : g.WellFormed)
    (hg' : g'.WellFormed) (hr : g.Resembles d d' g') : g'.FlatDisplacement d' := by
  obtain ⟨space, hk⟩ := h.kind
  obtain ⟨n, hn, hflat⟩ := h.flat
  obtain ⟨n', hn', hkind'⟩ := Option.map_eq_some_iff.mp (hr.kind?_eq.trans hk)
  have hkind : n.kind = .displacement space := by simpa [kind?, hn] using hk
  have hfloat : ∀ name slot i, slot < 3 →
      (NodeKind.displacement space).layout.inputSlot? name = some slot →
      (NodeKind.displacement space).inputDecls[slot]? = some i → i.type = .float →
      n.float name = n'.float name ∨ (n.float name == n'.float name) = true := by
    intro name slot i hs hslot hi hty
    have hl := hg.literalAt_float hn (hkind ▸ hslot) (hkind ▸ hi) hty
    have hl' := hg'.literalAt_float hn' (hkind' ▸ hslot) (hkind' ▸ hi) hty
    obtain ⟨-, heq⟩ := hr.literals slot hs (h.unlinked slot hs)
    rw [hl, hl'] at heq
    exact heq.imp_left fun heq => by simpa using heq
  have hheight := hfloat "Height" 0 _ (by decide) rfl rfl rfl
  have hmiddle := hfloat "Midlevel" 1 _ (by decide) rfl rfl rfl
  have hscale := hfloat "Scale" 2 _ (by decide) rfl rfl rfl
  refine ⟨⟨space, hr.kind?_eq.trans hk⟩, fun slot hs => (hr.literals slot hs (h.unlinked slot hs)).1,
    n', hn', ?_⟩
  rw [← hflat, Edit.isFlatDisplacement, Edit.isFlatDisplacement,
    Binary32.sub_beq_zero_congr hheight hmiddle, Binary32.beq_zero_congr hscale]

/-- What takes a displacement takes a vector. -/
theorem WellFormed.isSpatial_of_displacement (hg : g.WellFormed)
    (hk : g.kind? d = some (.displacement space)) (hl : g.linkAt r = some ⟨d, 0⟩) {i : InputDecl}
    (hi : g.inputDecl? r = some i) : i.type.isSpatial = true := by
  have hfit : SocketType.vector.linksTo i.type = true :=
    (hg.typed r _ i _ hl hi (hg.outputDecl?_eq hk 0)).2
  revert hfit
  cases i.type <;> decide

theorem WellFormed.ne_outputId_of_displacement (hg : g.WellFormed)
    (hk : g.kind? d = some (.displacement space)) : d ≠ outputId := by
  rintro rfl
  cases hk.symm.trans hg.kind?_output

/-! ### Expansion and default sources -/

theorem Expands.upholds (h : g.Expands g') (hr : Retains g.idBound g g')
    (hk : g.kind? d = some (.displacement space)) : g.Upholds d g' := by
  have hlt := g.lt_idBound_of_kind? hk
  refine ⟨⟨h.grows.kind?_eq d hlt, fun slot _ hl => ?_⟩, fun r hl => ?_⟩
  · exact ⟨(h.linked_iff _ hlt).mpr hl, hr.literalAt_of_lt (Nat.le_refl _) hlt⟩
  · exact h.kept r _ hl fun op clamped hk' => by simp [hk] at hk'

theorem Wired.upholds {shared : SharedNodes} (h : g.Wired (fun _ => True) shared g')
    (hg : g.WellFormed) (hk : g.kind? d = some (.displacement space)) : g.Upholds d g' := by
  have hlt := g.lt_idBound_of_kind? hk
  refine ⟨⟨h.evolves.kind?_eq d hlt, fun slot hs hl => ⟨?_, ?_⟩⟩, fun r hl => ?_⟩
  · rw [h.kept _ fun _ source hw => ?_, hl]
    obtain ⟨i, hi, hsource⟩ := hw.2
    rw [hg.inputDecl?_eq hk] at hi
    interval_cases slot <;> cases hi <;> cases hsource
  · rw [literalAt_eq_bare?, literalAt_eq_bare?, h.quiet.bare?_eq _ hlt]
  · rw [h.kept r fun _ source hw => by simp [hw.1] at hl, hl]

/-- A displacement whose normal is an output of a geometry node. -/
def Grounded (g : Graph) (d : NodeId) : Prop :=
  ∃ space s, g.kind? d = some (.displacement space) ∧ g.linkAt ⟨d, 3⟩ = some s ∧
    g.kind? s.node = some .geometry

/-- Every displacement whose normal was free is grounded when default sources are linked. -/
theorem Wired.grounded {shared : SharedNodes} (h : g.Wired (fun _ => True) shared g')
    (hg : g.WellFormed) (hk : g.kind? d = some (.displacement space))
    (hl : g.linkAt ⟨d, 3⟩ = none) : g'.Grounded d := by
  obtain ⟨x, i, hx, -, hl'⟩ := h.linked ⟨d, 3⟩ .normal trivial ⟨hl, _, hg.inputDecl?_eq hk 3, rfl⟩
  exact ⟨space, _, h.evolves.kind?_some hk, hl', h.kind?_shared hx⟩

end Graph

namespace Edit

variable {g : Graph} {B : Nat} {d : NodeId} {space : DisplacementSpace}

theorem retains_insertClamp (id : NodeId) : (insertClamp id).Relates (Retains B) := by
  refine (relates_ask _).bind fun result => (relates_ask _).bind fun consumers => ?_
  split_ifs
  · refine retains_addKind_bind fun clamp hclamp => ?_
    refine (retains_storeNamed hclamp _ _).discard.bind fun _ => ?_
    refine (retains_storeNamed hclamp _ _).discard.bind fun _ => ?_
    refine (relates_ask _).bind fun s => Relates.bind ?_ fun _ => ?_
    · refine relates_requireMutable.bind fun _ => (relates_ask _).bind fun targets =>
        .forM fun t => (retains_disconnectInput t).bind fun _ => ?_
      exact (retains_connect s t).discard
    · exact (relates_ask _).bind fun t => (retains_connect _ t).discard
  · exact relates_pure _

theorem retains_expandNodes : expandNodes.Relates (Retains B) := by
  have honce : ∀ id, (expandOnce id).Relates (Retains B) := by
    intro id
    refine (relates_ask _).bind fun n => ?_
    split_ifs
    · refine Relates.bind ((relates_ask _).discard.bind fun _ => relates_modify fun g => ?_)
        fun _ => (relates_ask _).bind fun n => ?_
      · exact SameNodes.retains (sameNodes_modifyNode id (f := fun n => { n with expanded := true })
          fun _ => rfl) (idBound_modifyNode ..)
      · split_ifs
        · exact retains_insertClamp id
        · exact relates_pure _
    · exact relates_pure _
  exact relates_get_bind fun _ => (Relates.forM honce).bind fun _ => relates_get_bind fun _ =>
    .forM honce

theorem ends_expandNodes_upholds (hg : g.WellFormed) (hm : g.finalized = false) (hac : g.Acyclic)
    (hk : g.kind? d = some (.displacement space)) (hl : g.linkAt ⟨d, 3⟩ = none) :
    expandNodes.Ends g fun _ g' => g.Grows g' ∧ g'.Acyclic ∧ g.Upholds d g' ∧
      g'.linkAt ⟨d, 3⟩ = none := by
  refine ((ends_expandNodes hg hm).and_retains retains_expandNodes).mono ?_
  rintro _ g' ⟨h, hret⟩
  exact ⟨h.grows, h.acyclic hac, h.upholds hret hk,
    (h.linked_iff ⟨d, 3⟩ (g.lt_idBound_of_kind? hk)).mpr hl⟩

theorem ends_linkAllDefaults_upholds (hg : g.WellFormed) (hm : g.finalized = false)
    (hac : g.Acyclic) (hk : g.kind? d = some (.displacement space)) (hl : g.linkAt ⟨d, 3⟩ = none) :
    linkAllDefaults.Ends g fun _ g' => g.Grows g' ∧ g'.Acyclic ∧ g.Upholds d g' ∧
      g'.Grounded d := by
  refine ((ends_linkAllDefaults hg hm).and (ends_linkAllDefaults_wired hg hm)).mono ?_
  rintro _ g' ⟨⟨hsourced, -⟩, shared, h⟩
  exact ⟨h.evolves, hsourced.acyclic hac, h.upholds hg hk, h.grounded hg hk hl⟩

/-! ### Folding -/

/-- No rule applies to the nodes of a grounded displacement. -/
theorem ends_foldOutput_grounded {o s : OutputRef} {e : OutputDecl}
    (ho : g.outputDecl? o = some e) (hk : g.kind? d = some (.displacement space))
    (hl : g.linkAt ⟨d, 3⟩ = some s) (hs : g.kind? s.node = some .geometry)
    (hod : o.node = d ∨ o.node = s.node) : (foldOutput o).Ends g fun _ g' => g' = g := by
  obtain ⟨k, hk'⟩ := g.kind?_of_outputDecl? ho
  refine meets_ask_node_bind (fun n hn => ?_) fun hnone => by simp [hnone] at hk'
  have hkn : g.kind? o.node = some n.kind := by simp [kind?, hn]
  dsimp only
  rcases hod with hod | hod
  · have hlinked : n.hasLinkedInput = true := (hasLinkedInput_iff hn).mpr ⟨3, by simp [hod, hl]⟩
    rw [hod, hk, Option.some.injEq] at hkn
    rw [← hkn, hlinked]
    exact ends_pure rfl
  · rw [hod, hs, Option.some.injEq] at hkn
    rw [← hkn]
    exact ends_pure rfl

section

variable {o : OutputRef} {e : OutputDecl} (hg : g.WellFormed) (hm : g.finalized = false)
  (ho : g.outputDecl? o = some e)
include hg hm ho

/-- A displacement feeds what it fed when an output of another node is folded. -/
theorem ends_foldIfConsumed_fed (hk : g.kind? d = some (.displacement space))
    (hne : o.node ≠ d) :
    (foldIfConsumed o).Ends g fun _ g' =>
      ∀ r, g.linkAt r = some ⟨d, 0⟩ → g'.linkAt r = some ⟨d, 0⟩ := by
  have hother : ∀ r, g.linkAt r = some ⟨d, 0⟩ → g.linkAt r ≠ some o := by
    rintro r hr ho'
    cases hr.symm.trans ho'
    exact hne rfl
  by_cases hown : ∃ r, g.linkAt r = some ⟨d, 0⟩ ∧ r.node = o.node
  · obtain ⟨r, hr, hro⟩ := hown
    obtain ⟨i, hi⟩ := g.inputDecl?_of_linkAt hr
    have hspatial := hg.isSpatial_of_displacement hk hr hi
    obtain ⟨k', hk'⟩ := g.kind?_of_inputDecl? hi
    rw [hg.inputDecl?_eq hk'] at hi
    refine ends_consumersOf_bind ho ?_
    split_ifs
    · refine (ends_foldOutput_evolves hg hm ho (hro ▸ hk')
        (List.any_eq_true.mpr ⟨i, List.mem_of_getElem? hi, hspatial⟩)).mono fun _ g' h r hr => ?_
      rw [h.linkAt_eq r (node_lt_of_linkAt (by simp [hr])) (hother r hr), hr]
    · exact ends_pure fun _ hr => hr
  · refine (ends_foldIfConsumed_foldsOutput hg hm ho).mono fun _ g' h r hr => ?_
    rw [(h.spares hg hm ho).evolves.linkAt_eq r (node_lt_of_linkAt (by simp [hr])), hr]
    rintro (hro | ho')
    · exact hown ⟨r, hr, hro⟩
    · exact hother r hr ho'

/-- **One output.** Folding it leaves a grounded displacement as it is. -/
theorem ends_foldIfConsumed_upholds (hd : g.Grounded d) :
    (foldIfConsumed o).Ends g fun _ g' => g.Upholds d g' ∧ g'.Grounded d := by
  obtain ⟨space, s, hk, hl, hs⟩ := hd
  by_cases hod : o.node = d ∨ o.node = s.node
  · refine ends_consumersOf_bind ho ?_
    split_ifs
    · refine (ends_foldOutput_grounded ho hk hl hs hod).mono ?_
      rintro _ _ rfl
      exact ⟨.refl, space, s, hk, hl, hs⟩
    · exact ends_pure ⟨.refl, space, s, hk, hl, hs⟩
  · obtain ⟨hne, hns⟩ := not_or.mp hod
    refine ((ends_foldIfConsumed_fed hg hm ho hk hne).and
      (ends_foldIfConsumed_foldsOutput hg hm ho)).mono ?_
    rintro _ g' ⟨hfed, h⟩
    have hspares := h.spares hg hm ho
    have hlt := g.lt_idBound_of_kind? hk
    have hfree : ∀ slot, g.linkAt ⟨d, slot⟩ ≠ some o → ¬ g.Touches o ⟨d, slot⟩ :=
      fun slot hslot => not_or.mpr ⟨Ne.symm hne, hslot⟩
    refine ⟨⟨⟨hspares.evolves.kind?_eq d hlt, fun slot _ hslot => ?_⟩, hfed⟩, space, s,
      hspares.evolves.kind?_some hk, ?_, hspares.evolves.kind?_some hs⟩
    · have hnt := hfree slot (by simp [hslot])
      rw [hspares.evolves.linkAt_eq _ hlt hnt, hspares.literalAt_eq _ hlt hnt]
      exact ⟨hslot, rfl⟩
    · rw [hspares.evolves.linkAt_eq _ hlt (hfree 3 fun ho' => ?_), hl]
      cases hl.symm.trans ho'
      exact hns rfl

end

end Edit

/-- **A run of folding.** -/
theorem FoldState.upholds {s s' : FoldState} {d : NodeId} (h : ReflTransGen Step s s')
    (hs : s.Valid) (hd : s.graph.Grounded d) :
    s.graph.Upholds d s'.graph ∧ s'.graph.Grounded d := by
  induction h with
  | refl => exact ⟨.refl, hd⟩
  | tail hrun hstep ih =>
    have hv := valid_of_run hrun hs
    cases hstep with
    | handOut _ _ => exact ih
    | fold h =>
      obtain ⟨e, he⟩ := hv.declared _ List.mem_cons_self
      obtain ⟨h₁, hd'⟩ :=
        (Edit.ends_foldIfConsumed_upholds hv.wellFormed hv.finalized he ih.2).of_run h
      exact ⟨ih.1.trans h₁, hd'⟩

namespace Graph

variable {g g' g'' : Graph} {d d' : NodeId} {r : InputRef} {space : DisplacementSpace}

/-! ### A displacement that is restored, and scenes -/

theorem Redisplaces.upholds (h : g.Redisplaces g') (hg : g.WellFormed)
    (hr : Retains g.idBound g g') (hl : g.linkAt ⟨outputId, 2⟩ = none)
    (hk : g.kind? d = some (.displacement space)) : g.Upholds d g' := by
  have hlt := g.lt_idBound_of_kind? hk
  refine ⟨⟨h.evolves.kind?_eq d hlt, fun slot _ hslot => ⟨?_, ?_⟩⟩, fun r hr => ?_⟩
  · rw [h.evolves.linkAt_eq _ hlt (by simp [hg.ne_outputId_of_displacement hk]), hslot]
  · exact hr.literalAt_of_lt (Nat.le_refl _) hlt
  · rw [h.evolves.linkAt_eq r (node_lt_of_linkAt (by simp [hr])), hr]
    rintro rfl
    simp [hl] at hr

theorem Redisplaces.acyclic (h : g.Redisplaces g') (hg : g.WellFormed) (hac : g.Acyclic) :
    g'.Acyclic := by
  obtain ⟨rank, hrank⟩ := hg.acyclic_iff_ranked.mp hac
  have hout := g.lt_idBound_of_kind? hg.kind?_output
  have hranked : g'.Ranked fun x =>
      if x = g.idBound then 0 else if x = g.idBound + 1 then 1 else rank x + 2 := by
    rintro _ _ ⟨r, o, hl, rfl, rfl⟩
    rw [h.linkAt_eq] at hl
    split_ifs at hl with hr hr'
    · cases hl
      grind
    · cases hl
      grind
    · have hlt := hrank _ _ (feeds_of_linkAt hl)
      have hr := node_lt_of_linkAt (g := g) (r := r) (by simp [hl])
      have ho := hg.source_lt hl
      grind
  exact hranked.acyclic

/-- What an AOV output takes is no vector. -/
theorem TrimsAovs.upholds (h : g.TrimsAovs g') (hg : g.WellFormed)
    (hr : Retains g.idBound g g') (hk : g.kind? d = some (.displacement space)) :
    g.Upholds d g' := by
  have hlt := g.lt_idBound_of_kind? hk
  obtain ⟨T, h, hT⟩ := h
  refine ⟨⟨h.evolves.kind?_eq d hlt, fun slot _ hslot => ⟨?_, ?_⟩⟩, fun r hr => ?_⟩
  · exact h.shortens.linkAt_none (N := False) hslot
  · exact hr.literalAt_of_lt (Nat.le_refl _) hlt
  · rw [h.kept r fun hTr => ?_, hr]
    obtain ⟨name, hname⟩ := hT r hTr
    obtain ⟨i, hi⟩ := g.inputDecl?_of_linkAt hr
    have hspatial := hg.isSpatial_of_displacement hk hr hi
    rw [hg.inputDecl?_eq hname] at hi
    have hmem := List.mem_of_getElem? hi
    simp only [NodeKind.inputDecls, List.mem_cons, List.not_mem_nil, or_false] at hmem
    rcases hmem with rfl | rfl <;> cases hspatial

theorem TrimsAovs.acyclic (h : g.TrimsAovs g') (hac : g.Acyclic) : g'.Acyclic := by
  obtain ⟨T, h, -⟩ := h
  exact Shortens.acyclic (N := False) h.shortens hac

/-! ### Samples of bumps -/

theorem literalAt_tagAll {filterWidth : Binary32} {center dx dy : List NodeId} (r : InputRef) :
    (g.tagAll filterWidth center dx dy).literalAt r = g.literalAt r := by
  rw [literalAt_eq_bare?, literalAt_eq_bare?, bare?_tagAll]
  cases g.bare? r.node with
  | none => rfl
  | some n => cases sampleOf center dx dy r.node <;> rfl

theorem Samples.literalAt_eq {id : NodeId} {source : OutputRef} {ids : List NodeId} {g₁ g₂ : Graph}
    (h : g.Samples id source ids g₁ g₂ g') (hr : r.node < g.idBound) :
    g'.literalAt r = g.literalAt r := by
  obtain ⟨filterWidth, g₃, hoffers, rfl⟩ := h.offered
  have hquiet := h.dx.quiet.trans h.dy.quiet h.dx.evolves.idBound_le
  rw [literalAt_unlink, literalAt_eq_bare?, hoffers.bare?_eq, ← literalAt_eq_bare?,
    literalAt_tagAll, literalAt_eq_bare?, hquiet.bare?_eq _ hr, ← literalAt_eq_bare?]

/-- The only link that a bump loses is that of its height, which is no vector. -/
theorem Samples.upholds {id : NodeId} {source : OutputRef} {ids : List NodeId} {g₁ g₂ : Graph}
    (h : g.Samples id source ids g₁ g₂ g') (hg : g.WellFormed) (hb : g.IsBump id)
    (hk : g.kind? d = some (.displacement space)) : g.Upholds d g' := by
  have hlt := g.lt_idBound_of_kind? hk
  obtain ⟨invert, objectSpace, hb⟩ := hb
  have hne : d ≠ id := by
    rintro rfl
    cases hk.symm.trans hb
  refine ⟨⟨h.evolves.kind?_eq d hlt, fun slot _ hslot => ⟨?_, h.literalAt_eq hlt⟩⟩, fun r hr => ?_⟩
  · rw [h.evolves.linkAt_eq _ hlt hne, hslot]
  · have hheight : r ≠ ⟨id, 0⟩ := by
      rintro rfl
      cases hg.isSpatial_of_displacement hk hr (hg.inputDecl?_eq hb 0)
    have hkept : g₂.linkAt r = some ⟨d, 0⟩ := by
      rw [h.evolves_copies.linkAt_eq r (node_lt_of_linkAt (by simp [hr])) not_false, hr]
    rw [h.linkAt_eq, if_neg hheight, hkept, Option.some_or]

end Graph

namespace Edit

variable {g : Graph} {B : Nat} {d : NodeId} {space : DisplacementSpace}

theorem retains_restoreDisplacement : restoreDisplacement.Relates (Retains B) :=
  (relates_ask _).bind fun _ => retains_addKind_bind fun _ hid =>
    (retains_storeNamed hid _ _).discard.bind fun _ => (retains_connectNamed _ _ _ _).discard

/-- Constants are folded, and a grounded displacement is not. -/
theorem ends_propagateConstants_upholds (hg : g.WellFormed) (hm : g.finalized = false)
    (hac : g.Acyclic) (hd : g.Grounded d) :
    propagateConstants.Ends g fun _ g' => g.Grows g' ∧ g'.Acyclic ∧ g.Upholds d g' := by
  have hfold : (foldAll (.ofGraph g)).Ends g fun _ g₁ => g.Upholds d g₁ := by
    refine ((ends_foldAll hg hm (Worklist.within_ofGraph g)).and_meets
      (meets_foldAll_steps _)).mono ?_
    rintro _ g₁ ⟨-, w, hrun, -⟩
    exact (FoldState.upholds hrun ⟨hg, hm, by simp⟩ hd).1
  refine (ends_propagateConstants_of hg hm hfold (R := fun g₁ g' => g₁.linkAt ⟨outputId, 2⟩ = none ∧
    g₁.Redisplaces g' ∧ Retains g₁.idBound g₁ g') ?_).mono ?_
  · intro g₁ hg₁ hm₁ hl
    exact ((ends_restoreDisplacement hg₁ hm₁ hl).and_retains retains_restoreDisplacement).mono
      fun _ _ h => ⟨hl, h.1.1, h.2⟩
  · rintro _ g' ⟨g₁, h₁, hshort, h⟩
    have hac₁ := hshort.acyclic hac
    split_ifs at h with hlost
    · obtain ⟨hl, hre, hret⟩ := h
      obtain ⟨space, -, hk, -⟩ := hd
      have hg₁ := hshort.evolves.wellFormed
      exact ⟨hshort.evolves.grows.trans hre.evolves.grows, hre.acyclic hg₁ hac₁,
        h₁.trans (hre.upholds hg₁ hret hl (h₁.kind?_eq.trans hk))⟩
    · subst h
      exact ⟨hshort.evolves.grows, hac₁, h₁⟩

theorem ends_adaptToScene_upholds (hg : g.WellFormed) (hm : g.finalized = false)
    (hac : g.Acyclic) (hk : g.kind? d = some (.displacement space)) (scene : Scene) :
    (g.ids.forM (adaptToScene scene)).Ends g fun _ g' =>
      g.Grows g' ∧ g'.Acyclic ∧ g.Upholds d g' := by
  refine ends_forM_mem (I := fun g' => g.Grows g' ∧ g'.Acyclic ∧ g.Upholds d g')
    ⟨.refl hg, hac, .refl⟩ fun id hid g' h => ?_
  obtain ⟨h, hac', hup⟩ := h
  obtain ⟨k, hkid⟩ := (g'.mem_ids_iff_kind?).mp (h.ids_subset hid)
  refine ((ends_adaptToScene_trims h.wellFormed (h.finalized.trans hm) hkid scene).and_retains
    (relates_adaptToScene retains_disconnectIfLinked scene id)).mono ?_
  rintro _ g'' ⟨h', hret⟩
  exact ⟨h.trans h'.grows, h'.acyclic hac',
    hup.trans (h'.upholds h.wellFormed hret (hup.kind?_eq.trans hk))⟩

theorem ends_refineBumps_upholds (hg : g.WellFormed) (hm : g.finalized = false) :
    refineBumps.Ends g fun _ g' => g.Evolves (fun r => g.IsBump r.node) g' ∧
      ∀ d space, g.kind? d = some (.displacement space) → g.Upholds d g' := by
  refine ends_refineBumps_of (I := fun _ g' => ∀ d space,
    g.kind? d = some (.displacement space) → g.Upholds d g') hg hm (fun _ _ _ => .refl)
    (fun _ _ _ h _ => h) fun id rest source ids g' g₁ g₂ g'' hev hb h hs d space hk => ?_
  have hb' : g'.IsBump id := by
    obtain ⟨invert, objectSpace, hb⟩ := hb
    exact ⟨invert, objectSpace, hev.kind?_some hb⟩
  have hd := h d space hk
  exact hd.trans (hs.upholds hev.wellFormed hb' (hd.kind?_eq.trans hk))

end Edit

/-! ### Merging -/

namespace Graph

variable {g g' g'' : Graph} {d d' : NodeId} {r : InputRef} {space : DisplacementSpace}

theorem Absorbs.linkAt_none {x t : NodeId} (h : g.Absorbs x t g') (hl : g.linkAt r = none) :
    g'.linkAt r = none := by
  rw [h.linkAt_eq, hl, Option.map_none, ite_self]

theorem Absorbs.preserves {x t : NodeId} (h : g.Absorbs x t g') (d : NodeId) :
    g.Preserves d g' :=
  ⟨h.same.kind?_eq d, fun _ _ hl => ⟨h.linkAt_none hl, h.same.literalAt_eq _⟩⟩

theorem Twins.resembles (h : g.Twins d d') : g.Resembles d d' g :=
  ⟨h.kind.symm, fun slot _ hl => ⟨(h.links slot).symm.trans hl, Or.inr (h.literals slot hl)⟩⟩

end Graph

namespace Scan

variable {g₀ : Graph} {s s' : Scan} {d : NodeId}

/-- The consumers of a displacement that still count take it or a candidate that resembles it. -/
structure Displaces (d : NodeId) (g₀ : Graph) (s : Scan) : Prop where
  preserves : g₀.Preserves d s.graph
  fed : ∀ r, g₀.linkAt r = some ⟨d, 0⟩ → s.Live r.node → ∃ d', s.graph.linkAt r = some ⟨d', 0⟩ ∧
    (d' = d ∨ d' ∈ s.candidates ∧ g₀.Resembles d d' s.graph)

theorem displaces_start (g : Graph) (d : NodeId) : Displaces d g ⟨.ofGraph g, [], g⟩ :=
  ⟨.refl, fun _ hr _ => ⟨d, hr, Or.inl rfl⟩⟩

/-- **One step.** The displacement itself may be merged into a candidate, but no candidate is merged
any more. -/
theorem Step.displaces (h : s.Step s') (hs : s.Valid) (hd : s.Displaces d g₀) :
    s'.Displaces d g₀ := by
  have hlive := fun {y} => h.live hs (y := y)
  cases h with
  | skip _ _ => exact ⟨hd.preserves, fun r hr hy => hd.fed r hr (hlive hy)⟩
  | keep _ _ =>
    refine ⟨hd.preserves, fun r hr hy => ?_⟩
    obtain ⟨d', hl, hd'⟩ := hd.fed r hr (hlive hy)
    exact ⟨d', hl, hd'.imp_right (And.imp_left (List.mem_append_left _))⟩
  | @merge w w' candidates g g' x t hx hused ht htw h =>
    refine ⟨hd.preserves.trans (h.preserves d), fun r hr hy => ?_⟩
    have hrx := hs.ne_of_live hx hused h.same hy
    obtain ⟨d', hl, hd'⟩ := hd.fed r hr (hlive hy)
    have hl' : g'.linkAt r = some (if d' = x then ⟨t, 0⟩ else ⟨d', 0⟩) := by
      rw [h.linkAt_eq, if_neg hrx, hl, Option.map_some]
    by_cases hdx : d' = x
    · have hdd : d' = d := hd'.resolve_right fun hc => (hs.next hx d' hc.1).1 hdx
      rw [if_pos hdx] at hl'
      rw [← hdx, hdd] at htw
      exact ⟨t, hl', Or.inr ⟨ht, (hd.preserves.trans_resembles htw.resembles).trans_preserves
        (h.preserves t)⟩⟩
    · rw [if_neg hdx] at hl'
      exact ⟨d', hl', hd'.imp_right (And.imp_right fun hc => hc.trans_preserves (h.preserves d'))⟩

end Scan

namespace Graph

variable {g g' g'' : Graph} {d d' : NodeId} {r : InputRef} {space : DisplacementSpace}

/-- What tidying does to a displacement and its consumers. -/
structure Relieves (d : NodeId) (g g' : Graph) : Prop where
  grows : g.Grows g'
  acyclic : g'.Acyclic
  preserves : g.Preserves d g'
  fed : ∀ r, g.linkAt r = some ⟨d, 0⟩ → g'.Unused r.node ∧ ¬ g'.IsOutput r.node ∨
    ∃ d', g'.linkAt r = some ⟨d', 0⟩ ∧ g.Resembles d d' g'

theorem Upholds.trans_relieves (h : g.Upholds d g') (hg : g.Grows g') (h' : g'.Relieves d g'') :
    g.Relieves d g'' := by
  refine ⟨hg.trans h'.grows, h'.acyclic, h.toPreserves.trans h'.preserves, fun r hr => ?_⟩
  refine (h'.fed r (h.fed r hr)).imp_right ?_
  rintro ⟨d', hl, hd'⟩
  exact ⟨d', hl, h.toPreserves.trans_resembles hd'⟩

/-! ### Pruning -/

section

variable (h : g.Prunes g') (hk : g.kind? d = some (.displacement space)) (hd : g'.kind? d ≠ none)
include h hk hd

theorem Prunes.preserves (hg : g.WellFormed)
    (hlinks : ∀ r, r ≠ ⟨outputId, 1⟩ → g'.kind? r.node ≠ none → g'.linkAt r = g.linkAt r)
    (hlit : g.KeepsLiterals g') : g.Preserves d g' := by
  refine ⟨h.kind?_eq hd, fun slot hs hl => ⟨?_, ?_⟩⟩
  · rw [hlinks _ (by simp [hg.ne_outputId_of_displacement hk]) hd, hl]
  · have hdecl := h.wellFormed.inputDecl?_eq ((h.kind?_eq hd).trans hk) slot
    interval_cases slot <;> exact hlit.literalAt_eq hdecl

/-- A displacement that is left leads to an output, and so it feeds something. -/
theorem Prunes.exists_fed : ∃ r, g'.linkAt r = some ⟨d, 0⟩ := by
  have hk' := (h.kind?_eq hd).trans hk
  obtain ⟨root, hroot, hp⟩ := h.leads d ((g'.mem_ids_iff_kind?).mpr ⟨_, hk'⟩)
  rcases ReflTransGen.cases_head hp with rfl | ⟨_, ⟨r, o, ho, rfl, -⟩, -⟩
  · rcases hroot with hout | ⟨name, hname⟩
    · exact absurd hout (h.wellFormed.ne_outputId_of_displacement hk')
    · cases hk'.symm.trans hname
  · obtain ⟨e, he⟩ := h.wellFormed.exists_output ho
    have hslot := h.wellFormed.slot_eq_zero hk' rfl he
    exact ⟨r, ho.trans (by rw [← hslot])⟩

end

end Graph

namespace Edit

variable {g : Graph} {d : NodeId} {space : DisplacementSpace}

theorem ends_mergeDuplicates_relieves (hg : g.WellFormed) (hm : g.finalized = false)
    (hac : g.Acyclic) (d : NodeId) : mergeDuplicates.Ends g fun _ => g.Relieves d := by
  have hstart := Scan.valid_start hg hac
  refine ends_get_bind (((ends_mergeAll_steps hstart hm 0).and
    (ends_mergeAll hg hm (Worklist.within_ofGraph g) [] 0)).mono ?_)
  rintro _ _ ⟨⟨s, rfl, hq, hsteps⟩, htidies⟩
  obtain ⟨hs, hd⟩ := hstart.steps hsteps (Scan.displaces_start g d) Scan.Step.displaces
  refine ⟨htidies.grows, hs.acyclic, hd.preserves, fun r hr => ?_⟩
  by_cases hlive : s.Live r.node
  · obtain ⟨d', hl, rfl | hd'⟩ := hd.fed r hr hlive
    · exact Or.inr ⟨d', hl, hd.preserves.resembles⟩
    · exact Or.inr ⟨d', hl, hd'.2⟩
  · obtain ⟨hdone, hcand, hout⟩ : r.node ∈ s.worklist.done ∧ r.node ∉ s.candidates ∧
        ¬ s.graph.IsOutput r.node := by
      simpa [Scan.Live] using hlive
    exact Or.inl ⟨hs.unused _ hdone hcand, hout⟩

theorem ends_tidy_relieves (hg : g.WellFormed) (hm : g.finalized = false) (hac : g.Acyclic)
    (hd : g.Grounded d) (scene : Scene) : (tidy scene).Ends g fun _ => g.Relieves d := by
  refine Ends.bind (ends_propagateConstants_upholds hg hm hac hd) ?_
  rintro _ g₁ ⟨hg₁, hac₁, h₁⟩
  obtain ⟨space, -, hk, -⟩ := hd
  refine ends_get_bind (Ends.bind (ends_adaptToScene_upholds hg₁.wellFormed
    (hg₁.finalized.trans hm) hac₁ (h₁.kind?_eq.trans hk) scene) ?_)
  rintro _ g₂ ⟨hg₂, hac₂, h₂⟩
  refine ends_discard ((ends_mergeDuplicates_relieves hg₂.wellFormed
    (hg₂.finalized.trans (hg₁.finalized.trans hm)) hac₂ d).mono fun _ _ h₃ => ?_)
  exact (h₁.trans h₂).trans_relieves (hg₁.trans hg₂) h₃

/-- **Cleaning.** -/
theorem ends_clean_displacement (hg : g.WellFormed) (hm : g.finalized = false) (hac : g.Acyclic)
    (hd : g.Grounded d) (scene : Scene) :
    (clean scene).Ends g fun _ g' => g'.WellFormed ∧ g'.finalized = false ∧
      g.idBound ≤ g'.idBound ∧ (∀ x < g.idBound, g'.kind? x ≠ none → g.kind? x ≠ none) ∧
      (g'.kind? d ≠ none → g.Preserves d g' ∧ ∃ r, g'.linkAt r = some ⟨d, 0⟩) ∧
      ∀ r, g.linkAt r = some ⟨d, 0⟩ → g'.kind? r.node ≠ none →
        ∃ d', g'.linkAt r = some ⟨d', 0⟩ ∧ g.Resembles d d' g' := by
  rw [clean_eq]
  refine Ends.bind (ends_tidy_relieves hg hm hac hd scene) fun _ g₁ h₁ => ?_
  obtain ⟨space, -, hk, -⟩ := hd
  have hg₁ := h₁.grows.wellFormed
  have hm₁ := h₁.grows.finalized.trans hm
  refine ((ends_prune_acyclic hg₁ hm₁ h₁.acyclic).and_meets (keepsLiterals_prune g₁)).mono ?_
  rintro _ g' ⟨⟨h, hlinks⟩, hlit⟩
  refine ⟨h.wellFormed, h.finalized.trans hm₁, h.idBound_eq ▸ h₁.grows.idBound_le,
    fun x hx hx' => ?_, fun hd => ⟨?_, ?_⟩, fun r hr hr' => ?_⟩
  · rwa [← h₁.grows.kind?_eq x hx, ← h.kind?_eq hx']
  · exact h₁.preserves.trans (h.preserves (h₁.preserves.kind?_eq.trans hk) hd hg₁ hlinks hlit)
  · exact h.exists_fed (h₁.preserves.kind?_eq.trans hk) hd
  · rcases h₁.fed r hr with ⟨hunused, hout⟩ | ⟨d', hl, hd'⟩
    · exact absurd (h.kind?_of_unused hunused hout) hr'
    · have hk' := hd'.kind?_eq.trans hk
      have hvolume : r ≠ ⟨outputId, 1⟩ := by
        rintro rfl
        cases hg₁.isSpatial_of_displacement hk' hl (hg₁.inputDecl?_eq hg₁.kind?_output 1)
      have hl' := (hlinks r hvolume hr').trans hl
      obtain ⟨e, he⟩ := h.wellFormed.exists_output hl'
      obtain ⟨k, hkd⟩ := g'.kind?_of_outputDecl? he
      exact ⟨d', hl', hd'.trans_preserves (h.preserves hk' (by simp [hkd]) hg₁ hlinks hlit)⟩

/-! ### Simplification -/

theorem ends_removeProxies_displacement (hg : g.WellFormed) (hm : g.finalized = false)
    (hac : g.Acyclic) (hk : g.kind? d = some (.displacement space)) (hl : g.linkAt ⟨d, 3⟩ = none) :
    removeProxies.Ends g fun _ g' => g'.WellFormed ∧ g'.finalized = false ∧ g'.Acyclic ∧
      g'.idBound = g.idBound ∧ g.Preserves d g' ∧ g'.linkAt ⟨d, 3⟩ = none ∧
      ∀ r ps, g.ProxyChain r ps (some ⟨d, 0⟩) → g'.kind? r.node ≠ none →
        g'.linkAt r = some ⟨d, 0⟩ := by
  refine (ends_removeProxies_deproxied hg hm).mono ?_
  rintro _ g' ⟨g₁, removed, h⟩
  have hu := h.all.unproxied hg
  have hconv := not_isConvert_of_kind? hk (by simp)
  have hkind := h.kind?_eq_of_not_isConvert hg hconv
  refine ⟨h.removes.wellFormed, h.removes.finalized.trans (hu.shortens.evolves.finalized.trans hm),
    h.acyclic hg hac, h.removes.idBound_eq.trans hu.idBound_eq, ⟨hkind, fun slot hs => ?_⟩,
    h.linkAt_none hg hl, fun r ps hc hr => h.linkAt_of_not_isConvert hg hr hconv hc⟩
  have hdecl := hg.inputDecl?_eq hk slot
  have hd : g'.kind? d ≠ none := by simp [hkind, hk]
  interval_cases slot <;> exact (h.resolved hg hd hdecl rfl).unlinked

/-- **What becomes of a displacement.** -/
theorem ends_simplify_displaces (hg : g.WellFormed) (hac : g.Acyclic) (hs : g.simplified = false)
    (hm : g.finalized = false) (scene : Scene) (hk : g.kind? d = some (.displacement space))
    (hl : g.linkAt ⟨d, 3⟩ = none) :
    (simplify scene).Ends g fun _ g' =>
      (g'.kind? d ≠ none → g.Preserves d g' ∧ ∃ r, g'.linkAt r = some ⟨d, 0⟩) ∧
      ∀ r ps, g.ProxyChain r ps (some ⟨d, 0⟩) → g'.kind? r.node ≠ none →
        ∃ d', g'.linkAt r = some ⟨d', 0⟩ ∧ g.Resembles d d' g' := by
  refine ends_get_bind ?_
  rw [hs, hm]
  refine Ends.bind (ends_removeProxies_displacement hg hm hac hk hl) ?_
  rintro _ g₁ ⟨hg₁, hm₁, hac₁, hb₁, h₁, hl₁, hfed₁⟩
  have hk₁ := h₁.kind?_eq.trans hk
  refine Ends.bind (ends_expandNodes_upholds hg₁ hm₁ hac₁ hk₁ hl₁) ?_
  rintro _ g₂ ⟨hgrows₂, hac₂, h₂, hl₂⟩
  refine Ends.bind (ends_linkAllDefaults_upholds hgrows₂.wellFormed (hgrows₂.finalized.trans hm₁)
    hac₂ (h₂.kind?_eq.trans hk₁) hl₂) ?_
  rintro _ g₃ ⟨hgrows₃, hac₃, h₃, hd₃⟩
  have hgrows := hgrows₂.trans hgrows₃
  have h₁₃ := h₂.trans h₃
  refine Ends.bind (ends_clean_displacement hgrows.wellFormed (hgrows.finalized.trans hm₁) hac₃ hd₃
    scene) ?_
  rintro _ g₄ ⟨hg₄, hm₄, hb₄, hleft, h₄, hfed₄⟩
  refine Ends.bind (ends_refineBumps_upholds hg₄ hm₄) ?_
  rintro _ g₅ ⟨hev, h₅⟩
  have hb₃ : g.idBound ≤ g₃.idBound := hb₁ ▸ hgrows.idBound_le
  have hold : ∀ x < g.idBound, g₅.kind? x ≠ none → g₄.kind? x ≠ none := fun x hx hx' => by
    rwa [← hev.kind?_eq x (Nat.lt_of_lt_of_le hx (Nat.le_trans hb₃ hb₄))]
  have hmark : ∀ x, g₅.Preserves x { g₅ with simplified := true } := fun _ =>
    ⟨rfl, fun _ _ hn => ⟨hn, rfl⟩⟩
  have hpre := h₁.trans h₁₃.toPreserves
  refine ends_modify ⟨fun hd => ?_, fun r ps hc hr => ?_⟩
  · obtain ⟨hp₄, r, hr⟩ := h₄ (hold d (g.lt_idBound_of_kind? hk) hd)
    have hup := h₅ d space (hp₄.kind?_eq.trans (hpre.kind?_eq.trans hk))
    exact ⟨hpre.trans (hp₄.trans (hup.toPreserves.trans (hmark d))), r, hup.fed r hr⟩
  · have hlt : r.node < g.idBound := node_lt_of_linkAt (fed_iff_proxyChain.mpr ⟨ps, _, hc⟩).linked
    have hr₄ := hold r.node hlt hr
    have hr₁ : g₁.kind? r.node ≠ none := by
      rw [← hgrows.kind?_eq r.node (hb₁ ▸ hlt)]
      exact hleft _ (Nat.lt_of_lt_of_le hlt hb₃) hr₄
    obtain ⟨d', hl₄, hd'⟩ := hfed₄ r (h₁₃.fed r (hfed₁ r ps hc hr₁)) hr₄
    have hup := h₅ d' space (hd'.kind?_eq.trans (hpre.kind?_eq.trans hk))
    exact ⟨d', hup.fed r hl₄, (hpre.trans_resembles hd').trans_preserves
      (hup.toPreserves.trans (hmark d'))⟩

/-- **No displacement is folded whose normal was free.** In a graph without cycles, such a displacement
is left as long as something uses it. Inputs to which it leads, directly or through proxies, take this
displacement in the end or another of the same kind, if their nodes are left. If it is flat, then so
is what they take. -/
theorem simplify_keeps_displacements (g : Graph) (hg : g.WellFormed) (hac : g.Acyclic)
    (hs : g.simplified = false) (hm : g.finalized = false) (scene : Scene) :
    ∃ g', (simplify scene).run g = .ok () g' ∧ ∀ d space,
      g.kind? d = some (.displacement space) → g.linkAt ⟨d, 3⟩ = none →
        (g'.kind? d ≠ none ↔ ¬ g'.Unused d) ∧
        (g.FlatDisplacement d → g'.kind? d ≠ none → g'.FlatDisplacement d) ∧
        ∀ r ps, g.ProxyChain r ps (some ⟨d, 0⟩) → g'.kind? r.node ≠ none →
          ∃ d', g'.linkAt r = some ⟨d', 0⟩ ∧ g'.kind? d' = some (.displacement space) ∧
            (g.FlatDisplacement d → g'.FlatDisplacement d') := by
  obtain ⟨_, g', hrun, hg', -, -⟩ :=
    ends_iff.mp (ends_simplify ⟨hg, fun hs' => by simp [hs] at hs'⟩ hm scene)
  refine ⟨g', hrun, fun d space hk hl => ?_⟩
  obtain ⟨hleft, hfed⟩ := (ends_simplify_displaces hg hac hs hm scene hk hl).of_run hrun
  refine ⟨⟨fun hd hunused => ?_, fun hused hd => hused fun r o ho heq => ?_⟩,
    fun hflat hd => hflat.resembles hg hg' (hleft hd).1.resembles, fun r ps hc hr => ?_⟩
  · obtain ⟨-, r, hr⟩ := hleft hd
    exact hunused r _ hr rfl
  · obtain ⟨e, he⟩ := hg'.exists_output ho
    obtain ⟨k, hk'⟩ := g'.kind?_of_outputDecl? he
    rw [heq, hd] at hk'
    cases hk'
  · obtain ⟨d', hl', hd'⟩ := hfed r ps hc hr
    exact ⟨d', hl', hd'.kind?_eq.trans hk, fun hflat => hflat.resembles hg hg' hd'⟩

/-- A displacement whose height is its middle. -/
def levelDisplacement : Graph :=
  Primitive.runAll [.addKind (.displacement .object), .store ⟨1, 0⟩ (.float 0.5),
    .connect ⟨1, 0⟩ ⟨0, 2⟩] Graph.empty

/-- A second one, which leads to the normal of the output through a proxy. -/
def levelDisplacements : Graph :=
  Primitive.runAll [.addKind (.displacement .object), .addKind (.proxy .vector),
    .store ⟨2, 0⟩ (.float 0.5), .connect ⟨2, 0⟩ ⟨3, 0⟩, .connect ⟨3, 0⟩ ⟨0, 3⟩] levelDisplacement

theorem wellFormed_levelDisplacement : levelDisplacement.WellFormed :=
  (Primitive.follows_runAll wellFormed_empty _).wellFormed

theorem wellFormed_levelDisplacements : levelDisplacements.WellFormed :=
  (Primitive.follows_runAll wellFormed_levelDisplacement _).wellFormed

theorem flatDisplacement_levelDisplacements : levelDisplacements.FlatDisplacement 1 ∧
    levelDisplacements.FlatDisplacement 2 :=
  ⟨⟨⟨.object, by decide +kernel⟩, by decide +kernel, Option.map_eq_some_iff.mp (by decide +kernel)⟩,
    ⟨.object, by decide +kernel⟩, by decide +kernel, Option.map_eq_some_iff.mp (by decide +kernel)⟩

theorem simplify_keeps_displacements_levelDisplacements :
    levelDisplacements.WellFormed ∧ levelDisplacements.Acyclic ∧
      levelDisplacements.simplified = false ∧ levelDisplacements.finalized = false ∧
      levelDisplacements.linkAt ⟨outputId, 3⟩ = some ⟨3, 0⟩ ∧
      ∃ g', (simplify Scene.empty).run levelDisplacements = .ok () g' ∧
        (∃ d, g'.linkAt ⟨outputId, 2⟩ = some ⟨d, 0⟩ ∧ g'.FlatDisplacement d) ∧
        ∃ d, g'.linkAt ⟨outputId, 3⟩ = some ⟨d, 0⟩ ∧ g'.FlatDisplacement d := by
  have hg := wellFormed_levelDisplacements
  have hac : levelDisplacements.Acyclic :=
    (ranked_of_feeders hg (fun x => if x = 0 then 4 else x) (by decide +kernel)).acyclic
  have hs : levelDisplacements.simplified = false := by decide +kernel
  have hm : levelDisplacements.finalized = false := by decide +kernel
  obtain ⟨g', hrun, h⟩ := simplify_keeps_displacements levelDisplacements hg hac hs hm Scene.empty
  have hc : levelDisplacements.Compilable := ⟨hg, fun _ => Or.inr hac⟩
  obtain ⟨hg', -⟩ := Meets.of_run (ends_simplify hc hm Scene.empty) hrun
  have hout : g'.kind? outputId ≠ none := by simp [hg'.kind?_output]
  have hdisp : ∀ d ∈ [1, 2], levelDisplacements.kind? d = some (.displacement .object) ∧
      levelDisplacements.linkAt ⟨d, 3⟩ = none := by decide +kernel
  have hproxy : levelDisplacements.IsProxy 3 := ⟨.proxy .vector, by decide +kernel, rfl⟩
  have hsource : ∀ d ∈ [1, 2], ¬ levelDisplacements.IsProxy d := by
    rintro d hd ⟨k, hk, hrole⟩
    cases (hdisp d hd).1.symm.trans hk
    cases hrole
  refine ⟨hg, hac, hs, hm, by decide +kernel, g', hrun, ?_, ?_⟩
  · obtain ⟨hk, hl⟩ := hdisp 1 (by simp)
    obtain ⟨d, hd, -, hflat⟩ := (h 1 .object hk hl).2.2 ⟨outputId, 2⟩ _
      (.source (by decide +kernel) (hsource 1 (by simp))) hout
    exact ⟨d, hd, hflat flatDisplacement_levelDisplacements.1⟩
  · obtain ⟨hk, hl⟩ := hdisp 2 (by simp)
    obtain ⟨d, hd, -, hflat⟩ := (h 2 .object hk hl).2.2 ⟨outputId, 3⟩ _
      (.through (o := ⟨3, 0⟩) (by decide +kernel) hproxy
        (.source (by decide +kernel) (hsource 2 (by simp)))) hout
    exact ⟨d, hd, hflat flatDisplacement_levelDisplacements.2⟩

theorem ends_simplify_levelDisplacement :
    (simplify Scene.empty).Ends levelDisplacement fun _ g' =>
      g'.linkAt ⟨outputId, 2⟩ = some ⟨1, 0⟩ ∧ g'.kind? 1 = some (.displacement .object) ∧
        (∀ slot < 3, g'.linkAt ⟨1, slot⟩ = none) ∧
        (g'.node? 1).map isFlatDisplacement = some true := by
  decide +kernel

/-- The flat displacement still has its consumer. -/
theorem levelDisplacement_kept :
    levelDisplacement.WellFormed ∧ levelDisplacement.Acyclic ∧ levelDisplacement.simplified = false ∧
      levelDisplacement.finalized = false ∧ levelDisplacement.linkAt ⟨1, 3⟩ = none ∧
      ∃ g', (simplify Scene.empty).run levelDisplacement = .ok () g' ∧ g'.FlatDisplacement 1 ∧
        ¬ g'.Unused 1 := by
  have hac : levelDisplacement.Acyclic := (ranked_of_feeders wellFormed_levelDisplacement
    (fun x => if x = 0 then 2 else x) (by decide +kernel)).acyclic
  obtain ⟨_, g', hrun, hl, hk, hfree, hflat⟩ := ends_iff.mp ends_simplify_levelDisplacement
  refine ⟨wellFormed_levelDisplacement, hac, by decide +kernel, by decide +kernel,
    by decide +kernel, g', hrun, ⟨⟨.object, hk⟩, hfree, Option.map_eq_some_iff.mp hflat⟩,
    fun hunused => ?_⟩
  exact hunused _ _ hl rfl

end Edit

end Shading
