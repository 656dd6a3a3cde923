import Shading.Proofs.Cleaning
import Shading.Proofs.Constants
import Shading.Proofs.FoldingRun

/-!
# The value of a folded displacement

If folding has stored a literal in the displacement, a colour node with that literal is added, which
feeds the displacement through a conversion (`Graph.ColorFed`). No other colour feeds anything by
then, so neither of the two nodes is merged into another one, and nothing is cut or removed behind
the displacement, since no cycle leads there. What is left after cleaning is the literal that was
folded (`Edit.clean_keeps_displacement`). -/

namespace Shading

open Shading.Graph Relation

namespace Graph

variable {g g' : Graph} {x c t id : NodeId}

/-- The displacement is fed by the colour `x` through the conversion `c`. The colour feeds nothing
else, and no other colour feeds anything. -/
structure ColorFed (x c : NodeId) (g : Graph) : Prop where
  color : g.kind? x = some .color
  convert : g.kind? c = some (.convert .color .vector true)
  displaced : g.linkAt ⟨outputId, 2⟩ = some ⟨c, 0⟩
  fed : g.linkAt ⟨c, 0⟩ = some ⟨x, 0⟩
  only : ∀ r o, g.linkAt r = some o → o.node = x → r = ⟨c, 0⟩
  unused : ∀ y, y ≠ x → g.kind? y = some .color → g.Unused y

/-- The input of a colour cannot be linked. -/
theorem WellFormed.linkAt_color (hg : g.WellFormed) (hk : g.kind? x = some .color) (slot : Nat) :
    g.linkAt ⟨x, slot⟩ = none := by
  cases hl : g.linkAt ⟨x, slot⟩ with
  | none => rfl
  | some o =>
    obtain ⟨d, hd⟩ := g.inputDecl?_of_linkAt hl
    obtain ⟨e, he⟩ := hg.exists_output hl
    have hlinkable := (hg.typed _ o d e hl hd he).1
    rw [hg.inputDecl?_eq hk] at hd
    obtain rfl := List.mem_singleton.mp (List.mem_of_getElem? hd)
    cases hlinkable

theorem Redisplaces.colorFed (h : g.Redisplaces g') (hg : g.WellFormed)
    (hev : ∀ y, g.Evaluated y) : g'.ColorFed g.idBound (g.idBound + 1) where
  color := by rw [h.kind?_eq, if_neg (Nat.ne_of_lt (Nat.lt_succ_self _)), if_pos rfl]
  convert := by rw [h.kind?_eq, if_pos rfl]
  displaced := h.linkAt_displacement
  fed := by rw [h.linkAt_eq, if_neg (by simp [outputId]), if_pos rfl]
  only _ _ ho hx := (h.feeds_color_iff hg ho).mp hx
  unused y hy hk := h.evaluated hy (hev y) _ hk rfl fun ⟨slot, hs⟩ =>
    hs (h.evolves.wellFormed.linkAt_color hk slot)

theorem TrimsAovs.colorFed (h : g.TrimsAovs g') (hg : g.WellFormed) (hc : g.ColorFed x c) :
    g'.ColorFed x c := by
  obtain ⟨T, h, hT⟩ := h
  exact {
    color := (h.kind?_eq x).trans hc.color
    convert := (h.kind?_eq c).trans hc.convert
    displaced := (h.kept _ fun hr => by simpa [hg.kind?_output] using hT _ hr).trans hc.displaced
    fed := (h.kept _ fun hr => by simpa [hc.convert] using hT _ hr).trans hc.fed
    only := fun r o ho => hc.only r o (h.linkAt_some ho).1
    unused := fun y hy hk r o ho =>
      hc.unused y hy ((h.kind?_eq y).symm.trans hk) r o (h.linkAt_some ho).1 }

/-- A node that feeds something is merged into a twin that is no colour other than `x`. -/
theorem Merges.colorFed (h : g.Merges id t g') (hg : g.WellFormed) (hne : t ≠ id)
    (hused : ¬ g.Unused id) {k : NodeKind} (hid : g.kind? id = some k) (ht : g.kind? t = some k)
    (hlinks : ∀ slot, g.linkAt ⟨t, slot⟩ = g.linkAt ⟨id, slot⟩) (hcolor : t ≠ x → k ≠ .color)
    (hc : g.ColorFed x c) : g'.ColorFed x c := by
  have hx : id ≠ x := by
    rintro rfl
    exact hcolor hne (Option.some.inj (hid.symm.trans hc.color))
  -- a twin of the conversion would be fed by the colour as well
  have hidc : id ≠ c := by
    rintro rfl
    have htc := hc.only ⟨t, 0⟩ _ ((hlinks 0).trans hc.fed) rfl
    exact hne (congrArg InputRef.node htc)
  have hk : k ≠ .color := fun hk => hused (hc.unused id hx (hk ▸ hid))
  have hout : id ≠ outputId := by
    rintro rfl
    exact hused hg.unused_outputId
  have hkept : ∀ {r o}, g.linkAt r = some o → r.node ≠ id → o.node ≠ id → g'.linkAt r = some o := by
    intro r o hl hr ho
    obtain ⟨o', ho'⟩ := Option.ne_none_iff_exists'.mp (h.linked r hr (by simp [hl]))
    rcases h.links r o' ho' with hl' | ⟨hl', -⟩
    · rw [ho', ← hl', hl]
    · rw [hl, Option.some.injEq] at hl'
      exact absurd (congrArg OutputRef.node hl') ho
  refine ⟨h.grows.kind?_some hc.color, h.grows.kind?_some hc.convert,
    hkept hc.displaced hout.symm hidc.symm, hkept hc.fed hidc.symm hx.symm, fun r o ho hox => ?_,
    fun y hy hky r o ho hoy => ?_⟩
  · rcases h.links r o ho with hl | ⟨-, hot⟩
    · exact hc.only r o hl hox
    · rw [← hot, hox, hc.color, Option.some.injEq] at ht
      exact absurd ht.symm hk
  · rcases h.links r o ho with hl | ⟨-, hot⟩
    · rw [h.grows.kind?_eq y (hoy ▸ hg.source_lt hl)] at hky
      exact hc.unused y hy hky r o hl hoy
    · rw [← hoy, hot, h.grows.kind?_some ht, Option.some.injEq] at hky
      exact hk hky

/-- No cycle leads to the conversion. -/
theorem ColorFed.acc (hc : g.ColorFed x c) (hg : g.WellFormed) : Acc g.Feeds c := by
  have hx : Acc g.Feeds x := by
    refine ⟨x, ?_⟩
    rintro _ ⟨⟨_, slot⟩, o, ho, rfl, rfl⟩
    rw [hg.linkAt_color hc.color] at ho
    cases ho
  refine ⟨c, ?_⟩
  rintro _ ⟨⟨_, slot⟩, o, ho, rfl, rfl⟩
  obtain ⟨d, hd⟩ := g.inputDecl?_of_linkAt ho
  rw [hg.inputDecl?_eq hc.convert] at hd
  obtain rfl : slot = 0 := by
    obtain ⟨hlt, -⟩ := List.getElem?_eq_some_iff.mp hd
    exact Nat.lt_one_iff.mp hlt
  rwa [Option.some.inj (ho.symm.trans hc.fed)]

theorem Prunes.colorFed (h : g.Prunes g') (hg : g.WellFormed) (hc : g.ColorFed x c) :
    g'.ColorFed x c := by
  have hdisplaced : g'.linkAt ⟨outputId, 2⟩ = some ⟨c, 0⟩ := by
    have hlinked : g'.linkAt ⟨outputId, 2⟩ ≠ none := by simp [h.linkAt_output 2, hc.displaced]
    obtain ⟨o, ho⟩ := Option.ne_none_iff_exists'.mp hlinked
    rw [ho, ← h.linkAt_some _ o ho, hc.displaced]
  have hkept := h.kept 2 ⟨c, 0⟩ hdisplaced (hc.acc hg)
  obtain ⟨hpath, hcolor⟩ := hkept x (.single (feeds_of_linkAt hc.fed))
  have hne : x ≠ c := by
    rintro rfl
    exact absurd (hc.color.symm.trans hc.convert) (by simp)
  refine ⟨hcolor.trans hc.color, (hkept c .refl).2.trans hc.convert, hdisplaced, ?_,
    fun r o ho => hc.only r o (h.linkAt_some r o ho),
    fun y hy hk r o ho => hc.unused y hy (h.kind?_some y _ hk) r o (h.linkAt_some r o ho)⟩
  -- the path that is left begins with the only link of the colour
  obtain ⟨_, ⟨r, o, ho, hox, -⟩, -⟩ :=
    TransGen.head'_iff.mp ((reflTransGen_iff_eq_or_transGen.mp hpath).resolve_left hne.symm)
  have hl := h.linkAt_some r o ho
  obtain rfl := hc.only r o hl hox
  rw [ho, ← hl, hc.fed]

theorem literalAt_unsampled (out : NodeId → Bool) (r : InputRef) :
    (g.unsampled out).literalAt r = g.literalAt r := by
  unfold literalAt input? unsampled
  rw [node?_mapNodes]
  cases g.node? r.node <;> rfl

end Graph

namespace Edit

variable {g : Graph} {x c : NodeId} {B : Nat}

/-! ### Feeding the displacement again -/

theorem retains_connectNamed (source : NodeId) (output : String) (target : NodeId) (input : String) :
    (connectNamed source output target input).Relates (Retains B) :=
  (relates_ask _).bind fun _ => (relates_ask _).bind fun _ => retains_connect _ _

/-- The colour holds what the displacement holds, and the displacement keeps it. -/
theorem meets_restoreDisplacement_literalAt (hg : g.WellFormed) (hm : g.finalized = false) :
    restoreDisplacement.Meets g (fun _ g' =>
      g'.literalAt ⟨g.idBound, 0⟩ = g.literalAt ⟨outputId, 2⟩ ∧
        g'.literalAt ⟨outputId, 2⟩ = g.literalAt ⟨outputId, 2⟩) fun _ => True := by
  have hlt := g.lt_idBound_of_kind? hg.kind?_output
  refine meets_ask_node_bind (fun n hn => ?_) fun _ => trivial
  have hkind : n.kind = .output := by simpa [kind?, hn] using hg.kind?_output
  have hl : g.literalAt ⟨outputId, 2⟩ = some (.float3 (n.float3 "Displacement")) :=
    hg.literalAt_float3 (d := .triple "Displacement" .vector 0) hn (by rw [hkind]; rfl)
      (by rw [hkind]; rfl) rfl
  refine (Ends.meets (ends_addKind hm (Q := fun id g₁ =>
    id = g.idBound ∧ g₁ = g.push (.ofKind .color)) ⟨rfl, rfl⟩)).bind ?_
  rintro _ _ ⟨rfl, rfl⟩
  rw [discard_bind]
  refine (Ends.meets (ends_storeNamed (Q := fun _ g₂ => g₂ = (g.push (.ofKind .color)).modifyNode
    g.idBound (·.store "Value" (.float3 (n.float3 "Displacement")))) (g.kind?_push_self _)
      fun _ => rfl)).bind ?_
  rintro _ _ rfl
  refine ((retains_connectNamed (B := g.idBound + 1) _ _ _ _).discard _).mono (fun _ g' h => ?_)
    fun _ _ => trivial
  have hB : g.idBound + 1 ≤ ((g.push (.ofKind .color)).modifyNode g.idBound
      (·.store "Value" (.float3 (n.float3 "Displacement")))).idBound := by simp
  rw [h.literalAt_of_lt hB (Nat.lt_succ_self _), h.literalAt_of_lt hB (Nat.lt_succ_of_lt hlt), hl]
  refine ⟨?_, ?_⟩
  · unfold literalAt input?
    rw [node?_modifyNode, if_pos rfl, node?_push, if_pos rfl]
    rfl
  · rw [← hl]
    unfold literalAt input?
    rw [node?_modifyNode, if_neg (Nat.ne_of_lt hlt), node?_push, if_neg (Nat.ne_of_lt hlt)]

theorem ends_restoreDisplacement_literalAt (hg : g.WellFormed) (hm : g.finalized = false)
    (hl : g.linkAt ⟨outputId, 2⟩ = none) : restoreDisplacement.Ends g fun _ g' =>
      g.Redisplaces g' ∧ g'.literalAt ⟨g.idBound, 0⟩ = g.literalAt ⟨outputId, 2⟩ ∧
        g'.literalAt ⟨outputId, 2⟩ = g.literalAt ⟨outputId, 2⟩ :=
  ((ends_restoreDisplacement hg hm hl).and_meets (meets_restoreDisplacement_literalAt hg hm)).mono
    fun _ _ h => ⟨h.1.1, h.2⟩

/-! ### Adapting and merging -/

/-- Only the colour of the displacement ever becomes a candidate among the colours, and a node is no
candidate before it is handed out. -/
theorem ends_mergeAll_colorFed {g : Graph} {w : Worklist} {candidates : List NodeId}
    (hg : g.WellFormed) (hm : g.finalized = false) (hw : w.Within g)
    (hnodup : (w.queue ++ w.waiting).Nodup)
    (hapart : ∀ y ∈ candidates, y ∉ w.queue ++ w.waiting)
    (hcolor : ∀ y ∈ candidates, y ≠ x → ∃ k, g.kind? y = some k ∧ k ≠ .color)
    (hc : g.ColorFed x c) (merged : Nat) :
    (mergeAll w candidates merged).Ends g fun _ => ColorFed x c := by
  rw [mergeAll.eq_def]
  split
  · exact ends_pure hc
  · rename_i id w' hx
    have hsize := Worklist.size_next? hx
    obtain ⟨hid, hw'⟩ := hw.next hx
    obtain ⟨k, hk⟩ := (g.mem_ids_iff_kind?).mp hid
    rw [Worklist.queue_append_of_next? hx] at hnodup hapart
    rw [List.nodup_cons] at hnodup
    simp only [List.mem_cons, not_or] at hapart
    have hperm : ((w'.scheduleConsumers g id).queue ++ (w'.scheduleConsumers g id).waiting).Perm
        (w'.queue ++ w'.waiting) := (Worklist.moves_foldl_schedule g _ hnodup.2).1.perm
    have hnodup' := hperm.nodup_iff.mpr hnodup.2
    have hapart' : ∀ y ∈ candidates, y ∉ (w'.scheduleConsumers g id).queue ++
        (w'.scheduleConsumers g id).waiting := fun y hy => mt hperm.mem_iff.mp (hapart y hy).2
    refine ends_get_bind (meets_ask_node_bind (fun n hn => ?_) fun hnone => by simp [hnone] at hk)
    have hkn : g.kind? id = some n.kind := by simp [kind?, hn]
    split_ifs with hcons
    · have hused := (hg.isConsumed_iff hn).mp hcons
      split
      · rename_i twin htwin
        obtain ⟨hmem, hkt, hlinks⟩ := twin?_spec hn htwin
        refine Ends.bind (ends_mergeInto hg hm hkn hkt) fun _ g' h => ?_
        refine ends_mergeAll_colorFed h.grows.wellFormed (h.grows.finalized.trans hm)
          ((hw'.scheduleConsumers g id).mono fun _ => h.grows.ids_subset) hnodup' hapart'
          (fun y hy hyx => ?_) (h.colorFed hg (hapart twin hmem).1 hused hkn hkt hlinks
            (fun htx => ?_) hc) _
        · obtain ⟨k', hk', hne⟩ := hcolor y hy hyx
          exact ⟨k', h.grows.kind?_some hk', hne⟩
        · obtain ⟨k', hk', hne⟩ := hcolor twin hmem htx
          rwa [← Option.some.inj (hk'.symm.trans hkt)]
      · refine ends_mergeAll_colorFed hg hm (hw'.scheduleConsumers g id) hnodup' (fun y hy => ?_)
          (fun y hy hyx => ?_) hc _
        · rcases List.mem_append.mp hy with hy | hy
          · exact hapart' y hy
          · rw [List.mem_singleton.mp hy]
            exact mt hperm.mem_iff.mp hnodup.1
        · rcases List.mem_append.mp hy with hy | hy
          · exact hcolor y hy hyx
          · obtain rfl := List.mem_singleton.mp hy
            exact ⟨_, hkn, fun hcol => hused (hc.unused y hyx (hcol ▸ hkn))⟩
    · exact ends_mergeAll_colorFed hg hm hw' hnodup.2 (fun y hy => (hapart y hy).2) hcolor hc _
termination_by w.size
decreasing_by
  all_goals
    try rw [Worklist.size_scheduleConsumers]
    omega

/-- What follows folding when a graph is tidied keeps the colour of the displacement. -/
theorem ends_adapt_merge_colorFed (hg : g.WellFormed) (hm : g.finalized = false) (scene : Scene)
    (hc : g.ColorFed x c) : (do
      (← get).ids.forM (adaptToScene scene)
      discard mergeDuplicates : Edit Unit).Ends g fun _ g' =>
        g'.ColorFed x c ∧ Retains g.idBound g g' := by
  refine Ends.and_retains ?_ (relates_get_bind fun _ => Relates.bind
    (.forM fun id => relates_adaptToScene retains_disconnectIfLinked scene id) fun _ =>
      Relates.discard (relates_get_bind fun _ => relates_mergeAll retains_mergeInto _ _ _))
  refine ends_get_bind (Ends.bind (ends_forM_mem (I := fun g' => g.Grows g' ∧ g'.ColorFed x c)
    ⟨.refl hg, hc⟩ fun id hid g' h => ?_) fun _ g₁ h₁ => ?_)
  · obtain ⟨h, hc'⟩ := h
    obtain ⟨k, hk⟩ := (g'.mem_ids_iff_kind?).mp (h.ids_subset hid)
    exact (ends_adaptToScene_trims h.wellFormed (h.finalized.trans hm) hk scene).mono
      fun _ _ h' => ⟨h.trans h'.grows, h'.colorFed h.wellFormed hc'⟩
  · exact ends_discard (ends_get_bind (ends_mergeAll_colorFed h₁.1.wellFormed
      (h₁.1.finalized.trans hm) (Worklist.within_ofGraph g₁) (Worklist.sound_ofGraph g₁).nodup
      (by simp) (by simp) h₁.2 0))

/-! ### Pruning -/

theorem keepsLiterals_verifyVolume : verifyVolume.Relates KeepsLiterals := by
  refine (relates_ask _).bind fun volume => (relates_ask _).bind fun link => ?_
  split
  · exact relates_pure _
  · refine relates_get_bind fun g => Relates.bind (relates_modify fun g' r => Or.inr ?_) fun _ => ?_
    · rw [foldl_forbidStochastic, literalAt_unsampled]
    · split_ifs
      · exact (keepsLiterals_disconnectInput _).bind fun _ => keepsLiterals_report _
      · exact relates_pure _

theorem keepsLiterals_prune : prune.Relates KeepsLiterals := by
  refine keepsLiterals_verifyVolume.bind fun _ => ?_
  refine (relates_breakCycles fun t => (relates_ask _).bind fun _ =>
    (keepsLiterals_disconnectInput t).bind fun _ => keepsLiterals_report _).bind fun reachable => ?_
  refine Relates.bind (Relates.discard (relates_get_bind fun g =>
    (keepsLiterals_removeNodes _).bind fun _ => relates_pure _)) fun _ => relates_get_bind fun g => ?_
  split_ifs
  · exact relates_throw _
  · exact relates_pure _

/-! ### Cleaning -/

theorem ends_tidy_colorFed (hg : g.WellFormed) (hm : g.finalized = false) (scene : Scene)
    {g₁ : Graph} (hrun : (foldAll (.ofGraph g)).run g = .ok () g₁)
    (hl : g.linkAt ⟨outputId, 2⟩ ≠ none) (hn : g₁.linkAt ⟨outputId, 2⟩ = none) :
    (tidy scene).Ends g fun _ g' => g'.ColorFed g₁.idBound (g₁.idBound + 1) ∧
      g'.literalAt ⟨g₁.idBound, 0⟩ = g₁.literalAt ⟨outputId, 2⟩ ∧
      g'.literalAt ⟨outputId, 2⟩ = g₁.literalAt ⟨outputId, 2⟩ := by
  have hev : ∀ y ∈ g.ids, g₁.Evaluated y := (ends_foldAll_evaluated hg hm
    (Worklist.within_ofGraph g) (Worklist.sound_ofGraph g) (Worklist.ordered_ofGraph g)
    (Nat.le_refl _) fun _ hy => absurd hy List.not_mem_nil).of_run hrun
  have hfold : (foldAll (.ofGraph g)).Ends g fun _ g' => g' = g₁ := ends_iff.mpr ⟨(), g₁, hrun, rfl⟩
  refine Ends.bind (ends_propagateConstants_of hg hm hfold fun _ =>
    ends_restoreDisplacement_literalAt) ?_
  rintro _ g₂ ⟨_, rfl, h₁, h⟩
  rw [if_pos ⟨hl, hn⟩] at h
  obtain ⟨h₂, hcolor, hdisplaced⟩ := h
  have hg₁ := h₁.evolves.wellFormed
  have hg₂ := h₂.evolves.wellFormed
  have hc := h₂.colorFed hg₁ (h₁.evaluated hg hev)
  refine (ends_adapt_merge_colorFed hg₂ (h₂.evolves.finalized.trans (h₁.evolves.finalized.trans hm))
    scene hc).mono fun _ g' h => ⟨h.1, ?_, ?_⟩
  · exact (h.2.literalAt_of_lt (Nat.le_refl _) (g₂.lt_idBound_of_kind? hc.color)).trans hcolor
  · exact (h.2.literalAt_of_lt (Nat.le_refl _) (g₂.lt_idBound_of_kind? hg₂.kind?_output)).trans
      hdisplaced

/-- **Cleaning keeps the value of a displacement.** The displacement is linked afterwards if and only
if it was linked before. If folding has cut its link, then folding has stored a literal in it. In the
end it is fed by a new colour with that literal, through an automatic conversion, and it holds the
literal itself. -/
theorem clean_keeps_displacement (g : Graph) (hg : g.WellFormed) (hm : g.finalized = false)
    (scene : Scene) :
    ∃ g₁ g', (foldAll (.ofGraph g)).run g = .ok () g₁ ∧ (clean scene).run g = .ok () g' ∧
      (g'.linkAt ⟨outputId, 2⟩ ≠ none ↔ g.linkAt ⟨outputId, 2⟩ ≠ none) ∧
      (g.linkAt ⟨outputId, 2⟩ ≠ none → g₁.linkAt ⟨outputId, 2⟩ = none →
        ∃ l w, FoldState.Pushes ⟨outputId, 2⟩ l ⟨[], .ofGraph g, g⟩ ⟨[], w, g₁⟩ ∧
          g₁.literalAt ⟨outputId, 2⟩ = some l ∧
          g'.linkAt ⟨outputId, 2⟩ = some ⟨g₁.idBound + 1, 0⟩ ∧
          g'.kind? (g₁.idBound + 1) = some (.convert .color .vector true) ∧
          g'.linkAt ⟨g₁.idBound + 1, 0⟩ = some ⟨g₁.idBound, 0⟩ ∧
          g'.kind? g₁.idBound = some .color ∧
          g'.literalAt ⟨g₁.idBound, 0⟩ = some l ∧ g'.literalAt ⟨outputId, 2⟩ = some l) := by
  have hfolds := ends_foldAll hg hm (Worklist.within_ofGraph g)
  obtain ⟨_, g₁, hfold, -⟩ := ends_iff.mp hfolds
  obtain ⟨_, b, htidy, hb, hdisp, -⟩ := ends_iff.mp
    (ends_tidy (P := fun _ => True) hg hm scene (hfolds.mono fun _ _ _ => trivial))
  have hclean : (clean scene).Ends g fun _ g' => b.Prunes g' ∧ b.KeepsLiterals g' := by
    rw [clean_eq]
    refine Ends.bind (P := fun _ b' => b' = b) (ends_iff.mpr ⟨(), b, htidy, rfl⟩) ?_
    rintro _ _ rfl
    exact (ends_prune hb.wellFormed (hb.finalized.trans hm)).and_meets (keepsLiterals_prune _)
  obtain ⟨_, g', hrun, hprunes, hkeeps⟩ := ends_iff.mp hclean
  have hout : g'.linkAt ⟨outputId, 2⟩ = none ↔ b.linkAt ⟨outputId, 2⟩ = none := by
    simpa using hprunes.linkAt_output 2
  refine ⟨g₁, g', hfold, hrun, (hout.trans hdisp).not, fun hl hn => ?_⟩
  obtain ⟨w, hsteps, -⟩ := (meets_foldAll_steps _).of_run hfold
  obtain ⟨l, hpush, hliteral⟩ := FoldState.exists_pushes hsteps
    ⟨hg, hm, fun _ ho => absurd ho List.not_mem_nil⟩ hl hn
  obtain ⟨hc, hcolor, hdisplaced⟩ :=
    (ends_tidy_colorFed hg hm scene hfold hl hn).of_run htidy
  have hg' := hprunes.wellFormed
  have hc' := hprunes.colorFed hb.wellFormed hc
  refine ⟨l, w, hpush, hliteral, hc'.displaced, hc'.convert, hc'.fed, hc'.color, ?_, ?_⟩
  · rw [hkeeps.literalAt_eq (hg'.inputDecl?_eq hc'.color 0), hcolor, hliteral]
  · rw [hkeeps.literalAt_eq (hg'.inputDecl?_eq hg'.kind?_output 2), hdisplaced, hliteral]

/-- The value and the sum are folded, and a half is left in each component. -/
theorem ends_foldAll_summed :
    (foldAll (.ofGraph summedDisplacement)).Ends summedDisplacement fun _ g₁ =>
      g₁.idBound = 4 ∧ g₁.linkAt ⟨outputId, 2⟩ = none ∧
        (g₁.literalAt ⟨outputId, 2⟩).map Literal.bytes =
          some (Literal.float3 (.splat 0.5)).bytes := by
  decide +kernel

theorem clean_keeps_displacement_summed :
    summedDisplacement.WellFormed ∧ summedDisplacement.linkAt ⟨outputId, 2⟩ = some ⟨3, 0⟩ ∧
      ∃ g', (clean Scene.empty).run summedDisplacement = .ok () g' ∧
        g'.linkAt ⟨outputId, 2⟩ = some ⟨5, 0⟩ ∧ g'.linkAt ⟨5, 0⟩ = some ⟨4, 0⟩ ∧
        g'.kind? 4 = some .color ∧
        (g'.literalAt ⟨4, 0⟩).map Literal.bytes = some (Literal.float3 (.splat 0.5)).bytes := by
  have hg : summedDisplacement.WellFormed :=
    (Primitive.follows_runAll wellFormed_empty _).wellFormed
  have hlink : summedDisplacement.linkAt ⟨outputId, 2⟩ = some ⟨3, 0⟩ := by decide +kernel
  obtain ⟨g₁, g', hfold, hrun, -, hlost⟩ :=
    clean_keeps_displacement summedDisplacement hg (by decide) Scene.empty
  obtain ⟨hbound, hnone, hbytes⟩ := ends_foldAll_summed.of_run hfold
  obtain ⟨l, -, -, hl, hdisplaced, -, hfed, hcolor, hl', -⟩ := hlost (by simp [hlink]) hnone
  rw [hbound] at hdisplaced hfed hcolor hl'
  exact ⟨hg, hlink, g', hrun, hdisplaced, hfed, hcolor, by rw [hl', ← hl, hbytes]⟩

end Edit

end Shading
