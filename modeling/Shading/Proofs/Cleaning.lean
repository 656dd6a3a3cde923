import Shading.Compile
import Shading.Proofs.Cutting
import Shading.Proofs.CycleSearch
import Shading.Proofs.Folding
import Shading.Proofs.Merging
import Shading.Proofs.Primitive
import Shading.Proofs.Reachability

/-!
# Cleaning

A graph is cleaned in two stages. First it is tidied: constants are folded, AOV outputs are adapted
to the scene, and duplicates are merged. Then it is pruned: a volume output without a volume is
unlinked, cycles are broken, and only the nodes that lead to an output are left. None of this fails
on a well-formed graph.

Pruning takes nothing away from behind an input of the output node if no cycle leads there
(`Graph.Prunes.kept`). -/

namespace Shading

open Shading.Graph Relation

namespace Graph

variable {g g' : Graph}

theorem WellFormed.unused_outputId (hg : g.WellFormed) : g.Unused outputId :=
  fun _ _ ho h0 => hg.ne_outputId_of_feeds (feeds_of_linkAt ho) h0

/-- A node that can be part of a volume leads to the volume output. -/
def HasVolume (g : Graph) : Prop :=
  ∃ o, g.linkAt ⟨outputId, 1⟩ = some o ∧
    ∃ id, g.supportsVolume id = true ∧ ReflTransGen g.Feeds id o.node

/-- The graph in which some nodes are taken out of stochastic sampling. -/
def unsampled (g : Graph) (out : NodeId → Bool) : Graph :=
  g.mapNodes fun id n => { n with stochastic := n.stochastic && !out id }

/-- `g'` is what comes of verifying the volume output of `g`, which is linked to `s`. The nodes `out`
are taken out of stochastic sampling. -/
structure VerifiesVolume (s : OutputRef) (out : NodeId → Bool) (g g' : Graph) : Prop where
  out_iff : ∀ id, out id = true ↔ g.BehindNonlinear s.node id
  kept : g.HasVolume → g' = g.unsampled out
  cut : ¬ g.HasVolume →
    g' = ((g.unsampled out).unlink s ⟨outputId, 1⟩).report .volumeDisconnected

theorem supportsVolume_iff {id : NodeId} :
    g.supportsVolume id = true ↔ ∃ k, g.kind? id = some k ∧ k.supportsVolume = true := by
  unfold supportsVolume kind?
  cases g.node? id <;> simp

namespace Supplies

variable {t : InputRef} (h : g.Supplies t g')
include h

theorem unused {x : NodeId} (hx : g.Unused x) (hlt : x < g.idBound) : g'.Unused x := by
  intro r o ho hox
  rcases h.fresh r o ho with hl | hle
  · exact hx r o hl hox
  · exact Nat.not_lt.mpr hle (hox ▸ hlt)

/-- Nothing new leads to another node than that of the input. -/
theorem acc (hg : g.WellFormed) (ht : g.Unused t.node) {x : NodeId} (hx : x ≠ t.node)
    (hlt : x < g.idBound) (hacc : Acc g.Feeds x) : Acc g'.Feeds x := by
  induction hacc with
  | intro x _ ih =>
    refine ⟨x, ?_⟩
    rintro _ ⟨r, o, ho, rfl, rfl⟩
    rw [h.evolves.linkAt_eq r hlt fun hr => hx (congrArg InputRef.node hr)] at ho
    exact ih o.node (feeds_of_linkAt ho) (ht r o ho) (hg.source_lt ho)

end Supplies

/-- Some inputs of AOV outputs are unlinked. -/
def TrimsAovs (g g' : Graph) : Prop :=
  ∃ T, g.Trims T g' ∧ ∀ r, T r → ∃ name, g.kind? r.node = some (.aovOutput name)

namespace TrimsAovs

theorem refl (hg : g.WellFormed) : g.TrimsAovs g :=
  ⟨fun _ => False, .refl hg fun _ => False.elim, fun _ => False.elim⟩

theorem grows (h : g.TrimsAovs g') : g.Grows g' := by
  obtain ⟨T, h, -⟩ := h
  exact h.evolves.grows

theorem cut {g₁ : Graph} {t : InputRef} {name : String} (h : g.TrimsAovs g₁)
    (h' : g₁.Trims (· = t) g') (hk : g.kind? t.node = some (.aovOutput name)) : g.TrimsAovs g' := by
  obtain ⟨T, h, hT⟩ := h
  refine ⟨_, h.trans h', fun r hr => ?_⟩
  rcases hr with hr | rfl
  · exact hT r hr
  · exact ⟨name, hk⟩

theorem tidies {U : NodeId → Prop} (h : g.TrimsAovs g') (hg : g.WellFormed) : g.Tidies U g' := by
  obtain ⟨T, h, hT⟩ := h
  refine h.tidies fun r hr h0 => ?_
  obtain ⟨name, hk⟩ := hT r hr
  rw [h0, hg.kind?_output] at hk
  cases hk

end TrimsAovs

/-- `g'` is what is left of `g` when the volume output is unlinked if there is no volume, cycles are
broken, and only the nodes that lead to an output stay. -/
structure Prunes (g g' : Graph) : Prop where
  wellFormed : g'.WellFormed
  finalized : g'.finalized = g.finalized
  idBound_eq : g'.idBound = g.idBound
  acyclic : g'.Acyclic
  kind?_some : ∀ id k, g'.kind? id = some k → g.kind? id = some k
  linkAt_some : ∀ r o, g'.linkAt r = some o → g.linkAt r = some o
  leads : ∀ id ∈ g'.ids, g'.Leads id
  outputs : ∀ id, g.IsOutput id → g'.kind? id = g.kind? id
  linkAt_output : ∀ slot, g'.linkAt ⟨outputId, slot⟩ = none ↔
    g.linkAt ⟨outputId, slot⟩ = none ∨ slot = 1 ∧ ¬ g.HasVolume
  /-- What no cycle leads to stays as it is. -/
  kept : ∀ slot o, g'.linkAt ⟨outputId, slot⟩ = some o → Acc g.Feeds o.node →
    ∀ x, ReflTransGen g.Feeds x o.node → ReflTransGen g'.Feeds x o.node ∧ g'.kind? x = g.kind? x

theorem Prunes.kind?_eq (h : g.Prunes g') {x : NodeId} (hx : g'.kind? x ≠ none) :
    g'.kind? x = g.kind? x := by
  obtain ⟨k, hk⟩ := Option.ne_none_iff_exists'.mp hx
  rw [hk, h.kind?_some x k hk]

/-- A node that feeds nothing does not stay unless it is an output. -/
theorem Prunes.kind?_of_unused (h : g.Prunes g') {x : NodeId} (hx : g.Unused x)
    (hout : ¬ g.IsOutput x) : g'.kind? x = none := by
  by_contra hn
  obtain ⟨k, hk⟩ := Option.ne_none_iff_exists'.mp hn
  obtain ⟨root, hroot, hp⟩ := h.leads x ((g'.mem_ids_iff_kind?).mpr ⟨k, hk⟩)
  rcases reflTransGen_iff_eq_or_transGen.mp hp with rfl | hp
  · exact hout (hroot.imp_right fun ⟨name, hname⟩ => ⟨name, h.kind?_some _ _ hname⟩)
  · obtain ⟨_, ⟨r, o, ho, hxo, -⟩, -⟩ := TransGen.head'_iff.mp hp
    exact hx r o (h.linkAt_some r o ho) hxo

/-- No link of the output node is part of a cycle, since it feeds nothing. -/
theorem Cyclic.ne_outputId (hg : g.WellFormed) {r : InputRef} (h : g.Cyclic r) :
    r.node ≠ outputId := by
  obtain ⟨o, ho, hp⟩ := h
  rcases reflTransGen_iff_eq_or_transGen.mp hp with heq | hp
  · exact heq ▸ hg.ne_outputId_of_feeds (feeds_of_linkAt ho)
  · obtain ⟨_, hab, -⟩ := TransGen.head'_iff.mp hp
    exact hg.ne_outputId_of_feeds hab

/-- A path to a node that no cycle leads to is not cut when cycles are. -/
theorem Trims.reflTransGen {T : InputRef → Prop} (h : g.Trims T g') {a b : NodeId}
    (hb : Acc g.Feeds b) (hT : ∀ r, ReflTransGen g.Feeds r.node b → T r → g.Cyclic r)
    (hab : ReflTransGen g.Feeds a b) : ReflTransGen g'.Feeds a b := by
  induction hab using ReflTransGen.head_induction_on with
  | refl => rfl
  | head hac hcb ih =>
    refine .head ?_ ih
    obtain ⟨r, o, hl, rfl, rfl⟩ := hac
    refine ⟨r, o, (h.kept r fun hr => ?_).trans hl, rfl, rfl⟩
    refine (hT r hcb hr).not_acc ?_
    rcases reflTransGen_iff_eq_or_transGen.mp hcb with heq | hcb
    · exact heq ▸ hb
    · exact hb.inv_of_transGen hcb

/-- Pruning is made of cuts and of clearing. -/
theorem Clears.prunes {g₁ : Graph} {T : InputRef → Prop} (h : g₁.Clears g') (hg : g.WellFormed)
    (hac : g'.Acyclic) (h₁ : g.Trims T g₁)
    (hT : ∀ r, T r → r = ⟨outputId, 1⟩ ∧ ¬ g.HasVolume ∨ g.Cyclic r)
    (hvol : ¬ g.HasVolume → T ⟨outputId, 1⟩) : g.Prunes g' := by
  have hout : g₁.Leads outputId := IsOutput.leads (Or.inl rfl)
  have hlink : ∀ slot, g'.linkAt ⟨outputId, slot⟩ = g₁.linkAt ⟨outputId, slot⟩ :=
    fun slot => h.linkAt_of_leads hout
  refine ⟨h.wellFormed, h.finalized.trans h₁.finalized, h.idBound_eq.trans h₁.idBound_eq, hac,
    fun id k hk => ?_, fun r o ho => ?_, fun id => h.leads, fun id hid => ?_, fun slot => ?_,
    fun slot o ho hacc x hx => ?_⟩
  · rw [← h₁.kind?_eq]
    exact ((h.kind?_iff id k).mp hk).1
  · exact (h₁.linkAt_some ((h.linkAt_iff r o).mp ho).1).1
  · rw [h.kind?_of_leads (IsOutput.leads (h₁.isOutput_iff.mpr hid)), h₁.kind?_eq]
  · rw [hlink]
    by_cases hr : T ⟨outputId, slot⟩
    · have hcut : slot = 1 ∧ ¬ g.HasVolume := by
        rcases hT _ hr with ⟨heq, hn⟩ | hcyc
        · exact ⟨congrArg InputRef.slot heq, hn⟩
        · exact absurd rfl (hcyc.ne_outputId hg)
      exact iff_of_true (h₁.cut _ hr) (Or.inr hcut)
    · rw [h₁.kept _ hr, or_iff_left]
      rintro ⟨rfl, hn⟩
      exact hr (hvol hn)
  · rw [hlink] at ho
    have hx₁ : ReflTransGen g₁.Feeds x o.node := by
      refine h₁.reflTransGen hacc (fun r hr hTr => (hT r hTr).resolve_left fun hv => ?_) hx
      -- no path leads on from the output
      rw [hv.1] at hr
      have h0 : o.node ≠ outputId := h₁.wellFormed.ne_outputId_of_feeds (feeds_of_linkAt ho)
      rcases reflTransGen_iff_eq_or_transGen.mp hr with heq | hr
      · exact h0 heq
      · obtain ⟨_, hab, -⟩ := TransGen.head'_iff.mp hr
        exact hg.ne_outputId_of_feeds hab rfl
    have hleads : g₁.Leads o.node := hout.of_reflTransGen (.single (feeds_of_linkAt ho))
    refine ⟨h.reflTransGen hleads hx₁, ?_⟩
    rw [h.kind?_of_leads (hleads.of_reflTransGen hx₁), h₁.kind?_eq]

end Graph

namespace Edit

variable {g : Graph} {id : NodeId} {k : NodeKind}

/-- Folds, adapts and merges. -/
def tidy (scene : Scene) : Edit Unit := do
  propagateConstants
  (← get).ids.forM (adaptToScene scene)
  discard mergeDuplicates

/-- Cuts a graph down to what its outputs depend on. -/
def prune : Edit Unit := do
  verifyVolume
  let reachable ← breakCycles
  discard <| removeUnreachable reachable
  if !(← get).isAcyclic then throw .cycleSurvived

theorem clean_eq (scene : Scene) : clean scene = (do tidy scene; prune) := by
  simp only [clean, tidy, prune, bind_assoc]

/-! ### Render passes -/

theorem ends_adaptToScene_trims (hg : g.WellFormed) (hm : g.finalized = false)
    (hk : g.kind? id = some k) (scene : Scene) :
    (adaptToScene scene id).Ends g fun _ => g.TrimsAovs := by
  refine meets_ask_node_bind (fun n hn => ?_) fun hnone => by simp [hnone] at hk
  have hkn : g.kind? id = some n.kind := by simp [kind?, hn]
  split
  · rename_i name hkind
    rw [hkind] at hkn
    have hcut : ∀ g', g.TrimsAovs g' → ∀ slot : Fin 2,
        (disconnectIfLinked ⟨id, slot⟩).Ends g' fun _ => g.TrimsAovs := by
      intro g' h slot
      have hg' := h.grows.wellFormed
      have hd := hg'.inputDecl?_eq (h.grows.kind?_some hkn) slot
      have hlt : slot.val < (NodeKind.aovOutput name).inputDecls.length := slot.isLt
      rw [List.getElem?_eq_getElem hlt] at hd
      exact (ends_disconnectIfLinked hg' (h.grows.finalized.trans hm) hd).mono fun _ _ h' =>
        h.cut h' hkn
    have hcolor : ∀ g', g.TrimsAovs g' → (if scene.aov? name ≠ some AovKind.color then
        (do disconnectIfLinked (← ask (·.inputRef id "Color"))) else pure ()).Ends g'
          fun _ => g.TrimsAovs := by
      intro g' h
      split_ifs
      · refine ends_ask_bind (h.grows.wellFormed.inputRef_eq (h.grows.kind?_some hkn) (i := 0) rfl) ?_
        exact hcut g' h 0
      · exact ends_pure h
    dsimp only
    split
    · refine ends_ask_bind (hg.inputRef_eq hkn (i := 1) rfl) ?_
      exact Ends.bind (hcut g (.refl hg) 1) fun _ g' h => hcolor g' h
    · exact hcolor g (.refl hg)
  · exact ends_pure (.refl hg)

theorem ends_adaptToScene {U : NodeId → Prop} (hg : g.WellFormed) (hm : g.finalized = false)
    (hk : g.kind? id = some k) (scene : Scene) :
    (adaptToScene scene id).Ends g fun _ => g.Tidies U :=
  (ends_adaptToScene_trims hg hm hk scene).mono fun _ _ h => h.tidies hg

/-! ### Volumes -/

theorem trims_unsampled (hg : g.WellFormed) (out : NodeId → Bool) :
    g.Trims (fun _ => False) (g.unsampled out) :=
  trims_mapNodes (fun _ _ => ⟨rfl, rfl, rfl⟩) hg

theorem unsampled_forbidStochastic (out : NodeId → Bool) (id : NodeId) :
    (g.forbidStochastic id).unsampled out = g.unsampled fun j => id == j || out j := by
  refine eq_of_node? (by simp [unsampled, forbidStochastic]) (fun j => ?_) rfl rfl rfl
  simp only [unsampled, forbidStochastic, node?_mapNodes, node?_modifyNode]
  by_cases hj : j = id
  · subst hj
    cases g.node? j <;> simp
  · have hne : (id == j) = false := beq_false_of_ne fun h => hj h.symm
    simp [hj, hne]

theorem foldl_forbidStochastic (reached : List Reached) :
    reached.foldl (fun g r => g.forbidStochastic r.1) g =
      g.unsampled fun id => reached.any (·.1 == id) := by
  induction reached generalizing g with
  | nil => exact (mapNodes_eq_self fun _ _ => by simp).symm
  | cons r reached ih =>
    rw [List.foldl_cons, ih, unsampled_forbidStochastic]
    simp only [List.any_cons]

theorem any_supportsVolume_iff (hg : g.WellFormed) {s : OutputRef}
    (hs : g.linkAt ⟨outputId, 1⟩ = some s) :
    ((g.volumeWalk s.node).any fun r => g.supportsVolume r.1) = true ↔ g.HasVolume := by
  have hroot := (hg.mem_ids_of_feeds (feeds_of_linkAt hs)).1
  rw [List.any_eq_true]
  constructor
  · rintro ⟨⟨id, linear⟩, hr, hsup⟩
    exact ⟨s, hs, id, hsup, (hg.mem_volumeWalk hroot).mp ⟨linear, hr⟩⟩
  · rintro ⟨o, ho, id, hsup, hp⟩
    obtain rfl : s = o := Option.some.inj (hs.symm.trans ho)
    obtain ⟨linear, hr⟩ := (hg.mem_volumeWalk hroot).mpr hp
    exact ⟨_, hr, hsup⟩

/-- **Verifying a volume.** Nothing happens if the volume output is not linked. -/
theorem ends_verifyVolume_cases (hg : g.WellFormed) (hm : g.finalized = false) :
    verifyVolume.Ends g fun _ g' => g.linkAt ⟨outputId, 1⟩ = none ∧ g' = g ∨
      ∃ s out, g.linkAt ⟨outputId, 1⟩ = some s ∧ g.VerifiesVolume s out g' := by
  refine ends_ask_bind (hg.inputRef_eq hg.kind?_output (i := 1) rfl) ?_
  have hd := hg.inputDecl?_eq hg.kind?_output 1
  refine ends_ask_bind ((g.linkOf_eq_ok).mpr ⟨by simp [hd, NodeKind.inputDecls], rfl⟩) ?_
  split
  · rename_i hnone
    exact ends_pure (Or.inl ⟨hnone, rfl⟩)
  · rename_i s hs
    refine ends_get_bind (ends_modify_bind ?_)
    have hroot := (hg.mem_ids_of_feeds (feeds_of_linkAt hs)).1
    rw [foldl_forbidStochastic]
    generalize hout : (fun id => ((g.volumeWalk s.node).filter (!·.2)).any (·.1 == id)) = out
    have h := trims_unsampled hg out
    have hiff : ∀ id, out id = true ↔ g.BehindNonlinear s.node id := by
      intro id
      rw [← hout, ← hg.mem_volumeWalk_false hroot]
      simp
    split_ifs with hany
    · have hn : ¬ g.HasVolume := fun hv => by simp [(any_supportsVolume_iff hg hs).mpr hv] at hany
      refine Ends.bind (ends_disconnectInput_unlink (h.finalized.trans hm)
        ((h.kept ⟨outputId, 1⟩ id).trans hs)) fun _ g' hg' => ends_modify ?_
      refine Or.inr ⟨s, out, hs, hiff, fun hv => absurd hv hn, fun _ => ?_⟩
      rw [hg']
    · rw [Bool.not_eq_true', Bool.not_eq_false, any_supportsVolume_iff hg hs] at hany
      exact ends_pure (Or.inr ⟨s, out, hs, hiff, fun _ => rfl, fun hn => absurd hany hn⟩)

/-- The volume output is unlinked if there is no volume. -/
theorem ends_verifyVolume (hg : g.WellFormed) (hm : g.finalized = false) :
    verifyVolume.Ends g fun _ => g.Trims fun r => r = ⟨outputId, 1⟩ ∧ ¬ g.HasVolume := by
  refine (ends_verifyVolume_cases hg hm).mono ?_
  rintro _ g' (⟨hnone, rfl⟩ | ⟨s, out, hs, h⟩)
  · exact .refl hg fun r hr => hr.1 ▸ hnone
  · have htrims := trims_unsampled hg out
    by_cases hv : g.HasVolume
    · rw [h.kept hv]
      exact htrims.congr fun r _ _ => by simp [hv]
    · rw [h.cut hv]
      have hcut := trims_unlink htrims.wellFormed ((htrims.kept _ id).trans hs)
      exact ((htrims.trans hcut).congr fun r _ _ => by simp [hv]).report _

/-! ### The two stages -/

/-- The steps of tidying. `P` is what is known of the graph after folding. -/
theorem ends_tidy_steps {P : Graph → Prop} (hg : g.WellFormed) (hm : g.finalized = false)
    (scene : Scene) (hP : (foldAll (.ofGraph g)).Ends g fun _ => P) :
    (tidy scene).Ends g fun _ g' => ∃ g₁ g₂, P g₁ ∧ g.Shortens (fun _ => True) True g₁ ∧
      (g₂ = g₁ ∨ g₁.Supplies ⟨outputId, 2⟩ g₂) ∧
      (g₂.linkAt ⟨outputId, 2⟩ = none ↔ g.linkAt ⟨outputId, 2⟩ = none) ∧
      g₂.Tidies (fun _ => True) g' := by
  refine Ends.bind (ends_propagateConstants hg hm hP) ?_
  rintro _ g₂ ⟨g₁, hP₁, h₁, hsup, hdisp⟩
  replace hsup := hsup.imp_right Redisplaces.supplies
  have h₁₂ : g.Grows g₂ := by
    rcases hsup with rfl | h₂
    · exact h₁.evolves.grows
    · exact h₁.evolves.grows.trans h₂.evolves.grows
  have hm₂ := h₁₂.finalized.trans hm
  refine ends_get_bind (Ends.bind (ends_forM_mem (I := g₂.Tidies fun _ => True)
    (.refl h₁₂.wellFormed) fun id hid g' h => ?_) fun _ g₃ h₃ => ?_)
  · obtain ⟨k, hk⟩ := (g'.mem_ids_iff_kind?).mp (h.grows.ids_subset hid)
    exact (ends_adaptToScene h.grows.wellFormed (h.grows.finalized.trans hm₂) hk scene).mono
      fun _ _ h' => h.trans h'
  · refine ends_discard (ends_get_bind ((ends_mergeAll h₃.grows.wellFormed
      (h₃.grows.finalized.trans hm₂) (Worklist.within_ofGraph g₃) [] 0).mono fun _ g₄ h₄ => ?_))
    exact ⟨g₁, g₂, hP₁, h₁, hsup, hdisp, h₃.trans (h₄.mono fun _ _ _ => List.not_mem_nil)⟩

/-- **Tidying.** -/
theorem ends_tidy {P : Graph → Prop} (hg : g.WellFormed) (hm : g.finalized = false) (scene : Scene)
    (hP : (foldAll (.ofGraph g)).Ends g fun _ => P) :
    (tidy scene).Ends g fun _ g' => g.Grows g' ∧
      (g'.linkAt ⟨outputId, 2⟩ = none ↔ g.linkAt ⟨outputId, 2⟩ = none) ∧
      (∀ slot, slot ≠ 2 → (∀ o, g.linkAt ⟨outputId, slot⟩ = some o → Acc g.Feeds o.node) →
        ∀ o, g'.linkAt ⟨outputId, slot⟩ = some o → Acc g'.Feeds o.node) ∧
      ∃ g₁, P g₁ ∧ ∀ x, x < g₁.idBound → g₁.Unused x → g'.Unused x := by
  refine (ends_tidy_steps hg hm scene hP).mono ?_
  rintro _ g' ⟨g₁, g₂, hP₁, h₁, hsup, hdisp, h⟩
  have h₁₂ : g.Grows g₂ := by
    rcases hsup with rfl | h₂
    · exact h₁.evolves.grows
    · exact h₁.evolves.grows.trans h₂.evolves.grows
  refine ⟨h₁₂.trans h.grows, (h.linked_iff 2).trans hdisp, fun slot hslot hacc => h.acc slot ?_,
    g₁, hP₁, fun x hlt hx => h.unused x trivial ?_⟩
  · intro o ho
    rcases hsup with rfl | h₂
    · exact h₁.acc_source hacc ho
    · have hg₁ := h₁.evolves.wellFormed
      rw [h₂.evolves.linkAt_eq _ (g₁.lt_idBound_of_kind? hg₁.kind?_output)
        (by simpa using hslot)] at ho
      exact h₂.acc hg₁ hg₁.unused_outputId (hg₁.ne_outputId_of_feeds (feeds_of_linkAt ho))
        (hg₁.source_lt ho) (h₁.acc_source hacc ho)
  · rcases hsup with rfl | h₂
    · exact hx
    · exact h₂.unused hx hlt

/-- Pruning cuts links, namely that of a volume output without a volume and those that are part of a
cycle, and then takes away what does not lead to an output. -/
theorem ends_prune_clears (hg : g.WellFormed) (hm : g.finalized = false) :
    prune.Ends g fun _ g' => g'.Acyclic ∧ ∃ T g₁, g.Trims T g₁ ∧
      (∀ r, T r → r = ⟨outputId, 1⟩ ∧ ¬ g.HasVolume ∨ g.Cyclic r) ∧
      (¬ g.HasVolume → T ⟨outputId, 1⟩) ∧ g₁.Clears g' := by
  refine Ends.bind (ends_verifyVolume hg hm) fun _ g₁ h₁ => ?_
  have hm₁ := h₁.finalized.trans hm
  refine Ends.bind (ends_breakCycles h₁.wellFormed hm₁) ?_
  rintro visited g₂ ⟨cut, _, done, hcuts, hcloses, hs, -, hv, hout, hreach⟩
  have h₂ := hcuts.trims
  rw [discard_bind]
  refine Ends.bind (ends_removeUnreachable h₂.wellFormed (h₂.finalized.trans hm₁) hs hv
    (fun id hid => hout id (h₂.isOutput_iff.mp hid)) hreach) ?_
  rintro _ g₃ ⟨hac, h₃⟩
  refine ends_get_bind ?_
  rw [h₃.wellFormed.isAcyclic_of_acyclic hac]
  refine ends_pure ⟨hac, _, g₂, h₁.trans h₂, fun r hr => hr.imp_right fun hr => ?_,
    fun hn => Or.inl ⟨rfl, hn⟩, h₃⟩
  obtain ⟨o, ho, hp⟩ := (hcloses r hr).cyclic
  refine ⟨o, (h₁.linkAt_some ho).1, hp.lift (fun id => id) ?_⟩
  rintro a b ⟨r, o, ho, ha, hb⟩
  exact ⟨r, o, (h₁.linkAt_some ho).1, ha, hb⟩

/-- **Pruning.** -/
theorem ends_prune (hg : g.WellFormed) (hm : g.finalized = false) :
    prune.Ends g fun _ => g.Prunes := by
  refine (ends_prune_clears hg hm).mono ?_
  rintro _ g' ⟨hac, T, g₁, h₁, hT, hvol, h⟩
  exact h.prunes hg hac h₁ hT hvol

/-- In a graph without cycles the nodes that are left keep their links, but for the volume output. -/
theorem ends_prune_acyclic (hg : g.WellFormed) (hm : g.finalized = false) (hac : g.Acyclic) :
    prune.Ends g fun _ g' => g.Prunes g' ∧
      ∀ r, r ≠ ⟨outputId, 1⟩ → g'.kind? r.node ≠ none → g'.linkAt r = g.linkAt r := by
  refine (ends_prune_clears hg hm).mono ?_
  rintro _ g' ⟨hac', T, g₁, h₁, hT, hvol, h⟩
  refine ⟨h.prunes hg hac' h₁ hT hvol, fun r hr hk => ?_⟩
  obtain ⟨k, hk⟩ := Option.ne_none_iff_exists'.mp hk
  rw [h.linkAt_of_leads ((h.kind?_iff _ k).mp hk).2]
  refine h₁.kept r fun hTr => ?_
  rcases hT r hTr with ⟨heq, -⟩ | ⟨o, ho, hp⟩
  · exact hr heq
  · exact hac r.node (.tail' hp (feeds_of_linkAt ho))

/-- **Cleaning.** On a well-formed graph it ends without a fault, and leaves a graph without cycles
in which every node leads to an output. -/
theorem ends_clean (hg : g.WellFormed) (hm : g.finalized = false) (scene : Scene) :
    (clean scene).Ends g fun _ g' => g'.WellFormed ∧ g'.finalized = false ∧ g'.Acyclic ∧
      (∀ id, g.IsOutput id → g'.kind? id = g.kind? id) ∧
        ∀ id ∈ g'.ids, ∃ root, g'.IsOutput root ∧ ReflTransGen g'.Feeds id root := by
  rw [clean_eq]
  refine Ends.bind (ends_tidy (P := fun _ => True) hg hm scene
    ((ends_foldAll hg hm (Worklist.within_ofGraph g)).mono fun _ _ _ => trivial)) ?_
  rintro _ b ⟨h, -⟩
  refine (ends_prune h.wellFormed (h.finalized.trans hm)).mono fun _ g' h' => ?_
  refine ⟨h'.wellFormed, h'.finalized.trans (h.finalized.trans hm), h'.acyclic, fun id hid => ?_,
    h'.leads⟩
  obtain ⟨k, hk⟩ := (g.mem_ids_iff_kind?).mp (hid.mem_ids hg)
  rw [h'.outputs id (hid.imp_right fun ⟨name, hn⟩ => ⟨name, h.kind?_some hn⟩), h.kind?_some hk, hk]

/-- Cleaning a well-formed graph succeeds, whatever its cycles. Afterwards the links have no cycle,
every node is an output or feeds one, and all outputs are still there. -/
theorem clean_acyclic_and_reachable (g : Graph) (hg : g.WellFormed) (hm : g.finalized = false)
    (scene : Scene) :
    ∃ g', (clean scene).run g = .ok () g' ∧
      (∀ id, ¬ TransGen g'.Feeds id id) ∧
      (∀ id ∈ g'.ids, ∃ root, (root = outputId ∨ ∃ name, g'.kind? root = some (.aovOutput name)) ∧
        ReflTransGen g'.Feeds id root) ∧
      outputId ∈ g'.ids ∧
      ∀ id name, g.kind? id = some (.aovOutput name) → g'.kind? id = some (.aovOutput name) := by
  obtain ⟨_, g', hrun, hg', -, hac, hkind, hall⟩ := ends_iff.mp (ends_clean hg hm scene)
  refine ⟨g', hrun, hac, hall, (g'.mem_ids_iff_kind?).mpr ⟨_, hg'.kind?_output⟩, ?_⟩
  intro id name hk
  rw [hkind id (Or.inr ⟨name, hk⟩), hk]

/-- A scalar operation that feeds itself and an AOV output. -/
def knot : Graph :=
  Primitive.runAll [.addKind (.math .add false), .addKind (.aovOutput "mask"),
    .connect ⟨1, 0⟩ ⟨1, 0⟩, .connect ⟨1, 0⟩ ⟨2, 1⟩] Graph.empty

theorem clean_acyclic_and_reachable_knot :
    knot.linkAt ⟨1, 0⟩ = some ⟨1, 0⟩ ∧ knot.linkAt ⟨2, 1⟩ = some ⟨1, 0⟩ ∧
      ∃ g', (clean (Scene.empty.withAov "mask" .value)).run knot = .ok () g' ∧
        (∀ id, ¬ TransGen g'.Feeds id id) ∧ g'.kind? 2 = some (.aovOutput "mask") := by
  refine ⟨by decide, by decide, ?_⟩
  obtain ⟨g', hrun, hac, -, -, hkind⟩ := clean_acyclic_and_reachable knot
    (Primitive.follows_runAll wellFormed_empty _).wellFormed (by decide)
    (Scene.empty.withAov "mask" .value)
  exact ⟨g', hrun, hac, hkind 2 "mask" (by decide)⟩

end Edit

end Shading
