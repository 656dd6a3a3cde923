import Shading.Proofs.Compilation
import Shading.Proofs.Update

/-!
# Simplified graphs

What counts as simplified is simplified, in all states that a graph can get into: its links form no
cycle, and it holds no proxy (`Step.acyclic_and_no_proxy_of_simplified`). Simplifying establishes
this. The passes that run after the proxies are gone add none, and an update that makes a link or a
node takes the mark away. -/

namespace Shading

open Relation

namespace Edit

open Shading.Graph

/-! ### What the passes do -/

section

variable {F : (Node → Node) → Prop}

theorem updates_makeConstant (o : OutputRef) (l : Literal) :
    (makeConstant o l).Updates NodeKind.NoProxy F :=
  (updates_ask _).bind fun _ => (Updates.forM fun _ => updates_store _ l).bind fun _ =>
    updates_disconnectOutput o

theorem updates_makeZero (o : OutputRef) : (makeZero o).Updates NodeKind.NoProxy F := by
  refine (updates_ask _).bind fun output => ?_
  split_ifs
  · exact updates_makeConstant o _
  · exact updates_pure _

theorem updates_makeOne (o : OutputRef) : (makeOne o).Updates NodeKind.NoProxy F := by
  refine (updates_ask _).bind fun output => ?_
  split_ifs
  · exact updates_makeConstant o _
  · exact updates_makeConstant o _
  · exact updates_pure _

theorem updates_redirect (o replacement : OutputRef) :
    (redirect o replacement).Updates NodeKind.NoProxy F :=
  (updates_ask _).bind fun _ => (updates_disconnectOutput o).bind fun _ =>
    .forM fun _ => (updates_connect _ _).discard

theorem updates_dropConsumers (o : OutputRef) : (dropConsumers o).Updates NodeKind.NoProxy F :=
  (updates_ask _).bind fun _ => updates_disconnectOutput o

theorem updates_redirectOrDrop (o : OutputRef) (name : String) :
    (redirectOrDrop o name).Updates NodeKind.NoProxy F := by
  refine (updates_ask _).bind fun link => ?_
  split
  · exact updates_redirect o _
  · exact updates_dropConsumers o

theorem updates_keepOnlyInput (kept : InputRef) :
    (keepOnlyInput kept).Updates NodeKind.NoProxy F := by
  refine (updates_ask _).bind fun n => .forM fun slot => ?_
  split_ifs
  · exact updates_pure _
  · exact updates_disconnectIfLinked _

theorem updates_passThrough (o : OutputRef) (name : String) (clamped : Bool) :
    (passThrough o name clamped).Updates NodeKind.NoProxy F := by
  refine (updates_ask _).bind fun target => (updates_ask _).bind fun input => ?_
  refine (updates_ask _).bind fun output => ?_
  split
  · exact updates_pure _
  · split
    · split_ifs
      · exact (updates_makeConstant o _).bind fun _ => updates_pure _
      · exact updates_pure _
    · split_ifs
      · exact (updates_keepOnlyInput target).bind fun _ => updates_pure _
      · exact (updates_redirect o _).bind fun _ => updates_pure _

theorem updates_apply (o : OutputRef) (clamped : Bool) (shortcut : Shortcut) :
    (shortcut.apply o clamped).Updates NodeKind.NoProxy F := by
  cases shortcut with
  | keep => exact updates_pure _
  | passThrough input => exact (updates_passThrough o input clamped).discard
  | zero => exact updates_makeZero o
  | one => exact updates_makeOne o

theorem updates_foldMix (o : OutputRef) (mode : BlendMode) (clamped : Bool) :
    (foldMix o mode clamped).Updates NodeKind.NoProxy F := by
  refine (updates_ask _).bind fun n => ?_
  have hrest : (do
      let shortcut ← ask fun g => mode.shortcut (MixFacts.ofNode n) (.ofGraph g o.node)
      shortcut.apply o clamped : Edit Unit).Updates NodeKind.NoProxy F :=
    (updates_ask _).bind fun shortcut => updates_apply o clamped shortcut
  dsimp only
  split_ifs
  · refine (updates_passThrough o _ clamped).bind fun replaced => ?_
    split_ifs
    · exact updates_pure _
    · exact hrest
  · exact hrest

theorem updates_foldConvert (o : OutputRef) (n : Node) (source target : SocketType) :
    (foldConvert o n source target).Updates NodeKind.NoProxy F := by
  unfold foldConvert
  split
  · exact updates_pure _
  · split
    · split_ifs
      · exact updates_makeConstant o _
      · exact updates_makeConstant o _
      · exact updates_pure _
    · refine (updates_ask _).bind fun previous => ?_
      split
      · split_ifs
        · split
          · exact updates_redirect o _
          · exact updates_pure _
        · exact updates_pure _
      · exact updates_pure _

theorem updates_foldBump (o : OutputRef) (n : Node) :
    (foldBump o n).Updates NodeKind.NoProxy F := by
  unfold foldBump
  split_ifs
  · split
    · exact updates_redirect o _
    · exact (updates_addKind (by simp [NodeKind.NoProxy, NodeKind.role])).bind fun geometry =>
        (updates_ask _).bind fun normal => updates_redirect o normal
  · exact updates_pure _

theorem updates_foldMixClosure (o : OutputRef) (n : Node) :
    (foldMixClosure o n).Updates NodeKind.NoProxy F := by
  unfold foldMixClosure
  dsimp only
  split_ifs
  · exact updates_redirectOrDrop o _
  · exact updates_redirectOrDrop o _
  · exact updates_redirectOrDrop o _
  · exact updates_pure _

theorem updates_foldAddClosure (o : OutputRef) (n : Node) :
    (foldAddClosure o n).Updates NodeKind.NoProxy F := by
  unfold foldAddClosure
  split_ifs
  · exact updates_redirectOrDrop o _
  · exact updates_redirectOrDrop o _
  · exact updates_pure _

theorem updates_foldOutput (o : OutputRef) : (foldOutput o).Updates NodeKind.NoProxy F := by
  refine (updates_ask _).bind fun n => ?_
  dsimp only
  split
  · exact updates_makeConstant o _
  · exact updates_makeConstant o _
  · exact updates_foldConvert o n _ _
  · split_ifs
    · exact updates_dropConsumers o
    · exact updates_pure _
  · exact updates_foldAddClosure o n
  · exact updates_foldMixClosure o n
  · split_ifs
    · exact updates_makeConstant o _
    · exact (updates_ask _).bind fun shortcut => updates_apply o false shortcut
  · split_ifs
    · exact updates_makeConstant o _
    · exact updates_pure _
  · split_ifs
    · refine (updates_ask _).bind fun output => ?_
      split_ifs
      · exact updates_makeConstant o _
      · exact updates_makeConstant o _
    · exact (updates_ask _).bind fun shortcut => updates_apply o false shortcut
  · split_ifs
    · exact updates_makeConstant o _
    · exact updates_foldMix o _ _
  · exact updates_foldBump o n
  · split_ifs
    · exact updates_makeZero o
    · exact updates_pure _
  · exact updates_pure _

theorem updates_foldAll (w : Worklist) : (foldAll w).Updates NodeKind.NoProxy F := by
  fun_induction foldAll w with
  | case1 => exact updates_pure _
  | case2 w id w' hx hsize ih =>
    refine updates_get_bind fun g => Updates.bind ?_ fun _ => ih g
    refine (updates_ask _).bind fun n => .forM fun slot => (updates_ask _).bind fun consumers => ?_
    split_ifs
    · exact updates_foldOutput _
    · exact updates_pure _

theorem updates_propagateConstants : propagateConstants.Updates NodeKind.NoProxy F := by
  have hlinked : displacementLinked.Updates NodeKind.NoProxy F :=
    (updates_ask _).bind fun _ => updates_pure _
  refine hlinked.bind fun displaced => updates_get_bind fun g => (updates_foldAll _).bind fun _ => ?_
  refine hlinked.bind fun linked => ?_
  split_ifs
  · exact (updates_ask _).bind fun output =>
      (updates_addKind (by simp [NodeKind.NoProxy, NodeKind.role])).bind fun color =>
        (updates_storeNamed _ _ _).discard.bind fun _ => (updates_connectNamed _ _ _ _).discard
  · exact updates_pure _

theorem updates_adaptToScene (scene : Scene) (id : NodeId) :
    (adaptToScene scene id).Updates NodeKind.NoProxy F :=
  relates_adaptToScene (fun t => updates_disconnectIfLinked t) scene id

theorem updates_mergeAll (w : Worklist) (candidates : List NodeId) (merged : Nat) :
    (mergeAll w candidates merged).Updates NodeKind.NoProxy F :=
  relates_mergeAll (fun _ _ => (updates_ask _).bind fun _ => .forM fun _ => updates_bypass _ _ _)
    w candidates merged

theorem updates_verifyVolume : verifyVolume.Updates NodeKind.NoProxy KeepsSockets := by
  refine (updates_ask _).bind fun volume => (updates_ask _).bind fun link => ?_
  split
  · exact updates_pure _
  · refine updates_get_bind fun g => Updates.bind (fun g' => meets_modify ?_) fun _ => ?_
    · have hall : ∀ (rs : List Reached) (g : Graph),
          g.Updated NodeKind.NoProxy KeepsSockets (rs.foldl (fun g r => g.forbidStochastic r.1) g) := by
        intro rs
        induction rs with
        | nil => exact fun _ => .refl
        | cons r rs ih =>
          have hkeep : KeepsSockets fun n => { n with stochastic := false } := fun _ => ⟨rfl, rfl, rfl⟩
          exact fun g => .head (.note r.1 hkeep) (ih _)
      exact hall _ g'
    · split_ifs
      · exact (updates_disconnectInput volume).bind fun _ => updates_report _
      · exact updates_pure _

theorem updates_breakCycles : breakCycles.Updates NodeKind.NoProxy F :=
  relates_breakCycles fun t => (updates_ask _).bind fun _ => (updates_disconnectInput t).bind fun _ =>
    updates_report _

theorem updates_clean (scene : Scene) : (clean scene).Updates NodeKind.NoProxy KeepsSockets := by
  refine updates_propagateConstants.bind fun _ => updates_get_bind fun g => ?_
  refine (Updates.forM fun id => updates_adaptToScene scene id).bind fun _ => ?_
  refine Updates.bind (Updates.discard (updates_get_bind fun g => updates_mergeAll _ _ _)) fun _ => ?_
  refine updates_verifyVolume.bind fun _ => updates_breakCycles.bind fun reachable => ?_
  refine Updates.bind (Updates.discard (updates_get_bind fun g => (updates_removeNodes _).bind
    fun _ => updates_pure _)) fun _ => updates_get_bind fun g => ?_
  split_ifs
  · exact updates_throw _
  · exact updates_pure _

theorem updates_releaseDefaults (id : NodeId) : (releaseDefaults id).Updates NodeKind.NoProxy F := by
  refine (updates_ask _).bind fun targets => .foldlM fun all t => (updates_ask _).bind fun i => ?_
  split_ifs
  · exact (updates_disconnectInput t).bind fun _ => updates_pure _
  · exact updates_pure _

theorem updates_storeInConsumer (l : Literal) (t : InputRef) :
    (storeInConsumer l t).Updates NodeKind.NoProxy F := by
  have hrest : ∀ unused : Bool, (do
      disconnectInput t
      store t l
      pure (if unused then [t.node] else []) : Edit NodeSet).Updates NodeKind.NoProxy F := fun _ =>
    (updates_disconnectInput t).bind fun _ => (updates_store t l).bind fun _ => updates_pure _
  refine (updates_ask _).bind fun n => ?_
  dsimp only
  split_ifs
  · exact (updates_releaseDefaults t.node).bind hrest
  · exact hrest false

theorem updates_removeProxies : removeProxies.Updates NodeKind.NoProxy F := by
  refine updates_get_bind fun g => Updates.bind (.foldlM fun removed id => ?_) fun removed =>
    updates_removeNodes _
  refine (updates_ask _).bind fun n => ?_
  split_ifs
  · refine Updates.bind ((updates_ask _).bind fun i => ?_) fun more => updates_pure _
    split
    · exact (updates_bypass id _ _).bind fun _ => updates_pure _
    · exact (updates_ask _).bind fun targets => .foldlM fun removed t =>
        (updates_storeInConsumer _ t).bind fun _ => updates_pure _
  · exact updates_pure _

theorem updates_insertClamp (id : NodeId) : (insertClamp id).Updates NodeKind.NoProxy F := by
  refine (updates_ask _).bind fun result => (updates_ask _).bind fun consumers => ?_
  split_ifs
  · exact (updates_addKind (by simp [NodeKind.NoProxy, NodeKind.role])).bind fun clamp =>
      (updates_storeNamed _ _ _).discard.bind fun _ =>
        (updates_storeNamed _ _ _).discard.bind fun _ => (updates_ask _).bind fun out =>
          (updates_relinkOutput _ _).bind fun _ => (updates_ask _).bind fun value =>
            (updates_connect _ _).discard
  · exact updates_pure _

theorem updates_expandOnce (id : NodeId) :
    (expandOnce id).Updates NodeKind.NoProxy KeepsSockets := by
  refine (updates_ask _).bind fun n => ?_
  split_ifs
  · have hmark : (markExpanded id).Updates NodeKind.NoProxy KeepsSockets :=
      (updates_ask _).discard.bind fun _ => updates_modify fun _ => .note id fun _ => ⟨rfl, rfl, rfl⟩
    refine hmark.bind fun _ => (updates_ask _).bind fun n => ?_
    split_ifs
    · exact updates_insertClamp id
    · exact updates_pure _
  · exact updates_pure _

theorem updates_expandNodes : expandNodes.Updates NodeKind.NoProxy KeepsSockets :=
  updates_get_bind fun _ => (Updates.forM updates_expandOnce).bind fun _ =>
    updates_get_bind fun _ => .forM updates_expandOnce

theorem updates_linkAllDefaults : linkAllDefaults.Updates NodeKind.NoProxy F := by
  refine updates_get_bind fun g => .discard (.foldlM fun shared id => (updates_ask _).bind fun n =>
    .foldlM ?_)
  rintro shared ⟨input, slot⟩
  dsimp only
  split
  · rename_i source _ _
    have hshared : (sharedNode shared source.owner).Updates NodeKind.NoProxy F := by
      unfold sharedNode
      split
      · exact updates_pure _
      · refine (updates_addKind ?_).bind fun _ => updates_pure _
        cases source.owner <;> simp [NodeKind.NoProxy, NodeKind.role, SharedNode.kind]
    exact hshared.bind fun _ => (updates_ask _).bind fun _ =>
      (updates_connect _ _).discard.bind fun _ => updates_pure _
  · exact updates_pure _

theorem updates_tagSamples (filterWidth : Binary32) (center dx dy : List NodeId) :
    (tagSamples filterWidth center dx dy).Updates NodeKind.NoProxy KeepsSockets := by
  have htag : ∀ sample ids, (tagSample sample filterWidth ids).Updates NodeKind.NoProxy
      KeepsSockets := fun sample ids => .forM fun id => (updates_ask _).discard.bind fun _ =>
    updates_modify fun _ => .note id fun _ => ⟨rfl, rfl, rfl⟩
  exact (htag _ _).bind fun _ => (htag _ _).bind fun _ => htag _ _

theorem updates_copyOf (copies : CopyMap) (source : OutputRef) :
    (copyOf copies source).Updates NodeKind.NoProxy F := by
  unfold copyOf
  split
  · exact updates_pure _
  · exact updates_throw _

theorem updates_refineBumps : refineBumps.Updates NodeKind.NoProxy KeepsSockets := by
  refine updates_get_bind fun g => .forM fun id => (updates_ask _).bind fun n => ?_
  split_ifs
  · refine (updates_ask _).bind fun height => (updates_ask _).bind fun link => ?_
    split
    · dsimp only
      exact (updates_ask _).bind fun center => (updates_copySubgraph _).bind fun dx =>
        (updates_copySubgraph _).bind fun dy => (updates_tagSamples _ _ _ _).bind fun _ =>
          (updates_ask _).bind fun sampleX => (updates_ask _).bind fun sampleY =>
            (updates_ask _).bind fun sampleCenter => (updates_copyOf _ _).bind fun _ =>
              (updates_connect _ _).discard.bind fun _ => (updates_copyOf _ _).bind fun _ =>
                (updates_connect _ _).discard.bind fun _ =>
                  (updates_connect _ _).discard.bind fun _ => updates_disconnectInput height
    · exact updates_pure _
  · exact updates_pure _

theorem updates_bumpFromDisplacement (objectSpace : Bool) :
    (bumpFromDisplacement objectSpace).Updates NodeKind.NoProxy KeepsSockets := by
  have hadd : (addDisplacementBump objectSpace).Updates NodeKind.NoProxy KeepsSockets := by
    have hkind : ∀ k ∈ [NodeKind.geometry, .vectorMath .dotProduct, .bump false objectSpace,
        .setNormal], k.NoProxy := by simp [NodeKind.NoProxy, NodeKind.role]
    exact (updates_addKind (hkind _ (by simp))).bind fun _ =>
      (updates_addKind (hkind _ (by simp))).bind fun _ =>
        (updates_addKind (hkind _ (by simp))).bind fun _ =>
          (updates_addKind (hkind _ (by simp))).bind fun _ =>
            (updates_addKind (hkind _ (by simp))).bind fun _ =>
              (updates_addKind (hkind _ (by simp))).bind fun _ => updates_pure _
  have hsample : ∀ source bump copies dot sample,
      (linkSample source bump copies dot sample).Updates NodeKind.NoProxy KeepsSockets :=
    fun source bump copies dot sample => (updates_ask _).bind fun _ =>
      (updates_copyOf _ _).bind fun _ => (updates_connect _ _).discard.bind fun _ =>
        (updates_connectNamed _ _ _ _).discard
  have hlink : ∀ nodes source center dx dy, (linkDisplacementBump nodes source center dx dy).Updates
      NodeKind.NoProxy KeepsSockets := by
    intro nodes source center dx dy
    refine (updates_ask _).bind fun normal => Updates.bind (.forM fun dot =>
      (updates_ask _).bind fun _ => (updates_connect _ _).discard) fun _ => ?_
    exact (updates_connectNamed _ _ _ _).discard.bind fun _ => (hsample _ _ _ _ _).bind fun _ =>
      (hsample _ _ _ _ _).bind fun _ => (hsample _ _ _ _ _).bind fun _ =>
        (updates_connectNamed _ _ _ _).discard.bind fun _ => (updates_ask _).bind fun _ =>
          (updates_disconnectIfLinked _).bind fun _ => (updates_connectNamed _ _ _ _).discard
  refine (updates_ask _).bind fun displacement => (updates_ask _).bind fun link => ?_
  split
  · exact (updates_ask _).bind fun ids => (updates_copySubgraph _).bind fun center =>
      (updates_copySubgraph _).bind fun dx => (updates_copySubgraph _).bind fun dy =>
        hadd.bind fun nodes => (updates_storeNamed _ _ _).discard.bind fun _ =>
          (updates_ask _).bind fun bump => (updates_tagSamples _ _ _ _).bind fun _ =>
            hlink nodes _ _ _ _
  · exact updates_pure _

theorem updates_feed (source? : Option OutputRef) (l : Literal) (target : InputRef) :
    (feed source? l target).Updates NodeKind.NoProxy F := by
  cases source? with
  | some source => exact (updates_connect source target).discard
  | none => exact updates_store target l

theorem updates_addLeafWeight (volume : Bool) (id : NodeId) (weight : Option OutputRef) :
    (addLeafWeight volume id weight).Updates NodeKind.NoProxy F := by
  refine (updates_ask _).bind fun n => ?_
  split
  · exact updates_pure _
  · refine (updates_ask _).bind fun input => ?_
    dsimp only
    split_ifs
    · exact (updates_addKind (by simp [NodeKind.NoProxy, NodeKind.role])).bind fun sum =>
        (updates_ask _).bind fun _ => (updates_feed _ _ _).bind fun _ =>
          (updates_ask _).bind fun _ => (updates_feed _ _ _).bind fun _ =>
            (updates_disconnectIfLinked _).bind fun _ => (updates_ask _).bind fun _ =>
              (updates_connect _ _).discard
    · exact updates_feed _ _ _

theorem updates_splitWeight (id : NodeId) (facSlot : Nat) (weight : Option OutputRef) :
    (splitWeight id facSlot weight).Updates NodeKind.NoProxy F :=
  (updates_addKind (by simp [NodeKind.NoProxy, NodeKind.role])).bind fun split =>
    (updates_ask _).bind fun fac => (updates_ask _).bind fun _ => (updates_feed _ _ _).bind fun _ =>
      (updates_ask _).bind fun _ => (updates_connectTo _ _).bind fun _ =>
        (updates_ask _).bind fun _ => (updates_ask _).bind fun _ => updates_pure _

theorem updates_spreadWeight (volume : Bool) (combines : List NodeId) (id : NodeId)
    (weight : Option OutputRef) : (spreadWeight volume combines id weight).Updates NodeKind.NoProxy F := by
  fun_induction spreadWeight volume combines id weight with
  | case1 combines id weight ih =>
    refine (updates_ask _).bind fun n => ?_
    split_ifs with hrole hmem
    · have hbranch : ∀ (link : Option OutputRef) (weight : Option OutputRef),
          (link.forM fun source => spreadWeight volume (combines.erase id) source.node weight).Updates
            NodeKind.NoProxy F := by
        intro link weight
        cases link with
        | none => exact updates_pure _
        | some source => exact ih hmem weight source
      refine (updates_ask _).bind fun closure₁ => (updates_ask _).bind fun closure₂ => ?_
      split
      · exact (hbranch _ _).bind fun _ => hbranch _ _
      · exact (updates_splitWeight _ _ _).bind fun _ => (hbranch _ _).bind fun _ => hbranch _ _
    · exact updates_throw _
    · exact updates_addLeafWeight _ _ _

theorem updates_flattenOutput (name : String) (volume : Bool) :
    (flattenOutput name volume).Updates NodeKind.NoProxy F := by
  refine (updates_ask _).bind fun input => (updates_ask _).bind fun link => ?_
  split
  · exact updates_get_bind fun g => updates_spreadWeight _ _ _ _
  · exact updates_pure _

end

end Edit

namespace Graph

/-! ### The mark on a simplified graph -/

/-- What counts as simplified has neither cycles nor proxies. -/
def Trusted (g : Graph) : Prop :=
  g.simplified = true → g.Acyclic ∧ g.Every fun _ n => n.kind.NoProxy

variable {g g' : Graph} {K : NodeKind → Prop}

theorem every_noProxy_iff : (g.Every fun _ n => n.kind.NoProxy) ↔ ∀ x, ¬ g.IsProxy x := by
  constructor
  · rintro h x ⟨k, hk, hrole⟩
    obtain ⟨n, hn, rfl⟩ := Option.map_eq_some_iff.mp hk
    exact h x n hn hrole
  · exact fun h x n hn hrole => h x ⟨n.kind, by simp [kind?, hn], hrole⟩

theorem Every.noProxy_update (h : Update NodeKind.NoProxy KeepsSockets g g')
    (hg : g.Every fun _ n => n.kind.NoProxy) : g'.Every fun _ n => n.kind.NoProxy := by
  refine hg.update (fun _ _ _ _ hn => hn) (fun _ hk => hk) (fun _ _ hn => ⟨hn, hn⟩)
    (fun f hf _ n hn => ?_) h
  rw [(hf n).1]
  exact hn

/-- An update that makes a link or a node takes the mark away, and all others leave a graph without
cycles and proxies in that state. -/
theorem Trusted.update (h : Update K KeepsSockets g g') (hg : g.Trusted) : g'.Trusted := by
  have hkeep : g'.simplified = g.simplified →
      (∀ r o, g'.linkAt r = some o → g.linkAt r = some o) →
      Update NodeKind.NoProxy KeepsSockets g g' → g'.Trusted := by
    intro hs hl hu hs'
    obtain ⟨hac, hproxy⟩ := hg (hs ▸ hs')
    exact ⟨hac.of_links hl, hproxy.noProxy_update hu⟩
  cases h with
  | add hk => exact fun hs => nomatch hs
  | copy hn hm => exact fun hs => nomatch hs
  | link s t => exact fun hs => nomatch hs
  | unlink s t => exact fun hs => nomatch hs
  | unlinkOutput s ts => exact fun hs => nomatch hs
  | touch => exact fun hs => nomatch hs
  | store t l => exact hkeep rfl (fun r o ho => by rwa [linkAt_store] at ho) (.store t l)
  | note id hf =>
    refine hkeep rfl (fun r o ho => ?_) (.note id hf)
    rwa [linkAt, g.input?_note hf, ← linkAt] at ho
  | drop ids =>
    refine hkeep rfl (fun r o ho => ?_) (.drop ids)
    rw [linkAt_drop] at ho
    split_ifs at ho
    exact ho
  | report d => exact hkeep rfl (fun r o ho => ho) (.report d)

end Graph

namespace Edit

open Shading.Graph

variable {g : Graph}

/-- No proxy is left when a graph is simplified. -/
theorem meets_simplify_noProxy (hg : g.WellFormed) (hs : g.simplified = false)
    (hm : g.finalized = false) (scene : Scene) :
    (simplify scene).Meets g (fun _ g' => g'.Every fun _ n => n.kind.NoProxy) fun _ => True := by
  have hkeep : ∀ {e : Edit Unit} {g : Graph}, e.Updates NodeKind.NoProxy KeepsSockets →
      (g.Every fun _ n => n.kind.NoProxy) →
      e.Meets g (fun _ g' => g'.Every fun _ n => n.kind.NoProxy) fun _ => True := fun he hg =>
    (he.meets (fun _ _ hu hP => Every.noProxy_update hu hP) hg).mono (fun _ _ h => h) fun _ _ => trivial
  refine meets_get_bind ?_
  rw [hs, hm]
  refine Meets.bind (ends_removeProxies_not_isProxy hg hm).meets fun _ g₁ h₁ => ?_
  refine (hkeep updates_expandNodes (every_noProxy_iff.mpr h₁)).bind fun _ g₂ h₂ => ?_
  refine (hkeep updates_linkAllDefaults h₂).bind fun _ g₃ h₃ => ?_
  refine (hkeep (updates_clean scene) h₃).bind fun _ g₄ h₄ => ?_
  exact (hkeep updates_refineBumps h₄).bind fun _ g₅ h₅ => meets_modify h₅

theorem ends_simplify_trusted (hc : g.Compilable) (h : g.Trusted) (scene : Scene) :
    (simplify scene).Ends g fun _ => Trusted := by
  cases hm : g.finalized with
  | true =>
    refine ends_get_bind ?_
    rw [hm, Bool.not_true, Bool.and_false]
    exact ends_pure h
  | false =>
    cases hs : g.simplified with
    | true =>
      refine ends_get_bind ?_
      rw [hs]
      exact ends_pure h
    | false =>
      refine ((ends_simplify hc hm scene).and_meets
        (meets_simplify_noProxy hc.wellFormed hs hm scene)).mono ?_
      rintro _ g' ⟨⟨-, -, hac⟩, hproxy⟩ _
      exact ⟨hac, hproxy⟩

theorem meets_finalize_trusted (hc : g.Compilable) (h : g.Trusted) (scene : Scene)
    (bump objectSpace : Bool) :
    (finalize scene bump objectSpace).Meets g (fun _ => Trusted) Trusted := by
  have hkeep : ∀ {e : Edit Unit} {g : Graph}, e.Updates NodeKind.NoProxy KeepsSockets →
      g.Trusted → e.Meets g (fun _ => Trusted) Trusted := fun he hg =>
    he.meets (fun _ _ hu ht => ht.update hu) hg
  refine meets_get_bind ?_
  split_ifs
  · have hprepare : (prepare scene bump objectSpace).Meets g (fun _ => Trusted) Trusted := by
      refine Meets.bind (ends_simplify_trusted hc h scene).meets fun _ g₁ h₁ => ?_
      split_ifs
      · exact hkeep (updates_bumpFromDisplacement objectSpace) h₁
      · exact meets_pure h₁
    refine hprepare.bind fun _ g₁ h₁ => ?_
    refine (hkeep (updates_flattenOutput "Surface" false) h₁).bind fun _ g₂ h₂ => ?_
    exact (hkeep (updates_flattenOutput "Volume" true) h₂).bind fun _ g₃ h₃ => meets_modify h₃
  · exact meets_pure h

theorem meets_compile_trusted (hc : g.Compilable) (h : g.Trusted) (scene : Scene)
    (options : CompileOptions) : (compile scene options).Meets g (fun _ => Trusted) Trusted := by
  have hreport : ∀ g', g'.Trusted → (ask (·.summary)).Meets g' (fun _ => Trusted) Trusted :=
    fun g' h' => (updates_ask (K := NodeKind.NoProxy) (F := KeepsSockets) _).meets
      (fun _ _ hu ht => ht.update hu) h'
  rw [compile]
  cases options.stage with
  | simplify => exact Meets.bind (ends_simplify_trusted hc h scene).meets fun _ => hreport
  | finalize => exact Meets.bind (meets_finalize_trusted hc h scene _ _) fun _ => hreport

end Edit

namespace Step

open Shading.Graph Edit

theorem trusted_after {g : Graph} (hc : g.Compilable) (h : g.Trusted) (s : Step) :
    (s.run.after g).Trusted := by
  refine Meets.after ?_
  cases s with
  | primitive p =>
    exact (p.updates.mono (fun _ hk => hk) fun _ hf => hf.elim).meets (fun _ _ hu ht => ht.update hu) h
  | simplify scene => exact (ends_simplify_trusted hc h scene).meets
  | finalize scene bump objectSpace => exact meets_finalize_trusted hc h scene bump objectSpace
  | compile scene options => exact meets_discard (meets_compile_trusted hc h scene options)

theorem trusted_session (steps : List Step) : (session steps).Trusted := by
  have hsteps : ∀ g : Graph, g.Compilable → g.Trusted →
      (steps.foldl (fun g s => s.run.after g) g).Trusted := by
    induction steps with
    | nil => exact fun _ _ h => h
    | cons s steps ih =>
      exact fun g hc h => ih _ (compilable_after hc s) (trusted_after hc h s)
  exact hsteps _ ⟨wellFormed_empty, by simp [Graph.empty]⟩ fun hs => nomatch hs

/-- **The mark of a simplified graph can be trusted.** Whatever was done to a graph, in which order
and with how many faults: if it counts as simplified, its links form no cycle, and no node of it
converts a type to itself. -/
theorem acyclic_and_no_proxy_of_simplified (steps : List Step)
    (h : (session steps).simplified = true) :
    (session steps).Acyclic ∧ ∀ id source target automatic,
      (session steps).kind? id = some (.convert source target automatic) → source ≠ target := by
  obtain ⟨hac, hproxy⟩ := trusted_session steps h
  refine ⟨hac, fun id source target automatic hk heq => ?_⟩
  exact every_noProxy_iff.mp hproxy id ⟨_, hk, by simp [NodeKind.role, heq]⟩

/-- An operation that is linked to itself feeds an emission through a proxy. -/
def loopAndProxy : List Step :=
  [.addKind (.math .add false), .addKind (.convert .float .float false), .addKind (.emission false),
    .connect ⟨1, 0⟩ ⟨1, 0⟩, .connect ⟨1, 0⟩ ⟨2, 0⟩, .connect ⟨2, 0⟩ ⟨3, 1⟩,
    .connect ⟨3, 0⟩ ⟨0, 0⟩].map primitive

/-- The graph is simplified, a literal is stored in it, and an edit of a missing node fails. -/
def loopAndProxySimplified : List Step :=
  loopAndProxy ++ [.simplify Scene.empty, .primitive (.storeNamed 3 "Strength" (.float 2)),
    .primitive (.disconnectInput ⟨9, 0⟩)]

theorem acyclic_and_no_proxy_of_simplified_loopAndProxy :
    (session loopAndProxy).kind? 2 = some (.convert .float .float false) ∧
      (session loopAndProxy).linkAt ⟨1, 0⟩ = some ⟨1, 0⟩ ∧
      (session loopAndProxySimplified).simplified = true ∧
      (session loopAndProxySimplified).linkAt ⟨3, 1⟩ = some ⟨1, 0⟩ ∧
      (session loopAndProxySimplified).Acyclic ∧
      ∀ id source target automatic, (session loopAndProxySimplified).kind? id =
        some (.convert source target automatic) → source ≠ target := by
  have hs : (session loopAndProxySimplified).simplified = true := by decide +kernel
  exact ⟨by decide +kernel, by decide +kernel, hs, by decide +kernel,
    acyclic_and_no_proxy_of_simplified _ hs⟩

end Step

end Shading
