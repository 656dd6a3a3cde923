import Mathlib.Data.List.Perm.Basic
import Shading.Lowering.Cycle
import Shading.Proofs.Acyclic
import Shading.Proofs.Cutting
import Shading.Proofs.Primitive

/-!
# The search for cycles

The search keeps three kinds of nodes apart: those that it has not visited, those on its path, and
those that it is done with. A node is done after all nodes that feed it, so there is no cycle among
the nodes that are done; and every visited node leads to a root along links that the search has
followed, which it never cuts. What it cuts are links of cycles, since each node on the path feeds
the next one. When the search is over, the nodes that are done are those that lead to an output, and
nothing but the cuts has happened to the graph (`breakCycles_exact`). -/

namespace Shading

open Relation

theorem Path.contains_iff {path : Path} {id : NodeId} :
    path.contains id = true ↔ id ∈ path.map (·.node) := by
  simp [Path.contains]

theorem NodeKind.role_eq_aovOutput {k : NodeKind} :
    k.role = .aovOutput ↔ ∃ name, k = .aovOutput name := by
  constructor
  · intro h
    cases k with
    | aovOutput name => exact ⟨name, rfl⟩
    | convert source target automatic =>
      simp only [role] at h
      split_ifs at h
    | _ => simp [role] at h
  · rintro ⟨name, rfl⟩
    rfl

namespace Graph

/-- Of some nodes, the last one first, each comes after all nodes that feed it. -/
def Sorted (g : Graph) : List NodeId → Prop
  | [] => True
  | id :: done => (∀ a, g.Feeds a id → a ∈ done) ∧ g.Sorted done

/-- Where the inputs of the nodes on a path lead, as far as they are not pending: to nodes that are
done, or to the next node on the path. -/
def Settled (g : Graph) (done : List NodeId) : List NodeId → Path → Prop
  | _, [] => True
  | known, p :: rest =>
    (∀ slot o, g.linkAt ⟨p.node, slot⟩ = some o → slot ∈ p.pending ∨ o.node ∈ known) ∧
      g.Settled done (p.node :: done) rest

/-- The links that the search has followed. -/
def Followed (g : Graph) (done : List NodeId) (path : Path) (a b : NodeId) : Prop :=
  ∃ slot o, g.linkAt ⟨b, slot⟩ = some o ∧ o.node = a ∧
    (b ∈ done ∨ ∃ p ∈ path, p.node = b ∧ slot ∉ p.pending)

/-- The state of a search from some roots. -/
structure Search (g : Graph) (roots unvisited : List NodeId) (path : Path) (done : List NodeId) :
    Prop where
  perm : (unvisited ++ (path.map (·.node) ++ done)).Perm g.ids
  pending : ∀ p ∈ path, p.pending.Nodup ∧ p.pending ⊆ g.pendingInputs p.node
  sorted : g.Sorted done
  settled : g.Settled done done path
  rooted : ∀ id ∈ path.map (·.node) ++ done,
    ∃ root ∈ roots, ReflTransGen (g.Followed done path) id root

/-- The link of an input is part of a cycle. -/
def Cyclic (g : Graph) (r : InputRef) : Prop :=
  ∃ o, g.linkAt r = some o ∧ ReflTransGen g.Feeds r.node o.node

/-- What is reported when the link of an input is cut. -/
def cycleReport (g : Graph) (r : InputRef) : Diagnostic :=
  .cycleBroken r.node (((g.inputDecl? r).map (·.name)).getD "")

/-- The graph after the links of some inputs were cut. -/
def cutAt (g : Graph) (cut : List InputRef) : Graph :=
  { g.withoutLinks cut with
    simplified := g.simplified && cut.isEmpty
    diagnostics := g.diagnostics ++ cut.map g.cycleReport }

/-- `g'` comes from `g` by cutting the links of some inputs, all of which were linked. -/
structure CutsLinks (cut : List InputRef) (g g' : Graph) : Prop where
  eq_cutAt : g' = g.cutAt cut
  nodup : cut.Nodup
  linked : ∀ r ∈ cut, g.linkAt r ≠ none
  trims : g.Trims (· ∈ cut) g'

/-- The link of an input is part of a cycle, and both of its ends have been visited. -/
structure ClosesCycle (g : Graph) (unvisited : List NodeId) (r : InputRef) : Prop where
  cyclic : g.Cyclic r
  target : r.node ∉ unvisited
  source : ∀ o, g.linkAt r = some o → o.node ∉ unvisited

/-- Each node on a path feeds the next one. -/
def Chain (g : Graph) (path : Path) : Prop := path.IsChain fun p q => g.Feeds p.node q.node

variable {g g' : Graph} {roots unvisited done : List NodeId} {path rest : Path}

theorem cutAt_nil : g.cutAt [] = g := by
  simp [cutAt, withoutLinks_nil]

/-- Cuts one after another are cuts all at once. -/
theorem cutAt_cutAt {cut cut' : List InputRef} (h : (g.cutAt cut).cycleReport = g.cycleReport) :
    (g.cutAt cut).cutAt cut' = g.cutAt (cut ++ cut') := by
  have hw : (g.cutAt cut).withoutLinks cut' =
      { g.withoutLinks (cut ++ cut') with
        simplified := g.simplified && cut.isEmpty
        diagnostics := g.diagnostics ++ cut.map g.cycleReport } := by
    rw [← withoutLinks_withoutLinks]
    rfl
  have hempty : (cut ++ cut').isEmpty = (cut.isEmpty && cut'.isEmpty) := by cases cut <;> rfl
  rw [cutAt, hw, h]
  simp [cutAt, Bool.and_assoc, hempty]

namespace CutsLinks

theorem refl (hg : g.WellFormed) : g.CutsLinks [] g :=
  ⟨cutAt_nil.symm, List.nodup_nil, by simp, .refl hg (by simp)⟩

theorem trans {g₁ g₂ g₃ : Graph} {cut cut' : List InputRef} (h : g₁.CutsLinks cut g₂)
    (h' : g₂.CutsLinks cut' g₃) : g₁.CutsLinks (cut ++ cut') g₃ where
  eq_cutAt := by
    have hr : (g₁.cutAt cut).cycleReport = g₁.cycleReport := by
      rw [← h.eq_cutAt]
      funext r
      rw [cycleReport, cycleReport, h.trims.inputDecl?_eq]
    rw [h'.eq_cutAt, h.eq_cutAt, cutAt_cutAt hr]
  nodup := by
    refine List.nodup_append.mpr ⟨h.nodup, h'.nodup, fun r hr r' hr' heq => ?_⟩
    exact h'.linked r' hr' (h.trims.cut r' (heq ▸ hr))
  linked r hr := by
    rcases List.mem_append.mp hr with hr | hr
    · exact h.linked r hr
    · obtain ⟨o, ho⟩ := Option.ne_none_iff_exists'.mp (h'.linked r hr)
      simp [(h.trims.linkAt_some ho).1]
  trims := (h.trims.trans h'.trims).congr fun r _ _ => List.mem_append.symm

end CutsLinks

theorem cutsLinks_unlink (hg : g.WellFormed) {t : InputRef} {s : OutputRef} (h : g.linkAt t = some s) :
    g.CutsLinks [t] ((g.unlink s t).report (g.cycleReport t)) where
  eq_cutAt := by
    rw [hg.unlink_eq_withoutLinks h]
    simp [cutAt, report, touch]
    rfl
  nodup := List.nodup_singleton t
  linked := by simp [h]
  trims := ((trims_unlink hg h).congr fun r _ _ => List.mem_singleton.symm).report _

theorem ClosesCycle.mono {unvisited' : List NodeId} {r : InputRef} (h : g.ClosesCycle unvisited r)
    (hsub : unvisited' ⊆ unvisited) : g.ClosesCycle unvisited' r :=
  ⟨h.cyclic, fun hr => h.target (hsub hr), fun o ho hu => h.source o ho (hsub hu)⟩

theorem Chain.reflTransGen {p q : PathNode} (h : g.Chain (p :: path)) (hq : q ∈ p :: path) :
    ReflTransGen g.Feeds p.node q.node := by
  induction path generalizing p with
  | nil => rw [List.mem_singleton.mp hq]
  | cons p' path ih =>
    obtain ⟨hfeeds, h'⟩ := List.isChain_cons_cons.mp h
    rcases List.mem_cons.mp hq with rfl | hq
    · rfl
    · exact .head hfeeds (ih h' hq)

/-- A chain does not depend on what is left of the inputs of its first node. -/
theorem Chain.advance {id : NodeId} {pending pending' : List Nat}
    (h : g.Chain (⟨id, pending⟩ :: path)) : g.Chain (⟨id, pending'⟩ :: path) := by
  cases path with
  | nil => exact List.isChain_singleton _
  | cons p path => exact List.isChain_cons_cons.mpr (List.isChain_cons_cons.mp h)

theorem Cyclic.not_acc {r : InputRef} (h : g.Cyclic r) : ¬ Acc g.Feeds r.node := by
  obtain ⟨o, ho, hp⟩ := h
  exact fun hacc => not_transGen_of_acc hacc (.tail' hp ⟨r, o, ho, rfl, rfl⟩)

theorem Sorted.acc (h : g.Sorted done) : ∀ id ∈ done, Acc g.Feeds id := by
  induction done with
  | nil => simp
  | cons u done ih =>
    intro id hid
    rcases List.mem_cons.mp hid with rfl | hid
    · exact ⟨id, fun a ha => ih h.2 a (h.1 a ha)⟩
    · exact ih h.2 id hid

theorem Sorted.closed (h : g.Sorted done) {a b : NodeId} (hb : b ∈ done) (hab : g.Feeds a b) :
    a ∈ done := by
  induction done with
  | nil => simp at hb
  | cons u done ih =>
    rcases List.mem_cons.mp hb with rfl | hb
    · exact List.mem_cons_of_mem b (h.1 a hab)
    · exact List.mem_cons_of_mem u (ih h.2 hb)

theorem Sorted.of_links (h : g.Sorted done)
    (hl : ∀ r o, g'.linkAt r = some o → g.linkAt r = some o) : g'.Sorted done := by
  induction done with
  | nil => trivial
  | cons u done ih =>
    refine ⟨?_, ih h.2⟩
    rintro a ⟨r, o, hr, ha, hb⟩
    exact h.1 a ⟨r, o, hl r o hr, ha, hb⟩

/-- More nodes may be done or known, and links may be missing. -/
theorem Settled.mono {done' known known' : List NodeId} (h : g.Settled done known path)
    (hl : ∀ r o, g'.linkAt r = some o → g.linkAt r = some o) (hd : done ⊆ done')
    (hk : known ⊆ known') : g'.Settled done' known' path := by
  induction path generalizing known known' with
  | nil => trivial
  | cons p rest ih =>
    refine ⟨fun slot o ho => ?_, ih h.2 (List.cons_subset_cons p.node hd)⟩
    exact (h.1 slot o (hl _ o ho)).imp_right fun ho' => hk ho'

theorem nodup_pendingInputs (id : NodeId) : (g.pendingInputs id).Nodup := by
  unfold pendingInputs
  split
  · exact List.nodup_range
  · exact List.nodup_nil

theorem mem_pendingInputs {id : NodeId} {slot : Nat} :
    slot ∈ g.pendingInputs id ↔ ∃ d, g.inputDecl? ⟨id, slot⟩ = some d := by
  cases hn : g.node? id with
  | none => simp [pendingInputs, inputDecl?, input?, hn]
  | some n => rw [g.exists_inputDecl?_iff hn, pendingInputs, hn, List.mem_range]

/-- Nodes keep their inputs when links are cut. -/
theorem Trims.pendingInputs_eq {T : InputRef → Prop} (h : g.Trims T g') :
    g'.pendingInputs = g.pendingInputs := by
  have hlayout : ∀ (g : Graph) id,
      g.pendingInputs id = List.range (((g.layout? id).map (·.inputs.length)).getD 0) := by
    intro g id
    cases hn : g.node? id <;> simp [pendingInputs, layout?, Node.layout, hn]
  funext id
  rw [hlayout, hlayout, h.layout?_eq]

/-- The output node and the AOV outputs. -/
def IsOutput (g : Graph) (id : NodeId) : Prop :=
  id = outputId ∨ ∃ name, g.kind? id = some (.aovOutput name)

theorem mem_outputs {id : NodeId} :
    id ∈ outputId :: (g.nodes.filter fun (_, n) => n.role = .aovOutput).map (·.1) ↔
      g.IsOutput id := by
  rw [List.mem_cons, List.mem_map]
  refine or_congr_right ⟨?_, ?_⟩
  · rintro ⟨⟨_, n⟩, hn, rfl⟩
    obtain ⟨hn, hrole⟩ := List.mem_filter.mp hn
    obtain ⟨name, hk⟩ := NodeKind.role_eq_aovOutput.mp (of_decide_eq_true hrole)
    exact ⟨name, by simp [kind?, (g.mem_nodes).mp hn, hk]⟩
  · rintro ⟨name, hk⟩
    obtain ⟨n, hn, hk⟩ := Option.map_eq_some_iff.mp hk
    refine ⟨(id, n), List.mem_filter.mpr ⟨(g.mem_nodes).mpr hn, decide_eq_true ?_⟩, rfl⟩
    exact NodeKind.role_eq_aovOutput.mpr ⟨name, hk⟩

theorem IsOutput.mem_ids (hg : g.WellFormed) {id : NodeId} (h : g.IsOutput id) : id ∈ g.ids := by
  rw [mem_ids_iff_kind?]
  rcases h with rfl | ⟨name, hk⟩
  · exact ⟨_, hg.kind?_output⟩
  · exact ⟨_, hk⟩

theorem Trims.isOutput_iff {T : InputRef → Prop} {id : NodeId} (h : g.Trims T g') :
    g'.IsOutput id ↔ g.IsOutput id := by
  rw [IsOutput, IsOutput, h.kind?_eq]

/-- A path leads from a node to one of the outputs. -/
def Leads (g : Graph) (id : NodeId) : Prop :=
  ∃ root, g.IsOutput root ∧ ReflTransGen g.Feeds id root

/-- `g'` is what is left of `g` when only the nodes that lead to an output stay. -/
structure Clears (g g' : Graph) : Prop where
  wellFormed : g'.WellFormed
  finalized : g'.finalized = g.finalized
  idBound_eq : g'.idBound = g.idBound
  kind?_iff : ∀ id k, g'.kind? id = some k ↔ g.kind? id = some k ∧ g.Leads id
  linkAt_iff : ∀ r o, g'.linkAt r = some o ↔ g.linkAt r = some o ∧ g.Leads r.node

theorem IsOutput.leads {id : NodeId} (h : g.IsOutput id) : g.Leads id := ⟨id, h, .refl⟩

theorem Leads.of_reflTransGen {a b : NodeId} (h : g.Leads b) (hab : ReflTransGen g.Feeds a b) :
    g.Leads a := by
  obtain ⟨root, hroot, hp⟩ := h
  exact ⟨root, hroot, hab.trans hp⟩

namespace Clears

variable (h : g.Clears g')
include h

theorem kind?_of_leads {id : NodeId} (hid : g.Leads id) : g'.kind? id = g.kind? id := by
  refine Option.ext fun k => ?_
  rw [h.kind?_iff, and_iff_left hid]

theorem linkAt_of_leads {r : InputRef} (hr : g.Leads r.node) : g'.linkAt r = g.linkAt r := by
  refine Option.ext fun o => ?_
  rw [h.linkAt_iff, and_iff_left hr]

/-- What leads to an output still does. -/
theorem reflTransGen {a b : NodeId} (hb : g.Leads b) (hab : ReflTransGen g.Feeds a b) :
    ReflTransGen g'.Feeds a b := by
  induction hab using ReflTransGen.head_induction_on with
  | refl => rfl
  | head hac hcb ih =>
    obtain ⟨r, o, hl, rfl, rfl⟩ := hac
    exact .head ⟨r, o, (h.linkAt_iff r o).mpr ⟨hl, hb.of_reflTransGen hcb⟩, rfl, rfl⟩ ih

theorem leads {id : NodeId} (hid : id ∈ g'.ids) : g'.Leads id := by
  obtain ⟨k, hk⟩ := (g'.mem_ids_iff_kind?).mp hid
  obtain ⟨-, root, hroot, hp⟩ := (h.kind?_iff id k).mp hk
  refine ⟨root, ?_, h.reflTransGen hroot.leads hp⟩
  exact hroot.imp_right fun ⟨name, hname⟩ => ⟨name, (h.kind?_of_leads hroot.leads).trans hname⟩

end Clears

namespace Search

/-- A visited node leads to a root. -/
theorem rooted_mono {done' : List NodeId} {path' : Path} {id : NodeId}
    (h : ∃ root ∈ roots, ReflTransGen (g.Followed done path) id root)
    (hf : ∀ a b, g.Followed done path a b → g'.Followed done' path' a b) :
    ∃ root ∈ roots, ReflTransGen (g'.Followed done' path') id root := by
  obtain ⟨root, hroot, hr⟩ := h
  exact ⟨root, hroot, hr.lift (fun id => id) hf⟩

theorem nodup (h : g.Search roots unvisited path done) :
    (unvisited ++ (path.map (·.node) ++ done)).Nodup :=
  h.perm.nodup_iff.mpr (g.pairwise_ids.imp Nat.ne_of_lt)

theorem not_mem_unvisited (h : g.Search roots unvisited path done) {id : NodeId}
    (hid : id ∈ path.map (·.node)) : id ∉ unvisited := fun hu =>
  (List.nodup_append.mp h.nodup).2.2 id hu id (List.mem_append_left done hid) rfl

/-- When the path is empty, the search is done with all visited nodes. -/
theorem mem_done_iff (h : g.Search roots unvisited [] done) {id : NodeId} :
    id ∈ done ↔ id ∈ g.ids ∧ id ∉ unvisited := by
  have hmem := h.perm.mem_iff (a := id)
  rw [List.map_nil, List.nil_append, List.mem_append] at hmem
  refine ⟨fun hd => ⟨hmem.mp (Or.inr hd), fun hu => ?_⟩, fun ⟨hid, hu⟩ =>
    (hmem.mpr hid).resolve_left hu⟩
  exact (List.nodup_append.mp h.nodup).2.2 id hu id hd rfl

/-- The search leaves a node all of whose inputs it has looked at. -/
theorem finish {id : NodeId} (h : g.Search roots unvisited (⟨id, []⟩ :: rest) done) :
    g.Search roots unvisited rest (id :: done) where
  perm := by
    refine List.Perm.trans ?_ h.perm
    exact List.Perm.append_left _ List.perm_middle
  pending p hp := h.pending p (List.mem_cons_of_mem _ hp)
  sorted := by
    refine ⟨?_, h.sorted⟩
    rintro a ⟨⟨b, slot⟩, o, ho, rfl, rfl⟩
    exact (h.settled.1 slot o ho).resolve_left (by simp)
  settled := h.settled.2.mono (fun _ _ ho => ho) (List.subset_cons_self id done) (List.Subset.refl _)
  rooted j hj := by
    refine rooted_mono (h.rooted j ?_) ?_
    · simpa [or_left_comm] using hj
    · rintro a b ⟨slot, o, ho, ha, hb | ⟨p, hp, hpb, hs⟩⟩
      · exact ⟨slot, o, ho, ha, Or.inl (List.mem_cons_of_mem id hb)⟩
      · rcases List.mem_cons.mp hp with rfl | hp
        · exact ⟨slot, o, ho, ha, Or.inl (hpb ▸ List.mem_cons_self)⟩
        · exact ⟨slot, o, ho, ha, Or.inr ⟨p, hp, hpb, hs⟩⟩

/-- The node at the top of the path is nowhere else. -/
theorem top_unique {p : PathNode} (h : g.Search roots unvisited (p :: rest) done) :
    p.node ∉ done ∧ ∀ q ∈ rest, q.node ≠ p.node := by
  have hn := h.nodup.of_append_right
  rw [List.map_cons, List.cons_append, List.nodup_cons, List.mem_append, not_or] at hn
  exact ⟨hn.1.2, fun q hq heq => hn.1.1 (heq ▸ List.mem_map_of_mem hq)⟩

/-- The search turns to the next input, after the link of the present one was found to lead to a
node that is done, or was cut. -/
theorem advance {id : NodeId} {slot : Nat} {pending : List Nat} {T : InputRef → Prop}
    (h : g.Search roots unvisited (⟨id, slot :: pending⟩ :: rest) done) (ht : g.Trims T g')
    (hT : ∀ r, T r → r = ⟨id, slot⟩) (hs : ∀ o, g'.linkAt ⟨id, slot⟩ = some o → o.node ∈ done) :
    g'.Search roots unvisited (⟨id, pending⟩ :: rest) done := by
  have hl : ∀ r o, g'.linkAt r = some o → g.linkAt r = some o := fun r o ho => (ht.linkAt_some ho).1
  obtain ⟨hnd, hsub⟩ := h.pending _ List.mem_cons_self
  have hpend : ∀ id, g.pendingInputs id ⊆ g'.pendingInputs id := fun id slot' hs' => by
    rw [mem_pendingInputs] at hs' ⊢
    rwa [ht.inputDecl?_eq]
  refine ⟨ht.ids_eq ▸ h.perm, ?_, h.sorted.of_links hl, ⟨fun slot' o ho => ?_, ?_⟩, fun j hj => ?_⟩
  · intro p hp
    rcases List.mem_cons.mp hp with rfl | hp
    · exact ⟨hnd.of_cons, fun slot' hs' => hpend id (hsub (List.mem_cons_of_mem slot hs'))⟩
    · obtain ⟨hp₁, hp₂⟩ := h.pending p (List.mem_cons_of_mem _ hp)
      exact ⟨hp₁, fun slot' hs' => hpend p.node (hp₂ hs')⟩
  · by_cases heq : slot' = slot
    · exact Or.inr (hs o (heq ▸ ho))
    · exact (h.settled.1 slot' o (hl _ o ho)).imp_left fun hp => (List.mem_cons.mp hp).resolve_left heq
  · exact h.settled.2.mono hl (List.Subset.refl _) (List.Subset.refl _)
  · refine rooted_mono (h.rooted j hj) ?_
    -- the present input is none of those whose links were followed
    obtain ⟨hdone, hrest⟩ := h.top_unique
    rintro a b ⟨slot', o, ho, ha, hb⟩
    have hkept : (b = id → slot' ≠ slot) → g'.linkAt ⟨b, slot'⟩ = some o := by
      intro hne
      refine (ht.kept _ fun hTr => ?_).trans ho
      obtain ⟨hb', hs'⟩ := InputRef.mk.inj (hT _ hTr)
      exact hne hb' hs'
    rcases hb with hb | ⟨p, hp, rfl, hsp⟩
    · exact ⟨slot', o, hkept fun hid => absurd (hid ▸ hb) hdone, ha, Or.inl hb⟩
    · rcases List.mem_cons.mp hp with rfl | hp
      · refine ⟨slot', o, hkept fun _ hs' => hsp (hs' ▸ List.mem_cons_self), ha,
          Or.inr ⟨⟨id, pending⟩, by simp, rfl, fun hm => hsp (List.mem_cons_of_mem slot hm)⟩⟩
      · exact ⟨slot', o, hkept fun hid => absurd hid (hrest p hp), ha,
          Or.inr ⟨p, List.mem_cons_of_mem _ hp, rfl, hsp⟩⟩

/-- The search enters a node through an input of the node at the top of the path. -/
theorem descend {id : NodeId} {slot : Nat} {pending : List Nat} {o : OutputRef}
    (h : g.Search roots unvisited (⟨id, slot :: pending⟩ :: rest) done)
    (hl : g.linkAt ⟨id, slot⟩ = some o) (ho : o.node ∈ unvisited) :
    g.Search roots (unvisited.erase o.node)
      (⟨o.node, g.pendingInputs o.node⟩ :: ⟨id, pending⟩ :: rest) done := by
  obtain ⟨hnd, hsub⟩ := h.pending _ List.mem_cons_self
  have hf : ∀ a b, g.Followed done (⟨id, slot :: pending⟩ :: rest) a b →
      g.Followed done (⟨o.node, g.pendingInputs o.node⟩ :: ⟨id, pending⟩ :: rest) a b := by
    rintro a b ⟨slot', o', ho', ha, hb | ⟨p, hp, rfl, hsp⟩⟩
    · exact ⟨slot', o', ho', ha, Or.inl hb⟩
    · rcases List.mem_cons.mp hp with rfl | hp
      · exact ⟨slot', o', ho', ha, Or.inr ⟨⟨id, pending⟩, by simp, rfl,
          fun hm => hsp (List.mem_cons_of_mem slot hm)⟩⟩
      · exact ⟨slot', o', ho', ha, Or.inr ⟨p, by simp [hp], rfl, hsp⟩⟩
  refine ⟨?_, ?_, h.sorted, ⟨fun slot' o' ho' => Or.inl ?_, ?_, h.settled.2⟩, ?_⟩
  · refine List.Perm.trans ?_ h.perm
    refine List.perm_middle.trans ?_
    exact List.Perm.append_right _ (List.perm_cons_erase ho).symm
  · intro p hp
    rcases List.mem_cons.mp hp with rfl | hp
    · exact ⟨nodup_pendingInputs _, List.Subset.refl _⟩
    rcases List.mem_cons.mp hp with rfl | hp
    · exact ⟨hnd.of_cons, fun slot' hs' => hsub (List.mem_cons_of_mem slot hs')⟩
    · exact h.pending p (List.mem_cons_of_mem _ hp)
  · exact mem_pendingInputs.mpr (g.inputDecl?_of_linkAt ho')
  · intro slot' o' ho'
    by_cases heq : slot' = slot
    · rw [heq, hl, Option.some.injEq] at ho'
      exact Or.inr (ho' ▸ List.mem_cons_self)
    · rcases h.settled.1 slot' o' ho' with hp | hd
      · exact Or.inl ((List.mem_cons.mp hp).resolve_left heq)
      · exact Or.inr (List.mem_cons_of_mem _ hd)
  · intro j hj
    rw [List.map_cons, List.cons_append, List.mem_cons] at hj
    rcases hj with rfl | hj
    · -- the new node leads to a root through the node it was entered from
      obtain ⟨root, hroot, hr⟩ := rooted_mono (h.rooted id (by simp)) hf
      refine ⟨root, hroot, .head ⟨slot, o, hl, rfl, Or.inr ⟨⟨id, pending⟩, by simp, rfl, ?_⟩⟩ hr⟩
      exact (List.nodup_cons.mp hnd).1
    · exact rooted_mono (h.rooted j hj) hf

/-- The search starts from a root that it has not visited yet. -/
theorem start {root : NodeId} (h : g.Search roots unvisited [] done) (hroot : root ∈ roots)
    (hu : root ∈ unvisited) :
    g.Search roots (unvisited.erase root) [⟨root, g.pendingInputs root⟩] done := by
  refine ⟨?_, by simp [nodup_pendingInputs], h.sorted, ⟨fun slot o ho => Or.inl ?_, trivial⟩, ?_⟩
  · refine List.Perm.trans ?_ h.perm
    refine List.perm_middle.trans ?_
    exact List.Perm.append_right _ (List.perm_cons_erase hu).symm
  · exact mem_pendingInputs.mpr (g.inputDecl?_of_linkAt ho)
  · intro j hj
    rcases List.mem_cons.mp hj with rfl | hj
    · exact ⟨j, hroot, .refl⟩
    · refine rooted_mono (h.rooted j hj) ?_
      rintro a b ⟨slot, o, ho, ha, hb | ⟨p, hp, -⟩⟩
      · exact ⟨slot, o, ho, ha, Or.inl hb⟩
      · simp at hp

end Search

end Graph

namespace Edit

open Shading.Graph

variable {g : Graph} {roots : List NodeId} {inputs : NodeId → List Nat}

theorem ends_cutLink (hg : g.WellFormed) (hm : g.finalized = false) {t : InputRef} {s : OutputRef}
    (h : g.linkAt t = some s) : (cutLink t).Ends g fun _ => g.CutsLinks [t] := by
  obtain ⟨i, hi, -⟩ := Option.bind_eq_some_iff.mp h
  refine ends_ask_bind ((g.input_eq_ok).mpr hi) ?_
  refine Ends.bind (ends_disconnectInput_unlink hm h) fun _ g' hg' => ends_modify ?_
  have hname : i.name = ((g.inputDecl? t).map (·.name)).getD "" := by simp [inputDecl?, hi]
  rw [hg', hname]
  exact cutsLinks_unlink hg h

/-- A search goes on to its end. All that it cuts are links of cycles of the graph `g₀` it started
in. -/
theorem ends_searchCycles {g₀ g : Graph} {unvisited done : List NodeId} {path : Path}
    (hg : g.WellFormed) (hm : g.finalized = false) (hin : inputs = g.pendingInputs)
    (h : g.Search roots unvisited path done) (hc : g₀.Chain path)
    (hg₀ : ∀ r o, g.linkAt r = some o → g₀.linkAt r = some o) :
    (searchCycles inputs unvisited path).Ends g fun unvisited' g' =>
      (∃ cut, g.CutsLinks cut g' ∧ ∀ r ∈ cut, g₀.ClosesCycle unvisited' r) ∧ unvisited' ⊆ unvisited ∧
        ∃ done', g'.Search roots unvisited' [] done' := by
  rw [searchCycles.eq_def]
  match path, h, hc with
  | [], h, _ => exact ends_pure ⟨⟨[], .refl hg, by simp⟩, List.Subset.refl _, done, h⟩
  | ⟨id, []⟩ :: rest, h, hc => exact ends_searchCycles hg hm hin h.finish hc.tail hg₀
  | ⟨id, slot :: pending⟩ :: rest, h, hc =>
    obtain ⟨d, hd⟩ := mem_pendingInputs.mp ((h.pending _ List.mem_cons_self).2 List.mem_cons_self)
    refine ends_ask_bind ((g.linkOf_eq_ok).mpr ⟨by simp [hd], rfl⟩) ?_
    have hkeep : g.Trims (fun _ => False) g := .refl hg nofun
    cases hl : g.linkAt ⟨id, slot⟩ with
    | none => exact ends_searchCycles hg hm hin (h.advance hkeep nofun (by simp [hl])) hc.advance hg₀
    | some o =>
      dsimp only
      split_ifs with hon hu
      · refine Ends.bind (ends_cutLink hg hm hl) fun _ g' h' => ?_
        have ht := h'.trims
        refine (ends_searchCycles ht.wellFormed (ht.finalized.trans hm)
          (hin.trans ht.pendingInputs_eq.symm)
          (h.advance ht (fun r hr => List.mem_singleton.mp hr) (by simp [ht.cut _ List.mem_cons_self]))
          hc.advance fun r o ho => hg₀ r o (ht.linkAt_some ho).1).mono ?_
        rintro unvisited' g'' ⟨⟨cut, hcut, hcloses⟩, hsub, hrest⟩
        refine ⟨⟨_, h'.trans hcut, fun r hr => ?_⟩, hsub, hrest⟩
        rcases List.mem_append.mp hr with hr | hr
        · -- the source of the link is on the path, and so it is fed by the node at the top
          rw [List.mem_singleton.mp hr]
          have hmem := Path.contains_iff.mp hon
          obtain ⟨q, hq, hqo⟩ := List.mem_map.mp hmem
          have hpath := Chain.reflTransGen (p := ⟨id, pending⟩) hc.advance hq
          rw [hqo] at hpath
          refine ClosesCycle.mono ⟨⟨o, hg₀ _ o hl, hpath⟩, h.not_mem_unvisited (by simp), ?_⟩ hsub
          intro o' ho'
          rw [hg₀ _ o hl, Option.some.injEq] at ho'
          exact ho' ▸ h.not_mem_unvisited hmem
        · exact hcloses r hr
      · have hlt := Path.work_visit inputs hu
        refine (ends_searchCycles hg hm hin (hin ▸ h.descend hl hu)
          (List.isChain_cons_cons.mpr ⟨⟨_, o, hg₀ _ o hl, rfl, rfl⟩, hc.advance⟩) hg₀).mono ?_
        rintro unvisited' g' ⟨hcut, hsub, hrest⟩
        exact ⟨hcut, List.Subset.trans hsub List.erase_subset, hrest⟩
      · have hdone : o.node ∈ done := by
          have hmem := h.perm.mem_iff.mpr (hg.mem_ids_of_feeds ⟨_, o, hl, rfl, rfl⟩).1
          rw [List.mem_append, List.mem_append] at hmem
          exact (hmem.resolve_left hu).resolve_left fun hp => hon (Path.contains_iff.mpr hp)
        exact ends_searchCycles hg hm hin (h.advance hkeep nofun (by simpa [hl] using hdone))
          hc.advance hg₀
termination_by (Path.waiting inputs unvisited).work + path.work
decreasing_by
  all_goals
    simp only [Path.work, List.flatMap_cons, List.length_append, List.length_cons, List.flatMap_nil,
      List.length_nil] at *
    omega

theorem ends_searchRoot {g₀ : Graph} {root : NodeId} {unvisited done : List NodeId}
    (hg : g.WellFormed) (hm : g.finalized = false) (hin : inputs = g.pendingInputs)
    (h : g.Search roots unvisited [] done) (hroot : root ∈ roots)
    (hg₀ : ∀ r o, g.linkAt r = some o → g₀.linkAt r = some o) :
    (searchRoot inputs unvisited root).Ends g fun unvisited' g' =>
      (∃ cut, g.CutsLinks cut g' ∧ ∀ r ∈ cut, g₀.ClosesCycle unvisited' r) ∧ unvisited' ⊆ unvisited ∧
        root ∉ unvisited' ∧ ∃ done', g'.Search roots unvisited' [] done' := by
  unfold searchRoot
  split_ifs with hu
  · refine (ends_searchCycles hg hm hin (hin ▸ h.start hroot hu) (List.isChain_singleton _) hg₀).mono ?_
    rintro unvisited' g' ⟨hcut, hsub, hrest⟩
    refine ⟨hcut, List.Subset.trans hsub List.erase_subset, fun hr => ?_, hrest⟩
    exact h.nodup.of_append_left.not_mem_erase (hsub hr)
  · exact ends_pure ⟨⟨[], .refl hg, by simp⟩, List.Subset.refl _, hu, done, h⟩

/-- **Breaking cycles.** Only links of cycles are cut, between nodes that were visited. The visited
nodes have no cycle afterwards, and each of them leads to one of the outputs of the graph, which are
visited. -/
theorem ends_breakCycles (hg : g.WellFormed) (hm : g.finalized = false) :
    breakCycles.Ends g fun visited g' => ∃ cut unvisited done, g.CutsLinks cut g' ∧
      (∀ r ∈ cut, g.ClosesCycle unvisited r) ∧ g'.Sorted done ∧
        (∀ id, id ∈ done ↔ id ∈ g.ids ∧ id ∉ unvisited) ∧ (∀ id, id ∈ visited ↔ id ∈ done) ∧
        (∀ id, g.IsOutput id → id ∈ done) ∧ ∀ id ∈ done, g'.Leads id := by
  refine ends_get_bind ?_
  have hroots : ∀ id, id ∈ outputId :: (g.nodes.filter fun (_, n) => n.role = .aovOutput).map (·.1) ↔
      g.IsOutput id := fun _ => g.mem_outputs
  generalize hr : outputId :: (g.nodes.filter fun (_, n) => n.role = .aovOutput).map (·.1) = roots
    at hroots
  have hstart : g.Search roots g.ids [] [] :=
    ⟨by simp, by simp, trivial, trivial, by simp⟩
  dsimp only
  rw [hr]
  refine Ends.bind (ends_foldlM (fun rest unvisited g' =>
    (∃ cut, g.CutsLinks cut g' ∧ ∀ r ∈ cut, g.ClosesCycle unvisited r) ∧
      (∃ done, g'.Search roots unvisited [] done) ∧
      rest ⊆ roots ∧ ∀ root ∈ roots, root ∈ rest ∨ root ∉ unvisited)
    ⟨⟨[], .refl hg, by simp⟩, ⟨[], hstart⟩, List.Subset.refl _, fun _ h => Or.inl h⟩ ?_) ?_
  · rintro root rest unvisited g₁ ⟨⟨cut, hcut, hcloses⟩, ⟨done, hs⟩, hsub, hv⟩
    have ht := hcut.trims
    refine (ends_searchRoot ht.wellFormed (ht.finalized.trans hm) ht.pendingInputs_eq.symm hs
      (hsub List.mem_cons_self) fun r o ho => (ht.linkAt_some ho).1).mono ?_
    rintro unvisited' g₂ ⟨⟨cut', hcut', hcloses'⟩, hsub', hroot, hs'⟩
    refine ⟨⟨_, hcut.trans hcut', fun r hr => ?_⟩, hs',
      fun _ h => hsub (List.mem_cons_of_mem root h), ?_⟩
    · exact (List.mem_append.mp hr).elim (fun hr => (hcloses r hr).mono hsub') (hcloses' r)
    · intro root' hr'
      rcases hv root' hr' with h | h
      · rcases List.mem_cons.mp h with rfl | h
        · exact Or.inr hroot
        · exact Or.inl h
      · exact Or.inr fun hu => h (hsub' hu)
  · rintro unvisited g' ⟨⟨cut, hcut, hcloses⟩, ⟨done, hs⟩, -, hv⟩
    have hdone : ∀ id, id ∈ done ↔ id ∈ g.ids ∧ id ∉ unvisited := by
      intro id
      rw [hs.mem_done_iff, hcut.trims.ids_eq]
    refine ends_pure ⟨cut, unvisited, done, hcut, hcloses, hs.sorted, hdone, fun id => ?_,
      fun id hid => ?_, fun id hid => ?_⟩
    · rw [hdone, List.mem_filter, decide_eq_true_eq]
    · refine (hdone id).mpr ⟨hid.mem_ids hg, ?_⟩
      exact (hv id ((hroots id).mpr hid)).resolve_left (by simp)
    · obtain ⟨root, hroot, hreach⟩ := hs.rooted id (by simpa using hid)
      refine ⟨root, hcut.trims.isOutput_iff.mpr ((hroots root).mp hroot), hreach.lift (fun id => id) ?_⟩
      rintro a b ⟨slot, o, ho, ha, -⟩
      exact ⟨⟨b, slot⟩, o, ho, ha, rfl⟩

/-- **Removing what was not visited.** If no visited node is fed by another one, the nodes that are
left are those that lead to an output, with all of their links, and they have no cycle. -/
theorem ends_removeUnreachable {visited : NodeSet} {done : List NodeId} (hg : g.WellFormed)
    (hm : g.finalized = false) (hs : g.Sorted done) (hv : ∀ id, id ∈ visited ↔ id ∈ done)
    (hout : ∀ id, g.IsOutput id → id ∈ done) (hreach : ∀ id ∈ done, g.Leads id) :
    (removeUnreachable visited).Ends g fun _ g' => g'.Acyclic ∧ g.Clears g' := by
  refine ends_get_bind (Ends.bind (ends_removeNodes hg hm _) fun _ g' hr => ends_pure ?_)
  have hclosed : ∀ id, g.Leads id → id ∈ done := by
    rintro id ⟨root, hroot, hp⟩
    induction hp using ReflTransGen.head_induction_on with
    | refl => exact hout root hroot
    | head hab _ ih => exact hs.closed ih hab
  -- a node stays if and only if it leads to an output
  have hdead : ∀ id ∈ g.ids, (id ≠ outputId ∧
      id ∈ g.ids.filter fun id => id ≠ outputId && id ∉ visited) ↔ ¬ g.Leads id := by
    intro id hid
    have hne : ¬ g.Leads id → id ≠ outputId := fun hn heq => hn (heq ▸ ⟨_, Or.inl rfl, .refl⟩)
    have hiff : id ∈ done ↔ g.Leads id := ⟨hreach id, hclosed id⟩
    simp only [List.mem_filter, Bool.and_eq_true, decide_eq_true_eq, hv, hiff]
    tauto
  have hclears : g.Clears g' := by
    refine ⟨hr.wellFormed, hr.finalized, hr.idBound_eq, fun id k => ?_, fun r o => ?_⟩
    · have hids : g.kind? id = some k → id ∈ g.ids := fun hk => (g.mem_ids_iff_kind?).mpr ⟨k, hk⟩
      rw [hr.kind?_eq]
      constructor
      · intro hk
        split_ifs at hk with hd
        exact ⟨hk, not_not.mp (mt (hdead id (hids hk)).mpr hd)⟩
      · rintro ⟨hk, hl⟩
        rw [if_neg fun hd => (hdead id (hids hk)).mp hd hl, hk]
    · rw [hr.linkAt_iff]
      refine and_congr_right fun hl => ?_
      have hab : g.Feeds o.node r.node := ⟨r, o, hl, rfl, rfl⟩
      obtain ⟨ha, hb⟩ := hg.mem_ids_of_feeds hab
      rw [hdead _ ha, hdead _ hb, not_not, not_not]
      refine and_iff_left_of_imp fun ⟨root, hroot, hp⟩ => ⟨root, hroot, .head hab hp⟩
  refine ⟨acyclic_of_acc fun id => ?_, hclears⟩
  by_cases hid : g.Leads id
  · refine Subrelation.accessible ?_ (hs.acc id (hclosed id hid))
    rintro a b ⟨r, o, hl, ha, hb⟩
    exact ⟨r, o, ((hclears.linkAt_iff r o).mp hl).1, ha, hb⟩
  · refine ⟨id, ?_⟩
    rintro a ⟨r, o, hl, -, rfl⟩
    exact absurd ((hclears.linkAt_iff r o).mp hl).2 hid

/-- **Cuts of a search for cycles.** The search cuts links of cycles only, reports each of them, and
leaves all else as it is; there is nothing to cut if no cycle leads to an output. The visited nodes are
those that lead to an output, before the cuts and afterwards. -/
theorem breakCycles_exact (g : Graph) (hg : g.WellFormed) (hm : g.finalized = false) :
    ∃ visited g' cut, breakCycles.run g = .ok visited g' ∧ g' = g.cutAt cut ∧ cut.Nodup ∧
      (∀ r ∈ cut, g.Cyclic r) ∧
      ((∀ id, g.Leads id → ¬ TransGen g.Feeds id id) → g' = g) ∧
      (∀ id, id ∈ visited ↔ g.Leads id) ∧ ∀ id, id ∈ visited ↔ g'.Leads id := by
  obtain ⟨visited, g', hrun, cut, unvisited, done, hcuts, hcloses, hs, hdone, hv, hout, hreach⟩ :=
    ends_iff.mp (ends_breakCycles hg hm)
  have hback : ∀ id, g'.Leads id → g.Leads id := by
    rintro id ⟨root, hroot, hp⟩
    refine ⟨root, hcuts.trims.isOutput_iff.mp hroot, hp.lift (fun id => id) ?_⟩
    rintro a b ⟨r, o, ho, ha, hb⟩
    exact ⟨r, o, (hcuts.trims.linkAt_some ho).1, ha, hb⟩
  -- a link that is cut has a visited source, and any other link is still there
  have hall : ∀ id, g.Leads id → id ∈ done := by
    rintro id ⟨root, hroot, hp⟩
    induction hp using ReflTransGen.head_induction_on with
    | refl => exact hout root hroot
    | head hab _ ih =>
      obtain ⟨r, o, ho, rfl, rfl⟩ := hab
      by_cases hr : r ∈ cut
      · exact (hdone _).mpr ⟨(hg.mem_ids_of_feeds (feeds_of_linkAt ho)).1, (hcloses r hr).source o ho⟩
      · exact hs.closed ih ⟨r, o, (hcuts.trims.kept r hr).trans ho, rfl, rfl⟩
  refine ⟨visited, g', cut, hrun, hcuts.eq_cutAt, hcuts.nodup, fun r hr => (hcloses r hr).cyclic,
    fun hcyc => ?_, fun id => ?_, fun id => ?_⟩
  · have hnil : cut = [] := by
      refine List.eq_nil_iff_forall_not_mem.mpr fun r hr => ?_
      obtain ⟨o, ho, hp⟩ := (hcloses r hr).cyclic
      have hids := (hg.mem_ids_of_feeds (feeds_of_linkAt ho)).2
      have hleads := hback _ (hreach _ ((hdone r.node).mpr ⟨hids, (hcloses r hr).target⟩))
      exact hcyc _ hleads (.tail' hp (feeds_of_linkAt ho))
    rw [hcuts.eq_cutAt, hnil, cutAt_nil]
  · rw [hv]
    exact ⟨fun hid => hback id (hreach id hid), hall id⟩
  · rw [hv]
    exact ⟨hreach id, fun hid => hall id (hback id hid)⟩

/-- Two numbers that depend on each other. One of them is given to an AOV output. -/
def entangledNumbers : Graph :=
  Primitive.runAll [.addKind (.math .add false), .addKind (.math .add false),
    .addKind (.aovOutput "sum"), .connect ⟨1, 0⟩ ⟨2, 0⟩, .connect ⟨2, 0⟩ ⟨1, 0⟩,
    .connect ⟨2, 0⟩ ⟨3, 1⟩] Graph.empty

theorem breakCycles_exact_entangledNumbers :
    entangledNumbers.WellFormed ∧ entangledNumbers.finalized = false ∧
      ∃ visited g' cut, breakCycles.run entangledNumbers = .ok visited g' ∧
        g' = entangledNumbers.cutAt cut ∧ cut ≠ [] ∧ (∀ r ∈ cut, entangledNumbers.Cyclic r) ∧
        visited = [0, 1, 2, 3] ∧ ∀ id, id ∈ visited ↔ g'.Leads id := by
  have hg : entangledNumbers.WellFormed := (Primitive.follows_runAll wellFormed_empty _).wellFormed
  have hends : breakCycles.Ends entangledNumbers fun visited g' =>
      visited = [0, 1, 2, 3] ∧ g'.diagnostics = [.cycleBroken 1 "Value1"] := by
    decide +kernel
  obtain ⟨visited, g', cut, hrun, hcut, -, hcyc, -, -, hleads⟩ :=
    breakCycles_exact entangledNumbers hg (by decide)
  obtain ⟨_, _, hrun', hv, hd⟩ := ends_iff.mp hends
  rw [hrun, EStateM.Result.ok.injEq] at hrun'
  obtain ⟨rfl, rfl⟩ := hrun'
  refine ⟨hg, by decide, visited, g', cut, hrun, hcut, ?_, hcyc, hv, hleads⟩
  rintro rfl
  have hnone : entangledNumbers.diagnostics = [] := by decide
  rw [hcut, cutAt_nil, hnone] at hd
  cases hd

end Edit

end Shading
