import Mathlib.Data.Finset.Card
import Mathlib.Logic.Relation
import Mathlib.Order.Interval.Finset.Nat
import Shading.Proofs.WellFormed
import Shading.Traverse.Worklist

/-!
# Graphs without cycles

Links make a relation between nodes. A well-formed graph has no cycle if and only if its nodes can
be numbered along the links (`WellFormed.acyclic_iff_ranked`), and then the worklist hands out all
of them (`WellFormed.isAcyclic_of_acyclic`). -/

namespace Shading

open Relation

namespace Graph

/-- The node `a` feeds the node `b`: an input of `b` is linked to an output of `a`. -/
def Feeds (g : Graph) (a b : NodeId) : Prop :=
  ∃ r o, g.linkAt r = some o ∧ o.node = a ∧ r.node = b

/-- No node can be reached from itself along links. -/
def Acyclic (g : Graph) : Prop := ∀ id, ¬ TransGen g.Feeds id id

/-- Nothing is linked to the outputs of a node. -/
def Unused (g : Graph) (x : NodeId) : Prop := ∀ r o, g.linkAt r = some o → o.node ≠ x

/-- A numbering of the nodes that grows along links. -/
def Ranked (g : Graph) (rank : NodeId → Nat) : Prop := ∀ a b, g.Feeds a b → rank a < rank b

open Classical in
/-- The number of nodes that a node depends on. -/
noncomputable def depth (g : Graph) (b : NodeId) : Nat :=
  ((Finset.range g.idBound).filter (TransGen g.Feeds · b)).card

variable {g : Graph}

theorem feeds_of_linkAt {r : InputRef} {o : OutputRef} (h : g.linkAt r = some o) :
    g.Feeds o.node r.node := ⟨r, o, h, rfl, rfl⟩

theorem Ranked.acyclic {rank : NodeId → Nat} (h : g.Ranked rank) : g.Acyclic := by
  have hlt : ∀ a b, TransGen g.Feeds a b → rank a < rank b := by
    intro a b hab
    induction hab with
    | single hab => exact h _ _ hab
    | tail _ hbc ih => exact Nat.lt_trans ih (h _ _ hbc)
  exact fun id hid => Nat.lt_irrefl _ (hlt id id hid)

/-- Where links cannot be followed backwards forever, there is no cycle. -/
theorem not_transGen_of_acc {id : NodeId} (h : Acc g.Feeds id) : ¬ TransGen g.Feeds id id := by
  replace h := h.transGen
  induction h with
  | intro id _ ih => exact fun hid => ih id hid hid

theorem acyclic_of_acc (h : ∀ id, Acc g.Feeds id) : g.Acyclic := fun id => not_transGen_of_acc (h id)

theorem Acyclic.of_links {g' : Graph} (h : g.Acyclic)
    (hl : ∀ r o, g'.linkAt r = some o → g.linkAt r = some o) : g'.Acyclic := by
  intro id hid
  refine h id (hid.lift (fun id => id) ?_)
  rintro a b ⟨r, o, hr, ha, hb⟩
  exact ⟨r, o, hl r o hr, ha, hb⟩

namespace WellFormed

variable (hg : g.WellFormed)
include hg

theorem mem_ids_of_feeds {a b : NodeId} (h : g.Feeds a b) : a ∈ g.ids ∧ b ∈ g.ids := by
  obtain ⟨r, o, hl, rfl, rfl⟩ := h
  obtain ⟨d, hd⟩ := g.inputDecl?_of_linkAt hl
  obtain ⟨e, he⟩ := hg.exists_output hl
  exact ⟨(g.mem_ids_iff_kind?).mpr (g.kind?_of_outputDecl? he),
    (g.mem_ids_iff_kind?).mpr (g.kind?_of_inputDecl? hd)⟩

/-- The output node has no outputs. -/
theorem node_ne_outputId {o : OutputRef} {e : OutputDecl} (ho : g.outputDecl? o = some e) :
    o.node ≠ outputId := by
  intro hnode
  have hnone : g.outputDecl? ⟨o.node, o.slot⟩ = none :=
    hg.outputDecl?_eq (hnode ▸ hg.kind?_output) o.slot
  rw [ho] at hnone
  cases hnone

/-- The output feeds nothing. -/
theorem ne_outputId_of_feeds {a b : NodeId} (h : g.Feeds a b) : a ≠ outputId := by
  obtain ⟨r, o, hl, rfl, -⟩ := h
  obtain ⟨e, he⟩ := hg.exists_output hl
  exact hg.node_ne_outputId he

/-- A node depends on fewer nodes than one that it feeds, unless it depends on itself. -/
theorem depth_lt_depth {a b : NodeId} (hab : g.Feeds a b) (ha : ¬ TransGen g.Feeds a a) :
    g.depth a < g.depth b := by
  classical
  refine Finset.card_lt_card (Finset.ssubset_iff_of_subset ?_ |>.mpr ⟨a, ?_, ?_⟩)
  · intro c hc
    rw [Finset.mem_filter] at hc ⊢
    exact ⟨hc.1, hc.2.tail hab⟩
  · rw [Finset.mem_filter, Finset.mem_range]
    exact ⟨g.lt_idBound_of_mem (hg.mem_ids_of_feeds hab).1, .single hab⟩
  · rw [Finset.mem_filter]
    exact fun ha' => ha ha'.2

theorem acyclic_iff_ranked : g.Acyclic ↔ ∃ rank, g.Ranked rank :=
  ⟨fun h => ⟨g.depth, fun a _ hab => hg.depth_lt_depth hab (h a)⟩, fun ⟨_, h⟩ => h.acyclic⟩

/-- From a node that no cycle leads to, links cannot be followed backwards forever. -/
theorem acc_of_no_cycle {x : NodeId}
    (h : ∀ a, ReflTransGen g.Feeds a x → ¬ TransGen g.Feeds a a) : Acc g.Feeds x := by
  induction hn : g.depth x using Nat.strongRecOn generalizing x with
  | ind n ih =>
    refine ⟨x, fun a ha => ?_⟩
    refine ih (g.depth a) (hn ▸ hg.depth_lt_depth ha (h a (.single ha))) (fun c hc => ?_) rfl
    exact h c (hc.tail ha)

theorem acc_of_acyclic (h : g.Acyclic) (x : NodeId) : Acc g.Feeds x :=
  hg.acc_of_no_cycle fun a _ => h a

end WellFormed

theorem mem_feeders {a b : NodeId} : a ∈ g.feeders b ↔ g.Feeds a b := by
  unfold feeders Feeds
  constructor
  · intro h
    cases hn : g.node? b with
    | none => simp [hn] at h
    | some n =>
      simp only [hn, Node.links, List.mem_map, List.mem_filterMap] at h
      obtain ⟨o, ⟨i, hi, ho⟩, rfl⟩ := h
      obtain ⟨slot, hslot, rfl⟩ := List.getElem_of_mem hi
      exact ⟨⟨b, slot⟩, o, by simpa [linkAt, input?, hn, hslot] using ho, rfl, rfl⟩
  · rintro ⟨r, o, hl, rfl, rfl⟩
    obtain ⟨i, hi, ho⟩ := Option.bind_eq_some_iff.mp hl
    obtain ⟨n, hn, hi⟩ := Option.bind_eq_some_iff.mp hi
    simp only [hn, Node.links, List.mem_map, List.mem_filterMap]
    exact ⟨o, ⟨i, List.mem_of_getElem? hi, ho⟩, rfl⟩

theorem mem_consumers_iff {a : NodeId} {r : InputRef} :
    r ∈ g.consumers a ↔ ∃ slot, r ∈ g.fanOut ⟨a, slot⟩ := by
  cases hn : g.node? a with
  | none => simp [consumers, fanOut, output?, hn]
  | some n =>
    simp only [consumers, fanOut, output?, hn, List.mem_flatMap, Option.bind_some]
    constructor
    · rintro ⟨o, ho, hr⟩
      obtain ⟨slot, hslot, rfl⟩ := List.getElem_of_mem ho
      exact ⟨slot, by simpa [hslot] using hr⟩
    · rintro ⟨slot, hr⟩
      cases ho : n.outputs[slot]? with
      | none => simp [ho] at hr
      | some o => exact ⟨o, List.mem_of_getElem? ho, by simpa [ho] using hr⟩

theorem ranked_of_feeders (hg : g.WellFormed) (rank : NodeId → Nat)
    (h : ∀ b ∈ g.ids, ∀ a ∈ g.feeders b, rank a < rank b) : g.Ranked rank :=
  fun a b hab => h b (hg.mem_ids_of_feeds hab).2 a (mem_feeders.mpr hab)

theorem WellFormed.mem_consumers (hg : g.WellFormed) {a b : NodeId} :
    b ∈ (g.consumers a).map (·.node) ↔ g.Feeds a b := by
  simp only [List.mem_map, mem_consumers_iff, ← hg.link_iff, Feeds]
  constructor
  · rintro ⟨r, ⟨slot, hl⟩, rfl⟩
    exact ⟨r, _, hl, rfl, rfl⟩
  · rintro ⟨r, o, hl, rfl, rfl⟩
    exact ⟨r, ⟨o.slot, hl⟩, rfl⟩

end Graph

namespace Worklist

open Shading.Graph

variable {g : Graph}

/-! ### What is on a worklist -/

/-- Everything that a worklist may hand out is a node of the graph. -/
def Within (g : Graph) (w : Worklist) : Prop := ∀ id, id ∈ w.queue ∨ id ∈ w.waiting → id ∈ g.ids

theorem within_ofGraph (g : Graph) : (ofGraph g).Within g := by
  rintro id (h | h)
  all_goals
    obtain ⟨⟨_, n⟩, hn, rfl⟩ := List.mem_map.mp h
    have hn' := (g.mem_nodes).mp (List.mem_filter.mp hn).1
    exact (g.mem_ids_iff_kind?).mpr ⟨n.kind, by simp [kind?, hn']⟩

/-- The node that is handed out was the first one of all. -/
theorem queue_append_of_next? {w w' : Worklist} {x : NodeId} (hx : w.next? = some (x, w')) :
    w.queue ++ w.waiting = x :: (w'.queue ++ w'.waiting) := by
  unfold next? at hx
  split at hx
  · cases hx
  · rename_i hq
    cases hx
    rw [hq, List.cons_append]

theorem Within.next {w w' : Worklist} {x : NodeId} (h : w.Within g) (hx : w.next? = some (x, w')) :
    x ∈ g.ids ∧ w'.Within g := by
  unfold next? at hx
  split at hx
  · cases hx
  rename_i rest hq
  cases hx
  rw [Within, hq] at h
  exact ⟨h x (Or.inl List.mem_cons_self), fun id hid =>
    h id (hid.imp_left (List.mem_cons_of_mem x))⟩

theorem Within.scheduleConsumers {w : Worklist} (h : w.Within g) (g' : Graph) (x : NodeId) :
    (w.scheduleConsumers g' x).Within g := by
  unfold Worklist.scheduleConsumers
  induction (g'.consumers x).map (·.node) generalizing w with
  | nil => exact h
  | cons c cs ih =>
    refine ih ?_
    unfold schedule
    split_ifs with hc
    · rintro id (hid | hid)
      · rcases List.mem_append.mp hid with hid | hid
        · exact h id (Or.inl hid)
        · exact h id (Or.inr (List.mem_singleton.mp hid ▸ hc.1))
      · exact h id (Or.inr (List.erase_subset hid))
    · exact h

theorem Within.mono {w : Worklist} {g' : Graph} (h : w.Within g) (hsub : g.ids ⊆ g'.ids) :
    w.Within g' := fun id hid => hsub (h id hid)

/-! ### All nodes are handed out -/

/-- What holds of a worklist between two nodes that it hands out: the nodes in `S` are on it, and
each node that waits has a reason to. -/
structure Sound (S : Set NodeId) (g : Graph) (w : Worklist) : Prop where
  cover : ∀ id ∈ S, id ∈ w.queue ∨ id ∈ w.waiting ∨ id ∈ w.done
  nodup : (w.queue ++ w.waiting).Nodup
  blocked : ∀ id ∈ w.waiting, w.isReady g id = false

theorem sound_ofGraph (g : Graph) : (ofGraph g).Sound {id | id ∈ g.ids} g := by
  refine ⟨fun id hid => ?_, ?_, fun id hid => ?_⟩
  · obtain ⟨n, hn⟩ := Option.isSome_iff_exists.mp ((g.mem_ids).mp hid)
    have hm : (id, n) ∈ g.nodes := (g.mem_nodes).mpr hn
    simp only [ofGraph, List.mem_map, List.mem_filter, Prod.exists, exists_and_right, exists_eq_right]
    by_cases hl : n.hasLinkedInput
    · exact Or.inr (Or.inl ⟨n, hm, hl⟩)
    · exact Or.inl ⟨n, hm, by simpa using hl⟩
  · have h : (g.nodes.map (·.1)).Nodup := by
      rw [List.Nodup, List.pairwise_map]
      exact g.pairwise_nodes.imp Nat.ne_of_lt
    have hperm := List.filter_append_perm (fun p : NodeId × Node => !p.2.hasLinkedInput) g.nodes
    simp only [Bool.not_not] at hperm
    rw [ofGraph, ← List.map_append]
    exact (hperm.map _).nodup_iff.mpr h
  · simp only [ofGraph, List.mem_map, List.mem_filter, Prod.exists, exists_and_right, exists_eq_right,
      mem_nodes] at hid
    obtain ⟨n, hn, hl⟩ := hid
    obtain ⟨i, hi, hlink⟩ := List.any_eq_true.mp hl
    obtain ⟨o, ho⟩ := Option.isSome_iff_exists.mp hlink
    have hmem : o.node ∈ g.feeders id := by
      simp only [feeders, hn, Node.links, List.mem_map, List.mem_filterMap]
      exact ⟨o, ⟨i, hi, ho⟩, rfl⟩
    exact List.all_eq_false.mpr ⟨o.node, hmem, by simp [ofGraph]⟩

theorem Sound.mono {S S' : Set NodeId} {w : Worklist} (h : w.Sound S g) (hS : S' ⊆ S) :
    w.Sound S' g := { h with cover := fun id hid => h.cover id (hS hid) }

/-- Scheduling moves nodes from the waiting list to the queue. -/
structure Moves (w w' : Worklist) : Prop where
  done_eq : w'.done = w.done
  perm : (w'.queue ++ w'.waiting).Perm (w.queue ++ w.waiting)
  subset : w'.waiting ⊆ w.waiting

theorem Moves.refl (w : Worklist) : w.Moves w := ⟨rfl, .refl _, List.Subset.refl _⟩

theorem Moves.trans {w₁ w₂ w₃ : Worklist} (h : w₁.Moves w₂) (h' : w₂.Moves w₃) : w₁.Moves w₃ :=
  ⟨h'.done_eq.trans h.done_eq, h'.perm.trans h.perm, List.Subset.trans h'.subset h.subset⟩

theorem moves_schedule (g : Graph) {w : Worklist} (hw : (w.queue ++ w.waiting).Nodup) (c : NodeId) :
    w.Moves (schedule g w c) ∧ (c ∈ (schedule g w c).waiting → w.isReady g c = false) := by
  unfold schedule
  split_ifs with hc
  · refine ⟨⟨rfl, ?_, List.erase_subset⟩, fun h => absurd h hw.of_append_right.not_mem_erase⟩
    rw [List.append_assoc, List.singleton_append]
    exact (List.perm_cons_erase hc.1).symm.append_left _
  · exact ⟨.refl w, fun h => Bool.eq_false_iff.mpr fun hr => hc ⟨h, hr⟩⟩

/-- No scheduled node that is ready waits any longer. -/
theorem moves_foldl_schedule (g : Graph) (cs : List NodeId) {w : Worklist}
    (hw : (w.queue ++ w.waiting).Nodup) :
    w.Moves (cs.foldl (schedule g) w) ∧
      ∀ c ∈ cs, c ∈ (cs.foldl (schedule g) w).waiting → w.isReady g c = false := by
  induction cs generalizing w with
  | nil => exact ⟨.refl w, by simp⟩
  | cons c cs ih =>
    rw [List.foldl_cons]
    obtain ⟨h₁, hc⟩ := moves_schedule g hw c
    obtain ⟨h₂, hcs⟩ := ih (h₁.perm.nodup_iff.mpr hw)
    refine ⟨h₁.trans h₂, fun c' hc' hw' => ?_⟩
    rcases List.mem_cons.mp hc' with rfl | hc'
    · exact hc (h₂.subset hw')
    · have h := hcs c' hc' hw'
      rw [isReady, h₁.done_eq] at h
      exact h

/-- Handing out a node and scheduling its consumers keeps the worklist sound: a node that has become
ready is one of these consumers. The node itself does not wait. -/
theorem Sound.next {S : Set NodeId} {w w' : Worklist} {x : NodeId} (hg : g.WellFormed)
    (h : w.Sound S g) (hx : w.next? = some (x, w')) :
    (w'.scheduleConsumers g x).Sound S g ∧ (w'.scheduleConsumers g x).done = x :: w.done ∧
      x ∉ (w'.scheduleConsumers g x).waiting := by
  unfold next? at hx
  split at hx
  · cases hx
  rename_i rest hq
  cases hx
  have hnd := h.nodup
  rw [hq, List.cons_append, List.nodup_cons] at hnd
  obtain ⟨hm, hready⟩ := moves_foldl_schedule g ((g.consumers x).map (·.node))
    (w := { w with queue := rest, done := x :: w.done }) hnd.2
  refine ⟨⟨fun id hid => ?_, hm.perm.nodup_iff.mpr hnd.2, fun id hid => ?_⟩, hm.done_eq,
    fun hwait => hnd.1 (List.mem_append_right _ (hm.subset hwait))⟩
  · have hc := h.cover id hid
    rw [hq, List.mem_cons] at hc
    rw [scheduleConsumers, ← or_assoc, ← List.mem_append, hm.perm.mem_iff, hm.done_eq,
      List.mem_append, List.mem_cons]
    tauto
  · unfold isReady
    rw [scheduleConsumers, hm.done_eq]
    by_cases hc : id ∈ (g.consumers x).map (·.node)
    · exact hready id hc hid
    · -- `x` does not feed this node, so it is still blocked by another one
      obtain ⟨f, hf, hnd⟩ := List.all_eq_false.mp (h.blocked id (hm.subset hid))
      refine List.all_eq_false.mpr ⟨f, hf, ?_⟩
      have hfx : f ≠ x := fun hfx => hc (hg.mem_consumers.mpr (mem_feeders.mp (hfx ▸ hf)))
      simpa [hfx] using hnd

/-- When the queue is empty, all nodes of `S` are done from which links cannot be followed backwards
forever: what blocks such a node is in `S` and would have to be blocked as well. -/
theorem Sound.mem_done {S : Set NodeId} {w : Worklist} (h : w.Sound S g)
    (hS : ∀ a b, g.Feeds a b → b ∈ S → a ∈ S) (hq : w.queue = []) {id : NodeId} (hid : id ∈ S)
    (hacc : Acc g.Feeds id) : id ∈ w.done := by
  induction hacc with
  | intro id _ ih =>
    rcases h.cover id hid with hc | hc | hc
    · simp [hq] at hc
    · obtain ⟨f, hf, hnd⟩ := List.all_eq_false.mp (h.blocked id hc)
      have hfeeds := mem_feeders.mp hf
      simp [ih f hfeeds (hS f id hfeeds hid)] at hnd
    · exact hc

theorem queue_eq_nil_of_next? {w : Worklist} (h : w.next? = none) : w.queue = [] := by
  unfold next? at h
  split at h
  · assumption
  · cases h

/-- Every node is handed out from which links cannot be followed backwards forever. -/
theorem Sound.mem_drain {w : Worklist} (hg : g.WellFormed) (h : w.Sound {id | id ∈ g.ids} g)
    {id : NodeId} (hid : id ∈ g.ids) (hacc : Acc g.Feeds id) : id ∈ w.done ∨ id ∈ drain g w := by
  unfold drain
  split
  · rename_i hnone
    refine Or.inl (h.mem_done (fun a b hab _ => ?_) (queue_eq_nil_of_next? hnone) hid hacc)
    exact (hg.mem_ids_of_feeds hab).1
  · rename_i x w' hx
    obtain ⟨h', hdone, -⟩ := h.next hg hx
    have hsize := size_next? hx
    rcases mem_drain hg h' hid hacc with hd | hd
    · rw [hdone, List.mem_cons] at hd
      rcases hd with rfl | hd
      · exact Or.inr List.mem_cons_self
      · exact Or.inl hd
    · exact Or.inr (List.mem_cons_of_mem x hd)
termination_by w.size
decreasing_by
  rw [size_scheduleConsumers]
  omega

end Worklist

/-- A graph without cycles passes the test for cycles. -/
theorem Graph.WellFormed.isAcyclic_of_acyclic {g : Graph} (hg : g.WellFormed) (h : g.Acyclic) :
    g.isAcyclic = true := by
  refine List.all_eq_true.mpr fun id hid => ?_
  rcases (Worklist.sound_ofGraph g).mem_drain hg hid (hg.acc_of_acyclic h id) with hd | hd
  · simp [Worklist.ofGraph] at hd
  · exact decide_eq_true hd

end Shading
