import Mathlib.Data.List.Nodup
import Shading.Proofs.Rewiring

/-!
# What is left without some nodes

To remove nodes is to restrict a graph to the others (`Restricts`). Those keep their order and all
that is not about links, a link is left if and only if both its ends are, and an output lists the
consumers that are left in the order in which it listed all of them.

The links of the nodes are cut one after another. What this does to the lists of consumers is said
without the order in which it is done (`Thins`): the lists get shorter. Which consumers are left
follows from the links. -/

namespace Shading

/-- A part of a list, in the same order, is determined by its elements. -/
theorem eq_filter_of_sublist {α : Type} {l l' : List α} {p : α → Bool} (h : l'.Sublist l)
    (hl : l.Nodup) (hmem : ∀ a, a ∈ l' ↔ a ∈ l ∧ p a = true) : l' = l.filter p := by
  have hall : l'.filter p = l' := List.filter_eq_self.mpr fun a ha => ((hmem a).mp ha).2
  have hsub : l'.Sublist (l.filter p) := hall ▸ h.filter p
  have hperm : l'.Perm (l.filter p) :=
    (List.perm_ext_iff_of_nodup (hl.sublist h) (hl.filter p)).mpr fun a => by
      rw [hmem, List.mem_filter]
  exact hsub.eq_of_length hperm.length_eq

namespace Graph

variable {g g' : Graph} {ids : List NodeId}

/-- A node is left when some nodes are removed. The output node is left in any case. -/
def Survives (ids : List NodeId) (id : NodeId) : Prop := id = outputId ∨ id ∉ ids

instance : DecidablePred (Survives ids) := fun _ => inferInstanceAs (Decidable (_ ∨ _))

theorem not_removed_iff {id : NodeId} : ¬ (id ≠ outputId ∧ id ∈ ids) ↔ Survives ids id := by
  rw [not_and_or, not_not, Survives]

/-- Links are cut, and nothing else changes. The consumers that are left are in the same order. -/
structure Thins (g g' : Graph) : Prop where
  diagnostics_eq : g'.diagnostics = g.diagnostics
  bare?_eq : ∀ id, g'.bare? id = g.bare? id
  sublist : ∀ o, (g'.fanOut o).Sublist (g.fanOut o)

/-- `g'` is the part of `g` that is left without some nodes. -/
structure Restricts (ids : List NodeId) (g g' : Graph) : Prop where
  idBound_eq : g'.idBound = g.idBound
  ids_eq : g'.ids = g.ids.filter (Survives ids ·)
  /-- Nodes keep all but their links. -/
  bare?_eq : ∀ id, Survives ids id → g'.bare? id = g.bare? id
  linkAt_eq : ∀ r, Survives ids r.node →
    g'.linkAt r = (g.linkAt r).filter (Survives ids ·.node)
  fanOut_eq : ∀ o, Survives ids o.node →
    g'.fanOut o = (g.fanOut o).filter (Survives ids ·.node)
  diagnostics_eq : g'.diagnostics = g.diagnostics

/-! ### Cutting links -/

instance : Std.Refl Thins := ⟨fun _ => ⟨rfl, fun _ => rfl, fun _ => .refl _⟩⟩

instance : IsTrans Graph Thins := ⟨fun _ _ _ h h' =>
  ⟨h'.diagnostics_eq.trans h.diagnostics_eq, fun id => (h'.bare?_eq id).trans (h.bare?_eq id),
    fun o => (h'.sublist o).trans (h.sublist o)⟩⟩

theorem thins_unlink (s : OutputRef) (t : InputRef) : g.Thins (g.unlink s t) := by
  refine ⟨rfl, g.bare?_unlink s t, fun o => ?_⟩
  rw [fanOut_unlink]
  split_ifs with ho
  · exact ho ▸ List.filter_sublist
  · exact .refl _

theorem bare?_unlinkInputs (ts : List InputRef) (id : NodeId) :
    (g.unlinkInputs ts).bare? id = g.bare? id := by
  induction ts generalizing g with
  | nil => rfl
  | cons t ts ih =>
    rw [unlinkInputs_cons, ih, modifyInput, bare?_modifyNode]
    exact fun n => n.unlinked_modifyInput _ fun _ => rfl

theorem thins_unlinkOutput (s : OutputRef) (ts : List InputRef) : g.Thins (g.unlinkOutput s ts) := by
  refine ⟨diagnostics_unlinkInputs ts, fun id => ?_, fun o => ?_⟩
  · rw [unlinkOutput_eq]
    change ((g.modifyOutput s _).unlinkInputs ts).bare? id = _
    rw [bare?_unlinkInputs, modifyOutput, bare?_modifyNode]
    exact fun n => n.unlinked_modifyOutput _ fun _ => rfl
  · rw [fanOut_unlinkOutput]
    split_ifs
    · exact List.nil_sublist _
    · exact .refl _

/-! ### The nodes that are left -/

theorem bare?_drop {id : NodeId} (h : Survives ids id) : (g.drop ids).bare? id = g.bare? id := by
  rw [bare?, node?_drop, if_neg (not_removed_iff.mpr h), bare?]

namespace Removes

theorem linkAt_iff_survives (h : g.Removes ids g') (r : InputRef) (o : OutputRef) :
    g'.linkAt r = some o ↔ g.linkAt r = some o ∧ Survives ids r.node ∧ Survives ids o.node := by
  rw [h.linkAt_iff, not_removed_iff, not_removed_iff]

theorem ids_eq (h : g.Removes ids g') : g'.ids = g.ids.filter (Survives ids ·) := by
  have hcontains : ∀ id, g'.contains id = (decide (Survives ids id) && g.contains id) := by
    intro id
    rw [Bool.eq_iff_iff, Bool.and_eq_true, decide_eq_true_iff, ← mem_ids, ← mem_ids,
      mem_ids_iff_kind?, mem_ids_iff_kind?, h.kind?_eq]
    split_ifs with hid
    · simp [← not_removed_iff, hid]
    · simp [not_removed_iff.mp hid]
  rw [Graph.ids, h.idBound_eq, Graph.ids, List.filter_filter, funext hcontains]

theorem linkAt_eq (h : g.Removes ids g') {r : InputRef} (hr : Survives ids r.node) :
    g'.linkAt r = (g.linkAt r).filter (Survives ids ·.node) := by
  refine Option.ext fun o => ?_
  rw [h.linkAt_iff_survives, Option.filter_eq_some_iff, decide_eq_true_iff]
  exact and_congr_right fun _ => and_iff_right hr

theorem fanOut_eq (h : g.Removes ids g') (hg : g.WellFormed) {o : OutputRef}
    (hsub : (g'.fanOut o).Sublist (g.fanOut o)) (ho : Survives ids o.node) :
    g'.fanOut o = (g.fanOut o).filter (Survives ids ·.node) := by
  refine eq_filter_of_sublist hsub (hg.nodup o) fun r => ?_
  rw [← h.wellFormed.link_iff, h.linkAt_iff_survives, ← hg.link_iff, decide_eq_true_iff]
  exact and_congr_right fun _ => and_iff_left ho

/-- Which nodes and links are left is known, and the links were cut before the nodes went. -/
theorem restricts {g₁ : Graph} (h : g.Removes ids (g₁.drop ids)) (hg : g.WellFormed)
    (h₁ : g.Thins g₁) : g.Restricts ids (g₁.drop ids) where
  idBound_eq := h.idBound_eq
  ids_eq := h.ids_eq
  bare?_eq id hid := (bare?_drop hid).trans (h₁.bare?_eq id)
  linkAt_eq _ hr := h.linkAt_eq hr
  fanOut_eq o ho := by
    refine h.fanOut_eq hg ?_ ho
    rw [fanOut_drop, if_neg (not_removed_iff.mpr ho)]
    exact h₁.sublist o
  diagnostics_eq := h₁.diagnostics_eq

end Removes

theorem literalAt_eq_bare? (g : Graph) (r : InputRef) :
    g.literalAt r = (g.bare? r.node).bind fun n => n.inputs[r.slot]?.map (·.literal) := by
  unfold literalAt input? bare?
  cases g.node? r.node with
  | none => rfl
  | some n => simp [Node.unlinked, Function.comp_def, Input.unlink]

end Graph

namespace Edit

open Shading.Graph

variable {g : Graph}

theorem thins_disconnectIfLinked (t : InputRef) : (disconnectIfLinked t).Relates Thins := by
  refine (relates_ask _).bind fun _ => ?_
  split_ifs
  · refine relates_requireMutable.bind fun _ => (relates_ask _).bind fun _ => ?_
    split
    · exact relates_throw _
    · exact relates_modify fun _ => thins_unlink _ t
  · exact relates_pure _

theorem thins_disconnectNodeInputs (id : NodeId) : (disconnectNodeInputs id).Relates Thins :=
  relates_requireMutable.bind fun _ => (relates_ask _).bind fun _ =>
    .forM fun _ => thins_disconnectIfLinked _

theorem thins_disconnectNodeOutputs (id : NodeId) : (disconnectNodeOutputs id).Relates Thins :=
  (relates_ask _).bind fun _ => .forM fun _ => relates_requireMutable.bind fun _ =>
    (relates_ask _).bind fun ts => relates_modify fun _ => thins_unlinkOutput _ ts

/-- First links are cut, and then the nodes are taken out. -/
theorem meets_removeNodes_drop (ids : NodeSet) :
    (removeNodes ids).Meets g (fun _ g' => ∃ g₁, g.Thins g₁ ∧ g' = g₁.drop ids)
      fun _ => True := by
  have hcut : ∀ id, Relates Thins (do
      if id ≠ outputId ∧ (← get).contains id then
        disconnectNodeInputs id
        disconnectNodeOutputs id) := fun id g' => by
    refine meets_get_bind ?_
    split_ifs
    · exact (thins_disconnectNodeInputs id).bind (fun _ => thins_disconnectNodeOutputs id) g'
    · exact relates_pure _ g'
  refine meets_requireMutable_bind (fun _ => ?_) fun _ => trivial
  refine Meets.bind ((Relates.forM hcut g).mono (fun _ _ h => h) fun _ _ => trivial) fun _ g₁ h₁ => ?_
  exact meets_modify ⟨g₁, h₁, rfl⟩

/-- **To remove nodes is to restrict the graph to the others.** It never fails, whether the ids are
those of nodes or not. The nodes that are left have the same ids and the same order, kinds and
literals. An input keeps its link if and only if the node at the other end is left, and each output
keeps the consumers that are left, in their order. The output node counts as left in any case. -/
theorem run_removeNodes (hg : g.WellFormed) (hm : g.finalized = false) (ids : NodeSet) :
    ∃ g', (removeNodes ids).run g = .ok () g' ∧ g.Restricts ids g' ∧
      (∀ id, Survives ids id → g'.kind? id = g.kind? id) ∧
      ∀ r, Survives ids r.node → g'.literalAt r = g.literalAt r := by
  obtain ⟨_, _, hrun, hrem, g₁, h₁, rfl⟩ :=
    ends_iff.mp ((ends_removeNodes hg hm ids).and_meets (meets_removeNodes_drop ids))
  have h := hrem.restricts hg h₁
  refine ⟨_, hrun, h, fun id hid => ?_, fun r hr => ?_⟩
  · rw [kind?_eq_bare?, h.bare?_eq id hid, ← kind?_eq_bare?]
  · rw [literalAt_eq_bare?, h.bare?_eq _ hr, ← literalAt_eq_bare?]

/-- A value feeds two sums and the strength of an emission. Both sums feed themselves, and the second
one feeds a third. -/
def branchedSums : Graph :=
  Primitive.runAll [.addKind .value, .addKind (.math .add false), .addKind (.math .add false),
    .addKind (.emission false), .addKind (.math .add false), .connect ⟨1, 0⟩ ⟨2, 0⟩,
    .connect ⟨1, 0⟩ ⟨3, 0⟩, .connect ⟨1, 0⟩ ⟨4, 1⟩, .connect ⟨2, 0⟩ ⟨2, 1⟩, .connect ⟨3, 0⟩ ⟨3, 1⟩,
    .connect ⟨3, 0⟩ ⟨5, 0⟩, .connect ⟨4, 0⟩ ⟨0, 0⟩] Graph.empty

/-- The second sum is removed. The output node and an id of no node are named as well. -/
theorem run_removeNodes_branchedSums :
    branchedSums.WellFormed ∧ branchedSums.finalized = false ∧
      branchedSums.fanOut ⟨1, 0⟩ = [⟨2, 0⟩, ⟨3, 0⟩, ⟨4, 1⟩] ∧
      ∃ g', (removeNodes [0, 3, 9]).run branchedSums = .ok () g' ∧ g'.ids = [0, 1, 2, 4, 5] ∧
        g'.fanOut ⟨1, 0⟩ = [⟨2, 0⟩, ⟨4, 1⟩] ∧ g'.linkAt ⟨2, 1⟩ = some ⟨2, 0⟩ ∧
        g'.linkAt ⟨5, 0⟩ = none ∧ g'.linkAt ⟨0, 0⟩ = some ⟨4, 0⟩ := by
  have hg : branchedSums.WellFormed := (Primitive.follows_runAll wellFormed_empty _).wellFormed
  obtain ⟨g', hrun, h, -, -⟩ := run_removeNodes hg rfl [0, 3, 9]
  refine ⟨hg, rfl, by decide +kernel, g', hrun, ?_, ?_, ?_, ?_, ?_⟩
  · exact h.ids_eq.trans (by decide +kernel)
  · exact (h.fanOut_eq ⟨1, 0⟩ (by decide)).trans (by decide +kernel)
  · exact (h.linkAt_eq ⟨2, 1⟩ (by decide)).trans (by decide +kernel)
  · exact (h.linkAt_eq ⟨5, 0⟩ (by decide)).trans (by decide +kernel)
  · exact (h.linkAt_eq ⟨0, 0⟩ (by decide)).trans (by decide +kernel)

end Edit

end Shading
