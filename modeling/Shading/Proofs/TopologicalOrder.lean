import Shading.Proofs.Primitive
import Shading.Proofs.Schedule

/-!
# Topological orders

What a worklist hands out while the graph stays as it is. A run (`Worklist.HandsOut`) hands out a node
and schedules its consumers, again and again. It comes to an end after finitely many nodes, because no
node is handed out twice. The nodes that are handed out are those from which links cannot be followed
backwards forever: each node that is done has this property since the nodes that feed it have it, and
a node that has it cannot be left waiting (`Worklist.Sound.mem_done`). In a graph this means that the
node neither lies on a cycle nor depends on one (`Graph.WellFormed.acc_iff`). -/

namespace Shading

open Relation

namespace Graph

variable {g : Graph}

/-- Links can be followed backwards forever from the nodes on a cycle and from those that depend on
such a node, and from no others. -/
theorem WellFormed.acc_iff (hg : g.WellFormed) {x : NodeId} : Acc g.Feeds x ↔
    ¬ TransGen g.Feeds x x ∧ ∀ a, TransGen g.Feeds a x → ¬ TransGen g.Feeds a a := by
  constructor
  · exact fun h => ⟨not_transGen_of_acc h, fun a ha => not_transGen_of_acc (h.inv_of_transGen ha)⟩
  · rintro ⟨hself, hbefore⟩
    refine hg.acc_of_no_cycle fun a ha => ?_
    rcases reflTransGen_iff_eq_or_transGen.mp ha with rfl | ha
    · exact hself
    · exact hbefore a ha

end Graph

namespace Worklist

open Shading.Graph

variable {g : Graph} {w w₁ w' : Worklist} {x : NodeId} {xs : List NodeId}

/-- Nodes are handed out one after the other, and the consumers of each are scheduled before the next
one comes. -/
inductive HandsOut (g : Graph) : Worklist → List NodeId → Worklist → Prop
  | nil (w : Worklist) : HandsOut g w [] w
  | cons {w w₁ w' : Worklist} {x : NodeId} {xs : List NodeId} (hx : w.next? = some (x, w₁))
    (h : HandsOut g (w₁.scheduleConsumers g x) xs w') : HandsOut g w (x :: xs) w'

theorem drain_of_next? (hx : w.next? = some (x, w')) :
    drain g w = x :: drain g (w'.scheduleConsumers g x) := by
  rw [drain]
  split
  · rename_i hnone
    simp [hnone] at hx
  · rename_i heq
    cases heq.symm.trans hx
    rfl

theorem drain_of_next?_eq_none (hx : w.next? = none) : drain g w = [] := by
  rw [drain]
  split
  · rfl
  · rename_i heq
    simp [hx] at heq

/-- Every run comes to an end. -/
theorem exists_handsOut_drain (g : Graph) (w : Worklist) :
    ∃ w', w.HandsOut g (drain g w) w' ∧ w'.next? = none := by
  cases hx : w.next? with
  | none => exact ⟨w, drain_of_next?_eq_none hx ▸ .nil w, hx⟩
  | some p =>
    obtain ⟨x, w₁⟩ := p
    have hsize := size_next? hx
    obtain ⟨w', h, hend⟩ := exists_handsOut_drain g (w₁.scheduleConsumers g x)
    exact ⟨w', drain_of_next? hx ▸ .cons hx h, hend⟩
termination_by w.size
decreasing_by
  rw [size_scheduleConsumers]
  omega

/-- There is only one run: one that is broken off is the beginning of the whole. -/
theorem HandsOut.prefix_drain (h : w.HandsOut g xs w') : xs <+: drain g w := by
  induction h with
  | nil w => exact List.nil_prefix
  | cons hx _ ih =>
    rw [drain_of_next? hx]
    exact List.cons_prefix_cons.mpr ⟨rfl, ih⟩

/-! ### What a run keeps up -/

/-- What holds of a worklist between two nodes that it hands out, if the graph never changes. -/
structure Steady (g : Graph) (w : Worklist) : Prop where
  sound : w.Sound {id | id ∈ g.ids} g
  ordered : w.Ordered g.idBound g
  within : w.Within g
  acc : ∀ x ∈ w.done, Acc g.Feeds x

theorem steady_ofGraph (g : Graph) : (ofGraph g).Steady g where
  sound := sound_ofGraph g
  ordered := ordered_ofGraph g
  within := within_ofGraph g
  acc _ hx := absurd hx List.not_mem_nil

/-- What is known of a node when it is handed out. -/
structure Steady.Next (g : Graph) (w w₁ : Worklist) (x : NodeId) : Prop where
  mem : x ∈ g.ids
  fresh : x ∉ w.done
  fed : ∀ a, g.Feeds a x → a ∈ w.done
  acc : Acc g.Feeds x
  done_eq : (w₁.scheduleConsumers g x).done = x :: w.done
  steady : (w₁.scheduleConsumers g x).Steady g

/-- **One node.** Those that feed it are done, and this is why it is on no cycle. -/
theorem Steady.next (h : w.Steady g) (hg : g.WellFormed) (hx : w.next? = some (x, w₁)) :
    Steady.Next g w w₁ x := by
  obtain ⟨hsound, hdone, -⟩ := h.sound.next hg hx
  obtain ⟨hpast, hfed, hordered⟩ := h.ordered.next h.sound hx
  obtain ⟨hmem, hwithin⟩ := h.within.next hx
  have hfed' : ∀ a, g.Feeds a x → a ∈ w.done := fun a ha =>
    (hfed a ha).resolve_right (Nat.not_le.mpr (g.lt_idBound_of_mem (hg.mem_ids_of_feeds ha).1))
  have hacc : Acc g.Feeds x := ⟨x, fun a ha => h.acc a (hfed' a ha)⟩
  refine ⟨hmem, fun hd => hpast (Or.inl hd), hfed', hacc, hdone, hsound, hordered,
    hwithin.scheduleConsumers g x, fun y hy => ?_⟩
  rcases List.mem_cons.mp (hdone ▸ hy) with rfl | hy
  · exact hacc
  · exact h.acc y hy

namespace HandsOut

theorem acc (h : w.HandsOut g xs w') (hg : g.WellFormed) (hw : w.Steady g) :
    ∀ x ∈ xs, x ∈ g.ids ∧ Acc g.Feeds x := by
  induction h with
  | nil w => exact fun _ hx => absurd hx List.not_mem_nil
  | cons hx _ ih =>
    have hn := hw.next hg hx
    exact List.forall_mem_cons.mpr ⟨⟨hn.mem, hn.acc⟩, ih hn.steady⟩

theorem nodup (h : w.HandsOut g xs w') (hg : g.WellFormed) (hw : w.Steady g) :
    xs.Nodup ∧ ∀ x ∈ xs, x ∉ w.done := by
  induction h with
  | nil w => exact ⟨List.nodup_nil, fun _ hx => absurd hx List.not_mem_nil⟩
  | @cons w w₁ w' x xs hx _ ih =>
    have hn := hw.next hg hx
    obtain ⟨hnodup, hfresh⟩ := ih hn.steady
    simp only [hn.done_eq, List.mem_cons, not_or] at hfresh
    refine ⟨List.nodup_cons.mpr ⟨fun hmem => (hfresh x hmem).1 rfl, hnodup⟩, ?_⟩
    exact List.forall_mem_cons.mpr ⟨hn.fresh, fun y hy => (hfresh y hy).2⟩

/-- What feeds a node was handed out before it, in this run or earlier. -/
theorem fed (h : w.HandsOut g xs w') (hg : g.WellFormed) (hw : w.Steady g)
    {before after : List NodeId} (hxs : xs = before ++ x :: after) {a : NodeId} (ha : g.Feeds a x) :
    a ∈ w.done ∨ a ∈ before := by
  induction h generalizing before with
  | nil w => simp at hxs
  | @cons w w₁ w' y xs hy _ ih =>
    have hn := hw.next hg hy
    cases before with
    | nil =>
      obtain ⟨rfl, -⟩ := List.cons.inj hxs
      exact Or.inl (hn.fed a ha)
    | cons z before =>
      obtain ⟨rfl, htail⟩ := List.cons.inj hxs
      rcases ih hn.steady htail with hd | hb
      · rw [hn.done_eq, List.mem_cons] at hd
        rcases hd with rfl | hd
        · exact Or.inr List.mem_cons_self
        · exact Or.inl hd
      · exact Or.inr (List.mem_cons_of_mem y hb)

end HandsOut

end Worklist

namespace Graph

open Worklist

variable {g : Graph}

/-- **The cycle test is exact.** A graph passes it if and only if no node lies on a cycle. -/
theorem WellFormed.isAcyclic_iff (hg : g.WellFormed) : g.isAcyclic = true ↔ g.Acyclic := by
  refine ⟨fun h x hx => ?_, hg.isAcyclic_of_acyclic⟩
  obtain ⟨a, hxa, -⟩ := TransGen.head'_iff.mp hx
  have hmem : x ∈ g.topologicalOrder := by
    simpa using List.all_eq_true.mp h x (hg.mem_ids_of_feeds hxa).1
  obtain ⟨_, hrun, -⟩ := exists_handsOut_drain g (ofGraph g)
  exact not_transGen_of_acc (hrun.acc hg (steady_ofGraph g) x hmem).2 hx

/-- **The worklist puts the part of a graph without cycles in order.** It comes to an end, and every
run is the beginning of one and the same run. It looks up nodes of the graph only. No node is handed
out twice, and each comes after all nodes that feed it. Exactly those nodes are handed out that are
not on a cycle and do not depend on a node on a cycle. -/
theorem topologicalOrder_exact (hg : g.WellFormed) :
    (∃ w, (ofGraph g).HandsOut g g.topologicalOrder w ∧ w.next? = none) ∧
      (∀ xs w, (ofGraph g).HandsOut g xs w → xs <+: g.topologicalOrder) ∧
      (∀ x ∈ g.topologicalOrder, ∀ r ∈ g.consumers x, r.node ∈ g.ids) ∧
      g.topologicalOrder.Nodup ∧
      (∀ x, x ∈ g.topologicalOrder ↔ x ∈ g.ids ∧ ¬ TransGen g.Feeds x x ∧
        ∀ a, TransGen g.Feeds a x → ¬ TransGen g.Feeds a a) ∧
      ∀ before x after, g.topologicalOrder = before ++ x :: after →
        ∀ a, g.Feeds a x → a ∈ before := by
  obtain ⟨w, h, hend⟩ := exists_handsOut_drain g (ofGraph g)
  have hw := steady_ofGraph g
  refine ⟨⟨w, h, hend⟩, fun xs w' h' => h'.prefix_drain, fun x _ r hr => ?_, (h.nodup hg hw).1,
    fun x => ?_, fun before x after heq a ha => ?_⟩
  · have hfeeds := hg.mem_consumers.mp (List.mem_map_of_mem hr)
    exact (hg.mem_ids_of_feeds hfeeds).2
  · rw [← hg.acc_iff]
    refine ⟨h.acc hg hw x, fun ⟨hx, hacc⟩ => ?_⟩
    exact (hw.sound.mem_drain hg hx hacc).resolve_left List.not_mem_nil
  · exact (h.fed hg hw heq ha).resolve_left List.not_mem_nil

/-- A value is doubled and enters a sum that takes its other summand from a circle of two. -/
def halfTangled : Graph :=
  Primitive.runAll [.addKind (.math .add false), .addKind (.math .add false),
    .addKind (.math .add false), .addKind (.math .add false), .addKind .value,
    .connect ⟨5, 0⟩ ⟨4, 0⟩, .connect ⟨5, 0⟩ ⟨4, 1⟩, .connect ⟨1, 0⟩ ⟨2, 0⟩, .connect ⟨2, 0⟩ ⟨1, 0⟩,
    .connect ⟨2, 0⟩ ⟨3, 0⟩, .connect ⟨4, 0⟩ ⟨3, 1⟩] Graph.empty

theorem topologicalOrder_exact_halfTangled : halfTangled.WellFormed ∧
    [0, 5, 4] <+: halfTangled.topologicalOrder ∧ 1 ∉ halfTangled.topologicalOrder ∧
      3 ∉ halfTangled.topologicalOrder := by
  have hg : halfTangled.WellFormed := (Primitive.follows_runAll wellFormed_empty _).wellFormed
  obtain ⟨-, hprefix, -, -, hmem, -⟩ := topologicalOrder_exact hg
  have hthere : halfTangled.Feeds 1 2 := feeds_of_linkAt (r := ⟨2, 0⟩) (o := ⟨1, 0⟩) rfl
  have hback : halfTangled.Feeds 2 1 := feeds_of_linkAt (r := ⟨1, 0⟩) (o := ⟨2, 0⟩) rfl
  have hon : halfTangled.Feeds 2 3 := feeds_of_linkAt (r := ⟨3, 0⟩) (o := ⟨2, 0⟩) rfl
  have hcircle : TransGen halfTangled.Feeds 1 1 := .tail (.single hthere) hback
  have hbehind : TransGen halfTangled.Feeds 1 3 := .tail (.single hthere) hon
  refine ⟨hg, ?_, fun h => ((hmem 1).mp h).2.1 hcircle,
    fun h => ((hmem 3).mp h).2.2 1 hbehind hcircle⟩
  exact hprefix _ _ (.cons rfl (.cons rfl (.cons rfl (.nil _))))

end Graph

end Shading
