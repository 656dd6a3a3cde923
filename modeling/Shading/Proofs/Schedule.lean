import Shading.Proofs.Folding

/-!
# The order of a worklist

A worklist hands out each node once, and only after all nodes that feed it (`Worklist.Ordered`).
This stays true while the links change, as long as nothing that is queued or was handed out gets
linked to a node that is still to come. The nodes that are added meanwhile are on no worklist; they
are told by their ids, and nothing feeds them. -/

namespace Shading

open Relation

namespace Graph

variable {g : Graph} {x : NodeId} {n : Node}

theorem hasLinkedInput_iff (hn : g.node? x = some n) : n.hasLinkedInput = true ↔ g.Depends x := by
  rw [Node.hasLinkedInput, List.any_eq_true]
  constructor
  · rintro ⟨i, hi, hlink⟩
    obtain ⟨slot, hslot, rfl⟩ := List.getElem_of_mem hi
    refine ⟨slot, ?_⟩
    rw [g.linkAt_of_getElem? hn (List.getElem?_eq_getElem hslot)]
    exact Option.isSome_iff_ne_none.mp hlink
  · rintro ⟨slot, hs⟩
    obtain ⟨o, ho⟩ := Option.ne_none_iff_exists'.mp hs
    obtain ⟨d, hd⟩ := g.inputDecl?_of_linkAt ho
    have hslot := (g.exists_inputDecl?_iff hn slot).mp ⟨d, hd⟩
    refine ⟨n.inputs[slot], List.getElem_mem hslot, Option.isSome_iff_ne_none.mpr ?_⟩
    rwa [g.linkAt_of_getElem? hn (List.getElem?_eq_getElem hslot)] at hs

theorem depends_iff_feeds : g.Depends x ↔ ∃ a, g.Feeds a x := by
  constructor
  · rintro ⟨slot, hs⟩
    obtain ⟨o, ho⟩ := Option.ne_none_iff_exists'.mp hs
    exact ⟨o.node, feeds_of_linkAt ho⟩
  · rintro ⟨_, r, o, ho, -, rfl⟩
    exact ⟨r.slot, by simp [ho]⟩

theorem WellFormed.isConsumed_iff (hg : g.WellFormed) (hn : g.node? x = some n) :
    n.isConsumed = true ↔ ¬ g.Unused x := by
  simp only [Unused, not_forall, not_not, Node.isConsumed, List.any_eq_true, Output.isConsumed,
    Bool.not_eq_true', List.isEmpty_eq_false_iff_exists_mem]
  constructor
  · rintro ⟨out, hout, r, hr⟩
    obtain ⟨slot, hslot, rfl⟩ := List.getElem_of_mem hout
    refine ⟨r, ⟨x, slot⟩, (hg.link_iff r _).mpr ?_, rfl⟩
    simpa [fanOut, output?, hn, hslot] using hr
  · rintro ⟨r, o, ho, rfl⟩
    have hr := (hg.link_iff r o).mp ho
    obtain ⟨e, he⟩ := hg.exists_output ho
    have hslot := (g.exists_outputDecl?_iff hn o.slot).mp ⟨e, he⟩
    refine ⟨n.outputs[o.slot], List.getElem_mem hslot, r, ?_⟩
    simpa [fanOut, output?, hn, hslot] using hr

end Graph

namespace Worklist

open Shading.Graph

variable {g g' : Graph} {N : Nat} {S : Set NodeId} {w w' : Worklist} {a b x : NodeId}

/-- A node that was handed out, or one from `N` on. -/
def Past (N : Nat) (w : Worklist) (a : NodeId) : Prop := a ∈ w.done ∨ N ≤ a

/-- All nodes on the worklist are below `N`, and none is handed out twice. What is queued or was
handed out is fed by nodes that were handed out, and otherwise by nodes from `N` on, which nothing
feeds. -/
structure Ordered (N : Nat) (g : Graph) (w : Worklist) : Prop where
  below : ∀ x, x ∈ w.queue ++ w.waiting ∨ x ∈ w.done → x < N
  once : ∀ x ∈ w.done, x ∉ w.queue ++ w.waiting
  fed : ∀ a x, g.Feeds a x → x ∈ w.queue ∨ x ∈ w.done → w.Past N a
  unfed : ∀ a x, g.Feeds a x → x < N

theorem ordered_ofGraph (g : Graph) : (ofGraph g).Ordered g.idBound g := by
  refine ⟨fun x hx => ?_, nofun, fun a x hax hx => ?_, fun a x hax => ?_⟩
  · refine g.lt_idBound_of_mem (within_ofGraph g x (List.mem_append.mp (hx.resolve_right ?_)))
    exact List.not_mem_nil
  · rcases hx with hx | hx
    · simp only [ofGraph, List.mem_map, List.mem_filter, Prod.exists, exists_and_right,
        exists_eq_right, mem_nodes] at hx
      obtain ⟨n, hn, hlink⟩ := hx
      rw [Bool.not_eq_true'] at hlink
      have hdep := (hasLinkedInput_iff hn).mpr (depends_iff_feeds.mpr ⟨a, hax⟩)
      rw [hlink] at hdep
      cases hdep
    · cases hx
  · obtain ⟨r, o, ho, -, rfl⟩ := hax
    exact node_lt_of_linkAt (by simp [ho])

/-- What scheduling adds to the queue is ready. -/
theorem mem_queue_foldl_schedule {cs : List NodeId} (hx : x ∈ (cs.foldl (schedule g) w).queue) :
    x ∈ w.queue ∨ w.isReady g x = true := by
  induction cs generalizing w with
  | nil => exact Or.inl hx
  | cons c cs ih =>
    rw [List.foldl_cons] at hx
    have h := ih hx
    unfold schedule at h
    split_ifs at h with hc
    · rcases h with h | h
      · rcases List.mem_append.mp h with h | h
        · exact Or.inl h
        · exact Or.inr (List.mem_singleton.mp h ▸ hc.2)
      · exact Or.inr h
    · exact h

namespace Ordered

/-- Handing out a node. -/
theorem next (h : w.Ordered N g) (hs : w.Sound S g) (hx : w.next? = some (x, w')) :
    ¬ w.Past N x ∧ (∀ a, g.Feeds a x → w.Past N a) ∧ (w'.scheduleConsumers g x).Ordered N g := by
  unfold next? at hx
  split at hx
  · cases hx
  rename_i rest hq
  cases hx
  have hnd := hs.nodup
  rw [hq, List.cons_append, List.nodup_cons] at hnd
  obtain ⟨hm, -⟩ := moves_foldl_schedule g ((g.consumers x).map (·.node))
    (w := { w with queue := rest, done := x :: w.done }) hnd.2
  have hbelow : ∀ y, y ∈ x :: (rest ++ w.waiting) ∨ y ∈ w.done → y < N := fun y hy =>
    h.below y (hq ▸ hy)
  have honce : ∀ y ∈ w.done, y ∉ x :: (rest ++ w.waiting) := fun y hy => by
    simpa [hq] using h.once y hy
  have hfed : ∀ a y, g.Feeds a y → y ∈ x :: rest ∨ y ∈ w.done → w.Past N a := fun a y hay hy =>
    h.fed a y hay (hq ▸ hy)
  refine ⟨fun hp => hp.elim (fun hd => honce x hd List.mem_cons_self)
    (Nat.not_le.mpr (hbelow x (Or.inl List.mem_cons_self))),
    fun a hax => hfed a x hax (Or.inl List.mem_cons_self), ⟨fun y hy => hbelow y ?_,
      fun y hy => ?_, fun a y hay hy => ?_, h.unfed⟩⟩
  · rw [scheduleConsumers, hm.done_eq, hm.perm.mem_iff, List.mem_cons] at hy
    rw [List.mem_cons]
    tauto
  · rw [scheduleConsumers, hm.done_eq, List.mem_cons] at hy
    rw [scheduleConsumers, hm.perm.mem_iff]
    rcases hy with rfl | hy
    · exact hnd.1
    · exact fun hmem => honce y hy (List.mem_cons_of_mem x hmem)
  · rw [Past, scheduleConsumers, hm.done_eq]
    have hpast : w.Past N a → a ∈ x :: w.done ∨ N ≤ a := Or.imp_left (List.mem_cons_of_mem x)
    rcases hy with hy | hy
    · rcases mem_queue_foldl_schedule hy with hy | hready
      · exact hpast (hfed a y hay (Or.inl (List.mem_cons_of_mem x hy)))
      · exact Or.inl (of_decide_eq_true (List.all_eq_true.mp hready a (mem_feeders.mpr hay)))
    · rw [scheduleConsumers, hm.done_eq, List.mem_cons] at hy
      rcases hy with rfl | hy
      · exact hpast (hfed a y hay (Or.inl List.mem_cons_self))
      · exact hpast (hfed a y hay (Or.inr hy))

theorem past (h : w.Ordered N g) (hab : ReflTransGen g.Feeds a b) (hb : w.Past N b) :
    w.Past N a := by
  induction hab using ReflTransGen.head_induction_on with
  | refl => exact hb
  | head hac _ ih =>
    rcases ih with hc | hle
    · exact h.fed _ _ hac (Or.inr hc)
    · exact absurd (h.unfed _ _ hac) (Nat.not_lt.mpr hle)

/-- A node that is handed out does not depend on itself. -/
theorem not_transGen (h : w.Ordered N g) (hx : ¬ w.Past N x)
    (hfed : ∀ a, g.Feeds a x → w.Past N a) : ¬ TransGen g.Feeds x x := by
  intro hxx
  obtain ⟨c, hxc, hcx⟩ := TransGen.tail'_iff.mp hxx
  exact hx (h.past hxc (hfed c hcx))

/-- A change of links that makes no node depend on one that is still to come. -/
theorem relink (h : w.Ordered N g) (hl : ∀ r s, g'.linkAt r = some s →
    ∃ o, g.linkAt r = some o ∧ (w.Past N o.node → w.Past N s.node)) : w.Ordered N g' := by
  refine ⟨h.below, h.once, ?_, ?_⟩
  · rintro _ _ ⟨r, s, hs, rfl, rfl⟩ hr
    obtain ⟨o, ho, hp⟩ := hl r s hs
    exact hp (h.fed _ _ (feeds_of_linkAt ho) hr)
  · rintro _ _ ⟨r, s, hs, rfl, rfl⟩
    obtain ⟨o, ho, -⟩ := hl r s hs
    exact h.unfed _ _ (feeds_of_linkAt ho)

theorem shortens {T : InputRef → Prop} {P : Prop} (h : w.Ordered N g) (h' : g.Shortens T P g')
    (hN : N ≤ g.idBound) : w.Ordered N g' := by
  refine h.relink fun r s hs => ?_
  obtain ⟨o, ho, hp | ⟨-, hle, -⟩⟩ := h'.moved r s hs
  · exact ⟨o, ho, h.past (reflTransGen_feeds hp)⟩
  · exact ⟨o, ho, fun _ => Or.inr (Nat.le_trans hN hle)⟩

end Ordered

/-- Changing links does not hand out nodes, if a node that waits for another one still does so. -/
theorem Sound.relink (h : w.Sound S g) (hl : ∀ r o, r.node ∈ w.waiting → o.node ∉ w.done →
    g.linkAt r = some o → g'.linkAt r = some o) : w.Sound S g' := by
  refine { h with blocked := fun id hid => ?_ }
  obtain ⟨f, hf, hnd⟩ := List.all_eq_false.mp (h.blocked id hid)
  refine List.all_eq_false.mpr ⟨f, ?_, hnd⟩
  obtain ⟨r, o, ho, rfl, rfl⟩ := mem_feeders.mp hf
  exact mem_feeders.mpr (feeds_of_linkAt (hl r o hid (by simpa using hnd) ho))

/-- A node is folded after it was handed out. -/
theorem Sound.shortens {P : Prop} (h : w.Sound S g) (hdone : x ∈ w.done) (hwait : x ∉ w.waiting)
    (h' : g.Shortens (g.Around x) P g') : w.Sound S g' := by
  refine h.relink fun r o hr ho hl => ?_
  rw [h'.evolves.linkAt_eq r (node_lt_of_linkAt (by simp [hl])), hl]
  rintro (rfl | ⟨o', ho', rfl⟩)
  · exact hwait hr
  · obtain rfl := Option.some.inj (hl.symm.trans ho')
    exact ho hdone

end Worklist

end Shading
