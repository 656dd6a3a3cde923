import Shading.Proofs.Bump
import Shading.Proofs.Patch
import Shading.Proofs.Primitive

/-!
# Copies of a subgraph

A set of nodes is copied together with the links among them. The nodes that were there before do not
notice (`Graph.Extends`): what they hold, what they are linked to and what they feed stays as it is,
since every new link goes from a copy to a copy. The copies carry the settings of their originals,
and are linked as these are, as far as both ends are in the set (`Edit.run_copySubgraph`). -/

namespace Shading

/-- The other node is of the same kind, and holds the same literals and the same notes. -/
structure Node.Matches (n m : Node) : Prop where
  kind : m.kind = n.kind
  literals : m.inputs.map (·.literal) = n.inputs.map (·.literal)
  bump : m.bump = n.bump
  filterWidth : m.filterWidth = n.filterWidth
  stochastic : m.stochastic = n.stochastic

theorem Node.literals_unlinked (n : Node) :
    n.unlinked.inputs.map (·.literal) = n.inputs.map (·.literal) := by
  simp [unlinked, Input.unlink, Function.comp_def]

/-- A copy matches its original, whatever it is linked to. -/
theorem Node.matches_of_unlinked_eq_copy {n m : Node} (h : m.unlinked = n.copy) : n.Matches m where
  kind := congrArg (·.kind) h
  literals := by
    rw [← m.literals_unlinked, h]
    exact n.literals_unlinked
  bump := congrArg (·.bump) h
  filterWidth := congrArg (·.filterWidth) h
  stochastic := congrArg (·.stochastic) h

/-- Every node has one copy. -/
theorem CopyMap.lookup_numbered_iff {ids : List NodeId} {first a c : Nat} (hnd : ids.Nodup) :
    (numbered ids first).lookup a = some c ↔ (a, c) ∈ numbered ids first := by
  refine ⟨mem_of_lookup, fun h => ?_⟩
  obtain ⟨ha, rfl⟩ := (mem_numbered_iff hnd).mp h
  exact lookup_numbered hnd ha first

/-- The copies of nodes that are given in increasing order have increasing ids. -/
theorem CopyMap.pairwise_numbered {ids : List NodeId} (h : ids.Pairwise (· < ·)) (first : Nat) :
    (numbered ids first).Pairwise fun p q => p.1 < q.1 ∧ p.2 < q.2 := by
  refine List.Pairwise.and ?_ ?_
  · rw [← List.pairwise_map, map_fst_numbered]
    exact h
  · rw [← List.pairwise_map, map_snd_numbered]
    exact List.pairwise_lt_range'

namespace Graph

/-- The second graph has all nodes of the first one, just as they are there, and maybe others. -/
structure Extends (g g' : Graph) : Prop where
  wellFormed : g'.WellFormed
  idBound_le : g.idBound ≤ g'.idBound
  node?_eq : ∀ id < g.idBound, g'.node? id = g.node? id

/-- `g'` is `g` with copies of a set of nodes, which are linked among themselves as the nodes are. -/
structure CopiesSubgraph (ids : NodeSet) (copies : CopyMap) (g g' : Graph) : Prop where
  old : g.Extends g'
  /-- Each node of the set has one copy, and the copies have the next ids in the same order. -/
  originals : copies.map Prod.fst = ids
  numbered : copies.map Prod.snd = List.range' g.idBound ids.length
  increasing : copies.Pairwise fun p q => p.1 < q.1 ∧ p.2 < q.2
  idBound_eq : g'.idBound = g.idBound + ids.length
  ids_eq : g'.ids = g.ids ++ copies.map Prod.snd
  settings : ∀ p ∈ copies, ∃ n m, g.node? p.1 = some n ∧ g'.node? p.2 = some m ∧ n.Matches m
  /-- The input of a copy is linked if and only if that of the original is linked to a node of the
  set, and then to the same output of the copy of that node. -/
  linkAt_iff : ∀ p ∈ copies, ∀ slot o, g'.linkAt ⟨p.2, slot⟩ = some o ↔
    ∃ u, g.linkAt ⟨p.1, slot⟩ = some u ∧ (u.node, o.node) ∈ copies ∧ o.slot = u.slot
  diagnostics_eq : g'.diagnostics = g.diagnostics
  finalized_eq : g'.finalized = g.finalized

variable {g g' : Graph} {s : OutputRef} {t : InputRef} {id : NodeId}

/-! ### Changes at other nodes -/

theorem node?_link_of_ne (hs : id ≠ s.node) (ht : id ≠ t.node) :
    (g.link s t).node? id = g.node? id := by
  change ((g.modifyNode t.node _).modifyNode s.node _).node? id = _
  rw [node?_modifyNode, if_neg hs, node?_modifyNode, if_neg ht]

theorem node?_linkAll_of_ne {ls : List Link}
    (h : ∀ l ∈ ls, id ≠ l.source.node ∧ id ≠ l.target.node) :
    (g.linkAll ls).node? id = g.node? id := by
  induction ls generalizing g with
  | nil => rfl
  | cons l ls ih =>
    obtain ⟨hl, hrest⟩ := List.forall_mem_cons.mp h
    rw [linkAll_cons, ih hrest, node?_link_of_ne hl.1 hl.2]

/-- A patch changes no node but those that it links. -/
theorem node?_apply_of_ne {p : Patch} (hp : p.Local s t) (hid : id < g.idBound) (hs : id ≠ s.node)
    (ht : id ≠ t.node) : (g.apply p).node? id = g.node? id := by
  rw [apply, extend, reportAll_eq]
  change ((g.pushAll p.nodes).linkAll (p.links g.idBound)).node? id = _
  rw [node?_linkAll_of_ne, node?_pushAll, if_pos hid]
  intro l hl
  refine ⟨fun heq => ?_, fun heq => ?_⟩
  · rcases hp.source _ l hl with h | h
    · exact hs (h ▸ heq)
    · exact absurd h.1 (Nat.not_le.mpr (heq ▸ hid))
  · rcases hp.target _ l hl with h | h
    · exact ht (h ▸ heq)
    · exact absurd h.1 (Nat.not_le.mpr (heq ▸ hid))

namespace Extends

theorem refl (hg : g.WellFormed) : g.Extends g := ⟨hg, Nat.le_refl _, fun _ _ => rfl⟩

theorem push (h : g.Extends g') {n : Node} (hn : n.Sound) : g.Extends (g'.push n) := by
  refine ⟨h.wellFormed.push hn, Nat.le_trans h.idBound_le (by simp), fun id hid => ?_⟩
  rw [node?_push, if_neg (Nat.ne_of_lt (Nat.lt_of_lt_of_le hid h.idBound_le)), h.node?_eq id hid]

/-- A patch that links new nodes only. -/
theorem apply (h : g.Extends g') {p : Patch} (hp : p.Local s t) (hw : (g'.apply p).WellFormed)
    (hs : g.idBound ≤ s.node) (ht : g.idBound ≤ t.node) : g.Extends (g'.apply p) := by
  refine ⟨hw, Nat.le_trans h.idBound_le (by simp [Graph.apply]), fun id hid => ?_⟩
  rw [node?_apply_of_ne hp (Nat.lt_of_lt_of_le hid h.idBound_le)
    (Nat.ne_of_lt (Nat.lt_of_lt_of_le hid hs)) (Nat.ne_of_lt (Nat.lt_of_lt_of_le hid ht)),
    h.node?_eq id hid]

end Extends

section

variable {ids : NodeSet} {copies : CopyMap} (h : g.Copies ids copies g')
  (hids : ∀ id ∈ ids, id ∈ g.ids)
include h hids

theorem Copies.matches {p : NodeId × NodeId} (hp : p ∈ copies) :
    ∃ n m, g.node? p.1 = some n ∧ g'.node? p.2 = some m ∧ n.Matches m := by
  have hid := hids _ (h.mem_originals hp)
  obtain ⟨n, hn⟩ := exists_node_of_mem hid
  have hbare := h.bare?_eq p hp (g.lt_idBound_of_mem hid)
  rw [bare?, bare?, hn, Option.map_some, Option.map_some, n.copy_unlinked] at hbare
  obtain ⟨m, hm, hcopy⟩ := Option.map_eq_some_iff.mp hbare
  exact ⟨n, m, hn, hm, Node.matches_of_unlinked_eq_copy hcopy⟩

theorem Copies.linkAt_iff (hnd : ids.Nodup) {p : NodeId × NodeId} (hp : p ∈ copies) (slot : Nat)
    (o : OutputRef) : g'.linkAt ⟨p.2, slot⟩ = some o ↔
      ∃ u, g.linkAt ⟨p.1, slot⟩ = some u ∧ (u.node, o.node) ∈ copies ∧ o.slot = u.slot := by
  have hlt := g.lt_idBound_of_mem (hids _ (h.mem_originals hp))
  rw [h.linkAt_eq p hp hlt, copiedLink, Option.bind_eq_some_iff]
  refine exists_congr fun u => and_congr_right fun _ => ?_
  obtain ⟨c, k⟩ := o
  rw [h.numbered, Option.map_eq_some_iff, ← CopyMap.lookup_numbered_iff hnd]
  simp [eq_comm]

/-- What is known of copies, together with the nodes staying as they are. -/
theorem Copies.copiesSubgraph (hext : g.Extends g') (hs : ids.Pairwise (· < ·)) :
    g.CopiesSubgraph ids copies g' := by
  have hcopies : copies.map Prod.snd = List.range' g.idBound ids.length := by
    rw [h.numbered, CopyMap.map_snd_numbered]
  have hnew : ∀ i < ids.length, g.idBound + i ∈ g'.ids := by
    intro i hi
    have hmem : g.idBound + i ∈ copies.map Prod.snd := by
      rw [hcopies, List.mem_range'_1]
      omega
    exact Edit.mem_ids_of_copies h hids _ hmem
  exact {
    old := hext
    originals := by rw [h.numbered, CopyMap.map_fst_numbered]
    numbered := hcopies
    increasing := h.numbered ▸ CopyMap.pairwise_numbered hs _
    idBound_eq := h.idBound_eq
    ids_eq := by rw [h.evolves.ids_eq h.idBound_eq hnew, hcopies]
    settings := fun p hp => h.matches hids hp
    linkAt_iff := fun p hp => h.linkAt_iff hids (hs.imp Nat.ne_of_lt) hp
    diagnostics_eq := h.quiet.diagnostics_eq
    finalized_eq := h.evolves.finalized }

end

end Graph

namespace Edit

open Shading.Graph

variable {g g' : Graph}

/-- Linking new nodes leaves the others alone. -/
theorem meets_connect_extends (h : g.Extends g') {s : OutputRef} {t : InputRef}
    (hs : g.idBound ≤ s.node) (ht : g.idBound ≤ t.node) :
    (connect s t).Meets g' (fun _ => g.Extends) g.Extends := by
  have hg := h.wellFormed
  refine meets_connect (fun _ => h) ?_ ?_ ?_ ?_
  · intro e d c _ _ _
    exact ⟨hg.of_table rfl, h.idBound_le, h.node?_eq⟩
  · intro e d hj hty
    exact h.apply (Patch.local_linking s t)
      (evolves_link hg hj.source hj.target hj.free hj.linkable hty).wellFormed hs ht
  · intro e d hj _ hc
    have hw := (evolves_emitted hg hj hc).wellFormed
    rw [emitted_eq_apply] at hw ⊢
    exact h.apply (Patch.local_emitting s e.type t) hw hs ht
  · intro e d hj _ _ _
    exact h.apply (Patch.local_through (n := .ofKind (.convert e.type d.type true)) rfl 0 s t)
      (evolves_bridged hg hj).wellFormed hs ht

theorem meets_copyNodes_extends (h : g.Extends g') (ids : NodeSet) :
    (copyNodes ids).Meets g'
      (fun copies g'' => g.Extends g'' ∧ ∀ p ∈ copies, g.idBound ≤ p.2) g.Extends := by
  induction ids generalizing g' with
  | nil => exact meets_pure ⟨h, by simp⟩
  | cons id ids ih =>
    unfold copyNodes
    rw [List.mapM_cons, bind_assoc]
    refine meets_ask_node_bind (fun n hn => ?_) fun _ => h
    rw [bind_assoc]
    refine Meets.bind (P := fun c g'' => g.Extends g'' ∧ g.idBound ≤ c)
      (meets_add (fun _ => ⟨h.push (h.wellFormed.node_sound hn).copy, h.idBound_le⟩) fun _ => h) ?_
    rintro c g₁ ⟨h₁, hc⟩
    rw [pure_bind]
    refine Meets.bind (ih h₁) ?_
    rintro copies g₂ ⟨h₂, hcopies⟩
    exact meets_pure ⟨h₂, List.forall_mem_cons.mpr ⟨hc, hcopies⟩⟩

theorem meets_copyLinks_extends (h : g.Extends g') {copies : CopyMap}
    (hcopies : ∀ p ∈ copies, g.idBound ≤ p.2) (id : NodeId) {c : NodeId} (hc : g.idBound ≤ c) :
    (copyLinks copies id c).Meets g' (fun _ => g.Extends) g.Extends := by
  refine meets_ask_node_bind (fun n _ => ?_) fun _ => h
  refine meets_forM_mem h ?_
  rintro ⟨input, slot⟩ - g₁ h₁
  dsimp only
  split
  · exact meets_pure h₁
  · split
    · exact meets_pure h₁
    · rename_i sc hsc
      exact meets_discard (meets_connect_extends h₁ (hcopies _ (CopyMap.mem_of_lookup hsc)) hc)

/-- Copying leaves the nodes alone that are there, even if it fails. -/
theorem meets_copySubgraph_extends (hg : g.WellFormed) (ids : NodeSet) :
    (copySubgraph ids).Meets g (fun _ => g.Extends) g.Extends := by
  refine Meets.bind (meets_copyNodes_extends (.refl hg) ids) ?_
  rintro copies g₁ ⟨h₁, hcopies⟩
  refine Meets.bind (P := fun _ => g.Extends) (meets_forM_mem h₁ ?_) fun _ _ h => meets_pure h
  rintro ⟨id, c⟩ hp g₂ h₂
  exact meets_copyLinks_extends h₂ hcopies id (hcopies _ hp)

/-- **Copying a set of nodes copies the subgraph that they induce.** It never fails if all of them
are there, whether they are linked in cycles or to themselves, and also for the output node. -/
theorem run_copySubgraph (hg : g.WellFormed) (hm : g.finalized = false) {ids : NodeSet}
    (hs : ids.Pairwise (· < ·)) (hids : ∀ id ∈ ids, id ∈ g.ids) :
    ∃ copies g', (copySubgraph ids).run g = .ok copies g' ∧ g.CopiesSubgraph ids copies g' := by
  obtain ⟨copies, g', hrun, h, hext⟩ := ends_iff.mp
    ((ends_copies hg hm hids).and_meets (meets_copySubgraph_extends hg ids))
  exact ⟨copies, g', hrun, h.copiesSubgraph hids hext hs⟩

/-- A sum that is fed by itself and by a value, and that displaces the surface. -/
def loopedSum : Graph :=
  Primitive.runAll [.addKind .value, .addKind (.math .add false), .connect ⟨2, 0⟩ ⟨2, 0⟩,
    .connect ⟨1, 0⟩ ⟨2, 1⟩, .connect ⟨2, 0⟩ ⟨0, 2⟩] Graph.empty

/-- All but the value are copied. The copy of the sum is fed by itself, and not by the value. -/
theorem run_copySubgraph_loopedSum :
    loopedSum.WellFormed ∧ loopedSum.finalized = false ∧ (∀ id ∈ [0, 2, 3], id ∈ loopedSum.ids) ∧
      ∃ g', (copySubgraph [0, 2, 3]).run loopedSum = .ok [(0, 4), (2, 5), (3, 6)] g' ∧
        loopedSum.CopiesSubgraph [0, 2, 3] [(0, 4), (2, 5), (3, 6)] g' ∧
        g'.linkAt ⟨4, 2⟩ = some ⟨6, 0⟩ ∧ g'.linkAt ⟨5, 0⟩ = some ⟨5, 0⟩ ∧
        g'.linkAt ⟨5, 1⟩ = none := by
  have hg : loopedSum.WellFormed := (Primitive.follows_runAll wellFormed_empty _).wellFormed
  have hids : ∀ id ∈ [0, 2, 3], id ∈ loopedSum.ids := by decide +kernel
  obtain ⟨copies, g', hrun, h⟩ := run_copySubgraph hg rfl (by decide) hids
  have heval : (copySubgraph [0, 2, 3]).Ends loopedSum fun copies g' =>
      copies = [(0, 4), (2, 5), (3, 6)] ∧ g'.linkAt ⟨4, 2⟩ = some ⟨6, 0⟩ ∧
        g'.linkAt ⟨5, 0⟩ = some ⟨5, 0⟩ ∧ g'.linkAt ⟨5, 1⟩ = none := by decide +kernel
  rw [Ends, Meets, hrun] at heval
  obtain ⟨rfl, hlinks⟩ := heval
  exact ⟨hg, rfl, hids, g', hrun, h, hlinks⟩

end Edit

end Shading
