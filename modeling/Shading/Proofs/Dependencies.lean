import Shading.Proofs.Primitive
import Shading.Proofs.Reachability

/-!
# What an input depends on

A chain of links leads from an output of a node to an input, each link into the node from which the
next one comes (`Graph.LinkChain`). The search for the nodes that an input depends on finds exactly
those that such a chain starts from (`Graph.dependencies_exact`). It goes by nodes and forgets how it
came to them, so the chains are compared with steps from node to node first (`exists_linkChain_iff`).
-/

namespace Shading.Graph

open Relation

/-- The links of the graph in `ls` lead one after the other from an output of `a` to the input `r`. -/
structure LinkChain (g : Graph) (a : NodeId) (ls : List Link) (r : InputRef) : Prop where
  first : ls.head?.map (·.source.node) = some a
  last : ls.getLast?.map (·.target) = some r
  linked : ∀ l ∈ ls, g.linkAt l.target = some l.source
  joined : ls.IsChain fun l l' => l.target.node = l'.source.node

variable {g : Graph}

namespace LinkChain

theorem single {r : InputRef} {o : OutputRef} (h : g.linkAt r = some o) :
    g.LinkChain o.node [⟨o, r⟩] r :=
  ⟨rfl, rfl, by simpa using h, .singleton _⟩

/-- One more link in front of a chain. -/
theorem cons {a : NodeId} {l : Link} {ls : List Link} {r : InputRef} (h : g.LinkChain a ls r)
    (hl : g.linkAt l.target = some l.source) (ha : l.target.node = a) :
    g.LinkChain l.source.node (l :: ls) r := by
  obtain ⟨l', hl', rfl⟩ := Option.map_eq_some_iff.mp h.first
  obtain ⟨rest, rfl⟩ := List.head?_eq_some_iff.mp hl'
  refine ⟨rfl, ?_, List.forall_mem_cons.mpr ⟨hl, h.linked⟩, .cons_cons ha h.joined⟩
  rw [List.getLast?_cons_cons, h.last]

/-- A chain starts with a link to its end, or with one to the start of a shorter chain. -/
theorem uncons {a : NodeId} {l : Link} {ls : List Link} {r : InputRef}
    (h : g.LinkChain a (l :: ls) r) :
    a = l.source.node ∧ (ls = [] ∧ l.target = r ∨ g.LinkChain l.target.node ls r) := by
  obtain rfl : l.source.node = a := by simpa using h.first
  refine ⟨rfl, ?_⟩
  cases ls with
  | nil => exact Or.inl ⟨rfl, by simpa using h.last⟩
  | cons l' rest =>
    obtain ⟨hjoin, hrest⟩ := List.isChain_cons_cons.mp h.joined
    refine Or.inr ⟨by simp [hjoin], ?_, (List.forall_mem_cons.mp h.linked).2, hrest⟩
    rw [← h.last, List.getLast?_cons_cons]

end LinkChain

/-- A chain to an input leads to the node that feeds it, and from there on by one link. -/
theorem exists_linkChain_iff {a : NodeId} {r : InputRef} :
    (∃ ls, g.LinkChain a ls r) ↔ ∃ o, g.linkAt r = some o ∧ ReflTransGen g.Feeds a o.node := by
  constructor
  · rintro ⟨ls, h⟩
    induction ls generalizing a with
    | nil => exact absurd h.first (by simp)
    | cons l ls ih =>
      have hl := h.linked l List.mem_cons_self
      obtain ⟨rfl, ⟨-, rfl⟩ | hrest⟩ := h.uncons
      · exact ⟨l.source, hl, .refl⟩
      · obtain ⟨o, ho, hpath⟩ := ih hrest
        exact ⟨o, ho, hpath.head (feeds_of_linkAt hl)⟩
  · rintro ⟨o, ho, hpath⟩
    induction hpath using ReflTransGen.head_induction_on with
    | refl => exact ⟨_, .single ho⟩
    | head hab _ ih =>
      obtain ⟨r', o', hl, rfl, rfl⟩ := hab
      obtain ⟨ls, hls⟩ := ih
      exact ⟨_, hls.cons (l := ⟨o', r'⟩) hl rfl⟩

/-- The fault that comes of an input that is not there. -/
theorem input_eq_error {r : InputRef} (h : g.inputDecl? r = none) :
    g.input r = .error (if g.contains r.node then .slotOutOfRange r.node r.slot
      else .nodeNotFound r.node) := by
  unfold input node contains
  cases hn : g.node? r.node with
  | none => rfl
  | some n =>
    have hslot : n.inputs[r.slot]? = none := by simpa [inputDecl?, input?, hn] using h
    simp [bind, Except.bind, hslot]

/-- **The search finds the nodes from which chains of links lead to an input.** They are listed in
increasing order. For an input that is not there, the search fails. -/
theorem dependencies_exact (hg : g.WellFormed) (r : InputRef) :
    (∀ d, g.inputDecl? r = some d → ∃ ids, g.dependencies r = .ok ids ∧ ids.Pairwise (· < ·) ∧
      ∀ a, a ∈ ids ↔ ∃ ls, g.LinkChain a ls r) ∧
    (g.inputDecl? r = none → g.dependencies r = .error (if g.contains r.node
      then .slotOutOfRange r.node r.slot else .nodeNotFound r.node)) := by
  refine ⟨fun d hd => ?_, fun hnone => ?_⟩
  · cases hl : g.linkAt r with
    | none =>
      have hlink : g.linkOf r = .ok none := (g.linkOf_eq_ok).mpr ⟨by simp [hd], hl⟩
      refine ⟨[], by rw [dependencies, hlink]; rfl, .nil, fun a => ?_⟩
      rw [exists_linkChain_iff]
      simp [hl]
    | some o =>
      have hnode := (hg.mem_ids_of_feeds (feeds_of_linkAt hl)).1
      refine ⟨_, dependencies_eq hl, pairwise_cone _, fun a => ?_⟩
      rw [exists_linkChain_iff, hg.mem_cone hnode]
      simp [hl]
  · rw [dependencies, linkOf, input_eq_error hnone]
    rfl

/-- Two operations that feed each other. -/
def mutualLoop : Graph :=
  Primitive.runAll [.addKind (.math .add false), .addKind (.math .add false),
    .connect ⟨1, 0⟩ ⟨2, 0⟩, .connect ⟨2, 0⟩ ⟨1, 0⟩] empty

/-- Around the loop, a node is behind an input of its own. -/
theorem dependencies_exact_mutualLoop :
    mutualLoop.WellFormed ∧ mutualLoop.dependencies ⟨1, 0⟩ = .ok [1, 2] ∧
      (∃ ls, mutualLoop.LinkChain 1 ls ⟨1, 0⟩) ∧ ¬ (∃ ls, mutualLoop.LinkChain 0 ls ⟨1, 0⟩) ∧
      mutualLoop.dependencies ⟨1, 3⟩ = .error (.slotOutOfRange 1 3) := by
  have hg : mutualLoop.WellFormed := (Primitive.follows_runAll wellFormed_empty _).wellFormed
  have hids : mutualLoop.dependencies ⟨1, 0⟩ = .ok [1, 2] := by decide +kernel
  obtain ⟨ids, hok, -, hmem⟩ := (dependencies_exact hg ⟨1, 0⟩).1 _ rfl
  obtain rfl : [1, 2] = ids := by simpa [hids] using hok
  exact ⟨hg, hids, (hmem 1).mp (by simp), fun h => by simpa using (hmem 0).mpr h,
    (dependencies_exact hg ⟨1, 3⟩).2 rfl⟩

end Shading.Graph
