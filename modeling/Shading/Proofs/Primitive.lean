import Mathlib.Algebra.GroupWithZero.Nat
import Shading.Listing
import Shading.Proofs.Subgraph

/-!
# The primitives of authoring

A graph is written by means of a few edits. Each of them may fail, some after they have done a part
of their work. In any case they leave a well-formed graph behind. -/

namespace Shading

namespace Graph

/-! ### Counting links -/

variable (g : Graph)

theorem mem_linksInto {id : NodeId} {n : Node} {l : Link} :
    l ∈ linksInto id n ↔
      l.target.node = id ∧ (n.inputs[l.target.slot]?).bind (·.link) = some l.source := by
  obtain ⟨s, ⟨id', slot⟩⟩ := l
  simp only [linksInto, List.mem_filterMap, Prod.exists, List.mk_mem_zipIdx_iff_getElem?,
    Option.map_eq_some_iff, Option.bind_eq_some_iff]
  constructor
  · rintro ⟨i, slot', hi, s', hs, heq⟩
    cases heq
    exact ⟨rfl, i, hi, hs⟩
  · rintro ⟨rfl, i, hi, hs⟩
    exact ⟨i, slot, hi, s, hs, rfl⟩

/-- The links of a graph are the links of its inputs. -/
theorem mem_allLinks {l : Link} : l ∈ g.allLinks ↔ g.linkAt l.target = some l.source := by
  simp only [allLinks, List.mem_flatMap, Prod.exists, mem_nodes, mem_linksInto]
  constructor
  · rintro ⟨id, n, hn, rfl, hl⟩
    simpa [linkAt, input?, hn] using hl
  · intro h
    obtain ⟨i, hi, hl⟩ := Option.bind_eq_some_iff.mp h
    obtain ⟨n, hn, hi⟩ := Option.bind_eq_some_iff.mp hi
    exact ⟨l.target.node, n, hn, rfl, by simp [hi, hl]⟩

theorem map_source_linksInto (id : NodeId) (n : Node) : (linksInto id n).map (·.source) = n.links := by
  rw [linksInto, List.map_filterMap, Node.links, ← List.zipIdx_map_fst 0 n.inputs,
    List.filterMap_map]
  simp [Function.comp_def]

theorem length_allLinks : g.allLinks.length = g.linkCount := by
  rw [linkCount, ← List.length_map (·.source), allLinks, List.map_flatMap]
  simp only [map_source_linksInto]

/-- No input is the target of two links. -/
theorem nodup_targets : (g.allLinks.map (·.target)).Nodup := by
  rw [List.Nodup, List.pairwise_map, allLinks, List.pairwise_flatMap]
  constructor
  · rintro ⟨id, n⟩ -
    have hslots : n.inputs.zipIdx.Pairwise (·.2 < ·.2) := by
      rw [← List.pairwise_map, List.zipIdx_map_snd]
      exact List.pairwise_lt_range'
    unfold linksInto
    rw [List.pairwise_filterMap]
    refine hslots.imp fun {a b} hab l hl l' hl' heq => ?_
    obtain ⟨_, -, rfl⟩ := Option.map_eq_some_iff.mp hl
    obtain ⟨_, -, rfl⟩ := Option.map_eq_some_iff.mp hl'
    simp only [InputRef.mk.injEq, true_and] at heq
    omega
  · refine g.pairwise_nodes.imp ?_
    rintro ⟨id, n⟩ ⟨id', n'⟩ hlt l hl l' hl' heq
    have h := (mem_linksInto.mp hl).1
    rw [heq, (mem_linksInto.mp hl').1] at h
    exact Nat.ne_of_lt hlt h.symm

/-- The consumers of all outputs. -/
def allConsumers : List InputRef := g.nodes.flatMap fun (_, n) => n.outputs.flatMap (·.consumers)

theorem mem_allConsumers {r : InputRef} : r ∈ g.allConsumers ↔ ∃ o, r ∈ g.fanOut o := by
  simp only [allConsumers, List.mem_flatMap, Prod.exists, mem_nodes]
  constructor
  · rintro ⟨id, n, hn, o, ho, hr⟩
    obtain ⟨slot, hslot, rfl⟩ := List.getElem_of_mem ho
    exact ⟨⟨id, slot⟩, by simpa [fanOut, output?, hn, hslot] using hr⟩
  · rintro ⟨o, hr⟩
    cases ho : g.output? o with
    | none => simp [fanOut, ho] at hr
    | some out =>
      obtain ⟨n, hn, hout⟩ := Option.bind_eq_some_iff.mp ho
      exact ⟨o.node, n, hn, out, List.mem_of_getElem? hout, by simpa [fanOut, ho] using hr⟩

theorem nodup_allConsumers (hg : g.WellFormed) : g.allConsumers.Nodup := by
  have hlink : ∀ id n, g.node? id = some n → ∀ i (h : i < n.outputs.length), ∀ r,
      r ∈ n.outputs[i].consumers → g.linkAt r = some ⟨id, i⟩ := by
    intro id n hn i hi r hr
    exact (hg.link_iff r ⟨id, i⟩).mpr (by simpa [fanOut, output?, hn, hi] using hr)
  rw [List.Nodup, allConsumers, List.pairwise_flatMap]
  constructor
  · rintro ⟨id, n⟩ hn
    rw [mem_nodes] at hn
    rw [List.pairwise_flatMap]
    refine ⟨fun o ho => ?_, List.pairwise_iff_getElem.mpr fun i j hi hj hij r hr r' hr' heq => ?_⟩
    · obtain ⟨i, hi, rfl⟩ := List.getElem_of_mem ho
      have h : n.outputs[i].consumers.Nodup := by
        simpa [fanOut, output?, hn, hi] using hg.nodup ⟨id, i⟩
      exact h
    · have h := hlink id n hn i hi r hr
      rw [heq, hlink id n hn j hj r' hr'] at h
      simp only [Option.some.injEq, OutputRef.mk.injEq, true_and] at h
      omega
  · refine g.pairwise_nodes.imp_of_mem ?_
    rintro ⟨id, n⟩ ⟨id', n'⟩ hn hn' hlt r hr r' hr' heq
    rw [mem_nodes] at hn hn'
    obtain ⟨o, ho, hr⟩ := List.mem_flatMap.mp hr
    obtain ⟨o', ho', hr'⟩ := List.mem_flatMap.mp hr'
    obtain ⟨i, hi, rfl⟩ := List.getElem_of_mem ho
    obtain ⟨j, hj, rfl⟩ := List.getElem_of_mem ho'
    have h := hlink id n hn i hi r hr
    rw [heq, hlink id' n' hn' j hj r' hr'] at h
    simp only [Option.some.injEq, OutputRef.mk.injEq] at h
    exact Nat.ne_of_lt hlt h.1.symm

/-- **Links are counted alike from both ends.** -/
theorem sum_consumers (hg : g.WellFormed) :
    (g.nodes.map fun (_, n) => (n.outputs.map (·.consumers.length)).sum).sum = g.linkCount := by
  have hperm : g.allConsumers.Perm (g.allLinks.map (·.target)) := by
    refine (List.perm_ext_iff_of_nodup (g.nodup_allConsumers hg) g.nodup_targets).mpr fun r => ?_
    simp only [mem_allConsumers, ← hg.link_iff, List.mem_map, mem_allLinks]
    constructor
    · rintro ⟨o, ho⟩
      exact ⟨⟨o, r⟩, ho, rfl⟩
    · rintro ⟨l, hl, rfl⟩
      exact ⟨l.source, hl⟩
  have hlen := hperm.length_eq
  rw [List.length_map, length_allLinks, allConsumers, List.length_flatMap] at hlen
  simpa only [List.length_flatMap] using hlen

/-! ### What every primitive keeps -/

/-- `g'` is well-formed, finalized if and only if `g` is, and without new links if it still counts
as simplified. -/
structure Follows (g g' : Graph) : Prop where
  wellFormed : g'.WellFormed
  finalized : g'.finalized = g.finalized
  calm : g.Calm g'

variable {g} {g' : Graph}

theorem Evolves.follows {T : InputRef → Prop} (h : g.Evolves T g') : g.Follows g' :=
  ⟨h.wellFormed, h.finalized, h.calm⟩

theorem Removes.follows {ids : List NodeId} (h : g.Removes ids g') : g.Follows g' :=
  ⟨h.wellFormed, h.finalized, fun hs =>
    ⟨h.simplified hs, fun r o ho => ((h.linkAt_iff r o).mp ho).1⟩⟩

theorem Follows.refl (hg : g.WellFormed) : g.Follows g :=
  (Evolves.refl (T := fun _ => False) hg).follows

theorem Follows.trans {g₁ g₂ g₃ : Graph} (h : g₁.Follows g₂) (h' : g₂.Follows g₃) :
    g₁.Follows g₃ :=
  ⟨h'.wellFormed, h'.finalized.trans h.finalized, h.calm.trans h'.calm⟩

end Graph

/-- The edits that a graph is written with. -/
inductive Primitive where
  | addKind (kind : NodeKind)
  /-- Adds a copy of a node of the graph. -/
  | addCopy (id : NodeId)
  | storeNamed (id : NodeId) (name : String) (literal : Literal)
  | store (target : InputRef) (literal : Literal)
  | connect (source : OutputRef) (target : InputRef)
  | connectNamed (source : NodeId) (output : String) (target : NodeId) (input : String)
  | disconnectInput (target : InputRef)
  | disconnectOutput (source : OutputRef)
  | disconnectNodeInputs (id : NodeId)
  | relinkInput (source target : InputRef)
  | relinkOutput (source : OutputRef) (replacement : Option OutputRef)
  | bypass (id : NodeId) (source : OutputRef) (replacement : Option OutputRef)
  | copySubgraph (ids : NodeSet)
  | removeNodes (ids : NodeSet)

namespace Primitive

def run : Primitive → Edit Unit
  | addKind kind => discard <| Edit.addKind kind
  | addCopy id => do discard <| Edit.add (← Edit.ask (·.node id))
  | storeNamed id name literal => discard <| Edit.storeNamed id name literal
  | store target literal => Edit.store target literal
  | connect source target => discard <| Edit.connect source target
  | connectNamed source output target input =>
    discard <| Edit.connectNamed source output target input
  | disconnectInput target => Edit.disconnectInput target
  | disconnectOutput source => Edit.disconnectOutput source
  | disconnectNodeInputs id => Edit.disconnectNodeInputs id
  | relinkInput source target => Edit.relinkInput source target
  | relinkOutput source replacement => Edit.relinkOutput source replacement
  | bypass id source replacement => Edit.bypass id source replacement
  | copySubgraph ids => discard <| Edit.copySubgraph ids
  | removeNodes ids => Edit.removeNodes ids

open Shading.Graph Edit

/-- A primitive leaves a sound graph behind, with a fault or without. -/
theorem follows {g : Graph} (hg : g.WellFormed) (p : Primitive) : g.Follows (p.run.after g) := by
  have hrefl : ∀ {P : Prop} (g' : Graph), g' = g ∧ P → g.Follows g' := by
    rintro P _ ⟨rfl, -⟩
    exact .refl hg
  refine Meets.after ?_
  cases p with
  | addKind kind =>
    exact meets_discard (meets_add (fun _ => (evolves_push hg (Node.sound_ofKind kind)).follows)
      fun _ => .refl hg)
  | addCopy id =>
    refine meets_ask_node_bind (fun n hn => ?_) fun _ => .refl hg
    exact meets_discard (meets_add (fun _ => (evolves_push hg (hg.node_sound hn)).follows)
      fun _ => .refl hg)
  | storeNamed id name literal =>
    exact meets_discard ((meets_storeNamed hg id name literal).mono (fun _ _ h => h.follows) hrefl)
  | store target literal =>
    exact (meets_store hg target literal).mono (fun _ _ h => h.evolves.follows) hrefl
  | connect source target =>
    exact meets_discard ((meets_connect_evolves hg source target).mono (fun _ _ h => h.follows)
      hrefl)
  | connectNamed source output target input =>
    refine meets_discard ((meets_connectNamed hg source output target input).mono
      (fun _ _ h => h.follows) ?_)
    rintro _ rfl
    exact .refl hg
  | disconnectInput target =>
    exact (meets_disconnectInput hg target).mono (fun _ _ h => h.evolves.follows) hrefl
  | disconnectOutput source =>
    exact (meets_disconnectOutput hg source).mono (fun _ _ h => h.evolves.follows) hrefl
  | disconnectNodeInputs id =>
    exact (meets_disconnectNodeInputs hg id).mono (fun _ _ h => h.evolves.follows) hrefl
  | relinkInput source target =>
    exact (meets_relinkInput hg source target).mono (fun _ _ h => h.follows) fun _ h => h.follows
  | relinkOutput source replacement =>
    exact (meets_relinkOutput hg source replacement).mono (fun _ _ h => h.follows)
      fun _ h => h.1.follows
  | bypass id source replacement =>
    exact (meets_bypass hg id source replacement).mono (fun _ _ h => h.follows)
      fun _ h => h.1.follows
  | copySubgraph ids =>
    exact meets_discard ((meets_copySubgraph hg ids).mono (fun _ _ h => h.evolves.follows)
      fun _ h => h.1.follows)
  | removeNodes ids =>
    exact (meets_removeNodes hg ids).mono (fun _ _ h => h.follows) hrefl

/-- Runs primitives one after the other, also after one that fails. -/
def runAll (ps : List Primitive) (g : Graph) : Graph := ps.foldl (fun g p => p.run.after g) g

theorem follows_runAll {g : Graph} (hg : g.WellFormed) (ps : List Primitive) :
    g.Follows (runAll ps g) := by
  induction ps generalizing g with
  | nil => exact .refl hg
  | cons p ps ih => exact (p.follows hg).trans (ih (p.follows hg).wellFormed)

/-- **Well-formedness is an invariant.** The graph at the start is well-formed, in a well-formed
graph the outputs list as many consumers as there are links, and a primitive leaves a well-formed
graph behind, whether it fails or not. In any graph the ids are increasing and below the bound. -/
theorem wellFormed_invariant :
    Graph.empty.WellFormed ∧
      (∀ g : Graph, g.ids.Pairwise (· < ·) ∧ ∀ id ∈ g.ids, id < g.idBound) ∧
      (∀ g : Graph, g.WellFormed →
        (g.nodes.map fun (_, n) => (n.outputs.map (·.consumers.length)).sum).sum = g.linkCount) ∧
      ∀ g : Graph, g.WellFormed → ∀ p : Primitive, (p.run.after g).WellFormed :=
  ⟨wellFormed_empty, fun g => ⟨g.pairwise_ids, fun _ => g.lt_idBound_of_mem⟩,
    fun g hg => g.sum_consumers hg, fun _ hg p => (p.follows hg).wellFormed⟩

/-- An operation that is linked to itself. -/
def selfLoop : Graph := runAll [.addKind (.math .add false), .connect ⟨1, 0⟩ ⟨1, 0⟩] Graph.empty

/-- Moving the link of a loop to a node that is not there fails after the link is cut. -/
theorem wellFormed_invariant_selfLoop :
    selfLoop.linkAt ⟨1, 0⟩ = some ⟨1, 0⟩ ∧
      ((relinkInput ⟨1, 0⟩ ⟨2, 0⟩).run.run selfLoop matches .error ..) = true ∧
      ((relinkInput ⟨1, 0⟩ ⟨2, 0⟩).run.after selfLoop).linkAt ⟨1, 0⟩ = none ∧
      ((relinkInput ⟨1, 0⟩ ⟨2, 0⟩).run.after selfLoop).WellFormed := by
  obtain ⟨hempty, -, -, hstep⟩ := wellFormed_invariant
  have hloop : selfLoop.WellFormed := (follows_runAll hempty _).wellFormed
  exact ⟨by decide, by decide, by decide, hstep _ hloop _⟩

end Primitive

end Shading
