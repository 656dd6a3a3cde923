import Shading.Proofs.Patch

/-!
# Links that are taken away

In `g.withoutLinks cut` the inputs `cut` of a graph are not linked. Their links are missing at both
ends, and all else is as it was. To unlink one input is to take its link away
(`WellFormed.unlink_eq_withoutLinks`), and links that are taken away one after another may be taken
away at once (`withoutLinks_withoutLinks`). -/

namespace Shading

namespace Node

/-- The node with a given id, without the links of some inputs. -/
def withoutLinks (n : Node) (id : NodeId) (cut : List InputRef) : Node :=
  { n with
    inputs := n.inputs.mapIdx fun slot i => if ⟨id, slot⟩ ∈ cut then i.unlink else i
    outputs := n.outputs.map fun o => { o with consumers := o.consumers.filter (· ∉ cut) } }

theorem withoutLinks_nil (n : Node) (id : NodeId) : n.withoutLinks id [] = n := by
  have hin : (n.inputs.mapIdx fun _ i => i) = n.inputs := List.ext_getElem? fun slot => by simp
  have hall : ∀ l : List InputRef, (l.filter fun _ => true) = l :=
    fun l => List.filter_eq_self.mpr fun _ _ => rfl
  simp [withoutLinks, hin, hall]

theorem withoutLinks_withoutLinks (n : Node) (id : NodeId) (cut cut' : List InputRef) :
    (n.withoutLinks id cut).withoutLinks id cut' = n.withoutLinks id (cut ++ cut') := by
  have hin : ∀ (r : InputRef) (i : Input),
      (if r ∈ cut' then (if r ∈ cut then i.unlink else i).unlink else if r ∈ cut then i.unlink else i) =
        if r ∈ cut ++ cut' then i.unlink else i := by
    intro r i
    by_cases h : r ∈ cut <;> by_cases h' : r ∈ cut' <;> simp [h, h', Input.unlink]
  simp [withoutLinks, Function.comp_def, hin, List.filter_filter, Bool.and_comm]

end Node

namespace Graph

/-- Changes all nodes. -/
def mapNodes (g : Graph) (f : NodeId → Node → Node) : Graph :=
  { g with table := g.table.mapIdx fun id n => n.map (f id) }

/-- The graph without the links of some inputs. -/
def withoutLinks (g : Graph) (cut : List InputRef) : Graph :=
  g.mapNodes fun id n => n.withoutLinks id cut

variable {g : Graph}

@[simp] theorem idBound_mapNodes (f : NodeId → Node → Node) : (g.mapNodes f).idBound = g.idBound := by
  simp [idBound, mapNodes]

@[simp] theorem node?_mapNodes (f : NodeId → Node → Node) (id : NodeId) :
    (g.mapNodes f).node? id = (g.node? id).map (f id) := by
  simp only [node?, mapNodes, Array.getElem?_mapIdx]
  cases g.table[id]? with
  | none => rfl
  | some n => cases n <;> rfl

theorem mapNodes_mapNodes (f f' : NodeId → Node → Node) :
    (g.mapNodes f).mapNodes f' = g.mapNodes fun id n => f' id (f id n) :=
  eq_of_node? (by simp) (fun id => by simp [Function.comp_def]) rfl rfl rfl

theorem mapNodes_congr {f f' : NodeId → Node → Node}
    (h : ∀ id n, g.node? id = some n → f id n = f' id n) : g.mapNodes f = g.mapNodes f' := by
  refine eq_of_node? (by simp) (fun id => ?_) rfl rfl rfl
  simp only [node?_mapNodes]
  exact Option.map_congr (h id)

theorem mapNodes_eq_self {f : NodeId → Node → Node} (h : ∀ id n, f id n = n) : g.mapNodes f = g :=
  eq_of_node? (by simp) (fun id => by simp [funext (h id)]) rfl rfl rfl

section

variable {f : NodeId → Node → Node} (hf : ∀ id, KeepsSockets (f id))
include hf

theorem input?_mapNodes (r : InputRef) : (g.mapNodes f).input? r = g.input? r := by
  rw [input?, input?, node?_mapNodes]
  cases g.node? r.node with
  | none => rfl
  | some n => simp [(hf r.node n).2.1]

theorem output?_mapNodes (o : OutputRef) : (g.mapNodes f).output? o = g.output? o := by
  rw [output?, output?, node?_mapNodes]
  cases g.node? o.node with
  | none => rfl
  | some n => simp [(hf o.node n).2.2]

/-- Notes on all nodes do not matter to links. -/
theorem trims_mapNodes (hg : g.WellFormed) : g.Trims (fun _ => False) (g.mapNodes f) := by
  have hlayout : ∀ id, (g.mapNodes f).layout? id = g.layout? id := by
    intro id
    rw [layout?, layout?, node?_mapNodes]
    cases g.node? id with
    | none => rfl
    | some n => simp [Node.layout, (hf id n).1, (hf id n).2.1, (hf id n).2.2]
  have hlink : ∀ r, (g.mapNodes f).linkAt r = g.linkAt r := fun r => by
    rw [linkAt, linkAt, input?_mapNodes hf]
  have hfan : ∀ o, (g.mapNodes f).fanOut o = g.fanOut o := fun o => by
    rw [fanOut, fanOut, output?_mapNodes hf]
  refine ⟨hg.of_layout hlayout ?_ ?_ ?_ ?_, rfl, fun h => h, idBound_mapNodes f, hlayout,
    fun _ => False.elim, fun r _ => hlink r⟩
  · intro r o
    rw [hlink, hfan, hg.link_iff]
  · intro o
    rw [hfan]
    exact hg.nodup o
  · intro r o d e h hd he
    rw [hlink] at h
    exact hg.typed r o d e h hd he
  · intro r d l hd h
    rw [literalAt, input?_mapNodes hf] at h
    exact hg.shaped r d l hd h

end

theorem withoutLinks_nil : g.withoutLinks [] = g :=
  mapNodes_eq_self fun id n => n.withoutLinks_nil id

theorem withoutLinks_withoutLinks (cut cut' : List InputRef) :
    (g.withoutLinks cut).withoutLinks cut' = g.withoutLinks (cut ++ cut') :=
  (mapNodes_mapNodes _ _).trans
    (mapNodes_congr fun id n _ => n.withoutLinks_withoutLinks id cut cut')

theorem node?_unlink (s : OutputRef) (t : InputRef) (id : NodeId) :
    (g.unlink s t).node? id = (g.node? id).map fun n =>
      { n with
        inputs := if id = t.node then n.inputs.modify t.slot Input.unlink else n.inputs
        outputs := if id = s.node then
            n.outputs.modify s.slot fun o => { o with consumers := o.consumers.filter (· != t) }
          else n.outputs } := by
  change ((g.modifyInput t _).modifyOutput s _).node? id = _
  simp only [modifyOutput, modifyInput, node?_modifyNode]
  cases h : g.node? id with
  | none => split_ifs <;> simp_all
  | some n => split_ifs <;> simp_all [Node.modifyInput, Node.modifyOutput]

/-- Only the output that an input is linked to has it among its consumers, so nothing else is lost if
the input is taken from the consumers of all outputs. -/
theorem WellFormed.unlink_eq_withoutLinks (hg : g.WellFormed) {s : OutputRef} {t : InputRef}
    (h : g.linkAt t = some s) : g.unlink s t = (g.withoutLinks [t]).touch := by
  refine eq_of_node? ((g.idBound_unlink s t).trans (g.idBound_mapNodes _).symm) (fun id => ?_) rfl rfl rfl
  refine (node?_unlink s t id).trans (Eq.trans ?_ (g.node?_mapNodes _ id).symm)
  refine Option.map_congr fun n hn => ?_
  obtain ⟨t, k⟩ := t
  have hin : (if id = t then n.inputs.modify k Input.unlink else n.inputs) =
      n.inputs.mapIdx fun slot i => if (⟨id, slot⟩ : InputRef) ∈ [⟨t, k⟩] then i.unlink else i := by
    refine List.ext_getElem? fun slot => ?_
    have heq : (⟨id, slot⟩ : InputRef) ∈ [⟨t, k⟩] ↔ id = t ∧ k = slot := by
      rw [List.mem_singleton, InputRef.mk.injEq, eq_comm (a := slot)]
    rw [getElem?_modify_if, List.getElem?_mapIdx]
    simp only [heq]
  have hout : (if id = s.node then
        n.outputs.modify s.slot fun o => { o with consumers := o.consumers.filter (· != ⟨t, k⟩) }
      else n.outputs) =
      n.outputs.map fun o => { o with consumers := o.consumers.filter (· ∉ [⟨t, k⟩]) } := by
    refine List.ext_getElem? fun slot => ?_
    rw [getElem?_modify_if, List.getElem?_map]
    refine Option.map_congr fun o ho => ?_
    have hfilter : o.consumers.filter (· ∉ [⟨t, k⟩]) = o.consumers.filter (· != ⟨t, k⟩) :=
      List.filter_congr fun r _ => by simp [bne, beq_eq_decide]
    rw [hfilter]
    split_ifs with hs
    · rfl
    · have hmem : (⟨t, k⟩ : InputRef) ∉ o.consumers := by
        have hf : g.fanOut ⟨id, slot⟩ = o.consumers := by simp [fanOut, output?, hn, ho]
        rw [← hf, ← hg.link_iff, h, Option.some.injEq]
        rintro rfl
        exact hs ⟨rfl, rfl⟩
      rw [List.filter_eq_self.mpr fun r hr => bne_iff_ne.mpr (ne_of_mem_of_not_mem hr hmem)]
  rw [Node.withoutLinks, hin, hout]

end Graph

namespace Edit

open Shading.Graph

theorem ends_disconnectInput_unlink {g : Graph} (hm : g.finalized = false) {s : OutputRef}
    {t : InputRef} (h : g.linkAt t = some s) :
    (disconnectInput t).Ends g fun _ g' => g' = g.unlink s t := by
  obtain ⟨i, hi, hl⟩ := Option.bind_eq_some_iff.mp h
  refine meets_requireMutable_bind (fun _ => ?_) fun hf => by simp [hm] at hf
  refine ends_ask_bind ((g.input_eq_ok).mpr hi) ?_
  rw [hl]
  exact ends_modify rfl

/-- Whether an input is unlinked or not, nothing else happens. -/
theorem ends_disconnectIfLinked_quiet {g : Graph} (hg : g.WellFormed) (hm : g.finalized = false)
    {t : InputRef} {d : InputDecl} (ht : g.inputDecl? t = some d) :
    (disconnectIfLinked t).Ends g fun _ g' => g.Trims (· = t) g' ∧ g'.diagnostics = g.diagnostics ∧
      ∀ id, g'.bare? id = g.bare? id := by
  obtain ⟨i, hi, -⟩ := Option.map_eq_some_iff.mp ht
  have hl : g.linkAt t = i.link := by simp [linkAt, hi]
  refine ends_ask_bind ((g.input_eq_ok).mpr hi) ?_
  cases hs : i.link with
  | none =>
    rw [if_neg (by simp [Input.isLinked, hs])]
    refine ends_pure ⟨.refl hg ?_, rfl, fun _ => rfl⟩
    rintro _ rfl
    rw [hl, hs]
  | some s =>
    rw [if_pos (by simp [Input.isLinked, hs])]
    refine (ends_disconnectInput_unlink hm (hl.trans hs)).mono ?_
    rintro _ _ rfl
    exact ⟨trims_unlink hg (hl.trans hs), rfl, fun id => g.bare?_unlink s t id⟩

end Edit

end Shading
