import Mathlib.Tactic.Common
import Shading.Graph.Basic

/-!
# What can be seen of a graph

All that matters of the table of a graph is what it answers to a few questions: the layout of a
node, which is its kind and what the catalog fixes about its sockets (`layout?`), the literal and
the link of an input (`literalAt`, `linkAt`) and the consumers of an output (`fanOut`). For each
change of a graph there is one lemma for each question, and later proofs do not look at the table.
-/

namespace Shading

/-- What stays the same about a node as long as it exists. -/
structure Layout where
  kind : NodeKind
  inputs : List InputDecl
  outputs : List OutputDecl

/-- The layout that the catalog gives to the nodes of a kind. -/
def NodeKind.layout (k : NodeKind) : Layout := ⟨k, k.inputDecls, k.outputDecls⟩

namespace Layout

def inputSlot? (l : Layout) (name : String) : Option Nat := l.inputs.findIdx? (·.name == name)

def outputSlot? (l : Layout) (name : String) : Option Nat := l.outputs.findIdx? (·.name == name)

end Layout

/-- A change of one entry cannot be seen in a list of values that it does not affect. -/
theorem map_modify {α β : Type} {f : α → β} {h : α → α} (hf : ∀ a, f (h a) = f a) (l : List α)
    (i : Nat) : (l.modify i h).map f = l.map f := by
  refine List.ext_getElem? fun j => ?_
  simp only [List.getElem?_map, List.getElem?_modify]
  cases l[j]? with
  | none => rfl
  | some a => by_cases hj : i = j <;> simp [hj, hf]

namespace Node

def layout (n : Node) : Layout where
  kind := n.kind
  inputs := n.inputs.map (·.toInputDecl)
  outputs := n.outputs.map (·.toOutputDecl)

theorem inputSlot?_eq_layout (n : Node) (name : String) :
    n.inputSlot? name = n.layout.inputSlot? name := by
  simp [inputSlot?, Layout.inputSlot?, layout, List.findIdx?_map, Function.comp_def]

theorem outputSlot?_eq_layout (n : Node) (name : String) :
    n.outputSlot? name = n.layout.outputSlot? name := by
  simp [outputSlot?, Layout.outputSlot?, layout, List.findIdx?_map, Function.comp_def]

theorem layout_modifyInput (n : Node) (slot : Nat) {f : Input → Input}
    (hf : ∀ i, (f i).toInputDecl = i.toInputDecl) : (n.modifyInput slot f).layout = n.layout := by
  simp only [layout, modifyInput, map_modify hf]

theorem layout_modifyOutput (n : Node) (slot : Nat) {f : Output → Output}
    (hf : ∀ o, (f o).toOutputDecl = o.toOutputDecl) :
    (n.modifyOutput slot f).layout = n.layout := by
  simp only [layout, modifyOutput, map_modify hf]

theorem unlinked_modifyInput (n : Node) (slot : Nat) {f : Input → Input}
    (hf : ∀ i, (f i).unlink = i.unlink) : (n.modifyInput slot f).unlinked = n.unlinked := by
  simp only [unlinked, modifyInput, map_modify hf]

theorem unlinked_modifyOutput (n : Node) (slot : Nat) {f : Output → Output}
    (hf : ∀ o, (f o).unlink = o.unlink) : (n.modifyOutput slot f).unlinked = n.unlinked := by
  simp only [unlinked, modifyOutput, map_modify hf]

theorem unlinked_unlinked (n : Node) : n.unlinked.unlinked = n.unlinked := by
  simp [unlinked, Function.comp_def, Input.unlink, Output.unlink]

theorem unlinked_copy (n : Node) : n.copy.unlinked = n.copy := by
  simp [copy, unlinked, Function.comp_def, Input.unlink, Output.unlink]

theorem copy_unlinked (n : Node) : n.unlinked.copy = n.copy := by
  rw [copy, unlinked_unlinked]
  rfl

theorem layout_unlinked (n : Node) : n.unlinked.layout = n.layout := by
  simp [layout, unlinked, Function.comp_def, Input.unlink, Output.unlink]

theorem layout_ofKind (k : NodeKind) : (Node.ofKind k).layout = k.layout := by
  simp [layout, ofKind, NodeKind.layout, Function.comp_def, InputDecl.fresh, OutputDecl.fresh]

theorem unlinked_ofKind (k : NodeKind) : (Node.ofKind k).unlinked = Node.ofKind k := by
  simp [unlinked, ofKind, Function.comp_def, InputDecl.fresh, OutputDecl.fresh, Input.unlink,
    Output.unlink]

end Node

namespace Graph

/-! ### Questions -/

def layout? (g : Graph) (id : NodeId) : Option Layout := (g.node? id).map (·.layout)

def kind? (g : Graph) (id : NodeId) : Option NodeKind := (g.node? id).map (·.kind)

/-- A node apart from its links. -/
def bare? (g : Graph) (id : NodeId) : Option Node := (g.node? id).map Node.unlinked

def IsBump (g : Graph) (id : NodeId) : Prop :=
  ∃ invert objectSpace, g.kind? id = some (.bump invert objectSpace)

def IsClamp (g : Graph) (id : NodeId) : Prop := ∃ mode, g.kind? id = some (.clamp mode)

def inputDecl? (g : Graph) (r : InputRef) : Option InputDecl :=
  (g.input? r).map (·.toInputDecl)

def outputDecl? (g : Graph) (o : OutputRef) : Option OutputDecl :=
  (g.output? o).map (·.toOutputDecl)

def literalAt (g : Graph) (r : InputRef) : Option Literal := (g.input? r).map (·.literal)

/-- The output that an input is linked to. An input that does not exist is not linked. -/
def linkAt (g : Graph) (r : InputRef) : Option OutputRef := (g.input? r).bind (·.link)

/-- The consumers of an output. An output that does not exist has none. -/
def fanOut (g : Graph) (o : OutputRef) : List InputRef :=
  ((g.output? o).map (·.consumers)).getD []

variable (g : Graph)

theorem kind?_eq_layout? (id : NodeId) : g.kind? id = (g.layout? id).map (·.kind) := by
  unfold kind? layout?
  cases g.node? id <;> rfl

theorem kind?_eq_bare? (id : NodeId) : g.kind? id = (g.bare? id).map (·.kind) := by
  unfold kind? bare?
  cases g.node? id <;> rfl

theorem inputDecl?_eq_layout? (r : InputRef) :
    g.inputDecl? r = (g.layout? r.node).bind (·.inputs[r.slot]?) := by
  unfold inputDecl? layout? input?
  cases g.node? r.node <;> simp [Node.layout]

theorem outputDecl?_eq_layout? (o : OutputRef) :
    g.outputDecl? o = (g.layout? o.node).bind (·.outputs[o.slot]?) := by
  unfold outputDecl? layout? output?
  cases g.node? o.node <;> simp [Node.layout]

theorem inputDecl?_of_linkAt {r : InputRef} {o : OutputRef} (h : g.linkAt r = some o) :
    ∃ d, g.inputDecl? r = some d := by
  obtain ⟨i, hi, -⟩ := Option.bind_eq_some_iff.mp h
  exact ⟨i.toInputDecl, by simp [inputDecl?, hi]⟩

theorem kind?_of_inputDecl? {r : InputRef} {d : InputDecl} (h : g.inputDecl? r = some d) :
    ∃ k, g.kind? r.node = some k := by
  rw [inputDecl?_eq_layout?] at h
  obtain ⟨l, hl, -⟩ := Option.bind_eq_some_iff.mp h
  exact ⟨l.kind, by rw [kind?_eq_layout?, hl]; rfl⟩

theorem kind?_of_outputDecl? {o : OutputRef} {e : OutputDecl} (h : g.outputDecl? o = some e) :
    ∃ k, g.kind? o.node = some k := by
  rw [outputDecl?_eq_layout?] at h
  obtain ⟨l, hl, -⟩ := Option.bind_eq_some_iff.mp h
  exact ⟨l.kind, by rw [kind?_eq_layout?, hl]; rfl⟩

theorem exists_inputDecl?_iff {id : NodeId} {n : Node} (hn : g.node? id = some n) (slot : Nat) :
    (∃ d, g.inputDecl? ⟨id, slot⟩ = some d) ↔ slot < n.inputs.length := by
  rw [← Option.isSome_iff_exists]
  simp [inputDecl?, input?, hn]

theorem exists_outputDecl?_iff {id : NodeId} {n : Node} (hn : g.node? id = some n) (slot : Nat) :
    (∃ e, g.outputDecl? ⟨id, slot⟩ = some e) ↔ slot < n.outputs.length := by
  rw [← Option.isSome_iff_exists]
  simp [outputDecl?, output?, hn]

theorem linkAt_of_getElem? {id : NodeId} {n : Node} (hn : g.node? id = some n) {slot : Nat}
    {i : Input} (hi : n.inputs[slot]? = some i) : g.linkAt ⟨id, slot⟩ = i.link := by
  simp [linkAt, input?, hn, hi]

/-! ### Ids -/

theorem mem_ids {id : NodeId} : id ∈ g.ids ↔ g.contains id = true := by
  simp only [ids, List.mem_filter, List.mem_range, and_iff_right_iff_imp]
  intro h
  by_contra hlt
  have hnone : g.table[id]? = none := Array.getElem?_eq_none (Nat.not_lt.mp hlt)
  simp [contains, node?, hnone] at h

theorem mem_ids_iff_kind? {id : NodeId} : id ∈ g.ids ↔ ∃ k, g.kind? id = some k := by
  rw [mem_ids, contains, kind?]
  cases g.node? id <;> simp

theorem exists_node_of_mem {g : Graph} {id : NodeId} (h : id ∈ g.ids) : ∃ n, g.node? id = some n := by
  obtain ⟨k, hk⟩ := (g.mem_ids_iff_kind?).mp h
  obtain ⟨n, hn, -⟩ := Option.map_eq_some_iff.mp hk
  exact ⟨n, hn⟩

theorem mem_ids_of_node {g : Graph} {id : NodeId} {n : Node} (hn : g.node? id = some n) : id ∈ g.ids :=
  (g.mem_ids_iff_kind?).mpr ⟨n.kind, by simp [kind?, hn]⟩

theorem lt_idBound_of_mem {id : NodeId} (h : id ∈ g.ids) : id < g.idBound :=
  List.mem_range.mp (List.mem_filter.mp h).1

theorem node?_of_idBound_le {id : NodeId} (h : g.idBound ≤ id) : g.node? id = none := by
  cases hn : g.node? id with
  | none => rfl
  | some n =>
    have hm : id ∈ g.ids := (g.mem_ids).mpr (by simp [contains, hn])
    exact absurd (g.lt_idBound_of_mem hm) (Nat.not_lt.mpr h)

theorem lt_idBound_of_kind? {id : NodeId} {k : NodeKind} (h : g.kind? id = some k) :
    id < g.idBound := g.lt_idBound_of_mem ((g.mem_ids_iff_kind?).mpr ⟨k, h⟩)

theorem IsBump.lt_idBound {g : Graph} {id : NodeId} (h : g.IsBump id) : id < g.idBound := by
  obtain ⟨invert, objectSpace, hk⟩ := h
  exact g.lt_idBound_of_kind? hk

theorem pairwise_ids : g.ids.Pairwise (· < ·) := List.pairwise_lt_range.filter _

theorem mem_nodes {id : NodeId} {n : Node} : (id, n) ∈ g.nodes ↔ g.node? id = some n := by
  simp only [nodes, List.mem_filterMap, Option.map_eq_some_iff, Prod.mk.injEq]
  constructor
  · rintro ⟨id', -, n', hn, rfl, rfl⟩
    exact hn
  · intro hn
    exact ⟨id, (g.mem_ids).mpr (by simp [contains, hn]), n, hn, rfl, rfl⟩

theorem pairwise_nodes : g.nodes.Pairwise (·.1 < ·.1) := by
  rw [nodes, List.pairwise_filterMap]
  refine g.pairwise_ids.imp fun {a b} hab p hp q hq => ?_
  obtain ⟨n, -, rfl⟩ := Option.map_eq_some_iff.mp hp
  obtain ⟨m, -, rfl⟩ := Option.map_eq_some_iff.mp hq
  exact hab

/-! ### Questions that may fail -/

theorem node_eq_ok {id : NodeId} {n : Node} : g.node id = .ok n ↔ g.node? id = some n := by
  unfold node
  cases g.node? id <;> simp

theorem input_eq_ok {r : InputRef} {i : Input} : g.input r = .ok i ↔ g.input? r = some i := by
  unfold input input? node
  cases g.node? r.node with
  | none => simp [bind, Except.bind]
  | some n => cases h : n.inputs[r.slot]? <;> simp [bind, Except.bind, h]

theorem output_eq_ok {o : OutputRef} {out : Output} :
    g.output o = .ok out ↔ g.output? o = some out := by
  unfold output output? node
  cases g.node? o.node with
  | none => simp [bind, Except.bind]
  | some n => cases h : n.outputs[o.slot]? <;> simp [bind, Except.bind, h]

theorem inputRef_eq_ok {id : NodeId} {name : String} {r : InputRef} :
    g.inputRef id name = .ok r ↔
      ∃ l slot, g.layout? id = some l ∧ l.inputSlot? name = some slot ∧ r = ⟨id, slot⟩ := by
  unfold inputRef node layout?
  cases g.node? id with
  | none => simp [bind, Except.bind]
  | some n =>
    simp only [bind, Except.bind, n.inputSlot?_eq_layout]
    cases h : n.layout.inputSlot? name <;> simp [h, eq_comm]

theorem outputRef_eq_ok {id : NodeId} {name : String} {o : OutputRef} :
    g.outputRef id name = .ok o ↔
      ∃ l slot, g.layout? id = some l ∧ l.outputSlot? name = some slot ∧ o = ⟨id, slot⟩ := by
  unfold outputRef node layout?
  cases g.node? id with
  | none => simp [bind, Except.bind]
  | some n =>
    simp only [bind, Except.bind, n.outputSlot?_eq_layout]
    cases h : n.layout.outputSlot? name <;> simp [h, eq_comm]

theorem linkOf_eq_ok {r : InputRef} {l : Option OutputRef} :
    g.linkOf r = .ok l ↔ (g.inputDecl? r).isSome ∧ g.linkAt r = l := by
  unfold linkOf inputDecl? linkAt
  cases hi : g.input? r with
  | none =>
    cases h : g.input r with
    | error x => simp [bind, Except.bind]
    | ok i => simp [(g.input_eq_ok).mp h] at hi
  | some i => simp [(g.input_eq_ok).mpr hi, bind, Except.bind, pure, Except.pure]

theorem consumersOf_eq_ok {o : OutputRef} {l : List InputRef} :
    g.consumersOf o = .ok l ↔ (g.outputDecl? o).isSome ∧ g.fanOut o = l := by
  unfold consumersOf outputDecl? fanOut
  cases ho : g.output? o with
  | none =>
    cases h : g.output o with
    | error x => simp [bind, Except.bind]
    | ok out => simp [(g.output_eq_ok).mp h] at ho
  | some out => simp [(g.output_eq_ok).mpr ho, bind, Except.bind, pure, Except.pure]

/-! ### Changes of one node -/

theorem node?_modifyNode (id : NodeId) (f : Node → Node) (j : NodeId) :
    (g.modifyNode id f).node? j = if j = id then (g.node? id).map f else g.node? j := by
  simp only [node?, modifyNode, Array.getElem?_modify]
  by_cases h : j = id
  · subst h
    rw [if_pos rfl, if_pos rfl]
    cases g.table[j]? <;> rfl
  · rw [if_neg (fun e => h e.symm), if_neg h]

theorem layout?_modifyNode (id : NodeId) {f : Node → Node} (hf : ∀ n, (f n).layout = n.layout)
    (j : NodeId) : (g.modifyNode id f).layout? j = g.layout? j := by
  simp only [layout?, node?_modifyNode]
  by_cases h : j = id
  · subst h
    rw [if_pos rfl]
    cases g.node? j <;> simp [hf]
  · rw [if_neg h]

theorem bare?_modifyNode (id : NodeId) {f : Node → Node} (hf : ∀ n, (f n).unlinked = n.unlinked)
    (j : NodeId) : (g.modifyNode id f).bare? j = g.bare? j := by
  simp only [bare?, node?_modifyNode]
  by_cases h : j = id
  · subst h
    rw [if_pos rfl]
    cases g.node? j <;> simp [hf]
  · rw [if_neg h]

theorem layout?_modifyInput (t : InputRef) {f : Input → Input}
    (hf : ∀ i, (f i).toInputDecl = i.toInputDecl) (id : NodeId) :
    (g.modifyInput t f).layout? id = g.layout? id :=
  g.layout?_modifyNode _ (fun n => n.layout_modifyInput _ hf) id

theorem layout?_modifyOutput (s : OutputRef) {f : Output → Output}
    (hf : ∀ o, (f o).toOutputDecl = o.toOutputDecl) (id : NodeId) :
    (g.modifyOutput s f).layout? id = g.layout? id :=
  g.layout?_modifyNode _ (fun n => n.layout_modifyOutput _ hf) id

theorem input?_modifyInput (t : InputRef) (f : Input → Input) (r : InputRef) :
    (g.modifyInput t f).input? r = if r = t then (g.input? t).map f else g.input? r := by
  obtain ⟨id, slot⟩ := t
  obtain ⟨id', slot'⟩ := r
  simp only [input?, modifyInput, node?_modifyNode, InputRef.mk.injEq]
  by_cases hid : id' = id
  · subst hid
    cases g.node? id' with
    | none => simp
    | some n =>
      by_cases hs : slot' = slot
      · subst hs; simp [Node.modifyInput]
      · have hs' : ¬ slot = slot' := fun e => hs e.symm
        simp [Node.modifyInput, hs, hs']
  · simp [hid]

theorem output?_modifyInput (t : InputRef) (f : Input → Input) (o : OutputRef) :
    (g.modifyInput t f).output? o = g.output? o := by
  simp only [output?, modifyInput, node?_modifyNode]
  by_cases h : o.node = t.node
  · rw [if_pos h, h]
    cases g.node? t.node <;> rfl
  · rw [if_neg h]

theorem output?_modifyOutput (s : OutputRef) (f : Output → Output) (o : OutputRef) :
    (g.modifyOutput s f).output? o = if o = s then (g.output? s).map f else g.output? o := by
  obtain ⟨id, slot⟩ := s
  obtain ⟨id', slot'⟩ := o
  simp only [output?, modifyOutput, node?_modifyNode, OutputRef.mk.injEq]
  by_cases hid : id' = id
  · subst hid
    cases g.node? id' with
    | none => simp
    | some n =>
      by_cases hs : slot' = slot
      · subst hs; simp [Node.modifyOutput]
      · have hs' : ¬ slot = slot' := fun e => hs e.symm
        simp [Node.modifyOutput, hs, hs']
  · simp [hid]

theorem input?_modifyOutput (s : OutputRef) (f : Output → Output) (r : InputRef) :
    (g.modifyOutput s f).input? r = g.input? r := by
  simp only [input?, modifyOutput, node?_modifyNode]
  by_cases h : r.node = s.node
  · rw [if_pos h, h]
    cases g.node? s.node <;> rfl
  · rw [if_neg h]

/-! ### Linking -/

@[simp] theorem idBound_modifyNode (id : NodeId) (f : Node → Node) :
    (g.modifyNode id f).idBound = g.idBound := by
  simp [idBound, modifyNode]

@[simp] theorem idBound_link (s : OutputRef) (t : InputRef) : (g.link s t).idBound = g.idBound := by
  simp [link, idBound, touch, modifyOutput, modifyInput, modifyNode]

@[simp] theorem simplified_link (s : OutputRef) (t : InputRef) :
    (g.link s t).simplified = false := rfl

@[simp] theorem finalized_link (s : OutputRef) (t : InputRef) :
    (g.link s t).finalized = g.finalized := rfl

@[simp] theorem diagnostics_link (s : OutputRef) (t : InputRef) :
    (g.link s t).diagnostics = g.diagnostics := rfl

@[simp] theorem layout?_link (s : OutputRef) (t : InputRef) (id : NodeId) :
    (g.link s t).layout? id = g.layout? id := by
  change ((g.modifyInput t _).modifyOutput s _).layout? id = _
  rw [layout?_modifyOutput, layout?_modifyInput]
  all_goals exact fun _ => rfl

@[simp] theorem bare?_link (s : OutputRef) (t : InputRef) (id : NodeId) :
    (g.link s t).bare? id = g.bare? id := by
  change ((g.modifyInput t _).modifyOutput s _).bare? id = _
  rw [modifyOutput, modifyInput, bare?_modifyNode, bare?_modifyNode]
  · exact fun n => n.unlinked_modifyInput _ fun _ => rfl
  · exact fun n => n.unlinked_modifyOutput _ fun _ => rfl

theorem linkAt_link {s : OutputRef} {t : InputRef} (ht : (g.inputDecl? t).isSome) (r : InputRef) :
    (g.link s t).linkAt r = if r = t then some s else g.linkAt r := by
  change ((g.modifyInput t _).modifyOutput s _).linkAt r = _
  unfold linkAt
  rw [input?_modifyOutput, input?_modifyInput]
  by_cases h : r = t
  · rw [if_pos h, if_pos h]
    unfold inputDecl? at ht
    cases hi : g.input? t with
    | none => simp [hi] at ht
    | some i => rfl
  · rw [if_neg h, if_neg h]

theorem fanOut_link {s : OutputRef} {t : InputRef} (hs : (g.outputDecl? s).isSome) (o : OutputRef) :
    (g.link s t).fanOut o = if o = s then g.fanOut s ++ [t] else g.fanOut o := by
  change ((g.modifyInput t _).modifyOutput s _).fanOut o = _
  unfold fanOut
  rw [output?_modifyOutput, output?_modifyInput, output?_modifyInput]
  by_cases h : o = s
  · rw [if_pos h, if_pos h]
    unfold outputDecl? at hs
    cases ho : g.output? s with
    | none => simp [ho] at hs
    | some out => rfl
  · rw [if_neg h, if_neg h]

@[simp] theorem literalAt_link (s : OutputRef) (t r : InputRef) :
    (g.link s t).literalAt r = g.literalAt r := by
  change ((g.modifyInput t _).modifyOutput s _).literalAt r = _
  unfold literalAt
  rw [input?_modifyOutput, input?_modifyInput]
  by_cases h : r = t
  · rw [if_pos h, h]
    cases g.input? t <;> rfl
  · rw [if_neg h]

/-! ### Unlinking -/

@[simp] theorem idBound_unlink (s : OutputRef) (t : InputRef) :
    (g.unlink s t).idBound = g.idBound := by
  simp [unlink, idBound, touch, modifyOutput, modifyInput, modifyNode]

@[simp] theorem layout?_unlink (s : OutputRef) (t : InputRef) (id : NodeId) :
    (g.unlink s t).layout? id = g.layout? id := by
  change ((g.modifyInput t _).modifyOutput s _).layout? id = _
  rw [layout?_modifyOutput, layout?_modifyInput]
  all_goals exact fun _ => rfl

@[simp] theorem bare?_unlink (s : OutputRef) (t : InputRef) (id : NodeId) :
    (g.unlink s t).bare? id = g.bare? id := by
  change ((g.modifyInput t _).modifyOutput s _).bare? id = _
  rw [modifyOutput, modifyInput, bare?_modifyNode, bare?_modifyNode]
  · exact fun n => n.unlinked_modifyInput _ fun _ => rfl
  · exact fun n => n.unlinked_modifyOutput _ fun _ => rfl

theorem linkAt_modifyInput_unlink (t r : InputRef) :
    (g.modifyInput t Input.unlink).linkAt r = if r = t then none else g.linkAt r := by
  unfold linkAt
  rw [input?_modifyInput]
  by_cases h : r = t
  · rw [if_pos h, if_pos h]
    cases g.input? t <;> rfl
  · rw [if_neg h, if_neg h]

theorem literalAt_modifyInput_unlink (t r : InputRef) :
    (g.modifyInput t Input.unlink).literalAt r = g.literalAt r := by
  unfold literalAt
  rw [input?_modifyInput]
  by_cases h : r = t
  · rw [if_pos h, h]
    cases g.input? t <;> rfl
  · rw [if_neg h]

theorem linkAt_unlink (s : OutputRef) (t r : InputRef) :
    (g.unlink s t).linkAt r = if r = t then none else g.linkAt r := by
  rw [← linkAt_modifyInput_unlink]
  change ((g.modifyInput t _).modifyOutput s _).linkAt r = _
  unfold linkAt
  rw [input?_modifyOutput]

theorem fanOut_unlink (s : OutputRef) (t : InputRef) (o : OutputRef) :
    (g.unlink s t).fanOut o = if o = s then (g.fanOut s).filter (· != t) else g.fanOut o := by
  change ((g.modifyInput t _).modifyOutput s _).fanOut o = _
  unfold fanOut
  rw [output?_modifyOutput, output?_modifyInput, output?_modifyInput]
  by_cases h : o = s
  · rw [if_pos h, if_pos h]
    cases g.output? s <;> rfl
  · rw [if_neg h, if_neg h]

@[simp] theorem literalAt_unlink (s : OutputRef) (t r : InputRef) :
    (g.unlink s t).literalAt r = g.literalAt r := by
  rw [← literalAt_modifyInput_unlink g t r]
  change ((g.modifyInput t _).modifyOutput s _).literalAt r = _
  unfold literalAt
  rw [input?_modifyOutput]

/-! ### Unlinking all consumers of an output

The inputs are unlinked one after another; the lemmas are stated for the fold over any list of them.
-/

/-- Unlinks inputs at their own end only. -/
def unlinkInputs (targets : List InputRef) : Graph :=
  targets.foldl (fun g target => g.modifyInput target Input.unlink) g

theorem unlinkOutput_eq (s : OutputRef) (targets : List InputRef) :
    g.unlinkOutput s targets = ((g.modifyOutput s Output.unlink).unlinkInputs targets).touch := rfl

theorem unlinkInputs_cons (t : InputRef) (ts : List InputRef) :
    g.unlinkInputs (t :: ts) = (g.modifyInput t Input.unlink).unlinkInputs ts := rfl

theorem idBound_unlinkInputs (ts : List InputRef) : (g.unlinkInputs ts).idBound = g.idBound := by
  induction ts generalizing g with
  | nil => rfl
  | cons t ts ih => rw [unlinkInputs_cons, ih, modifyInput, idBound_modifyNode]

theorem finalized_unlinkInputs (ts : List InputRef) :
    (g.unlinkInputs ts).finalized = g.finalized := by
  induction ts generalizing g with
  | nil => rfl
  | cons t ts ih => rw [unlinkInputs_cons, ih]; rfl

theorem layout?_unlinkInputs (ts : List InputRef) (id : NodeId) :
    (g.unlinkInputs ts).layout? id = g.layout? id := by
  induction ts generalizing g with
  | nil => rfl
  | cons t ts ih =>
    rw [unlinkInputs_cons, ih, layout?_modifyInput]
    exact fun _ => rfl

theorem linkAt_unlinkInputs (ts : List InputRef) (r : InputRef) :
    (g.unlinkInputs ts).linkAt r = if r ∈ ts then none else g.linkAt r := by
  induction ts generalizing g with
  | nil => simp [unlinkInputs]
  | cons t ts ih =>
    rw [unlinkInputs_cons, ih, linkAt_modifyInput_unlink]
    by_cases h : r = t <;> simp [h]

theorem output?_unlinkInputs (ts : List InputRef) (o : OutputRef) :
    (g.unlinkInputs ts).output? o = g.output? o := by
  induction ts generalizing g with
  | nil => rfl
  | cons t ts ih => rw [unlinkInputs_cons, ih, output?_modifyInput]

theorem literalAt_unlinkInputs (ts : List InputRef) (r : InputRef) :
    (g.unlinkInputs ts).literalAt r = g.literalAt r := by
  induction ts generalizing g with
  | nil => rfl
  | cons t ts ih => rw [unlinkInputs_cons, ih, literalAt_modifyInput_unlink]

@[simp] theorem idBound_unlinkOutput (s : OutputRef) (ts : List InputRef) :
    (g.unlinkOutput s ts).idBound = g.idBound := by
  rw [unlinkOutput_eq]
  change ((g.modifyOutput s _).unlinkInputs ts).idBound = _
  rw [idBound_unlinkInputs, modifyOutput, idBound_modifyNode]

theorem finalized_unlinkOutput (s : OutputRef) (ts : List InputRef) :
    (g.unlinkOutput s ts).finalized = g.finalized := by
  rw [unlinkOutput_eq]
  change ((g.modifyOutput s _).unlinkInputs ts).finalized = _
  rw [finalized_unlinkInputs]
  rfl

@[simp] theorem layout?_unlinkOutput (s : OutputRef) (ts : List InputRef) (id : NodeId) :
    (g.unlinkOutput s ts).layout? id = g.layout? id := by
  rw [unlinkOutput_eq]
  change ((g.modifyOutput s _).unlinkInputs ts).layout? id = _
  rw [layout?_unlinkInputs, layout?_modifyOutput]
  exact fun _ => rfl

theorem linkAt_unlinkOutput (s : OutputRef) (ts : List InputRef) (r : InputRef) :
    (g.unlinkOutput s ts).linkAt r = if r ∈ ts then none else g.linkAt r := by
  rw [unlinkOutput_eq]
  change ((g.modifyOutput s _).unlinkInputs ts).linkAt r = _
  rw [linkAt_unlinkInputs]
  unfold linkAt
  rw [input?_modifyOutput]

theorem fanOut_unlinkOutput (s : OutputRef) (ts : List InputRef) (o : OutputRef) :
    (g.unlinkOutput s ts).fanOut o = if o = s then [] else g.fanOut o := by
  rw [unlinkOutput_eq]
  change ((g.modifyOutput s _).unlinkInputs ts).fanOut o = _
  unfold fanOut
  rw [output?_unlinkInputs, output?_modifyOutput]
  by_cases h : o = s
  · rw [if_pos h, if_pos h]
    cases g.output? s <;> rfl
  · rw [if_neg h, if_neg h]

@[simp] theorem literalAt_unlinkOutput (s : OutputRef) (ts : List InputRef) (r : InputRef) :
    (g.unlinkOutput s ts).literalAt r = g.literalAt r := by
  rw [unlinkOutput_eq]
  change ((g.modifyOutput s _).unlinkInputs ts).literalAt r = _
  rw [literalAt_unlinkInputs]
  unfold literalAt
  rw [input?_modifyOutput]

/-! ### Adding a node -/

@[simp] theorem idBound_push (n : Node) : (g.push n).idBound = g.idBound + 1 := by
  simp [push, idBound, touch]

@[simp] theorem finalized_push (n : Node) : (g.push n).finalized = g.finalized := rfl

theorem node?_push (n : Node) (id : NodeId) :
    (g.push n).node? id = if id = g.idBound then some n.unlinked else g.node? id := by
  have hp : (g.push n).node? id = (g.table.push (some n.unlinked))[id]?.join := rfl
  rw [hp, Array.getElem?_push]
  by_cases h : id = g.table.size
  · rw [if_pos h, if_pos (show id = g.idBound from h)]; rfl
  · rw [if_neg h, if_neg (show ¬ id = g.idBound from h)]; rfl

theorem layout?_push (n : Node) (id : NodeId) :
    (g.push n).layout? id = if id = g.idBound then some n.layout else g.layout? id := by
  unfold layout?
  rw [node?_push]
  split
  · simp [Node.layout_unlinked]
  · rfl

theorem bare?_push (n : Node) (id : NodeId) :
    (g.push n).bare? id = if id = g.idBound then some n.unlinked else g.bare? id := by
  unfold bare?
  rw [node?_push]
  split
  · simp [Node.unlinked_unlinked]
  · rfl

@[simp] theorem linkAt_push (n : Node) (r : InputRef) : (g.push n).linkAt r = g.linkAt r := by
  unfold linkAt input?
  rw [node?_push]
  by_cases h : r.node = g.idBound
  · rw [if_pos h, h, g.node?_of_idBound_le (Nat.le_refl _)]
    simp only [Option.bind_some, Node.unlinked, List.getElem?_map, Option.bind_none]
    cases n.inputs[r.slot]? <;> rfl
  · rw [if_neg h]

@[simp] theorem fanOut_push (n : Node) (o : OutputRef) : (g.push n).fanOut o = g.fanOut o := by
  unfold fanOut output?
  rw [node?_push]
  by_cases h : o.node = g.idBound
  · rw [if_pos h, h, g.node?_of_idBound_le (Nat.le_refl _)]
    simp only [Option.bind_some, Node.unlinked, List.getElem?_map, Option.bind_none]
    cases n.outputs[o.slot]? <;> rfl
  · rw [if_neg h]

theorem literalAt_push (n : Node) (r : InputRef) :
    (g.push n).literalAt r =
      if r.node = g.idBound then (n.inputs[r.slot]?).map (·.literal) else g.literalAt r := by
  unfold literalAt input?
  rw [node?_push]
  by_cases h : r.node = g.idBound
  · rw [if_pos h, if_pos h]
    simp only [Option.bind_some, Node.unlinked, List.getElem?_map]
    cases n.inputs[r.slot]? <;> rfl
  · rw [if_neg h, if_neg h]

/-- A graph is known from its nodes, the number of ids given out, its flags and its reports. -/
theorem eq_of_node? {g g' : Graph} (hb : g.idBound = g'.idBound) (hn : ∀ id, g.node? id = g'.node? id)
    (hs : g.simplified = g'.simplified) (hf : g.finalized = g'.finalized)
    (hd : g.diagnostics = g'.diagnostics) : g = g' := by
  obtain ⟨table, s, f, d⟩ := g
  obtain ⟨table', s', f', d'⟩ := g'
  cases hs; cases hf; cases hd
  have ht : table = table' := by
    refine Array.ext hb fun i hi hi' => ?_
    have h := hn i
    simpa [node?, hi, hi'] using h
  rw [ht]

theorem modifyNode_push {n : Node} {f : Node → Node} (hf : f n.unlinked = (f n).unlinked) :
    (g.push n).modifyNode g.idBound f = g.push (f n) := by
  refine eq_of_node? (by simp) (fun id => ?_) rfl rfl rfl
  simp only [node?_modifyNode, node?_push]
  split_ifs <;> simp [hf]

/-! ### Storing a literal -/

@[simp] theorem idBound_store (t : InputRef) (l : Literal) :
    (g.modifyInput t (Input.store l)).idBound = g.idBound := g.idBound_modifyNode _ _

@[simp] theorem layout?_store (t : InputRef) (l : Literal) (id : NodeId) :
    (g.modifyInput t (Input.store l)).layout? id = g.layout? id := by
  rw [layout?_modifyInput]
  exact fun _ => rfl

@[simp] theorem linkAt_store (t : InputRef) (l : Literal) (r : InputRef) :
    (g.modifyInput t (Input.store l)).linkAt r = g.linkAt r := by
  unfold linkAt
  rw [input?_modifyInput]
  by_cases h : r = t
  · rw [if_pos h, h]
    cases g.input? t <;> rfl
  · rw [if_neg h]

@[simp] theorem fanOut_store (t : InputRef) (l : Literal) (o : OutputRef) :
    (g.modifyInput t (Input.store l)).fanOut o = g.fanOut o := by
  unfold fanOut
  rw [output?_modifyInput]

theorem literalAt_store (t : InputRef) (l : Literal) (r : InputRef) :
    (g.modifyInput t (Input.store l)).literalAt r =
      if r = t then (g.inputDecl? t).map (fun d => l.convert d.type false) else g.literalAt r := by
  unfold literalAt inputDecl?
  rw [input?_modifyInput]
  by_cases h : r = t
  · rw [if_pos h, if_pos h]
    cases g.input? t <;> rfl
  · rw [if_neg h, if_neg h]

theorem modifyNode_congr {id : NodeId} {f f' : Node → Node}
    (h : ∀ n, g.node? id = some n → f n = f' n) : g.modifyNode id f = g.modifyNode id f' := by
  have ht : g.table.modify id (Option.map f) = g.table.modify id (Option.map f') := by
    refine Array.ext_getElem? fun j => ?_
    simp only [Array.getElem?_modify]
    by_cases hj : id = j
    · subst hj
      rw [if_pos rfl, if_pos rfl]
      unfold node? at h
      rcases hn : g.table[id]? with _ | _ | n
      · rfl
      · rfl
      · simp [h n (by simp [hn])]
    · rw [if_neg hj, if_neg hj]
  simp only [modifyNode, ht]

theorem modifyNode_eq_self {id : NodeId} {f : Node → Node}
    (h : ∀ n, g.node? id = some n → f n = n) : g.modifyNode id f = g := by
  have ht : g.table.modify id (Option.map fun n => n) = g.table := by
    refine Array.ext_getElem? fun j => ?_
    simp [Array.getElem?_modify]
  have hc : g.modifyNode id f = g.modifyNode id fun n => n := g.modifyNode_congr h
  rw [hc]
  simp only [modifyNode, ht]

theorem modifyNode_store_of_inputSlot? {id : NodeId} {n : Node} {name : String} {slot : Nat}
    (hn : g.node? id = some n) (hs : n.inputSlot? name = some slot) (l : Literal) :
    g.modifyNode id (·.store name l) = g.modifyInput ⟨id, slot⟩ (Input.store l) := by
  refine g.modifyNode_congr fun m hm => ?_
  rw [hn, Option.some.injEq] at hm
  subst hm
  simp [Node.store, hs]

/-- Storing a literal by name is storing it in the first input of that name, if there is one. -/
theorem modifyNode_store (id : NodeId) (name : String) (l : Literal) :
    g.modifyNode id (·.store name l) = g ∨
      ∃ slot, g.modifyNode id (·.store name l) = g.modifyInput ⟨id, slot⟩ (Input.store l) := by
  cases hn : g.node? id with
  | none => exact .inl (g.modifyNode_eq_self fun n h => by simp [hn] at h)
  | some n =>
    cases hs : n.inputSlot? name with
    | none =>
      refine .inl (g.modifyNode_eq_self fun m hm => ?_)
      rw [hn, Option.some.injEq] at hm
      subst hm
      simp [Node.store, hs]
    | some slot => exact .inr ⟨slot, g.modifyNode_store_of_inputSlot? hn hs l⟩

/-! ### Notes on a node

The bump sample, the filter width and the marks of a node concern neither its layout nor its links.
-/

/-- A change of a node that leaves its kind and its sockets alone. -/
def KeepsSockets (f : Node → Node) : Prop :=
  ∀ n, (f n).kind = n.kind ∧ (f n).inputs = n.inputs ∧ (f n).outputs = n.outputs

variable {f : Node → Node} (hf : KeepsSockets f)
include hf

theorem layout?_note (id j : NodeId) : (g.modifyNode id f).layout? j = g.layout? j :=
  g.layout?_modifyNode id (fun n => by simp [Node.layout, (hf n).1, (hf n).2.1, (hf n).2.2]) j

theorem input?_note (id : NodeId) (r : InputRef) : (g.modifyNode id f).input? r = g.input? r := by
  unfold input?
  rw [node?_modifyNode]
  by_cases h : r.node = id
  · rw [if_pos h, h]
    cases g.node? id with
    | none => rfl
    | some n => simp [(hf n).2.1]
  · rw [if_neg h]

theorem output?_note (id : NodeId) (o : OutputRef) :
    (g.modifyNode id f).output? o = g.output? o := by
  unfold output?
  rw [node?_modifyNode]
  by_cases h : o.node = id
  · rw [if_pos h, h]
    cases g.node? id with
    | none => rfl
    | some n => simp [(hf n).2.2]
  · rw [if_neg h]

omit hf

/-! ### Taking nodes out -/

theorem node?_drop (ids : List NodeId) (id : NodeId) :
    (g.drop ids).node? id = if id ≠ outputId ∧ id ∈ ids then none else g.node? id := by
  simp only [node?, drop, Array.getElem?_mapIdx]
  split
  · cases g.table[id]? <;> rfl
  · cases g.table[id]? <;> rfl

theorem layout?_drop (ids : List NodeId) (id : NodeId) :
    (g.drop ids).layout? id = if id ≠ outputId ∧ id ∈ ids then none else g.layout? id := by
  unfold layout?
  rw [node?_drop]
  split <;> rfl

theorem kind?_drop (ids : List NodeId) (id : NodeId) :
    (g.drop ids).kind? id = if id ≠ outputId ∧ id ∈ ids then none else g.kind? id := by
  unfold kind?
  rw [node?_drop]
  split <;> rfl

theorem linkAt_drop (ids : List NodeId) (r : InputRef) :
    (g.drop ids).linkAt r = if r.node ≠ outputId ∧ r.node ∈ ids then none else g.linkAt r := by
  unfold linkAt input?
  rw [node?_drop]
  split <;> rfl

theorem fanOut_drop (ids : List NodeId) (o : OutputRef) :
    (g.drop ids).fanOut o = if o.node ≠ outputId ∧ o.node ∈ ids then [] else g.fanOut o := by
  unfold fanOut output?
  rw [node?_drop]
  split <;> rfl

theorem literalAt_drop (ids : List NodeId) (r : InputRef) :
    (g.drop ids).literalAt r =
      if r.node ≠ outputId ∧ r.node ∈ ids then none else g.literalAt r := by
  unfold literalAt input?
  rw [node?_drop]
  split <;> rfl

@[simp] theorem idBound_drop (ids : List NodeId) : (g.drop ids).idBound = g.idBound := by
  simp [idBound, drop]

end Graph

end Shading
