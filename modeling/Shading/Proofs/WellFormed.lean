import Shading.Proofs.View

/-!
# Well-formed graphs

Both ends of a link are stored: the input names the output, and the output lists the input. A graph
is well-formed if the two ends agree, links join sockets that fit, literals have the shape of their
sockets, and nodes have the sockets of their kinds. Each change of a graph keeps this up as long as
it is made where the two ends are known. -/

namespace Shading

/-- Whether a literal has the shape in which a socket of a type stores it. -/
def Literal.hasShape : Literal → SocketType → Bool
  | boolean _, type => type == .boolean
  | float _, type => type == .float
  | int _, type => type == .int
  | float3 _, type => type.isFloat3
  | string _, type => type == .string
  | closure, type => type == .closure

theorem Literal.hasShape_convert (l : Literal) (type : SocketType) (fromColor : Bool) :
    (l.convert type fromColor).hasShape type = true := by
  cases type with
  | string => cases l <;> rfl
  | _ => rfl

theorem Literal.hasShape_zero (type : SocketType) : (Literal.zero type).hasShape type = true := by
  cases type <;> rfl

/-- A node with the sockets of its kind, and with literals of the right shape in them. -/
structure Node.Sound (n : Node) : Prop where
  laidOut : n.layout = n.kind.layout
  shaped : ∀ i ∈ n.inputs, i.literal.hasShape i.type = true

/-- The place of an input can be looked up in the catalog. -/
theorem Node.input?_of_layout {n : Node} (hn : n.layout = n.kind.layout) {name : String} {i : Nat}
    (h : n.kind.layout.inputSlot? name = some i) : n.input? name = n.inputs[i]? := by
  rw [← hn, ← n.inputSlot?_eq_layout] at h
  obtain ⟨hlt, hname, hbefore⟩ := List.findIdx?_eq_some_iff_getElem.mp h
  rw [List.getElem?_eq_getElem hlt]
  exact List.find?_eq_some_iff_getElem.mpr
    ⟨hname, i, hlt, rfl, fun j hj => by simpa using hbefore j hj⟩

/-- Every initial literal of the catalog has the shape of its socket. -/
theorem NodeKind.hasShape_initial (k : NodeKind) :
    ∀ d ∈ k.inputDecls, d.initial.hasShape d.type = true := by
  cases k with
  | convert source _ _ => simp [NodeKind.inputDecls, Literal.hasShape_zero]
  | osl script =>
    intro d hd
    obtain ⟨s, -, rfl⟩ := List.mem_map.mp hd
    exact Literal.hasShape_zero s.type
  | _ =>
    simp [NodeKind.inputDecls, InputDecl.closure, InputDecl.triple, InputDecl.scalar,
      InputDecl.constant, InputDecl.shadingNormal, Literal.hasShape, Literal.zero,
      SocketType.isFloat3]

theorem Node.sound_ofKind (k : NodeKind) : (Node.ofKind k).Sound := by
  refine ⟨Node.layout_ofKind k, fun i hi => ?_⟩
  obtain ⟨d, hd, rfl⟩ := List.mem_map.mp hi
  exact k.hasShape_initial d hd

theorem Node.Sound.copy {n : Node} (h : n.Sound) : n.copy.Sound := by
  refine ⟨(Node.layout_unlinked n).trans h.laidOut, fun i hi => ?_⟩
  obtain ⟨j, hj, rfl⟩ := List.mem_map.mp hi
  exact h.shaped j hj

namespace Graph

/-- What holds of every graph as long as it is only changed by edits. That the ids are increasing and
below the bound is no part of it, since a table cannot be otherwise (`pairwise_ids`,
`lt_idBound_of_mem`). -/
structure WellFormed (g : Graph) : Prop where
  /-- The first node is the output, with id 0. -/
  first : ∃ n, g.nodes.head? = some (outputId, n) ∧ n.kind = .output
  /-- An input is linked to an output if and only if the output exists and lists the input. -/
  link_iff : ∀ r o, g.linkAt r = some o ↔ r ∈ g.fanOut o
  nodup : ∀ o, (g.fanOut o).Nodup
  /-- A linked input is linkable, and the type of the output fits. -/
  typed : ∀ r o d e, g.linkAt r = some o → g.inputDecl? r = some d → g.outputDecl? o = some e →
    d.linkable = true ∧ e.type.linksTo d.type = true
  shaped : ∀ r d l, g.inputDecl? r = some d → g.literalAt r = some l → l.hasShape d.type = true
  /-- A node has the sockets of its kind. -/
  laidOut : ∀ id n, g.node? id = some n → n.layout = n.kind.layout

variable {g g' : Graph}

/-! ### The first node -/

theorem head?_nodes_iff {k : NodeKind} :
    (∃ n, g.nodes.head? = some (outputId, n) ∧ n.kind = k) ↔ g.kind? outputId = some k := by
  constructor
  · rintro ⟨n, hn, rfl⟩
    have hm : (outputId, n) ∈ g.nodes := List.mem_of_mem_head? hn
    simp [kind?, (g.mem_nodes).mp hm]
  · intro hk
    obtain ⟨n, hn, rfl⟩ := Option.map_eq_some_iff.mp hk
    -- the ids start with 0 because they are increasing and 0 is one of them
    have hmem : outputId ∈ g.ids := (g.mem_ids).mpr (by simp [contains, hn])
    obtain ⟨id, rest, hids⟩ := List.exists_cons_of_ne_nil (List.ne_nil_of_mem hmem)
    have hid : id = outputId := by
      have hp := g.pairwise_ids
      rw [hids] at hmem hp
      rcases List.mem_cons.mp hmem with h | h
      · exact h.symm
      · exact absurd (List.rel_of_pairwise_cons hp h) (Nat.not_lt_zero id)
    refine ⟨n, ?_, rfl⟩
    rw [nodes, hids, hid]
    simp [hn]

namespace WellFormed

theorem kind?_output (hg : g.WellFormed) : g.kind? outputId = some .output :=
  head?_nodes_iff.mp hg.first

theorem layout?_eq (hg : g.WellFormed) {id : NodeId} {k : NodeKind} (hk : g.kind? id = some k) :
    g.layout? id = some k.layout := by
  obtain ⟨n, hn, rfl⟩ := Option.map_eq_some_iff.mp hk
  simp [layout?, hn, hg.laidOut id n hn]

theorem layout?_eq_map (hg : g.WellFormed) (id : NodeId) :
    g.layout? id = (g.kind? id).map NodeKind.layout := by
  cases hk : g.kind? id with
  | none => simpa [layout?, kind?] using hk
  | some k => rw [hg.layout?_eq hk, Option.map_some]

theorem length_inputs (hg : g.WellFormed) {id : NodeId} {n : Node} (hn : g.node? id = some n) :
    n.inputs.length = n.kind.inputDecls.length := by
  have h := congrArg (fun l : Layout => l.inputs.length) (hg.laidOut id n hn)
  simpa [Node.layout, NodeKind.layout] using h

theorem length_outputs (hg : g.WellFormed) {id : NodeId} {n : Node} (hn : g.node? id = some n) :
    n.outputs.length = n.kind.outputDecls.length := by
  have h := congrArg (fun l : Layout => l.outputs.length) (hg.laidOut id n hn)
  simpa [Node.layout, NodeKind.layout] using h

theorem inputDecl?_eq (hg : g.WellFormed) {id : NodeId} {k : NodeKind} (hk : g.kind? id = some k)
    (slot : Nat) : g.inputDecl? ⟨id, slot⟩ = k.inputDecls[slot]? := by
  rw [inputDecl?_eq_layout?, hg.layout?_eq hk]
  rfl

theorem outputDecl?_eq (hg : g.WellFormed) {id : NodeId} {k : NodeKind} (hk : g.kind? id = some k)
    (slot : Nat) : g.outputDecl? ⟨id, slot⟩ = k.outputDecls[slot]? := by
  rw [outputDecl?_eq_layout?, hg.layout?_eq hk]
  rfl

/-- The inputs of a node depend on its kind only. -/
theorem inputDecl?_of_kind?_eq (hg : g.WellFormed) (hg' : g'.WellFormed) {r : InputRef}
    (hk : g'.kind? r.node = g.kind? r.node) : g'.inputDecl? r = g.inputDecl? r := by
  rw [inputDecl?_eq_layout?, hg'.layout?_eq_map, hk, ← hg.layout?_eq_map, ← inputDecl?_eq_layout?]

/-- Nodes of one kind have the same inputs. -/
theorem inputDecl?_congr (hg : g.WellFormed) (hg' : g'.WellFormed) {id id' : NodeId} {k : NodeKind}
    (hk : g.kind? id = some k) (hk' : g'.kind? id' = some k) (slot : Nat) :
    g'.inputDecl? ⟨id', slot⟩ = g.inputDecl? ⟨id, slot⟩ := by
  rw [hg'.inputDecl?_eq hk', hg.inputDecl?_eq hk]

/-- Nodes of one kind have the same outputs. -/
theorem outputDecl?_congr (hg : g.WellFormed) (hg' : g'.WellFormed) {id id' : NodeId}
    {k : NodeKind} (hk : g.kind? id = some k) (hk' : g'.kind? id' = some k) (slot : Nat) :
    g'.outputDecl? ⟨id', slot⟩ = g.outputDecl? ⟨id, slot⟩ := by
  rw [hg'.outputDecl?_eq hk', hg.outputDecl?_eq hk]

theorem inputRef_eq (hg : g.WellFormed) {id : NodeId} {k : NodeKind} (hk : g.kind? id = some k)
    {name : String} {i : Nat} (h : k.layout.inputSlot? name = some i) :
    g.inputRef id name = .ok ⟨id, i⟩ :=
  (g.inputRef_eq_ok).mpr ⟨k.layout, i, hg.layout?_eq hk, h, rfl⟩

theorem outputRef_eq (hg : g.WellFormed) {id : NodeId} {k : NodeKind} (hk : g.kind? id = some k)
    {name : String} {i : Nat} (h : k.layout.outputSlot? name = some i) :
    g.outputRef id name = .ok ⟨id, i⟩ :=
  (g.outputRef_eq_ok).mpr ⟨k.layout, i, hg.layout?_eq hk, h, rfl⟩

theorem exists_inputDecl? (hg : g.WellFormed) {id : NodeId} {k : NodeKind} (hk : g.kind? id = some k)
    {name : String} {i : Nat} (h : k.layout.inputSlot? name = some i) :
    ∃ d, g.inputDecl? ⟨id, i⟩ = some d := by
  obtain ⟨hlt, -⟩ := List.findIdx?_eq_some_iff_getElem.mp h
  exact ⟨_, (hg.inputDecl?_eq hk i).trans (List.getElem?_eq_getElem hlt)⟩

theorem exists_outputDecl? (hg : g.WellFormed) {id : NodeId} {k : NodeKind}
    (hk : g.kind? id = some k) {name : String} {i : Nat}
    (h : k.layout.outputSlot? name = some i) : ∃ e, g.outputDecl? ⟨id, i⟩ = some e := by
  obtain ⟨hlt, -⟩ := List.findIdx?_eq_some_iff_getElem.mp h
  exact ⟨_, (hg.outputDecl?_eq hk i).trans (List.getElem?_eq_getElem hlt)⟩

/-- What an input of a given name is linked to. -/
theorem linkOf_inputRef_eq (hg : g.WellFormed) {id : NodeId} {k : NodeKind}
    (hk : g.kind? id = some k) {name : String} {i : Nat}
    (h : k.layout.inputSlot? name = some i) :
    (do g.linkOf (← g.inputRef id name)) = .ok (g.linkAt ⟨id, i⟩) := by
  obtain ⟨d, hd⟩ := hg.exists_inputDecl? hk h
  rw [hg.inputRef_eq hk h]
  exact (g.linkOf_eq_ok).mpr ⟨by simp [hd], rfl⟩

/-- The input that a node finds by its name. -/
theorem input?_name_eq (hg : g.WellFormed) {id : NodeId} {n : Node} (hn : g.node? id = some n)
    {name : String} {i : Nat} (h : n.kind.layout.inputSlot? name = some i) :
    n.input? name = g.input? ⟨id, i⟩ := by
  rw [Node.input?_of_layout (hg.laidOut id n hn) h, Graph.input?, hn]
  rfl

/-- The link that a node finds by the name of an input. -/
theorem link?_eq (hg : g.WellFormed) {id : NodeId} {n : Node} (hn : g.node? id = some n)
    {name : String} {i : Nat} (h : n.kind.layout.inputSlot? name = some i) :
    n.link? name = g.linkAt ⟨id, i⟩ := by
  rw [Node.link?, hg.input?_name_eq hn h, linkAt]

/-- The literal that a node finds by the name of an input. -/
theorem literal?_eq (hg : g.WellFormed) {id : NodeId} {n : Node} (hn : g.node? id = some n)
    {name : String} {i : Nat} (h : n.kind.layout.inputSlot? name = some i) :
    n.literal? name = g.literalAt ⟨id, i⟩ := by
  rw [Node.literal?, hg.input?_name_eq hn h, literalAt]

theorem link?_eq_none (hg : g.WellFormed) {id : NodeId} {n : Node}
    (hn : g.node? id = some n) {name : String} (h : n.kind.layout.inputSlot? name = none) :
    n.link? name = none := by
  rw [← hg.laidOut id n hn, ← n.inputSlot?_eq_layout] at h
  have hfind : n.input? name = none := by
    rw [Node.input?, List.find?_eq_none]
    exact fun i hi => by simp [List.findIdx?_eq_none_iff.mp h i hi]
  rw [Node.link?, hfind]
  rfl

theorem mem_outputDecls (hg : g.WellFormed) {o : OutputRef} {k : NodeKind}
    (hk : g.kind? o.node = some k) {e : OutputDecl} (ho : g.outputDecl? o = some e) :
    e ∈ k.outputDecls :=
  List.mem_of_getElem? ((hg.outputDecl?_eq hk o.slot).symm.trans ho)

theorem intro (first : g.kind? outputId = some .output)
    (link_iff : ∀ r o, g.linkAt r = some o ↔ r ∈ g.fanOut o) (nodup : ∀ o, (g.fanOut o).Nodup)
    (typed : ∀ r o d e, g.linkAt r = some o → g.inputDecl? r = some d → g.outputDecl? o = some e →
      d.linkable = true ∧ e.type.linksTo d.type = true)
    (shaped : ∀ r d l, g.inputDecl? r = some d → g.literalAt r = some l →
      l.hasShape d.type = true)
    (laidOut : ∀ id n, g.node? id = some n → n.layout = n.kind.layout) : g.WellFormed :=
  ⟨head?_nodes_iff.mpr first, link_iff, nodup, typed, shaped, laidOut⟩

/-- A change that keeps the layouts needs to be looked at only for links and literals. -/
theorem of_layout (hg : g.WellFormed) (hl : ∀ id, g'.layout? id = g.layout? id)
    (link_iff : ∀ r o, g'.linkAt r = some o ↔ r ∈ g'.fanOut o)
    (nodup : ∀ o, (g'.fanOut o).Nodup)
    (typed : ∀ r o d e, g'.linkAt r = some o → g.inputDecl? r = some d →
      g.outputDecl? o = some e → d.linkable = true ∧ e.type.linksTo d.type = true)
    (shaped : ∀ r d l, g.inputDecl? r = some d → g'.literalAt r = some l →
      l.hasShape d.type = true) : g'.WellFormed := by
  have hin : ∀ r, g'.inputDecl? r = g.inputDecl? r := fun r => by
    rw [inputDecl?_eq_layout?, inputDecl?_eq_layout?, hl]
  have hout : ∀ o, g'.outputDecl? o = g.outputDecl? o := fun o => by
    rw [outputDecl?_eq_layout?, outputDecl?_eq_layout?, hl]
  refine intro ?_ link_iff nodup ?_ ?_ ?_
  · rw [kind?_eq_layout?, hl, ← kind?_eq_layout?]
    exact hg.kind?_output
  · intro r o d e h hd he
    rw [hin] at hd
    rw [hout] at he
    exact typed r o d e h hd he
  · intro r d l hd hlit
    rw [hin] at hd
    exact shaped r d l hd hlit
  · intro id n hn
    have h : g.layout? id = some n.layout := by rw [← hl]; simp [layout?, hn]
    obtain ⟨m, hm, hmn⟩ := Option.map_eq_some_iff.mp h
    have hk : m.kind = n.kind := congrArg Layout.kind hmn
    rw [← hmn, hg.laidOut id m hm, hk]

/-! ### The two ends of a link -/

variable (hg : g.WellFormed)
include hg

theorem exists_output {r : InputRef} {o : OutputRef} (h : g.linkAt r = some o) :
    ∃ e, g.outputDecl? o = some e := by
  have hm := (hg.link_iff r o).mp h
  unfold fanOut at hm
  unfold outputDecl?
  cases ho : g.output? o with
  | none => simp [ho] at hm
  | some out => exact ⟨out.toOutputDecl, rfl⟩

theorem slot_eq_zero {o : OutputRef} {e : OutputDecl} {k : NodeKind} (hk : g.kind? o.node = some k)
    (hlen : k.outputDecls.length = 1) (ho : g.outputDecl? o = some e) : o.slot = 0 := by
  rw [hg.outputDecl?_eq hk] at ho
  obtain ⟨hlt, -⟩ := List.getElem?_eq_some_iff.mp ho
  omega

/-- All that is linked to a node with a single output is linked to that output. -/
theorem eq_of_single_output {id : NodeId} {k : NodeKind} (hk : g.kind? id = some k)
    (hlen : k.outputDecls.length = 1) {r : InputRef} {o : OutputRef} (hl : g.linkAt r = some o)
    (ho : o.node = id) : o = ⟨id, 0⟩ := by
  obtain ⟨e, he⟩ := hg.exists_output hl
  obtain ⟨x, slot⟩ := o
  cases ho
  have hslot : slot = 0 := hg.slot_eq_zero hk hlen he
  rw [hslot]

/-! ### Changes -/

theorem link {s : OutputRef} {t : InputRef} {d : InputDecl} {e : OutputDecl}
    (hs : g.outputDecl? s = some e) (ht : g.inputDecl? t = some d) (hfree : g.linkAt t = none)
    (hl : d.linkable = true) (hty : e.type.linksTo d.type = true) : (g.link s t).WellFormed := by
  have ht' : (g.inputDecl? t).isSome := by simp [ht]
  have hs' : (g.outputDecl? s).isSome := by simp [hs]
  have hnot : ∀ o, t ∉ g.fanOut o := fun o hm => by
    rw [← hg.link_iff, hfree] at hm
    cases hm
  refine hg.of_layout (g.layout?_link s t) ?_ ?_ ?_ ?_
  · intro r o
    rw [g.linkAt_link ht', g.fanOut_link hs']
    by_cases hr : r = t
    · subst hr
      by_cases ho : o = s
      · subst ho; simp
      · have hso : ¬ s = o := fun h => ho h.symm
        simp [ho, hso, hnot o]
    · by_cases ho : o = s
      · subst ho; simp [hr, hg.link_iff]
      · simp [hr, ho, hg.link_iff]
  · intro o
    rw [g.fanOut_link hs']
    split
    · refine List.nodup_append.mpr ⟨hg.nodup s, by simp, ?_⟩
      intro a ha b hb hab
      rw [List.mem_singleton.mp hb] at hab
      exact hnot s (hab ▸ ha)
    · exact hg.nodup o
  · intro r o d' e' h hd' he'
    rw [g.linkAt_link ht'] at h
    split at h
    · rename_i hr
      cases h
      subst hr
      rw [ht, Option.some.injEq] at hd'
      rw [hs, Option.some.injEq] at he'
      subst hd' he'
      exact ⟨hl, hty⟩
    · exact hg.typed r o d' e' h hd' he'
  · intro r d' l hd' hlit
    rw [literalAt_link] at hlit
    exact hg.shaped r d' l hd' hlit

theorem unlink {s : OutputRef} {t : InputRef} (h : g.linkAt t = some s) :
    (g.unlink s t).WellFormed := by
  refine hg.of_layout (g.layout?_unlink s t) ?_ ?_ ?_ ?_
  · intro r o
    rw [linkAt_unlink, fanOut_unlink]
    by_cases hr : r = t
    · subst hr
      by_cases ho : o = s
      · subst ho; simp
      · have hne : ¬ g.linkAt r = some o := by
          rw [h]
          intro he
          exact ho (Option.some.inj he).symm
        simpa [ho] using (hg.link_iff r o).not.mp hne
    · by_cases ho : o = s
      · subst ho; simp [hr, hg.link_iff]
      · simp [hr, ho, hg.link_iff]
  · intro o
    rw [fanOut_unlink]
    split
    · exact (hg.nodup s).filter _
    · exact hg.nodup o
  · intro r o d e hl hd he
    rw [linkAt_unlink] at hl
    split at hl
    · cases hl
    · exact hg.typed r o d e hl hd he
  · intro r d l hd hlit
    rw [literalAt_unlink] at hlit
    exact hg.shaped r d l hd hlit

theorem unlinkOutput (s : OutputRef) : (g.unlinkOutput s (g.fanOut s)).WellFormed := by
  refine hg.of_layout (g.layout?_unlinkOutput s _) ?_ ?_ ?_ ?_
  · intro r o
    rw [linkAt_unlinkOutput, fanOut_unlinkOutput]
    by_cases hr : r ∈ g.fanOut s
    · have hl : g.linkAt r = some s := (hg.link_iff r s).mpr hr
      by_cases ho : o = s
      · simp [hr, ho]
      · have hne : ¬ g.linkAt r = some o := by
          rw [hl]
          intro he
          exact ho (Option.some.inj he).symm
        simpa [hr, ho] using (hg.link_iff r o).not.mp hne
    · by_cases ho : o = s
      · subst ho; simp [hr, hg.link_iff]
      · simp [hr, ho, hg.link_iff]
  · intro o
    rw [fanOut_unlinkOutput]
    split
    · exact List.nodup_nil
    · exact hg.nodup o
  · intro r o d e hl hd he
    rw [linkAt_unlinkOutput] at hl
    split at hl
    · cases hl
    · exact hg.typed r o d e hl hd he
  · intro r d l hd hlit
    rw [literalAt_unlinkOutput] at hlit
    exact hg.shaped r d l hd hlit

theorem store (t : InputRef) (l : Literal) : (g.modifyInput t (Input.store l)).WellFormed := by
  refine hg.of_layout (g.layout?_store t l) ?_ ?_ ?_ ?_
  · intro r o
    rw [linkAt_store, fanOut_store]
    exact hg.link_iff r o
  · intro o
    rw [fanOut_store]
    exact hg.nodup o
  · intro r o d e h hd he
    rw [linkAt_store] at h
    exact hg.typed r o d e h hd he
  · intro r d l' hd hlit
    rw [literalAt_store] at hlit
    split at hlit
    · rename_i hr
      subst hr
      rw [hd, Option.map_some, Option.some.injEq] at hlit
      rw [← hlit]
      exact l.hasShape_convert d.type false
    · exact hg.shaped r d l' hd hlit

theorem note {f : Node → Node} (hf : KeepsSockets f) (id : NodeId) :
    (g.modifyNode id f).WellFormed := by
  have hl : ∀ r, (g.modifyNode id f).linkAt r = g.linkAt r := fun r => by
    unfold linkAt; rw [g.input?_note hf]
  have hf' : ∀ o, (g.modifyNode id f).fanOut o = g.fanOut o := fun o => by
    unfold fanOut; rw [g.output?_note hf]
  have hlit : ∀ r, (g.modifyNode id f).literalAt r = g.literalAt r := fun r => by
    unfold literalAt; rw [g.input?_note hf]
  refine hg.of_layout (g.layout?_note hf id) ?_ ?_ ?_ ?_
  · intro r o
    rw [hl, hf']
    exact hg.link_iff r o
  · intro o
    rw [hf']
    exact hg.nodup o
  · intro r o d e h hd he
    rw [hl] at h
    exact hg.typed r o d e h hd he
  · intro r d l hd h
    rw [hlit] at h
    exact hg.shaped r d l hd h

theorem push {n : Node} (hn : n.Sound) : (g.push n).WellFormed := by
  have hb : ∀ (r : InputRef) (o : OutputRef), g.linkAt r = some o →
      r.node ≠ g.idBound ∧ o.node ≠ g.idBound := by
    intro r o h
    obtain ⟨d, hd⟩ := g.inputDecl?_of_linkAt h
    obtain ⟨e, he⟩ := hg.exists_output h
    obtain ⟨k, hk⟩ := g.kind?_of_inputDecl? hd
    obtain ⟨k', hk'⟩ := g.kind?_of_outputDecl? he
    exact ⟨Nat.ne_of_lt (g.lt_idBound_of_kind? hk), Nat.ne_of_lt (g.lt_idBound_of_kind? hk')⟩
  refine intro ?_ ?_ ?_ ?_ ?_ ?_
  · have h0 : outputId ≠ g.idBound := Nat.ne_of_lt (g.lt_idBound_of_kind? hg.kind?_output)
    rw [kind?_eq_layout?, layout?_push, if_neg h0, ← kind?_eq_layout?]
    exact hg.kind?_output
  · intro r o
    rw [linkAt_push, fanOut_push]
    exact hg.link_iff r o
  · intro o
    rw [fanOut_push]
    exact hg.nodup o
  · intro r o d e h hd he
    rw [linkAt_push] at h
    obtain ⟨hr, ho⟩ := hb r o h
    rw [inputDecl?_eq_layout?, layout?_push, if_neg hr, ← inputDecl?_eq_layout?] at hd
    rw [outputDecl?_eq_layout?, layout?_push, if_neg ho, ← outputDecl?_eq_layout?] at he
    exact hg.typed r o d e h hd he
  · intro r d l hd hlit
    rw [literalAt_push] at hlit
    rw [inputDecl?_eq_layout?, layout?_push] at hd
    by_cases hr : r.node = g.idBound
    · rw [if_pos hr] at hlit hd
      obtain ⟨i, hi, rfl⟩ := Option.map_eq_some_iff.mp hlit
      simp only [Option.bind_some, Node.layout, List.getElem?_map, hi, Option.map_some,
        Option.some.injEq] at hd
      subst hd
      exact hn.shaped i (List.mem_of_getElem? hi)
    · rw [if_neg hr] at hlit hd
      rw [← inputDecl?_eq_layout?] at hd
      exact hg.shaped r d l hd hlit
  · intro id m hm
    rw [node?_push] at hm
    split at hm
    · cases hm
      rw [Node.layout_unlinked]
      exact hn.laidOut
    · exact hg.laidOut id m hm

/-- Nodes can be taken out if nothing is linked to them any more. -/
theorem drop {ids : List NodeId}
    (hin : ∀ id ∈ ids, id ≠ outputId → ∀ slot, g.linkAt ⟨id, slot⟩ = none)
    (hout : ∀ id ∈ ids, id ≠ outputId → ∀ slot, g.fanOut ⟨id, slot⟩ = []) :
    (g.drop ids).WellFormed := by
  have hl : ∀ r, (g.drop ids).linkAt r = g.linkAt r := fun r => by
    rw [linkAt_drop]
    split
    · rename_i h
      exact (hin r.node h.2 h.1 r.slot).symm
    · rfl
  have hf : ∀ o, (g.drop ids).fanOut o = g.fanOut o := fun o => by
    rw [fanOut_drop]
    split
    · rename_i h
      exact (hout o.node h.2 h.1 o.slot).symm
    · rfl
  have hlay : ∀ id l, (g.drop ids).layout? id = some l → g.layout? id = some l := by
    intro id l h
    rw [layout?_drop] at h
    split at h
    · cases h
    · exact h
  have hind : ∀ r d, (g.drop ids).inputDecl? r = some d → g.inputDecl? r = some d := by
    intro r d h
    rw [inputDecl?_eq_layout?] at h ⊢
    obtain ⟨l, hl, hd⟩ := Option.bind_eq_some_iff.mp h
    rw [hlay _ _ hl]
    exact hd
  have hotd : ∀ o e, (g.drop ids).outputDecl? o = some e → g.outputDecl? o = some e := by
    intro o e h
    rw [outputDecl?_eq_layout?] at h ⊢
    obtain ⟨l, hl, he⟩ := Option.bind_eq_some_iff.mp h
    rw [hlay _ _ hl]
    exact he
  refine intro ?_ ?_ ?_ ?_ ?_ ?_
  · rw [kind?_drop, if_neg (fun h => h.1 rfl)]
    exact hg.kind?_output
  · intro r o
    rw [hl, hf]
    exact hg.link_iff r o
  · intro o
    rw [hf]
    exact hg.nodup o
  · intro r o d e h hd he
    rw [hl] at h
    exact hg.typed r o d e h (hind r d hd) (hotd o e he)
  · intro r d l hd hlit
    rw [literalAt_drop] at hlit
    split at hlit
    · cases hlit
    · exact hg.shaped r d l (hind r d hd) hlit
  · intro id n hn
    rw [node?_drop] at hn
    split at hn
    · cases hn
    · exact hg.laidOut id n hn

theorem node_sound {id : NodeId} {n : Node} (hn : g.node? id = some n) : n.Sound := by
  refine ⟨hg.laidOut id n hn, fun i hi => ?_⟩
  obtain ⟨slot, hslot, rfl⟩ := List.getElem_of_mem hi
  have hin : g.input? ⟨id, slot⟩ = some n.inputs[slot] := by simp [input?, hn, hslot]
  exact hg.shaped ⟨id, slot⟩ _ _ (by simp [inputDecl?, hin]) (by simp [literalAt, hin])

end WellFormed

/-- The flags and the diagnostics are no part of being well-formed. -/
theorem WellFormed.of_table (hg : g.WellFormed) (h : g'.table = g.table) : g'.WellFormed := by
  obtain ⟨t, s, f, d⟩ := g
  obtain ⟨t', s', f', d'⟩ := g'
  cases h
  exact ⟨hg.first, hg.link_iff, hg.nodup, hg.typed, hg.shaped, hg.laidOut⟩

/-! ### The graph at the start -/

/-- The graph with an output only, as a graph without nodes to which the output is added. -/
theorem empty_eq_push : empty = (⟨#[], false, false, []⟩ : Graph).push (Node.ofKind .output) := by
  simp [empty, push, touch, Node.unlinked_ofKind]

theorem wellFormed_empty : empty.WellFormed := by
  have hl : ∀ r, empty.linkAt r = none := fun r => by rw [empty_eq_push, linkAt_push]; rfl
  have hf : ∀ o, empty.fanOut o = [] := fun o => by rw [empty_eq_push, fanOut_push]; rfl
  have hnode : ∀ id n, empty.node? id = some n → n.Sound := by
    intro id n h
    rw [empty_eq_push, node?_push, Node.unlinked_ofKind] at h
    split at h
    · cases h
      exact Node.sound_ofKind _
    · cases h
  refine WellFormed.intro rfl ?_ ?_ ?_ ?_ ?_
  · intro r o
    simp [hl, hf]
  · intro o
    simp [hf]
  · intro r o d e h
    simp [hl] at h
  · intro r d l hd hlit
    unfold literalAt at hlit
    unfold inputDecl? at hd
    obtain ⟨i, hi, rfl⟩ := Option.map_eq_some_iff.mp hlit
    rw [hi, Option.map_some, Option.some.injEq] at hd
    subst hd
    obtain ⟨n, hn, hs⟩ := Option.bind_eq_some_iff.mp hi
    exact (hnode r.node n hn).shaped i (List.mem_of_getElem? hs)
  · intro id n hn
    exact (hnode id n hn).laidOut

end Graph

end Shading
