import Shading.Proofs.Content
import Shading.Proofs.Primitive
import Shading.Proofs.Reachability

/-!
# Fingerprints

Fingerprints are compared for graphs with the same nodes, which may be linked in different ways.
What is hashed can be read back node by node: the content of a node fixes the names of its inputs,
and with it where each of the links ends. Two things cannot be read: which node feeds the
displacement, and by which of its outputs. -/

namespace Shading

open Relation

namespace Node

variable {m n : Node}

/-- What a node has besides its links. -/
def content (n : Node) : NodeKind × BumpSample × List Literal :=
  (n.kind, n.bump, n.inputs.map (·.literal))

theorem map_name_inputs (h : n.layout = n.kind.layout) :
    n.inputs.map (·.name) = n.kind.inputNames := by
  have hi : n.inputs.map (·.toInputDecl) = n.kind.inputDecls := congrArg Layout.inputs h
  rw [NodeKind.inputNames, ← hi, List.map_map]
  rfl

theorem contentBytes_eq (n : Node) :
    n.contentBytes = utf8 n.typeName ++ utf8 n.kind.text ++ [n.bump.code] ++
      ((n.inputs.map (·.name)).zip (n.inputs.map (·.literal))).flatMap
        fun p => utf8 p.1 ++ p.2.bytes := by
  rw [List.zip_map', List.flatMap_map, contentBytes]

theorem contentBytes_congr (hm : m.layout = m.kind.layout) (hn : n.layout = n.kind.layout)
    (h : m.content = n.content) : m.contentBytes = n.contentBytes := by
  simp only [content, Prod.mk.injEq] at h
  obtain ⟨hkind, hbump, hlit⟩ := h
  rw [contentBytes_eq, contentBytes_eq, map_name_inputs hm, map_name_inputs hn, typeName, typeName,
    hkind, hbump, hlit]

theorem bytecodeBytes_of_ne_script (h : n.role ≠ .script) : n.bytecodeBytes = [] := by
  rw [bytecodeBytes]
  split
  · rename_i hk
    exact absurd (by rw [role, hk]; rfl) h
  · rfl

theorem content_modifyInput (n : Node) (slot : Nat) {f : Input → Input}
    (hf : ∀ i, (f i).literal = i.literal) : (n.modifyInput slot f).content = n.content := by
  simp only [content, modifyInput, map_modify hf]

end Node

namespace Graph

variable {g g' : Graph} {D : Set NodeId} {M : Set (List UInt8)} {a b id : NodeId} {o : OutputRef} {e : OutputDecl}

/-! ### Digests -/

theorem WellFormed.linkOf_output (hg : g.WellFormed) {slot : Nat} (h : slot < 4) :
    g.linkOf ⟨outputId, slot⟩ = .ok (g.linkAt ⟨outputId, slot⟩) := by
  refine (g.linkOf_eq_ok).mpr ⟨?_, rfl⟩
  rw [hg.inputDecl?_eq hg.kind?_output, Option.isSome_iff_exists]
  exact ⟨_, List.getElem?_eq_getElem h⟩

/-- A graph without displacement has an empty fingerprint. -/
theorem WellFormed.fingerprint_of_free (hg : g.WellFormed) (h : g.linkAt ⟨outputId, 2⟩ = none) :
    g.fingerprint = .ok "" := by
  rw [fingerprint, hg.inputRef_eq hg.kind?_output (i := 2) rfl]
  dsimp only [bind, Except.bind]
  rw [hg.linkOf_output (by decide), h]
  rfl

/-- The fingerprint of a graph with a displacement is a digest. -/
theorem WellFormed.fingerprint_of_linked (hg : g.WellFormed) {s : OutputRef}
    (h : g.linkAt ⟨outputId, 2⟩ = some s) :
    g.fingerprint = .ok (Blake3.hex (Blake3.hash (g.displacementBytes (g.cone s.node)))) := by
  rw [fingerprint, hg.inputRef_eq hg.kind?_output (i := 2) rfl]
  dsimp only [bind, Except.bind]
  rw [hg.linkOf_output (by decide), h]
  dsimp only
  rw [dependencies_eq h]
  rfl

/-- The fingerprint of a graph is empty if and only if the graph has no displacement. -/
theorem WellFormed.fingerprint_ne_empty_iff (hg : g.WellFormed) {s : String}
    (hs : g.fingerprint = .ok s) : s ≠ "" ↔ g.linkAt ⟨outputId, 2⟩ ≠ none := by
  cases hl : g.linkAt ⟨outputId, 2⟩ with
  | none =>
    rw [hg.fingerprint_of_free hl, Except.ok.injEq] at hs
    simp [← hs]
  | some o =>
    rw [hg.fingerprint_of_linked hl, Except.ok.injEq] at hs
    simpa [← hs] using Blake3.hex_hash_ne_empty _

/-! ### Graphs with the same nodes -/

/-- Two graphs have the same nodes, which may be linked in different ways. -/
def SameNodes (g g' : Graph) : Prop :=
  ∀ id, (g.node? id).map Node.content = (g'.node? id).map Node.content

/-- The scripts among some nodes cannot be mistaken: the names of their outputs can be told apart
from the start, and only nodes of the same kind have the same content. Names are hashed without
their lengths, so this does not go without saying for names that a script chooses. -/
structure Legible (g : Graph) (D : Set NodeId) : Prop where
  outputs : ∀ id ∈ D, ∀ script, g.kind? id = some (.osl script) →
    PrefixFree (script.outputs.map (·.name))
  contents : ∀ a ∈ D, ∀ b ∈ D, ∀ m n, g.node? a = some m → g.node? b = some n →
    m.role = .script → m.contentBytes = n.contentBytes → m.kind = n.kind

theorem legible_of_ne_script (h : ∀ p ∈ g.nodes, p.2.role ≠ .script) : g.Legible D where
  outputs id _ script hk := by
    obtain ⟨n, hn, hkind⟩ := Option.map_eq_some_iff.mp hk
    exact absurd (by rw [Node.role, hkind]; rfl) (h _ ((g.mem_nodes).mpr hn))
  contents a _ b _ m n hm _ hrole := absurd hrole (h _ ((g.mem_nodes).mpr hm))

/-- All that is hashed to get the fingerprint of a graph. -/
def hashed (g : Graph) (ids : NodeSet) : List (List UInt8) :=
  g.displacementBytes ids :: ids.filterMap fun id => (g.node? id).map Node.contentBytes

theorem contentBytes_mem_hashed {ids : NodeSet} (hid : id ∈ ids) {n : Node}
    (hn : g.node? id = some n) : n.contentBytes ∈ g.hashed ids :=
  List.mem_cons_of_mem _ (List.mem_filterMap.mpr ⟨id, hid, by simp [hn]⟩)

/-- Two nodes have the same content, and their inputs are linked to the same outputs. -/
def SameEntry (g g' : Graph) (a b : NodeId) : Prop :=
  ∃ m n, g.node? a = some m ∧ g'.node? b = some n ∧ m.contentBytes = n.contentBytes ∧
    m.inputs.map (·.link) = n.inputs.map (·.link)

theorem kind?_eq_of_content (h : (g.node? id).map Node.content = (g'.node? id).map Node.content) :
    g'.kind? id = g.kind? id := by
  have hkind := congrArg (Option.map Prod.fst) h
  rw [Option.map_map, Option.map_map] at hkind
  exact hkind.symm

theorem WellFormed.exists_node_of_content (hg : g.WellFormed) (hg' : g'.WellFormed)
    (h : (g.node? id).map Node.content = (g'.node? id).map Node.content) {m : Node}
    (hm : g.node? id = some m) :
    ∃ n, g'.node? id = some n ∧ n.kind = m.kind ∧ n.contentBytes = m.contentBytes := by
  rw [hm, Option.map_some] at h
  obtain ⟨n, hn, hc⟩ := Option.map_eq_some_iff.mp h.symm
  exact ⟨n, hn, congrArg Prod.fst hc,
    Node.contentBytes_congr (hg'.laidOut _ n hn) (hg.laidOut _ m hm) hc⟩

theorem SameNodes.kind?_eq (h : g.SameNodes g') (id : NodeId) : g'.kind? id = g.kind? id :=
  kind?_eq_of_content (h id)

theorem SameNodes.symm (h : g.SameNodes g') : g'.SameNodes g := fun id => (h id).symm

theorem SameNodes.trans {g'' : Graph} (h : g.SameNodes g') (h' : g'.SameNodes g'') :
    g.SameNodes g'' :=
  fun id => (h id).trans (h' id)

theorem sameNodes_modifyNode (id : NodeId) {f : Node → Node} (hf : ∀ n, (f n).content = n.content) :
    g.SameNodes (g.modifyNode id f) := by
  intro j
  rw [node?_modifyNode]
  by_cases h : j = id
  · subst h
    rw [if_pos rfl, Option.map_map, Function.comp_def]
    simp only [hf]
  · rw [if_neg h]

/-- A link leaves the nodes as they are. -/
theorem sameNodes_link (s : OutputRef) (t : InputRef) : g.SameNodes (g.link s t) := by
  have hin : g.SameNodes (g.modifyInput t fun i => { i with link := some s }) :=
    sameNodes_modifyNode t.node fun n => n.content_modifyInput t.slot fun _ => rfl
  refine hin.trans fun id => ?_
  exact sameNodes_modifyNode s.node (f := fun n => n.modifyOutput s.slot _) (fun _ => rfl) id

theorem nodeBytes_ne_nil {n : Node} (hn : g.node? id = some n) : g.nodeBytes id ≠ [] := by
  have hlen : n.contentHash.length = 32 := Blake3.length_hash _
  intro hnil
  simp only [nodeBytes, hn, List.append_eq_nil_iff] at hnil
  rw [hnil.1.1] at hlen
  cases hlen

/-! ### Reading links back -/

/-- The output that a link comes from has a name. It does not belong to the output node, whose id
stands for no link. -/
theorem WellFormed.name_of_outputDecl? (hg : g.WellFormed) (he : g.outputDecl? o = some e) :
    o.node ≠ outputId ∧ ∃ k, g.kind? o.node = some k ∧ k.outputNames[o.slot]? = some e.name := by
  obtain ⟨k, hk⟩ := g.kind?_of_outputDecl? he
  rw [show o = ⟨o.node, o.slot⟩ from rfl, hg.outputDecl?_eq hk] at he
  refine ⟨fun h0 => ?_, k, hk, by simp [NodeKind.outputNames, he]⟩
  rw [h0, hg.kind?_output, Option.some.injEq] at hk
  rw [← hk] at he
  cases he

theorem WellFormed.feeds_of_link (hg : g.WellFormed) {n : Node} (hn : g.node? a = some n)
    {i : Input} (hi : i ∈ n.inputs) (ho : i.link = some o) :
    g.Feeds o.node a ∧ ∃ e, g.outputDecl? o = some e := by
  obtain ⟨slot, hslot⟩ := List.getElem?_of_mem hi
  have hl : g.linkAt ⟨a, slot⟩ = some o := (g.linkAt_of_getElem? hn hslot).trans ho
  exact ⟨⟨_, o, hl, rfl, rfl⟩, hg.exists_output hl⟩

theorem linkBytes_of_linked {i : Input} (hl : i.link = some o) (he : g.outputDecl? o = some e) :
    g.linkBytes i = littleEndian 4 o.node ++ (utf8 i.name ++ utf8 e.name) := by
  obtain ⟨out, hout, rfl⟩ := Option.map_eq_some_iff.mp he
  simp [linkBytes, hl, hout]

theorem linkBytes_of_free {i : Input} (hl : i.link = none) :
    g.linkBytes i = littleEndian 4 0 ++ utf8 i.name := by
  simp [linkBytes, hl]

/-- The bytes of links are the same if the links and the names are. -/
theorem flatMap_linkBytes_congr {is is' : List Input} (hnames : is.map (·.name) = is'.map (·.name))
    (hlinks : is.map (·.link) = is'.map (·.link))
    (hi : ∀ i ∈ is, ∀ o, i.link = some o → ∃ e, g.outputDecl? o = some e ∧ g'.outputDecl? o = some e) :
    is.flatMap g.linkBytes = is'.flatMap g'.linkBytes := by
  induction is generalizing is' with
  | nil =>
    obtain rfl : is' = [] := List.map_eq_nil_iff.mp hnames.symm
    rfl
  | cons i is ih =>
    cases is' with
    | nil => cases hnames
    | cons i' is' =>
      rw [List.map_cons, List.map_cons, List.cons.injEq] at hnames hlinks
      have hhead : g.linkBytes i = g'.linkBytes i' := by
        cases hl : i.link with
        | none => rw [linkBytes_of_free hl, linkBytes_of_free (hlinks.1 ▸ hl), hnames.1]
        | some o =>
          obtain ⟨e, he, he'⟩ := hi i List.mem_cons_self o hl
          rw [linkBytes_of_linked hl he, linkBytes_of_linked (hlinks.1 ▸ hl) he', hnames.1]
      rw [List.flatMap_cons, List.flatMap_cons, hhead,
        ih hnames.2 hlinks.2 fun j hj => hi j (List.mem_cons_of_mem i hj)]

/-- The links of a node have the same bytes in two graphs if the nodes that feed it are of the same
kinds. -/
theorem WellFormed.linkBytes_congr (hg : g.WellFormed) (hg' : g'.WellFormed) {m n : Node}
    (hm : g.node? a = some m) (hnames : m.inputs.map (·.name) = n.inputs.map (·.name))
    (hlinks : m.inputs.map (·.link) = n.inputs.map (·.link))
    (hkinds : ∀ c, g.Feeds c a → g'.kind? c = g.kind? c) :
    m.inputs.flatMap g.linkBytes = n.inputs.flatMap g'.linkBytes := by
  refine flatMap_linkBytes_congr hnames hlinks fun i hi o ho => ?_
  obtain ⟨hfeeds, e, he⟩ := hg.feeds_of_link hm hi ho
  obtain ⟨k, hk⟩ := g.kind?_of_outputDecl? he
  exact ⟨e, he, (hg.outputDecl?_congr hg' hk ((hkinds _ hfeeds).trans hk) o.slot).trans he⟩

/-- A node enters a fingerprint: it is in `D` together with all that feeds it, and its content is in
`M`. -/
structure Enters (g : Graph) (D : Set NodeId) (M : Set (List UInt8)) (a : NodeId) : Prop where
  mem : a ∈ D
  closed : ∀ c, g.Feeds c a → c ∈ D
  content : ∃ n, g.node? a = some n ∧ n.contentBytes ∈ M

theorem WellFormed.enters_cone (hg : g.WellFormed) {x : NodeId} (hx : x ∈ g.ids)
    (hD : ∀ a ∈ g.cone x, a ∈ D) (hM : ∀ m ∈ g.hashed (g.cone x), m ∈ M) :
    ∀ a ∈ g.cone x, g.Enters D M a := by
  intro a ha
  obtain ⟨n, hn⟩ := exists_node_of_mem (mem_ids_of_mem_cone ha)
  exact ⟨hD a ha, fun c hca => hD c (hg.mem_cone_of_feeds hx ha hca), n, hn,
    hM _ (contentBytes_mem_hashed ha hn)⟩

/-- What is assumed to compare the fingerprints of two graphs. `D` are the nodes that enter them. -/
structure Comparable (D : Set NodeId) (g g' : Graph) : Prop where
  left : g.WellFormed
  right : g'.WellFormed
  same : g.SameNodes g'
  bounded : g.idBound ≤ 2 ^ 32
  legible : g.Legible D

namespace Comparable

variable (h : g.Comparable D g')
include h

theorem prefixFree (hid : id ∈ D) {k : NodeKind} (hk : g.kind? id = some k) :
    PrefixFree k.outputNames := by
  by_cases hs : k.role = .script
  · cases k with
    | osl script =>
      rw [NodeKind.outputNames, NodeKind.outputDecls, List.map_map]
      exact h.legible.outputs id hid script hk
    | convert source target automatic =>
      simp only [NodeKind.role] at hs
      split_ifs at hs
    | _ => cases hs
  · exact NodeKind.prefixFree_outputNames hs

/-- A link is known from its bytes, whatever follows them. -/
theorem linkBytes_inj {i i' : Input} {r r' : List UInt8} (hname : i.name = i'.name)
    (hi : ∀ o, i.link = some o → o.node ∈ D ∧ ∃ e, g.outputDecl? o = some e)
    (hi' : ∀ o, i'.link = some o → ∃ e, g'.outputDecl? o = some e)
    (heq : g.linkBytes i ++ r = g'.linkBytes i' ++ r') : i.link = i'.link ∧ r = r' := by
  have hlt : ∀ {x k}, g.kind? x = some k → x < 256 ^ 4 := fun hk =>
    Nat.lt_of_lt_of_le (g.lt_idBound_of_kind? hk) h.bounded
  have hid : ∀ {x y : Nat} {r r' : List UInt8}, x < 256 ^ 4 → y < 256 ^ 4 →
      littleEndian 4 x ++ r = littleEndian 4 y ++ r' → x = y ∧ r = r' := by
    intro x y r r' hx hy heq
    obtain ⟨hxy, hr⟩ := List.append_inj heq (by simp)
    exact ⟨littleEndian_inj hx hy hxy, hr⟩
  cases hl : i.link with
  | none =>
    cases hl' : i'.link with
    | none =>
      rw [linkBytes_of_free hl, linkBytes_of_free hl', hname, List.append_cancel_left_eq] at heq
      exact ⟨rfl, heq⟩
    | some o' =>
      obtain ⟨e', he'⟩ := hi' o' hl'
      obtain ⟨hne', k', hk', -⟩ := h.right.name_of_outputDecl? he'
      simp only [linkBytes_of_free hl, linkBytes_of_linked hl' he', List.append_assoc] at heq
      -- no link is written as a link to the output node, which feeds nothing
      exact absurd (hid (by decide) (hlt (h.same.kind?_eq _ ▸ hk')) heq).1.symm hne'
  | some o =>
    obtain ⟨hD, e, he⟩ := hi o hl
    obtain ⟨hne, k, hk, hslot⟩ := h.left.name_of_outputDecl? he
    cases hl' : i'.link with
    | none =>
      simp only [linkBytes_of_linked hl he, linkBytes_of_free hl', List.append_assoc] at heq
      exact absurd (hid (hlt hk) (by decide) heq).1 hne
    | some o' =>
      obtain ⟨e', he'⟩ := hi' o' hl'
      obtain ⟨-, k', hk', hslot'⟩ := h.right.name_of_outputDecl? he'
      rw [h.same.kind?_eq] at hk'
      simp only [linkBytes_of_linked hl he, linkBytes_of_linked hl' he', List.append_assoc] at heq
      obtain ⟨hnode, hrest⟩ := hid (hlt hk) (hlt hk') heq
      rw [hname, List.append_cancel_left_eq] at hrest
      rw [← hnode, hk, Option.some.injEq] at hk'
      -- the node is known, and among its outputs the name is, although it is not known where it ends
      obtain ⟨hs, hr⟩ := (h.prefixFree hD hk).append_inj hslot (hk' ▸ hslot') hrest
      obtain ⟨x, slot⟩ := o
      obtain ⟨x', slot'⟩ := o'
      cases hnode
      cases hs
      exact ⟨rfl, hr⟩

/-- The links of a node are known from their bytes if the names of the inputs are. -/
theorem flatMap_linkBytes_inj {is is' : List Input} {r r' : List UInt8}
    (hnames : is.map (·.name) = is'.map (·.name))
    (hi : ∀ i ∈ is, ∀ o, i.link = some o → o.node ∈ D ∧ ∃ e, g.outputDecl? o = some e)
    (hi' : ∀ i ∈ is', ∀ o, i.link = some o → ∃ e, g'.outputDecl? o = some e)
    (heq : is.flatMap g.linkBytes ++ r = is'.flatMap g'.linkBytes ++ r') :
    is.map (·.link) = is'.map (·.link) ∧ r = r' := by
  induction is generalizing is' with
  | nil =>
    obtain rfl : is' = [] := List.map_eq_nil_iff.mp hnames.symm
    exact ⟨rfl, heq⟩
  | cons i is ih =>
    cases is' with
    | nil => cases hnames
    | cons i' is' =>
      rw [List.map_cons, List.map_cons, List.cons.injEq] at hnames
      rw [List.flatMap_cons, List.flatMap_cons, List.append_assoc, List.append_assoc] at heq
      obtain ⟨hlink, heq⟩ := h.linkBytes_inj hnames.1 (hi i List.mem_cons_self)
        (hi' i' List.mem_cons_self) heq
      obtain ⟨hlinks, hr⟩ := ih hnames.2 (fun j hj => hi j (List.mem_cons_of_mem i hj))
        (fun j hj => hi' j (List.mem_cons_of_mem i' hj)) heq
      exact ⟨by rw [List.map_cons, List.map_cons, hlink, hlinks], hr⟩

/-! ### Reading nodes back -/

/-- Nodes with the same content have the same inputs, and they stand for the same bytecode. -/
theorem names_eq (ha : a ∈ D) (hb : b ∈ D) {m n : Node} (hm : g.node? a = some m)
    (hn : g'.node? b = some n) (hc : m.contentBytes = n.contentBytes) :
    m.inputs.map (·.name) = n.inputs.map (·.name) ∧ m.bytecodeBytes = n.bytecodeBytes := by
  rw [Node.map_name_inputs (h.left.laidOut a m hm), Node.map_name_inputs (h.right.laidOut b n hn)]
  obtain ⟨n₀, hn₀, hkind, hc₀⟩ := h.right.exists_node_of_content h.left (h.same b).symm hn
  -- the kind of a script cannot be read off its content, so scripts are assumed to be legible
  by_cases hscript : m.role = .script ∨ n.role = .script
  · have heq : m.kind = n.kind := by
      rcases hscript with hs | hs
      · exact (h.legible.contents a ha b hb m n₀ hm hn₀ hs (hc.trans hc₀.symm)).trans hkind
      · refine (hkind.symm.trans (h.legible.contents b hb a ha n₀ m hn₀ hm ?_ ?_)).symm
        · rw [Node.role, hkind]
          exact hs
        · exact hc₀.trans hc.symm
    rw [Node.bytecodeBytes, Node.bytecodeBytes, heq]
    exact ⟨rfl, rfl⟩
  · rw [not_or] at hscript
    refine ⟨Node.inputNames_eq_of_contentBytes hscript.1 hscript.2 hc, ?_⟩
    rw [Node.bytecodeBytes_of_ne_script hscript.1, Node.bytecodeBytes_of_ne_script hscript.2]

/-- A node is known from its bytes, whatever follows them. -/
theorem nodeBytes_inj {r r' : List UInt8} (hinj : Set.InjOn Blake3.hash M) (ha : g.Enters D M a)
    (hb : g'.Enters D M b) (heq : g.nodeBytes a ++ r = g'.nodeBytes b ++ r') :
    g.SameEntry g' a b ∧ r = r' := by
  obtain ⟨m, hm, hMm⟩ := ha.content
  obtain ⟨n, hn, hMn⟩ := hb.content
  simp only [nodeBytes, hm, hn, List.append_assoc] at heq
  -- the content has been hashed to 32 bytes, and it decides how the rest is to be read
  obtain ⟨hhash, heq⟩ := List.append_inj heq (by simp [Node.contentHash, Blake3.length_hash])
  have hc := hinj hMm hMn hhash
  obtain ⟨hnames, hcode⟩ := h.names_eq ha.mem hb.mem hm hn hc
  rw [hcode, List.append_cancel_left_eq] at heq
  obtain ⟨hlinks, hr⟩ := h.flatMap_linkBytes_inj hnames
    (fun i hi o ho => (h.left.feeds_of_link hm hi ho).imp_left (ha.closed o.node))
    (fun i hi o ho => (h.right.feeds_of_link hn hi ho).2) heq
  exact ⟨⟨m, n, hm, hn, hc, hlinks⟩, hr⟩

theorem nodeBytes_congr (ha : a ∈ D) (hb : b ∈ D) (hab : g.SameEntry g' a b) :
    g.nodeBytes a = g'.nodeBytes b := by
  obtain ⟨m, n, hm, hn, hc, hlinks⟩ := hab
  obtain ⟨hnames, hcode⟩ := h.names_eq ha hb hm hn hc
  simp only [nodeBytes, hm, hn, Node.contentHash, hc, hcode]
  rw [h.left.linkBytes_congr h.right hm hnames hlinks fun c _ => h.same.kind?_eq c]

theorem displacementBytes_inj (hinj : Set.InjOn Blake3.hash M) {A B : NodeSet}
    (hA : ∀ a ∈ A, g.Enters D M a) (hB : ∀ b ∈ B, g'.Enters D M b)
    (heq : g.displacementBytes A = g'.displacementBytes B) :
    List.Forall₂ (g.SameEntry g') A B := by
  induction A generalizing B with
  | nil =>
    cases B with
    | nil => exact .nil
    | cons b B =>
      obtain ⟨n, hn, -⟩ := (hB b List.mem_cons_self).content
      simp [displacementBytes, nodeBytes_ne_nil hn] at heq
  | cons a A ih =>
    obtain ⟨ha, hA⟩ := List.forall_mem_cons.mp hA
    cases B with
    | nil =>
      obtain ⟨m, hm, -⟩ := ha.content
      simp [displacementBytes, nodeBytes_ne_nil hm] at heq
    | cons b B =>
      obtain ⟨hb, hB⟩ := List.forall_mem_cons.mp hB
      rw [displacementBytes, displacementBytes, List.flatMap_cons, List.flatMap_cons] at heq
      obtain ⟨hab, hrest⟩ := h.nodeBytes_inj hinj ha hb heq
      exact .cons hab (ih hA hB hrest)

theorem displacementBytes_congr {A B : NodeSet} (hA : ∀ a ∈ A, a ∈ D) (hB : ∀ b ∈ B, b ∈ D)
    (hAB : List.Forall₂ (g.SameEntry g') A B) :
    g.displacementBytes A = g'.displacementBytes B := by
  induction hAB with
  | nil => rfl
  | cons hab _ ih =>
    obtain ⟨ha, hA⟩ := List.forall_mem_cons.mp hA
    obtain ⟨hb, hB⟩ := List.forall_mem_cons.mp hB
    rw [displacementBytes, displacementBytes, List.flatMap_cons, List.flatMap_cons,
      h.nodeBytes_congr ha hb hab]
    exact congrArg _ (ih hA hB)

/-- Fingerprints are equal if and only if the nodes that enter them are, one after the other. -/
theorem fingerprint_eq_iff_forall₂ (hinj : Set.InjOn Blake3.hash M) {s s' : OutputRef}
    (hs : g.linkAt ⟨outputId, 2⟩ = some s) (hs' : g'.linkAt ⟨outputId, 2⟩ = some s')
    (hD : ∀ a ∈ g.cone s.node, a ∈ D) (hD' : ∀ b ∈ g'.cone s'.node, b ∈ D)
    (hM : ∀ x ∈ g.hashed (g.cone s.node), x ∈ M) (hM' : ∀ x ∈ g'.hashed (g'.cone s'.node), x ∈ M) :
    g.fingerprint = g'.fingerprint ↔
      List.Forall₂ (g.SameEntry g') (g.cone s.node) (g'.cone s'.node) := by
  have hx := (h.left.mem_ids_of_feeds ⟨_, s, hs, rfl, rfl⟩).1
  have hx' := (h.right.mem_ids_of_feeds ⟨_, s', hs', rfl, rfl⟩).1
  rw [h.left.fingerprint_of_linked hs, h.right.fingerprint_of_linked hs', Except.ok.injEq,
    Blake3.hex_injective.eq_iff, hinj.eq_iff (hM _ List.mem_cons_self) (hM' _ List.mem_cons_self)]
  exact ⟨h.displacementBytes_inj hinj (h.left.enters_cone hx hD hM) (h.right.enters_cone hx' hD' hM'),
    h.displacementBytes_congr hD hD'⟩

end Comparable

/-! ### The nodes behind the displacement -/

theorem SameEntry.symm (h : g.SameEntry g' a b) : g'.SameEntry g b a := by
  obtain ⟨m, n, hm, hn, hc, hl⟩ := h
  exact ⟨n, m, hn, hm, hc.symm, hl.symm⟩

theorem linkAt_eq_join {n : Node} (hn : g.node? a = some n) (slot : Nat) :
    g.linkAt ⟨a, slot⟩ = (n.inputs.map (·.link))[slot]?.join := by
  cases hi : n.inputs[slot]? <;> simp [linkAt, input?, hn, hi]

theorem SameEntry.linkAt_eq (h : g.SameEntry g' a b) (slot : Nat) :
    g.linkAt ⟨a, slot⟩ = g'.linkAt ⟨b, slot⟩ := by
  obtain ⟨m, n, hm, hn, -, hl⟩ := h
  rw [linkAt_eq_join hm, linkAt_eq_join hn, hl]

theorem feeds_of_linkAt_eq (h : ∀ slot, g.linkAt ⟨a, slot⟩ = g'.linkAt ⟨b, slot⟩) {c : NodeId}
    (hca : g.Feeds c a) : g'.Feeds c b := by
  obtain ⟨⟨_, slot⟩, o, hl, rfl, rfl⟩ := hca
  exact ⟨⟨b, slot⟩, o, (h slot).symm.trans hl, rfl, rfl⟩

/-- Nodes of the same kind that are linked to the same outputs list the same names and links. -/
theorem WellFormed.map_inputs_eq (hg : g.WellFormed) (hg' : g'.WellFormed) {m n : Node}
    (hm : g.node? id = some m) (hn : g'.node? id = some n) (hkind : n.kind = m.kind)
    (hl : ∀ slot, g.linkAt ⟨id, slot⟩ = g'.linkAt ⟨id, slot⟩) :
    m.inputs.map (·.name) = n.inputs.map (·.name) ∧
      m.inputs.map (·.link) = n.inputs.map (·.link) := by
  have hnames : m.inputs.map (·.name) = n.inputs.map (·.name) := by
    rw [Node.map_name_inputs (hg.laidOut _ m hm), Node.map_name_inputs (hg'.laidOut _ n hn), hkind]
  refine ⟨hnames, List.ext_getElem ?_ fun slot hslot hslot' => ?_⟩
  · simpa using congrArg List.length hnames
  · have heq := hl slot
    rw [linkAt_eq_join hm, linkAt_eq_join hn, List.getElem?_eq_getElem hslot,
      List.getElem?_eq_getElem hslot'] at heq
    exact heq

theorem SameNodes.sameEntry (h : g.SameNodes g') (hg : g.WellFormed) (hg' : g'.WellFormed)
    (hid : id ∈ g.ids) (hl : ∀ slot, g.linkAt ⟨id, slot⟩ = g'.linkAt ⟨id, slot⟩) :
    g.SameEntry g' id id := by
  obtain ⟨m, hm⟩ := exists_node_of_mem hid
  obtain ⟨n, hn, hkind, hc⟩ := hg.exists_node_of_content hg' (h id) hm
  exact ⟨m, n, hm, hn, hc.symm, (hg.map_inputs_eq hg' hm hn hkind hl).2⟩

/-- Nodes that enter fingerprints in the same way are fed by the same nodes. -/
theorem cone_subset_of_forall₂ (hg : g.WellFormed) (hg' : g'.WellFormed) {x : NodeId}
    (hx : x ∈ g.ids) (hx' : x ∈ g'.ids) (h : List.Forall₂ (g.SameEntry g') (g.cone x) (g'.cone x)) :
    ∀ a ∈ g.cone x, a ∈ g'.cone x := by
  refine hg.cone_subset hx (S := {a | a ∈ g'.cone x}) (mem_cone_self hx') fun a c hc _ hac => ?_
  obtain ⟨hlen, hget⟩ := List.forall₂_iff_get.mp h
  obtain ⟨i, hi, rfl⟩ := List.getElem_of_mem hc
  have hi' : i < (g'.cone x).length := hlen ▸ hi
  exact hg'.mem_cone_of_feeds hx' (List.getElem_mem hi')
    (feeds_of_linkAt_eq (hget i hi hi').linkAt_eq hac)

/-- Links that are the same on all that they lead back to lead back to the same nodes. -/
theorem WellFormed.cone_eq_of_linkAt_eq (hg : g.WellFormed) (hg' : g'.WellFormed) {x : NodeId}
    (hx : x ∈ g.ids) (hx' : x ∈ g'.ids)
    (hl : ∀ id ∈ g.cone x, ∀ slot, g.linkAt ⟨id, slot⟩ = g'.linkAt ⟨id, slot⟩) :
    g.cone x = g'.cone x := by
  refine cone_eq_of_mem_iff fun a => ⟨?_, ?_⟩
  · refine hg.cone_subset hx (S := {a | a ∈ g'.cone x}) (mem_cone_self hx') ?_ a
    exact fun a c hc hc' hac => hg'.mem_cone_of_feeds hx' hc' (feeds_of_linkAt_eq (hl c hc) hac)
  · refine hg'.cone_subset hx' (S := {a | a ∈ g.cone x}) (mem_cone_self hx) ?_ a
    exact fun a c _ hc hac =>
      hg.mem_cone_of_feeds hx hc (feeds_of_linkAt_eq (fun slot => (hl c hc slot).symm) hac)

theorem Comparable.forall₂_cone_iff (h : g.Comparable D g') {x : NodeId} (hx : x ∈ g.ids)
    (hx' : x ∈ g'.ids) :
    List.Forall₂ (g.SameEntry g') (g.cone x) (g'.cone x) ↔
      ∀ id ∈ g.cone x, ∀ slot, g.linkAt ⟨id, slot⟩ = g'.linkAt ⟨id, slot⟩ := by
  constructor
  · intro hall
    have hall' : List.Forall₂ (g'.SameEntry g) (g'.cone x) (g.cone x) :=
      (hall.imp fun _ _ hab => hab.symm).flip
    have heq : g.cone x = g'.cone x := cone_eq_of_mem_iff fun a =>
      ⟨cone_subset_of_forall₂ h.left h.right hx hx' hall a,
        cone_subset_of_forall₂ h.right h.left hx' hx hall' a⟩
    rw [← heq, List.forall₂_same] at hall
    exact fun id hid slot => (hall id hid).linkAt_eq slot
  · intro hl
    rw [← h.left.cone_eq_of_linkAt_eq h.right hx hx' hl, List.forall₂_same]
    exact fun id hid => h.same.sameEntry h.left h.right (mem_ids_of_mem_cone hid) (hl id hid)

/-- Where no two texts that are hashed collide, fingerprints of graphs with the same nodes are equal
if and only if the nodes behind the displacements, taken in order, have the same contents and the
same links. If one and the same node feeds both displacements, this means that all links behind it
are the same. By which output it feeds them makes no difference. -/
theorem fingerprint_eq_iff {s s' : OutputRef} (hs : g.linkAt ⟨outputId, 2⟩ = some s)
    (hs' : g'.linkAt ⟨outputId, 2⟩ = some s')
    (h : g.Comparable {id | id ∈ g.cone s.node ∨ id ∈ g'.cone s'.node} g')
    (hinj : Set.InjOn Blake3.hash
      {x | x ∈ g.hashed (g.cone s.node) ++ g'.hashed (g'.cone s'.node)}) :
    (g.fingerprint = g'.fingerprint ↔
      List.Forall₂ (g.SameEntry g') (g.cone s.node) (g'.cone s'.node)) ∧
    (s.node = s'.node → (g.fingerprint = g'.fingerprint ↔
      ∀ id ∈ g.cone s.node, ∀ slot, g.linkAt ⟨id, slot⟩ = g'.linkAt ⟨id, slot⟩)) := by
  have heq := h.fingerprint_eq_iff_forall₂ hinj hs hs' (fun a ha => Or.inl ha) (fun b hb => Or.inr hb)
    (fun x hx => List.mem_append_left _ hx) fun x hx => List.mem_append_right _ hx
  refine ⟨heq, fun hnode => heq.trans ?_⟩
  have hx := (h.left.mem_ids_of_feeds ⟨_, s, hs, rfl, rfl⟩).1
  have hx' := (h.right.mem_ids_of_feeds ⟨_, s', hs', rfl, rfl⟩).1
  rw [← hnode] at hx' ⊢
  exact h.forall₂_cone_iff hx hx'

/-- A geometry, and a node that sets a normal. -/
def geometryAndNormal : Graph :=
  Primitive.runAll [.addKind .geometry, .addKind .setNormal] Graph.empty

theorem wellFormed_geometryAndNormal : geometryAndNormal.WellFormed :=
  (Primitive.follows_runAll wellFormed_empty _).wellFormed

/-- A displacement along a normal that an output of the geometry sets. -/
def alongNormal (slot : Nat) : Graph :=
  (geometryAndNormal.link ⟨2, 0⟩ ⟨0, 2⟩).link ⟨1, slot⟩ ⟨2, 0⟩

theorem wellFormed_alongNormal : (alongNormal 0).WellFormed ∧ (alongNormal 1).WellFormed := by
  have hg := wellFormed_geometryAndNormal
  have hset : (geometryAndNormal.link ⟨2, 0⟩ ⟨0, 2⟩).WellFormed :=
    hg.link (hg.outputDecl?_eq (k := .setNormal) (by decide) 0) (hg.inputDecl?_eq hg.kind?_output 2)
      (by decide) rfl (by decide)
  have hgeometry : (geometryAndNormal.link ⟨2, 0⟩ ⟨0, 2⟩).kind? 1 = some .geometry := by decide
  have hnormal : (geometryAndNormal.link ⟨2, 0⟩ ⟨0, 2⟩).kind? 2 = some .setNormal := by decide
  have hin := hset.inputDecl?_eq hnormal 0
  exact ⟨hset.link (hset.outputDecl?_eq hgeometry 0) hin (by decide) rfl (by decide),
    hset.link (hset.outputDecl?_eq hgeometry 1) hin (by decide) rfl (by decide)⟩

theorem fingerprint_eq_iff_alongNormal :
    (alongNormal 0).linkAt ⟨outputId, 2⟩ = some ⟨2, 0⟩ ∧
      (alongNormal 1).linkAt ⟨outputId, 2⟩ = some ⟨2, 0⟩ ∧
      (alongNormal 0).SameNodes (alongNormal 1) ∧
      (alongNormal 0).linkAt ⟨2, 0⟩ ≠ (alongNormal 1).linkAt ⟨2, 0⟩ ∧
      (alongNormal 0).fingerprint ≠ (alongNormal 1).fingerprint := by
  have hsame : (alongNormal 0).SameNodes (alongNormal 1) :=
    (sameNodes_link _ _).symm.trans (sameNodes_link _ _)
  have hdistinct : (((alongNormal 0).hashed ((alongNormal 0).cone 2) ++
      (alongNormal 1).hashed ((alongNormal 1).cone 2)).dedup.map Blake3.hash).Nodup := by
    decide +kernel
  have hinj : Set.InjOn Blake3.hash {x | x ∈ (alongNormal 0).hashed ((alongNormal 0).cone 2) ++
      (alongNormal 1).hashed ((alongNormal 1).cone 2)} := fun x hx y hy =>
    List.inj_on_of_nodup_map hdistinct (List.mem_dedup.mpr hx) (List.mem_dedup.mpr hy)
  have hne : (alongNormal 0).linkAt ⟨2, 0⟩ ≠ (alongNormal 1).linkAt ⟨2, 0⟩ := by decide
  have hl₀ : (alongNormal 0).linkAt ⟨outputId, 2⟩ = some ⟨2, 0⟩ := by decide
  have hl₁ : (alongNormal 1).linkAt ⟨outputId, 2⟩ = some ⟨2, 0⟩ := by decide
  refine ⟨hl₀, hl₁, hsame, hne, fun heq => ?_⟩
  have hcomp : (alongNormal 0).Comparable
      {id | id ∈ (alongNormal 0).cone 2 ∨ id ∈ (alongNormal 1).cone 2} (alongNormal 1) :=
    ⟨wellFormed_alongNormal.1, wellFormed_alongNormal.2, hsame, by decide,
      legible_of_ne_script (by decide)⟩
  have hiff := (fingerprint_eq_iff hl₀ hl₁ hcomp hinj).2 rfl
  exact hne (hiff.mp heq 2 (mem_cone_self (by decide)) 0)

/-- A displacement that an output of the geometry feeds. -/
def displacedBy (slot : Nat) : Graph := geometryAndNormal.link ⟨1, slot⟩ ⟨0, 2⟩

/-- The fingerprint does not depend on the output that feeds the displacement. -/
theorem fingerprint_displacedBy :
    (displacedBy 0).WellFormed ∧ (displacedBy 1).WellFormed ∧
      (displacedBy 0).SameNodes (displacedBy 1) ∧
      (displacedBy 0).linkAt ⟨outputId, 2⟩ = some ⟨1, 0⟩ ∧
      (displacedBy 1).linkAt ⟨outputId, 2⟩ = some ⟨1, 1⟩ ∧
      (displacedBy 0).fingerprint = (displacedBy 1).fingerprint := by
  have hg := wellFormed_geometryAndNormal
  have hin := hg.inputDecl?_eq hg.kind?_output 2
  have hgeometry : geometryAndNormal.kind? 1 = some .geometry := by decide
  have hout := hg.outputDecl?_eq hgeometry
  have hg₀ : (displacedBy 0).WellFormed := hg.link (hout 0) hin (by decide) rfl (by decide)
  have hg₁ : (displacedBy 1).WellFormed := hg.link (hout 1) hin (by decide) rfl (by decide)
  have hl₀ : (displacedBy 0).linkAt ⟨outputId, 2⟩ = some ⟨1, 0⟩ := by decide
  have hl₁ : (displacedBy 1).linkAt ⟨outputId, 2⟩ = some ⟨1, 1⟩ := by decide
  refine ⟨hg₀, hg₁, (sameNodes_link _ _).symm.trans (sameNodes_link _ _), hl₀, hl₁, ?_⟩
  have hbytes : (displacedBy 0).displacementBytes ((displacedBy 0).cone 1) =
      (displacedBy 1).displacementBytes ((displacedBy 1).cone 1) := by
    decide +kernel
  rw [hg₀.fingerprint_of_linked hl₀, hg₁.fingerprint_of_linked hl₁, hbytes]

end Graph

end Shading
