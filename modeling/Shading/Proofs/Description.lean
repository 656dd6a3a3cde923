import Mathlib.Data.List.Forall2
import Mathlib.Data.List.TakeDrop
import Mathlib.Data.List.TakeWhile
import Shading.Description.Basic
import Shading.Proofs.Patch

/-!
# Descriptions that can be built

`Description.Valid` says in terms of the description alone when a graph can be made of it: names are
distinct, literals are given to inputs that exist, and links name an output and an input that exist.
Whether a link can be made does not matter. A graph is made of the valid descriptions and of no
others, and each described node has the id of its place in the description. -/

namespace Shading

def NodeKind.HasInput (k : NodeKind) (name : String) : Prop := ∃ d ∈ k.inputDecls, d.name = name

def NodeKind.HasOutput (k : NodeKind) (name : String) : Prop := ∃ e ∈ k.outputDecls, e.name = name

namespace Description

/-- The id and the kind of the node that a name stands for. -/
inductive Named (nodes : List DescribedNode) : String → NodeId → NodeKind → Prop
  | output : Named nodes outputName Graph.outputId .output
  | node {i : Nat} {n : DescribedNode} (h : nodes[i]? = some n) : Named nodes n.name (i + 1) n.kind

/-- A text is the name of a node, a dot, and the name of a socket. The dot is the first one. -/
def Refers (nodes : List DescribedNode) (text : String) (id : NodeId) (k : NodeKind)
    (socket : String) : Prop :=
  ∃ name, text = name ++ "." ++ socket ∧ '.' ∉ name.toList ∧ Named nodes name id k

/-- A description of which a graph can be made. -/
structure Valid (d : Description) : Prop where
  distinct : (outputName :: d.nodes.map (·.name)).Nodup
  values : ∀ n ∈ d.nodes, ∀ v ∈ n.values, n.kind.HasInput v.1
  outputValues : ∀ v ∈ d.output, NodeKind.output.HasInput v.1
  sources : ∀ l ∈ d.links, ∃ id k socket, Refers d.nodes l.source id k socket ∧ k.HasOutput socket
  targets : ∀ l ∈ d.links, ∃ id k socket, Refers d.nodes l.target id k socket ∧ k.HasInput socket

/-! ### Computations that tell whether something holds -/

/-- A computation has a result exactly if `P` holds, and then one with `Q`. -/
def Admits {α : Type} (x : Except DescriptionFault α) (P : Prop) (Q : α → Prop) : Prop :=
  match x with
  | .ok a => P ∧ Q a
  | .error _ => ¬ P

section

variable {α β : Type} {P P' : Prop} {Q : α → Prop} {x : Except DescriptionFault α}

theorem Admits.congr (h : Admits x P Q) (hP : P ↔ P') : Admits x P' Q := by
  rwa [← hP]

theorem Admits.mono {Q' : α → Prop} (h : Admits x P Q) (hQ : ∀ a, P → Q a → Q' a) :
    Admits x P Q' := by
  cases x with
  | ok a => exact ⟨h.1, hQ a h.1 h.2⟩
  | error f => exact h

theorem Admits.exists_ok_iff (h : Admits x P Q) : (∃ a, x = .ok a) ↔ P := by
  cases x with
  | ok a => exact ⟨fun _ => h.1, fun _ => ⟨a, rfl⟩⟩
  | error f => exact ⟨nofun, fun hP => absurd hP h⟩

theorem Admits.of_ok {a : α} (h : Admits x P Q) (hx : x = .ok a) : P ∧ Q a := by
  rwa [hx] at h

theorem Admits.bind {f : α → Except DescriptionFault β} {Q' : β → Prop} (h : Admits x P Q)
    (hf : ∀ a, P → Q a → Admits (f a) P' Q') : Admits (x >>= f) (P ∧ P') Q' := by
  cases x with
  | error fault => exact fun hP => h hP.1
  | ok a =>
    refine (hf a h.1 h.2).congr ?_
    simp [h.1]

theorem admits_ok {a : α} (hP : P) (hQ : Q a) : Admits (.ok a) P Q := ⟨hP, hQ⟩

theorem admits_error {f : DescriptionFault} (hP : ¬ P) :
    Admits (.error f : Except DescriptionFault α) P Q := hP

/-- A loop that takes one item after another, and has a result as long as all that it has taken is
valid. -/
theorem admits_foldlM {f : α → β → Except DescriptionFault α} (V : List β → Prop)
    (I : List β → α → Prop) (hI : ∀ l a, I l a → V l) (hV : ∀ l m, V (l ++ m) → V l)
    (hf : ∀ l a b, I l a → Admits (f a b) (V (l ++ [b])) (I (l ++ [b]))) (rest : List β) :
    ∀ l a, I l a → Admits (rest.foldlM f a) (V (l ++ rest)) (I (l ++ rest)) := by
  induction rest with
  | nil =>
    intro l a h
    rw [List.append_nil]
    exact admits_ok (hI l a h) h
  | cons b rest ih =>
    intro l a h
    have hnext := (hf l a b h).bind fun a' _ h' => ih (l ++ [b]) a' h'
    rw [List.append_assoc, List.singleton_append] at hnext
    refine hnext.congr ⟨And.right, fun hall => ⟨hV (l ++ [b]) rest ?_, hall⟩⟩
    simpa using hall

end

/-! ### Literals -/

theorem inputSlot?_eq_none_iff {k : NodeKind} {name : String} :
    k.layout.inputSlot? name = none ↔ ¬ k.HasInput name := by
  simp [Layout.inputSlot?, NodeKind.layout, NodeKind.HasInput]

theorem outputSlot?_eq_none_iff {k : NodeKind} {name : String} :
    k.layout.outputSlot? name = none ↔ ¬ k.HasOutput name := by
  simp [Layout.outputSlot?, NodeKind.layout, NodeKind.HasOutput]

/-- Literals are stored if the node has inputs for all of them. Links stay as they are. -/
theorem admits_storeValues {g : Graph} (hg : g.WellFormed) {id : NodeId} {k : NodeKind}
    (hk : g.kind? id = some k) (name : String) (values : List (String × WrittenLiteral)) :
    Admits (storeValues g id name values) (∀ v ∈ values, k.HasInput v.1)
      (g.Trims fun _ => False) := by
  refine (admits_foldlM (fun vs : List (String × WrittenLiteral) => ∀ v ∈ vs, k.HasInput v.1)
    (fun vs g' => (∀ v ∈ vs, k.HasInput v.1) ∧ g.Trims (fun _ => False) g') (fun _ _ h => h.1)
    (fun l m h v hv => h v (List.mem_append_left m hv)) ?_ values [] g
    ⟨nofun, .refl hg nofun⟩).mono fun _ _ h => h.2
  rintro vs g' ⟨socket, value⟩ ⟨hvs, hg'⟩
  obtain ⟨n, hn, hnk⟩ := Option.map_eq_some_iff.mp ((hg'.kind?_eq id).trans hk)
  have hslot : n.inputSlot? socket = none ↔ ¬ k.HasInput socket := by
    rw [n.inputSlot?_eq_layout, hg'.wellFormed.laidOut id n hn, hnk, inputSlot?_eq_none_iff]
  have hall : (∀ v ∈ vs ++ [(socket, value)], k.HasInput v.1) ↔ k.HasInput socket := by
    rw [List.forall_mem_append, List.forall_mem_singleton, and_iff_right hvs]
  have hstore := Graph.trims_storeNamed hg'.wellFormed id socket value.toLiteral
  have hnode : raise (g'.node id) = .ok n := by rw [(g'.node_eq_ok).mpr hn, raise]
  rw [hnode]
  change Admits (if (n.inputSlot? socket).isNone then .error _ else .ok _) _ _
  split_ifs with hs
  · exact admits_error fun h => hslot.mp (Option.isNone_iff_eq_none.mp hs) (hall.mp h)
  · have hin : k.HasInput socket := by
      by_contra h
      exact hs (Option.isNone_iff_eq_none.mpr (hslot.mpr h))
    exact admits_ok (hall.mpr hin)
      ⟨hall.mpr hin, (hg'.trans hstore).congr fun _ _ _ => or_self_iff⟩

/-! ### Nodes -/

/-- Described nodes of which a graph can be made. -/
structure Distinct (nodes : List DescribedNode) : Prop where
  names : (outputName :: nodes.map (·.name)).Nodup
  values : ∀ n ∈ nodes, ∀ v ∈ n.values, n.kind.HasInput v.1

section

variable {nodes : List DescribedNode} {name : String} {id : NodeId} {k : NodeKind}

theorem named_nil : Named [] name id k ↔
    name = outputName ∧ id = Graph.outputId ∧ k = .output := by
  constructor
  · rintro (_ | ⟨⟨⟩⟩)
    exact ⟨rfl, rfl, rfl⟩
  · rintro ⟨rfl, rfl, rfl⟩
    exact .output

theorem named_snoc {n : DescribedNode} : Named (nodes ++ [n]) name id k ↔
    Named nodes name id k ∨ name = n.name ∧ id = nodes.length + 1 ∧ k = n.kind := by
  constructor
  · rintro (_ | @⟨i, m, h⟩)
    · exact Or.inl .output
    · rcases Nat.lt_trichotomy i nodes.length with hlt | rfl | hgt
      · rw [List.getElem?_append_left hlt] at h
        exact Or.inl (.node h)
      · simp only [List.getElem?_concat_length, Option.some.injEq] at h
        exact Or.inr ⟨by rw [h], rfl, by rw [h]⟩
      · rw [List.getElem?_eq_none (by rw [List.length_append]; exact hgt)] at h
        cases h
  · rintro ((_ | @⟨i, m, h⟩) | ⟨rfl, rfl, rfl⟩)
    · exact .output
    · obtain ⟨hlt, -⟩ := List.getElem?_eq_some_iff.mp h
      exact .node (by rw [List.getElem?_append_left hlt, h])
    · exact .node (by simp)

theorem exists_named_iff :
    (∃ id k, Named nodes name id k) ↔ name ∈ outputName :: nodes.map (·.name) := by
  rw [List.mem_cons, List.mem_map]
  constructor
  · rintro ⟨id, k, _ | @⟨i, n, h⟩⟩
    · exact Or.inl rfl
    · exact Or.inr ⟨n, List.mem_of_getElem? h, rfl⟩
  · rintro (rfl | ⟨n, hn, rfl⟩)
    · exact ⟨_, _, .output⟩
    · obtain ⟨i, hi⟩ := List.getElem?_of_mem hn
      exact ⟨_, _, .node hi⟩

theorem Named.le_length (h : Named nodes name id k) : id ≤ nodes.length := by
  cases h with
  | output => exact Nat.zero_le _
  | node h => exact (List.getElem?_eq_some_iff.mp h).1

theorem Distinct.of_append {l m : List DescribedNode} (h : Distinct (l ++ m)) : Distinct l where
  names := by
    have hnodup := h.names
    rw [List.map_append, ← List.cons_append] at hnodup
    exact hnodup.sublist (List.sublist_append_left _ _)
  values n hn := h.values n (List.mem_append_left m hn)

theorem distinct_snoc {n : DescribedNode} (h : Distinct nodes) :
    Distinct (nodes ++ [n]) ↔
      n.name ∉ outputName :: nodes.map (·.name) ∧ ∀ v ∈ n.values, n.kind.HasInput v.1 := by
  have hnames : (outputName :: (nodes ++ [n]).map (·.name)).Nodup ↔
      n.name ∉ outputName :: nodes.map (·.name) := by
    rw [List.map_append, ← List.cons_append, List.nodup_append]
    refine ⟨fun hn hmem => hn.2.2 _ hmem _ (by simp) rfl, fun hn => ⟨h.names, by simp, ?_⟩⟩
    rintro a ha b hb rfl
    have hname : a = n.name := List.mem_singleton.mp hb
    exact hn (hname ▸ ha)
  constructor
  · intro hd
    exact ⟨hnames.mp hd.names, hd.values n (by simp)⟩
  · rintro ⟨hname, hvalues⟩
    refine ⟨hnames.mpr hname, fun m hm => ?_⟩
    rcases List.mem_append.mp hm with hm | hm
    · exact h.values m hm
    · rw [List.mem_singleton.mp hm]
      exact hvalues

end

/-- The graph and the names after the nodes were added, before any link is made. -/
structure Drafted (nodes : List DescribedNode) (g : Graph) (names : Names) : Prop where
  distinct : Distinct nodes
  wellFormed : g.WellFormed
  unfinalized : g.finalized = false
  idBound : g.idBound = nodes.length + 1
  kind : ∀ name id k, Named nodes name id k → g.kind? id = some k
  lookup : ∀ name id, names.lookup name = some id ↔ ∃ k, Named nodes name id k
  free : ∀ r, g.linkAt r = none

theorem lookup_cons_eq_some {names : Names} {name name' : String} {id id' : NodeId} :
    ((name', id') :: names).lookup name = some id ↔
      if name = name' then id' = id else names.lookup name = some id := by
  by_cases h : name = name'
  · simp [h]
  · simp [List.lookup_cons, h, beq_false_of_ne h]

theorem drafted_empty : Drafted [] Graph.empty [(outputName, Graph.outputId)] where
  distinct := ⟨by simp, nofun⟩
  wellFormed := Graph.wellFormed_empty
  unfinalized := rfl
  idBound := rfl
  kind name id k h := by
    obtain ⟨-, rfl, rfl⟩ := named_nil.mp h
    rfl
  lookup name id := by
    rw [lookup_cons_eq_some]
    by_cases h : name = outputName <;> simp [named_nil, h, eq_comm]
  free r := by
    rw [Graph.empty_eq_push, Graph.linkAt_push]
    simp [Graph.linkAt, Graph.input?, Graph.node?]

theorem Drafted.trims {nodes : List DescribedNode} {g g' : Graph} {names : Names}
    (h : Drafted nodes g names) (ht : g.Trims (fun _ => False) g') : Drafted nodes g' names :=
  { h with
    wellFormed := ht.wellFormed
    unfinalized := ht.finalized.trans h.unfinalized
    idBound := ht.idBound_eq.trans h.idBound
    kind := fun name id k hk => (ht.kind?_eq id).trans (h.kind name id k hk)
    free := fun r => (ht.kept r id).trans (h.free r) }

theorem Drafted.push {nodes : List DescribedNode} {g : Graph} {names : Names}
    (h : Drafted nodes g names) {n : DescribedNode} (hd : Distinct (nodes ++ [n])) :
    Drafted (nodes ++ [n]) (g.push (.ofKind n.kind)) ((n.name, g.idBound) :: names) where
  distinct := hd
  wellFormed := h.wellFormed.push (Node.sound_ofKind n.kind)
  unfinalized := h.unfinalized
  idBound := by simp [h.idBound]
  kind name id k hk := by
    rcases named_snoc.mp hk with hk | ⟨-, rfl, rfl⟩
    · exact (Graph.evolves_push h.wellFormed (Node.sound_ofKind n.kind)).kind?_some (h.kind _ _ _ hk)
    · rw [← h.idBound]
      exact g.kind?_push_self _
  lookup name id := by
    have hnew := ((distinct_snoc h.distinct).mp hd).1
    simp only [lookup_cons_eq_some, named_snoc, exists_or, h.idBound]
    split_ifs with hname
    · have hnone : ∀ k, ¬ Named nodes n.name id k := fun k hk => hnew (exists_named_iff.mp ⟨id, k, hk⟩)
      simp [hname, hnone, eq_comm]
    · simp [hname, h.lookup]
  free r := (g.linkAt_push _ r).trans (h.free r)

theorem admits_addNode {nodes : List DescribedNode} {s : Graph × Names}
    (h : Drafted nodes s.1 s.2) (n : DescribedNode) :
    Admits (addNode s n) (Distinct (nodes ++ [n])) fun s' => Drafted (nodes ++ [n]) s'.1 s'.2 := by
  obtain ⟨g, names⟩ := s
  have hlookup : (names.lookup n.name).isSome ↔ n.name ∈ outputName :: nodes.map (·.name) := by
    simp only [Option.isSome_iff_exists, h.lookup, exists_named_iff]
  have hsnoc := distinct_snoc (n := n) h.distinct
  change Admits (if (names.lookup n.name).isSome then .error _ else _) _ _
  split_ifs with hname
  · exact admits_error fun hd => (hsnoc.mp hd).1 (hlookup.mp hname)
  · have hfresh : n.name ∉ outputName :: nodes.map (·.name) := fun hmem => hname (hlookup.mpr hmem)
    have hpush := h.wellFormed.push (Node.sound_ofKind n.kind)
    refine ((admits_storeValues hpush (g.kind?_push_self _) n.name n.values).bind
      fun g' hv ht => admits_ok trivial ?_).congr ?_
    · exact (h.push (hsnoc.mpr ⟨hfresh, hv⟩)).trims ht
    · rw [and_true, hsnoc, and_iff_right hfresh]
      rfl

theorem admits_addNodes (nodes : List DescribedNode) :
    Admits (addNodes nodes) (Distinct nodes) fun s => Drafted nodes s.1 s.2 :=
  admits_foldlM Distinct (fun nodes (s : Graph × Names) => Drafted nodes s.1 s.2)
    (fun _ _ h => h.distinct) (fun _ _ h => h.of_append) (fun _ _ n h => admits_addNode h n)
    nodes [] _ drafted_empty

/-! ### References -/

theorem splitAtFirst_eq_some {c : Char} {s a b : String} : splitAtFirst c s = some (a, b) ↔
    s.toList = a.toList ++ c :: b.toList ∧ c ∉ a.toList := by
  have hspan : s.toList.takeWhile (· != c) ++ s.toList.dropWhile (· != c) = s.toList :=
    List.takeWhile_append_dropWhile
  rw [splitAtFirst, List.span_eq_takeWhile_dropWhile]
  constructor
  · intro h
    cases hdrop : s.toList.dropWhile (· != c) with
    | nil => simp [hdrop] at h
    | cons x after =>
      simp only [hdrop, Option.some.injEq, Prod.mk.injEq] at h
      obtain ⟨rfl, rfl⟩ := h
      have hx : x = c := by
        have := List.head?_dropWhile_not (· != c) s.toList
        simpa [hdrop] using this
      refine ⟨?_, fun hmem => ?_⟩
      · rw [String.toList_ofList, String.toList_ofList, ← hx, ← hdrop, hx, hspan]
      · rw [String.toList_ofList] at hmem
        simpa using List.mem_takeWhile_imp hmem
  · rintro ⟨hs, hc⟩
    have ha : ∀ x ∈ a.toList, (x != c) = true := fun x hx => by
      simpa using fun hxc : x = c => hc (hxc ▸ hx)
    rw [hs, List.takeWhile_append_of_pos ha, List.dropWhile_append_of_pos ha]
    simp

theorem eq_dotted_iff {s a b : String} :
    s = a ++ "." ++ b ↔ s.toList = a.toList ++ '.' :: b.toList := by
  rw [← String.toList_inj]
  simp

section

variable {nodes : List DescribedNode} {g : Graph} {names : Names}

theorem Drafted.resolve_eq_ok (h : Drafted nodes g names) {text socket : String} {id : NodeId} :
    resolve names text = .ok (id, socket) ↔ ∃ k, Refers nodes text id k socket := by
  have hrefers : (∃ k, Refers nodes text id k socket) ↔
      ∃ name, splitAtFirst '.' text = some (name, socket) ∧ names.lookup name = some id := by
    simp only [Refers, splitAtFirst_eq_some, eq_dotted_iff, h.lookup]
    constructor
    · rintro ⟨k, name, htext, hdot, hname⟩
      exact ⟨name, ⟨htext, hdot⟩, k, hname⟩
    · rintro ⟨name, ⟨htext, hdot⟩, k, hname⟩
      exact ⟨k, name, htext, hdot, hname⟩
  rw [hrefers, resolve]
  cases splitAtFirst '.' text with
  | none => simp
  | some p =>
    cases hl : names.lookup p.1 with
    | none =>
      simp only [hl]
      refine ⟨nofun, ?_⟩
      rintro ⟨name, hp, hname⟩
      cases hp
      rw [hl] at hname
      cases hname
    | some id' =>
      simp only [hl]
      constructor
      · intro hok
        cases hok
        exact ⟨p.1, rfl, hl⟩
      · rintro ⟨name, hp, hname⟩
        cases hp
        rw [hl] at hname
        cases hname
        rfl

/-- A reference stands for one socket at most. -/
theorem Drafted.refers_unique (h : Drafted nodes g names) {text socket socket' : String}
    {id id' : NodeId} {k k' : NodeKind} (hr : Refers nodes text id k socket)
    (hr' : Refers nodes text id' k' socket') : id = id' ∧ k = k' ∧ socket = socket' := by
  have hok := h.resolve_eq_ok.mpr ⟨k, hr⟩
  rw [h.resolve_eq_ok.mpr ⟨k', hr'⟩] at hok
  cases hok
  obtain ⟨name, -, -, hk⟩ := hr
  obtain ⟨name', -, -, hk'⟩ := hr'
  have hkind := h.kind name id k hk
  rw [h.kind name' id k' hk'] at hkind
  cases hkind
  exact ⟨rfl, rfl, rfl⟩

theorem Drafted.admits_resolve (h : Drafted nodes g names) (text : String) :
    Admits (resolve names text) (∃ id k socket, Refers nodes text id k socket)
      fun p => ∃ k, Refers nodes text p.1 k p.2 := by
  cases hr : resolve names text with
  | ok p =>
    obtain ⟨k, hk⟩ := h.resolve_eq_ok.mp hr
    exact admits_ok ⟨_, k, _, hk⟩ ⟨k, hk⟩
  | error f =>
    refine admits_error ?_
    rintro ⟨id, k, socket, hk⟩
    rw [h.resolve_eq_ok.mpr ⟨k, hk⟩] at hr
    cases hr

end

/-! ### Links -/

/-- The output that a text stands for. -/
def SourceAt (nodes : List DescribedNode) (text : String) (o : OutputRef) : Prop :=
  ∃ k socket, Refers nodes text o.node k socket ∧ k.layout.outputSlot? socket = some o.slot

/-- The input that a text stands for. -/
def TargetAt (nodes : List DescribedNode) (text : String) (r : InputRef) : Prop :=
  ∃ k socket, Refers nodes text r.node k socket ∧ k.layout.inputSlot? socket = some r.slot

/-- The sockets that a described link stands for. -/
structure Ends (nodes : List DescribedNode) (l : DescribedLink) (e : Graph.Link) : Prop where
  source : SourceAt nodes l.source e.source
  target : TargetAt nodes l.target e.target

section

open Edit

variable {g : Graph} {id id' : NodeId} {k k' : NodeKind} {socket socket' : String}

/-- Sockets given by their names are joined if they exist, whatever the graph looks like. -/
theorem admits_connectNamed (hg : g.WellFormed) (hm : g.finalized = false)
    (hk : g.kind? id = some k) (hk' : g.kind? id' = some k') :
    Admits (raise ((connectNamed id socket id' socket').exec g))
      (∃ i j, k.layout.outputSlot? socket = some i ∧ k'.layout.inputSlot? socket' = some j)
      fun g' => ∃ i j, k.layout.outputSlot? socket = some i ∧
        k'.layout.inputSlot? socket' = some j ∧ g' = g.joined ⟨⟨id, i⟩, ⟨id', j⟩⟩ := by
  by_cases hsockets : ∃ i j, k.layout.outputSlot? socket = some i ∧
      k'.layout.inputSlot? socket' = some j
  · obtain ⟨i, j, hi, hj⟩ := hsockets
    obtain ⟨e, he⟩ := hg.exists_outputDecl? hk hi
    obtain ⟨d, hd⟩ := hg.exists_inputDecl? hk' hj
    have hends : (connectNamed id socket id' socket').Ends g
        fun _ g' => g' = g.joined ⟨⟨id, i⟩, ⟨id', j⟩⟩ :=
      ends_ask_bind (hg.outputRef_eq hk hi)
        (ends_ask_bind (hg.inputRef_eq hk' hj) (ends_connect_joined hm he hd))
    obtain ⟨_, g', hrun, hg'⟩ := ends_iff.mp hends
    rw [exec, hrun]
    exact admits_ok ⟨i, j, hi, hj⟩ ⟨i, j, hi, hj, hg'⟩
  · have hmeets : (connectNamed id socket id' socket').Meets g (fun _ _ => False) fun _ => True := by
      refine meets_ask_bind (fun o ho => ?_) fun _ => trivial
      refine meets_ask_bind (fun t ht => ?_) fun _ => trivial
      obtain ⟨l, i, hl, hi, -⟩ := (g.outputRef_eq_ok).mp ho
      obtain ⟨l', j, hl', hj, -⟩ := (g.inputRef_eq_ok).mp ht
      rw [hg.layout?_eq hk, Option.some.injEq] at hl
      rw [hg.layout?_eq hk', Option.some.injEq] at hl'
      subst hl hl'
      exact absurd ⟨i, j, hi, hj⟩ hsockets
    unfold Meets at hmeets
    unfold exec
    cases hrun : (connectNamed id socket id' socket').run g with
    | ok a g' =>
      rw [hrun] at hmeets
      exact hmeets.elim
    | error f g' => exact admits_error hsockets

end

variable {nodes : List DescribedNode} {g₀ : Graph} {names : Names}

/-- A described link is added if it names two sockets. Whether they can be linked does not matter,
nor what was linked before. -/
theorem Drafted.admits_addLink (h : Drafted nodes g₀ names) {g : Graph} (hg : g₀.Grows g)
    (l : DescribedLink) :
    Admits (addLink names g l) (∃ e, Ends nodes l e) fun g' => ∃ e, Ends nodes l e ∧ g' = g.joined e := by
  have hkind : ∀ {text id k socket}, Refers nodes text id k socket → g.kind? id = some k := by
    rintro text id k socket ⟨name, -, -, hn⟩
    exact hg.kind?_some (h.kind name id k hn)
  have hlast : ∀ {id k socket id' k' socket'}, Refers nodes l.source id k socket →
      Refers nodes l.target id' k' socket' →
        Admits (raise ((Edit.connectNamed id socket id' socket').exec g)) (∃ e, Ends nodes l e)
          fun g' => ∃ e, Ends nodes l e ∧ g' = g.joined e := by
    intro id k socket id' k' socket' hs ht
    refine ((admits_connectNamed hg.wellFormed (hg.finalized.trans h.unfinalized) (hkind hs)
      (hkind ht)).congr ⟨?_, ?_⟩).mono ?_
    · rintro ⟨i, j, hi, hj⟩
      exact ⟨⟨⟨id, i⟩, ⟨id', j⟩⟩, ⟨k, socket, hs, hi⟩, k', socket', ht, hj⟩
    · rintro ⟨e, ⟨k₁, socket₁, hs₁, hi⟩, k₂, socket₂, ht₂, hj⟩
      obtain ⟨-, rfl, rfl⟩ := h.refers_unique hs hs₁
      obtain ⟨-, rfl, rfl⟩ := h.refers_unique ht ht₂
      exact ⟨_, _, hi, hj⟩
    · rintro g' - ⟨i, j, hi, hj, rfl⟩
      exact ⟨_, ⟨⟨k, socket, hs, hi⟩, k', socket', ht, hj⟩, rfl⟩
  refine ((h.admits_resolve l.source).bind fun ⟨_, _⟩ _ ⟨_, hs⟩ =>
    (h.admits_resolve l.target).bind fun ⟨_, _⟩ _ ⟨_, ht⟩ => hlast hs ht).congr ⟨fun h => h.2.2, ?_⟩
  rintro ⟨e, he⟩
  obtain ⟨k, socket, hs, -⟩ := he.source
  obtain ⟨k', socket', ht, -⟩ := he.target
  exact ⟨⟨_, k, socket, hs⟩, ⟨_, k', socket', ht⟩, e, he⟩

theorem Drafted.hasEnds (h : Drafted nodes g₀ names) {l : DescribedLink} {e : Graph.Link}
    (he : Ends nodes l e) : g₀.HasEnds e := by
  obtain ⟨⟨k, socket, ⟨name, -, -, hn⟩, hi⟩, k', socket', ⟨name', -, -, hn'⟩, hj⟩ := he
  exact ⟨h.wellFormed.exists_outputDecl? (h.kind _ _ _ hn) hi,
    h.wellFormed.exists_inputDecl? (h.kind _ _ _ hn') hj⟩

theorem forall₂_exists_left {α β : Type} {R : α → β → Prop} {l : List α} {m : List β}
    (h : List.Forall₂ R l m) : ∀ a ∈ l, ∃ b ∈ m, R a b := by
  induction h with
  | nil => exact nofun
  | cons hab _ ih =>
    intro a ha
    rcases List.mem_cons.mp ha with rfl | ha
    · exact ⟨_, List.mem_cons_self, hab⟩
    · obtain ⟨b, hb, hab⟩ := ih a ha
      exact ⟨b, List.mem_cons_of_mem _ hb, hab⟩

theorem Drafted.grows_joined (h : Drafted nodes g₀ names) {ls : List DescribedLink}
    {es : List Graph.Link} (hes : List.Forall₂ (Ends nodes) ls es) :
    g₀.Grows (es.foldl Graph.joined g₀) := by
  refine Graph.grows_foldl_joined h.wellFormed h.unfinalized fun e he => ?_
  obtain ⟨l, -, hl⟩ := forall₂_exists_left hes.flip e he
  exact h.hasEnds hl

/-- All nodes that are not described are bridges. -/
theorem Drafted.isBridge (h : Drafted nodes g₀ names) {es : List Graph.Link} {id : NodeId}
    {k : NodeKind} (hid : nodes.length < id) (hk : (es.foldl Graph.joined g₀).kind? id = some k) :
    k.IsBridge := by
  rcases Graph.kind?_foldl_joined hk with hold | ⟨-, hbridge⟩
  · have hlt := g₀.lt_idBound_of_kind? hold
    rw [h.idBound] at hlt
    exact absurd hid (Nat.not_lt.mpr (Nat.le_of_lt_succ hlt))
  · exact hbridge

/-- All described links are added one after another if each of them names two sockets. -/
theorem Drafted.admits_links (h : Drafted nodes g₀ names) (links : List DescribedLink) :
    Admits (links.foldlM (addLink names) g₀) (∀ l ∈ links, ∃ e, Ends nodes l e)
      fun g => ∃ es, List.Forall₂ (Ends nodes) links es ∧ g = es.foldl Graph.joined g₀ := by
  refine admits_foldlM (fun ls => ∀ l ∈ ls, ∃ e, Ends nodes l e)
    (fun ls g => ∃ es, List.Forall₂ (Ends nodes) ls es ∧ g = es.foldl Graph.joined g₀) ?_
    (fun l m hall l' hl' => hall l' (List.mem_append_left m hl')) ?_ links [] g₀
    ⟨[], .nil, rfl⟩
  · rintro ls g ⟨es, hes, -⟩ l hl
    obtain ⟨e, -, he⟩ := forall₂_exists_left hes l hl
    exact ⟨e, he⟩
  · rintro ls g l ⟨es, hes, rfl⟩
    have hls : ∀ l ∈ ls, ∃ e, Ends nodes l e := fun l hl =>
      (forall₂_exists_left hes l hl).imp fun _ he => he.2
    refine ((h.admits_addLink (h.grows_joined hes) l).congr ?_).mono ?_
    · rw [List.forall_mem_append, List.forall_mem_singleton, and_iff_right hls]
    · rintro g' - ⟨e, he, rfl⟩
      refine ⟨es ++ [e], List.rel_append hes (.cons he .nil), ?_⟩
      rw [List.foldl_append]
      rfl

/-! ### Descriptions -/

theorem exists_ends_iff {l : DescribedLink} : (∃ e, Ends nodes l e) ↔
    (∃ id k socket, Refers nodes l.source id k socket ∧ k.HasOutput socket) ∧
      ∃ id k socket, Refers nodes l.target id k socket ∧ k.HasInput socket := by
  have hout : ∀ {k : NodeKind} {socket : String},
      k.HasOutput socket ↔ ∃ i, k.layout.outputSlot? socket = some i := by
    intro k socket
    rw [← not_iff_not, ← outputSlot?_eq_none_iff, ← Option.isSome_iff_exists,
      Option.not_isSome_iff_eq_none]
  have hin : ∀ {k : NodeKind} {socket : String},
      k.HasInput socket ↔ ∃ i, k.layout.inputSlot? socket = some i := by
    intro k socket
    rw [← not_iff_not, ← inputSlot?_eq_none_iff, ← Option.isSome_iff_exists,
      Option.not_isSome_iff_eq_none]
  simp only [hout, hin]
  constructor
  · rintro ⟨e, ⟨k, socket, hs, hi⟩, k', socket', ht, hj⟩
    exact ⟨⟨_, k, socket, hs, _, hi⟩, _, k', socket', ht, _, hj⟩
  · rintro ⟨⟨id, k, socket, hs, i, hi⟩, id', k', socket', ht, j, hj⟩
    exact ⟨⟨⟨id, i⟩, ⟨id', j⟩⟩, ⟨k, socket, hs, hi⟩, k', socket', ht, hj⟩

/-- The graph of a description before its links are added. -/
def draft (d : Description) : Except DescriptionFault (Graph × Names) := do
  let (g, names) ← addNodes d.nodes
  let g ← storeValues g Graph.outputId outputName d.output
  return (g, names)

theorem build_eq (d : Description) :
    d.build = d.draft >>= fun s => d.links.foldlM (addLink s.2) s.1 := by
  simp only [build, draft, bind_assoc, pure_bind]

theorem admits_draft (d : Description) :
    Admits d.draft (Distinct d.nodes ∧ ∀ v ∈ d.output, NodeKind.output.HasInput v.1)
      fun s => Drafted d.nodes s.1 s.2 := by
  refine ((admits_addNodes d.nodes).bind fun ⟨g, names⟩ _ h =>
    (admits_storeValues h.wellFormed (h.kind _ _ _ .output) outputName d.output).bind
      fun g' _ ht => admits_ok (a := (g', names)) trivial (h.trims ht)).congr ?_
  rw [and_true]

theorem admits_build (d : Description) : Admits d.build d.Valid fun g => ∃ g₀ names es,
    Drafted d.nodes g₀ names ∧ List.Forall₂ (Ends d.nodes) d.links es ∧
      g = es.foldl Graph.joined g₀ := by
  rw [build_eq]
  refine (d.admits_draft.bind fun s _ h => (h.admits_links d.links).mono ?_).congr ⟨?_, ?_⟩
  · rintro g - ⟨es, hes, rfl⟩
    exact ⟨s.1, s.2, es, h, hes, rfl⟩
  · rintro ⟨⟨hd, ho⟩, hl⟩
    exact ⟨hd.names, hd.values, ho, fun l hm => (exists_ends_iff.mp (hl l hm)).1,
      fun l hm => (exists_ends_iff.mp (hl l hm)).2⟩
  · rintro ⟨hn, hv, ho, hs, ht⟩
    exact ⟨⟨⟨hn, hv⟩, ho⟩, fun l hm => exists_ends_iff.mpr ⟨hs l hm, ht l hm⟩⟩

/-- **A graph is made of the valid descriptions and of no others.** It is well-formed, the output and
the described nodes have the ids of their places, and all that comes after them are bridges. -/
theorem build_iff_valid (d : Description) : ((∃ g, d.build = .ok g) ↔ d.Valid) ∧
    ∀ g, d.build = .ok g → g.WellFormed ∧ g.kind? Graph.outputId = some .output ∧
      (∀ i n, d.nodes[i]? = some n → g.kind? (i + 1) = some n.kind) ∧
      ∀ id k, d.nodes.length < id → g.kind? id = some k → k.IsBridge := by
  refine ⟨d.admits_build.exists_ok_iff, fun g hg => ?_⟩
  obtain ⟨-, g₀, names, es, h, hes, rfl⟩ := d.admits_build.of_ok hg
  have hgrows := h.grows_joined hes
  have hkind := fun name id k hn => hgrows.kind?_some (h.kind name id k hn)
  exact ⟨hgrows.wellFormed, hkind _ _ _ .output, fun i n hn => hkind _ _ _ (.node hn),
    fun id k => h.isBridge⟩

end Description

end Shading
