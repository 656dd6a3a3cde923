import Shading.Proofs.Linking
import Shading.Proofs.Renaming

/-!
# Linking as a patch

What linking two sockets does to a graph can be told from the sockets alone. Nodes are put at the
end of the graph, links are made between them and the sockets, or something is reported. Such a
change is a `Patch`, and `Graph.joined` is the graph with the patch for two sockets. Linking ends in
that graph (`ends_connect_joined`), so a sequence of links can be studied without faults and without
the ways in which one attempt may end. -/

namespace Shading

open Equiv (Perm)

/-- The kinds of the nodes that are put between two sockets whose types do not fit. -/
def NodeKind.IsBridge : NodeKind → Prop
  | .convert _ _ automatic => automatic = true
  | .emission bridging => bridging = true
  | _ => False

/-- A change at the end of a graph: the nodes that are added, the links that are made if the first
of these nodes has a given id, and what is reported. -/
structure Patch where
  nodes : List Node
  links : NodeId → List Graph.Link
  reports : List Diagnostic

namespace Patch

def empty : Patch := ⟨[], fun _ => [], []⟩

def rejecting (c : Diagnostic) : Patch := ⟨[], fun _ => [], [c]⟩

def linking (s : OutputRef) (t : InputRef) : Patch := ⟨[], fun _ => [⟨s, t⟩], []⟩

/-- Links an output to an input of a new node, and this node to an input. -/
def through (n : Node) (slot : Nat) (s : OutputRef) (t : InputRef) : Patch :=
  ⟨[n], fun id => [⟨s, ⟨id, slot⟩⟩, ⟨⟨id, 0⟩, t⟩], []⟩

/-- Links an output to an input through two new nodes, of which the second one comes first. -/
def throughBoth (m n : Node) (s : OutputRef) (t : InputRef) : Patch :=
  ⟨[m, n], fun id => [⟨s, ⟨id + 1, 0⟩⟩, ⟨⟨id + 1, 0⟩, ⟨id, 0⟩⟩, ⟨⟨id, 0⟩, t⟩], []⟩

/-- Links a value to a closure. -/
def emitting (s : OutputRef) (source : SocketType) (t : InputRef) : Patch :=
  if source = .float then through .emitter 1 s t
  else if source = .color then through .emitter 0 s t
  else throughBoth .emitter (.ofKind (.convert source .color true)) s t

/-- Links an output to an input with these declarations, which may be linked already. -/
def joining (linked : Bool) (s : OutputRef) (e : OutputDecl) (t : InputRef) (d : InputDecl) : Patch :=
  if linked then rejecting (.inputAlreadyLinked t.node d.name)
  else if !d.linkable then rejecting (.notLinkable t.node d.name)
  else if e.type.linksTo d.type then linking s t
  else if e.type = .closure then
    rejecting (.closureConversion s.node e.name t.node d.name d.type)
  else if d.type = .closure then emitting s e.type t
  else through (.ofKind (.convert e.type d.type true)) 0 s t

/-- What can be said of every patch that links `s` to `t`. -/
structure Local (p : Patch) (s : OutputRef) (t : InputRef) : Prop where
  bridge : ∀ n ∈ p.nodes, n.kind.IsBridge
  source : ∀ id, ∀ l ∈ p.links id,
    l.source = s ∨ id ≤ l.source.node ∧ l.source.node < id + p.nodes.length
  target : ∀ id, ∀ l ∈ p.links id,
    l.target = t ∨ id ≤ l.target.node ∧ l.target.node < id + p.nodes.length
  /-- No input is linked twice. -/
  nodup : ∀ id, t.node < id → ((p.links id).map (·.target)).Nodup
  /-- The new nodes matter by their places only. -/
  rename : ∀ (σ : Perm NodeId) (id id' : NodeId), (∀ i < p.nodes.length, σ (id + i) = id' + i) →
    σ s.node = s.node → σ t.node = t.node → (p.links id).map (·.rename σ) = p.links id'

theorem local_empty (s : OutputRef) (t : InputRef) : empty.Local s t where
  bridge := by simp [empty]
  source := by simp [empty]
  target := by simp [empty]
  nodup := by simp [empty]
  rename := by simp [empty]

theorem local_rejecting (c : Diagnostic) (s : OutputRef) (t : InputRef) : (rejecting c).Local s t where
  bridge := by simp [rejecting]
  source := by simp [rejecting]
  target := by simp [rejecting]
  nodup := by simp [rejecting]
  rename := by simp [rejecting]

theorem local_linking (s : OutputRef) (t : InputRef) : (linking s t).Local s t where
  bridge := by simp [linking]
  source := by simp [linking]
  target := by simp [linking]
  nodup := by simp [linking]
  rename σ id id' _ hs ht := by
    simp [linking, Graph.Link.rename, InputRef.rename, OutputRef.rename, hs, ht]

theorem local_through {n : Node} (hn : n.kind.IsBridge) (slot : Nat) (s : OutputRef) (t : InputRef) :
    (through n slot s t).Local s t where
  bridge := by simpa [through] using hn
  source := by simp [through]
  target := by simp [through]
  nodup id ht := by
    have hne : (⟨id, slot⟩ : InputRef) ≠ t := by
      rintro rfl
      exact Nat.lt_irrefl _ ht
    simp [through, hne]
  rename σ id id' hσ hs ht := by
    have h₀ : σ id = id' := hσ 0 (by simp [through])
    simp [through, Graph.Link.rename, InputRef.rename, OutputRef.rename, hs, ht, h₀]

theorem local_throughBoth {m n : Node} (hm : m.kind.IsBridge) (hn : n.kind.IsBridge) (s : OutputRef)
    (t : InputRef) : (throughBoth m n s t).Local s t where
  bridge := by simp [throughBoth, hm, hn]
  source := by simp [throughBoth]
  target := by simp [throughBoth]
  nodup id ht := by
    have h₀ : (⟨id, 0⟩ : InputRef) ≠ t := by
      rintro rfl
      exact Nat.lt_irrefl _ ht
    have h₁ : (⟨id + 1, 0⟩ : InputRef) ≠ t := by
      rintro rfl
      exact absurd ht (by simp)
    simp [throughBoth, h₀, h₁]
  rename σ id id' hσ hs ht := by
    have h₀ : σ id = id' := hσ 0 (by simp [throughBoth])
    have h₁ : σ (id + 1) = id' + 1 := hσ 1 (by simp [throughBoth])
    simp [throughBoth, Graph.Link.rename, InputRef.rename, OutputRef.rename, hs, ht, h₀, h₁]

theorem local_emitting (s : OutputRef) (source : SocketType) (t : InputRef) :
    (emitting s source t).Local s t := by
  have hemitter : Node.emitter.kind.IsBridge := rfl
  unfold emitting
  split_ifs
  · exact local_through hemitter 1 s t
  · exact local_through hemitter 0 s t
  · exact local_throughBoth hemitter (n := .ofKind (.convert source .color true)) rfl s t

theorem local_joining (linked : Bool) (s : OutputRef) (e : OutputDecl) (t : InputRef)
    (d : InputDecl) : (joining linked s e t d).Local s t := by
  unfold joining
  split_ifs
  · exact local_rejecting _ s t
  · exact local_rejecting _ s t
  · exact local_linking s t
  · exact local_rejecting _ s t
  · exact local_emitting s e.type t
  · exact local_through (n := .ofKind (.convert e.type d.type true)) rfl 0 s t

end Patch

namespace Graph

/-! ### Applying patches -/

def pushAll (g : Graph) (ns : List Node) : Graph := ns.foldl push g

def linkAll (g : Graph) (ls : List Link) : Graph := ls.foldl (fun g l => g.link l.source l.target) g

theorem linkAll_cons (g : Graph) (l : Link) (ls : List Link) :
    g.linkAll (l :: ls) = (g.link l.source l.target).linkAll ls := rfl

def reportAll (g : Graph) (ds : List Diagnostic) : Graph := ds.foldl report g

/-- Nodes are added, then links are made, then something is reported. -/
def extend (g : Graph) (ns : List Node) (ls : List Link) (ds : List Diagnostic) : Graph :=
  ((g.pushAll ns).linkAll ls).reportAll ds

def apply (g : Graph) (p : Patch) : Graph := g.extend p.nodes (p.links g.idBound) p.reports

/-- The patch that links two sockets of the graph, if they are there. -/
def patchFor (g : Graph) (l : Link) : Patch :=
  match g.outputDecl? l.source, g.inputDecl? l.target with
  | some e, some d => .joining (g.linkAt l.target).isSome l.source e l.target d
  | _, _ => .empty

/-- The graph after two sockets were linked, as far as they can be. -/
def joined (g : Graph) (l : Link) : Graph := g.apply (g.patchFor l)

section

variable (g : Graph)

theorem local_patchFor (l : Link) : (g.patchFor l).Local l.source l.target := by
  unfold patchFor
  split
  · exact Patch.local_joining _ _ _ _ _
  · exact Patch.local_empty _ _

@[simp] theorem idBound_pushAll (ns : List Node) : (g.pushAll ns).idBound = g.idBound + ns.length := by
  induction ns generalizing g with
  | nil => rfl
  | cons n ns ih =>
    change ((g.push n).pushAll ns).idBound = _
    rw [ih, idBound_push, List.length_cons]
    omega

theorem simplified_pushAll (ns : List Node) :
    (g.pushAll ns).simplified = (g.simplified && ns.isEmpty) := by
  induction ns generalizing g with
  | nil => simp [pushAll]
  | cons n ns ih =>
    change ((g.push n).pushAll ns).simplified = _
    rw [ih]
    simp [push, touch]

theorem finalized_pushAll (ns : List Node) : (g.pushAll ns).finalized = g.finalized := by
  induction ns generalizing g with
  | nil => rfl
  | cons n ns ih => exact ih (g.push n)

theorem diagnostics_pushAll (ns : List Node) : (g.pushAll ns).diagnostics = g.diagnostics := by
  induction ns generalizing g with
  | nil => rfl
  | cons n ns ih => exact ih (g.push n)

theorem node?_pushAll (ns : List Node) (id : Nat) : (g.pushAll ns).node? id =
    if id < g.idBound then g.node? id else ns[id - g.idBound]?.map Node.unlinked := by
  induction ns generalizing g with
  | nil =>
    change g.node? id = _
    split_ifs with h
    · rfl
    · simp [g.node?_of_idBound_le (Nat.not_lt.mp h)]
  | cons n ns ih =>
    change ((g.push n).pushAll ns).node? id = _
    rw [ih, idBound_push, node?_push]
    rcases Nat.lt_trichotomy id g.idBound with h | rfl | h
    · simp [h, Nat.lt_succ_of_lt h, Nat.ne_of_lt h]
    · simp
    · have hnext : id - g.idBound = id - (g.idBound + 1) + 1 := by omega
      rw [if_neg (by omega), if_neg (by omega), hnext, List.getElem?_cons_succ]

@[simp] theorem idBound_linkAll (ls : List Link) : (g.linkAll ls).idBound = g.idBound := by
  induction ls generalizing g with
  | nil => rfl
  | cons l ls ih => exact (ih _).trans (g.idBound_link _ _)

@[simp] theorem layout?_linkAll (ls : List Link) (id : NodeId) :
    (g.linkAll ls).layout? id = g.layout? id := by
  induction ls generalizing g with
  | nil => rfl
  | cons l ls ih => exact (ih _).trans (g.layout?_link _ _ id)

theorem reportAll_eq (ds : List Diagnostic) :
    g.reportAll ds = { g with diagnostics := g.diagnostics ++ ds } := by
  induction ds generalizing g with
  | nil => simp [reportAll]
  | cons d ds ih =>
    change (g.report d).reportAll ds = _
    simp [ih, report]

@[simp] theorem idBound_extend (ns : List Node) (ls : List Link) (ds : List Diagnostic) :
    (g.extend ns ls ds).idBound = g.idBound + ns.length := by
  rw [extend, reportAll_eq]
  exact (idBound_linkAll _ ls).trans (g.idBound_pushAll ns)

/-- All nodes that linking adds are bridges. -/
theorem kind?_joined {l : Link} {id : NodeId} {k : NodeKind} (h : (g.joined l).kind? id = some k) :
    g.kind? id = some k ∨ g.idBound ≤ id ∧ k.IsBridge := by
  have hkind : (g.joined l).kind? id = (g.pushAll (g.patchFor l).nodes).kind? id := by
    rw [joined, apply, extend, reportAll_eq]
    change ((g.pushAll _).linkAll _).kind? id = _
    rw [kind?_eq_layout?, layout?_linkAll, ← kind?_eq_layout?]
  rw [hkind, kind?, node?_pushAll] at h
  split_ifs at h with hlt
  · exact Or.inl h
  · obtain ⟨n, hn, rfl⟩ := Option.map_eq_some_iff.mp h
    obtain ⟨m, hm, rfl⟩ := Option.map_eq_some_iff.mp hn
    exact Or.inr ⟨Nat.not_lt.mp hlt, (g.local_patchFor l).bridge m (List.mem_of_getElem? hm)⟩

end

variable (g : Graph)

theorem emitted_eq_apply (s : OutputRef) (source : SocketType) (t : InputRef) :
    g.emitted s source t = g.apply (.emitting s source t) := by
  unfold emitted feedEmission Patch.emitting
  rw [withEmission_eq_push]
  split_ifs
  · rfl
  · rfl
  · simp only [bridged, idBound_push]
    rfl

end Graph

namespace Edit

open Shading.Graph

/-- **Linking two sockets applies the patch for them.** -/
theorem ends_connect_joined {g : Graph} (hm : g.finalized = false) {s : OutputRef} {e : OutputDecl}
    {t : InputRef} {d : InputDecl} (hs : g.outputDecl? s = some e) (ht : g.inputDecl? t = some d) :
    (connect s t).Ends g fun _ g' => g' = g.joined ⟨s, t⟩ := by
  have hjoined : ∀ {e d}, g.outputDecl? s = some e → g.inputDecl? t = some d →
      g.joined ⟨s, t⟩ = g.apply (.joining (g.linkAt t).isSome s e t d) := by
    intro e d he hd
    simp only [joined, patchFor, he, hd]
  refine meets_connect_refuses (fun hn => by simp [hm, hs, ht] at hn) ?_ ?_ ?_ ?_
  · intro e d c he hd hc
    rw [hjoined he hd, Patch.joining]
    cases hc with
    | linked h => rw [if_pos (Option.isSome_iff_ne_none.mpr h)]; rfl
    | unlinkable h hl => rw [h, hl]; rfl
    | closure h hl hclosure hty => rw [h, hl, hty, if_pos hclosure]; rfl
  · intro e d hj hty
    rw [hjoined hj.source hj.target, Patch.joining, hj.free, hj.linkable, hty]
    rfl
  · intro e d hj hty he hd
    rw [hjoined hj.source hj.target, Patch.joining, hj.free, hj.linkable, hty, if_neg he, if_pos hd]
    exact g.emitted_eq_apply s e.type t
  · intro e d hj hty he hd
    rw [hjoined hj.source hj.target, Patch.joining, hj.free, hj.linkable, hty, if_neg he, if_neg hd]
    rfl

end Edit

namespace Graph

variable {g : Graph}

/-- The graph has the sockets that the link would join. -/
structure HasEnds (g : Graph) (l : Link) : Prop where
  source : ∃ e, g.outputDecl? l.source = some e
  target : ∃ d, g.inputDecl? l.target = some d

theorem Evolves.hasEnds {g' : Graph} {T : InputRef → Prop} (h : g.Evolves T g') (hg : g.WellFormed)
    {l : Link} (hl : g.HasEnds l) : g'.HasEnds l where
  source := hl.source.imp fun _ he => h.outputDecl?_some hg he
  target := hl.target.imp fun _ hd => h.inputDecl?_some hg hd

theorem evolves_joined (hg : g.WellFormed) (hm : g.finalized = false) {l : Link} (hl : g.HasEnds l) :
    g.Evolves (· = l.target) (g.joined l) := by
  obtain ⟨⟨e, he⟩, d, hd⟩ := hl
  obtain ⟨_, g', -, rfl, h⟩ := Edit.ends_iff.mp
    ((Edit.ends_connect_joined hm he hd).and_meets (Edit.meets_connect_evolves hg l.source l.target))
  exact h

theorem grows_foldl_joined (hg : g.WellFormed) (hm : g.finalized = false) {ls : List Link}
    (hls : ∀ l ∈ ls, g.HasEnds l) : g.Grows (ls.foldl joined g) := by
  induction ls generalizing g with
  | nil => exact .refl hg
  | cons l ls ih =>
    have h := evolves_joined hg hm (hls l List.mem_cons_self)
    refine h.grows.trans (ih h.wellFormed (h.finalized.trans hm) fun l' hl' => ?_)
    exact h.hasEnds hg (hls l' (List.mem_cons_of_mem l hl'))

theorem kind?_foldl_joined {ls : List Link} {id : NodeId} {k : NodeKind}
    (h : (ls.foldl joined g).kind? id = some k) :
    g.kind? id = some k ∨ g.idBound ≤ id ∧ k.IsBridge := by
  induction ls generalizing g with
  | nil => exact Or.inl h
  | cons l ls ih =>
    rcases ih h with hk | ⟨hid, hk⟩
    · exact g.kind?_joined hk
    · have hle : g.idBound ≤ (g.joined l).idBound := by simp [joined, apply]
      exact Or.inr ⟨Nat.le_trans hle hid, hk⟩

end Graph

end Shading
