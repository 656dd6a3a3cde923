import Mathlib.Data.Finset.Lattice.Fold
import Shading.Proofs.Bump
import Shading.Proofs.Coverage

/-!
# The bump that comes from a displacement

The nodes behind the displacement are copied three times. Each copy is tagged with the sample that it
computes and led through a projection to a new bump, whose result becomes the normal of the output
(`Graph.BumpsDisplacement`). The copies are linked as the nodes are, also where these go around in a
cycle (`Graph.TaggedCopy`), and nothing else changes but the normal (`BumpsDisplacement.evolves`). If
there is no cycle before, there is none afterwards: the new nodes are numbered above all copies and
below the output. -/

namespace Shading

namespace Graph

variable {g g' : Graph}

/-! ### New nodes -/

theorem map_content_eq_bare? (id : NodeId) :
    (g.node? id).map Node.content = (g.bare? id).map Node.content := by
  rw [bare?, Option.map_map]
  refine congrArg (Option.map · (g.node? id)) (funext fun n => ?_)
  simp [Node.content, Node.unlinked, Input.unlink, Function.comp_def]

/-- Neither new nodes nor links into nodes that are not behind the displacement matter to the
fingerprint. -/
theorem Evolves.fingerprint_eq {T : InputRef → Prop} (h : g.Evolves T g') (hg : g.WellFormed)
    (hbare : ∀ id < g.idBound, g'.bare? id = g.bare? id) {s : OutputRef}
    (hs : g.linkAt ⟨outputId, 2⟩ = some s) (hout : ¬ T ⟨outputId, 2⟩)
    (hT : ∀ id ∈ g.cone s.node, ∀ slot, ¬ T ⟨id, slot⟩) : g'.fingerprint = g.fingerprint := by
  have hx := (hg.mem_ids_of_feeds (feeds_of_linkAt hs)).1
  have hlt : ∀ id ∈ g.cone s.node, id < g.idBound := fun _ => lt_idBound_of_mem_cone
  have hl : ∀ id ∈ g.cone s.node, ∀ slot, g.linkAt ⟨id, slot⟩ = g'.linkAt ⟨id, slot⟩ :=
    fun id hid slot => (h.linkAt_eq ⟨id, slot⟩ (hlt id hid) (hT id hid slot)).symm
  have hs' : g'.linkAt ⟨outputId, 2⟩ = some s :=
    (h.linkAt_eq _ (g.lt_idBound_of_kind? hg.kind?_output) hout).trans hs
  have hbytes : ∀ id ∈ g.cone s.node, g'.nodeBytes id = g.nodeBytes id := fun id hid =>
    (hg.nodeBytes_congr h.wellFormed (mem_ids_of_mem_cone hid)
      (by rw [map_content_eq_bare?, map_content_eq_bare?, hbare id (hlt id hid)]) (hl id hid)
      fun c hc => h.kind?_eq c (g.lt_idBound_of_mem (hg.mem_ids_of_feeds hc).1)).symm
  rw [hg.fingerprint_of_linked hs, h.wellFormed.fingerprint_of_linked hs',
    ← hg.cone_eq_of_linkAt_eq h.wellFormed hx (h.ids_subset hx) hl, displacementBytes,
    displacementBytes, List.flatMap_congr hbytes]

theorem WellFormed.outputId_lt (hg : g.WellFormed) : outputId < g.idBound :=
  g.lt_idBound_of_kind? hg.kind?_output

/-- The graph with new nodes of some kinds. -/
def pushKinds (g : Graph) (kinds : List NodeKind) : Graph :=
  kinds.foldl (fun g k => g.push (Node.ofKind k)) g

theorem linkAt_pushKinds (kinds : List NodeKind) (r : InputRef) :
    (g.pushKinds kinds).linkAt r = g.linkAt r := by
  induction kinds generalizing g with
  | nil => rfl
  | cons k kinds ih => exact ih.trans (g.linkAt_push _ r)

theorem evolves_pushKinds (hg : g.WellFormed) (kinds : List NodeKind) :
    g.Evolves (fun _ => False) (g.pushKinds kinds) := by
  induction kinds generalizing g with
  | nil => exact .refl hg
  | cons k kinds ih =>
    have h := evolves_push hg (Node.sound_ofKind k)
    exact h.trans (ih h.wellFormed)

/-- New nodes get the next ids in order. -/
theorem kind?_pushKinds (hg : g.WellFormed) {kinds : List NodeKind} {i : Nat} {k : NodeKind}
    (h : kinds[i]? = some k) : (g.pushKinds kinds).kind? (g.idBound + i) = some k := by
  induction kinds generalizing g i with
  | nil => simp at h
  | cons k₀ kinds ih =>
    have h₁ := evolves_push hg (Node.sound_ofKind k₀)
    cases i with
    | zero =>
      obtain rfl : k₀ = k := by simpa using h
      exact (evolves_pushKinds h₁.wellFormed kinds).kind?_some (g.kind?_push_self _)
    | succ i =>
      have hi := ih h₁.wellFormed (i := i) (by simpa using h)
      rw [idBound_push, Nat.add_assoc, Nat.add_comm 1 i] at hi
      exact hi

theorem idBound_pushKinds (kinds : List NodeKind) :
    (g.pushKinds kinds).idBound = g.idBound + kinds.length := by
  induction kinds generalizing g with
  | nil => rfl
  | cons k kinds ih =>
    have h : (g.pushKinds (k :: kinds)).idBound = _ := ih
    rw [h, idBound_push, List.length_cons, Nat.add_assoc, Nat.add_comm 1]

theorem quiet_pushKinds (kinds : List NodeKind) : g.Quiet (g.pushKinds kinds) := by
  induction kinds generalizing g with
  | nil => exact .refl
  | cons k kinds ih => exact (quiet_push _).trans ih (by simp)

/-! ### Numbering the nodes below the output -/

/-- The numbers of ids that are not given out yet can be chosen to increase, above all nodes but
below the output. -/
theorem WellFormed.exists_ranked_below_output (hg : g.WellFormed) (hac : g.Acyclic) (n : Nat) :
    ∃ rank, g.Ranked rank ∧
      (∀ id < g.idBound, id ≠ outputId → ∀ i < n, rank id < rank (g.idBound + i)) ∧
      (∀ i j : Nat, i < j → rank (g.idBound + i) < rank (g.idBound + j)) ∧
      ∀ i < n, rank (g.idBound + i) < rank outputId := by
  obtain ⟨rank, hr⟩ := (hg.acyclic_iff_ranked).mp hac
  let top := (Finset.range g.idBound).sup rank + 1
  have htop : ∀ id < g.idBound, rank id < top := fun id hid =>
    Nat.lt_succ_of_le (Finset.le_sup (Finset.mem_range.mpr hid))
  have hpos := hg.outputId_lt
  let rank' := fun id =>
    if id = outputId then top + g.idBound + n else if id < g.idBound then rank id else top + id
  have hnode : ∀ id < g.idBound, id ≠ outputId → rank' id = rank id := fun id hid h0 => by
    simp only [rank', if_neg h0, if_pos hid]
  have hnew : ∀ i, rank' (g.idBound + i) = top + (g.idBound + i) := fun i => by
    have h0 : g.idBound + i ≠ outputId := Nat.ne_of_gt (Nat.lt_of_lt_of_le hpos (Nat.le_add_right _ i))
    have hge : ¬ g.idBound + i < g.idBound := by omega
    simp only [rank', if_neg h0, if_neg hge]
  have hout : rank' outputId = top + g.idBound + n := if_pos rfl
  refine ⟨rank', ?_, ?_, ?_, ?_⟩
  · intro a b hab
    obtain ⟨ha, hb⟩ := hg.mem_ids_of_feeds hab
    rw [hnode a (g.lt_idBound_of_mem ha) (hg.ne_outputId_of_feeds hab)]
    by_cases h0 : b = outputId
    · rw [h0, hout]
      have := htop a (g.lt_idBound_of_mem ha)
      omega
    · rw [hnode b (g.lt_idBound_of_mem hb) h0]
      exact hr a b hab
  · intro id hid h0 i _
    rw [hnode id hid h0, hnew]
    have := htop id hid
    omega
  · intro i j hij
    rw [hnew, hnew]
    omega
  · intro i hi
    rw [hnew, hout]
    omega

/-! ### An input that is linked anew -/

/-- An input is linked to an output in place of what it was linked to. -/
structure Relinks (s : OutputRef) (t : InputRef) (g g' : Graph) : Prop where
  evolves : g.Evolves (· = t) g'
  idBound_eq : g'.idBound = g.idBound
  bare?_eq : ∀ id, g'.bare? id = g.bare? id
  linkAt_eq : ∀ r, g'.linkAt r = if r = t then some s else g.linkAt r
  diagnostics_eq : g'.diagnostics = g.diagnostics

/-- An input that is free is linked to what it is offered. -/
theorem Trims.relinks {g₁ : Graph} {s : OutputRef} {t : InputRef} (h : g.Trims (· = t) g₁)
    (hd : g₁.diagnostics = g.diagnostics) (hb : ∀ id, g₁.bare? id = g.bare? id)
    (h' : g₁.Offers [⟨s, t⟩] g') : g.Relinks s t g' where
  evolves := h.evolves.trans (h'.evolves.mono (by simp [eq_comm]))
  idBound_eq := h'.idBound_eq.trans h.idBound_eq
  bare?_eq id := (h'.bare?_eq id).trans (hb id)
  linkAt_eq r := by
    split_ifs with hr
    · subst hr
      exact h'.linkAt_of_mem (by simp) List.mem_cons_self (h.cut r rfl)
    · rw [h'.linkAt_of_not_mem (by simpa [eq_comm] using hr), h.kept r hr]
  diagnostics_eq := by
    rw [h'.diagnostics_eq (by simpa using h.cut t rfl) (by simp), hd]

end Graph

namespace Edit.DisplacementBump

open Shading.Graph

/-- The kinds of the nodes of a displacement bump. -/
def kinds (objectSpace : Bool) : List NodeKind :=
  [.geometry, .vectorMath .dotProduct, .vectorMath .dotProduct, .vectorMath .dotProduct,
    .bump false objectSpace, .setNormal]

def toList (nodes : DisplacementBump) : List NodeId :=
  [nodes.geometry, nodes.dotCenter, nodes.dotDx, nodes.dotDy, nodes.bump, nodes.setNormal]

/-- The nodes of a displacement bump, numbered from a given id on. -/
def numbered (first : NodeId) : DisplacementBump :=
  ⟨first, first + 1, first + 2, first + 3, first + 4, first + 5⟩

/-- The links among the nodes of a displacement bump, and those from the samples to it, in the order in
which they are made. -/
def wires (nodes : DisplacementBump) (center dx dy : OutputRef) : List Link :=
  [⟨⟨nodes.geometry, 1⟩, ⟨nodes.dotCenter, 1⟩⟩, ⟨⟨nodes.geometry, 1⟩, ⟨nodes.dotDx, 1⟩⟩,
    ⟨⟨nodes.geometry, 1⟩, ⟨nodes.dotDy, 1⟩⟩, ⟨⟨nodes.geometry, 1⟩, ⟨nodes.bump, 4⟩⟩,
    ⟨center, ⟨nodes.dotCenter, 0⟩⟩, ⟨⟨nodes.dotCenter, 0⟩, ⟨nodes.bump, 1⟩⟩,
    ⟨dx, ⟨nodes.dotDx, 0⟩⟩, ⟨⟨nodes.dotDx, 0⟩, ⟨nodes.bump, 2⟩⟩,
    ⟨dy, ⟨nodes.dotDy, 0⟩⟩, ⟨⟨nodes.dotDy, 0⟩, ⟨nodes.bump, 3⟩⟩,
    ⟨⟨nodes.bump, 0⟩, ⟨nodes.setNormal, 0⟩⟩]

variable {first : NodeId} {center dx dy : OutputRef}

theorem toList_numbered : (numbered first).toList = List.range' first 6 := rfl

theorem nodup_wires : (((numbered first).wires center dx dy).map (·.target)).Nodup := by
  simp [wires, numbered]

theorem le_target {l : Link} (hl : l ∈ (numbered first).wires center dx dy) :
    first ≤ l.target.node := by
  simp only [wires, numbered, List.mem_cons, List.not_mem_nil, or_false] at hl
  rcases hl with rfl | rfl | rfl | rfl | rfl | rfl | rfl | rfl | rfl | rfl | rfl
  all_goals exact Nat.le_add_right _ _

/-- The links go upwards if the nodes are numbered in order, above the samples. -/
theorem rank_lt {rank : NodeId → Nat} (hnew : ∀ i j : Nat, i < j → rank (first + i) < rank (first + j))
    (hcenter : rank center.node < rank (first + 1)) (hdx : rank dx.node < rank (first + 2))
    (hdy : rank dy.node < rank (first + 3)) {l : Link}
    (hl : l ∈ (numbered first).wires center dx dy) : rank l.source.node < rank l.target.node := by
  simp only [wires, numbered, List.mem_cons, List.not_mem_nil, or_false] at hl
  rcases hl with rfl | rfl | rfl | rfl | rfl | rfl | rfl | rfl | rfl | rfl | rfl
  · exact hnew 0 1 (by decide)
  · exact hnew 0 2 (by decide)
  · exact hnew 0 3 (by decide)
  · exact hnew 0 4 (by decide)
  · exact hcenter
  · exact hnew 1 4 (by decide)
  · exact hdx
  · exact hnew 2 4 (by decide)
  · exact hdy
  · exact hnew 3 4 (by decide)
  · exact hnew 4 5 (by decide)

end Edit.DisplacementBump

namespace Graph

open Edit (DisplacementBump copiesOf)

variable {g g' : Graph}

/-- The graph with the nodes of a displacement bump, which are not linked yet. -/
def withDisplacementBump (g : Graph) (objectSpace : Bool) : Graph :=
  (g.pushKinds (DisplacementBump.kinds objectSpace)).modifyNode (g.idBound + 4)
    (·.store "Distance" (.float 1))

/-- The graph with the nodes of a displacement bump, and with tags on the nodes of three samples. -/
def withTaggedBump (g : Graph) (objectSpace : Bool) (filterWidth : Binary32)
    (center dx dy : List NodeId) : Graph :=
  (g.withDisplacementBump objectSpace).tagAll filterWidth center dx dy

theorem quiet_withDisplacementBump {objectSpace : Bool} :
    g.Quiet (g.withDisplacementBump objectSpace) := by
  have h := g.quiet_pushKinds (DisplacementBump.kinds objectSpace)
  refine ⟨h.diagnostics_eq, fun id hid => ?_⟩
  have hne : id ≠ g.idBound + 4 := by omega
  rw [← h.bare?_eq id hid, withDisplacementBump, bare?, bare?, node?_modifyNode, if_neg hne]

section

variable (hg : g.WellFormed) (objectSpace : Bool)
include hg

theorem trims_withDisplacementBump : (g.pushKinds (DisplacementBump.kinds objectSpace)).Trims
    (fun _ => False) (g.withDisplacementBump objectSpace) :=
  trims_storeNamed (evolves_pushKinds hg (DisplacementBump.kinds objectSpace)).wellFormed _ _ _

theorem trims_withTaggedBump (filterWidth : Binary32) (center dx dy : List NodeId) :
    (g.pushKinds (DisplacementBump.kinds objectSpace)).Trims (fun _ => False)
      (g.withTaggedBump objectSpace filterWidth center dx dy) := by
  have h := trims_withDisplacementBump hg objectSpace
  exact (h.trans (trims_tagAll h.wellFormed filterWidth center dx dy)).congr fun _ _ _ => by simp

end

section

variable {objectSpace : Bool} {filterWidth : Binary32} {center dx dy : List NodeId}

theorem evolves_withTaggedBump (hg : g.WellFormed) :
    g.Evolves (fun _ => False) (g.withTaggedBump objectSpace filterWidth center dx dy) :=
  (evolves_pushKinds hg _).trans (trims_withTaggedBump hg _ _ _ _ _).evolves

theorem idBound_withTaggedBump (hg : g.WellFormed) :
    (g.withTaggedBump objectSpace filterWidth center dx dy).idBound = g.idBound + 6 := by
  rw [(trims_withTaggedBump hg _ _ _ _ _).idBound_eq, idBound_pushKinds]
  rfl

theorem linkAt_withTaggedBump (hg : g.WellFormed) (r : InputRef) :
    (g.withTaggedBump objectSpace filterWidth center dx dy).linkAt r = g.linkAt r := by
  rw [(trims_withTaggedBump hg _ _ _ _ _).kept r not_false, linkAt_pushKinds]

theorem kind?_withTaggedBump (hg : g.WellFormed) {i : Nat} {k : NodeKind}
    (hk : (DisplacementBump.kinds objectSpace)[i]? = some k) :
    (g.withTaggedBump objectSpace filterWidth center dx dy).kind? (g.idBound + i) = some k := by
  rw [(trims_withTaggedBump hg _ _ _ _ _).kind?_eq, kind?_pushKinds hg hk]

theorem diagnostics_withTaggedBump :
    (g.withTaggedBump objectSpace filterWidth center dx dy).diagnostics = g.diagnostics := by
  rw [withTaggedBump, diagnostics_tagAll, quiet_withDisplacementBump.diagnostics_eq]

/-- A node that was there before has its tag, and else what it had. -/
theorem bare?_withTaggedBump {id : Nat} (hid : id < g.idBound) :
    (g.withTaggedBump objectSpace filterWidth center dx dy).bare? id =
      (g.bare? id).map fun n => (sampleOf center dx dy id).elim n (n.tag filterWidth) := by
  rw [withTaggedBump, bare?_tagAll, quiet_withDisplacementBump.bare?_eq id hid]

end

/-- `f` leads from some nodes of `g` to copies in `g'`, which are tagged and linked as the nodes are.
-/
structure TaggedCopy (ids : List NodeId) (f : NodeId → NodeId) (filterWidth : Binary32)
    (sample : BumpSample) (g g' : Graph) : Prop where
  bare?_eq : ∀ a ∈ ids,
    g'.bare? (f a) = (g.bare? a).map fun n => n.copy.tag filterWidth sample
  linkAt_eq : ∀ a ∈ ids, ∀ slot,
    g'.linkAt ⟨f a, slot⟩ = (g.linkAt ⟨a, slot⟩).map fun o => ⟨f o.node, o.slot⟩

/-! ### The run -/

/-- The displacement of `g` becomes a bumped normal. The nodes behind it are copied three times and
tagged, the nodes of the bump are added and linked, and the normal of the output is linked anew. -/
structure BumpsDisplacement (objectSpace : Bool) (source : OutputRef) (ids : List NodeId)
    (filterWidth : Binary32) (g g₁ g₂ g₃ g' : Graph) : Prop where
  linked : g.linkAt ⟨outputId, 2⟩ = some source
  cone_eq : ids = g.cone source.node
  center : g.Copies ids (.numbered ids g.idBound) g₁
  dx : g₁.Copies ids (.numbered ids g₁.idBound) g₂
  dy : g₂.Copies ids (.numbered ids g₂.idBound) g₃
  built : ∃ g₄, (g₃.withTaggedBump objectSpace filterWidth (copiesOf (.numbered ids g.idBound))
      (copiesOf (.numbered ids g₁.idBound)) (copiesOf (.numbered ids g₂.idBound))).Offers
        ((DisplacementBump.numbered g₃.idBound).wires
          ⟨CopyMap.copyId ids g.idBound source.node, source.slot⟩
          ⟨CopyMap.copyId ids g₁.idBound source.node, source.slot⟩
          ⟨CopyMap.copyId ids g₂.idBound source.node, source.slot⟩) g₄ ∧
    g₄.Relinks ⟨g₃.idBound + 5, 0⟩ ⟨outputId, 3⟩ g'

namespace BumpsDisplacement

variable {objectSpace : Bool} {source : OutputRef} {ids : List NodeId} {filterWidth : Binary32}
  {g₁ g₂ g₃ : Graph} (h : g.BumpsDisplacement objectSpace source ids filterWidth g₁ g₂ g₃ g')
include h

theorem bounded : ∀ a ∈ ids, a < g.idBound := h.cone_eq ▸ fun _ => lt_idBound_of_mem_cone

theorem nodup : ids.Nodup := h.cone_eq ▸ nodup_cone source.node

theorem idBound_eq₁ : g₁.idBound = g.idBound + ids.length := h.center.idBound_eq

theorem idBound_eq₂ : g₂.idBound = g.idBound + 2 * ids.length := by
  rw [h.dx.idBound_eq, h.idBound_eq₁]
  omega

theorem idBound_eq₃ : g₃.idBound = g.idBound + 3 * ids.length := by
  rw [h.dy.idBound_eq, h.idBound_eq₂]
  omega

theorem evolves₂ : g.Evolves (fun _ => False) g₂ := h.center.evolves.trans h.dx.evolves

theorem evolves₃ : g.Evolves (fun _ => False) g₃ := h.evolves₂.trans h.dy.evolves

theorem quiet₂ : g.Quiet g₂ := h.center.quiet.trans h.dx.quiet h.center.evolves.idBound_le

theorem quiet₃ : g.Quiet g₃ := h.quiet₂.trans h.dy.quiet h.evolves₂.idBound_le

theorem wellFormed₃ : g₃.WellFormed := h.dy.evolves.wellFormed

theorem source_mem (hg : g.WellFormed) : source.node ∈ ids := h.cone_eq ▸ hg.mem_cone_source h.linked

theorem closed (hg : g.WellFormed) : ∀ a ∈ ids, ∀ c, g.Feeds c a → c ∈ ids :=
  h.cone_eq ▸ hg.cone_closed h.linked

theorem linkAt_normal : g'.linkAt ⟨outputId, 3⟩ = some ⟨g₃.idBound + 5, 0⟩ := by
  obtain ⟨g₄, -, hrelinks⟩ := h.built
  rw [hrelinks.linkAt_eq, if_pos rfl]

/-- What the old nodes and the copies hold in the end. -/
theorem bare?_eq {id : Nat} (hid : id < g₃.idBound) : g'.bare? id =
    (g₃.bare? id).map fun n =>
      (sampleOf (copiesOf (.numbered ids g.idBound)) (copiesOf (.numbered ids g₁.idBound))
        (copiesOf (.numbered ids g₂.idBound)) id).elim n (n.tag filterWidth) := by
  obtain ⟨g₄, hoffers, hrelinks⟩ := h.built
  rw [hrelinks.bare?_eq, hoffers.bare?_eq, bare?_withTaggedBump hid]

/-- Once the nodes are copied, only inputs of new nodes and the normal are linked anew. -/
theorem evolves' : g₃.Evolves (fun r => g₃.idBound ≤ r.node ∨ r = ⟨outputId, 3⟩) g' := by
  obtain ⟨g₄, hoffers, hrelinks⟩ := h.built
  refine ((evolves_withTaggedBump h.wellFormed₃).widen.trans (hoffers.evolves.mono ?_)).trans
    (hrelinks.evolves.mono fun _ => Or.inr)
  rintro _ ⟨l, hl, rfl⟩
  exact Or.inl (DisplacementBump.le_target hl)

theorem evolves : g.Evolves (· = ⟨outputId, 3⟩) g' :=
  h.evolves₃.widen.trans_fresh h.evolves' fun _ hr => hr.symm.imp_right h.evolves₃.idBound_le.trans

theorem idBound_eq : g'.idBound = g₃.idBound + 6 := by
  obtain ⟨g₄, hoffers, hrelinks⟩ := h.built
  rw [hrelinks.idBound_eq, hoffers.idBound_eq, idBound_withTaggedBump h.wellFormed₃]

theorem quiet : g.Quiet g' := by
  refine ⟨?_, fun id hid => ?_⟩
  · obtain ⟨g₄, hoffers, hrelinks⟩ := h.built
    rw [hrelinks.diagnostics_eq, hoffers.diagnostics_eq (fun l hl => ?_) DisplacementBump.nodup_wires,
      diagnostics_withTaggedBump, h.quiet₃.diagnostics_eq]
    rw [linkAt_withTaggedBump h.wellFormed₃]
    exact linkAt_of_idBound_le (DisplacementBump.le_target hl)
  · have hnone : sampleOf (copiesOf (.numbered ids g.idBound)) (copiesOf (.numbered ids g₁.idBound))
        (copiesOf (.numbered ids g₂.idBound)) id = none := by
      refine sampleOf_of_not_mem ?_ ?_ ?_
      all_goals
        simp only [CopyMap.mem_copiesOf_numbered, h.idBound_eq₁, h.idBound_eq₂]
        omega
    rw [h.bare?_eq (Nat.lt_of_lt_of_le hid h.evolves₃.idBound_le), hnone, h.quiet₃.bare?_eq id hid]
    exact Option.map_id'

theorem kind?_new {i : Nat} {k : NodeKind} (hk : (DisplacementBump.kinds objectSpace)[i]? = some k) :
    g'.kind? (g₃.idBound + i) = some k := by
  obtain ⟨g₄, hoffers, hrelinks⟩ := h.built
  exact hrelinks.evolves.kind?_some
    (hoffers.evolves.kind?_some (kind?_withTaggedBump h.wellFormed₃ hk))

/-- The new nodes are linked as listed, and in no other way. -/
theorem linkAt_new_iff (hg : g.WellFormed) {r : InputRef} (hr : g₃.idBound ≤ r.node)
    (o : OutputRef) : g'.linkAt r = some o ↔ ⟨o, r⟩ ∈ (DisplacementBump.numbered g₃.idBound).wires
      ⟨CopyMap.copyId ids g.idBound source.node, source.slot⟩
      ⟨CopyMap.copyId ids g₁.idBound source.node, source.slot⟩
      ⟨CopyMap.copyId ids g₂.idBound source.node, source.slot⟩ := by
  obtain ⟨g₄, hoffers, hrelinks⟩ := h.built
  have hne : r ≠ ⟨outputId, 3⟩ := by
    rintro rfl
    exact Nat.not_le.mpr (Nat.lt_of_lt_of_le hg.outputId_lt h.evolves₃.idBound_le) hr
  have hfree := linkAt_of_idBound_le hr
  rw [← linkAt_withTaggedBump h.wellFormed₃ r] at hfree
  rw [hrelinks.linkAt_eq, if_neg hne]
  constructor
  · intro ho
    rcases hoffers.link_cases ho with ho | ⟨l, hl, rfl, rfl⟩
    · rw [hfree] at ho
      cases ho
    · exact hl
  · exact fun hl => hoffers.linkAt_of_mem DisplacementBump.nodup_wires hl hfree

/-- The links of old nodes and copies stay, the source of the normal apart. -/
theorem linkAt_of_lt {r : InputRef} (hr : r.node < g₃.idBound) (hne : r ≠ ⟨outputId, 3⟩) :
    g'.linkAt r = g₃.linkAt r :=
  h.evolves'.linkAt_eq r hr fun hT => hT.elim (Nat.not_le.mpr hr) hne

/-- A copy that was made in the course of the run is there in the end, with its tag. -/
theorem taggedCopy (hg : g.WellFormed) {c c' : Graph} {sample : BumpSample}
    (hc : g.Evolves (fun _ => False) c) (hq : g.Quiet c)
    (hcopy : c.Copies ids (.numbered ids c.idBound) c') (hc' : c'.Evolves (fun _ => False) g₃)
    (hq' : c'.Quiet g₃)
    (hsample : ∀ a ∈ ids, sampleOf (copiesOf (.numbered ids g.idBound))
      (copiesOf (.numbered ids g₁.idBound)) (copiesOf (.numbered ids g₂.idBound))
      (CopyMap.copyId ids c.idBound a) = some sample) :
    g.TaggedCopy ids (CopyMap.copyId ids c.idBound) filterWidth sample g' := by
  have hlt' : ∀ a ∈ ids, CopyMap.copyId ids c.idBound a < c'.idBound := fun a ha =>
    hcopy.idBound_eq ▸ CopyMap.copyId_lt ha _
  have hlt : ∀ a ∈ ids, CopyMap.copyId ids c.idBound a < g₃.idBound := fun a ha =>
    Nat.lt_of_lt_of_le (hlt' a ha) hc'.idBound_le
  have hids : ∀ a ∈ ids, a < c.idBound := fun a ha =>
    Nat.lt_of_lt_of_le (h.bounded a ha) hc.idBound_le
  have hlinks : ∀ a ∈ ids, ∀ slot, c.linkAt ⟨a, slot⟩ = g.linkAt ⟨a, slot⟩ := fun a ha slot =>
    hc.linkAt_eq ⟨a, slot⟩ (h.bounded a ha) not_false
  refine ⟨fun a ha => ?_, fun a ha slot => ?_⟩
  · have hp : (a, CopyMap.copyId ids c.idBound a) ∈ CopyMap.numbered ids c.idBound :=
      (CopyMap.mem_numbered_iff h.nodup).mpr ⟨ha, rfl⟩
    rw [h.bare?_eq (hlt a ha), hsample a ha, hq'.bare?_eq _ (hlt' a ha),
      hcopy.bare?_eq _ hp (hids a ha), hq.bare?_eq a (h.bounded a ha), Option.map_map]
    rfl
  · have hne : (⟨CopyMap.copyId ids c.idBound a, slot⟩ : InputRef) ≠ ⟨outputId, 3⟩ := by
      rintro heq
      have h0 : CopyMap.copyId ids c.idBound a = outputId := congrArg InputRef.node heq
      have hle : c.idBound ≤ outputId := h0 ▸ CopyMap.le_copyId ids c.idBound a
      exact Nat.not_le.mpr hg.outputId_lt (hc.idBound_le.trans hle)
    have hclosed : ∀ a ∈ ids, ∀ b, c.Feeds b a → b ∈ ids := fun a ha b hb =>
      h.closed hg a ha b (feeds_of_linkAt_eq (hlinks a ha) hb)
    rw [h.linkAt_of_lt (hlt a ha) hne,
      hc'.linkAt_eq ⟨CopyMap.copyId ids c.idBound a, slot⟩ (hlt' a ha) not_false,
      hcopy.linkAt_copyId h.nodup hids hclosed ha, hlinks a ha]

theorem taggedCopy_center (hg : g.WellFormed) :
    g.TaggedCopy ids (CopyMap.copyId ids g.idBound) filterWidth .center g' := by
  refine h.taggedCopy hg (.refl hg) .refl h.center (h.dx.evolves.trans h.dy.evolves)
    (h.dx.quiet.trans h.dy.quiet h.dx.evolves.idBound_le) fun a ha => ?_
  have hlt := CopyMap.copyId_lt ha g.idBound
  have hge := CopyMap.le_copyId ids g.idBound a
  refine sampleOf_of_center ?_ ?_ ?_
  all_goals
    simp only [CopyMap.mem_copiesOf_numbered, h.idBound_eq₁, h.idBound_eq₂]
    omega

theorem taggedCopy_dx (hg : g.WellFormed) :
    g.TaggedCopy ids (CopyMap.copyId ids g₁.idBound) filterWidth .dx g' := by
  refine h.taggedCopy hg h.center.evolves h.center.quiet h.dx h.dy.evolves h.dy.quiet fun a ha => ?_
  have hlt := CopyMap.copyId_lt ha g₁.idBound
  have hge := CopyMap.le_copyId ids g₁.idBound a
  have h₁ := h.idBound_eq₁
  refine sampleOf_of_dx ?_ ?_
  all_goals
    simp only [CopyMap.mem_copiesOf_numbered, h.idBound_eq₂]
    omega

theorem taggedCopy_dy (hg : g.WellFormed) :
    g.TaggedCopy ids (CopyMap.copyId ids g₂.idBound) filterWidth .dy g' :=
  h.taggedCopy hg h.evolves₂ h.quiet₂ h.dy (.refl h.wellFormed₃) .refl fun _ ha =>
    sampleOf_of_dy (CopyMap.mem_copiesOf_numbered.mpr ⟨CopyMap.le_copyId _ _ _, CopyMap.copyId_lt ha _⟩)

/-- The new ids are those of the three copies and of the nodes of the bump, in this order. -/
theorem new_ids : ids.map (CopyMap.copyId ids g.idBound) ++ ids.map (CopyMap.copyId ids g₁.idBound) ++
    ids.map (CopyMap.copyId ids g₂.idBound) ++ (DisplacementBump.numbered g₃.idBound).toList =
      List.range' g.idBound (3 * ids.length + 6) := by
  rw [CopyMap.map_copyId h.nodup, CopyMap.map_copyId h.nodup, CopyMap.map_copyId h.nodup,
    DisplacementBump.toList_numbered, h.idBound_eq₁, h.idBound_eq₂, h.idBound_eq₃]
  have hthree : 3 * ids.length + 6 = ids.length + ids.length + ids.length + 6 := by omega
  have htwo : 2 * ids.length = ids.length + ids.length := by omega
  have hthree' : 3 * ids.length = ids.length + ids.length + ids.length := by omega
  rw [hthree, htwo, hthree', List.range'_append_1, List.range'_append_1, List.range'_append_1]

theorem mem_ids_new (hg : g.WellFormed) {i : Nat} (hi : i < 3 * ids.length + 6) :
    g.idBound + i ∈ g'.ids := by
  have hmem : g.idBound + i ∈ List.range' g.idBound (3 * ids.length + 6) :=
    List.mem_range'_1.mpr ⟨Nat.le_add_right _ _, Nat.add_lt_add_left hi _⟩
  have hcopy : ∀ {f sample}, g.TaggedCopy ids f filterWidth sample g' → ∀ a ∈ ids, f a ∈ g'.ids := by
    intro f sample hf a ha
    obtain ⟨n, hn⟩ := exists_node_of_mem (mem_ids_of_mem_cone (h.cone_eq ▸ ha))
    have hb : g.bare? a = some n.unlinked := by simp [bare?, hn]
    obtain ⟨m, hm, -⟩ := Option.map_eq_some_iff.mp ((hf.bare?_eq a ha).trans (by rw [hb]; rfl))
    exact mem_ids_of_node hm
  rw [← h.new_ids, List.mem_append, List.mem_append, List.mem_append, List.mem_map, List.mem_map,
    List.mem_map, DisplacementBump.toList_numbered, List.mem_range'_1] at hmem
  rcases hmem with ((⟨a, ha, heq⟩ | ⟨a, ha, heq⟩) | ⟨a, ha, heq⟩) | ⟨hle, hlt⟩
  · exact heq ▸ hcopy (h.taggedCopy_center hg) a ha
  · exact heq ▸ hcopy (h.taggedCopy_dx hg) a ha
  · exact heq ▸ hcopy (h.taggedCopy_dy hg) a ha
  · obtain ⟨j, hj⟩ := Nat.exists_eq_add_of_le hle
    have hj6 : j < (DisplacementBump.kinds objectSpace).length := by
      change j < 6
      omega
    exact hj ▸ (g'.mem_ids_iff_kind?).mpr ⟨_, h.kind?_new (List.getElem?_eq_getElem hj6)⟩

theorem nodeCount_eq (hg : g.WellFormed) :
    g'.nodeCount = g.nodeCount + (3 * ids.length + 6) := by
  refine h.evolves.nodeCount_eq ?_ fun i hi => h.mem_ids_new hg hi
  rw [h.idBound_eq, h.idBound_eq₃, Nat.add_assoc]

theorem fingerprint_eq (hg : g.WellFormed) : g'.fingerprint = g.fingerprint := by
  refine h.evolves.fingerprint_eq hg h.quiet.bare?_eq h.linked (by simp) fun id hid slot heq => ?_
  have h0 : id = outputId := congrArg InputRef.node heq
  have hsource := feeds_of_linkAt h.linked
  have hreach := (hg.mem_cone (hg.mem_ids_of_feeds hsource).1).mp hid
  rcases hreach.cases_head with rfl | ⟨c, hc, -⟩
  · exact hg.ne_outputId_of_feeds hsource h0
  · exact hg.ne_outputId_of_feeds hc h0

theorem map_kind?_toList : (DisplacementBump.numbered g₃.idBound).toList.map g'.kind? =
    (DisplacementBump.kinds objectSpace).map some := by
  refine List.ext_getElem? fun i => ?_
  rw [DisplacementBump.toList_numbered, List.getElem?_map, List.getElem?_map]
  cases hk : (DisplacementBump.kinds objectSpace)[i]? with
  | none =>
    have hle : 6 ≤ i := List.getElem?_eq_none_iff.mp hk
    rw [List.getElem?_eq_none (by simpa using hle)]
    rfl
  | some k =>
    have hlt : i < 6 := (List.getElem?_eq_some_iff.mp hk).1
    rw [List.getElem?_range' hlt, Option.map_some, Nat.one_mul, h.kind?_new hk]
    rfl

theorem acyclic (hg : g.WellFormed) (hac : g.Acyclic) : g'.Acyclic := by
  have hids := h.bounded
  have hids₁ : ∀ a ∈ ids, a < g₁.idBound := fun a ha =>
    Nat.lt_of_lt_of_le (hids a ha) h.center.evolves.idBound_le
  have hids₂ : ∀ a ∈ ids, a < g₂.idBound := fun a ha =>
    Nat.lt_of_lt_of_le (hids₁ a ha) h.dx.evolves.idBound_le
  have hac₁ := h.center.acyclic hg hids hac
  have hac₂ := h.dx.acyclic h.center.evolves.wellFormed hids₁ hac₁
  have hac₃ := h.dy.acyclic h.dx.evolves.wellFormed hids₂ hac₂
  obtain ⟨rank, hr, hbelow, hnew, htop⟩ := h.wellFormed₃.exists_ranked_below_output hac₃ 6
  -- each copy is a node of `g₃` other than the output, so its number is below those of the new nodes
  have hcopy : ∀ first, g.idBound ≤ first → first + ids.length ≤ g₃.idBound → ∀ i < 6,
      rank (CopyMap.copyId ids first source.node) < rank (g₃.idBound + i) := by
    intro first hfirst hle
    have hlt := CopyMap.copyId_lt (h.source_mem hg) first
    have hge := hfirst.trans (CopyMap.le_copyId ids first source.node)
    exact hbelow _ (Nat.lt_of_lt_of_le hlt hle) (Nat.ne_of_gt (Nat.lt_of_lt_of_le hg.outputId_lt hge))
  have h₁ := h.idBound_eq₁
  have h₂ := h.idBound_eq₂
  have h₃ := h.idBound_eq₃
  refine (hr.of_links fun r o ho => ?_).acyclic
  by_cases hge : g₃.idBound ≤ r.node
  · have hl := (h.linkAt_new_iff hg hge o).mp ho
    exact Or.inr (DisplacementBump.rank_lt hnew (hcopy _ (by omega) (by omega) 1 (by decide))
      (hcopy _ (by omega) (by omega) 2 (by decide)) (hcopy _ (by omega) (by omega) 3 (by decide)) hl)
  · by_cases hne : r = ⟨outputId, 3⟩
    · subst hne
      rw [h.linkAt_normal, Option.some.injEq] at ho
      subst ho
      exact Or.inr (htop 5 (by decide))
    · rw [h.linkAt_of_lt (Nat.not_le.mp hge) hne] at ho
      exact Or.inl ho

end BumpsDisplacement

end Graph

namespace Edit

open Shading.Graph

variable {g g' : Graph} {ls : List Link}

/-- A sample of the displacement is led through a projection to the bump. -/
theorem ends_linkSample (h : g.Offers ls g') (hg : g.WellFormed) (hm : g.finalized = false)
    {source : OutputRef} {bump dot c : NodeId} {copies : CopyMap} {sample : String}
    {objectSpace : Bool} {i : Nat} {e : OutputDecl} {initial : Binary32}
    (hc : copies.lookup source.node = some c) (he : g.outputDecl? ⟨c, source.slot⟩ = some e)
    (hty : e.type.linksTo .vector = true) (hdot : g.kind? dot = some (.vectorMath .dotProduct))
    (hbump : g.kind? bump = some (.bump false objectSpace))
    (hi : (NodeKind.bump false objectSpace).layout.inputSlot? sample = some i)
    (hd : (NodeKind.bump false objectSpace).inputDecls[i]? = some (.scalar sample initial)) :
    (linkSample source bump copies dot sample).Ends g' fun _ =>
      g.Offers (ls ++ [⟨⟨c, source.slot⟩, ⟨dot, 0⟩⟩] ++ [⟨⟨dot, 0⟩, ⟨bump, i⟩⟩]) := by
  refine ends_ask_bind (h.evolves.wellFormed.inputRef_eq (h.evolves.kind?_some hdot) (i := 0) rfl) ?_
  rw [copyOf_eq hc, pure_bind, discard_bind]
  refine Ends.bind (ends_connect_offers h hg hm he (hg.inputDecl?_eq hdot 0) hty rfl)
    fun _ g₁ h₁ => ends_discard ?_
  exact ends_connectNamed_offers h₁ hg hm hdot (i := 0) rfl hbump hi rfl hd rfl rfl

theorem ends_addDisplacementBump (hm : g.finalized = false) (objectSpace : Bool) :
    (addDisplacementBump objectSpace).Ends g fun nodes g' =>
      nodes = .numbered g.idBound ∧ g' = g.pushKinds (DisplacementBump.kinds objectSpace) := by
  refine ends_bind.mpr (ends_addKind hm ?_)
  refine ends_bind.mpr (ends_addKind hm ?_)
  refine ends_bind.mpr (ends_addKind hm ?_)
  refine ends_bind.mpr (ends_addKind hm ?_)
  refine ends_bind.mpr (ends_addKind hm ?_)
  refine ends_bind.mpr (ends_addKind hm (ends_pure ⟨?_, rfl⟩))
  simp only [idBound_push, Nat.add_assoc, Nat.reduceAdd, DisplacementBump.numbered]

theorem ends_linkDisplacementBump (hg : g.WellFormed) (hm : g.finalized = false)
    {first x y z : NodeId} {objectSpace : Bool} {source : OutputRef} {e : OutputDecl}
    {center dx dy : CopyMap}
    (hkinds : ∀ i k, (DisplacementBump.kinds objectSpace)[i]? = some k →
      g.kind? (first + i) = some k)
    (hty : e.type.linksTo .vector = true)
    (hx : center.lookup source.node = some x ∧ g.outputDecl? ⟨x, source.slot⟩ = some e)
    (hy : dx.lookup source.node = some y ∧ g.outputDecl? ⟨y, source.slot⟩ = some e)
    (hz : dy.lookup source.node = some z ∧ g.outputDecl? ⟨z, source.slot⟩ = some e) :
    (linkDisplacementBump (.numbered first) source center dx dy).Ends g fun _ g' =>
      ∃ g₁, g.Offers ((DisplacementBump.numbered first).wires ⟨x, source.slot⟩ ⟨y, source.slot⟩
        ⟨z, source.slot⟩) g₁ ∧ g₁.Relinks ⟨first + 5, 0⟩ ⟨outputId, 3⟩ g' := by
  have hgeometry : g.kind? first = some .geometry := hkinds 0 _ rfl
  have hbump := hkinds 4 _ rfl
  have hset := hkinds 5 _ rfl
  have hdots : ∀ dot ∈ [first + 1, first + 2, first + 3],
      g.kind? dot = some (.vectorMath .dotProduct) := by
    intro dot hdot
    simp only [List.mem_cons, List.not_mem_nil, or_false] at hdot
    rcases hdot with rfl | rfl | rfl
    · exact hkinds 1 _ rfl
    · exact hkinds 2 _ rfl
    · exact hkinds 3 _ rfl
  refine ends_ask_bind (hg.outputRef_eq hgeometry (i := 1) rfl) ?_
  refine Ends.bind (ends_forM_offers (fun dot => ⟨⟨first, 1⟩, ⟨dot, 1⟩⟩) hg
    fun dot hmem ls g' h' => ?_) fun _ g₁ h₁ => ?_
  · have hdot := hdots dot hmem
    refine ends_ask_bind (h'.evolves.wellFormed.inputRef_eq (h'.evolves.kind?_some hdot) (i := 1) rfl)
      (ends_discard ?_)
    exact ends_connect_offers h' hg hm (hg.outputDecl?_eq hgeometry 1) (hg.inputDecl?_eq hdot 1) rfl rfl
  rw [discard_bind]
  refine Ends.bind (ends_connectNamed_offers h₁ hg hm hgeometry (i := 1) rfl hbump (j := 4) rfl rfl rfl
    rfl rfl) fun _ g₂ h₂ => ?_
  refine Ends.bind (ends_linkSample h₂ hg hm hx.1 hx.2 hty (hkinds 1 _ rfl) hbump (i := 1) rfl rfl)
    fun _ g₃ h₃ => ?_
  refine Ends.bind (ends_linkSample h₃ hg hm hy.1 hy.2 hty (hkinds 2 _ rfl) hbump (i := 2) rfl rfl)
    fun _ g₄ h₄ => ?_
  refine Ends.bind (ends_linkSample h₄ hg hm hz.1 hz.2 hty (hkinds 3 _ rfl) hbump (i := 3) rfl rfl)
    fun _ g₅ h₅ => ?_
  rw [discard_bind]
  refine Ends.bind (ends_connectNamed_offers h₅ hg hm hbump (i := 0) rfl hset (j := 0) rfl rfl rfl rfl
    rfl) fun _ g₆ h₆ => ?_
  have hg₆ := h₆.evolves.wellFormed
  have hm₆ := h₆.evolves.finalized.trans hm
  refine ends_ask_bind (hg₆.inputRef_eq hg₆.kind?_output (i := 3) rfl) ?_
  refine Ends.bind (ends_disconnectIfLinked_quiet hg₆ hm₆ (hg₆.inputDecl?_eq hg₆.kind?_output 3)) ?_
  rintro _ g₇ ⟨h₇, hd₇, hb₇⟩
  refine ends_discard ((ends_connectNamed_offers (.refl h₇.wellFormed) h₇.wellFormed
    (h₇.finalized.trans hm₆) (h₇.evolves.kind?_some (h₆.evolves.kind?_some hset)) (i := 0) rfl
    h₇.wellFormed.kind?_output (j := 3) rfl rfl rfl rfl rfl).mono fun _ g₈ h₈ => ?_)
  exact ⟨g₆, h₆, h₇.relinks hd₇ hb₇ h₈⟩

/-- The displacement becomes a bumped normal, whether or not the nodes behind it go around in a cycle.
-/
theorem ends_bumpsDisplacement (hg : g.WellFormed) (hm : g.finalized = false) {source : OutputRef}
    (hl : g.linkAt ⟨outputId, 2⟩ = some source) (objectSpace : Bool) :
    (bumpFromDisplacement objectSpace).Ends g fun _ g' =>
      ∃ ids filterWidth g₁ g₂ g₃,
        g.BumpsDisplacement objectSpace source ids filterWidth g₁ g₂ g₃ g' := by
  obtain ⟨e, he⟩ := hg.exists_output hl
  obtain ⟨-, hty⟩ := hg.typed _ _ _ e hl (hg.inputDecl?_eq hg.kind?_output 2) he
  have hcone : ∀ a ∈ g.cone source.node, a ∈ g.ids := fun _ => mem_ids_of_mem_cone
  have hsource := hg.mem_cone_source hl
  refine ends_ask_bind (hg.inputRef_eq hg.kind?_output (i := 2) rfl) ?_
  refine ends_ask_bind (hg.linkOf_output (by decide)) ?_
  rw [hl]
  refine ends_ask_bind (dependencies_eq hl) ?_
  generalize hids : g.cone source.node = ids at hcone hsource
  have hnd : ids.Nodup := hids ▸ nodup_cone source.node
  refine Ends.bind (ends_copies hg hm hcone) fun center g₁ h₁ => ?_
  have hcone₁ := fun a ha => h₁.evolves.ids_subset (hcone a ha)
  have hg₁ := h₁.evolves.wellFormed
  have hm₁ := h₁.evolves.finalized.trans hm
  refine Ends.bind (ends_copies hg₁ hm₁ hcone₁) fun dx g₂ h₂ => ?_
  have hcone₂ := fun a ha => h₂.evolves.ids_subset (hcone₁ a ha)
  have hg₂ := h₂.evolves.wellFormed
  have hm₂ := h₂.evolves.finalized.trans hm₁
  refine Ends.bind (ends_copies hg₂ hm₂ hcone₂) fun dy g₃ h₃ => ?_
  have hg₃ := h₃.evolves.wellFormed
  have hm₃ := h₃.evolves.finalized.trans hm₂
  obtain rfl := h₁.numbered
  obtain rfl := h₂.numbered
  obtain rfl := h₃.numbered
  refine Ends.bind (ends_addDisplacementBump hm₃ objectSpace) ?_
  rintro _ _ ⟨rfl, rfl⟩
  rw [discard_bind]
  refine ends_bind.mpr (ends_storeNamed (kind?_pushKinds hg₃ (i := 4) rfl) fun _ => ?_)
  have hstore := trims_withDisplacementBump hg₃ objectSpace
  have h₄ := (evolves_pushKinds hg₃ _).trans hstore.evolves
  have hkinds : ∀ i k, (DisplacementBump.kinds objectSpace)[i]? = some k →
      (g₃.withDisplacementBump objectSpace).kind? (g₃.idBound + i) = some k :=
    fun i k hk => (hstore.kind?_eq _).trans (kind?_pushKinds hg₃ hk)
  change Ends _ (g₃.withDisplacementBump objectSpace) _
  generalize hg₄ : g₃.withDisplacementBump objectSpace = g₄ at h₄ hkinds ⊢
  refine meets_ask_node_bind (fun n _ => ?_) fun hnone =>
    Option.some_ne_none _ ((hkinds 4 _ rfl).symm.trans hnone)
  have h₂₄ := h₃.evolves.trans h₄
  have h₁₄ := h₂.evolves.trans h₂₄
  refine Ends.bind (ends_tagSamples h₄.wellFormed
    (fun a ha => h₁₄.ids_subset (mem_ids_of_copies h₁ hcone a ha))
    (fun a ha => h₂₄.ids_subset (mem_ids_of_copies h₂ hcone₁ a ha))
    (fun a ha => h₄.ids_subset (mem_ids_of_copies h₃ hcone₂ a ha)) _) ?_
  rintro _ g₅ hg₅
  have h₅ : g₄.Trims (fun _ => False) g₅ := hg₅ ▸ trims_tagAll h₄.wellFormed _ _ _ _
  have h₁₅ := h₁₄.trans h₅.evolves
  have h₂₅ := h₂₄.trans h₅.evolves
  have h₃₅ := h₄.trans h₅.evolves
  have hlook := CopyMap.lookup_numbered hnd hsource
  have he₁ := h₁.evolves.outputDecl?_some hg he
  have he₂ := h₂.evolves.outputDecl?_some hg₁ he₁
  refine (ends_linkDisplacementBump h₅.wellFormed
    ((h₅.finalized.trans h₄.finalized).trans hm₃)
    (fun i k hk => h₅.evolves.kind?_some (hkinds i k hk)) hty
    ⟨hlook _, h₁₅.outputDecl?_some hg₁ (outputDecl?_copyId h₁ hg hnd hsource he)⟩
    ⟨hlook _, h₂₅.outputDecl?_some hg₂ (outputDecl?_copyId h₂ hg₁ hnd hsource he₁)⟩
    ⟨hlook _, h₃₅.outputDecl?_some hg₃ (outputDecl?_copyId h₃ hg₂ hnd hsource he₂)⟩).mono ?_
  rintro _ g' ⟨g₆, h₆, h₇⟩
  refine ⟨ids, n.float "Filter Width", g₁, g₂, g₃, hl, hids.symm, h₁, h₂, h₃, g₆, ?_, h₇⟩
  rw [withTaggedBump, hg₄, ← hg₅]
  exact h₆

/-- The bumped normal that comes from the displacement makes no cycle. Besides inputs of new nodes
only the normal of the output changes. -/
theorem ends_bumpFromDisplacement (hg : g.WellFormed) (hm : g.finalized = false) (hac : g.Acyclic)
    (objectSpace : Bool) :
    (bumpFromDisplacement objectSpace).Ends g fun _ g' =>
      g.Evolves (· = ⟨outputId, 3⟩) g' ∧ g'.Acyclic := by
  cases hl : g.linkAt ⟨outputId, 2⟩ with
  | none =>
    refine ends_ask_bind (hg.inputRef_eq hg.kind?_output (i := 2) rfl) ?_
    refine ends_ask_bind (hg.linkOf_output (by decide)) ?_
    rw [hl]
    exact ends_pure ⟨.refl hg, hac⟩
  | some source =>
    refine (ends_bumpsDisplacement hg hm hl objectSpace).mono ?_
    rintro _ g' ⟨ids, filterWidth, g₁, g₂, g₃, h⟩
    exact ⟨h.evolves, h.acyclic hg hac⟩

/-- **The bump of a displacement.** A well-formed graph may have cycles, also behind the displacement.
The new ids are those of three copies of the nodes behind it, and of a geometry, three projections, a
bump and a node that sets the normal. Each copy is tagged and linked as the nodes are, the new nodes
are linked as listed and in no other way, and the normal of the output is linked to the last of them.
Nothing is reported, all other inputs keep their links, and all nodes keep whatever else they hold. -/
theorem bumpFromDisplacement_exact (g : Graph) (hg : g.WellFormed) (hm : g.finalized = false)
    (source : OutputRef) (hs : g.linkAt ⟨outputId, 2⟩ = some source) (objectSpace : Bool) :
    ∃ ids g' center dx dy filterWidth, ∃ nodes : DisplacementBump,
      g.dependencies ⟨outputId, 2⟩ = .ok ids ∧ (bumpFromDisplacement objectSpace).run g = .ok () g' ∧
      g'.nodeCount = g.nodeCount + (3 * ids.length + 6) ∧ g'.diagnostics = g.diagnostics ∧
      ids.map center ++ ids.map dx ++ ids.map dy ++ nodes.toList =
        List.range' g.idBound (3 * ids.length + 6) ∧
      g.TaggedCopy ids center filterWidth .center g' ∧ g.TaggedCopy ids dx filterWidth .dx g' ∧
      g.TaggedCopy ids dy filterWidth .dy g' ∧
      nodes.toList.map g'.kind? = (DisplacementBump.kinds objectSpace).map some ∧
      (∀ r o, r.node ∈ nodes.toList → (g'.linkAt r = some o ↔
        ⟨o, r⟩ ∈ nodes.wires ⟨center source.node, source.slot⟩ ⟨dx source.node, source.slot⟩
          ⟨dy source.node, source.slot⟩)) ∧
      g'.linkAt ⟨outputId, 3⟩ = some ⟨nodes.setNormal, 0⟩ ∧
      (∀ r : InputRef, r.node < g.idBound → r ≠ ⟨outputId, 3⟩ → g'.linkAt r = g.linkAt r) ∧
      (∀ id < g.idBound, g'.bare? id = g.bare? id) ∧
      ∃ d, g.fingerprint = .ok d ∧ g'.fingerprint = .ok d := by
  obtain ⟨_, g', hrun, ids, filterWidth, g₁, g₂, g₃, h⟩ :=
    ends_iff.mp (ends_bumpsDisplacement hg hm hs objectSpace)
  refine ⟨ids, g', _, _, _, filterWidth, .numbered g₃.idBound, h.cone_eq ▸ dependencies_eq hs, hrun,
    h.nodeCount_eq hg, h.quiet.diagnostics_eq, h.new_ids, h.taggedCopy_center hg, h.taggedCopy_dx hg,
    h.taggedCopy_dy hg, h.map_kind?_toList, fun r o hr => h.linkAt_new_iff hg ?_ o,
    h.linkAt_normal, h.evolves.linkAt_eq, h.quiet.bare?_eq, _, hg.fingerprint_of_linked hs, ?_⟩
  · rw [DisplacementBump.toList_numbered, List.mem_range'_1] at hr
    exact hr.1
  · rw [h.fingerprint_eq hg, hg.fingerprint_of_linked hs]

/-- A displacement that two sums of vectors make in a cycle, on an object that has a normal already. -/
def entangledDisplacement : Graph :=
  Primitive.runAll [.addKind (.vectorMath .add), .addKind (.vectorMath .add), .addKind .geometry,
    .connect ⟨1, 1⟩ ⟨2, 0⟩, .connect ⟨2, 1⟩ ⟨1, 0⟩, .connect ⟨2, 1⟩ ⟨0, 2⟩, .connect ⟨3, 1⟩ ⟨0, 3⟩]
    Graph.empty

theorem bumpFromDisplacement_exact_entangled :
    entangledDisplacement.WellFormed ∧ entangledDisplacement.finalized = false ∧
      entangledDisplacement.linkAt ⟨2, 0⟩ = some ⟨1, 1⟩ ∧
      entangledDisplacement.linkAt ⟨1, 0⟩ = some ⟨2, 1⟩ ∧
      entangledDisplacement.linkAt ⟨outputId, 2⟩ = some ⟨2, 1⟩ ∧
      entangledDisplacement.linkAt ⟨outputId, 3⟩ = some ⟨3, 1⟩ ∧
      ∃ g', (bumpFromDisplacement false).run entangledDisplacement = .ok () g' ∧
        g'.nodeCount = 16 ∧ g'.linkAt ⟨5, 0⟩ = some ⟨4, 1⟩ ∧ g'.linkAt ⟨4, 0⟩ = some ⟨5, 1⟩ ∧
        g'.linkAt ⟨11, 0⟩ = some ⟨5, 1⟩ ∧ g'.linkAt ⟨outputId, 3⟩ = some ⟨15, 0⟩ ∧
        g'.linkAt ⟨outputId, 2⟩ = some ⟨2, 1⟩ := by
  have hg : entangledDisplacement.WellFormed :=
    (Primitive.follows_runAll wellFormed_empty _).wellFormed
  have hs : entangledDisplacement.linkAt ⟨outputId, 2⟩ = some ⟨2, 1⟩ := by decide
  have hl : entangledDisplacement.linkAt ⟨2, 0⟩ = some ⟨1, 1⟩ := by decide
  have hl' : entangledDisplacement.linkAt ⟨1, 0⟩ = some ⟨2, 1⟩ := by decide
  have hids : entangledDisplacement.dependencies ⟨outputId, 2⟩ = .ok [1, 2] := by decide +kernel
  obtain ⟨ids, g', center, dx, dy, _, nodes, hdeps, hrun, hcount, -, hnew, hcenter, -, -, -, hlinks,
    hnormal, hkept, -, -⟩ := bumpFromDisplacement_exact entangledDisplacement hg (by decide) _ hs false
  obtain rfl : [1, 2] = ids := Except.ok.inj (hids.symm.trans hdeps)
  have hb : entangledDisplacement.idBound = 4 := by decide
  -- the ids of the first copy, of the first projection and of the last node
  have hnew' : center 1 = 4 ∧ center 2 = 5 ∧ nodes.dotCenter = 11 ∧ nodes.setNormal = 15 := by
    rw [hb] at hnew
    simp only [List.map_cons, List.map_nil, List.cons_append, List.nil_append, List.length_cons,
      List.length_nil, List.range', DisplacementBump.toList, List.cons.injEq] at hnew
    exact ⟨hnew.1, hnew.2.1, hnew.2.2.2.2.2.2.2.1, hnew.2.2.2.2.2.2.2.2.2.2.2.1⟩
  obtain ⟨h₁, h₂, hdot, hset⟩ := hnew'
  refine ⟨hg, by decide, hl, hl', hs, by decide, g', hrun, hcount.trans (by decide), ?_, ?_, ?_, ?_, ?_⟩
  · have hcopy := hcenter.linkAt_eq 2 (by decide) 0
    rwa [h₂, hl, Option.map_some, h₁] at hcopy
  · have hcopy := hcenter.linkAt_eq 1 (by decide) 0
    rwa [h₁, hl', Option.map_some, h₂] at hcopy
  · refine (hlinks ⟨11, 0⟩ ⟨5, 1⟩ (by simp [DisplacementBump.toList, hdot])).mpr ?_
    simp [DisplacementBump.wires, hdot, h₂]
  · rw [hnormal, hset]
  · rw [hkept _ (by decide) (by decide), hs]

end Edit

end Shading
