import Shading.Lowering.Bump
import Shading.Proofs.Cutting
import Shading.Proofs.Offering
import Shading.Proofs.Reachability
import Shading.Proofs.Redirection
import Shading.Proofs.Subgraph

/-!
# Bumps

To split the height of a bump, the nodes behind it are copied twice, the nodes and their copies are
tagged with the samples that they compute, and the bump is linked to the source of the height and to
its copies (`Graph.Samples`). No cycle comes of it. The nodes are numbered along the links, and a copy
gets the number of its original (`Copies.exists_ranked`), so that every new link can be seen to go
upwards. -/

namespace Shading

/-! ### Copies by their ids -/

theorem CopyMap.mem_numbered {ids : List NodeId} {first a c : Nat} :
    (a, c) ∈ numbered ids first ↔ ∃ i, ids[i]? = some a ∧ c = first + i := by
  rw [numbered, List.mem_iff_getElem?]
  refine exists_congr fun i => ?_
  rw [List.getElem?_zip_eq_some]
  refine and_congr_right fun hi => ?_
  obtain ⟨hlt, -⟩ := List.getElem?_eq_some_iff.mp hi
  rw [List.getElem?_range' hlt, Option.some.injEq, Nat.one_mul]
  exact eq_comm

theorem CopyMap.exists_lookup {copies : CopyMap} {ids : List NodeId} {first id : NodeId}
    (h : copies = numbered ids first) (hid : id ∈ ids) : ∃ c, copies.lookup id = some c := by
  rw [← Option.isSome_iff_exists, List.lookup_isSome_iff]
  rw [← map_fst_numbered ids first, ← h] at hid
  obtain ⟨p, hp, rfl⟩ := List.mem_map.mp hid
  exact ⟨p, hp, by simp⟩

/-- The copy of a node, if copies are numbered from a given id on. -/
def CopyMap.copyId (ids : List NodeId) (first a : Nat) : Nat := first + ids.idxOf a

theorem CopyMap.le_copyId (ids : List NodeId) (first a : Nat) : first ≤ copyId ids first a :=
  Nat.le_add_right first _

section

variable {ids : List NodeId} {first a : Nat}

theorem CopyMap.mem_numbered_iff (hnd : ids.Nodup) {c : NodeId} :
    (a, c) ∈ numbered ids first ↔ a ∈ ids ∧ c = copyId ids first a := by
  rw [mem_numbered]
  constructor
  · rintro ⟨i, hi, rfl⟩
    obtain ⟨hlt, rfl⟩ := List.getElem?_eq_some_iff.mp hi
    exact ⟨List.getElem_mem hlt, by rw [copyId, hnd.idxOf_getElem i hlt]⟩
  · rintro ⟨ha, rfl⟩
    exact ⟨_, List.getElem?_idxOf ha, rfl⟩

theorem CopyMap.lookup_numbered (hnd : ids.Nodup) (ha : a ∈ ids) (first : Nat) :
    (numbered ids first).lookup a = some (copyId ids first a) := by
  obtain ⟨c, hc⟩ := exists_lookup rfl ha
  rw [hc, ((mem_numbered_iff hnd).mp (mem_of_lookup hc)).2]

theorem CopyMap.copyId_lt (ha : a ∈ ids) (first : Nat) : copyId ids first a < first + ids.length :=
  Nat.add_lt_add_left (List.idxOf_lt_length_of_mem ha) first

theorem CopyMap.map_copyId (hnd : ids.Nodup) :
    ids.map (copyId ids first) = List.range' first ids.length := by
  refine List.ext_getElem (by simp) fun i hi hi' => ?_
  rw [List.getElem_map, List.getElem_range'_1, copyId, hnd.idxOf_getElem]

theorem CopyMap.mem_copiesOf_numbered {c : Nat} :
    c ∈ Edit.copiesOf (numbered ids first) ↔ first ≤ c ∧ c < first + ids.length := by
  rw [Edit.copiesOf, map_snd_numbered, List.mem_range'_1]

end

theorem NodeKind.exists_eq_bump {k : NodeKind} (h : k.role = .bump) :
    ∃ invert objectSpace, k = .bump invert objectSpace := by
  cases k with
  | bump invert objectSpace => exact ⟨invert, objectSpace, rfl⟩
  | convert source target automatic =>
    simp only [role] at h
    split_ifs at h
  | _ => simp [role] at h

/-- The node with a tag. -/
def Node.tag (n : Node) (filterWidth : Binary32) (sample : BumpSample) : Node :=
  { n with bump := sample, filterWidth := filterWidth }

namespace Graph

open Edit (copiesOf)

variable {g g' : Graph} {rank : NodeId → Nat}

/-! ### Numbering the nodes -/

/-- Links that go upwards may be added, and any links removed. -/
theorem Ranked.of_links (h : g.Ranked rank)
    (hl : ∀ r o, g'.linkAt r = some o → g.linkAt r = some o ∨ rank o.node < rank r.node) :
    g'.Ranked rank := by
  rintro a b ⟨r, o, hr, rfl, rfl⟩
  rcases hl r o hr with hr | hlt
  · exact h _ _ ⟨r, o, hr, rfl, rfl⟩
  · exact hlt

/-- An input of a copy is linked to the copy of what feeds the original. -/
theorem Copies.exists_link {ids : List NodeId} {copies : CopyMap} (h : g.Copies ids copies g')
    (hids : ∀ id ∈ ids, id < g.idBound) {r : InputRef} {o : OutputRef} (hr : g.idBound ≤ r.node)
    (hl : g'.linkAt r = some o) : ∃ a o', (a, r.node) ∈ copies ∧ a < g.idBound ∧
      g.linkAt ⟨a, r.slot⟩ = some o' ∧ (o'.node, o.node) ∈ copies := by
  obtain ⟨d, hd⟩ := g'.inputDecl?_of_linkAt hl
  obtain ⟨i, hi⟩ := Nat.exists_eq_add_of_le hr
  have hlen : i < ids.length := by
    have hb := node_lt_of_inputDecl? hd
    rw [h.idBound_eq, hi] at hb
    exact Nat.lt_of_add_lt_add_left hb
  have hp : (ids[i], r.node) ∈ copies := by
    rw [h.numbered]
    exact CopyMap.mem_numbered.mpr ⟨i, List.getElem?_eq_getElem hlen, hi⟩
  have ha := hids _ (List.getElem_mem hlen)
  have hl' : g.copiedLink copies ⟨ids[i], r.slot⟩ = some o :=
    (h.linkAt_eq _ hp ha r.slot).symm.trans hl
  obtain ⟨o', ho', hc⟩ := Option.bind_eq_some_iff.mp hl'
  obtain ⟨c, hlook, rfl⟩ := Option.map_eq_some_iff.mp hc
  exact ⟨_, o', hp, ha, ho', CopyMap.mem_of_lookup hlook⟩

/-- A copy has the number of its original. -/
theorem Copies.exists_ranked {ids : List NodeId} {copies : CopyMap} (h : g.Copies ids copies g')
    (hg : g.WellFormed) (hids : ∀ id ∈ ids, id < g.idBound) (hr : g.Ranked rank) :
    ∃ rank', (∀ id < g.idBound, rank' id = rank id) ∧ (∀ p ∈ copies, rank' p.2 = rank p.1) ∧
      g'.Ranked rank' := by
  let rank' := fun id => if id < g.idBound then rank id else rank (ids.getD (id - g.idBound) 0)
  have hold : ∀ id < g.idBound, rank' id = rank id := fun id hid => if_pos hid
  have hcopy : ∀ p ∈ copies, rank' p.2 = rank p.1 := by
    rintro ⟨a, c⟩ hp
    obtain ⟨i, hi, rfl⟩ := CopyMap.mem_numbered.mp (h.numbered ▸ hp)
    have hge : ¬ g.idBound + i < g.idBound := by omega
    simp only [rank', if_neg hge, Nat.add_sub_cancel_left, List.getD_eq_getElem?_getD, hi,
      Option.getD_some]
  refine ⟨rank', hold, hcopy, ?_⟩
  rintro a b ⟨r, o, hl, rfl, rfl⟩
  by_cases hlt : r.node < g.idBound
  · rw [h.evolves.linkAt_eq r hlt not_false] at hl
    obtain ⟨e, he⟩ := hg.exists_output hl
    obtain ⟨k, hk⟩ := g.kind?_of_outputDecl? he
    rw [hold _ hlt, hold _ (g.lt_idBound_of_kind? hk)]
    exact hr _ _ ⟨r, o, hl, rfl, rfl⟩
  · obtain ⟨a, o', hp, -, ho', hp'⟩ := h.exists_link hids (Nat.not_lt.mp hlt) hl
    rw [hcopy _ hp', hcopy _ hp]
    exact hr _ _ ⟨_, o', ho', rfl, rfl⟩

/-- If nodes are copied together with all that feeds them, then the copies are linked as they are. -/
theorem Copies.linkAt_copyId {ids : List NodeId} {copies : CopyMap} (h : g.Copies ids copies g')
    (hnd : ids.Nodup) (hids : ∀ id ∈ ids, id < g.idBound)
    (hclosed : ∀ a ∈ ids, ∀ c, g.Feeds c a → c ∈ ids) {a : NodeId} (ha : a ∈ ids) (slot : Nat) :
    g'.linkAt ⟨CopyMap.copyId ids g.idBound a, slot⟩ = (g.linkAt ⟨a, slot⟩).map fun o =>
      ⟨CopyMap.copyId ids g.idBound o.node, o.slot⟩ := by
  have hp : (a, CopyMap.copyId ids g.idBound a) ∈ copies :=
    h.numbered ▸ (CopyMap.mem_numbered_iff hnd).mpr ⟨ha, rfl⟩
  rw [h.linkAt_eq _ hp (hids a ha), copiedLink]
  cases ho : g.linkAt ⟨a, slot⟩ with
  | none => rfl
  | some o =>
    rw [Option.bind_some, h.numbered,
      CopyMap.lookup_numbered hnd (hclosed a ha _ (feeds_of_linkAt ho)) g.idBound]
    rfl

theorem Copies.acyclic {ids : List NodeId} {copies : CopyMap} (h : g.Copies ids copies g')
    (hg : g.WellFormed) (hids : ∀ id ∈ ids, id < g.idBound) (hac : g.Acyclic) : g'.Acyclic := by
  obtain ⟨rank, hr⟩ := (hg.acyclic_iff_ranked).mp hac
  obtain ⟨rank', -, -, hr'⟩ := h.exists_ranked hg hids hr
  exact hr'.acyclic

/-! ### Tags -/

/-- The graph with a tag on some nodes. -/
def tag (g : Graph) (sample : BumpSample) (filterWidth : Binary32) (ids : List NodeId) : Graph :=
  g.mapNodes fun id n => if id ∈ ids then n.tag filterWidth sample else n

/-- The graph with tags on the nodes of three samples. -/
def tagAll (g : Graph) (filterWidth : Binary32) (center dx dy : List NodeId) : Graph :=
  ((g.tag .center filterWidth center).tag .dx filterWidth dx).tag .dy filterWidth dy

/-- The tag that a node has in the end. -/
def sampleOf (center dx dy : List NodeId) (id : NodeId) : Option BumpSample :=
  if id ∈ dy then some .dy else if id ∈ dx then some .dx else if id ∈ center then some .center
  else none

/-- The sample that a node computes. -/
def sample? (g : Graph) (id : NodeId) : Option BumpSample := (g.node? id).map (·.bump)

section

variable {sample : BumpSample} {filterWidth : Binary32} {ids center dx dy : List NodeId}

theorem sampleOf_of_dy {id : NodeId} (h : id ∈ dy) : sampleOf center dx dy id = some .dy := if_pos h

theorem sampleOf_of_dx {id : NodeId} (hdy : id ∉ dy) (h : id ∈ dx) :
    sampleOf center dx dy id = some .dx := by rw [sampleOf, if_neg hdy, if_pos h]

theorem sampleOf_of_center {id : NodeId} (hdy : id ∉ dy) (hdx : id ∉ dx) (h : id ∈ center) :
    sampleOf center dx dy id = some .center := by rw [sampleOf, if_neg hdy, if_neg hdx, if_pos h]

theorem sampleOf_of_not_mem {id : NodeId} (hdy : id ∉ dy) (hdx : id ∉ dx) (h : id ∉ center) :
    sampleOf center dx dy id = none := by rw [sampleOf, if_neg hdy, if_neg hdx, if_neg h]

theorem sample?_eq_bare? (id : NodeId) : g.sample? id = (g.bare? id).map (·.bump) := by
  unfold sample? bare?
  cases g.node? id <;> rfl

theorem trims_tag (hg : g.WellFormed) (sample : BumpSample) (filterWidth : Binary32)
    (ids : List NodeId) : g.Trims (fun _ => False) (g.tag sample filterWidth ids) := by
  refine trims_mapNodes (fun id n => ?_) hg
  split_ifs <;> exact ⟨rfl, rfl, rfl⟩

theorem trims_tagAll (hg : g.WellFormed) (filterWidth : Binary32) (center dx dy : List NodeId) :
    g.Trims (fun _ => False) (g.tagAll filterWidth center dx dy) := by
  have h₁ := trims_tag hg .center filterWidth center
  have h₂ := trims_tag h₁.wellFormed .dx filterWidth dx
  have h₃ := trims_tag h₂.wellFormed .dy filterWidth dy
  exact ((h₁.trans h₂).trans h₃).congr fun _ _ _ => by simp

theorem diagnostics_tagAll : (g.tagAll filterWidth center dx dy).diagnostics = g.diagnostics := rfl

/-- One more node is tagged. -/
theorem tag_snoc (id : NodeId) :
    (g.tag sample filterWidth ids).modifyNode id (·.tag filterWidth sample) =
      g.tag sample filterWidth (ids ++ [id]) := by
  refine eq_of_node? (by simp [tag]) (fun j => ?_) rfl rfl rfl
  simp only [tag, node?_modifyNode, node?_mapNodes, List.mem_append, List.mem_singleton]
  by_cases hj : j = id
  · subst hj
    cases g.node? j with
    | none => simp
    | some n => by_cases hmem : j ∈ ids <;> simp [hmem, Node.tag]
  · simp [hj]

theorem bare?_tag (id : NodeId) :
    (g.tag sample filterWidth ids).bare? id = (g.bare? id).map fun n =>
      if id ∈ ids then n.tag filterWidth sample else n := by
  rw [bare?, bare?, tag, node?_mapNodes]
  cases g.node? id with
  | none => rfl
  | some n => by_cases hmem : id ∈ ids <;> simp [hmem, Node.tag, Node.unlinked]

theorem bare?_tagAll (id : NodeId) :
    (g.tagAll filterWidth center dx dy).bare? id =
      (g.bare? id).map fun n => (sampleOf center dx dy id).elim n (n.tag filterWidth) := by
  rw [tagAll, bare?_tag, bare?_tag, bare?_tag, Option.map_map, Option.map_map]
  refine congrArg (Option.map · (g.bare? id)) (funext fun n => ?_)
  simp only [Function.comp_apply, sampleOf]
  split_ifs <;> rfl

theorem sample?_tagAll (id : NodeId) : (g.tagAll filterWidth center dx dy).sample? id =
    (g.sample? id).map fun old => (sampleOf center dx dy id).getD old := by
  rw [sample?_eq_bare?, sample?_eq_bare?, bare?_tagAll, Option.map_map, Option.map_map]
  refine congrArg (Option.map · (g.bare? id)) (funext fun n => ?_)
  cases sampleOf center dx dy id <;> rfl

end

/-! ### Samples of a height -/

/-- The links that are offered to a bump for the three samples of its height. -/
def sampleLinks (id : NodeId) (source : OutputRef) (x y : NodeId) : List Link :=
  [⟨⟨x, source.slot⟩, ⟨id, 2⟩⟩, ⟨⟨y, source.slot⟩, ⟨id, 3⟩⟩, ⟨source, ⟨id, 1⟩⟩]

/-- The height of a bump, which has a given source, is split. The nodes behind it are copied twice and
tagged, the source and its copies are offered to the bump, and the height is unlinked. -/
structure Samples (id : NodeId) (source : OutputRef) (ids : List NodeId) (g g₁ g₂ g' : Graph) :
    Prop where
  linked : g.linkAt ⟨id, 0⟩ = some source
  cone_eq : ids = g.cone source.node
  dx : g.Copies ids (.numbered ids g.idBound) g₁
  dy : g₁.Copies ids (.numbered ids g₁.idBound) g₂
  offered : ∃ filterWidth g₃, (g₂.tagAll filterWidth ids (copiesOf (.numbered ids g.idBound))
      (copiesOf (.numbered ids g₁.idBound))).Offers (sampleLinks id source
        (CopyMap.copyId ids g.idBound source.node) (CopyMap.copyId ids g₁.idBound source.node)) g₃ ∧
    g' = g₃.unlink source ⟨id, 0⟩

namespace Samples

variable {id : NodeId} {source : OutputRef} {ids : List NodeId} {g₁ g₂ : Graph}
  (h : g.Samples id source ids g₁ g₂ g')
include h

theorem bounded : ∀ a ∈ ids, a < g.idBound := h.cone_eq ▸ fun _ => lt_idBound_of_mem_cone

theorem bounded' : ∀ a ∈ ids, a < g₁.idBound :=
  fun a ha => Nat.lt_of_lt_of_le (h.bounded a ha) h.dx.evolves.idBound_le

theorem nodup : ids.Nodup := h.cone_eq ▸ nodup_cone source.node

theorem source_mem (hg : g.WellFormed) : source.node ∈ ids := h.cone_eq ▸ hg.mem_cone_source h.linked

theorem evolves_copies : g.Evolves (fun _ => False) g₂ := h.dx.evolves.trans h.dy.evolves

theorem id_lt : id < g.idBound := node_lt_of_linkAt (r := ⟨id, 0⟩) (by simp [h.linked])

theorem linkAt_copies (slot : Nat) : g₂.linkAt ⟨id, slot⟩ = g.linkAt ⟨id, slot⟩ :=
  h.evolves_copies.linkAt_eq ⟨id, slot⟩ h.id_lt not_false

/-- Once the nodes are copied, only the inputs of the bump are linked anew. -/
theorem evolves' : g₂.Evolves (·.node = id) g' := by
  obtain ⟨filterWidth, g₃, hoffers, rfl⟩ := h.offered
  have htag := trims_tagAll h.dy.evolves.wellFormed filterWidth ids
    (copiesOf (.numbered ids g.idBound)) (copiesOf (.numbered ids g₁.idBound))
  have hl : g₃.linkAt ⟨id, 0⟩ = some source := by
    rw [hoffers.linkAt_of_not_mem (by simp [sampleLinks]), htag.kept _ not_false, h.linkAt_copies,
      h.linked]
  refine (htag.evolves.widen.trans (hoffers.evolves.mono ?_)).trans
    ((trims_unlink hoffers.evolves.wellFormed hl).evolves.mono fun r hr => hr ▸ rfl)
  rintro _ ⟨l, hmem, rfl⟩
  simp only [sampleLinks, List.mem_cons, List.not_mem_nil, or_false] at hmem
  rcases hmem with rfl | rfl | rfl <;> rfl

theorem evolves : g.Evolves (·.node = id) g' := h.evolves_copies.widen.trans h.evolves'

/-- What each input is linked to in the end. -/
theorem linkAt_eq (r : InputRef) : g'.linkAt r = if r = ⟨id, 0⟩ then none
    else (g₂.linkAt r).or (((sampleLinks id source (CopyMap.copyId ids g.idBound source.node)
      (CopyMap.copyId ids g₁.idBound source.node)).find? (·.target = r)).map (·.source)) := by
  obtain ⟨filterWidth, g₃, hoffers, rfl⟩ := h.offered
  rw [linkAt_unlink, hoffers.linkAt_eq, (trims_tagAll h.dy.evolves.wellFormed _ _ _ _).kept r not_false]

/-- What the bump is linked to anew is the source of its height or a copy of it. -/
theorem link_cases {r : InputRef} {o : OutputRef} (ho : g'.linkAt r = some o) :
    g₂.linkAt r = some o ∨ r.node = id ∧ (o.node = source.node ∨
      o.node = CopyMap.copyId ids g.idBound source.node ∨
      o.node = CopyMap.copyId ids g₁.idBound source.node) := by
  rw [h.linkAt_eq] at ho
  split_ifs at ho
  rw [Option.or_eq_some_iff, Option.map_eq_some_iff] at ho
  refine ho.imp_right ?_
  rintro ⟨-, l, hfind, rfl⟩
  obtain rfl : l.target = r := by simpa using List.find?_some hfind
  have hmem := List.mem_of_find?_eq_some hfind
  simp only [sampleLinks, List.mem_cons, List.not_mem_nil, or_false] at hmem
  rcases hmem with rfl | rfl | rfl
  · exact ⟨rfl, Or.inr (Or.inl rfl)⟩
  · exact ⟨rfl, Or.inr (Or.inr rfl)⟩
  · exact ⟨rfl, Or.inl rfl⟩

theorem mem_dx {a : NodeId} (ha : a ∈ ids) :
    (a, CopyMap.copyId ids g.idBound a) ∈ CopyMap.numbered ids g.idBound :=
  (CopyMap.mem_numbered_iff h.nodup).mpr ⟨ha, rfl⟩

theorem mem_dy {a : NodeId} (ha : a ∈ ids) :
    (a, CopyMap.copyId ids g₁.idBound a) ∈ CopyMap.numbered ids g₁.idBound :=
  (CopyMap.mem_numbered_iff h.nodup).mpr ⟨ha, rfl⟩

theorem dx_lt {a : NodeId} (ha : a ∈ ids) : CopyMap.copyId ids g.idBound a < g₁.idBound :=
  h.dx.idBound_eq ▸ CopyMap.copyId_lt ha _

theorem dy_lt {a : NodeId} (ha : a ∈ ids) : CopyMap.copyId ids g₁.idBound a < g₂.idBound :=
  h.dy.idBound_eq ▸ CopyMap.copyId_lt ha _

/-- The source of the height and its copies have the same number, which is below that of the bump.
-/
theorem acyclic (hg : g.WellFormed) (hac : g.Acyclic) : g'.Acyclic := by
  have hs := hg.source_lt h.linked
  have hmem := h.source_mem hg
  have hb := h.dx.evolves.idBound_le
  obtain ⟨rank₀, hr₀⟩ := (hg.acyclic_iff_ranked).mp hac
  obtain ⟨rank₁, hold₁, hcopy₁, hr₁⟩ := h.dx.exists_ranked hg h.bounded hr₀
  obtain ⟨rank, hold, hcopy, hr⟩ := h.dy.exists_ranked h.dx.evolves.wellFormed h.bounded' hr₁
  have hsource : rank source.node = rank₀ source.node := by
    rw [hold _ (Nat.lt_of_lt_of_le hs hb), hold₁ _ hs]
  have hlt : rank source.node < rank id := by
    rw [hsource, hold _ (Nat.lt_of_lt_of_le h.id_lt hb), hold₁ _ h.id_lt]
    exact hr₀ _ _ (feeds_of_linkAt h.linked)
  refine (hr.of_links fun r o ho => (h.link_cases ho).imp_right ?_).acyclic
  rintro ⟨hrid, hsame | hdx | hdy⟩
  · rwa [hsame, hrid]
  · rwa [hdx, hold _ (h.dx_lt hmem), hcopy₁ _ (h.mem_dx hmem), ← hsource, hrid]
  · rwa [hdy, hcopy _ (h.mem_dy hmem), hold₁ _ hs, ← hsource, hrid]

/-- What a bump is linked to anew is of the kind of the source of its height. -/
theorem kind?_eq (hg : g.WellFormed) {c : NodeId}
    (hc : c = source.node ∨ c = CopyMap.copyId ids g.idBound source.node ∨
      c = CopyMap.copyId ids g₁.idBound source.node) : g'.kind? c = g.kind? source.node := by
  have hs := hg.source_lt h.linked
  have hmem := h.source_mem hg
  have h₁ := h.dx.evolves
  have h₂ := h.dy.evolves
  rcases hc with rfl | rfl | rfl
  · exact h.evolves.kind?_eq _ hs
  · rw [h.evolves'.kind?_eq _ (Nat.lt_of_lt_of_le (h.dx_lt hmem) h₂.idBound_le),
      h₂.kind?_eq _ (h.dx_lt hmem), h.dx.kind?_eq _ (h.mem_dx hmem) hs]
  · rw [h.evolves'.kind?_eq _ (h.dy_lt hmem),
      h.dy.kind?_eq _ (h.mem_dy hmem) (Nat.lt_of_lt_of_le hs h₁.idBound_le), h₁.kind?_eq _ hs]

end Samples

end Graph

namespace Edit

open Shading.Graph

variable {g g' : Graph}

/-! ### Copies and tags -/

theorem ends_copies (hg : g.WellFormed) (hm : g.finalized = false) {ids : NodeSet}
    (hids : ∀ id ∈ ids, id ∈ g.ids) :
    (copySubgraph ids).Ends g fun copies => g.Copies ids copies := by
  refine (meets_copySubgraph hg ids).ends ?_
  rintro _ ⟨-, hf | ⟨id, hid, hn⟩⟩
  · simp [hm] at hf
  · obtain ⟨k, hk⟩ := (g.mem_ids_iff_kind?).mp (hids id hid)
    simp [hk] at hn

theorem mem_ids_of_copies {ids : List NodeId} {copies : CopyMap} (h : g.Copies ids copies g')
    (hids : ∀ id ∈ ids, id ∈ g.ids) : ∀ a ∈ copiesOf copies, a ∈ g'.ids := by
  intro a ha
  obtain ⟨p, hp, rfl⟩ := List.mem_map.mp ha
  obtain ⟨k, hk⟩ := (g.mem_ids_iff_kind?).mp (hids _ (h.mem_originals hp))
  exact (g'.mem_ids_iff_kind?).mpr ⟨k, (h.kind?_eq p hp (g.lt_idBound_of_kind? hk)).trans hk⟩

/-- A copy has the outputs of its original. -/
theorem outputDecl?_copyId {ids : List NodeId} {copies : CopyMap} (h : g.Copies ids copies g')
    (hg : g.WellFormed) (hnd : ids.Nodup) {s : OutputRef} {e : OutputDecl} (hs : s.node ∈ ids)
    (he : g.outputDecl? s = some e) :
    g'.outputDecl? ⟨CopyMap.copyId ids g.idBound s.node, s.slot⟩ = some e := by
  have hp : (s.node, CopyMap.copyId ids g.idBound s.node) ∈ copies :=
    h.numbered ▸ (CopyMap.mem_numbered_iff hnd).mpr ⟨hs, rfl⟩
  obtain ⟨k, hk⟩ := g.kind?_of_outputDecl? he
  have hk' := (h.kind?_eq _ hp (g.lt_idBound_of_kind? hk)).trans hk
  exact (hg.outputDecl?_congr h.evolves.wellFormed hk hk' s.slot).trans he

theorem ends_tagSample (hg : g.WellFormed) {ids : List NodeId} (hids : ∀ id ∈ ids, id ∈ g.ids)
    (sample : BumpSample) (filterWidth : Binary32) :
    (tagSample sample filterWidth ids).Ends g fun _ g' => g' = g.tag sample filterWidth ids := by
  refine (ends_forM (fun rest g' => ∃ done, ids = done ++ rest ∧ g' = g.tag sample filterWidth done)
    ⟨[], rfl, (mapNodes_eq_self fun _ _ => by simp).symm⟩ ?_).mono ?_
  · rintro id rest _ ⟨done, hids', rfl⟩
    obtain ⟨k, hk⟩ := (g.mem_ids_iff_kind?).mp (hids id (by simp [hids']))
    rw [discard_bind]
    refine meets_ask_node_bind (fun n _ => ends_modify ⟨done ++ [id], by simp [hids'], ?_⟩)
      fun hnone => by simp [(trims_tag hg _ _ _).kind?_eq, hk] at hnone
    exact tag_snoc id
  · rintro _ _ ⟨done, hids', rfl⟩
    rw [hids', List.append_nil]

theorem ends_tagSamples (hg : g.WellFormed) {center dx dy : List NodeId}
    (hcenter : ∀ id ∈ center, id ∈ g.ids) (hdx : ∀ id ∈ dx, id ∈ g.ids)
    (hdy : ∀ id ∈ dy, id ∈ g.ids) (filterWidth : Binary32) :
    (tagSamples filterWidth center dx dy).Ends g fun _ g' =>
      g' = g.tagAll filterWidth center dx dy := by
  refine Ends.bind (ends_tagSample hg hcenter _ _) ?_
  rintro _ _ rfl
  have h₁ := trims_tag hg .center filterWidth center
  refine Ends.bind (ends_tagSample h₁.wellFormed (fun a ha => h₁.ids_eq ▸ hdx a ha) _ _) ?_
  rintro _ _ rfl
  have h₂ := trims_tag h₁.wellFormed .dx filterWidth dx
  exact ends_tagSample h₂.wellFormed (fun a ha => h₂.ids_eq ▸ h₁.ids_eq ▸ hdy a ha) _ _

theorem copyOf_eq {copies : CopyMap} {s : OutputRef} {c : NodeId}
    (h : copies.lookup s.node = some c) : copyOf copies s = pure ⟨c, s.slot⟩ := by
  rw [copyOf, h]

/-! ### The heights of bumps -/

/-- The height of a bump is replaced by three samples. Each of them comes from the source of the
height or from a copy of it. -/
theorem ends_refineBump (hg : g.WellFormed) (hm : g.finalized = false) {id : NodeId}
    {invert objectSpace : Bool} (hk : g.kind? id = some (.bump invert objectSpace)) (n : Node) :
    (refineBump id n).Ends g fun _ g' => g.linkAt ⟨id, 0⟩ = none ∧ g' = g ∨
      ∃ source ids g₁ g₂, g.Samples id source ids g₁ g₂ g' := by
  have hheight := hg.inputDecl?_eq hk 0
  refine ends_ask_bind (hg.inputRef_eq hk (i := 0) rfl) ?_
  refine ends_ask_bind ((g.linkOf_eq_ok).mpr ⟨by simp [hheight, NodeKind.inputDecls], rfl⟩) ?_
  cases hl : g.linkAt ⟨id, 0⟩ with
  | none => exact ends_pure (Or.inl ⟨rfl, rfl⟩)
  | some source =>
    obtain ⟨e, he⟩ := hg.exists_output hl
    obtain ⟨-, hty⟩ := hg.typed _ _ _ e hl hheight he
    have hcone : ∀ a ∈ g.cone source.node, a ∈ g.ids := fun _ => mem_ids_of_mem_cone
    have hsource := hg.mem_cone_source hl
    refine ends_ask_bind (dependencies_eq hl) ?_
    generalize hids : g.cone source.node = ids at hcone hsource
    have hnd : ids.Nodup := hids ▸ nodup_cone source.node
    refine Ends.bind (ends_copies hg hm hcone) fun dx g₁ h₁ => ?_
    have hg₁ := h₁.evolves.wellFormed
    have hcone₁ := fun a ha => h₁.evolves.ids_subset (hcone a ha)
    refine Ends.bind (ends_copies hg₁ (h₁.evolves.finalized.trans hm) hcone₁) fun dy g₂ h₂ => ?_
    have hg₂ := h₂.evolves.wellFormed
    obtain rfl := h₁.numbered
    obtain rfl := h₂.numbered
    have he₁ := h₁.evolves.outputDecl?_some hg he
    have hx := outputDecl?_copyId h₁ hg hnd hsource he
    have hy := outputDecl?_copyId h₂ hg₁ hnd hsource he₁
    refine Ends.bind (ends_tagSamples hg₂ (fun a ha => h₂.evolves.ids_subset (hcone₁ a ha))
      (fun a ha => h₂.evolves.ids_subset (mem_ids_of_copies h₁ hcone a ha))
      (mem_ids_of_copies h₂ hcone₁) _) ?_
    rintro _ g₃ hg₃
    have h₃ : g₂.Trims (fun _ => False) g₃ := hg₃ ▸ trims_tagAll hg₂ _ _ _ _
    have h₀₃ := (h₁.evolves.trans h₂.evolves).trans h₃.evolves
    have h₂₃ := h₂.evolves.trans h₃.evolves
    have hk₃ := h₀₃.kind?_some hk
    have hwf₃ := h₃.wellFormed
    have hm₃ := h₀₃.finalized.trans hm
    refine ends_ask_bind (hwf₃.inputRef_eq hk₃ (i := 2) rfl) ?_
    refine ends_ask_bind (hwf₃.inputRef_eq hk₃ (i := 3) rfl) ?_
    refine ends_ask_bind (hwf₃.inputRef_eq hk₃ (i := 1) rfl) ?_
    rw [copyOf_eq (CopyMap.lookup_numbered hnd hsource _), pure_bind, discard_bind]
    refine Ends.bind (ends_connect_offers (.refl hwf₃) hwf₃ hm₃ (h₂₃.outputDecl?_some hg₁ hx)
      (hwf₃.inputDecl?_eq hk₃ 2) hty rfl) fun _ g₄ h₄ => ?_
    rw [copyOf_eq (CopyMap.lookup_numbered hnd hsource _), pure_bind, discard_bind]
    refine Ends.bind (ends_connect_offers h₄ hwf₃ hm₃ (h₃.evolves.outputDecl?_some hg₂ hy)
      (hwf₃.inputDecl?_eq hk₃ 3) hty rfl) fun _ g₅ h₅ => ?_
    rw [discard_bind]
    refine Ends.bind (ends_connect_offers h₅ hwf₃ hm₃ (h₂₃.outputDecl?_some hg₁ he₁)
      (hwf₃.inputDecl?_eq hk₃ 1) hty rfl) fun _ g₆ h₆ => ?_
    -- the height stays linked while the samples are
    have hl₆ : g₆.linkAt ⟨id, 0⟩ = some source := by
      rw [h₆.linkAt_of_not_mem (by simp), h₀₃.linkAt_eq _ (g.lt_idBound_of_kind? hk) not_false, hl]
    refine (ends_disconnectInput_unlink (h₆.evolves.finalized.trans hm₃) hl₆).mono fun _ g₇ h₇ => ?_
    exact Or.inr ⟨source, ids, g₁, g₂, hl, hids.symm, h₁, h₂, _, g₆, hg₃ ▸ h₆, h₇⟩

/-- A loop over the bumps of a graph. The invariant is told which nodes remain. -/
theorem ends_refineBumps_of {I : List NodeId → Graph → Prop} (hg : g.WellFormed)
    (hm : g.finalized = false) (hI : I g.ids g)
    (skip : ∀ id rest g', I (id :: rest) g' → (g'.IsBump id → g'.linkAt ⟨id, 0⟩ = none) → I rest g')
    (step : ∀ id rest source ids g' g₁ g₂ g'', g.Evolves (fun r => g.IsBump r.node) g' →
      g.IsBump id → I (id :: rest) g' → g'.Samples id source ids g₁ g₂ g'' → I rest g'') :
    refineBumps.Ends g fun _ g' => g.Evolves (fun r => g.IsBump r.node) g' ∧ I [] g' := by
  refine ends_get_bind ((ends_forM (fun rest g' => (∀ id ∈ rest, id ∈ g.ids) ∧
    g.Evolves (fun r => g.IsBump r.node) g' ∧ I rest g') ⟨fun _ h => h, .refl hg, hI⟩ ?_).mono
      fun _ _ h => h.2)
  rintro id rest g₁ ⟨hids, h₁, hI₁⟩
  have hid := hids id List.mem_cons_self
  have hrest : ∀ id ∈ rest, id ∈ g.ids := fun a ha => hids a (List.mem_cons_of_mem id ha)
  obtain ⟨k, hk⟩ := (g.mem_ids_iff_kind?).mp hid
  have hk₁ := h₁.kind?_some hk
  refine meets_ask_node_bind (fun n hn => ?_) fun hnone => by simp [hnone] at hk₁
  have hkn : g₁.kind? id = some n.kind := by simp [kind?, hn]
  split_ifs with hrole
  · obtain ⟨invert, objectSpace, hkind⟩ := NodeKind.exists_eq_bump hrole
    rw [hkind] at hkn
    have hbump : g.IsBump id := ⟨_, _, (h₁.kind?_eq id (g.lt_idBound_of_mem hid)).symm.trans hkn⟩
    refine (ends_refineBump h₁.wellFormed (h₁.finalized.trans hm) hkn n).mono ?_
    rintro _ g₂ (⟨hfree, rfl⟩ | ⟨source, ids, g', g'', h⟩)
    · exact ⟨hrest, h₁, skip id rest g₂ hI₁ fun _ => hfree⟩
    · exact ⟨hrest, h₁.trans (h.evolves.mono fun _ hr => hr ▸ hbump),
        step _ _ _ _ _ _ _ _ h₁ hbump hI₁ h⟩
  · refine ends_pure ⟨hrest, h₁, skip id rest g₁ hI₁ ?_⟩
    rintro ⟨invert, objectSpace, hbump⟩
    rw [hkn, Option.some.injEq] at hbump
    exact absurd (by rw [Node.role, hbump]; rfl) hrole

/-- The heights of all bumps are split without a cycle. Only inputs of bumps change. -/
theorem ends_refineBumps (hg : g.WellFormed) (hm : g.finalized = false) (hac : g.Acyclic) :
    refineBumps.Ends g fun _ g' => g.Evolves (fun r => g.IsBump r.node) g' ∧ g'.Acyclic :=
  ends_refineBumps_of (I := fun _ => Acyclic) hg hm hac (fun _ _ _ h _ => h)
    fun _ _ _ _ _ _ _ _ hg' _ hac' h => h.acyclic hg'.wellFormed hac'

end Edit

end Shading
