import Shading.Proofs.ClosureWeight

/-!
# Flattening of closures

Flattening walks down a tree of mixes and sums, and gives each closure at its leaves a weight that
depends on the factors of the mixes above it. So the input that takes the weight gets, as new
origins, the nodes that feed these factors. `Graph.leaves` lists what is reached in this way, and
`spreads_spreadWeight` says that nothing else is linked anew.

Whether the flattened graph has a cycle can be told from the graph before, where the factors count
as feeding the closures (`Graph.FeedsWeighted`). -/

namespace Shading

open Shading.Graph Relation

namespace Graph

/-- The node that feeds an input, if there is one. -/
def feedersAt (g : Graph) (r : InputRef) : List NodeId := (g.linkAt r).toList.map (·.node)

/-! ### The leaves of a closure tree -/

/-- A closure that a tree of mixes and sums leads to: the input that takes its weight, and the nodes
that feed the factors of the mixes above it. -/
structure Leaf where
  target : InputRef
  factors : List NodeId

/-- The leaves below a node in the order in which they are reached. `combines` are the nodes that
may still be entered as mixes or sums, and `factors` belong to the mixes above the node. -/
def leaves (g : Graph) (volume : Bool) (combines : List NodeId) (id : NodeId)
    (factors : List NodeId) : List Leaf :=
  match g.node? id with
  | none => []
  | some n =>
    if n.role = .combineClosure then
      if h : id ∈ combines then
        have := length_erase_lt h
        let below (link : Option OutputRef) : List Leaf :=
          link.toList.flatMap fun o => leaves g volume (combines.erase id) o.node
            ((n.link? "Fac").toList.map (·.node) ++ factors)
        below (n.link? "Closure1") ++ below (n.link? "Closure2")
      else []
    else (n.weightSlot? volume).toList.map fun slot => ⟨⟨id, slot⟩, factors⟩
termination_by combines.length

/-- What feeds the inputs once a leaf has got its weight. A weight adds to what was there, but it
takes the place of a closure. -/
def receive (g : Graph) (feeders : InputRef → List NodeId) (leaf : Leaf) : InputRef → List NodeId :=
  Function.update feeders leaf.target (leaf.factors ++
    if (g.inputDecl? leaf.target).any (·.type = .closure) then [] else feeders leaf.target)

/-- The leaves of the closure tree behind the surface or the volume of the output. -/
def outputLeaves (g : Graph) (volume : Bool) : List Leaf :=
  match g.linkAt ⟨outputId, if volume then 1 else 0⟩ with
  | some root => g.leaves volume g.ids root.node []
  | none => []

/-- All closures behind the output. -/
def closureLeaves (g : Graph) : List Leaf := g.outputLeaves false ++ g.outputLeaves true

/-- What feeds the inputs once all closures behind the output have got their weights. -/
def weightedFeeders (g : Graph) : InputRef → List NodeId :=
  g.closureLeaves.foldl g.receive g.feedersAt

/-- The node `a` feeds the node `b`, be it by a link or as a factor in the weight of `b`. -/
def FeedsWeighted (g : Graph) (a b : NodeId) : Prop := ∃ slot, a ∈ g.weightedFeeders ⟨b, slot⟩

variable {g : Graph}

/-- An input is fed by its link or by a factor. -/
theorem mem_foldl_receive {leaves : List Leaf} {feeders : InputRef → List NodeId} {r : InputRef}
    {a : NodeId} (h : a ∈ leaves.foldl g.receive feeders r) :
    a ∈ feeders r ∨ ∃ leaf ∈ leaves, leaf.target = r ∧ a ∈ leaf.factors := by
  induction leaves generalizing feeders with
  | nil => exact Or.inl h
  | cons leaf leaves ih =>
    rcases ih h with h | ⟨leaf', hmem, hleaf⟩
    · by_cases hr : r = leaf.target
      · rw [hr, receive, Function.update_self, List.mem_append] at h
        rcases h with h | h
        · exact Or.inr ⟨leaf, List.mem_cons_self, hr.symm, h⟩
        · split_ifs at h
          · simp at h
          · exact Or.inl (hr ▸ h)
      · rw [receive, Function.update_of_ne hr] at h
        exact Or.inl h
    · exact Or.inr ⟨leaf', List.mem_cons_of_mem leaf hmem, hleaf⟩

theorem FeedsWeighted.link_or_factor {a b : NodeId} (h : g.FeedsWeighted a b) :
    g.Feeds a b ∨ ∃ leaf ∈ g.closureLeaves, leaf.target.node = b ∧ a ∈ leaf.factors := by
  obtain ⟨slot, h⟩ := h
  rcases mem_foldl_receive h with h | ⟨leaf, hmem, hleaf, ha⟩
  · obtain ⟨o, ho, rfl⟩ := List.mem_map.mp h
    exact Or.inl ⟨_, o, Option.mem_toList.mp ho, rfl, rfl⟩
  · exact Or.inr ⟨leaf, hmem, by rw [hleaf], ha⟩

/-- The node depends on a closure that gets a weight, or it is one. -/
def DependsOnClosure (g : Graph) (id : NodeId) : Prop :=
  ∃ leaf ∈ g.closureLeaves, ReflTransGen g.Feeds leaf.target.node id

/-- No factor in a weight depends on a closure that gets a weight. -/
def FactorsApart (g : Graph) : Prop :=
  ∀ leaf ∈ g.closureLeaves, ∀ a ∈ leaf.factors, ¬ g.DependsOnClosure a

/-- The nodes that depend on a closure are entered by each factor and never left again. So no way
leads around through a factor. -/
theorem FactorsApart.not_transGen (h : g.FactorsApart) (hac : g.Acyclic) (id : NodeId) :
    ¬ TransGen g.FeedsWeighted id id := by
  have hstep : ∀ a b, g.FeedsWeighted a b →
      g.Feeds a b ∨ ¬ g.DependsOnClosure a ∧ g.DependsOnClosure b := by
    intro a b hab
    refine hab.link_or_factor.imp_right ?_
    rintro ⟨leaf, hleaf, rfl, ha⟩
    exact ⟨h leaf hleaf a ha, leaf, hleaf, .refl⟩
  have hpath : ∀ b, TransGen g.FeedsWeighted id b →
      TransGen g.Feeds id b ∨ ¬ g.DependsOnClosure id ∧ g.DependsOnClosure b := by
    intro b hb
    induction hb with
    | single hab => exact (hstep _ _ hab).imp_left .single
    | @tail b c _ hbc ih =>
      rcases ih with hb | ⟨hid, leaf, hleaf, hb⟩ <;> rcases hstep _ _ hbc with hbc | ⟨hnb, hc⟩
      · exact Or.inl (hb.tail hbc)
      · exact Or.inr ⟨fun ⟨leaf, hleaf, hd⟩ => hnb ⟨leaf, hleaf, hd.trans hb.to_reflTransGen⟩, hc⟩
      · exact Or.inr ⟨hid, leaf, hleaf, hb.tail hbc⟩
      · exact absurd ⟨leaf, hleaf, hb⟩ hnb
  intro hid
  rcases hpath id hid with hid | ⟨hn, hd⟩
  · exact hac id hid
  · exact hn hd

/-! ### Descending -/

/-- The node behind the first or the second closure of a mix or a sum. -/
def branch? (g : Graph) (x : NodeId) (second : Bool) : Option NodeId :=
  (g.kind? x).bind fun k => (k.branchSlot? second).bind fun slot =>
    (g.linkAt ⟨x, slot⟩).map (·.node)

/-- The node `a` is a mix or a sum, and `b` is one of its closures. -/
def Branches (g : Graph) (a b : NodeId) : Prop := ∃ second, g.branch? a second = some b

/-- No way down from a node along mixes and sums leads around. -/
def Untangled (g : Graph) (id : NodeId) : Prop :=
  ∀ x, ReflTransGen g.Branches id x → ¬ TransGen g.Branches x x

/-- All nodes on the way down from a node are in a list. -/
def CoversBelow (g : Graph) (id : NodeId) (l : List NodeId) : Prop :=
  ∀ x ∈ g.ids, ReflTransGen g.Branches id x → x ∈ l

theorem branch?_eq {x : NodeId} {k : NodeKind} (hk : g.kind? x = some k) {second : Bool}
    {slot : Nat} (hs : k.branchSlot? second = some slot) :
    g.branch? x second = (g.linkAt ⟨x, slot⟩).map (·.node) := by
  rw [branch?, hk, Option.bind_some, hs, Option.bind_some]

theorem Branches.feeds {a b : NodeId} (h : g.Branches a b) : g.Feeds b a := by
  obtain ⟨second, h⟩ := h
  obtain ⟨k, -, h⟩ := Option.bind_eq_some_iff.mp h
  obtain ⟨slot, -, h⟩ := Option.bind_eq_some_iff.mp h
  obtain ⟨o, ho, rfl⟩ := Option.map_eq_some_iff.mp h
  exact ⟨_, o, ho, rfl, rfl⟩

theorem Acyclic.untangled (h : g.Acyclic) (id : NodeId) : g.Untangled id := by
  intro x _ hx
  have hle : g.Branches ≤ Function.swap g.Feeds := fun _ _ hab => hab.feeds
  exact h x (transGen_swap.mp (TransGen.mono hle x x hx))

theorem Untangled.branch {id o : NodeId} (h : g.Untangled id) (ho : g.Branches id o) :
    g.Untangled o := fun x hx => h x (hx.head ho)

theorem CoversBelow.erase {id o : NodeId} {l : List NodeId} (h : g.CoversBelow id l)
    (hid : g.Untangled id) (ho : g.Branches id o) : g.CoversBelow o (l.erase id) := by
  intro x hx hox
  refine (List.mem_erase_of_ne ?_).mpr (h x hx (hox.head ho))
  rintro rfl
  exact hid x .refl (TransGen.head' ho hox)

end Graph

namespace Edit

variable {g : Graph} {O : NodeId → Set NodeId}

/-! ### Giving weights -/

/-- `g` has come from `b` by giving weights to closures, and `feeders` are the nodes of `b` from
which the inputs are fed by now. -/
structure Flattening (b : Graph) (O : NodeId → Set NodeId) (feeders : InputRef → List NodeId)
    (g : Graph) : Prop where
  evolves : b.Evolves b.IsWeight g
  traced : g.Traced b.idBound O
  mem_iff : ∀ r a, a ∈ feeders r ↔ r.node < b.idBound ∧ a ∈ g.inflow O r

theorem Flattening.addLeaf {b g' : Graph} {O' : NodeId → Set NodeId}
    {feeders : InputRef → List NodeId} (h : Flattening b O feeders g)
    {leaf : Leaf} (hw : b.IsWeight leaf.target) {d : InputDecl}
    (hd : b.inputDecl? leaf.target = some d)
    (h' : g.Traces b.idBound O O' (· = leaf.target) g')
    (hin : g'.inflow O' leaf.target =
      (if d.type = .closure then ∅ else g.inflow O leaf.target) ∪ {a | a ∈ leaf.factors}) :
    Flattening b O' (b.receive feeders leaf) g' := by
  refine ⟨h.evolves.trans (h'.evolves.mono fun r hr => hr ▸ hw), h'.traced, fun r a => ?_⟩
  by_cases hr : r = leaf.target
  · have hlt := node_lt_of_inputDecl? hd
    rw [hr, receive, Function.update_self, hin, hd]
    simp only [Option.any_some, decide_eq_true_eq, List.mem_append, Set.mem_union, Set.mem_ofPred_eq]
    split_ifs with hc
    · simp [hlt]
    · simp [hlt, h.mem_iff leaf.target a, or_comm]
  · rw [receive, Function.update_of_ne hr, h.mem_iff r a]
    refine and_congr_right fun hlt => ?_
    rw [h'.inflow_eq h.evolves.wellFormed (Nat.lt_of_lt_of_le hlt h.evolves.idBound_le) hr]

theorem Flattening.traces {b g' : Graph} {O' : NodeId → Set NodeId}
    {feeders : InputRef → List NodeId} (h : Flattening b O feeders g)
    (h' : g.Traces b.idBound O O' (fun _ => False) g') : Flattening b O' feeders g' := by
  refine ⟨h.evolves.trans h'.evolves.widen, h'.traced, fun r a => ?_⟩
  rw [h.mem_iff r a]
  refine and_congr_right fun hlt => ?_
  rw [h'.inflow_eq h.evolves.wellFormed (Nat.lt_of_lt_of_le hlt h.evolves.idBound_le) not_false]

/-- An input that takes no weight is fed as at the start. -/
theorem Flattening.inflow_eq {b : Graph} {feeders : InputRef → List NodeId}
    (h : Flattening b O feeders g) (hb : b.WellFormed) {r : InputRef} (hr : r.node < b.idBound)
    (hw : ¬ b.IsWeight r) : g.inflow O r = {a | a ∈ b.feedersAt r} := by
  have hl := h.evolves.linkAt_eq r hr hw
  rw [feedersAt]
  cases ho : b.linkAt r with
  | none => simp [inflow_of_free (hl.trans ho)]
  | some o =>
    have hlt := b.lt_idBound_of_mem (hb.mem_ids_of_feeds ⟨r, o, ho, rfl, rfl⟩).1
    ext a
    simp [inflow_of_linkAt (hl.trans ho), h.traced.node _ hlt]

/-- Whether there is a cycle by now can be told from the nodes that were there at the start. -/
theorem Flattening.acyclic_iff {b : Graph} {feeders : InputRef → List NodeId}
    (h : Flattening b O feeders g) :
    g.Acyclic ↔ ∀ id, ¬ TransGen (fun a c => ∃ slot, a ∈ feeders ⟨c, slot⟩) id id := by
  have hrel : g.Contracted b.idBound O = fun a c => ∃ slot, a ∈ feeders ⟨c, slot⟩ := by
    funext a c
    simp only [Contracted, h.mem_iff, exists_and_left]
  rw [h.traced.acyclic_iff, hrel]

/-- The edit spreads a weight over some leaves, where `factors` feed the weight. -/
def Spreads (b : Graph) (leaves : List Leaf) (factors : List NodeId)
    (e : Option OutputRef → Edit Unit) : Prop :=
  ∀ g O feeders weight, Flattening b O feeders g → Carries g O {a | a ∈ factors} weight →
    (e weight).Ends g fun _ g' => ∃ O', Flattening b O' (leaves.foldl b.receive feeders) g' ∧
      g.Traces b.idBound O O' b.IsWeight g'

section

variable {b : Graph} {leaves leaves' : List Leaf} {factors : List NodeId}

theorem spreads_pure : Spreads b [] factors fun _ => pure () := fun _ _ _ _ h _ =>
  ends_pure ⟨_, h, .refl h.evolves.wellFormed, h.traced, fun _ _ => rfl⟩

/-- The two branches of a mix or a sum, one after the other. -/
theorem Spreads.both {e e' : Option OutputRef → Edit Unit} (he : Spreads b leaves factors e)
    (he' : Spreads b leaves' factors e') {feeders : InputRef → List NodeId}
    {weight weight' : Option OutputRef} (h : Flattening b O feeders g)
    (hw : Carries g O {a | a ∈ factors} weight) (hw' : Carries g O {a | a ∈ factors} weight') :
    (do e weight; e' weight').Ends g fun _ g' => ∃ O',
      Flattening b O' ((leaves ++ leaves').foldl b.receive feeders) g' ∧
        g.Traces b.idBound O O' b.IsWeight g' := by
  refine Ends.bind (he g O feeders weight h hw) ?_
  rintro _ g₁ ⟨O₁, h₁, ht₁⟩
  refine (he' g₁ O₁ _ weight' h₁ (hw'.evolves h.evolves.wellFormed ht₁)).mono ?_
  rintro _ g₂ ⟨O₂, h₂, ht₂⟩
  rw [List.foldl_append]
  exact ⟨O₂, h₂, ht₁.trans ht₂ fun _ => Or.inl⟩

theorem spreads_addLeafWeight (hb : b.WellFormed) (hm : b.finalized = false) {id : NodeId}
    {n : Node} (hn : b.node? id = some n) (volume : Bool) :
    Spreads b ((n.weightSlot? volume).toList.map fun slot => ⟨⟨id, slot⟩, factors⟩) factors
      (addLeafWeight volume id) := by
  intro g O feeders weight h hw
  have hk : b.kind? id = some n.kind := by simp [kind?, hn]
  have hkg := h.evolves.kind?_some hk
  have hg := h.evolves.wellFormed
  rw [hb.weightSlot?_eq hn]
  cases hi : n.kind.weightSlot? volume with
  | none =>
    refine meets_ask_node_bind (fun m hm => ?_) fun hnone => by simp [hnone] at hkg
    have hmk : m.kind = n.kind := by simpa [kind?, hm] using hkg
    rw [hg.weightSlot?_eq hm, hmk, hi]
    exact spreads_pure g O feeders weight h hw
  | some i =>
    obtain ⟨d, hd⟩ := hb.exists_inputDecl? hk hi
    have hweight : b.IsWeight ⟨id, i⟩ := ⟨_, volume, hk, hi⟩
    refine (ends_addLeafWeight hg (h.evolves.finalized.trans hm) h.traced h.evolves.idBound_le
      (b.lt_idBound_of_kind? hk) hkg hi (h.evolves.inputDecl?_some hb hd) hw).mono ?_
    rintro _ g' ⟨O', ht, hin⟩
    have h' : Flattening b O' (b.receive feeders ⟨⟨id, i⟩, factors⟩) g' :=
      h.addLeaf hweight hd ht hin
    exact ⟨O', h', ht.mono fun r hr => hr ▸ hweight⟩

end

/-- **Spreading a weight.** It ends, since no node is met again further down, and the leaves below
the node are what gets new links. -/
theorem spreads_spreadWeight {b : Graph} (hb : b.WellFormed) (hm : b.finalized = false)
    {volume : Bool} {combines combines' factors : List NodeId} {id : NodeId} (hid : id ∈ b.ids)
    (hac : b.Untangled id) (hc : b.CoversBelow id combines) (hc' : b.CoversBelow id combines') :
    Spreads b (b.leaves volume combines' id factors) factors (spreadWeight volume combines id) := by
  intro g O feeders weight h hw
  have hg := h.evolves.wellFormed
  obtain ⟨k, hk⟩ := (b.mem_ids_iff_kind?).mp hid
  have hkg := h.evolves.kind?_some hk
  have hlt := b.lt_idBound_of_kind? hk
  obtain ⟨nb, hnb, hnbk⟩ := Option.map_eq_some_iff.mp hk
  rw [spreadWeight.eq_def, leaves.eq_def, hnb]
  refine meets_ask_node_bind (fun n hn => ?_) fun hnone => by simp [hnone] at hkg
  have hnk : n.kind = k := by simpa [kind?, hn] using hkg
  have hrole : n.role = nb.role := by rw [Node.role, Node.role, hnk, hnbk]
  have hmem := hc id hid .refl
  have hmem' := hc' id hid .refl
  rw [hrole]
  dsimp only
  split_ifs with hcomb
  · have hnw : ∀ i, ¬ b.IsWeight ⟨id, i⟩ := fun i => not_isWeight hk (Or.inl (hnbk ▸ hcomb))
    have hkeep : ∀ i, g.linkAt ⟨id, i⟩ = b.linkAt ⟨id, i⟩ := fun i =>
      h.evolves.linkAt_eq _ hlt (hnw i)
    -- the way down does not come back to the node, so it is no longer needed there
    have hbelow : ∀ F second i, k.branchSlot? second = some i → Spreads b
        ((b.linkAt ⟨id, i⟩).toList.flatMap fun o => b.leaves volume (combines'.erase id) o.node F) F
          fun w => (b.linkAt ⟨id, i⟩).forM fun o =>
            spreadWeight volume (combines.erase id) o.node w := by
      intro F second i hi
      cases hl : b.linkAt ⟨id, i⟩ with
      | none => exact spreads_pure
      | some o =>
        have hshort := length_erase_lt hmem
        have ho : b.Branches id o.node := ⟨second, by rw [branch?_eq hk hi, hl]; rfl⟩
        rw [Option.toList_some, List.flatMap_singleton]
        exact spreads_spreadWeight hb hm (hb.mem_ids_of_feeds ho.feeds).1 (hac.branch ho)
          (hc.erase hac ho) (hc'.erase hac ho)
    rcases NodeKind.mix_or_add hcomb with hmix | hadd
    · rw [hmix] at hnbk
      subst hnbk
      refine ends_ask_bind (hg.linkOf_inputRef_eq hkg (i := 1) rfl) ?_
      refine ends_ask_bind (hg.linkOf_inputRef_eq hkg (i := 2) rfl) ?_
      have hfac : nb.link? "Fac" = b.linkAt ⟨id, 0⟩ := hb.link?_eq hnb (hmix ▸ rfl)
      have hleft : nb.link? "Closure1" = b.linkAt ⟨id, 1⟩ := hb.link?_eq hnb (hmix ▸ rfl)
      have hright : nb.link? "Closure2" = b.linkAt ⟨id, 2⟩ := hb.link?_eq hnb (hmix ▸ rfl)
      rw [n.inputSlot?_eq_layout, hg.laidOut id n hn, hnk, hkeep, hkeep, hfac, hleft, hright,
        show NodeKind.mixClosure.layout.inputSlot? "Fac" = some 0 from rfl]
      have hF : g.inflow O ⟨id, 0⟩ ∪ {a | a ∈ factors} = {a | a ∈ b.feedersAt ⟨id, 0⟩ ++ factors} := by
        ext a
        simp [h.inflow_eq hb hlt (hnw 0)]
      refine Ends.bind (ends_splitWeight hg (h.evolves.finalized.trans hm) h.traced
        h.evolves.idBound_le (hg.inputDecl?_eq hkg 0) rfl hw) ?_
      rintro ⟨w₁, w₂⟩ g₁ ⟨O₁, ht₁, hw₁, hw₂⟩
      rw [hF] at hw₁ hw₂
      refine ((hbelow _ false 1 rfl).both (hbelow _ true 2 rfl) (h.traces ht₁) hw₁ hw₂).mono ?_
      rintro _ g₂ ⟨O₂, h₂, ht₂⟩
      exact ⟨O₂, h₂, (ht₁.mono fun _ => False.elim).trans ht₂ fun _ => Or.inl⟩
    · rw [hadd] at hnbk
      subst hnbk
      refine ends_ask_bind (hg.linkOf_inputRef_eq hkg (i := 0) rfl) ?_
      refine ends_ask_bind (hg.linkOf_inputRef_eq hkg (i := 1) rfl) ?_
      have hfac : nb.link? "Fac" = none := hb.link?_eq_none hnb (hadd ▸ rfl)
      have hleft : nb.link? "Closure1" = b.linkAt ⟨id, 0⟩ := hb.link?_eq hnb (hadd ▸ rfl)
      have hright : nb.link? "Closure2" = b.linkAt ⟨id, 1⟩ := hb.link?_eq hnb (hadd ▸ rfl)
      rw [n.inputSlot?_eq_layout, hg.laidOut id n hn, hnk, hkeep, hkeep, hfac, hleft, hright,
        show NodeKind.addClosure.layout.inputSlot? "Fac" = none from rfl]
      exact (hbelow _ false 0 rfl).both (hbelow _ true 1 rfl) h hw hw
  · exact spreads_addLeafWeight hb hm hnb volume g O feeders weight h hw
termination_by combines.length

/-- Before any weight is given, the origins of a node are the node itself. -/
theorem exists_flattening (hg : g.WellFormed) : ∃ O, Flattening g O g.feedersAt g := by
  have htraced : g.Traced g.idBound fun a => {c | c = a ∧ a < g.idBound} := by
    refine ⟨fun a ha => ?_, fun x hx a => ?_, fun _ => 0, fun r o ho hr => ?_⟩
    · ext c
      simp [ha]
    · have hfree : ∀ slot, g.linkAt ⟨x, slot⟩ = none := fun slot => linkAt_of_idBound_le hx
      simp [inflow, hfree, Nat.not_lt.mpr hx]
    · simp [linkAt_of_idBound_le hr] at ho
  refine ⟨_, .refl hg, htraced, fun r a => ?_⟩
  rw [feedersAt]
  cases hl : g.linkAt r with
  | none => simp [inflow_of_free hl]
  | some o =>
    obtain ⟨ho, hr⟩ := hg.mem_ids_of_feeds ⟨r, o, hl, rfl, rfl⟩
    simp [inflow_of_linkAt hl, g.lt_idBound_of_mem ho, g.lt_idBound_of_mem hr]

end Edit

end Shading
