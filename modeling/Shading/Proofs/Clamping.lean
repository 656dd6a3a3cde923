import Shading.Proofs.Simplified

/-!
# Clamped results

The result of a clamped operation must not be used except through a clamp. A node is *guarded* if
everything that it feeds is the value of a clamp (`Graph.Guarded`), and the law is that all clamped
operations are guarded (`Graph.Clamped`).

Expanding a graph establishes the law for the operations that have not been expanded before, and it
relies on it for all others: it does not look at these again. Every later pass keeps the law. Links
are moved up past no clamp, a merged or copied node is of the kind of its twin or original, and all
other links come from nodes that are no operations.

What is said of one round of the expansion (`Graph.ExpandedUpTo`) also tells that two rounds expand
all nodes (`Edit.ends_expandNodes_expanded`). -/

namespace Shading

open Relation

namespace Graph

/-- Everything that a node feeds is the value of a clamp. -/
def Guarded (g : Graph) (x : NodeId) : Prop :=
  ∀ r o, g.linkAt r = some o → o.node = x → g.IsClamp r.node ∧ r.slot = 0

/-- All clamped operations are guarded. -/
def Clamped (g : Graph) : Prop := ∀ x, g.IsClampedMath x → g.Guarded x

/-- All clamped operations that have been expanded are guarded. -/
def ExpandedClamped (g : Graph) : Prop := ∀ x, g.IsClampedMath x → g.IsExpanded x → g.Guarded x

/-- All consumers of the result of an operation, which is its only output, are the values of clamps,
which are their first inputs. -/
def ResultClamped (g : Graph) (x : NodeId) : Prop :=
  ∀ r ∈ g.fanOut ⟨x, 0⟩, g.IsClamp r.node ∧ r.slot = 0

variable {g g' : Graph} {x : NodeId}

/-- An operation has one output. -/
theorem guarded_iff_resultClamped (hg : g.WellFormed) (hx : g.IsClampedMath x) :
    g.Guarded x ↔ g.ResultClamped x := by
  obtain ⟨op, hk⟩ := hx
  constructor
  · intro h r hr
    exact h r _ ((hg.link_iff r _).mpr hr) rfl
  · intro h r o ho hox
    obtain rfl : o = ⟨x, 0⟩ := hg.eq_of_single_output hk rfl ho hox
    exact h r ((hg.link_iff r _).mp ho)

theorem Evolves.isClamp {T : InputRef → Prop} (h : g.Evolves T g') (hx : g.IsClamp x) :
    g'.IsClamp x := by
  obtain ⟨mode, hk⟩ := hx
  exact ⟨mode, h.kind?_some hk⟩

/-- The law is kept if every link of a clamped operation is modelled on one that was there before,
between nodes of the same kinds. -/
theorem Clamped.of_links (h : g.Clamped)
    (hl : ∀ r o, g'.linkAt r = some o → g'.IsClampedMath o.node → ∃ r' o', g.linkAt r' = some o' ∧
      g.kind? o'.node = g'.kind? o.node ∧ g.kind? r'.node = g'.kind? r.node ∧ r'.slot = r.slot) :
    g'.Clamped := by
  rintro _ hx r o ho rfl
  obtain ⟨r', o', ho', hko, hkr, hslot⟩ := hl r o ho hx
  obtain ⟨hclamp, h0⟩ := h o'.node (by rwa [IsClampedMath, hko]) r' o' ho' rfl
  exact ⟨by rwa [IsClamp, hkr] at hclamp, hslot ▸ h0⟩

/-! ### Links that are cut and moved -/

theorem Trims.guarded {T : InputRef → Prop} (h : g.Trims T g') (hx : g.Guarded x) :
    g'.Guarded x := by
  intro r o ho hox
  obtain ⟨hclamp, h0⟩ := hx r o (h.linkAt_some ho).1 hox
  exact ⟨h.evolves.isClamp hclamp, h0⟩

/-- A guarded node relays its result to nothing, so no link is moved up to it. -/
theorem Guarded.eq_of_relays (hx : g.Guarded x) {y : NodeId} (h : ReflTransGen g.Relays x y) :
    y = x := by
  rcases ReflTransGen.cases_head h with heq | ⟨_, ⟨⟨r, o, ho, hox, rfl⟩, hclamp⟩, -⟩
  · exact heq.symm
  · exact absurd (hx r o ho hox).1 hclamp

theorem Shortens.guarded {T : InputRef → Prop} {N : Prop} (h : g.Shortens T N g')
    (hlt : x < g.idBound) (hx : g.Guarded x) : g'.Guarded x := by
  rintro r s hs rfl
  obtain ⟨o, ho, hp | ⟨-, hle, -⟩⟩ := h.moved r s hs
  · obtain ⟨hclamp, h0⟩ := hx r o ho (hx.eq_of_relays hp)
    exact ⟨h.evolves.isClamp hclamp, h0⟩
  · exact absurd hlt (Nat.not_lt.mpr hle)

theorem Shortens.clamped {T : InputRef → Prop} {N : Prop} (h : g.Shortens T N g')
    (hg : g.WellFormed) (hc : g.Clamped) : g'.Clamped := by
  rintro _ hx r s hs rfl
  obtain ⟨o, ho, hp | ⟨-, -, hgeometry⟩⟩ := h.moved r s hs
  · have hlt : s.node < g.idBound := by
      rcases ReflTransGen.cases_head hp with heq | ⟨_, hab, -⟩
      · exact heq ▸ hg.source_lt ho
      · exact g.lt_idBound_of_mem (hg.mem_ids_of_feeds hab.1).1
    have hx' : g.IsClampedMath s.node := by rwa [IsClampedMath, ← h.evolves.kind?_eq _ hlt]
    exact h.guarded hlt (hc s.node hx') r s hs rfl
  · obtain ⟨op, hk⟩ := hx
    cases hgeometry.symm.trans hk

theorem Removes.guarded {ids : List NodeId} (h : g.Removes ids g') (hx : g.Guarded x) :
    g'.Guarded x := by
  intro r o ho hox
  obtain ⟨ho', hr, -⟩ := (h.linkAt_iff r o).mp ho
  obtain ⟨⟨mode, hk⟩, h0⟩ := hx r o ho' hox
  exact ⟨⟨mode, by rw [h.kind?_eq, if_neg hr, hk]⟩, h0⟩

theorem Tidies.clamped {U : NodeId → Prop} (h : g.Tidies U g') (hc : g.Clamped) : g'.Clamped := by
  refine hc.of_links fun r o ho _ => ?_
  obtain ⟨o', ho', hk⟩ := h.same_kind r o ho
  have hlt : r.node < g.idBound := node_lt_of_linkAt (by simp [ho'])
  exact ⟨r, o', ho', hk.symm, (h.grows.kind?_eq _ hlt).symm, rfl⟩

theorem Prunes.clamped (h : g.Prunes g') (hc : g.Clamped) : g'.Clamped := by
  have hkind : ∀ {y}, y ∈ g'.ids → g.kind? y = g'.kind? y := by
    intro y hy
    obtain ⟨k, hk⟩ := (g'.mem_ids_iff_kind?).mp hy
    rw [hk, h.kind?_some y k hk]
  refine hc.of_links fun r o ho _ => ⟨r, o, h.linkAt_some r o ho, ?_, ?_, rfl⟩
  · exact hkind (h.wellFormed.mem_ids_of_feeds (feeds_of_linkAt ho)).1
  · exact hkind (h.wellFormed.mem_ids_of_feeds (feeds_of_linkAt ho)).2

/-! ### Links of new nodes -/

/-- The law is kept if every link is an old one, or comes from a new node that is no operation. -/
theorem Clamped.of_fresh {T : InputRef → Prop} (hc : g.Clamped) (hg : g.WellFormed)
    (h : g.Evolves T g')
    (hl : ∀ r o, g'.linkAt r = some o → g.linkAt r = some o ∨ g.idBound ≤ o.node)
    (hnew : ∀ x op clamped, g.idBound ≤ x → g'.kind? x ≠ some (.math op clamped)) : g'.Clamped := by
  refine hc.of_links fun r o ho hx => ?_
  rcases hl r o ho with ho' | hle
  · have hlt : r.node < g.idBound := node_lt_of_linkAt (by simp [ho'])
    exact ⟨r, o, ho', (h.kind?_eq _ (hg.source_lt ho')).symm, (h.kind?_eq _ hlt).symm, rfl⟩
  · obtain ⟨op, hk⟩ := hx
    exact absurd hk (hnew o.node op true hle)

theorem Supplies.clamped {t : InputRef} (h : g.Supplies t g') (hg : g.WellFormed)
    (hc : g.Clamped) : g'.Clamped :=
  hc.of_fresh hg h.evolves h.fresh h.kind?_new

theorem Sourced.clamped (h : g.Sourced g') (hg : g.WellFormed) (hc : g.Clamped) : g'.Clamped := by
  refine hc.of_fresh hg h.evolves (fun r o ho => (h.links r o ho).imp_right fun hn => hn.2.2) ?_
  intro x op clamped hx hk
  obtain ⟨owner, hown⟩ := h.kind?_new x _ hx hk
  cases owner <;> cases hown

theorem Copies.clamped {ids : List NodeId} {copies : CopyMap} (h : g.Copies ids copies g')
    (hg : g.WellFormed) (hids : ∀ id ∈ ids, id < g.idBound) (hc : g.Clamped) : g'.Clamped := by
  refine hc.of_links fun r o ho _ => ?_
  by_cases hlt : r.node < g.idBound
  · rw [h.evolves.linkAt_eq r hlt not_false] at ho
    exact ⟨r, o, ho, (h.evolves.kind?_eq _ (hg.source_lt ho)).symm, (h.evolves.kind?_eq _ hlt).symm,
      rfl⟩
  · obtain ⟨a, o', hp, ha, ho', hp'⟩ := h.exists_link hids (Nat.not_lt.mp hlt) ho
    exact ⟨⟨a, r.slot⟩, o', ho', (h.kind?_eq _ hp' (hg.source_lt ho')).symm,
      (h.kind?_eq _ hp ha).symm, rfl⟩

/-- The height of a bump does not come from a clamped operation, since a bump is no clamp. The same
is true of the samples that replace it. -/
theorem Samples.clamped {id : NodeId} {source : OutputRef} {ids : List NodeId} {g₁ g₂ : Graph}
    (h : g.Samples id source ids g₁ g₂ g') (hg : g.WellFormed) (hbump : g.IsBump id)
    (hc : g.Clamped) : g'.Clamped := by
  have hg₁ := h.dx.evolves.wellFormed
  have hc₂ := h.dy.clamped hg₁ h.bounded' (h.dx.clamped hg h.bounded hc)
  have hg₂ := h.dy.evolves.wellFormed
  have hkind := h.evolves'.kind?_eq
  refine hc₂.of_links fun r o ho hx => ?_
  rcases h.link_cases ho with ho' | ⟨-, hcopy⟩
  · have hlt : r.node < g₂.idBound := node_lt_of_linkAt (by simp [ho'])
    exact ⟨r, o, ho', (hkind _ (hg₂.source_lt ho')).symm, (hkind _ hlt).symm, rfl⟩
  · rw [IsClampedMath, h.kind?_eq hg hcopy] at hx
    obtain ⟨⟨mode, hk⟩, -⟩ := hc source.node hx _ _ h.linked rfl
    obtain ⟨_, _, hk'⟩ := hbump
    cases hk.symm.trans hk'

/-! ### Clamps that are put onto links -/

theorem Expands.isClampedMath (h : g.Expands g') (hx : g'.IsClampedMath x) : g.IsClampedMath x := by
  obtain ⟨op, hk⟩ := hx
  by_cases hlt : x < g.idBound
  · exact ⟨op, (h.grows.kind?_eq x hlt).symm.trans hk⟩
  · cases h.kind?_new x _ (Nat.not_lt.mp hlt) hk

/-- A node is guarded behind a new clamp if all its other consumers are clamps. -/
theorem Interposes.guarded {o : OutputRef} (h : g.Interposes o g') (hlt : x < g.idBound)
    (hx : ∀ r s, g.linkAt r = some s → s.node = x → s ≠ o → g.IsClamp r.node ∧ r.slot = 0) :
    g'.Guarded x := by
  rintro r s hs rfl
  rw [h.linkAt_eq] at hs
  split_ifs at hs with hr hnew
  · cases hs
    exact absurd hlt (Nat.lt_irrefl _)
  · exact hnew ▸ ⟨⟨_, h.kind?_new⟩, rfl⟩
  · obtain ⟨hclamp, h0⟩ := hx r s hs rfl fun heq => hr (heq ▸ hs)
    exact ⟨h.evolves.isClamp hclamp, h0⟩

namespace ExpandsNode

variable {id : NodeId}

theorem guarded (h : g.ExpandsNode id g') (hlt : x < g.idBound) (hx : g.Guarded x) :
    g'.Guarded x := by
  cases h with
  | idle _ => exact hx
  | bare h _ => exact h.guarded hx
  | clamp h₁ _ h =>
    exact h.guarded (h₁.idBound_eq ▸ hlt) fun r s hs hsx _ => h₁.guarded hx r s hs hsx

/-- A clamped operation is guarded when it is expanded, unless it was so before. -/
theorem guarded_self (h : g.ExpandsNode id g') (hg : g.WellFormed) (hk : g.IsClampedMath id)
    (hexp : g.IsExpanded id → g.Guarded id) : g'.Guarded id := by
  cases h with
  | idle hidle => exact hexp hidle
  | bare h hbare =>
    refine h.guarded ((guarded_iff_resultClamped hg hk).mpr fun r hr => ?_)
    rw [hbare hk] at hr
    exact absurd hr List.not_mem_nil
  | clamp h₁ _ h =>
    -- the result is the only output, so no other consumers are left
    obtain ⟨op, hop⟩ := hk
    have hop₁ := (h₁.kind?_eq id).trans hop
    refine h.guarded (Graph.lt_idBound_of_kind? _ hop₁) fun r s hs hid hne => ?_
    exact absurd (h₁.wellFormed.eq_of_single_output hop₁ rfl hs hid) hne

theorem idBound_eq (h : g.ExpandsNode id g') (hn : ¬ g.IsClampedMath id) :
    g'.idBound = g.idBound := by
  cases h with
  | idle _ => rfl
  | bare h _ => exact h.idBound_eq
  | clamp _ hk _ => exact absurd hk hn

end ExpandsNode

/-! ### Which nodes are expanded -/

/-- Of the nodes below a bound, those in `S` are expanded and no others. -/
def ExpandedWithin (S : NodeId → Prop) (b : Nat) (g : Graph) : Prop :=
  b ≤ g.idBound ∧ g.Every fun x n => x < b → (n.expanded = true ↔ S x)

section

variable {K : NodeKind → Prop} {S : NodeId → Prop} {b : Nat}

theorem ExpandedWithin.refl : g.ExpandedWithin g.IsExpanded g.idBound :=
  ⟨Nat.le_refl _, fun _ n hn _ => ⟨fun hexp => ⟨n, hn, hexp⟩, fun ⟨m, hm, hexp⟩ => by
    rwa [Option.some.inj (hn.symm.trans hm)]⟩⟩

theorem ExpandedWithin.mem (h : g.ExpandedWithin S b) (hlt : x < b) (hx : g.IsExpanded x) :
    S x := by
  obtain ⟨n, hn, hexp⟩ := hx
  exact (h.2 x n hn hlt).mp hexp

/-- Without notes no node gets expanded, and what is added is above the bound. -/
theorem ExpandedWithin.update (h : Update K NoNote g g') (hg : g.ExpandedWithin S b) :
    g'.ExpandedWithin S b := by
  obtain ⟨hb, hS⟩ := hg
  have habove : ¬ g.idBound < b := Nat.not_lt.mpr hb
  refine ⟨Nat.le_trans hb h.idBound_le, hS.update (fun _ _ _ _ hn => hn) ?_ ?_ ?_ h⟩
  · exact fun _ _ hlt => absurd hlt habove
  · exact fun _ _ _ => ⟨fun hlt => absurd hlt habove, fun hlt => absurd hlt habove⟩
  · exact fun _ hf => hf.elim

/-- The state in which some nodes of a graph have been looked at. Of the other nodes none is newly
expanded. A clamped operation is guarded from then on, if those that were expanded before have been.
Only clamped operations lead to new nodes. -/
structure ExpandedUpTo (done : List NodeId) (g g' : Graph) : Prop where
  expands : g.Expands g'
  within : g'.ExpandedWithin (fun x => x ∈ done ∨ g.IsExpanded x) g.idBound
  guarded : g.ExpandedClamped →
    ∀ x, g.IsClampedMath x → x ∈ done ∨ g.IsExpanded x → g'.Guarded x
  idBound_eq : (∀ x ∈ done, ¬ g.IsClampedMath x) → g'.idBound = g.idBound

namespace ExpandedUpTo

variable {done : List NodeId}

theorem init (hg : g.WellFormed) : g.ExpandedUpTo [] g where
  expands := .refl hg
  within := by simpa using ExpandedWithin.refl
  guarded h x hx hmem := h x hx (by simpa using hmem)
  idBound_eq _ := rfl

theorem step {id : NodeId} {g'' : Graph} (h : g.ExpandedUpTo done g') (h' : g'.ExpandsNode id g'')
    (hexp : g''.ExpandedWithin (fun x => (x ∈ done ∨ g.IsExpanded x) ∨ x = id) g.idBound) :
    g.ExpandedUpTo (done ++ [id]) g'' := by
  have hg' := h.expands.grows.wellFormed
  refine ⟨h.expands.trans (h'.expands hg'), ?_, fun hc x hx hmem => ?_, fun hplain => ?_⟩
  · simpa [or_right_comm] using hexp
  · obtain ⟨op, hk⟩ := hx
    have hlt := g.lt_idBound_of_kind? hk
    by_cases hid : x = id
    · subst hid
      refine h'.guarded_self hg' ⟨op, h.expands.grows.kind?_some hk⟩ fun hx' => ?_
      exact h.guarded hc x ⟨op, hk⟩ (h.within.mem hlt hx')
    · have hmem' : x ∈ done ∨ g.IsExpanded x := by simpa [hid] using hmem
      exact h'.guarded (Nat.lt_of_lt_of_le hlt h.expands.grows.idBound_le)
        (h.guarded hc x ⟨op, hk⟩ hmem')
  · have hid : ¬ g'.IsClampedMath id := fun hk => hplain id (by simp) (h.expands.isClampedMath hk)
    exact (h'.idBound_eq hid).trans (h.idBound_eq fun x hx => hplain x (by simp [hx]))

theorem isExpanded {k : NodeKind} (h : g.ExpandedUpTo g.ids g') (hk : g'.kind? x = some k)
    (hlt : x < g.idBound) : g'.IsExpanded x := by
  obtain ⟨n, hn, -⟩ := Option.map_eq_some_iff.mp hk
  have hx : x ∈ g.ids := (g.mem_ids_iff_kind?).mpr ⟨k, h.expands.grows.kind?_eq x hlt ▸ hk⟩
  exact ⟨n, hn, (h.within.2 x n hn hlt).mpr (Or.inl hx)⟩

/-- The nodes that are added are no operations. -/
theorem clamped (h : g.ExpandedUpTo g.ids g') (hc : g.ExpandedClamped) : g'.Clamped := by
  intro x hx
  obtain ⟨op, hk⟩ := h.expands.isClampedMath hx
  exact h.guarded hc x ⟨op, hk⟩ (Or.inl ((g.mem_ids_iff_kind?).mpr ⟨_, hk⟩))

end ExpandedUpTo

end

end Graph

namespace Edit

open Shading.Graph

variable {g : Graph}

/-! ### Before the expansion -/

/-- Guarded nodes stay guarded while proxies are removed, and no node gets expanded. -/
theorem ends_removeProxies_expandedClamped (hg : g.WellFormed) (hm : g.finalized = false)
    (h : g.ExpandedClamped) :
    removeProxies.Ends g fun _ g' =>
      g'.WellFormed ∧ g'.finalized = false ∧ g'.ExpandedClamped := by
  refine ((ends_removeProxies hg hm).and_meets ((updates_removeProxies (F := NoNote)).meets
    (fun _ _ hu hE => ExpandedWithin.update hu hE) ExpandedWithin.refl)).mono ?_
  rintro _ g' ⟨⟨g₁, removed, h₁, hb₁, -, h', -⟩, hexp⟩
  refine ⟨h'.wellFormed, h'.finalized.trans (h₁.evolves.finalized.trans hm), fun x hx hx' => ?_⟩
  obtain ⟨op, hk⟩ := hx
  rw [h'.kind?_eq] at hk
  split_ifs at hk
  rw [h₁.evolves.kind?_same hb₁] at hk
  have hlt := g.lt_idBound_of_kind? hk
  exact h'.guarded (h₁.guarded hlt (h x ⟨op, hk⟩ (hexp.mem hlt hx')))

/-! ### The expansion -/

theorem meets_expandOnce_expandedWithin {S : NodeId → Prop} {b : Nat} (h : g.ExpandedWithin S b)
    (id : NodeId) :
    (expandOnce id).Meets g (fun _ => ExpandedWithin (fun x => S x ∨ x = id) b) fun _ => True := by
  refine meets_ask_node_bind (fun n hn => ?_) fun _ => trivial
  split_ifs with hexp
  · refine Meets.bind (P := fun _ => ExpandedWithin (fun x => S x ∨ x = id) b) ?_ fun _ g₁ h₁ => ?_
    · unfold markExpanded
      rw [discard_bind]
      refine meets_ask_node_bind (fun _ _ => meets_modify ⟨?_, fun x m hm hlt => ?_⟩) fun _ => trivial
      · rw [idBound_modifyNode]
        exact h.1
      · rw [node?_modifyNode] at hm
        split_ifs at hm with hx
        · obtain ⟨_, -, rfl⟩ := Option.map_eq_some_iff.mp hm
          simp [hx]
        · exact (h.2 x m hm hlt).trans (or_iff_left hx).symm
    · refine meets_ask_node_bind (fun _ _ => ?_) fun _ => trivial
      split_ifs
      · exact Meets.mono ((updates_insertClamp (F := NoNote) id).meets
          (fun _ _ hu hE => ExpandedWithin.update hu hE) h₁) (fun _ _ h => h) fun _ _ => trivial
      · exact meets_pure h₁
  · refine meets_pure ⟨h.1, fun x m hm hlt => ?_⟩
    refine (h.2 x m hm hlt).trans (or_iff_left_of_imp ?_).symm
    rintro rfl
    exact (h.2 x n hn hlt).mp (by simpa using hexp)

/-- One round. -/
theorem ends_forM_expandOnce (hg : g.WellFormed) (hm : g.finalized = false) {ids : List NodeId}
    (hids : ids ⊆ g.ids) : (ids.forM expandOnce).Ends g fun _ => g.ExpandedUpTo ids := by
  refine (ends_forM (fun rest g' => ∃ done, ids = done ++ rest ∧ g.ExpandedUpTo done g')
    ⟨[], rfl, .init hg⟩ ?_).mono ?_
  · rintro id rest g' ⟨done, hdone, h⟩
    obtain ⟨k, hk⟩ := (g.mem_ids_iff_kind?).mp (hids (show id ∈ ids by simp [hdone]))
    have hgrows := h.expands.grows
    refine ((ends_expandOnce hgrows.wellFormed (hgrows.finalized.trans hm)
      (hgrows.kind?_some hk)).and_meets (meets_expandOnce_expandedWithin h.within id)).mono ?_
    rintro _ g'' ⟨hstep, hexp⟩
    exact ⟨done ++ [id], by simp [hdone], h.step hstep hexp⟩
  · rintro _ g' ⟨done, hdone, h⟩
    rw [List.append_nil] at hdone
    exact hdone ▸ h

/-- The second round looks at the nodes that the first one has added. -/
theorem ends_expandNodes_rounds (hg : g.WellFormed) (hm : g.finalized = false) :
    expandNodes.Ends g fun _ g₂ => ∃ g₁, g.ExpandedUpTo g.ids g₁ ∧
      g₁.ExpandedUpTo (g₁.ids.filter (g.idBound ≤ ·)) g₂ := by
  refine ends_get_bind (Ends.bind (ends_forM_expandOnce hg hm fun _ hx => hx) ?_)
  intro _ g₁ h₁
  have hgrows := h₁.expands.grows
  exact ends_get_bind ((ends_forM_expandOnce hgrows.wellFormed (hgrows.finalized.trans hm)
    (List.filter_subset_self _)).mono fun _ _ h₂ => ⟨g₁, h₁, h₂⟩)

/-- **All nodes are expanded after two rounds.** The nodes that the first round adds are clamps, so
the second one adds none. -/
theorem ends_expandNodes_expanded (hg : g.WellFormed) (hm : g.finalized = false) :
    expandNodes.Ends g fun _ g' => g'.Every fun _ n => n.expanded = true := by
  refine (ends_expandNodes_rounds hg hm).mono ?_
  rintro _ g₂ ⟨g₁, h₁, h₂⟩ x n hn
  have hplain : ∀ x ∈ g₁.ids.filter (g.idBound ≤ ·), ¬ g₁.IsClampedMath x := by
    rintro x hx ⟨op, hk⟩
    cases h₁.expands.kind?_new x _ (by simpa using (List.mem_filter.mp hx).2) hk
  have hlt : x < g₁.idBound :=
    h₂.idBound_eq hplain ▸ g₂.lt_idBound_of_mem (mem_ids_of_node hn)
  refine (h₂.within.2 x n hn hlt).mpr ?_
  have hk₁ : g₁.kind? x = some n.kind := by
    rw [← h₂.expands.grows.kind?_eq x hlt, kind?, hn, Option.map_some]
  by_cases hold : x < g.idBound
  · exact Or.inr (h₁.isExpanded hk₁ hold)
  · refine Or.inl (List.mem_filter.mpr ⟨(g₁.mem_ids_iff_kind?).mpr ⟨_, hk₁⟩, ?_⟩)
    simpa using hold

/-- **Expansion.** Afterwards all clamped operations are guarded, if those that were expanded before
have been. -/
theorem ends_expandNodes_clamped (hg : g.WellFormed) (hm : g.finalized = false)
    (h : g.ExpandedClamped) : expandNodes.Ends g fun _ g' => g.Expands g' ∧ g'.Clamped := by
  refine (ends_expandNodes_rounds hg hm).mono ?_
  rintro _ g₂ ⟨g₁, h₁, h₂⟩
  have hc₁ := h₁.clamped h
  refine ⟨h₁.expands.trans h₂.expands, fun x hx => ?_⟩
  obtain ⟨op, hk₁⟩ := h₂.expands.isClampedMath hx
  obtain ⟨_, hk⟩ := h₁.expands.isClampedMath ⟨op, hk₁⟩
  refine h₂.guarded (fun y hy _ => hc₁ y hy) x ⟨op, hk₁⟩ (Or.inr ?_)
  exact h₁.isExpanded hk₁ (g.lt_idBound_of_kind? hk)

/-! ### After the expansion -/

theorem ends_clean_clamped (hg : g.WellFormed) (hm : g.finalized = false) (scene : Scene)
    (h : g.Clamped) : (clean scene).Ends g fun _ => Clamped := by
  rw [clean_eq]
  refine Ends.bind (ends_tidy_steps (P := fun _ => True) hg hm scene
    ((ends_foldAll hg hm (Worklist.within_ofGraph g)).mono fun _ _ _ => trivial)) ?_
  rintro _ g₃ ⟨g₁, g₂, -, h₁, hsup, -, h₃⟩
  have hg₁ := h₁.evolves.wellFormed
  have hm₁ := h₁.evolves.finalized.trans hm
  have hc₁ := h₁.clamped hg h
  obtain ⟨hm₂, hc₂⟩ : g₂.finalized = false ∧ g₂.Clamped := by
    rcases hsup with rfl | h₂
    · exact ⟨hm₁, hc₁⟩
    · exact ⟨h₂.evolves.finalized.trans hm₁, h₂.clamped hg₁ hc₁⟩
  exact (ends_prune h₃.grows.wellFormed (h₃.grows.finalized.trans hm₂)).mono
    fun _ _ h' => h'.clamped (h₃.clamped hc₂)

/-- **Simplification.** If all clamped operations that were expanded before are guarded, then all
clamped operations are guarded afterwards. -/
theorem ends_simplify_clamped (hg : g.WellFormed) (hs : g.simplified = false)
    (hm : g.finalized = false) (h : g.ExpandedClamped) (scene : Scene) :
    (simplify scene).Ends g fun _ g' => g'.WellFormed ∧ g'.Clamped := by
  refine ends_get_bind ?_
  rw [hs, hm]
  refine Ends.bind (ends_removeProxies_expandedClamped hg hm h) ?_
  rintro _ g₁ ⟨hg₁, hm₁, h₁⟩
  refine Ends.bind (ends_expandNodes_clamped hg₁ hm₁ h₁) ?_
  rintro _ g₂ ⟨h₂, hc₂⟩
  have hg₂ := h₂.grows.wellFormed
  have hm₂ := h₂.grows.finalized.trans hm₁
  refine Ends.bind (ends_linkAllDefaults hg₂ hm₂) ?_
  rintro _ g₃ ⟨h₃, -⟩
  have hg₃ := h₃.evolves.wellFormed
  have hm₃ := h₃.evolves.finalized.trans hm₂
  refine Ends.bind ((ends_clean hg₃ hm₃ scene).and
    (ends_clean_clamped hg₃ hm₃ scene (h₃.clamped hg₂ hc₂))) ?_
  rintro _ g₄ ⟨⟨hg₄, hm₄, -⟩, hc₄⟩
  refine Ends.bind (ends_refineBumps_of (I := fun _ => Clamped) hg₄ hm₄ hc₄ (fun _ _ _ h _ => h)
    fun _ _ _ _ _ _ _ _ hg' hb hc' h' => h'.clamped hg'.wellFormed (hg'.isBump hb) hc') ?_
  rintro _ g₅ ⟨h₅, hc₅⟩
  exact ends_modify ⟨h₅.wellFormed.of_table rfl, hc₅⟩

theorem not_isExpanded_runAll (ps : List Primitive) (x : NodeId) :
    ¬ (Primitive.runAll ps Graph.empty).IsExpanded x := by
  have hfresh : ∀ (ps : List Primitive) (g : Graph), (g.Every fun _ n => n.expanded = false) →
      (Primitive.runAll ps g).Every fun _ n => n.expanded = false := by
    intro ps
    induction ps with
    | nil => exact fun _ hg => hg
    | cons p ps ih =>
      refine fun g hg => ih _ (Meets.after (p.updates.meets (fun _ _ hu hP => ?_) hg))
      exact hP.update (fun _ _ _ _ hn => hn) (fun _ _ => rfl) (fun _ _ hn => ⟨hn, rfl⟩)
        (fun _ hf => hf.elim) hu
  rintro ⟨n, hn, hexp⟩
  have hempty : Graph.empty.Every fun _ n => n.expanded = false := by
    rw [empty_eq_push]
    exact Every.push (fun _ _ hn => nomatch hn) rfl
  rw [hfresh ps _ hempty x n hn] at hexp
  cases hexp

/-- **Clamped results.** A graph that was made by primitives is simplified without a fault, and then
everything that uses the result of a clamped operation is the value of a clamp. The same is true of
every graph in which it holds of the operations that have been expanded already, as those of a graph
have that was simplified before. -/
theorem simplify_clamps_results (scene : Scene) :
    (∀ ps : List Primitive,
      ∃ g', (simplify scene).run (Primitive.runAll ps Graph.empty) = .ok () g' ∧
        ∀ x op, g'.kind? x = some (.math op true) → g'.ResultClamped x) ∧
    ∀ g : Graph, g.WellFormed → g.simplified = false → g.finalized = false →
      (∀ x op, g.kind? x = some (.math op true) → g.IsExpanded x → g.ResultClamped x) →
      ∃ g', (simplify scene).run g = .ok () g' ∧
        ∀ x op, g'.kind? x = some (.math op true) → g'.ResultClamped x := by
  have hmain : ∀ g : Graph, g.WellFormed → g.simplified = false → g.finalized = false →
      (∀ x op, g.kind? x = some (.math op true) → g.IsExpanded x → g.ResultClamped x) →
      ∃ g', (simplify scene).run g = .ok () g' ∧
        ∀ x op, g'.kind? x = some (.math op true) → g'.ResultClamped x := by
    intro g hg hs hm h
    have hexp : g.ExpandedClamped := fun x hx hx' =>
      (guarded_iff_resultClamped hg hx).mpr (hx.elim fun op hk => h x op hk hx')
    obtain ⟨_, g', hrun, hg', hc⟩ := ends_iff.mp (ends_simplify_clamped hg hs hm hexp scene)
    exact ⟨g', hrun, fun x op hk => (guarded_iff_resultClamped hg' ⟨op, hk⟩).mp (hc x ⟨op, hk⟩)⟩
  refine ⟨fun ps => ?_, hmain⟩
  have hf := Primitive.follows_runAll wellFormed_empty ps
  refine hmain _ hf.wellFormed ?_ hf.finalized
    fun x _ _ hx => absurd hx (not_isExpanded_runAll ps x)
  cases hs : (Primitive.runAll ps Graph.empty).simplified with
  | false => rfl
  | true => exact nomatch (hf.calm hs).1

/-- A clamped operation that gives the strength of an emission. -/
def clampedSine : List Primitive :=
  [.addKind .geometry, .addKind (.math .sine true), .addKind (.emission false),
    .connect ⟨1, 6⟩ ⟨2, 0⟩, .connect ⟨2, 0⟩ ⟨3, 1⟩, .connect ⟨3, 0⟩ ⟨0, 0⟩]

/-- The graph is simplified, and an output gives the strength of a red emission in a volume. -/
def emittedAgain (s : OutputRef) : List Step :=
  clampedSine.map .primitive ++ [.simplify Scene.empty] ++
    [.addKind (.emission false), .storeNamed 5 "Color" (.float3 ⟨1, 0, 0⟩), .connect s ⟨5, 1⟩,
      .connect ⟨5, 0⟩ ⟨0, 1⟩].map .primitive

/-- The emission may take what the clamp gives. -/
theorem simplify_clamps_results_emittedAgain :
    (∃ g', (simplify Scene.empty).run (Primitive.runAll clampedSine Graph.empty) = .ok () g' ∧
      g'.fanOut ⟨2, 0⟩ = [⟨4, 0⟩] ∧ g'.ResultClamped 2) ∧
    (Step.session (emittedAgain ⟨4, 0⟩)).IsExpanded 2 ∧
    ∃ g', (simplify Scene.empty).run (Step.session (emittedAgain ⟨4, 0⟩)) = .ok () g' ∧
      g'.linkAt ⟨5, 1⟩ = some ⟨4, 0⟩ ∧ g'.ResultClamped 2 := by
  obtain ⟨hnew, hold⟩ := simplify_clamps_results Scene.empty
  refine ⟨?_, ?_, ?_⟩
  · obtain ⟨g', hrun, hclamped⟩ := hnew clampedSine
    have hends : (simplify Scene.empty).Ends (Primitive.runAll clampedSine Graph.empty) fun _ g' =>
      g'.kind? 2 = some (.math .sine true) ∧ g'.fanOut ⟨2, 0⟩ = [⟨4, 0⟩] := by decide +kernel
    obtain ⟨_, _, hrun', hk, hfan⟩ := ends_iff.mp hends
    cases hrun.symm.trans hrun'
    exact ⟨g', hrun, hfan, hclamped 2 _ hk⟩
  · have hexp : ((Step.session (emittedAgain ⟨4, 0⟩)).node? 2).any (·.expanded) = true := by
      decide +kernel
    exact (Option.any_eq_true _ _).mp hexp
  · have hall : ∀ x ∈ (Step.session (emittedAgain ⟨4, 0⟩)).ids,
        ∀ r ∈ (Step.session (emittedAgain ⟨4, 0⟩)).fanOut ⟨x, 0⟩,
          ((Step.session (emittedAgain ⟨4, 0⟩)).kind? x).any (·.isClampedMath) = true →
            (Step.session (emittedAgain ⟨4, 0⟩)).kind? r.node = some (.clamp .minMax) ∧
              r.slot = 0 := by decide +kernel
    obtain ⟨g', hrun, hclamped⟩ := hold _ (Step.compilable_session (emittedAgain ⟨4, 0⟩)).wellFormed
      (by decide +kernel) (by decide +kernel) fun x op hk _ r hr => by
        obtain ⟨hc, h0⟩ := hall x ((Graph.mem_ids_iff_kind? _).mpr ⟨_, hk⟩) r hr
          (by rw [hk]; rfl)
        exact ⟨⟨_, hc⟩, h0⟩
    have hends : (simplify Scene.empty).Ends (Step.session (emittedAgain ⟨4, 0⟩)) fun _ g' =>
      g'.kind? 2 = some (.math .sine true) ∧ g'.linkAt ⟨5, 1⟩ = some ⟨4, 0⟩ := by decide +kernel
    obtain ⟨_, _, hrun', hk, hl⟩ := ends_iff.mp hends
    cases hrun.symm.trans hrun'
    exact ⟨g', hrun, hl, hclamped 2 _ hk⟩

/-- If the emission takes the result of the operation itself, it gets it unclamped: the operation
was expanded when the graph was simplified first, and is not looked at again. -/
theorem simplify_emittedAgain_unclamped :
    (Step.session (emittedAgain ⟨2, 0⟩)).simplified = false ∧
      ∃ g', (simplify Scene.empty).run (Step.session (emittedAgain ⟨2, 0⟩)) = .ok () g' ∧
        g'.simplified = true ∧ g'.kind? 2 = some (.math .sine true) ∧ ⟨5, 1⟩ ∈ g'.fanOut ⟨2, 0⟩ ∧
        ¬ g'.IsClamp 5 := by
  have hends : (simplify Scene.empty).Ends (Step.session (emittedAgain ⟨2, 0⟩)) fun _ g' =>
    g'.simplified = true ∧ g'.kind? 2 = some (.math .sine true) ∧
      g'.fanOut ⟨2, 0⟩ = [⟨4, 0⟩, ⟨5, 1⟩] ∧ g'.kind? 5 = some (.emission false) := by decide +kernel
  obtain ⟨_, g', hrun, hs, hk, hfan, hk'⟩ := ends_iff.mp hends
  exact ⟨by decide +kernel, g', hrun, hs, hk, by simp [hfan], not_isClamp_of_kind? hk' nofun⟩

end Edit

end Shading
