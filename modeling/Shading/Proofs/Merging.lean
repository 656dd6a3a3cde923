import Shading.Lowering.Merge
import Shading.Proofs.Redirection

/-!
# Merging duplicates

When a node is merged into its twin, links to the node become links to the twin (`Graph.Merges`).
The twin is fed by the same outputs as the node, so whatever can be followed backwards afterwards
could be followed before: where links came to an end, they still do (`Graph.Merges.acc`). -/

namespace Shading

open Relation

namespace Graph

/-- All consumers of the node `x` are moved to the node `t`, and the inputs of `x` are unlinked. -/
structure Merges (x t : NodeId) (g g' : Graph) : Prop where
  grows : g.Grows g'
  links : ∀ r o, g'.linkAt r = some o → g.linkAt r = some o ∨
    g.linkAt r = some ⟨x, o.slot⟩ ∧ o.node = t
  linked : ∀ r, r.node ≠ x → g.linkAt r ≠ none → g'.linkAt r ≠ none

/-- What tidying a graph leaves as it is. An input that is linked to a node was linked to one of the
same kind. The inputs of the output node stay linked, what feeds nothing goes on feeding nothing, as
far as it is in `U`, and where links of the output node came to an end, they still do. -/
structure Tidies (U : NodeId → Prop) (g g' : Graph) : Prop where
  grows : g.Grows g'
  same_kind : ∀ r o, g'.linkAt r = some o → ∃ o', g.linkAt r = some o' ∧
    g'.kind? o.node = g.kind? o'.node
  linked_iff : ∀ slot, g'.linkAt ⟨outputId, slot⟩ = none ↔ g.linkAt ⟨outputId, slot⟩ = none
  unused : ∀ x, U x → g.Unused x → g'.Unused x
  acc : ∀ slot, (∀ o, g.linkAt ⟨outputId, slot⟩ = some o → Acc g.Feeds o.node) →
    ∀ o, g'.linkAt ⟨outputId, slot⟩ = some o → Acc g'.Feeds o.node

variable {g g' : Graph} {x t : NodeId} {U U' : NodeId → Prop}

namespace Tidies

theorem refl (hg : g.WellFormed) : g.Tidies U g :=
  ⟨.refl hg, fun _ o ho => ⟨o, ho, rfl⟩, fun _ => Iff.rfl, fun _ _ h => h, fun _ h => h⟩

theorem mono (h : g.Tidies U g') (hU : ∀ x, g.Unused x → U' x → U x) : g.Tidies U' g' :=
  { h with unused := fun x hx hu => h.unused x (hU x hu hx) hu }

theorem trans {g₁ g₂ g₃ : Graph} (h : g₁.Tidies U g₂) (h' : g₂.Tidies U g₃) : g₁.Tidies U g₃ := by
  refine ⟨h.grows.trans h'.grows, fun r o ho => ?_,
    fun slot => (h'.linked_iff slot).trans (h.linked_iff slot),
    fun x hx hu => h'.unused x hx (h.unused x hx hu), fun slot ho => h'.acc slot (h.acc slot ho)⟩
  obtain ⟨o', ho', hk'⟩ := h'.same_kind r o ho
  obtain ⟨o'', ho'', hk''⟩ := h.same_kind r o' ho'
  exact ⟨o'', ho'', hk'.trans hk''⟩

end Tidies

/-- Cutting links of nodes other than the output tidies a graph. -/
theorem Trims.tidies {T : InputRef → Prop} (h : g.Trims T g') (hT : ∀ r, T r → r.node ≠ outputId) :
    g.Tidies U g' := by
  have hl : ∀ slot, g'.linkAt ⟨outputId, slot⟩ = g.linkAt ⟨outputId, slot⟩ :=
    fun slot => h.kept _ fun hr => hT _ hr rfl
  refine ⟨h.evolves.grows, fun r o ho => ⟨o, (h.linkAt_some ho).1, h.kind?_eq o.node⟩,
    fun slot => by rw [hl], fun x _ hx r o ho => hx r o (h.linkAt_some ho).1, fun slot hs o ho => ?_⟩
  exact (h.shortens (N := False)).acc (hs o (hl slot ▸ ho))

namespace Merges

/-- Where links of the node came to an end, those of its twin do. -/
theorem acc (h : g.Merges x t g') (ht : ∀ slot, g.linkAt ⟨t, slot⟩ = g.linkAt ⟨x, slot⟩) {a b : NodeId}
    (ha : Acc g.Feeds a) (hab : b = a ∨ b = t ∧ a = x) : Acc g'.Feeds b := by
  induction ha generalizing b with
  | intro a _ ih =>
    refine ⟨b, ?_⟩
    rintro _ ⟨⟨b, slot⟩, o, ho, rfl, rfl⟩
    -- an input of `a` in the old graph stands for the input of `b` in the new one
    have hsame : g.linkAt ⟨b, slot⟩ = g.linkAt ⟨a, slot⟩ := by
      rcases hab with rfl | ⟨rfl, rfl⟩
      · rfl
      · exact ht slot
    rcases h.links _ o ho with hl | ⟨hl, hot⟩
    · exact ih o.node (feeds_of_linkAt (hsame ▸ hl)) (Or.inl rfl)
    · exact ih x (feeds_of_linkAt (hsame ▸ hl)) (Or.inr ⟨hot, rfl⟩)

theorem tidies (h : g.Merges x t g') (hg : g.WellFormed) {k : NodeKind} (hkx : g.kind? x = some k)
    (hkt : g.kind? t = some k) (ht : ∀ slot, g.linkAt ⟨t, slot⟩ = g.linkAt ⟨x, slot⟩)
    (hx : x ≠ outputId) (hU : ¬ U t) : g.Tidies U g' := by
  refine ⟨h.grows, fun r o ho => ?_, fun slot => ⟨fun hn => ?_, fun hn => ?_⟩,
    fun y hy hu r o ho hoy => ?_, fun slot hs o ho => ?_⟩
  · rcases h.links r o ho with hl | ⟨hl, hot⟩
    · exact ⟨o, hl, h.grows.kind?_eq _ (hg.source_lt hl)⟩
    · exact ⟨_, hl, by rw [hot, h.grows.kind?_some hkt, hkx]⟩
  · by_contra hs
    exact h.linked ⟨outputId, slot⟩ hx.symm hs hn
  · cases ho : g'.linkAt ⟨outputId, slot⟩ with
    | none => rfl
    | some o =>
      rcases h.links _ o ho with hl | ⟨hl, -⟩
      · rw [hn] at hl
        cases hl
      · rw [hn] at hl
        cases hl
  · rcases h.links r o ho with hl | ⟨-, hot⟩
    · exact hu r o hl hoy
    · exact hU (hot.symm.trans hoy ▸ hy)
  · rcases h.links _ o ho with hl | ⟨hl, hot⟩
    · exact h.acc ht (hs o hl) (Or.inl rfl)
    · exact h.acc ht (hs _ hl) (Or.inr ⟨hot, rfl⟩)

end Merges

/-! ### Twins -/

theorem exists_consumer (hg : g.WellFormed) {n : Node} (hn : g.node? x = some n)
    (hc : n.isConsumed = true) : ∃ r slot, g.linkAt r = some ⟨x, slot⟩ := by
  obtain ⟨out, hout, hcons⟩ := List.any_eq_true.mp hc
  obtain ⟨slot, hslot, rfl⟩ := List.getElem_of_mem hout
  have hfan : g.fanOut ⟨x, slot⟩ = n.outputs[slot].consumers := by
    simp [fanOut, output?, hn, hslot]
  obtain ⟨r, hr⟩ := List.exists_mem_of_ne_nil (g.fanOut ⟨x, slot⟩) (by
    rw [hfan]
    simpa [Output.isConsumed] using hcons)
  exact ⟨r, slot, (hg.link_iff r _).mpr hr⟩

/-- A twin is one of the candidates. It is of the same kind, and linked to the same outputs. -/
theorem twin?_spec {n : Node} (hn : g.node? x = some n) {candidates : List NodeId}
    (h : g.twin? n candidates = some t) :
    t ∈ candidates ∧ g.kind? t = some n.kind ∧
      ∀ slot, g.linkAt ⟨t, slot⟩ = g.linkAt ⟨x, slot⟩ := by
  have hany := List.find?_some h
  rw [Option.any_eq_true] at hany
  obtain ⟨m, hm, hnm⟩ := hany
  simp only [Node.interchangeable, Node.agrees, Bool.and_eq_true, beq_iff_eq] at hnm
  obtain ⟨⟨⟨⟨hkind, -⟩, hlen⟩, -⟩, hlinks⟩ := hnm
  refine ⟨List.mem_of_find?_eq_some h, by simp [kind?, hm, hkind], fun slot => ?_⟩
  by_cases hs : slot < n.inputs.length
  · have hs' : slot < m.inputs.length := hlen ▸ hs
    have hz : (n.inputs[slot], m.inputs[slot]) ∈ n.inputs.zip m.inputs :=
      List.mem_iff_getElem.mpr ⟨slot, by simp [hs, hs'], by simp⟩
    have hl := beq_iff_eq.mp (List.all_eq_true.mp hlinks _ hz)
    rw [g.linkAt_of_getElem? hm (List.getElem?_eq_getElem hs'),
      g.linkAt_of_getElem? hn (List.getElem?_eq_getElem hs), hl]
  · have hs' : ¬ slot < m.inputs.length := hlen ▸ hs
    simp [linkAt, input?, hm, hn, Nat.not_lt.mp hs, Nat.not_lt.mp hs']

end Graph

namespace Edit

open Shading.Graph

variable {g : Graph} {x t : NodeId} {k : NodeKind}

theorem ends_mergeInto (hg : g.WellFormed) (hm : g.finalized = false) (hk : g.kind? x = some k)
    (ht : g.kind? t = some k) : (mergeInto x t).Ends g fun _ => g.Merges x t := by
  refine meets_ask_node_bind (fun n hn => ?_) fun hnone => by simp [hnone] at hk
  refine ends_forM_mem (I := g.Merges x t)
    ⟨.refl hg, fun _ _ ho => Or.inl ho, fun _ _ hr => hr⟩ fun slot hslot g' h => ?_
  obtain ⟨e, he⟩ := (g.exists_outputDecl?_iff hn slot).mpr (List.mem_range.mp hslot)
  have het := (hg.outputDecl?_congr hg hk ht slot).trans he
  refine (ends_bypass h.grows.wellFormed (h.grows.finalized.trans hm) (h.grows.kind?_some hk)
    (h.grows.outputDecl?_some hg he) (h.grows.outputDecl?_some hg het)
    (SocketType.linksTo_self _)).mono fun _ g'' h' => ?_
  refine ⟨h.grows.trans h'.evolves.grows, fun r o ho => ?_, fun r hr hl => ?_⟩
  · rw [h'.linkAt_eq] at ho
    split_ifs at ho with hmoved
    · cases ho
      rcases h.links r _ hmoved with hl | ⟨hl, -⟩
      · exact Or.inr ⟨hl, rfl⟩
      · exact Or.inr ⟨hl, rfl⟩
    · exact h.links r o ho
  · rw [h'.linkAt_eq, if_neg hr]
    split_ifs
    · simp
    · exact h.linked r hr hl

/-- **Merging.** Only nodes that feed something become candidates for a merge, so nothing is linked
to a node that feeds nothing. -/
theorem ends_mergeAll {g : Graph} {w : Worklist} (hg : g.WellFormed) (hm : g.finalized = false)
    (hw : w.Within g) (candidates : List NodeId) (merged : Nat) :
    (mergeAll w candidates merged).Ends g fun _ => g.Tidies (· ∉ candidates) := by
  rw [mergeAll.eq_def]
  split
  · exact ends_pure (.refl hg)
  · rename_i id w' hx
    have hsize := Worklist.size_next? hx
    obtain ⟨hid, hw'⟩ := hw.next hx
    obtain ⟨k, hk⟩ := (g.mem_ids_iff_kind?).mp hid
    refine ends_get_bind (meets_ask_node_bind (fun n hn => ?_) fun hnone => by simp [hnone] at hk)
    have hkn : g.kind? id = some n.kind := by simp [kind?, hn]
    split_ifs with hc
    · obtain ⟨r, slot, hr⟩ := exists_consumer hg hn hc
      split
      · rename_i twin htwin
        obtain ⟨hmem, hkt, hlinks⟩ := twin?_spec hn htwin
        refine Ends.bind (ends_mergeInto hg hm hkn hkt) fun _ g' h => ?_
        refine (ends_mergeAll h.grows.wellFormed (h.grows.finalized.trans hm)
          ((hw'.scheduleConsumers g id).mono fun _ => h.grows.ids_subset) _ _).mono fun _ _ h' => ?_
        exact (h.tidies hg hkn hkt hlinks (hg.ne_outputId_of_feeds (feeds_of_linkAt hr))
          (not_not.mpr hmem)).trans h'
      · refine (ends_mergeAll hg hm (hw'.scheduleConsumers g id) _ _).mono fun _ _ h => h.mono ?_
        intro y hu hy hmem
        rcases List.mem_append.mp hmem with hmem | hmem
        · exact hy hmem
        · exact hu r _ hr (List.mem_singleton.mp hmem).symm
    · exact ends_mergeAll hg hm hw' _ _
termination_by w.size
decreasing_by
  all_goals
    try rw [Worklist.size_scheduleConsumers]
    omega

end Edit

end Shading
