import Shading.Graph.Subgraph
import Shading.Proofs.Linking

/-!
# Copied and removed nodes

A copy of a set of nodes is linked as the nodes are, as far as both ends of a link are copied. When
nodes are removed, exactly those links are left that have both ends among the other nodes. -/

namespace Shading

theorem CopyMap.mem_of_lookup {copies : CopyMap} {id c : NodeId} (h : copies.lookup id = some c) :
    (id, c) ∈ copies := by
  obtain ⟨l₁, l₂, rfl, -⟩ := List.lookup_eq_some_iff.mp h
  simp

/-- Copies of some nodes, numbered from a given id on. -/
def CopyMap.numbered (ids : List NodeId) (first : NodeId) : CopyMap :=
  ids.zip (List.range' first ids.length)

theorem CopyMap.map_snd_numbered (ids : List NodeId) (first : NodeId) :
    (numbered ids first).map Prod.snd = List.range' first ids.length :=
  List.map_snd_zip (by simp)

theorem CopyMap.map_fst_numbered (ids : List NodeId) (first : NodeId) :
    (numbered ids first).map Prod.fst = ids :=
  List.map_fst_zip (by simp)

theorem CopyMap.mem_range_of_mem_numbered {ids : List NodeId} {first : NodeId} {p : NodeId × NodeId}
    (hp : p ∈ numbered ids first) : first ≤ p.2 ∧ p.2 < first + ids.length := by
  have h : p.2 ∈ (numbered ids first).map Prod.snd := List.mem_map_of_mem hp
  rw [map_snd_numbered, List.mem_range'_1] at h
  exact h

namespace Graph

/-- `g'` is what is left of `g` without some nodes. The output node is left in any case. -/
structure Removes (ids : List NodeId) (g g' : Graph) : Prop where
  wellFormed : g'.WellFormed
  finalized : g'.finalized = g.finalized
  simplified : g'.simplified = true → g.simplified = true
  idBound_eq : g'.idBound = g.idBound
  kind?_eq : ∀ id, g'.kind? id = if id ≠ outputId ∧ id ∈ ids then none else g.kind? id
  linkAt_iff : ∀ r o, g'.linkAt r = some o ↔ g.linkAt r = some o ∧
    ¬ (r.node ≠ outputId ∧ r.node ∈ ids) ∧ ¬ (o.node ≠ outputId ∧ o.node ∈ ids)

/-- The inputs that are unlinked when nodes are removed. -/
def Severed (g : Graph) (ids : List NodeId) (r : InputRef) : Prop :=
  ∃ id ∈ ids, id ≠ outputId ∧ (r.node = id ∨ ∃ o, g.linkAt r = some o ∧ o.node = id)

theorem removes_drop {g g₁ : Graph} {ids : List NodeId} (h : g.Trims (g.Severed ids) g₁) :
    g.Removes ids (g₁.drop ids) := by
  have hin : ∀ id ∈ ids, id ≠ outputId → ∀ slot, g₁.linkAt ⟨id, slot⟩ = none :=
    fun id hid h0 slot => h.cut _ ⟨id, hid, h0, Or.inl rfl⟩
  have hlink : ∀ r o, g₁.linkAt r = some o → ¬ (r.node ≠ outputId ∧ r.node ∈ ids) ∧
      ¬ (o.node ≠ outputId ∧ o.node ∈ ids) := by
    intro r o ho
    obtain ⟨hl, hT⟩ := h.linkAt_some ho
    exact ⟨fun hr => hT ⟨r.node, hr.2, hr.1, Or.inl rfl⟩,
      fun hr => hT ⟨o.node, hr.2, hr.1, Or.inr ⟨o, hl, rfl⟩⟩⟩
  have hout : ∀ id ∈ ids, id ≠ outputId → ∀ slot, g₁.fanOut ⟨id, slot⟩ = [] := by
    intro id hid h0 slot
    refine List.eq_nil_iff_forall_not_mem.mpr fun r hr => ?_
    exact (hlink r _ ((h.wellFormed.link_iff r _).mpr hr)).2 ⟨h0, hid⟩
  refine ⟨h.wellFormed.drop hin hout, h.finalized, h.simplified, ?_, ?_, ?_⟩
  · rw [idBound_drop, h.idBound_eq]
  · intro id
    rw [kind?_drop, h.kind?_eq]
  · intro r o
    rw [linkAt_drop]
    split_ifs with hr
    · simp [hr]
    · refine ⟨fun ho => ⟨(h.linkAt_some ho).1, hlink r o ho⟩, fun ⟨ho, hr', ho'⟩ => ?_⟩
      rw [h.kept r, ho]
      rintro ⟨id, hid, h0, rfl | ⟨o', hl, rfl⟩⟩
      · exact hr' ⟨h0, hid⟩
      · rw [ho, Option.some.injEq] at hl
        exact ho' (hl ▸ ⟨h0, hid⟩)

/-! ### Copies -/

/-- What an input is linked to in a copy: the copy of what it is linked to. -/
def copiedLink (g : Graph) (copies : CopyMap) (r : InputRef) : Option OutputRef :=
  (g.linkAt r).bind fun o => (copies.lookup o.node).map (⟨·, o.slot⟩)

/-- `g'` is `g` with copies of some nodes. They have the next ids, and are linked as the nodes are.
-/
structure Copies (ids : List NodeId) (copies : CopyMap) (g g' : Graph) : Prop where
  evolves : g.Evolves (fun _ => False) g'
  quiet : g.Quiet g'
  numbered : copies = .numbered ids g.idBound
  idBound_eq : g'.idBound = g.idBound + ids.length
  bare?_eq : ∀ p ∈ copies, p.1 < g.idBound → g'.bare? p.2 = (g.bare? p.1).map Node.copy
  linkAt_eq : ∀ p ∈ copies, p.1 < g.idBound →
    ∀ slot, g'.linkAt ⟨p.2, slot⟩ = g.copiedLink copies ⟨p.1, slot⟩

theorem Copies.mem_originals {ids : List NodeId} {copies : CopyMap} {g g' : Graph}
    (h : g.Copies ids copies g') {p : NodeId × NodeId} (hp : p ∈ copies) : p.1 ∈ ids := by
  rw [← CopyMap.map_fst_numbered ids g.idBound, ← h.numbered]
  exact List.mem_map_of_mem hp

theorem Copies.kind?_eq {ids : List NodeId} {copies : CopyMap} {g g' : Graph}
    (h : g.Copies ids copies g') (p : NodeId × NodeId) (hp : p ∈ copies) (hlt : p.1 < g.idBound) :
    g'.kind? p.2 = g.kind? p.1 := by
  rw [kind?_eq_bare?, h.bare?_eq p hp hlt, kind?_eq_bare?]
  cases g.bare? p.1 <;> rfl

/-- The state in which the inputs of a node have been followed up to some position, and the copy of
the node is linked accordingly. -/
structure CopiedUpTo (i : Nat) (copies : CopyMap) (id c : NodeId) (g g' : Graph) : Prop where
  evolves : g.Evolves (·.node = c) g'
  quiet : g.Quiet g'
  idBound_eq : g'.idBound = g.idBound
  linkAt_eq : ∀ slot,
    g'.linkAt ⟨c, slot⟩ = if slot < i then g.copiedLink copies ⟨id, slot⟩ else none

theorem CopiedUpTo.succ {g g' g'' : Graph} {copies : CopyMap} {id c : NodeId} {i : Nat}
    (h : CopiedUpTo i copies id c g g') (hc : c < g.idBound) (he : g'.Evolves (· = ⟨c, i⟩) g'')
    (hq : g'.Quiet g'') (hb : g''.idBound = g'.idBound)
    (hl : g''.linkAt ⟨c, i⟩ = g.copiedLink copies ⟨id, i⟩) :
    CopiedUpTo (i + 1) copies id c g g'' := by
  refine ⟨h.evolves.trans (he.mono fun r hr => by simp [hr]), h.quiet.trans hq h.evolves.idBound_le,
    hb.trans h.idBound_eq, fun slot => ?_⟩
  by_cases hs : slot = i
  · rw [hs, if_pos (Nat.lt_succ_self i), hl]
  · have hlt : slot < i + 1 ↔ slot < i := by omega
    have hc' : c < g'.idBound := h.idBound_eq ▸ hc
    rw [he.linkAt_eq ⟨c, slot⟩ hc' (by simpa using hs), h.linkAt_eq slot]
    simp only [hlt]

/-- The state in which some of the copies are linked. `g₁` is the graph in which no copy is. -/
structure CopiesLinked (done copies : CopyMap) (g g₁ g' : Graph) : Prop where
  evolves : g₁.Evolves (fun r => ∃ p ∈ done, r.node = p.2) g'
  quiet : g₁.Quiet g'
  idBound_eq : g'.idBound = g₁.idBound
  linkAt_eq : ∀ p ∈ done, p.1 < g.idBound →
    ∀ slot, g'.linkAt ⟨p.2, slot⟩ = g.copiedLink copies ⟨p.1, slot⟩

/-- The links of one more copy. Those of the nodes themselves have not changed meanwhile, since no
copy is one of them. -/
theorem CopiesLinked.snoc {done copies : CopyMap} {g g₁ g' g'' : Graph} {id c : NodeId}
    (h : CopiesLinked done copies g g₁ g') (hb : g.idBound ≤ g₁.idBound)
    (hlink : ∀ r, g₁.linkAt r = g.linkAt r) (hfresh : ∀ p ∈ done, g.idBound ≤ p.2)
    (hnew : ∀ p ∈ done, p.2 ≠ c ∧ p.2 < g'.idBound) (h' : g'.Evolves (·.node = c) g'')
    (hq : g'.Quiet g'') (hb' : g''.idBound = g'.idBound)
    (hl : ∀ slot, g''.linkAt ⟨c, slot⟩ = g'.copiedLink copies ⟨id, slot⟩) :
    CopiesLinked (done ++ [(id, c)]) copies g g₁ g'' := by
  refine ⟨(h.evolves.mono ?_).trans (h'.mono ?_), h.quiet.trans hq h.evolves.idBound_le,
    hb'.trans h.idBound_eq, ?_⟩
  · rintro r ⟨p, hp, hr⟩
    exact ⟨p, List.mem_append_left _ hp, hr⟩
  · intro r hr
    exact ⟨(id, c), by simp, hr⟩
  · intro p hp hlt slot
    rcases List.mem_append.mp hp with hp | hp
    · rw [h'.linkAt_eq ⟨p.2, slot⟩ (hnew p hp).2 (hnew p hp).1]
      exact h.linkAt_eq p hp hlt slot
    · obtain rfl := List.mem_singleton.mp hp
      have hsame : g'.linkAt ⟨id, slot⟩ = g.linkAt ⟨id, slot⟩ := by
        rw [h.evolves.linkAt_eq ⟨id, slot⟩ (Nat.lt_of_lt_of_le hlt hb), hlink]
        rintro ⟨p, hp, hid⟩
        exact Nat.not_le.mpr hlt (Nat.le_trans (hfresh p hp) (Nat.le_of_eq hid.symm))
      rw [hl slot, copiedLink, copiedLink, hsame]

end Graph

namespace Edit

open Shading.Graph

variable {g : Graph}

theorem meets_removeNodes (hg : g.WellFormed) (ids : NodeSet) :
    (removeNodes ids).Meets g (fun _ => g.Removes ids) fun g' => g' = g ∧ g.finalized = true := by
  refine meets_requireMutable_bind (fun hm => ?_) fun hf => ⟨rfl, hf⟩
  refine Meets.bind (Ends.meets (ends_forM_trims (T := fun id r => id ≠ outputId ∧ (r.node = id ∨
    ∃ o, g.linkAt r = some o ∧ o.node = id)) hg ?_)) fun _ g₁ h₁ => meets_modify (removes_drop h₁)
  intro id hid T' g' h
  refine ends_get_bind ?_
  split_ifs with hc
  · obtain ⟨h0, hc⟩ := hc
    obtain ⟨k, hk⟩ := (g'.mem_ids_iff_kind?).mp ((g'.mem_ids).mpr hc)
    have hm' := h.finalized.trans hm
    refine Ends.bind ((meets_disconnectNodeInputs h.wellFormed id).ends
      fun _ he => by simp [hm', hk] at he) fun _ g₁ h₁ => ?_
    refine (ends_disconnectNodeOutputs h₁.wellFormed (h₁.finalized.trans hm')
      (h₁.evolves.kind?_some hk)).mono fun _ g₂ h₂ => ?_
    refine (h₁.trans h₂).congr fun r o ho => ?_
    -- what is linked to the node is the same before and after its inputs are unlinked
    have ho' := (h.linkAt_some ho).1
    by_cases hr : r.node = id
    · simp [hr, h0]
    · simp [hr, h0, h₁.kept r hr, ho, ho']
  · -- a node that is not there has no links
    refine ends_pure (.refl h.wellFormed ?_)
    rintro r ⟨h0, hr⟩
    cases ho : g'.linkAt r with
    | none => rfl
    | some o =>
      refine absurd ⟨h0, ?_⟩ hc
      rw [← mem_ids, mem_ids_iff_kind?]
      rcases hr with rfl | ⟨o', ho', rfl⟩
      · obtain ⟨d, hd⟩ := g'.inputDecl?_of_linkAt ho
        exact g'.kind?_of_inputDecl? hd
      · rw [(h.linkAt_some ho).1, Option.some.injEq] at ho'
        obtain ⟨e, he⟩ := h.wellFormed.exists_output ho
        exact ho' ▸ g'.kind?_of_outputDecl? he

theorem ends_removeNodes (hg : g.WellFormed) (hm : g.finalized = false) (ids : NodeSet) :
    (removeNodes ids).Ends g fun _ => g.Removes ids :=
  (meets_removeNodes hg ids).ends fun _ he => by simp [hm] at he

/-! ### Copying -/

/-- The nodes are copied without their links. -/
theorem meets_copyNodes (hg : g.WellFormed) (ids : NodeSet) :
    (copyNodes ids).Meets g
      (fun copies g' => g.Evolves (fun _ => False) g' ∧ g.Quiet g' ∧
        g'.idBound = g.idBound + ids.length ∧ copies = .numbered ids g.idBound ∧
        (∀ p ∈ copies, g.finalized = false ∧
          ∃ n, g'.bare? p.1 = some n ∧ g'.bare? p.2 = some n.copy) ∧
        ∀ r, g'.linkAt r = g.linkAt r)
      fun g' => g.Evolves (fun _ => False) g' ∧
        (g.finalized = true ∨ ∃ id ∈ ids, g.kind? id = none) := by
  induction ids generalizing g with
  | nil => exact meets_pure ⟨.refl hg, .refl, rfl, rfl, by simp, fun _ => rfl⟩
  | cons id ids ih =>
    unfold copyNodes
    rw [List.mapM_cons, bind_assoc]
    refine meets_ask_node_bind (fun n hn => ?_)
      fun hk => ⟨.refl hg, Or.inr ⟨id, List.mem_cons_self, hk⟩⟩
    have hid := g.lt_idBound_of_mem (mem_ids_of_node hn)
    have h₁ := evolves_push hg (hg.node_sound hn).copy
    have hq₁ := quiet_push (g := g) n.copy
    rw [bind_assoc]
    refine Meets.bind
      (P := fun c g' => g.finalized = false ∧ c = g.idBound ∧ g' = g.push n.copy)
      (meets_add (fun hm => ⟨hm, rfl, rfl⟩) fun hf => ⟨.refl hg, Or.inl hf⟩) ?_
    rintro _ _ ⟨hm, rfl, rfl⟩
    rw [pure_bind]
    refine Meets.bind ((ih h₁.wellFormed).mono (fun _ _ h => h) ?_) ?_
    · rintro g' ⟨h', hf | ⟨j, hj, hn⟩⟩
      · exact ⟨h₁.trans h', Or.inl hf⟩
      · exact ⟨h₁.trans h', Or.inr ⟨j, List.mem_cons_of_mem id hj, h₁.kind?_none hn⟩⟩
    · rintro copies g' ⟨h', hq, hb, rfl, hbare, hlink⟩
      have hlt : g.idBound < (g.push n.copy).idBound := by simp
      refine meets_pure ⟨h₁.trans h', hq₁.trans hq h₁.idBound_le, ?_, ?_, ?_, ?_⟩
      · rw [hb, idBound_push, List.length_cons]
        omega
      · rw [idBound_push, CopyMap.numbered, CopyMap.numbered, List.length_cons, List.range'_succ,
          List.zip_cons_cons]
      · intro p hp
        rcases List.mem_cons.mp hp with rfl | hp
        · refine ⟨hm, n.unlinked, ?_, ?_⟩
          · rw [hq.bare?_eq id (Nat.lt_trans hid hlt), hq₁.bare?_eq id hid, bare?, hn, Option.map_some]
          · rw [hq.bare?_eq _ hlt, bare?_push, if_pos rfl, n.unlinked_copy, n.copy_unlinked]
        · exact hbare p hp
      · intro r
        rw [hlink, linkAt_push]

/-- The copy of a node is linked to the copies of what feeds the node. -/
theorem ends_copyLinks (hg : g.WellFormed) (hm : g.finalized = false) {copies : CopyMap}
    (hcopies : ∀ p ∈ copies, ∃ k, g.kind? p.1 = some k ∧ g.kind? p.2 = some k) {id c : NodeId}
    (hp : (id, c) ∈ copies) (hfree : ∀ slot, g.linkAt ⟨c, slot⟩ = none) :
    (copyLinks copies id c).Ends g fun _ g' => g.Evolves (·.node = c) g' ∧ g.Quiet g' ∧
      g'.idBound = g.idBound ∧ ∀ slot, g'.linkAt ⟨c, slot⟩ = g.copiedLink copies ⟨id, slot⟩ := by
  obtain ⟨k, hk, hkc⟩ := hcopies _ hp
  refine meets_ask_node_bind (fun n hn => ?_) fun hnone => by simp [hnone] at hk
  have hlink : ∀ slot i, n.inputs[slot]? = some i → g.linkAt ⟨id, slot⟩ = i.link :=
    fun slot i hi => by simp [linkAt, input?, hn, hi]
  have hc : c < g.idBound := g.lt_idBound_of_kind? hkc
  refine (ends_forM_zipIdx (fun i => CopiedUpTo i copies id c g)
    ⟨.refl hg, .refl, rfl, by simpa using hfree⟩ ?_).mono ?_
  · rintro i j g' hi h
    have hij := hlink j i hi
    have hfree' : g'.linkAt ⟨c, j⟩ = none := by rw [h.linkAt_eq, if_neg (Nat.lt_irrefl j)]
    have hkeep : g.copiedLink copies ⟨id, j⟩ = none → CopiedUpTo (j + 1) copies id c g g' :=
      fun hnone => h.succ hc (.refl h.evolves.wellFormed) .refl rfl (hfree'.trans hnone.symm)
    dsimp only
    cases hs : i.link with
    | none => exact ends_pure (hkeep (by simp [copiedLink, hij, hs]))
    | some source =>
      rw [hs] at hij
      dsimp only
      cases hsc : copies.lookup source.node with
      | none => exact ends_pure (hkeep (by simp [copiedLink, hij, hsc]))
      | some sc =>
        -- both ends of the link have copies of their own kinds, so the copies can be linked
        obtain ⟨d, hd⟩ := g.inputDecl?_of_linkAt hij
        obtain ⟨e, he⟩ := hg.exists_output hij
        obtain ⟨hl, hty⟩ := hg.typed _ _ d e hij hd he
        obtain ⟨k', hk', hksc⟩ := hcopies (source.node, sc) (CopyMap.mem_of_lookup hsc)
        have hd' : g'.inputDecl? ⟨c, j⟩ = some d :=
          (hg.inputDecl?_congr h.evolves.wellFormed hk (h.evolves.kind?_some hkc) j).trans hd
        have he' : g'.outputDecl? ⟨sc, source.slot⟩ = some e :=
          (hg.outputDecl?_congr h.evolves.wellFormed hk' (h.evolves.kind?_some hksc) _).trans he
        refine ends_discard (ends_connect_linked
          (h.evolves.finalized.trans hm) ⟨he', hd', hfree', hl⟩ hty ?_)
        refine h.succ hc (evolves_link h.evolves.wellFormed he' hd' hfree' hl hty) (quiet_link _ _)
          (idBound_link _ _ _) ?_
        rw [linkAt_link _ (by simp [hd']), if_pos rfl]
        simp [copiedLink, hij, hsc]
  · rintro _ g' h
    refine ⟨h.evolves, h.quiet, h.idBound_eq, fun slot => ?_⟩
    rw [h.linkAt_eq slot]
    split_ifs with hs
    · rfl
    · have hnone : g.linkAt ⟨id, slot⟩ = none := by
        simp [linkAt, input?, hn, Nat.not_lt.mp hs]
      simp [copiedLink, hnone]

theorem meets_copySubgraph (hg : g.WellFormed) (ids : NodeSet) :
    (copySubgraph ids).Meets g (fun copies => g.Copies ids copies)
      fun g' => g.Evolves (fun _ => False) g' ∧
        (g.finalized = true ∨ ∃ id ∈ ids, g.kind? id = none) := by
  refine Meets.bind (meets_copyNodes hg ids) ?_
  rintro copies g₁ ⟨h₁, hq₁, hb, hnum, hbare, hlink⟩
  have hkind : ∀ p ∈ copies, ∃ k, g₁.kind? p.1 = some k ∧ g₁.kind? p.2 = some k := fun p hp => by
    obtain ⟨-, n, hn, hcopy⟩ := hbare p hp
    exact ⟨n.kind, by rw [kind?_eq_bare?, hn]; rfl, by rw [kind?_eq_bare?, hcopy]; rfl⟩
  have hlt : ∀ p ∈ copies, p.2 < g₁.idBound := fun p hp => by
    obtain ⟨k, -, hk⟩ := hkind p hp
    exact g₁.lt_idBound_of_kind? hk
  have hnodup : (copies.map Prod.snd).Nodup := by
    rw [hnum, CopyMap.map_snd_numbered]
    exact List.nodup_range'
  have hfresh : ∀ p ∈ copies, g.idBound ≤ p.2 := fun p hp =>
    (CopyMap.mem_range_of_mem_numbered (hnum ▸ hp)).1
  refine Meets.bind (Ends.meets (ends_forM (fun rest g' => ∃ done, copies = done ++ rest ∧
    CopiesLinked done copies g g₁ g') ⟨[], rfl, .refl h₁.wellFormed, .refl, rfl, by simp⟩ ?_)) ?_
  · rintro ⟨id, c⟩ rest g' ⟨done, hcs, h⟩
    have hp : (id, c) ∈ copies := by simp [hcs]
    have hm := (hbare _ hp).1
    have hdone : ∀ p ∈ done, p ∈ copies := fun p hpd => by simp [hcs, hpd]
    have hne : ∀ p ∈ done, p.2 ≠ c := by
      rw [hcs, List.map_append, List.map_cons] at hnodup
      intro p hpd hpc
      exact (List.nodup_append.mp hnodup).2.2 p.2 (List.mem_map_of_mem hpd) c (by simp) hpc
    have hfree : ∀ slot, g'.linkAt ⟨c, slot⟩ = none := fun slot => by
      rw [h.evolves.linkAt_eq _ (hlt _ hp) fun ⟨p, hpd, hpc⟩ => hne p hpd hpc.symm, hlink,
        linkAt_of_idBound_le (hfresh _ hp)]
    have hcopies : ∀ p ∈ copies, ∃ k, g'.kind? p.1 = some k ∧ g'.kind? p.2 = some k := fun p hp => by
      obtain ⟨k, h₁, h₂⟩ := hkind p hp
      exact ⟨k, h.evolves.kind?_some h₁, h.evolves.kind?_some h₂⟩
    refine (ends_copyLinks h.evolves.wellFormed (h.evolves.finalized.trans (h₁.finalized.trans hm))
      hcopies hp hfree).mono ?_
    rintro _ g'' ⟨h', hq', hb', hl'⟩
    exact ⟨done ++ [(id, c)], by simp [hcs], h.snoc h₁.idBound_le hlink
      (fun p hpd => hfresh p (hdone p hpd))
      (fun p hpd => ⟨hne p hpd, h.idBound_eq ▸ hlt p (hdone p hpd)⟩) h' hq' hb' hl'⟩
  · rintro _ g' ⟨done, hcs, h⟩
    rw [List.append_nil] at hcs
    subst hcs
    refine meets_pure ⟨h₁.trans_fresh h.evolves ?_, hq₁.trans h.quiet h₁.idBound_le, hnum,
      h.idBound_eq.trans hb, ?_, h.linkAt_eq⟩
    · rintro r ⟨p, hp, hr⟩
      exact Or.inr (hr ▸ hfresh p hp)
    · intro p hp hp₁
      obtain ⟨-, n, hn, hcopy⟩ := hbare p hp
      rw [h.quiet.bare?_eq _ (hlt p hp), hcopy, ← hq₁.bare?_eq _ hp₁, hn, Option.map_some]

end Edit

end Shading
