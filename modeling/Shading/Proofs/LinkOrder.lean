import Mathlib.Data.List.Nodup
import Mathlib.Data.List.Perm.Basic
import Shading.Proofs.Bridges
import Shading.Proofs.Description

/-!
# The order of links

The links of a description may come in any order as long as no two of them have the same target. What
changes are the ids of bridges, the order in which outputs list their consumers, and the order of
reports (`renamed_foldl_joined`). Two links that are made one after the other add blocks of nodes at
the end of the graph, and to exchange the links is to exchange the blocks. -/

namespace Shading

open Equiv (Perm)

/-- Exchanges the `m` ids from `b` on with the `n` ids that come after them. -/
def exchange (b m n : Nat) : Perm Nat where
  toFun id := if id < b then id else if id < b + m then id + n else if id < b + m + n then id - m else id
  invFun id := if id < b then id else if id < b + n then id + m else if id < b + n + m then id - n else id
  left_inv id := by
    dsimp only
    split_ifs <;> omega
  right_inv id := by
    dsimp only
    split_ifs <;> omega

section

variable {b m n id : Nat}

theorem exchange_of_lt (h : id < b) : exchange b m n id = id := if_pos h

theorem exchange_of_le (h : b + m + n ≤ id) : exchange b m n id = id := by
  simp only [exchange, Equiv.coe_fn_mk]
  split_ifs <;> omega

theorem exchange_first {i : Nat} (h : i < m) : exchange b m n (b + i) = b + n + i := by
  simp only [exchange, Equiv.coe_fn_mk]
  split_ifs <;> omega

theorem exchange_second {i : Nat} (h : i < n) : exchange b m n (b + m + i) = b + i := by
  simp only [exchange, Equiv.coe_fn_mk]
  split_ifs <;> omega

end

namespace Graph

variable {g g' : Graph} {σ : Perm NodeId}

/-! ### Blocks of nodes -/

/-- The nodes of a graph name nodes of the graph only. -/
theorem WellFormed.alike_self (hg : g.WellFormed) (hσ : ∀ id, id < g.idBound → σ id = id)
    {id : NodeId} {n : Node} (hn : g.node? id = some n) : n.Alike σ n := by
  refine n.alike_self (fun i hi o ho => ?_) fun o ho r hr => ?_
  · obtain ⟨slot, hslot⟩ := List.getElem?_of_mem hi
    have hl : g.linkAt ⟨id, slot⟩ = some o := (g.linkAt_of_getElem? hn hslot).trans ho
    obtain ⟨e, he⟩ := hg.exists_output hl
    obtain ⟨k, hk⟩ := g.kind?_of_outputDecl? he
    exact hσ _ (g.lt_idBound_of_kind? hk)
  · obtain ⟨slot, hslot⟩ := List.getElem?_of_mem ho
    have hf : r ∈ g.fanOut ⟨id, slot⟩ := by simpa [fanOut, output?, hn, hslot] using hr
    obtain ⟨d, hd⟩ := g.inputDecl?_of_linkAt ((hg.link_iff r _).mpr hf)
    exact hσ _ (node_lt_of_inputDecl? hd)

/-- Two blocks of nodes may be added in any order. -/
theorem WellFormed.renamed_pushAll (hg : g.WellFormed) (ns ns' : List Node) :
    (g.pushAll (ns ++ ns')).Renamed (exchange g.idBound ns.length ns'.length)
      (g.pushAll (ns' ++ ns)) where
  idBound := by simp [Nat.add_comm]
  simplified := by
    rw [simplified_pushAll, simplified_pushAll]
    cases ns <;> cases ns' <;> rfl
  finalized := by simp [finalized_pushAll]
  diagnostics := by simp [diagnostics_pushAll]
  node := by
    intro (id : Nat)
    by_cases hlt : id < g.idBound
    · rw [node?_pushAll, node?_pushAll, exchange_of_lt hlt, if_pos hlt, if_pos hlt]
      cases hn : g.node? id with
      | none => exact .none
      | some n => exact .some (hg.alike_self (fun _ h => exchange_of_lt h) hn)
    · -- the node has the same place in its block on both sides
      obtain ⟨i, rfl⟩ := Nat.exists_eq_add_of_le (Nat.not_lt.mp hlt)
      obtain ⟨j, hj, hsame⟩ : ∃ j, exchange g.idBound ns.length ns'.length (g.idBound + i) =
          g.idBound + j ∧ (ns' ++ ns)[j]? = (ns ++ ns')[i]? := by
        by_cases hfirst : i < ns.length
        · refine ⟨ns'.length + i, by rw [exchange_first hfirst, Nat.add_assoc], ?_⟩
          rw [List.getElem?_append_left hfirst, List.getElem?_append_right (by omega),
            Nat.add_sub_cancel_left]
        · obtain ⟨i, rfl⟩ := Nat.exists_eq_add_of_le (Nat.not_lt.mp hfirst)
          by_cases hsecond : i < ns'.length
          · refine ⟨i, by rw [← Nat.add_assoc, exchange_second hsecond], ?_⟩
            rw [List.getElem?_append_left hsecond, List.getElem?_append_right (by omega),
              Nat.add_sub_cancel_left]
          · have hle := Nat.not_lt.mp hsecond
            refine ⟨ns.length + i, exchange_of_le (by omega), ?_⟩
            rw [List.getElem?_eq_none (by simp; omega), List.getElem?_eq_none (by simp; omega)]
      rw [hj, node?_pushAll, node?_pushAll, if_neg hlt, if_neg (by omega), Nat.add_sub_cancel_left,
        Nat.add_sub_cancel_left, hsame]
      cases (ns ++ ns')[i]? with
      | none => exact .none
      | some n => exact .some n.alike_unlinked

namespace Renamed

theorem pushAll (h : g.Renamed σ g') (hσ : ∀ id, g.idBound ≤ id → σ id = id) (ns : List Node) :
    (g.pushAll ns).Renamed σ (g'.pushAll ns) := by
  induction ns generalizing g g' with
  | nil => exact h
  | cons n ns ih =>
    refine ih (h.push n (hσ _ (Nat.le_refl _))) fun id hid => hσ id ?_
    rw [idBound_push] at hid
    exact Nat.le_of_succ_le hid

theorem linkAll (h : g.Renamed σ g') (ls : List Link) :
    (g.linkAll ls).Renamed σ (g'.linkAll (ls.map (·.rename σ))) := by
  induction ls generalizing g g' with
  | nil => exact h
  | cons l ls ih => exact ih (h.link l.source l.target)

theorem reportAll (h : g.Renamed σ g') {ds ds' : List Diagnostic} (hd : ds'.Perm ds) :
    (g.reportAll ds).Renamed σ (g'.reportAll ds') := by
  rw [reportAll_eq, reportAll_eq]
  exact { h with diagnostics := h.diagnostics.append hd }

end Renamed

/-- Links to different inputs may be made in any order. -/
theorem renamed_linkAll_perm {ls ls' : List Link} (h : ls.Perm ls')
    (hd : (ls.map (·.target)).Nodup) (g : Graph) :
    (g.linkAll ls).Renamed (.refl _) (g.linkAll ls') := by
  induction h generalizing g with
  | nil => exact renamed_refl g
  | cons l _ ih => exact ih (List.nodup_cons.mp hd).2 _
  | swap l l' ls =>
    have hne : l'.target ≠ l.target := by
      intro heq
      simp [heq] at hd
    have h := (g.renamed_link_comm l'.source l.source hne).linkAll ls
    rw [List.map_congr_left fun l _ => Link.rename_refl l, List.map_id'] at h
    simpa only [linkAll_cons] using h
  | trans h₁ _ ih₁ ih₂ => exact (ih₁ hd g).trans (ih₂ ((h₁.map _).nodup_iff.mp hd) g)

/-! ### Two patches -/

/-- All ends of the links are among the ids given out. -/
def Covers (g : Graph) (ls : List Link) : Prop :=
  ∀ l ∈ ls, l.source.node < g.idBound ∧ l.target.node < g.idBound

theorem push_link {s : OutputRef} {t : InputRef} (hs : s.node < g.idBound) (ht : t.node < g.idBound)
    (n : Node) : (g.link s t).push n = (g.push n).link s t := by
  refine eq_of_node? (by simp) (fun id => ?_) rfl rfl rfl
  simp only [node?_push, node?_link, idBound_link]
  by_cases hid : id = g.idBound
  · simp [hid, (Nat.ne_of_lt hs).symm, (Nat.ne_of_lt ht).symm]
  · simp [hid]

theorem pushAll_link {s : OutputRef} {t : InputRef} (hs : s.node < g.idBound)
    (ht : t.node < g.idBound) (ns : List Node) :
    (g.link s t).pushAll ns = (g.pushAll ns).link s t := by
  induction ns generalizing g with
  | nil => rfl
  | cons n ns ih =>
    change ((g.link s t).push n).pushAll ns = ((g.push n).pushAll ns).link s t
    rw [push_link hs ht, ih (by simpa using Nat.lt_succ_of_lt hs) (by simpa using Nat.lt_succ_of_lt ht)]

theorem pushAll_linkAll {ls : List Link} (hls : g.Covers ls) (ns : List Node) :
    (g.linkAll ls).pushAll ns = (g.pushAll ns).linkAll ls := by
  induction ls generalizing g with
  | nil => rfl
  | cons l ls ih =>
    obtain ⟨hs, ht⟩ := hls l List.mem_cons_self
    have hrest : (g.link l.source l.target).Covers ls := fun l' hl' => by
      simpa using hls l' (List.mem_cons_of_mem l hl')
    rw [linkAll_cons, linkAll_cons, ih hrest, pushAll_link hs ht]

theorem pushAll_reportAll (ds : List Diagnostic) (ns : List Node) :
    (g.reportAll ds).pushAll ns = (g.pushAll ns).reportAll ds := by
  simp only [reportAll_eq]
  refine List.foldl_hom (fun g : Graph => { g with diagnostics := g.diagnostics ++ ds }) ?_
  exact fun _ _ => rfl

theorem linkAll_reportAll (ds : List Diagnostic) (ls : List Link) :
    (g.reportAll ds).linkAll ls = (g.linkAll ls).reportAll ds := by
  simp only [reportAll_eq]
  refine List.foldl_hom (fun g : Graph => { g with diagnostics := g.diagnostics ++ ds }) ?_
  exact fun _ _ => rfl

/-- What is done in two rounds can be done in one. -/
theorem extend_extend {ns ns' : List Node} {ls ls' : List Link} {ds ds' : List Diagnostic}
    (hls : (g.pushAll ns).Covers ls) : (g.extend ns ls ds).extend ns' ls' ds' =
      g.extend (ns ++ ns') (ls ++ ls') (ds ++ ds') := by
  rw [extend, extend, extend, pushAll_reportAll, linkAll_reportAll, pushAll_linkAll hls]
  simp only [pushAll, linkAll, reportAll, List.foldl_append]

theorem covers_links {p : Patch} {l : Link} (hp : p.Local l.source l.target) (hl : g.Covers [l]) :
    (g.pushAll p.nodes).Covers (p.links g.idBound) := by
  obtain ⟨hs, ht⟩ := hl l List.mem_cons_self
  intro l' hl'
  rw [idBound_pushAll]
  refine ⟨?_, ?_⟩
  · rcases hp.source _ l' hl' with h | h
    · rw [h]
      exact Nat.lt_add_right _ hs
    · exact h.2
  · rcases hp.target _ l' hl' with h | h
    · rw [h]
      exact Nat.lt_add_right _ ht
    · exact h.2

theorem apply_apply {p : Patch} {l : Link} (hp : p.Local l.source l.target) (hl : g.Covers [l])
    (q : Patch) : (g.apply p).apply q = g.extend (p.nodes ++ q.nodes)
      (p.links g.idBound ++ q.links (g.idBound + p.nodes.length)) (p.reports ++ q.reports) := by
  have hb : (g.apply p).idBound = g.idBound + p.nodes.length := g.idBound_extend _ _ _
  rw [apply, hb]
  exact extend_extend (covers_links hp hl)

/-- Patches for different inputs, with different blocks of nodes, link different inputs. -/
theorem nodup_targets_append {p q : Patch} {l l' : Link} (hp : p.Local l.source l.target)
    (hq : q.Local l'.source l'.target) {b : Nat} (hl : l.target.node < b) (hl' : l'.target.node < b)
    (hne : l.target ≠ l'.target) :
    ((p.links (b + q.nodes.length) ++ q.links b).map (·.target)).Nodup := by
  rw [List.map_append, List.nodup_append]
  refine ⟨hp.nodup _ (Nat.lt_add_right _ hl), hq.nodup _ hl', ?_⟩
  rintro a ha a' ha' rfl
  obtain ⟨x, hx, rfl⟩ := List.mem_map.mp ha
  obtain ⟨y, hy, hxy⟩ := List.mem_map.mp ha'
  have hnode : y.target.node = x.target.node := by rw [hxy]
  rcases hp.target _ x hx with h | ⟨h, -⟩ <;> rcases hq.target _ y hy with h' | ⟨h', h''⟩
  · exact hne (h.symm.trans (hxy.symm.trans h'))
  · rw [hnode, h] at h'
    exact absurd hl (Nat.not_lt.mpr h')
  · rw [← hnode, h'] at h
    exact absurd hl' (Nat.not_lt.mpr (Nat.le_of_add_right_le h))
  · rw [hnode] at h''
    exact absurd h'' (Nat.not_lt.mpr h)

/-- **Patches for different inputs may be applied in any order**, up to the ids of the nodes that
they add. -/
theorem renamed_apply_comm (hg : g.WellFormed) {p q : Patch} {l l' : Link}
    (hp : p.Local l.source l.target) (hq : q.Local l'.source l'.target) (hl : g.Covers [l])
    (hl' : g.Covers [l']) (hne : l.target ≠ l'.target) :
    ((g.apply p).apply q).Renamed (exchange g.idBound p.nodes.length q.nodes.length)
      ((g.apply q).apply p) := by
  obtain ⟨hs, ht⟩ := hl l List.mem_cons_self
  obtain ⟨hs', ht'⟩ := hl' l' List.mem_cons_self
  rw [apply_apply hp hl, apply_apply hq hl']
  have hlinks := (hg.renamed_pushAll p.nodes q.nodes).linkAll
    (p.links g.idBound ++ q.links (g.idBound + p.nodes.length))
  rw [List.map_append,
    hp.rename _ _ (g.idBound + q.nodes.length) (fun i hi => exchange_first hi) (exchange_of_lt hs)
      (exchange_of_lt ht),
    hq.rename _ _ g.idBound (fun i hi => exchange_second hi) (exchange_of_lt hs')
      (exchange_of_lt ht')] at hlinks
  have horder := renamed_linkAll_perm List.perm_append_comm
    (nodup_targets_append hp hq ht ht' hne) (g.pushAll (q.nodes ++ p.nodes))
  exact (hlinks.trans horder).reportAll List.perm_append_comm

/-! ### Two links -/

theorem HasEnds.covers {l : Link} (h : g.HasEnds l) : g.Covers [l] := by
  obtain ⟨⟨e, he⟩, d, hd⟩ := h
  obtain ⟨k, hk⟩ := g.kind?_of_outputDecl? he
  simpa [Covers] using ⟨g.lt_idBound_of_kind? hk, node_lt_of_inputDecl? hd⟩

theorem idBound_joined (l : Link) :
    (g.joined l).idBound = g.idBound + (g.patchFor l).nodes.length := g.idBound_extend _ _ _

/-- To link another input does not change what can be linked. -/
theorem patchFor_joined (hg : g.WellFormed) (hm : g.finalized = false) {l l' : Link}
    (hl : g.HasEnds l) (hl' : g.HasEnds l') (hne : l'.target ≠ l.target) :
    (g.joined l).patchFor l' = g.patchFor l' := by
  have h := evolves_joined hg hm hl
  obtain ⟨⟨e, he⟩, d, hd⟩ := hl'
  rw [patchFor, patchFor, h.outputDecl?_some hg he, h.inputDecl?_some hg hd, he, hd,
    h.linkAt_eq _ (node_lt_of_inputDecl? hd) hne]

theorem joined_joined (hg : g.WellFormed) (hm : g.finalized = false) {l l' : Link}
    (hl : g.HasEnds l) (hl' : g.HasEnds l') (hne : l'.target ≠ l.target) :
    (g.joined l).joined l' = (g.apply (g.patchFor l)).apply (g.patchFor l') := by
  rw [joined, patchFor_joined hg hm hl hl' hne, joined]

theorem renamed_joined_comm (hg : g.WellFormed) (hm : g.finalized = false) {l l' : Link}
    (hl : g.HasEnds l) (hl' : g.HasEnds l') (hne : l.target ≠ l'.target) :
    ((g.joined l).joined l').Renamed
      (exchange g.idBound (g.patchFor l).nodes.length (g.patchFor l').nodes.length)
      ((g.joined l').joined l) := by
  rw [joined_joined hg hm hl hl' hne.symm, joined_joined hg hm hl' hl hne]
  exact renamed_apply_comm hg (g.local_patchFor l) (g.local_patchFor l') hl.covers hl'.covers hne

/-! ### Any number of links -/

namespace Renamed

theorem patchFor (h : g.Renamed σ g') {l : Link} (hs : l.source.rename σ = l.source)
    (ht : l.target.rename σ = l.target) : g'.patchFor l = g.patchFor l := by
  have hout := h.outputDecl? l.source
  have hin := h.inputDecl? l.target
  have hlink := h.linkAt l.target
  rw [hs] at hout
  rw [ht] at hin hlink
  rw [Graph.patchFor, Graph.patchFor, hout, hin, hlink, Option.isSome_map]

theorem joined (h : g.Renamed σ g') (hσ : ∀ id, g.idBound ≤ id → σ id = id) {l : Link}
    (hs : σ l.source.node = l.source.node) (ht : σ l.target.node = l.target.node) :
    (g.joined l).Renamed σ (g'.joined l) := by
  have hp := h.patchFor (OutputRef.rename_eq_self hs) (InputRef.rename_eq_self ht)
  have hlinks := (h.pushAll hσ (g.patchFor l).nodes).linkAll ((g.patchFor l).links g.idBound)
  rw [(g.local_patchFor l).rename σ _ g.idBound (fun i _ => hσ _ (Nat.le_add_right _ i)) hs ht]
    at hlinks
  rw [Graph.joined, Graph.joined, hp, apply, apply, h.idBound]
  exact hlinks.reportAll (.refl _)

theorem foldl_joined (h : g.Renamed σ g') (hσ : ∀ id, g.idBound ≤ id → σ id = id) {ls : List Link}
    (hls : ∀ l ∈ ls, σ l.source.node = l.source.node ∧ σ l.target.node = l.target.node) :
    (ls.foldl Graph.joined g).Renamed σ (ls.foldl Graph.joined g') := by
  induction ls generalizing g g' with
  | nil => exact h
  | cons l ls ih =>
    obtain ⟨hs, ht⟩ := hls l List.mem_cons_self
    refine ih (h.joined hσ hs ht) (fun id hid => hσ id ?_) fun l' hl' =>
      hls l' (List.mem_cons_of_mem l hl')
    rw [idBound_joined] at hid
    exact Nat.le_of_add_right_le hid

end Renamed

/-- **Sockets may be linked in any order** if no input is the target twice. -/
theorem renamed_foldl_joined {ls ls' : List Link} (h : ls.Perm ls') (hg : g.WellFormed)
    (hm : g.finalized = false) (hls : ∀ l ∈ ls, g.HasEnds l) (hd : (ls.map (·.target)).Nodup) :
    ∃ σ : Perm NodeId, (∀ id, id < g.idBound → σ id = id) ∧
      (ls.foldl joined g).Renamed σ (ls'.foldl joined g) := by
  induction h generalizing g with
  | nil => exact ⟨.refl _, fun _ _ => rfl, renamed_refl g⟩
  | @cons l ls ls' _ ih =>
    have hev := evolves_joined hg hm (hls l List.mem_cons_self)
    obtain ⟨σ, hσ, hr⟩ := ih hev.wellFormed (hev.finalized.trans hm)
      (fun l' hl' => hev.hasEnds hg (hls l' (List.mem_cons_of_mem l hl'))) (List.nodup_cons.mp hd).2
    exact ⟨σ, fun id hid => hσ id (Nat.lt_of_lt_of_le hid hev.idBound_le), hr⟩
  | swap l l' ls =>
    have hne : l'.target ≠ l.target := by
      intro heq
      simp [heq] at hd
    have hl := hls l (by simp)
    have hl' := hls l' (by simp)
    refine ⟨_, fun id hid => exchange_of_lt hid,
      (renamed_joined_comm hg hm hl' hl hne).foldl_joined (fun id hid => exchange_of_le ?_) ?_⟩
    · rwa [idBound_joined, idBound_joined, patchFor_joined hg hm hl' hl hne.symm] at hid
    · intro x hx
      obtain ⟨hs, ht⟩ := (hls x (by simp [hx])).covers x List.mem_cons_self
      exact ⟨exchange_of_lt hs, exchange_of_lt ht⟩
  | @trans ls₁ ls₂ ls₃ h₁ _ ih₁ ih₂ =>
    obtain ⟨σ, hσ, hr⟩ := ih₁ hg hm hls hd
    obtain ⟨τ, hτ, hr'⟩ := ih₂ hg hm (fun l hl => hls l (h₁.mem_iff.mpr hl))
      ((h₁.map _).nodup_iff.mp hd)
    refine ⟨σ.trans τ, fun id hid => ?_, hr.trans hr'⟩
    rw [Equiv.trans_apply, hσ id hid, hτ id hid]

end Graph

/-! ### The links of a description -/

namespace Description

variable {nodes : List DescribedNode} {g₀ : Graph} {names : Names}

/-- A node has one name at most. -/
theorem Named.name_unique {name name' : String} {id : NodeId} {k k' : NodeKind}
    (h : Named nodes name id k) (h' : Named nodes name' id k') : name = name' ∧ k = k' := by
  cases h with
  | output =>
    generalize hid : Graph.outputId = id at h'
    cases h' with
    | output => exact ⟨rfl, rfl⟩
    | node _ => cases hid
  | @node i n hn =>
    generalize hid : i + 1 = id at h'
    cases h' with
    | output => cases hid
    | node hn' =>
      cases hid
      rw [hn] at hn'
      cases hn'
      exact ⟨rfl, rfl⟩

/-- Different texts stand for different inputs. -/
theorem leftUnique_targetAt : Relator.LeftUnique (TargetAt nodes) := by
  rintro text text' ⟨id, slot⟩ ⟨k, socket, ⟨name, htext, -, hn⟩, hslot⟩
    ⟨k', socket', ⟨name', htext', -, hn'⟩, hslot'⟩
  obtain ⟨rfl, rfl⟩ := hn.name_unique hn'
  obtain ⟨_, hname, -⟩ := List.findIdx?_eq_some_iff_getElem.mp hslot
  obtain ⟨_, hname', -⟩ := List.findIdx?_eq_some_iff_getElem.mp hslot'
  have hsocket : socket = socket' := (eq_of_beq hname).symm.trans (eq_of_beq hname')
  rw [htext, htext', hsocket]

theorem Drafted.rightUnique_targetAt (h : Drafted nodes g₀ names) :
    Relator.RightUnique (TargetAt nodes) := by
  rintro text ⟨id, slot⟩ ⟨id', slot'⟩ ⟨k, socket, hr, hslot⟩ ⟨k', socket', hr', hslot'⟩
  obtain ⟨rfl, rfl, rfl⟩ := h.refers_unique hr hr'
  rw [hslot, Option.some.injEq] at hslot'
  rw [show slot = slot' from hslot']

theorem Drafted.rightUnique_sourceAt (h : Drafted nodes g₀ names) :
    Relator.RightUnique (SourceAt nodes) := by
  rintro text ⟨id, slot⟩ ⟨id', slot'⟩ ⟨k, socket, hr, hslot⟩ ⟨k', socket', hr', hslot'⟩
  obtain ⟨rfl, rfl, rfl⟩ := h.refers_unique hr hr'
  rw [hslot, Option.some.injEq] at hslot'
  rw [show slot = slot' from hslot']

theorem Drafted.rightUnique_ends (h : Drafted nodes g₀ names) : Relator.RightUnique (Ends nodes) := by
  rintro l ⟨s, t⟩ ⟨s', t'⟩ he he'
  have hs : s = s' := h.rightUnique_sourceAt he.source he'.source
  have ht : t = t' := h.rightUnique_targetAt he.target he'.target
  rw [hs, ht]

/-- Links with different targets link different inputs. -/
theorem Drafted.nodup_targets (h : Drafted nodes g₀ names) {ls : List DescribedLink}
    {es : List Graph.Link} (hes : List.Forall₂ (Ends nodes) ls es)
    (hd : (ls.map (·.target)).Nodup) : (es.map (·.target)).Nodup := by
  have hmap : List.Forall₂ (TargetAt nodes) (ls.map (·.target)) (es.map (·.target)) := by
    rw [List.forall₂_map_left_iff, List.forall₂_map_right_iff]
    exact hes.imp fun _ _ he => he.target
  exact (List.rel_nodup ⟨leftUnique_targetAt, h.rightUnique_targetAt⟩ hmap).mp hd

/-- The order of links does not matter to the draft of a description. -/
theorem Drafted.exists_renamed (h : Drafted nodes g₀ names) {ls ls' : List DescribedLink}
    (hp : ls.Perm ls') {es es' : List Graph.Link} (hes : List.Forall₂ (Ends nodes) ls es)
    (hes' : List.Forall₂ (Ends nodes) ls' es') (hd : (ls.map (·.target)).Nodup) :
    ∃ σ : Perm NodeId, (∀ id, id ≤ nodes.length → σ id = id) ∧
      (es.foldl Graph.joined g₀).Renamed σ (es'.foldl Graph.joined g₀) := by
  obtain ⟨es'', hes'', hperm⟩ := List.perm_comp_forall₂ hp hes'
  rw [h.rightUnique_ends.forall₂ hes'' hes] at hperm
  have hends : ∀ e ∈ es, g₀.HasEnds e := fun e he => by
    obtain ⟨l, -, hl⟩ := forall₂_exists_left hes.flip e he
    exact h.hasEnds hl
  obtain ⟨σ, hσ, hr⟩ := Graph.renamed_foldl_joined hperm h.wellFormed h.unfinalized hends
    (h.nodup_targets hes hd)
  rw [h.idBound] at hσ
  exact ⟨σ, fun id hid => hσ id (Nat.lt_succ_of_le hid), hr⟩

theorem Drafted.anchored (h : Drafted nodes g₀ names) {ls : List DescribedLink}
    {es : List Graph.Link} (hes : List.Forall₂ (Ends nodes) ls es) :
    (es.foldl Graph.joined g₀).Anchored nodes.length := by
  refine Graph.anchored_foldl_joined h.wellFormed h.unfinalized ?_ (fun e he => ?_) ?_
  · intro r o ho
    rw [h.free] at ho
    cases ho
  · obtain ⟨l, -, hl⟩ := forall₂_exists_left hes.flip e he
    obtain ⟨k, socket, ⟨name, -, -, hn⟩, -⟩ := hl.source
    exact ⟨h.hasEnds hl, hn.le_length⟩
  · rw [h.idBound]
    exact Nat.lt_succ_self _

theorem exists_of_bind_eq_ok {α β : Type} {x : Except DescriptionFault α}
    {f : α → Except DescriptionFault β} {b : β} (h : (x >>= f) = .ok b) :
    ∃ a, x = .ok a ∧ f a = .ok b := by
  cases x with
  | ok a => exact ⟨a, rfl, h⟩
  | error fault => cases h

/-- **The order of links does not matter if their targets differ.** In any other order they make a
graph as well, and it is the same one up to the ids of bridges, the order of consumers and the order
of reports. Each described input is linked to the same output of a described node, or draws from the
same one through bridges. -/
theorem build_perm_links {d : Description} {g : Graph} (hg : d.build = .ok g)
    (hd : (d.links.map (·.target)).Nodup) {links : List DescribedLink} (hp : d.links.Perm links) :
    ∃ (g' : Graph) (σ : Perm NodeId), { d with links }.build = .ok g' ∧
      (∀ id, id ≤ d.nodes.length → σ id = id) ∧
      (∀ id k, d.nodes.length < id → g.kind? id = some k → k.IsBridge) ∧ g.Renamed σ g' ∧
      ∀ r : InputRef, r.node ≤ d.nodes.length →
        (∀ s : OutputRef, s.node ≤ d.nodes.length → (g.linkAt r = some s ↔ g'.linkAt r = some s)) ∧
        (∀ s, g.Draws d.nodes.length r s ↔ g'.Draws d.nodes.length r s) ∧
        (g.linkAt r ≠ none → ∃ s, g.Draws d.nodes.length r s) := by
  rw [build_eq] at hg
  obtain ⟨s, hs, hlinks⟩ := exists_of_bind_eq_ok hg
  obtain ⟨-, h⟩ := d.admits_draft.of_ok hs
  obtain ⟨hall, es, hes, rfl⟩ := (h.admits_links d.links).of_ok hlinks
  obtain ⟨g', hg'⟩ := (h.admits_links links).exists_ok_iff.mpr fun l hl =>
    hall l (hp.mem_iff.mpr hl)
  obtain ⟨-, es', hes', rfl⟩ := (h.admits_links links).of_ok hg'
  obtain ⟨σ, hσ, hrenamed⟩ := h.exists_renamed hp hes hes' hd
  refine ⟨_, σ, ?_, hσ, fun id k => h.isBridge, hrenamed, fun r hr => ⟨?_, ?_, ?_⟩⟩
  · rw [build_eq]
    change (d.draft >>= fun s => links.foldlM (addLink s.2) s.1) = _
    rw [hs]
    exact hg'
  · exact fun s => hrenamed.linkAt_iff hσ hr
  · exact hrenamed.draws_iff hσ hr
  · intro hlinked
    obtain ⟨o, ho⟩ := Option.ne_none_iff_exists'.mp hlinked
    exact h.anchored hes r o ho

/-- Coordinates are shown as a light and mix two closures, and a light is to displace the surface,
which is refused. -/
def shownCoordinates : Description where
  nodes := [⟨"at", .textureCoordinate, []⟩, ⟨"mix", .mixClosure, []⟩, ⟨"light", .emission false, []⟩]
  links := [⟨"at.UV", "mix.Closure1"⟩, ⟨"at.Normal", "mix.Fac"⟩,
    ⟨"light.Emission", "output.Displacement"⟩, ⟨"mix.Closure", "output.Surface"⟩]
  output := []
  scene := .empty

/-- The three bridges get other ids if the links come in reverse order. -/
theorem build_perm_links_shownCoordinates : ∃ (g g' : Graph) (σ : Perm NodeId),
    shownCoordinates.build = .ok g ∧ g.linkAt ⟨2, 1⟩ = some ⟨4, 0⟩ ∧
      { shownCoordinates with links := shownCoordinates.links.reverse }.build = .ok g' ∧
      g'.linkAt ⟨2, 1⟩ = some ⟨5, 0⟩ ∧ (shownCoordinates.links.map (·.target)).Nodup ∧
      (∀ id, id ≤ 3 → σ id = id) ∧ g.Renamed σ g' ∧
      ∃ s, g.Draws 3 ⟨2, 1⟩ s ∧ g'.Draws 3 ⟨2, 1⟩ s := by
  have hfirst : (shownCoordinates.build >>= fun g => .ok (g.linkAt ⟨2, 1⟩)) =
      .ok (some ⟨4, 0⟩) := by decide +kernel
  have hsecond : ({ shownCoordinates with links := shownCoordinates.links.reverse }.build >>=
      fun g => .ok (g.linkAt ⟨2, 1⟩)) = .ok (some ⟨5, 0⟩) := by decide +kernel
  have hd : (shownCoordinates.links.map (·.target)).Nodup := by decide
  obtain ⟨g, hg, hl⟩ := exists_of_bind_eq_ok hfirst
  obtain ⟨g₁, hg₁, hl₁⟩ := exists_of_bind_eq_ok hsecond
  rw [Except.ok.injEq] at hl hl₁
  obtain ⟨g', σ, hg', hσ, -, hr, hinputs⟩ :=
    build_perm_links hg hd (List.reverse_perm shownCoordinates.links).symm
  rw [hg₁, Except.ok.injEq] at hg'
  subst hg'
  obtain ⟨-, hiff, hdraws⟩ := hinputs ⟨2, 1⟩ (by decide)
  obtain ⟨s, hs⟩ := hdraws (by rw [hl]; exact Option.some_ne_none _)
  exact ⟨g, g₁, σ, hg, hl, hg₁, hl₁, hd, hσ, hr, s, hs, (hiff s).mp hs⟩

end Description

end Shading
