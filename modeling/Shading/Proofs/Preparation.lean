import Shading.Lowering.DefaultInput
import Shading.Lowering.Expansion
import Shading.Proofs.Proxy

/-!
# Preparing a graph

Before a graph is cleaned, its proxies are taken out, clamped operations are written out, and free
inputs are linked to their default sources. None of this fails on a well-formed graph.

Writing out clamped operations puts new nodes onto links, but every input that was linked stays
linked (`Graph.Expands`). Default sources are only linked to inputs that were free
(`Graph.Sourced`). Neither makes a new path between old nodes, or a cycle. -/

namespace Shading

open Relation

theorem DefaultSource.exists_outputSlot? (source : DefaultSource) :
    ∃ i, source.owner.kind.layout.outputSlot? source.outputName = some i := by
  cases source <;> exact ⟨_, rfl⟩

/-- The type of a default source. -/
def DefaultSource.type : DefaultSource → SocketType
  | textureGenerated | textureUv | position => .point
  | textureNormal | normal | tangent => .normal
  | incoming => .vector

theorem DefaultSource.outputDecl_type {source : DefaultSource} {i : Nat} {e : OutputDecl}
    (hi : source.owner.kind.layout.outputSlot? source.outputName = some i)
    (he : source.owner.kind.outputDecls[i]? = some e) : e.type = source.type := by
  cases source <;> cases hi <;> cases he <;> rfl

/-- An input with a default source can be linked to it. -/
theorem NodeKind.source_fits {k : NodeKind} {d : InputDecl} (hd : d ∈ k.inputDecls)
    {source : DefaultSource} (hs : d.source = some source) :
    d.linkable = true ∧ source.type.linksTo d.type = true := by
  cases k with
  | osl script =>
    obtain ⟨s, -, rfl⟩ := List.mem_map.mp hd
    cases hs
  | convert source _ _ =>
    obtain rfl := List.mem_singleton.mp hd
    cases hs
  | geometry | textureCoordinate | namedAttribute _ => simp [inputDecls] at hd
  | _ =>
    simp only [inputDecls, List.mem_cons, List.not_mem_nil, or_false] at hd
    rcases hd with rfl | rfl | rfl | rfl | rfl | rfl | rfl | rfl <;> cases hs <;> decide

theorem NodeKind.isClampedMath_iff {k : NodeKind} :
    k.isClampedMath = true ↔ ∃ op, k = .math op true := by
  cases k with
  | math op clamped => cases clamped <;> simp [isClampedMath]
  | _ => simp [isClampedMath]

namespace Graph

variable {g g' : Graph} {id : NodeId}

/-! ### Nodes on links -/

/-- An operation whose result is to be clamped. -/
def IsClampedMath (g : Graph) (x : NodeId) : Prop := ∃ op, g.kind? x = some (.math op true)

/-- A node that was expanded before. -/
def IsExpanded (g : Graph) (x : NodeId) : Prop := ∃ n, g.node? x = some n ∧ n.expanded = true

/-- A new clamp is put between an output and its consumers. -/
structure Interposes (o : OutputRef) (g g' : Graph) : Prop where
  evolves : g.Evolves (g.linkAt · = some o) g'
  idBound_eq : g'.idBound = g.idBound + 1
  kind?_new : g'.kind? g.idBound = some (.clamp .minMax)
  linkAt_eq : ∀ r, g'.linkAt r = if g.linkAt r = some o then some ⟨g.idBound, 0⟩
    else if r = ⟨g.idBound, 0⟩ then some o else g.linkAt r

/-- Clamps are put onto links. -/
structure Expands (g g' : Graph) : Prop where
  grows : g.Grows g'
  kind?_new : ∀ x k, g.idBound ≤ x → g'.kind? x = some k → k = .clamp .minMax
  linked_iff : ∀ r, r.node < g.idBound → (g'.linkAt r = none ↔ g.linkAt r = none)
  /-- Only the consumers of clamped operations are moved. -/
  kept : ∀ r o, g.linkAt r = some o → (∀ op clamped, g.kind? o.node ≠ some (.math op clamped)) →
    g'.linkAt r = some o
  path : ∀ a b, a < g.idBound → b < g.idBound → TransGen g'.Feeds a b → TransGen g.Feeds a b
  acyclic : g.Acyclic → g'.Acyclic

/-- What expanding a node does. Nothing happens if it was expanded before. Otherwise a clamp is put
between a clamped operation and its consumers, if there are any. -/
inductive ExpandsNode (id : NodeId) (g : Graph) : Graph → Prop
  | idle (h : g.IsExpanded id) : ExpandsNode id g g
  | bare {g' : Graph} (h : g.Trims (fun _ => False) g')
    (hbare : g.IsClampedMath id → g.fanOut ⟨id, 0⟩ = []) : ExpandsNode id g g'
  | clamp {g₁ g' : Graph} (h₁ : g.Trims (fun _ => False) g₁) (hk : g.IsClampedMath id)
    (h : g₁.Interposes ⟨id, 0⟩ g') : ExpandsNode id g g'

namespace Interposes

variable {o : OutputRef} (hg : g.WellFormed) (ho : o.node < g.idBound) (h : g.Interposes o g')
include h

theorem eq_of_feeds_new {a : NodeId} (ha : g'.Feeds a g.idBound) : a = o.node := by
  obtain ⟨r, o', hr, rfl, hnew⟩ := ha
  rw [h.linkAt_eq, linkAt_of_idBound_le hnew.ge, if_neg (by simp)] at hr
  split_ifs at hr
  rw [Option.some.inj hr]

include hg ho

/-- The new node stands for the one behind it. A path to an old node is then an old path. -/
theorem transGen {a b : NodeId} (hab : TransGen g'.Feeds a b) :
    (b ≠ g.idBound → TransGen g.Feeds (if a = g.idBound then o.node else a) b) ∧
      (b = g.idBound → ReflTransGen g.Feeds (if a = g.idBound then o.node else a) o.node) := by
  have hfeeds : ∀ {a b}, g'.Feeds a b → b ≠ g.idBound →
      g.Feeds (if a = g.idBound then o.node else a) b := by
    rintro _ _ ⟨r, o', hr, rfl, rfl⟩ hb
    rw [h.linkAt_eq] at hr
    split_ifs at hr with hl hnew
    · cases hr
      rw [if_pos rfl]
      exact feeds_of_linkAt hl
    · exact absurd (congrArg InputRef.node hnew) hb
    · rw [if_neg (Nat.ne_of_lt (hg.source_lt hr))]
      exact feeds_of_linkAt hr
  induction hab with
  | single hab =>
    refine ⟨fun hb => .single (hfeeds hab hb), ?_⟩
    rintro rfl
    rw [h.eq_of_feeds_new hab, if_neg (Nat.ne_of_lt ho)]
  | @tail c b _ hcb ih =>
    refine ⟨fun hb => ?_, ?_⟩
    · have hstep := hfeeds hcb hb
      split_ifs at hstep with hc
      · exact .tail' (ih.2 hc) hstep
      · exact (ih.1 hc).tail hstep
    · rintro rfl
      obtain rfl := h.eq_of_feeds_new hcb
      exact (ih.1 (Nat.ne_of_lt ho)).to_reflTransGen

theorem expands {op : MathOp} {clamped : Bool} (hk : g.kind? o.node = some (.math op clamped)) :
    g.Expands g' := by
  refine ⟨h.evolves.grows, fun x k hx hk => ?_, fun r hr => ?_, fun r o' hl hn => ?_,
    fun a b ha hb hab => ?_, fun hac id hid => ?_⟩
  · have hlt := h.idBound_eq ▸ g'.lt_idBound_of_kind? hk
    rw [Nat.le_antisymm (Nat.lt_succ_iff.mp hlt) hx, h.kind?_new] at hk
    exact (Option.some.inj hk).symm
  · have hne : r ≠ ⟨g.idBound, 0⟩ := fun heq => Nat.lt_irrefl g.idBound (by rw [heq] at hr; exact hr)
    rw [h.linkAt_eq, if_neg hne]
    split_ifs with hl
    · simp [hl]
    · rfl
  · have hne : r ≠ ⟨g.idBound, 0⟩ := fun heq => by
      rw [heq, linkAt_of_idBound_le (Nat.le_refl _)] at hl
      cases hl
    rw [h.linkAt_eq, if_neg, if_neg hne, hl]
    rw [hl, Option.some.injEq]
    rintro rfl
    exact hn _ _ hk
  · have hpath := (h.transGen hg ho hab).1 (Nat.ne_of_lt hb)
    rwa [if_neg (Nat.ne_of_lt ha)] at hpath
  · by_cases hnew : id = g.idBound
    · -- the new node is fed by the one behind it alone
      obtain ⟨c, hc, hcid⟩ := TransGen.tail'_iff.mp hid
      have hco := h.eq_of_feeds_new (hnew ▸ hcid)
      have hne : c ≠ g.idBound := hco ▸ Nat.ne_of_lt ho
      have hpath : TransGen g'.Feeds id c := by
        rcases reflTransGen_iff_eq_or_transGen.mp hc with heq | hc
        · exact absurd (heq.trans hnew) hne
        · exact hc
      have hcycle := (h.transGen hg ho hpath).1 hne
      rw [if_pos hnew, hco] at hcycle
      exact hac _ hcycle
    · have hcycle := (h.transGen hg ho hid).1 hnew
      rw [if_neg hnew] at hcycle
      exact hac _ hcycle

end Interposes

namespace Expands

/-- Nothing happens to the links. -/
theorem of_trims (h : g.Trims (fun _ => False) g') : g.Expands g' := by
  have hl : ∀ r, g'.linkAt r = g.linkAt r := fun r => h.kept r id
  have hf : ∀ a b, g'.Feeds a b ↔ g.Feeds a b := fun a b => by simp only [Feeds, hl]
  refine ⟨h.evolves.grows, fun x k hx hk => ?_, fun r _ => by rw [hl], fun r o ho _ => (hl r).trans ho,
    fun a b _ _ hab => TransGen.mono (fun a b => (hf a b).mp) a b hab,
    fun hac => hac.of_links fun r o ho => hl r ▸ ho⟩
  have hlt := h.idBound_eq ▸ g'.lt_idBound_of_kind? hk
  exact absurd hx (Nat.not_le.mpr hlt)

theorem refl (hg : g.WellFormed) : g.Expands g := of_trims (.refl hg nofun)

theorem trans {g₁ g₂ g₃ : Graph} (h : g₁.Expands g₂) (h' : g₂.Expands g₃) : g₁.Expands g₃ := by
  have hb := h.grows.idBound_le
  refine ⟨h.grows.trans h'.grows, fun x k hx hk => ?_, fun r hr => ?_, fun r o ho hn => ?_,
    fun a b ha hb' hab => ?_, fun hac => h'.acyclic (h.acyclic hac)⟩
  · by_cases hlt : x < g₂.idBound
    · exact h.kind?_new x k hx (h'.grows.kind?_eq x hlt ▸ hk)
    · exact h'.kind?_new x k (Nat.not_lt.mp hlt) hk
  · rw [h'.linked_iff r (Nat.lt_of_lt_of_le hr hb), h.linked_iff r hr]
  · refine h'.kept r o (h.kept r o ho hn) fun op clamped hk => ?_
    by_cases hlt : o.node < g₁.idBound
    · exact hn op clamped (h.grows.kind?_eq o.node hlt ▸ hk)
    · cases h.kind?_new o.node _ (Nat.not_lt.mp hlt) hk
  · exact h.path a b ha hb' (h'.path a b (Nat.lt_of_lt_of_le ha hb) (Nat.lt_of_lt_of_le hb' hb) hab)

end Expands

theorem ExpandsNode.expands (h : g.ExpandsNode id g') (hg : g.WellFormed) : g.Expands g' := by
  cases h with
  | idle _ => exact .refl hg
  | bare h _ => exact .of_trims h
  | clamp h₁ hk h =>
    obtain ⟨op, hk⟩ := hk
    have hk₁ := (h₁.kind?_eq id).trans hk
    exact (Expands.of_trims h₁).trans
      (h.expands h₁.wellFormed (Graph.lt_idBound_of_kind? _ hk₁) hk₁)

/-! ### Default sources -/

/-- Free inputs with a default source are linked to new nodes that nothing feeds. -/
structure Sourced (g g' : Graph) : Prop where
  evolves : g.Evolves (fun r => g.linkAt r = none ∧ g.Defaulted r) g'
  kind?_new : ∀ x k, g.idBound ≤ x → g'.kind? x = some k → ∃ owner : SharedNode, k = owner.kind
  links : ∀ r o, g'.linkAt r = some o →
    g.linkAt r = some o ∨ r.node < g.idBound ∧ g.linkAt r = none ∧ g.idBound ≤ o.node

namespace Sourced

theorem refl (hg : g.WellFormed) : g.Sourced g := by
  refine ⟨.refl hg, fun x k hx hk => ?_, fun r o ho => Or.inl ho⟩
  exact absurd (g.lt_idBound_of_kind? hk) (Nat.not_lt.mpr hx)

/-- What was linked stays so. -/
theorem linkAt_some (h : g.Sourced g') {r : InputRef} {o : OutputRef} (ho : g.linkAt r = some o) :
    g'.linkAt r = some o := by
  rw [h.evolves.linkAt_eq r (node_lt_of_linkAt (by simp [ho])) (by simp [ho]), ho]

theorem feeds (h : g.Sourced g') {a b : NodeId} (ha : a < g.idBound) (hab : g'.Feeds a b) :
    g.Feeds a b := by
  obtain ⟨r, o, hr, rfl, rfl⟩ := hab
  rcases h.links r o hr with hl | ⟨-, -, hle⟩
  · exact feeds_of_linkAt hl
  · exact absurd hle (Nat.not_le.mpr ha)

theorem path (h : g.Sourced g') {a b : NodeId} (ha : a < g.idBound) (hab : TransGen g'.Feeds a b) :
    TransGen g.Feeds a b := by
  induction hab with
  | single hab => exact .single (h.feeds ha hab)
  | tail hac hcb ih =>
    refine ih.tail (h.feeds ?_ hcb)
    obtain ⟨_, -, r, o, hr, -, rfl⟩ := TransGen.tail'_iff.mp ih
    exact node_lt_of_linkAt (by simp [hr])

theorem acyclic (h : g.Sourced g') (hac : g.Acyclic) : g'.Acyclic := by
  intro id hid
  refine hac id (h.path ?_ hid)
  obtain ⟨_, -, r, o, hr, -, rfl⟩ := TransGen.tail'_iff.mp hid
  rcases h.links r o hr with hl | ⟨hlt, -⟩
  · exact node_lt_of_linkAt (by simp [hl])
  · exact hlt

end Sourced

end Graph

namespace Edit

open Shading.Graph

variable {g : Graph} {id : NodeId}

/-! ### Expansion -/

theorem ends_insertClamp (hg : g.WellFormed) (hm : g.finalized = false) {op : MathOp} {clamped : Bool}
    (hk : g.kind? id = some (.math op clamped)) :
    (insertClamp id).Ends g fun _ g' =>
      g.Interposes ⟨id, 0⟩ g' ∨ g' = g ∧ g.fanOut ⟨id, 0⟩ = [] := by
  refine ends_ask_bind (hg.outputRef_eq hk (i := 0) rfl) ?_
  refine ends_consumersOf_bind (hg.outputDecl?_eq hk 0) ?_
  split_ifs with hused
  · have h₁ := evolves_push hg (Node.sound_ofKind (.clamp .minMax))
    have hc₁ := g.kind?_push_self (Node.ofKind (.clamp .minMax))
    refine ends_bind.mpr (ends_addKind hm ?_)
    rw [discard_bind]
    refine ends_bind.mpr (ends_storeNamed hc₁ fun _ => ?_)
    have h₂ := trims_storeNamed h₁.wellFormed g.idBound "Min" (.float 0)
    rw [discard_bind]
    refine ends_bind.mpr (ends_storeNamed ((h₂.kind?_eq _).trans hc₁) fun _ => ?_)
    have h₃ := h₂.trans (trims_storeNamed h₂.wellFormed g.idBound "Max" (.float 1))
    generalize hg₃ : Graph.modifyNode _ g.idBound (·.store "Max" (.float 1)) = g₃ at h₃ ⊢
    have h := h₁.trans_fresh h₃.evolves (by simp)
    have hl : ∀ r, g₃.linkAt r = g.linkAt r := fun r =>
      (h₃.kept r (by simp)).trans (g.linkAt_push _ r)
    have hb : g₃.idBound = g.idBound + 1 := h₃.idBound_eq.trans (by simp)
    have hc := (h₃.kind?_eq _).trans hc₁
    have hm₃ := h.finalized.trans hm
    have hout := h.wellFormed.outputDecl?_eq (h.kind?_some hk) 0
    refine ends_ask_bind (h.wellFormed.outputRef_eq hc (i := 0) rfl) ?_
    refine Ends.bind (ends_relinkOutput h.wellFormed hm₃ hout (h.wellFormed.outputDecl?_eq hc 0) rfl)
      fun _ g₄ h₄ => ?_
    have hg₄ := h₄.evolves.wellFormed
    have hc₄ := h₄.evolves.kind?_some hc
    have hfree : g₄.linkAt ⟨g.idBound, 0⟩ = none := by
      have hnew : g.linkAt ⟨g.idBound, 0⟩ = none := linkAt_of_idBound_le (Nat.le_refl _)
      rw [h₄.linkAt_eq, hl, hnew, if_neg (by simp)]
    refine ends_ask_bind (hg₄.inputRef_eq hc₄ (i := 0) rfl) (ends_discard ?_)
    refine (ends_connect_free hg₄ (h₄.evolves.finalized.trans hm₃)
      ⟨h₄.evolves.outputDecl?_some h.wellFormed hout, hg₄.inputDecl?_eq hc₄ 0, hfree, rfl⟩ rfl).mono ?_
    rintro _ g₅ ⟨h₅, hb₅, hl₅⟩
    refine Or.inl ⟨?_, ?_, h₅.kind?_some hc₄, fun r => ?_⟩
    · refine (h.widen.trans (h₄.evolves.mono fun r hr => hl r ▸ hr)).trans_fresh h₅ ?_
      rintro r rfl
      exact Or.inr (Nat.le_refl _)
    · rw [hb₅, h₄.idBound_eq, hb]
    · by_cases hr : r = ⟨g.idBound, 0⟩
      · have hnew : g.linkAt r = none := hr ▸ linkAt_of_idBound_le (Nat.le_refl _)
        rw [hnew, if_neg (by simp), if_pos hr, hr, hl₅]
      · rw [if_neg hr, h₅.linkAt_same hb₅ hr, h₄.linkAt_eq, hl]
  · exact ends_pure (Or.inr ⟨rfl, by simpa using hused⟩)

theorem ends_expandOnce (hg : g.WellFormed) (hm : g.finalized = false) {k : NodeKind}
    (hk : g.kind? id = some k) : (expandOnce id).Ends g fun _ => g.ExpandsNode id := by
  have hkeep : KeepsSockets fun n => { n with expanded := true } := fun _ => ⟨rfl, rfl, rfl⟩
  refine meets_ask_node_bind (fun n hn => ?_) fun hnone => by simp [hnone] at hk
  split_ifs with hexp
  · refine Ends.bind (P := fun _ => g.Trims fun _ => False) ?_ fun _ g₁ h₁ => ?_
    · unfold markExpanded
      rw [discard_bind]
      refine meets_ask_node_bind (fun _ _ => ?_) fun hnone => by simp [hnone] at hk
      exact ends_modify (trims_note hg hkeep id)
    · have hk₁ := h₁.evolves.kind?_some hk
      refine meets_ask_node_bind (fun m hm' => ?_) fun hnone => by simp [hnone] at hk₁
      have hkm : g.kind? id = some m.kind := by rw [← h₁.kind?_eq, kind?, hm', Option.map_some]
      have hiff : m.kind.isClampedMath = true ↔ g.IsClampedMath id := by
        rw [IsClampedMath, hkm, NodeKind.isClampedMath_iff]
        simp
      split_ifs with hc
      · obtain ⟨op, hop⟩ := hiff.mp hc
        refine (ends_insertClamp h₁.wellFormed (h₁.finalized.trans hm)
          ((h₁.kind?_eq id).trans hop)).mono ?_
        rintro _ g' (h | ⟨rfl, hnone⟩)
        · exact .clamp h₁ ⟨op, hop⟩ h
        · refine .bare h₁ fun _ => List.eq_nil_iff_forall_not_mem.mpr fun r hr => ?_
          rw [← hg.link_iff, ← h₁.kept r not_false, h₁.wellFormed.link_iff, hnone] at hr
          exact List.not_mem_nil hr
      · exact ends_pure (.bare h₁ fun hmath => absurd (hiff.mpr hmath) hc)
  · exact ends_pure (.idle ⟨n, hn, by simpa using hexp⟩)

theorem ends_expandNodes (hg : g.WellFormed) (hm : g.finalized = false) :
    expandNodes.Ends g fun _ => g.Expands := by
  have hall : ∀ g₁, g.Expands g₁ → ∀ ids ⊆ g₁.ids,
      (ids.forM expandOnce).Ends g₁ fun _ => g.Expands := by
    intro g₁ h₁ ids hids
    have hm₁ := h₁.grows.finalized.trans hm
    refine (ends_forM_mem (I := g₁.Expands) (.refl h₁.grows.wellFormed) fun id hid g₂ h₂ => ?_).mono
      fun _ _ h => h₁.trans h
    obtain ⟨k, hk⟩ := (g₁.mem_ids_iff_kind?).mp (hids hid)
    exact (ends_expandOnce h₂.grows.wellFormed (h₂.grows.finalized.trans hm₁)
      (h₂.grows.kind?_some hk)).mono fun _ _ h => h₂.trans (h.expands h₂.grows.wellFormed)
  refine ends_get_bind (Ends.bind (hall g (.refl hg) g.ids fun _ => id) fun _ g₁ h₁ => ?_)
  exact ends_get_bind (hall g₁ h₁ _ fun _ hid => (List.mem_filter.mp hid).1)

/-! ### Default sources -/

/-- The shared nodes are new, and of their kinds. -/
def Holds (first : NodeId) (shared : SharedNodes) (g : Graph) : Prop :=
  ∀ p ∈ shared, first ≤ p.2 ∧ g.kind? p.2 = some p.1.kind

theorem Holds.evolves {g' : Graph} {T : InputRef → Prop} {first : NodeId} {shared : SharedNodes}
    (h : Holds first shared g) (h' : g.Evolves T g') : Holds first shared g' :=
  fun p hp => ⟨(h p hp).1, h'.kind?_some (h p hp).2⟩

theorem ends_sharedNode {g₁ : Graph} (h : g.Sourced g₁) (hm : g.finalized = false)
    {shared : SharedNodes} (hs : Holds g.idBound shared g₁) (owner : SharedNode) :
    (sharedNode shared owner).Ends g₁ fun p g₂ => g.Sourced g₂ ∧ g₁.Evolves (fun _ => False) g₂ ∧
      Holds g.idBound p.2 g₂ ∧ g.idBound ≤ p.1 ∧ g₂.kind? p.1 = some owner.kind := by
  unfold sharedNode
  split
  · rename_i id hid
    obtain ⟨l₁, l₂, rfl, -⟩ := List.lookup_eq_some_iff.mp hid
    obtain ⟨hle, hk⟩ := hs (owner, id) (by simp)
    exact ends_pure ⟨h, .refl h.evolves.wellFormed, hs, hle, hk⟩
  · have h₁ := evolves_push h.evolves.wellFormed (Node.sound_ofKind owner.kind)
    have hk := g₁.kind?_push_self (Node.ofKind owner.kind)
    have hle := h.evolves.idBound_le
    refine ends_bind.mpr (ends_addKind (h.evolves.finalized.trans hm) (ends_pure ⟨?_, h₁, ?_, hle, hk⟩))
    · refine ⟨h.evolves.trans h₁.widen, fun x k hx hkx => ?_, fun r o ho => ?_⟩
      · by_cases hnew : x = g₁.idBound
        · rw [hnew, hk, Option.some.injEq] at hkx
          exact ⟨owner, hkx.symm⟩
        · rw [kind?_eq_layout?, layout?_push, if_neg hnew, ← kind?_eq_layout?] at hkx
          exact h.kind?_new x k hx hkx
      · rw [linkAt_push] at ho
        exact h.links r o ho
    · intro p hp
      rcases List.mem_cons.mp hp with rfl | hp
      · exact ⟨hle, hk⟩
      · exact hs.evolves h₁ p hp

/-- A free input is linked to its default source; another one stays as it is. -/
theorem ends_linkDefault {g₁ : Graph} (hg : g.WellFormed) (h : g.Sourced g₁)
    (hm : g.finalized = false) {shared : SharedNodes} (hs : Holds g.idBound shared g₁) {t : InputRef}
    {d : InputDecl} (ht : g.inputDecl? t = some d) {source : DefaultSource}
    (hd : d.source = some source) :
    (linkDefault t source shared).Ends g₁ fun shared' g₂ => g.Sourced g₂ ∧
      Holds g.idBound shared' g₂ ∧ g₂.linkAt t ≠ none ∧
      ∀ r, g₁.linkAt r ≠ none → g₂.linkAt r ≠ none := by
  refine Ends.bind (ends_sharedNode h hm hs source.owner) ?_
  rintro ⟨id, shared'⟩ g₂ ⟨h₂, he, hs₂, hle, hk⟩
  have hg₂ := h₂.evolves.wellFormed
  have hlink : ∀ r, g₁.linkAt r ≠ none → g₂.linkAt r ≠ none := fun r hr => by
    rwa [he.linkAt_eq r (node_lt_of_linkAt hr) nofun]
  obtain ⟨i, hi⟩ := source.exists_outputSlot?
  obtain ⟨e, hout⟩ := hg₂.exists_outputDecl? hk hi
  obtain ⟨k, hkt⟩ := g.kind?_of_inputDecl? ht
  obtain ⟨hlinkable, hfit⟩ := NodeKind.source_fits
    (List.mem_of_getElem? ((hg.inputDecl?_eq hkt t.slot).symm.trans ht)) hd
  have hty := DefaultSource.outputDecl_type hi ((hg₂.outputDecl?_eq hk i).symm.trans hout)
  refine ends_ask_bind (hg₂.outputRef_eq hk hi) ?_
  rw [discard_bind]
  refine ends_bind.mpr (ends_connect_fitting (h₂.evolves.finalized.trans hm) hout
    (h₂.evolves.inputDecl?_some hg ht) (hty ▸ hfit) (fun c hc => ?_) fun hj => ?_)
  · have h₃ := evolves_report hg₂ c
    refine ends_pure ⟨⟨h₂.evolves.trans h₃.widen, h₂.kind?_new, h₂.links⟩, hs₂.evolves h₃, ?_, hlink⟩
    exact hc.resolve_right (by simp [hlinkable])
  · have h₃ := evolves_link hg₂ hj.source hj.target hj.free hj.linkable (hty ▸ hfit)
    have hl : ∀ r, (g₂.link ⟨id, i⟩ t).linkAt r = if r = t then some ⟨id, i⟩ else g₂.linkAt r :=
      g₂.linkAt_link (by simp [hj.target])
    have hnone : g.linkAt t = none := by
      cases ho : g.linkAt t with
      | none => rfl
      | some o => exact absurd hj.free (by simp [h₂.linkAt_some ho])
    refine ends_pure ⟨⟨?_, fun x k hx hkx => ?_, fun r o ho => ?_⟩, hs₂.evolves h₃, ?_, ?_⟩
    · refine h₂.evolves.trans (h₃.mono ?_)
      rintro r rfl
      exact ⟨hnone, d, ht, by simp [hd]⟩
    · rw [kind?_eq_layout?, layout?_link, ← kind?_eq_layout?] at hkx
      exact h₂.kind?_new x k hx hkx
    · rw [hl] at ho
      split_ifs at ho with hr
      · cases ho
        exact Or.inr ⟨hr ▸ node_lt_of_inputDecl? ht, hr ▸ hnone, hle⟩
      · exact h₂.links r o ho
    · simp [hl]
    · intro r hr
      rw [hl]
      split_ifs
      · simp
      · exact hlink r hr

theorem ends_linkDefaults {g₁ : Graph} (hg : g.WellFormed) (h : g.Sourced g₁)
    (hm : g.finalized = false) {shared : SharedNodes} (hs : Holds g.idBound shared g₁) {k : NodeKind}
    (hk : g.kind? id = some k) :
    (linkDefaults shared id).Ends g₁ fun shared' g₂ => g.Sourced g₂ ∧ Holds g.idBound shared' g₂ ∧
      (∀ slot, g.Defaulted ⟨id, slot⟩ → g₂.linkAt ⟨id, slot⟩ ≠ none) ∧
      ∀ r, g₁.linkAt r ≠ none → g₂.linkAt r ≠ none := by
  have hk₁ := h.evolves.kind?_some hk
  refine meets_ask_node_bind (fun n hn => ?_) fun hnone => by simp [hnone] at hk₁
  have hdecl : ∀ slot, g.inputDecl? ⟨id, slot⟩ = n.inputs[slot]?.map (·.toInputDecl) := fun slot => by
    rw [← hg.inputDecl?_congr h.evolves.wellFormed hk hk₁ slot]
    simp [inputDecl?, input?, hn]
  refine (ends_foldlM (fun rest shared g₂ => ∃ done, n.inputs.zipIdx = done ++ rest ∧
    g.Sourced g₂ ∧ Holds g.idBound shared g₂ ∧
    (∀ p ∈ done, p.1.source.isSome = true → g₂.linkAt ⟨id, p.2⟩ ≠ none) ∧
    ∀ r, g₁.linkAt r ≠ none → g₂.linkAt r ≠ none)
      ⟨[], rfl, h, hs, by simp, fun _ hr => hr⟩ ?_).mono ?_
  · rintro ⟨input, slot⟩ rest shared g₂ ⟨done, hdone, h₂, hs₂, hlinked, hkeep⟩
    have hget : n.inputs[slot]? = some input := by
      refine List.mk_mem_zipIdx_iff_getElem?.mp ?_
      rw [hdone]
      simp
    have hd := hdecl slot
    rw [hget, Option.map_some] at hd
    have hskip : (input.source.isSome = true → g₂.linkAt ⟨id, slot⟩ ≠ none) →
        ∀ p ∈ done ++ [(input, slot)], p.1.source.isSome = true → g₂.linkAt ⟨id, p.2⟩ ≠ none := by
      intro hthis p hp
      rcases List.mem_append.mp hp with hp | hp
      · exact hlinked p hp
      · rw [List.mem_singleton.mp hp]
        exact hthis
    dsimp only
    split
    · rename_i source hlink hsource
      refine (ends_linkDefault hg h₂ hm hs₂ hd hsource).mono ?_
      rintro shared' g₃ ⟨h₃, hs₃, ht, hkeep₃⟩
      refine ⟨done ++ [(input, slot)], by simp [hdone], h₃, hs₃, fun p hp hps => ?_,
        fun r hr => hkeep₃ r (hkeep r hr)⟩
      rcases List.mem_append.mp hp with hp | hp
      · exact hkeep₃ _ (hlinked p hp hps)
      · rw [List.mem_singleton.mp hp]
        exact ht
    · rename_i hother
      refine ends_pure ⟨done ++ [(input, slot)], by simp [hdone], h₂, hs₂, hskip fun hsome => ?_, hkeep⟩
      refine hkeep _ ?_
      rw [g₁.linkAt_of_getElem? hn hget]
      intro hnone
      obtain ⟨source, hsource⟩ := Option.isSome_iff_exists.mp hsome
      exact hother source hnone hsource
  · rintro shared' g₂ ⟨done, hdone, h₂, hs₂, hlinked, hkeep⟩
    rw [List.append_nil] at hdone
    refine ⟨h₂, hs₂, ?_, hkeep⟩
    rintro slot ⟨d, hd, hsome⟩
    rw [hdecl, Option.map_eq_some_iff] at hd
    obtain ⟨input, hget, rfl⟩ := hd
    exact hlinked (input, slot) (hdone ▸ List.mk_mem_zipIdx_iff_getElem?.mpr hget) hsome

/-- **Default sources.** Afterwards all inputs that have one are linked. -/
theorem ends_linkAllDefaults (hg : g.WellFormed) (hm : g.finalized = false) :
    linkAllDefaults.Ends g fun _ g' => g.Sourced g' ∧ ∀ r, g.Defaulted r → g'.linkAt r ≠ none := by
  refine ends_get_bind (ends_discard ?_)
  refine (ends_foldlM (fun rest shared g₁ => ∃ done, g.ids = done ++ rest ∧ g.Sourced g₁ ∧
    Holds g.idBound shared g₁ ∧ ∀ r, r.node ∈ done → g.Defaulted r → g₁.linkAt r ≠ none)
      ⟨[], rfl, .refl hg, by simp [Holds], by simp⟩ ?_).mono ?_
  · rintro id rest shared g₁ ⟨done, hdone, h₁, hs₁, hlinked⟩
    obtain ⟨k, hk⟩ := (g.mem_ids_iff_kind?).mp (show id ∈ g.ids by simp [hdone])
    refine (ends_linkDefaults hg h₁ hm hs₁ hk).mono ?_
    rintro shared' g₂ ⟨h₂, hs₂, hid, hkeep⟩
    refine ⟨done ++ [id], by simp [hdone], h₂, hs₂, fun r hr hd => ?_⟩
    rcases List.mem_append.mp hr with hr | hr
    · exact hkeep r (hlinked r hr hd)
    · obtain ⟨x, slot⟩ := r
      obtain rfl : x = id := List.mem_singleton.mp hr
      exact hid slot hd
  · rintro shared g₁ ⟨done, hdone, h₁, -, hlinked⟩
    rw [List.append_nil] at hdone
    refine ⟨h₁, fun r hd => hlinked r ?_ hd⟩
    obtain ⟨d, hd, -⟩ := hd
    exact hdone ▸ (g.mem_ids_iff_kind?).mpr (g.kind?_of_inputDecl? hd)

end Edit

end Shading
