import Shading.Proofs.Compilation
import Shading.Proofs.Update

/-!
# Changes that the flag does not notice

A graph that counts as simplified is not simplified again. Most primitives clear the flag whenever
they change a graph (`Edit.Noticed`). Three of them need not: a literal is stored without clearing
it, also where it is copied from an input without a link, and so are nodes removed that have neither
outputs nor linked inputs. `Primitive.Silent` describes these runs, and there are no others. -/

namespace Shading

namespace Graph

/-- The two graphs have the same nodes, the same links and the same literals. -/
structure SameContent (g g' : Graph) : Prop where
  nodes : ∀ id, g'.contains id = g.contains id
  links : ∀ r, g'.linkAt r = g.linkAt r
  literals : ∀ r, g'.literalAt r = g.literalAt r

theorem SameContent.refl (g : Graph) : g.SameContent g := ⟨fun _ => rfl, fun _ => rfl, fun _ => rfl⟩

theorem SameContent.trans {g₁ g₂ g₃ : Graph} (h : g₁.SameContent g₂) (h' : g₂.SameContent g₃) :
    g₁.SameContent g₃ where
  nodes id := (h'.nodes id).trans (h.nodes id)
  links r := (h'.links r).trans (h.links r)
  literals r := (h'.literals r).trans (h.literals r)

/-- If the graph counts as simplified in the end, it did so before, and nothing has changed. -/
def Noticed (g g' : Graph) : Prop := g'.simplified = true → g.simplified = true ∧ g.SameContent g'

instance : Std.Refl Noticed := ⟨fun g hs => ⟨hs, .refl g⟩⟩

instance : IsTrans Graph Noticed := ⟨fun _ _ _ h h' hs =>
  have ⟨hs₂, hc₂⟩ := h' hs
  have ⟨hs₁, hc₁⟩ := h hs₂
  ⟨hs₁, hc₁.trans hc₂⟩⟩

theorem noticed_of_cleared {g g' : Graph} (h : g'.simplified = false) : g.Noticed g' := by
  intro hs
  rw [h] at hs
  cases hs

/-- No update makes a graph count as simplified. -/
theorem Update.cleared {K : NodeKind → Prop} {F : (Node → Node) → Prop} {g g' : Graph}
    (h : Update K F g g') (hg : g.simplified = false) :
    g'.simplified = false := by
  cases h with
  | add hk => rfl
  | copy hn hm => rfl
  | link s t => rfl
  | unlink s t => rfl
  | unlinkOutput s ts => rfl
  | store t l => exact hg
  | note id hf => exact hg
  | drop ids => exact hg
  | touch => rfl
  | report d => exact hg

/-- The node has neither outputs nor linked inputs, or it is not there. -/
def Loose (g : Graph) (id : NodeId) : Prop :=
  ∀ n, g.node? id = some n → n.hasLinkedInput = false ∧ n.outputs = []

theorem not_loose_iff {g : Graph} {id : NodeId} {n : Node} (hn : g.node? id = some n) :
    ¬ g.Loose id ↔ n.hasLinkedInput = true ∨ n.outputs ≠ [] := by
  simp [Loose, hn, imp_iff_not_or]

theorem loose_of_not_contains {g : Graph} {id : NodeId} (h : ¬ g.contains id = true) :
    g.Loose id := by
  intro n hn
  simp [contains, hn] at h

end Graph

namespace Edit

open Shading.Graph

variable {α β : Type} {K : NodeKind → Prop} {F : (Node → Node) → Prop} {g : Graph}

/-- Once the flag is cleared, it stays so. -/
theorem Updates.cleared {e : Edit α} (h : e.Updates K F) (hg : g.simplified = false) :
    e.Meets g (fun _ g' => g'.simplified = false) fun g' => g'.simplified = false :=
  h.meets (fun _ _ hu => hu.cleared) hg

/-! ### Edits that clear the flag if they change anything -/

/-- The flag is cleared if anything changes, also if the edit ends with a fault. -/
abbrev Noticed (e : Edit α) : Prop := e.Relates Graph.Noticed

theorem noticed_modify {f : Graph → Graph} (hf : ∀ g, (f g).simplified = false) :
    (modify f : Edit Unit).Noticed := fun g => meets_modify (noticed_of_cleared (hf g))

theorem noticed_add (n : Node) : (add n).Noticed := fun g =>
  meets_add (fun _ => noticed_of_cleared rfl) fun _ => refl g

/-- A rejection is reported, and nothing else is done. -/
theorem noticed_reject (d : Diagnostic) : (reject d).Noticed := fun _ =>
  meets_modify_bind (meets_pure fun hs => ⟨hs, fun _ => rfl, fun _ => rfl, fun _ => rfl⟩)

/-- A new node clears the flag, so that what follows is noticed in any case. -/
theorem noticed_addKind_bind {k : NodeKind} {rest : NodeId → Edit α}
    (h : ∀ id, (rest id).Updates K F) : (addKind k >>= rest).Noticed := by
  intro g
  refine Meets.bind (P := fun _ g' => g'.simplified = false)
    (meets_add (fun _ => rfl) fun _ => refl g) fun id g' hc => ?_
  exact ((h id).cleared hc).mono (fun _ _ => noticed_of_cleared) fun _ => noticed_of_cleared

theorem noticed_connect (source : OutputRef) (target : InputRef) : (connect source target).Noticed := by
  have hnested := updates_connect (F := NoNote)
  rw [connect_eq]
  refine relates_requireMutable.bind fun _ => (relates_ask _).bind fun output => ?_
  refine (relates_ask _).bind fun input => ?_
  split_ifs
  · exact noticed_reject _
  · exact noticed_reject _
  · exact (noticed_modify fun _ => rfl).bind fun _ => relates_pure _
  · exact noticed_reject _
  · obtain ⟨rest, heq, hrest⟩ := connectEmitted_eq_bind hnested source output.type target
    rw [heq]
    exact (noticed_addKind_bind hrest).bind fun _ => relates_pure _
  · obtain ⟨rest, heq, hrest⟩ := connectConverted_eq_bind hnested source output.type target input.type
    rw [heq]
    exact (noticed_addKind_bind hrest).bind fun _ => relates_pure _

theorem noticed_connectTo (source? : Option OutputRef) (target : InputRef) :
    (connectTo source? target).Noticed := by
  cases source? with
  | some source => exact (noticed_connect source target).discard
  | none => exact relates_pure _

theorem noticed_disconnectInput (target : InputRef) : (disconnectInput target).Noticed := by
  refine relates_requireMutable.bind fun _ => (relates_ask _).bind fun input => ?_
  split
  · exact relates_throw _
  · exact noticed_modify fun _ => rfl

theorem noticed_disconnectIfLinked (target : InputRef) : (disconnectIfLinked target).Noticed := by
  refine (relates_ask _).bind fun input => ?_
  split_ifs
  · exact noticed_disconnectInput target
  · exact relates_pure _

theorem noticed_disconnectOutput (source : OutputRef) : (disconnectOutput source).Noticed :=
  relates_requireMutable.bind fun _ => (relates_ask _).bind fun _ => noticed_modify fun _ => rfl

theorem noticed_disconnectNodeInputs (id : NodeId) : (disconnectNodeInputs id).Noticed :=
  relates_requireMutable.bind fun _ => (relates_ask _).bind fun _ =>
    .forM fun _ => noticed_disconnectIfLinked _

theorem noticed_relinkOutput (source : OutputRef) (replacement : Option OutputRef) :
    (relinkOutput source replacement).Noticed :=
  relates_requireMutable.bind fun _ => (relates_ask _).bind fun _ =>
    .forM fun _ => (noticed_disconnectInput _).bind fun _ => noticed_connectTo _ _

theorem noticed_bypass (id : NodeId) (source : OutputRef) (replacement : Option OutputRef) :
    (bypass id source replacement).Noticed :=
  relates_requireMutable.bind fun _ => (relates_ask _).bind fun _ =>
    (noticed_disconnectNodeInputs id).bind fun _ =>
      (Relates.forM fun _ => (noticed_disconnectIfLinked _).bind fun _ =>
        noticed_connectTo _ _).bind fun _ => noticed_modify fun _ => rfl

theorem noticed_copySubgraph (ids : NodeSet) : (copySubgraph ids).Noticed := by
  refine Relates.bind (.mapM fun id => ?_) fun copies => Relates.bind (.forM ?_) fun _ =>
    relates_pure copies
  · exact (relates_ask _).bind fun n => (noticed_add _).bind fun _ => relates_pure _
  · rintro ⟨id, copy⟩
    refine (relates_ask _).bind fun n => .forM ?_
    rintro ⟨input, slot⟩
    dsimp only
    split
    · exact relates_pure _
    · split
      · exact relates_pure _
      · exact (noticed_connect _ _).discard

/-! ### Edits that clear the flag or do nothing -/

/-- A run without a fault clears the flag if `P` holds, and does nothing otherwise. -/
def ClearsIff (e : Edit α) (g : Graph) (P : Prop) : Prop :=
  e.Meets g (fun _ g' => P ∧ g'.simplified = false ∨ ¬ P ∧ g' = g) fun _ => True

variable {P Q : Prop}

theorem ClearsIff.congr {e : Edit α} (h : e.ClearsIff g P) (hPQ : P ↔ Q) : e.ClearsIff g Q :=
  propext hPQ ▸ h

theorem clearsIff_pure (a : α) : (pure a : Edit α).ClearsIff g False :=
  meets_pure (Or.inr ⟨id, rfl⟩)

theorem clearsIff_modify {f : Graph → Graph} (hf : (f g).simplified = false) :
    (modify f : Edit Unit).ClearsIff g True := meets_modify (Or.inl ⟨trivial, hf⟩)

theorem ClearsIff.bind {e : Edit β} {f : β → Edit α} (h : e.ClearsIff g P)
    (hu : ∀ b, (f b).Updates K F) (hf : ∀ b, (f b).ClearsIff g Q) :
    (e >>= f).ClearsIff g (P ∨ Q) := by
  refine Meets.bind h ?_
  rintro b g' (⟨hp, hc⟩ | ⟨hp, rfl⟩)
  · exact ((hu b).cleared hc).mono (fun _ _ hc' => Or.inl ⟨Or.inl hp, hc'⟩) fun _ _ => trivial
  · exact (hf b).congr (by simp [hp])

theorem clearsIff_forM {f : β → Edit Unit} {l : List β} {P : β → Prop}
    (hu : ∀ b, (f b).Updates K F) (h : ∀ b ∈ l, (f b).ClearsIff g (P b)) :
    (l.forM f).ClearsIff g (∃ b ∈ l, P b) := by
  induction l with
  | nil => exact (clearsIff_pure ()).congr (by simp)
  | cons b l ih =>
    have hl := ih fun b' hb' => h b' (List.mem_cons_of_mem b hb')
    have hall := (h b List.mem_cons_self).bind (fun _ => Updates.forM hu) fun _ => hl
    exact hall.congr (by simp)

theorem clearsIff_disconnectInput (t : InputRef) : (disconnectInput t).ClearsIff g True := by
  refine meets_requireMutable_bind (fun _ => ?_) fun _ => trivial
  refine meets_ask_input_bind (fun i _ => ?_) fun _ => trivial
  split
  · exact meets_throw trivial
  · exact clearsIff_modify rfl

theorem clearsIff_disconnectIfLinked (t : InputRef) :
    (disconnectIfLinked t).ClearsIff g ((g.linkAt t).isSome = true) := by
  refine meets_ask_input_bind (fun i hi => ?_) fun _ => trivial
  have hl : (g.linkAt t).isSome = i.isLinked := by simp [linkAt, hi, Input.isLinked]
  rw [hl]
  split_ifs with h
  · exact (clearsIff_disconnectInput t).congr (by simp [h])
  · exact (clearsIff_pure ()).congr (by simp [h])

theorem clearsIff_disconnectOutput (s : OutputRef) : (disconnectOutput s).ClearsIff g True := by
  refine meets_requireMutable_bind (fun _ => ?_) fun _ => trivial
  exact meets_ask_bind (fun _ _ => clearsIff_modify rfl) fun _ => trivial

theorem clearsIff_disconnectNodeInputs {id : NodeId} {n : Node} (hn : g.node? id = some n) :
    (disconnectNodeInputs id).ClearsIff g (n.hasLinkedInput = true) := by
  refine meets_requireMutable_bind (fun _ => ?_) fun _ => trivial
  refine meets_ask_node_bind (fun n' hn' => ?_) fun _ => trivial
  rw [hn, Option.some.injEq] at hn'
  subst hn'
  refine (clearsIff_forM (K := fun _ => True) (F := NoNote)
    (fun _ => updates_disconnectIfLinked _) fun _ _ => clearsIff_disconnectIfLinked _).congr ?_
  have hslot : ∀ slot (h : slot < n.inputs.length),
      (g.linkAt ⟨id, slot⟩).isSome = n.inputs[slot].isLinked := fun slot h => by
    simp [linkAt, input?, hn, h, Input.isLinked]
  simp only [Node.hasLinkedInput, List.any_eq_true, List.mem_range]
  constructor
  · rintro ⟨slot, h, hl⟩
    exact ⟨_, List.getElem_mem h, hslot slot h ▸ hl⟩
  · rintro ⟨i, hi, hl⟩
    obtain ⟨slot, h, rfl⟩ := List.getElem_of_mem hi
    exact ⟨slot, h, (hslot slot h).trans hl⟩

theorem clearsIff_disconnectNodeOutputs {id : NodeId} {n : Node} (hn : g.node? id = some n) :
    (disconnectNodeOutputs id).ClearsIff g (n.outputs ≠ []) := by
  refine meets_ask_node_bind (fun n' hn' => ?_) fun _ => trivial
  rw [hn, Option.some.injEq] at hn'
  subst hn'
  refine (clearsIff_forM (K := fun _ => True) (F := NoNote)
    (fun _ => updates_disconnectOutput _) fun _ _ => clearsIff_disconnectOutput _).congr ?_
  simp only [List.mem_range, and_true, ← List.length_pos_iff]
  exact ⟨fun ⟨_, hslot⟩ => Nat.zero_lt_of_lt hslot, fun h => ⟨0, h⟩⟩

/-! ### Edits that may leave the flag -/

/-- Storing a literal leaves the flag as it is. -/
theorem meets_store_simplified (t : InputRef) (l : Literal) :
    (store t l).Meets g (fun _ g' => g'.simplified = g.simplified)
      fun g' => g'.simplified = g.simplified := by
  refine meets_requireMutable_bind (fun _ => ?_) fun _ => rfl
  rw [discard_bind]
  exact meets_ask_bind (fun _ _ => meets_modify rfl) fun _ => rfl

theorem meets_storeNamed_simplified (id : NodeId) (name : String) (l : Literal) :
    (storeNamed id name l).Meets g (fun _ g' => g'.simplified = g.simplified)
      fun g' => g'.simplified = g.simplified :=
  meets_ask_bind (fun _ _ => meets_modify_bind (meets_pure rfl)) fun _ => rfl

/-- Moving a link clears the flag, and copying the literal alone does not. -/
theorem simplified_relinkInput (hg : g.WellFormed) (hm : g.finalized = false)
    (hs : g.simplified = true) (source target : InputRef) :
    ((relinkInput source target).after g).simplified = true ↔ g.linkAt source = none := by
  refine Meets.after (P := fun g' => g'.simplified = true ↔ g.linkAt source = none) ?_
  refine meets_requireMutable_bind (fun _ => ?_) fun hf => by simp [hm] at hf
  refine meets_ask_input_bind (fun i hi => ?_) fun hn => ?_
  · have hl : g.linkAt source = i.link := by simp [linkAt, hi]
    rw [hl]
    split
    · rename_i feed hfeed
      have hclear := (ends_disconnectInput hg hm (hl.trans hfeed)).and_meets
        (clearsIff_disconnectInput source)
      refine Meets.bind hclear.meets fun _ g' h => ?_
      have hc : g'.simplified = false := by simpa using h.2
      have hrest : (do discard <| connect feed target; store target i.literal : Edit Unit).Updates
          NodeKind.NoProxy NoNote :=
        (updates_connect feed target).discard.bind fun _ => updates_store _ _
      exact (hrest.cleared hc).mono (fun _ _ h => by simp [h, hfeed]) fun _ h => by simp [h, hfeed]
    · rename_i hnone
      have hi : i.link = none := Option.eq_none_iff_forall_ne_some.mpr hnone
      exact (meets_store_simplified target i.literal).mono (fun _ _ h => by simp [h, hs, hi])
        fun _ h => by simp [h, hs, hi]
  · have hnone : g.linkAt source = none := by
      cases hl : g.linkAt source with
      | none => rfl
      | some o =>
        obtain ⟨d, hd⟩ := g.inputDecl?_of_linkAt hl
        simp [hn] at hd
    simp [hs, hnone]

/-- The loop over the nodes clears the flag at the first one that is not loose. -/
theorem meets_removeNodes_simplified (hs : g.simplified = true) (ids : NodeSet) :
    (removeNodes ids).Meets g
      (fun _ g' => g'.simplified = true ↔ ∀ id ∈ ids, id ≠ outputId → g.Loose id)
      fun _ => True := by
  refine meets_requireMutable_bind (fun _ => ?_) fun _ => trivial
  refine Meets.bind (clearsIff_forM (K := fun _ => True) (F := NoNote)
    (P := fun id => id ≠ outputId ∧ ¬ g.Loose id) (fun id => ?_) fun id _ => ?_) ?_
  · refine updates_get_bind fun g => ?_
    split_ifs
    · exact (updates_disconnectNodeInputs id).bind fun _ => updates_disconnectNodeOutputs id
    · exact updates_pure _
  · refine meets_get_bind ?_
    split_ifs with hc
    · obtain ⟨n, hn⟩ := Option.isSome_iff_exists.mp hc.2
      have hboth := (clearsIff_disconnectNodeInputs hn).bind (K := fun _ => True) (F := NoNote)
        (fun _ => updates_disconnectNodeOutputs id) fun _ => clearsIff_disconnectNodeOutputs hn
      exact hboth.congr (by simp [not_loose_iff hn, hc.1])
    · refine (clearsIff_pure ()).congr ⟨False.elim, ?_⟩
      rintro ⟨h0, hl⟩
      exact hl (loose_of_not_contains fun hid => hc ⟨h0, hid⟩)
  · rintro _ g' (⟨⟨id, hid, h0, hl⟩, hc⟩ | ⟨hall, rfl⟩)
    · refine meets_modify ⟨fun hs' => ?_, fun hloose => absurd (hloose id hid h0) hl⟩
      rw [show (g'.drop ids).simplified = g'.simplified from rfl, hc] at hs'
      cases hs'
    · refine meets_modify ⟨fun _ id hid h0 => ?_, fun _ => hs⟩
      by_contra hl
      exact hall ⟨id, hid, h0, hl⟩

theorem simplified_removeNodes (hg : g.WellFormed) (hm : g.finalized = false)
    (hs : g.simplified = true) (ids : NodeSet) :
    ((removeNodes ids).after g).simplified = true ↔ ∀ id ∈ ids, id ≠ outputId → g.Loose id := by
  have h := (ends_removeNodes hg hm ids).and_meets (meets_removeNodes_simplified hs ids)
  exact (h.mono fun _ _ h => h.2).meets.after

end Edit

namespace Primitive

open Shading.Graph Edit

/-- The primitive leaves the flag as it is, whatever it changes. -/
def Silent (g : Graph) : Primitive → Prop
  | storeNamed .. | store .. => True
  | relinkInput source _ => g.linkAt source = none
  | removeNodes ids => ∀ id ∈ ids, id ≠ outputId → g.Loose id
  | _ => False

/-- A primitive clears the flag with any change that it makes, or whenever it is not silent. -/
theorem noticed_or_simplified_iff {g : Graph} (hg : g.WellFormed) (hm : g.finalized = false)
    (hs : g.simplified = true) (p : Primitive) :
    p.run.Noticed ∧ ¬ p.Silent g ∨ ((p.run.after g).simplified = true ↔ p.Silent g) := by
  cases p with
  | addKind kind => exact Or.inl ⟨(noticed_add _).discard, id⟩
  | addCopy id => exact Or.inl ⟨(relates_ask _).bind fun _ => (noticed_add _).discard, fun h => h⟩
  | storeNamed id name literal =>
    have h : (storeNamed id name literal).run.Meets g (fun _ g' => g'.simplified = g.simplified)
        fun g' => g'.simplified = g.simplified :=
      meets_discard (meets_storeNamed_simplified id name literal)
    exact Or.inr (iff_of_true (h.after.trans hs) trivial)
  | store target literal =>
    have h := meets_store_simplified (g := g) target literal
    exact Or.inr (iff_of_true (h.after.trans hs) trivial)
  | connect source target => exact Or.inl ⟨(noticed_connect source target).discard, id⟩
  | connectNamed source output target input =>
    exact Or.inl ⟨Relates.discard ((relates_ask _).bind fun _ => (relates_ask _).bind fun _ =>
      noticed_connect _ _), id⟩
  | disconnectInput target => exact Or.inl ⟨noticed_disconnectInput target, id⟩
  | disconnectOutput source => exact Or.inl ⟨noticed_disconnectOutput source, id⟩
  | disconnectNodeInputs id => exact Or.inl ⟨noticed_disconnectNodeInputs id, fun h => h⟩
  | relinkInput source target => exact Or.inr (simplified_relinkInput hg hm hs source target)
  | relinkOutput source replacement => exact Or.inl ⟨noticed_relinkOutput source replacement, id⟩
  | bypass id source replacement =>
    exact Or.inl ⟨noticed_bypass id source replacement, fun h => h⟩
  | copySubgraph ids => exact Or.inl ⟨(noticed_copySubgraph ids).discard, id⟩
  | removeNodes ids => exact Or.inr (simplified_removeNodes hg hm hs ids)

/-- **A changed graph no longer counts as simplified, unless the change is silent.** This is so for
every primitive that changes the nodes, a link or a literal. Adding a node always clears the flag,
whatever the node. -/
theorem simplified_after_change_iff {g : Graph} (hg : g.WellFormed) (hm : g.finalized = false)
    (hs : g.simplified = true) :
    (∀ n, ((Edit.add n).after g).simplified = false) ∧
      ∀ p : Primitive, ¬ g.SameContent (p.run.after g) →
        ((p.run.after g).simplified = true ↔ p.Silent g) := by
  refine ⟨fun n => ?_, fun p hc => ?_⟩
  · exact Meets.after (P := fun g' => g'.simplified = false)
      (meets_add (fun _ => rfl) fun hf => by simp [hm] at hf)
  · rcases noticed_or_simplified_iff hg hm hs p with ⟨hn, hloud⟩ | h
    · exact iff_of_false (fun hs' => hc ((hn g).after hs').2) hloud
    · exact h

/-- A simplified graph with an emission at its surface and a node that is linked to nothing. -/
def lonelyMask : Graph :=
  Step.session ([.addKind (.emission false), .addKind (.aovOutput "mask"),
    .connect ⟨1, 0⟩ ⟨0, 0⟩].map .primitive ++ [.simplify Scene.empty])

/-- Cutting the link clears the flag, and a new strength of the emission does not. -/
theorem simplified_after_change_iff_lonelyMask :
    lonelyMask.WellFormed ∧ lonelyMask.finalized = false ∧ lonelyMask.simplified = true ∧
      ((disconnectInput ⟨0, 0⟩).run.after lonelyMask).simplified ≠ true ∧
      ((store ⟨1, 1⟩ (.float 2)).run.after lonelyMask).simplified = true := by
  have hg : lonelyMask.WellFormed := (Step.compilable_session _).wellFormed
  have hm : lonelyMask.finalized = false := by decide +kernel
  have hs : lonelyMask.simplified = true := by decide +kernel
  obtain ⟨-, h⟩ := simplified_after_change_iff hg hm hs
  refine ⟨hg, hm, hs, fun hs' => ?_, (h (store ⟨1, 1⟩ (.float 2)) fun hc => ?_).mpr trivial⟩
  · refine (h (disconnectInput ⟨0, 0⟩) fun hc => ?_).mp hs'
    exact absurd (hc.links ⟨0, 0⟩) (by decide +kernel)
  · exact absurd (congrArg (Option.bind · Literal.float?) (hc.literals ⟨1, 1⟩)) (by decide +kernel)

/-- Each of the silent primitives may change a graph that counts as simplified before and after. -/
theorem lonelyMask_stale :
    lonelyMask.WellFormed ∧ lonelyMask.finalized = false ∧ lonelyMask.simplified = true ∧
      ∀ p ∈ [store ⟨1, 1⟩ (.float 2), relinkInput ⟨1, 1⟩ ⟨2, 1⟩, removeNodes [2]],
        ¬ lonelyMask.SameContent (p.run.after lonelyMask) ∧
          (p.run.after lonelyMask).simplified = true := by
  refine ⟨(Step.compilable_session _).wellFormed, by decide +kernel, by decide +kernel, ?_⟩
  simp only [List.forall_mem_cons, List.not_mem_nil, false_imp_iff, implies_true, and_true]
  refine ⟨⟨fun hc => ?_, by decide +kernel⟩, ⟨fun hc => ?_, by decide +kernel⟩,
    fun hc => ?_, by decide +kernel⟩
  · exact absurd (congrArg (Option.bind · Literal.float?) (hc.literals ⟨1, 1⟩)) (by decide +kernel)
  · exact absurd (congrArg (Option.bind · Literal.float?) (hc.literals ⟨2, 1⟩)) (by decide +kernel)
  · exact absurd (hc.nodes 2) (by decide +kernel)

end Primitive

end Shading
