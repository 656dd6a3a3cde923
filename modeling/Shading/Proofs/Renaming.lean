import Mathlib.Logic.Equiv.Defs
import Shading.Listing
import Shading.Proofs.View

/-!
# Graphs up to the names of their nodes

The ids of nodes are names. `g.Renamed σ g'` says that `g'` is the graph `g` with its ids renamed by
`σ`, where the consumers of an output and the reports may come in another order. Changes of a graph
carry over to the renamed one, and the order in which two links are made shows in the order of
consumers alone (`renamed_link_comm`). -/

namespace Shading

open Equiv (Perm)

variable {σ τ : Perm NodeId}

/-! ### Renaming -/

namespace InputRef

def rename (σ : Perm NodeId) (r : InputRef) : InputRef := ⟨σ r.node, r.slot⟩

@[simp] theorem rename_refl (r : InputRef) : r.rename (.refl _) = r := rfl

@[simp] theorem rename_rename (r : InputRef) : (r.rename σ).rename τ = r.rename (σ.trans τ) := rfl

@[simp] theorem rename_inj {r r' : InputRef} : r.rename σ = r'.rename σ ↔ r = r' := by
  obtain ⟨id, slot⟩ := r
  obtain ⟨id', slot'⟩ := r'
  simp [rename]

theorem rename_eq_self {r : InputRef} (h : σ r.node = r.node) : r.rename σ = r := by
  simp [rename, h]

end InputRef

namespace OutputRef

def rename (σ : Perm NodeId) (o : OutputRef) : OutputRef := ⟨σ o.node, o.slot⟩

@[simp] theorem rename_refl (o : OutputRef) : o.rename (.refl _) = o := rfl

@[simp] theorem rename_rename (o : OutputRef) : (o.rename σ).rename τ = o.rename (σ.trans τ) := rfl

theorem rename_eq_self {o : OutputRef} (h : σ o.node = o.node) : o.rename σ = o := by
  simp [rename, h]

end OutputRef

def Graph.Link.rename (σ : Perm NodeId) (l : Link) : Link := ⟨l.source.rename σ, l.target.rename σ⟩

@[simp] theorem Graph.Link.rename_refl (l : Link) : l.rename (.refl _) = l := rfl

namespace Input

def rename (σ : Perm NodeId) (i : Input) : Input := { i with link := i.link.map (·.rename σ) }

@[simp] theorem rename_refl (i : Input) : i.rename (.refl _) = i := by
  simp [rename]

@[simp] theorem rename_rename (i : Input) : (i.rename σ).rename τ = i.rename (σ.trans τ) := by
  simp [rename, Function.comp_def]

end Input

/-! ### Nodes -/

/-- The second output has the consumers of the first one under their new names, in some order. -/
structure Output.Alike (σ : Perm NodeId) (o o' : Output) : Prop where
  decl : o'.toOutputDecl = o.toOutputDecl
  consumers : o'.consumers.Perm (o.consumers.map (·.rename σ))

/-- The second node is the first one after the renaming, up to the order of consumers. -/
structure Node.Alike (σ : Perm NodeId) (n n' : Node) : Prop where
  kind : n'.kind = n.kind
  bump : n'.bump = n.bump
  filterWidth : n'.filterWidth = n.filterWidth
  stochastic : n'.stochastic = n.stochastic
  expanded : n'.expanded = n.expanded
  inputs : n'.inputs = n.inputs.map (·.rename σ)
  outputs : ∀ slot : Nat, Option.Rel (Output.Alike σ) n.outputs[slot]? n'.outputs[slot]?

theorem rel_cases {α : Type} {R : α → α → Prop} {x y : Option α} (h : Option.Rel R x y) :
    x = none ∧ y = none ∨ ∃ a b, x = some a ∧ y = some b ∧ R a b := by
  cases h with
  | none => exact Or.inl ⟨rfl, rfl⟩
  | some hR => exact Or.inr ⟨_, _, rfl, rfl, hR⟩

theorem rel_symm {α : Type} {R S : α → α → Prop} (hS : ∀ a b, R a b → S b a) {x y : Option α}
    (h : Option.Rel R x y) : Option.Rel S y x := by
  cases h with
  | none => exact .none
  | some hR => exact .some (hS _ _ hR)

theorem rel_trans {α : Type} {R S T : α → α → Prop} (hT : ∀ a b c, R a b → S b c → T a c)
    {x y z : Option α} (h : Option.Rel R x y) (h' : Option.Rel S y z) : Option.Rel T x z := by
  cases h with
  | none =>
    cases h'
    exact .none
  | some hR =>
    cases h' with
    | some hS => exact .some (hT _ _ _ hR hS)

theorem Output.Alike.trans {o o' o'' : Output} (h : o.Alike σ o') (h' : o'.Alike τ o'') :
    o.Alike (σ.trans τ) o'' where
  decl := h'.decl.trans h.decl
  consumers := h'.consumers.trans (by simpa [Function.comp_def] using h.consumers.map (·.rename τ))

theorem Output.Alike.symm {o o' : Output} (h : o.Alike σ o') : o'.Alike σ.symm o where
  decl := h.decl.symm
  consumers := by simpa [Function.comp_def] using (h.consumers.map (·.rename σ.symm)).symm

namespace Node

/-- A node keeps its look if all that it names keeps its name. -/
theorem alike_self {n : Node} (hin : ∀ i ∈ n.inputs, ∀ o, i.link = some o → σ o.node = o.node)
    (hout : ∀ o ∈ n.outputs, ∀ r ∈ o.consumers, σ r.node = r.node) : n.Alike σ n where
  kind := rfl
  bump := rfl
  filterWidth := rfl
  stochastic := rfl
  expanded := rfl
  inputs := by
    have hsame : ∀ i ∈ n.inputs, i.rename σ = i := by
      intro i hi
      have hlink : i.link.map (·.rename σ) = i.link := by
        cases hl : i.link with
        | none => rfl
        | some o => rw [Option.map_some, OutputRef.rename_eq_self (hin i hi o hl)]
      rw [Input.rename, hlink]
    rw [List.map_congr_left hsame, List.map_id']
  outputs slot := by
    cases ho : n.outputs[slot]? with
    | none => exact .none
    | some o =>
      have hsame : ∀ r ∈ o.consumers, r.rename σ = r := fun r hr =>
        InputRef.rename_eq_self (hout o (List.mem_of_getElem? ho) r hr)
      exact .some ⟨rfl, by rw [List.map_congr_left hsame, List.map_id']⟩

theorem alike_refl (n : Node) : n.Alike (.refl _) n := alike_self (fun _ _ _ _ => rfl) fun _ _ _ _ => rfl

theorem alike_unlinked (n : Node) : n.unlinked.Alike σ n.unlinked := by
  refine alike_self (fun i hi o ho => ?_) fun o ho r hr => ?_
  · obtain ⟨j, -, rfl⟩ := List.mem_map.mp hi
    cases ho
  · obtain ⟨p, -, rfl⟩ := List.mem_map.mp ho
    cases hr

namespace Alike

variable {n n' n'' : Node}

theorem trans (h : n.Alike σ n') (h' : n'.Alike τ n'') : n.Alike (σ.trans τ) n'' where
  kind := h'.kind.trans h.kind
  bump := h'.bump.trans h.bump
  filterWidth := h'.filterWidth.trans h.filterWidth
  stochastic := h'.stochastic.trans h.stochastic
  expanded := h'.expanded.trans h.expanded
  inputs := by simp [h'.inputs, h.inputs, Function.comp_def]
  outputs slot := rel_trans (fun _ _ _ ho ho' => ho.trans ho') (h.outputs slot) (h'.outputs slot)

theorem symm (h : n.Alike σ n') : n'.Alike σ.symm n where
  kind := h.kind.symm
  bump := h.bump.symm
  filterWidth := h.filterWidth.symm
  stochastic := h.stochastic.symm
  expanded := h.expanded.symm
  inputs := by simp [h.inputs, Function.comp_def]
  outputs slot := rel_symm (fun _ _ ho => ho.symm) (h.outputs slot)

theorem modifyInput (h : n.Alike σ n') (slot : Nat) {f f' : Input → Input}
    (hf : ∀ i, f' (i.rename σ) = (f i).rename σ) :
    (n.modifyInput slot f).Alike σ (n'.modifyInput slot f') :=
  { h with
    inputs := by
      refine List.ext_getElem? fun j => ?_
      simp only [Node.modifyInput, h.inputs, List.getElem?_modify, List.getElem?_map]
      cases n.inputs[j]? with
      | none => rfl
      | some i => by_cases hj : slot = j <;> simp [hj, hf] }

theorem modifyOutput (h : n.Alike σ n') (slot : Nat) {f f' : Output → Output}
    (hf : ∀ o o', o.Alike σ o' → (f o).Alike σ (f' o')) :
    (n.modifyOutput slot f).Alike σ (n'.modifyOutput slot f') :=
  { h with
    outputs := fun j => by
      simp only [Node.modifyOutput, List.getElem?_modify]
      rcases rel_cases (h.outputs j) with ⟨hn, hn'⟩ | ⟨o, o', hn, hn', ho⟩
      · rw [hn, hn']
        exact .none
      · rw [hn, hn']
        by_cases hj : slot = j
        · simpa [hj] using Option.Rel.some (hf _ _ ho)
        · simpa [hj] using Option.Rel.some ho }

end Alike

end Node

/-! ### Graphs -/

namespace Graph

/-- The second graph is the first one with its ids renamed, up to the order of consumers and the
order of reports. -/
structure Renamed (σ : Perm NodeId) (g g' : Graph) : Prop where
  idBound : g'.idBound = g.idBound
  simplified : g'.simplified = g.simplified
  finalized : g'.finalized = g.finalized
  diagnostics : g'.diagnostics.Perm g.diagnostics
  node : ∀ id, Option.Rel (Node.Alike σ) (g.node? id) (g'.node? (σ id))

theorem renamed_refl (g : Graph) : g.Renamed (.refl _) g where
  idBound := rfl
  simplified := rfl
  finalized := rfl
  diagnostics := .refl _
  node id := by
    change Option.Rel _ (g.node? id) (g.node? id)
    cases g.node? id with
    | none => exact .none
    | some n => exact .some n.alike_refl

namespace Renamed

variable {g g' g'' : Graph}

theorem trans (h : g.Renamed σ g') (h' : g'.Renamed τ g'') : g.Renamed (σ.trans τ) g'' where
  idBound := h'.idBound.trans h.idBound
  simplified := h'.simplified.trans h.simplified
  finalized := h'.finalized.trans h.finalized
  diagnostics := h'.diagnostics.trans h.diagnostics
  node id := rel_trans (fun _ _ _ hn hn' => hn.trans hn') (h.node id) (h'.node (σ id))

theorem symm (h : g.Renamed σ g') : g'.Renamed σ.symm g where
  idBound := h.idBound.symm
  simplified := h.simplified.symm
  finalized := h.finalized.symm
  diagnostics := h.diagnostics.symm
  node id := by
    have hn := rel_symm (fun _ _ ha => ha.symm) (h.node (σ.symm id))
    rwa [Equiv.apply_symm_apply] at hn

/-! ### Changes of a renamed graph -/

theorem modifyNode (h : g.Renamed σ g') (id : NodeId) {f f' : Node → Node}
    (hf : ∀ n n', n.Alike σ n' → (f n).Alike σ (f' n')) :
    (g.modifyNode id f).Renamed σ (g'.modifyNode (σ id) f') :=
  { h with
    idBound := by simp [h.idBound]
    node := fun j => by
      simp only [node?_modifyNode, EmbeddingLike.apply_eq_iff_eq]
      split_ifs
      · rcases rel_cases (h.node id) with ⟨hn, hn'⟩ | ⟨n, n', hn, hn', ha⟩
        · rw [hn, hn']
          exact .none
        · rw [hn, hn']
          exact .some (hf _ _ ha)
      · exact h.node j }

theorem touch (h : g.Renamed σ g') : g.touch.Renamed σ g'.touch := { h with simplified := rfl }

theorem link (h : g.Renamed σ g') (s : OutputRef) (t : InputRef) :
    (g.link s t).Renamed σ (g'.link (s.rename σ) (t.rename σ)) := by
  have hin : (g.modifyInput t fun i => { i with link := some s }).Renamed σ
      (g'.modifyInput (t.rename σ) fun i => { i with link := some (s.rename σ) }) :=
    h.modifyNode t.node fun n n' hn => hn.modifyInput t.slot fun i => rfl
  refine Renamed.touch (hin.modifyNode s.node fun n n' hn => hn.modifyOutput s.slot ?_)
  intro o o' ho
  exact ⟨ho.decl, by simpa using ho.consumers.append_right [t.rename σ]⟩

theorem push (h : g.Renamed σ g') (n : Node) (hσ : σ g.idBound = g.idBound) :
    (g.push n).Renamed σ (g'.push n) where
  idBound := by simp [h.idBound]
  simplified := rfl
  finalized := h.finalized
  diagnostics := h.diagnostics
  node id := by
    have hiff : σ id = g.idBound ↔ id = g.idBound := by
      rw [← hσ, EmbeddingLike.apply_eq_iff_eq, hσ]
    simp only [node?_push, h.idBound, hiff]
    split_ifs
    · exact .some n.alike_unlinked
    · exact h.node id

/-! ### Questions -/

theorem input? (h : g.Renamed σ g') (r : InputRef) :
    g'.input? (r.rename σ) = (g.input? r).map (·.rename σ) := by
  simp only [Graph.input?, InputRef.rename]
  rcases rel_cases (h.node r.node) with ⟨hn, hn'⟩ | ⟨n, n', hn, hn', ha⟩
  · simp [hn, hn']
  · simp [hn, hn', ha.inputs]

theorem linkAt (h : g.Renamed σ g') (r : InputRef) :
    g'.linkAt (r.rename σ) = (g.linkAt r).map (·.rename σ) := by
  rw [Graph.linkAt, Graph.linkAt, h.input?]
  cases g.input? r <;> rfl

theorem inputDecl? (h : g.Renamed σ g') (r : InputRef) :
    g'.inputDecl? (r.rename σ) = g.inputDecl? r := by
  rw [Graph.inputDecl?, Graph.inputDecl?, h.input?]
  cases g.input? r <;> rfl

theorem outputDecl? (h : g.Renamed σ g') (o : OutputRef) :
    g'.outputDecl? (o.rename σ) = g.outputDecl? o := by
  simp only [Graph.outputDecl?, Graph.output?, OutputRef.rename]
  rcases rel_cases (h.node o.node) with ⟨hn, hn'⟩ | ⟨n, n', hn, hn', ha⟩
  · simp [hn, hn']
  · rcases rel_cases (ha.outputs o.slot) with ⟨ho, ho'⟩ | ⟨p, p', ho, ho', hp⟩
    · simp [hn, hn', ho, ho']
    · simp [hn, hn', ho, ho', hp.decl]

end Renamed

/-! ### The order of two links -/

theorem node?_link (g : Graph) (s : OutputRef) (t : InputRef) (id : NodeId) :
    (g.link s t).node? id = (g.node? id).map fun n =>
      { n with
        inputs := if id = t.node then n.inputs.modify t.slot fun i => { i with link := some s }
          else n.inputs
        outputs := if id = s.node then
            n.outputs.modify s.slot fun o => { o with consumers := o.consumers ++ [t] }
          else n.outputs } := by
  change ((g.modifyInput t _).modifyOutput s _).node? id = _
  simp only [modifyOutput, modifyInput, node?_modifyNode]
  cases h : g.node? id with
  | none => split_ifs <;> simp_all
  | some n => split_ifs <;> simp_all [Node.modifyInput, Node.modifyOutput]

theorem getElem?_modify_if {α : Type} (l : List α) (c : Prop) [Decidable c] (k : Nat) (f : α → α)
    (slot : Nat) : (if c then l.modify k f else l)[slot]? =
      l[slot]?.map fun a => if c ∧ k = slot then f a else a := by
  by_cases hc : c
  · simp only [hc, if_true, true_and, List.getElem?_modify]
    rfl
  · simp [hc]

/-- Two links to different inputs can be made in any order. -/
theorem renamed_link_comm (g : Graph) (s s' : OutputRef) {t t' : InputRef} (ht : t ≠ t') :
    ((g.link s t).link s' t').Renamed (.refl _) ((g.link s' t').link s t) where
  idBound := by simp
  simplified := by simp
  finalized := by simp
  diagnostics := by simp
  node id := by
    change Option.Rel _ (((g.link s t).link s' t').node? id) (((g.link s' t').link s t).node? id)
    simp only [node?_link, Option.map_map]
    cases g.node? id with
    | none => exact .none
    | some n =>
      refine .some ⟨rfl, rfl, rfl, rfl, rfl, List.ext_getElem? fun slot => ?_, fun slot => ?_⟩
      · have hne : ¬ ((id = t.node ∧ t.slot = slot) ∧ id = t'.node ∧ t'.slot = slot) := by
          rintro ⟨⟨hn, hs⟩, hn', hs'⟩
          exact ht (by cases t; cases t'; simp_all)
        simp only [Function.comp_apply, Input.rename_refl, List.map_id', getElem?_modify_if]
        cases n.inputs[slot]? with
        | none => rfl
        | some i =>
          simp only [Option.map_some]
          split_ifs with h h'
          · exact absurd ⟨h, h'⟩ hne
          all_goals rfl
      · simp only [Function.comp_apply, getElem?_modify_if]
        cases n.outputs[slot]? with
        | none => exact .none
        | some o =>
          refine .some ⟨?_, ?_⟩
          · split_ifs <;> rfl
          · simp only [InputRef.rename_refl, List.map_id']
            split_ifs
            · simpa using (List.Perm.swap t t' []).append_left o.consumers
            all_goals rfl

end Graph

end Shading
