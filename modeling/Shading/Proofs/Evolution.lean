import Shading.Proofs.WellFormed

/-!
# How edits change a graph

An edit may add nodes, and it may link and unlink inputs, but most of a graph stays as it is.
`g.Evolves T g'` says that `g'` is a well-formed graph that comes from `g` by changes which leave
the links alone of all inputs that were there before, except where `T` holds. As long as a graph
counts as simplified, none of its inputs has got a new link. -/

namespace Shading.Graph

/-- If a graph counts as simplified after a change, it did so before, and the change has linked no
input. -/
def Calm (g g' : Graph) : Prop :=
  g'.simplified = true →
    g.simplified = true ∧ ∀ r o, g'.linkAt r = some o → g.linkAt r = some o

theorem Calm.trans {g₁ g₂ g₃ : Graph} (h : g₁.Calm g₂) (h' : g₂.Calm g₃) : g₁.Calm g₃ := by
  intro hs
  obtain ⟨hs₂, hl₂⟩ := h' hs
  obtain ⟨hs₁, hl₁⟩ := h hs₂
  exact ⟨hs₁, fun r o hr => hl₁ r o (hl₂ r o hr)⟩

theorem calm_of_linkAt {g g' : Graph} (hs : g'.simplified = g.simplified)
    (hl : ∀ r, g'.linkAt r = g.linkAt r) : g.Calm g' := by
  intro h
  exact ⟨hs ▸ h, fun r o hr => hl r ▸ hr⟩

structure Evolves (T : InputRef → Prop) (g g' : Graph) : Prop where
  wellFormed : g'.WellFormed
  finalized : g'.finalized = g.finalized
  idBound_le : g.idBound ≤ g'.idBound
  kind?_eq : ∀ id, id < g.idBound → g'.kind? id = g.kind? id
  linkAt_eq : ∀ r, r.node < g.idBound → ¬ T r → g'.linkAt r = g.linkAt r
  calm : g.Calm g'

variable {g g' : Graph} {T T' : InputRef → Prop}

namespace Evolves

theorem refl (hg : g.WellFormed) : g.Evolves T g :=
  ⟨hg, rfl, Nat.le_refl _, fun _ _ => rfl, fun _ _ _ => rfl, calm_of_linkAt rfl fun _ => rfl⟩

theorem mono (h : g.Evolves T g') (hT : ∀ r, T r → T' r) : g.Evolves T' g' :=
  { h with linkAt_eq := fun r hr hT' => h.linkAt_eq r hr fun hr' => hT' (hT r hr') }

theorem widen (h : g.Evolves (fun _ => False) g') : g.Evolves T g' := h.mono fun _ => False.elim

/-- Later changes may link and unlink nodes that were not there at the start. -/
theorem trans_fresh {g₁ g₂ g₃ : Graph} (h : g₁.Evolves T g₂) (h' : g₂.Evolves T' g₃)
    (hT : ∀ r, T' r → T r ∨ g₁.idBound ≤ r.node) : g₁.Evolves T g₃ where
  wellFormed := h'.wellFormed
  finalized := h'.finalized.trans h.finalized
  idBound_le := Nat.le_trans h.idBound_le h'.idBound_le
  kind?_eq id hid :=
    (h'.kind?_eq id (Nat.lt_of_lt_of_le hid h.idBound_le)).trans (h.kind?_eq id hid)
  linkAt_eq r hr hTr := by
    have hT'r : ¬ T' r := fun h => (hT r h).elim hTr (Nat.not_le.mpr hr)
    exact (h'.linkAt_eq r (Nat.lt_of_lt_of_le hr h.idBound_le) hT'r).trans (h.linkAt_eq r hr hTr)
  calm := h.calm.trans h'.calm

theorem trans {g₁ g₂ g₃ : Graph} (h : g₁.Evolves T g₂) (h' : g₂.Evolves T g₃) :
    g₁.Evolves T g₃ := h.trans_fresh h' fun _ => Or.inl

theorem kind?_some (h : g.Evolves T g') {id : NodeId} {k : NodeKind} (hk : g.kind? id = some k) :
    g'.kind? id = some k := by
  rw [h.kind?_eq id (g.lt_idBound_of_kind? hk)]
  exact hk

theorem kind?_none (h : g.Evolves T g') {id : NodeId} (hk : g'.kind? id = none) :
    g.kind? id = none := by
  cases hk' : g.kind? id with
  | none => rfl
  | some k => simp [h.kind?_some hk'] at hk

theorem kind?_same (h : g.Evolves T g') (hb : g'.idBound = g.idBound) (id : NodeId) :
    g'.kind? id = g.kind? id := by
  by_cases hlt : id < g.idBound
  · exact h.kind?_eq id hlt
  · have hle := Nat.not_lt.mp hlt
    simp [kind?, node?_of_idBound_le _ hle, node?_of_idBound_le _ (hb ▸ hle)]

theorem isBump (h : g.Evolves T g') {id : NodeId} (hb : g.IsBump id) : g'.IsBump id := by
  obtain ⟨invert, objectSpace, hk⟩ := hb
  exact ⟨invert, objectSpace, h.kind?_some hk⟩

/-- Sockets stay what they are. -/
theorem inputDecl?_some (h : g.Evolves T g') (hg : g.WellFormed) {r : InputRef} {d : InputDecl}
    (hd : g.inputDecl? r = some d) : g'.inputDecl? r = some d := by
  obtain ⟨k, hk⟩ := g.kind?_of_inputDecl? hd
  exact (hg.inputDecl?_congr h.wellFormed hk (h.kind?_some hk) r.slot).trans hd

theorem outputDecl?_some (h : g.Evolves T g') (hg : g.WellFormed) {o : OutputRef} {e : OutputDecl}
    (he : g.outputDecl? o = some e) : g'.outputDecl? o = some e := by
  obtain ⟨k, hk⟩ := g.kind?_of_outputDecl? he
  exact (hg.outputDecl?_congr h.wellFormed hk (h.kind?_some hk) o.slot).trans he

theorem outputDecl?_none (h : g.Evolves T g') (hg : g.WellFormed) {o : OutputRef}
    (hn : g'.outputDecl? o = none) : g.outputDecl? o = none := by
  cases he : g.outputDecl? o with
  | none => rfl
  | some e => simp [h.outputDecl?_some hg he] at hn

theorem ids_subset (h : g.Evolves T g') {id : NodeId} (hid : id ∈ g.ids) : id ∈ g'.ids := by
  obtain ⟨k, hk⟩ := (g.mem_ids_iff_kind?).mp hid
  exact (g'.mem_ids_iff_kind?).mpr ⟨k, h.kind?_some hk⟩

/-- If all new ids belong to nodes, these come after the nodes that were there before. -/
theorem ids_eq {n : Nat} (h : g.Evolves T g') (hb : g'.idBound = g.idBound + n)
    (hnew : ∀ i < n, g.idBound + i ∈ g'.ids) : g'.ids = g.ids ++ List.range' g.idBound n := by
  have hold : (List.range g.idBound).filter g'.contains = g.ids := by
    refine List.filter_congr fun id hid => ?_
    have hk := h.kind?_eq id (List.mem_range.mp hid)
    rw [Bool.eq_iff_iff, ← g'.mem_ids, ← g.mem_ids, g'.mem_ids_iff_kind?, g.mem_ids_iff_kind?, hk]
  have hall : (List.range' g.idBound n).filter g'.contains = List.range' g.idBound n := by
    refine List.filter_eq_self.mpr fun id hid => ?_
    obtain ⟨i, hi, rfl⟩ := List.mem_range'.mp hid
    exact (g'.mem_ids).mp (by simpa using hnew i hi)
  rw [ids, hb, List.range_add, ← List.range'_eq_map_range, List.filter_append, hold, hall]

theorem nodeCount_eq {n : Nat} (h : g.Evolves T g') (hb : g'.idBound = g.idBound + n)
    (hnew : ∀ i < n, g.idBound + i ∈ g'.ids) : g'.nodeCount = g.nodeCount + n := by
  rw [nodeCount, nodeCount, h.ids_eq hb hnew, List.length_append, List.length_range']

end Evolves

/-- Nodes may be added, and links may change in any way. -/
abbrev Grows (g g' : Graph) : Prop := g.Evolves (fun _ => True) g'

theorem Evolves.grows (h : g.Evolves T g') : g.Grows g' := h.mono fun _ _ => trivial

/-- Nothing is reported, and the nodes that were there before keep everything but their links. -/
structure Quiet (g g' : Graph) : Prop where
  diagnostics_eq : g'.diagnostics = g.diagnostics
  bare?_eq : ∀ id < g.idBound, g'.bare? id = g.bare? id

namespace Quiet

theorem refl : g.Quiet g := ⟨rfl, fun _ _ => rfl⟩

theorem trans {g₁ g₂ g₃ : Graph} (h : g₁.Quiet g₂) (h' : g₂.Quiet g₃)
    (hb : g₁.idBound ≤ g₂.idBound) : g₁.Quiet g₃ where
  diagnostics_eq := h'.diagnostics_eq.trans h.diagnostics_eq
  bare?_eq id hid := (h'.bare?_eq id (Nat.lt_of_lt_of_le hid hb)).trans (h.bare?_eq id hid)

end Quiet

theorem quiet_push (n : Node) : g.Quiet (g.push n) := by
  refine ⟨rfl, fun id hid => ?_⟩
  rw [bare?_push, if_neg (Nat.ne_of_lt hid)]

theorem quiet_link (s : OutputRef) (t : InputRef) : g.Quiet (g.link s t) :=
  ⟨rfl, fun id _ => g.bare?_link s t id⟩

/-- A change that keeps the layouts, and links nothing unless the graph no longer counts as
simplified. -/
theorem evolves_of_layout (hg' : g'.WellFormed) (hf : g'.finalized = g.finalized)
    (hb : g'.idBound = g.idBound) (hl : ∀ id, g'.layout? id = g.layout? id)
    (hT : ∀ r, ¬ T r → g'.linkAt r = g.linkAt r) (hc : g.Calm g') : g.Evolves T g' where
  wellFormed := hg'
  finalized := hf
  idBound_le := Nat.le_of_eq hb.symm
  kind?_eq id _ := by rw [kind?_eq_layout?, hl, ← kind?_eq_layout?]
  linkAt_eq r _ h := hT r h
  calm := hc

variable (hg : g.WellFormed)
include hg

theorem evolves_push {n : Node} (hn : n.Sound) : g.Evolves (fun _ => False) (g.push n) where
  wellFormed := hg.push hn
  finalized := rfl
  idBound_le := by simp
  kind?_eq id hid := by
    rw [kind?_eq_layout?, layout?_push, if_neg (Nat.ne_of_lt hid), ← kind?_eq_layout?]
  linkAt_eq r _ _ := g.linkAt_push n r
  calm := nofun

theorem evolves_link {s : OutputRef} {t : InputRef} {d : InputDecl} {e : OutputDecl}
    (hs : g.outputDecl? s = some e) (ht : g.inputDecl? t = some d) (hfree : g.linkAt t = none)
    (hl : d.linkable = true) (hty : e.type.linksTo d.type = true) :
    g.Evolves (· = t) (g.link s t) := by
  refine evolves_of_layout (hg.link hs ht hfree hl hty) rfl (g.idBound_link s t)
    (g.layout?_link s t) ?_ nofun
  intro r hr
  rw [g.linkAt_link (by simp [ht]), if_neg hr]

theorem evolves_report (d : Diagnostic) : g.Evolves (fun _ => False) (g.report d) :=
  evolves_of_layout (hg.of_table rfl) rfl rfl (fun _ => rfl) (fun _ _ => rfl)
    (calm_of_linkAt rfl fun _ => rfl)

theorem evolves_touch : g.Evolves (fun _ => False) g.touch :=
  evolves_of_layout (hg.of_table rfl) rfl rfl (fun _ => rfl) (fun _ _ => rfl) nofun

/-! ### Changes that only unlink -/

omit hg

/-- `g'` comes from `g` by unlinking the inputs where `T` holds, and nothing else. -/
structure Trims (T : InputRef → Prop) (g g' : Graph) : Prop where
  wellFormed : g'.WellFormed
  finalized : g'.finalized = g.finalized
  simplified : g'.simplified = true → g.simplified = true
  idBound_eq : g'.idBound = g.idBound
  layout?_eq : ∀ id, g'.layout? id = g.layout? id
  cut : ∀ r, T r → g'.linkAt r = none
  kept : ∀ r, ¬ T r → g'.linkAt r = g.linkAt r

namespace Trims

theorem linkAt_some (h : g.Trims T g') {r : InputRef} {o : OutputRef} (ho : g'.linkAt r = some o) :
    g.linkAt r = some o ∧ ¬ T r := by
  have hT : ¬ T r := fun hT => by simp [h.cut r hT] at ho
  exact ⟨(h.kept r hT) ▸ ho, hT⟩

theorem evolves (h : g.Trims T g') : g.Evolves T g' :=
  evolves_of_layout h.wellFormed h.finalized h.idBound_eq h.layout?_eq h.kept fun hs =>
    ⟨h.simplified hs, fun _ _ ho => (h.linkAt_some ho).1⟩

theorem kind?_eq (h : g.Trims T g') (id : NodeId) : g'.kind? id = g.kind? id := by
  rw [kind?_eq_layout?, h.layout?_eq, ← kind?_eq_layout?]

theorem inputDecl?_eq (h : g.Trims T g') (r : InputRef) : g'.inputDecl? r = g.inputDecl? r := by
  rw [inputDecl?_eq_layout?, h.layout?_eq, ← inputDecl?_eq_layout?]

theorem outputDecl?_eq (h : g.Trims T g') (o : OutputRef) : g'.outputDecl? o = g.outputDecl? o := by
  rw [outputDecl?_eq_layout?, h.layout?_eq, ← outputDecl?_eq_layout?]

theorem ids_eq (h : g.Trims T g') : g'.ids = g.ids := by
  have hc : ∀ id, g'.contains id = g.contains id := fun id => by
    have hk := congrArg Option.isSome (h.kind?_eq id)
    rwa [kind?, kind?, Option.isSome_map, Option.isSome_map] at hk
  simp only [ids, h.idBound_eq, funext hc]

/-- Nothing changes if nothing is linked where `T` holds. -/
theorem refl (hg : g.WellFormed) (hT : ∀ r, T r → g.linkAt r = none) : g.Trims T g :=
  ⟨hg, rfl, fun h => h, rfl, fun _ => rfl, hT, fun _ _ => rfl⟩

theorem trans {g₁ g₂ g₃ : Graph} (h : g₁.Trims T g₂) (h' : g₂.Trims T' g₃) :
    g₁.Trims (fun r => T r ∨ T' r) g₃ where
  wellFormed := h'.wellFormed
  finalized := h'.finalized.trans h.finalized
  simplified hs := h.simplified (h'.simplified hs)
  idBound_eq := h'.idBound_eq.trans h.idBound_eq
  layout?_eq id := (h'.layout?_eq id).trans (h.layout?_eq id)
  cut r hr := by
    by_cases hT' : T' r
    · exact h'.cut r hT'
    · rw [h'.kept r hT']
      exact h.cut r (hr.resolve_right hT')
  kept r hr := by
    rw [not_or] at hr
    exact (h'.kept r hr.2).trans (h.kept r hr.1)

theorem report (h : g.Trims T g') (d : Diagnostic) : g.Trims T (g'.report d) :=
  ⟨h.wellFormed.of_table rfl, h.finalized, h.simplified, h.idBound_eq, h.layout?_eq, h.cut, h.kept⟩

/-- Only linked inputs matter. -/
theorem congr (h : g.Trims T g') (hT : ∀ r o, g.linkAt r = some o → (T r ↔ T' r)) :
    g.Trims T' g' := by
  refine { h with cut := ?_, kept := ?_ }
  · intro r hr
    by_cases hTr : T r
    · exact h.cut r hTr
    · rw [h.kept r hTr]
      cases ho : g.linkAt r with
      | none => rfl
      | some o => exact absurd ((hT r o ho).mpr hr) hTr
  · intro r hr
    by_cases hTr : T r
    · rw [h.cut r hTr]
      cases ho : g.linkAt r with
      | none => rfl
      | some o => exact absurd ((hT r o ho).mp hTr) hr
    · exact h.kept r hTr

end Trims

include hg

theorem trims_unlink {s : OutputRef} {t : InputRef} (h : g.linkAt t = some s) :
    g.Trims (· = t) (g.unlink s t) where
  wellFormed := hg.unlink h
  finalized := rfl
  simplified := nofun
  idBound_eq := g.idBound_unlink s t
  layout?_eq := g.layout?_unlink s t
  cut r hr := by rw [linkAt_unlink, if_pos hr]
  kept r hr := by rw [linkAt_unlink, if_neg hr]

theorem trims_unlinkOutput (s : OutputRef) :
    g.Trims (g.linkAt · = some s) (g.unlinkOutput s (g.fanOut s)) where
  wellFormed := hg.unlinkOutput s
  finalized := g.finalized_unlinkOutput s _
  simplified := nofun
  idBound_eq := g.idBound_unlinkOutput s _
  layout?_eq := g.layout?_unlinkOutput s _
  cut r hr := by rw [linkAt_unlinkOutput, if_pos ((hg.link_iff r s).mp hr)]
  kept r hr := by rw [linkAt_unlinkOutput, if_neg fun h => hr ((hg.link_iff r s).mpr h)]

theorem trims_store (t : InputRef) (l : Literal) :
    g.Trims (fun _ => False) (g.modifyInput t (Input.store l)) where
  wellFormed := hg.store t l
  finalized := rfl
  simplified h := h
  idBound_eq := g.idBound_store t l
  layout?_eq := g.layout?_store t l
  cut := nofun
  kept r _ := g.linkAt_store t l r

theorem trims_storeNamed (id : NodeId) (name : String) (l : Literal) :
    g.Trims (fun _ => False) (g.modifyNode id (·.store name l)) := by
  rcases g.modifyNode_store id name l with h | ⟨slot, h⟩
  · rw [h]; exact .refl hg nofun
  · rw [h]; exact trims_store hg _ l

theorem evolves_storeNamed (id : NodeId) (name : String) (l : Literal) :
    g.Evolves (fun _ => False) (g.modifyNode id (·.store name l)) :=
  (trims_storeNamed hg id name l).evolves

/-- What a node notes down besides its sockets does not matter to links. -/
theorem trims_note {f : Node → Node} (hf : KeepsSockets f) (id : NodeId) :
    g.Trims (fun _ => False) (g.modifyNode id f) where
  wellFormed := hg.note hf id
  finalized := rfl
  simplified h := h
  idBound_eq := g.idBound_modifyNode id f
  layout?_eq := g.layout?_note hf id
  cut := nofun
  kept r _ := by unfold linkAt; rw [g.input?_note hf]

end Shading.Graph
