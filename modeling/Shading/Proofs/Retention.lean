import Shading.Proofs.Fingerprint
import Shading.Proofs.Merging
import Shading.Proofs.Update

/-!
# Edits of links leave the contents of nodes alone

Linking and unlinking may add nodes, and literals are stored in these, but the nodes that were there
before keep their kinds, their samples and their literals (`Graph.Retains`). This is said of the
nodes below a bound that does not move while nodes are added. -/

namespace Shading

namespace Graph

variable {g g' : Graph} {B : Nat}

/-- The nodes below `B` have the same contents in both graphs. -/
def Retains (B : Nat) (g g' : Graph) : Prop :=
  B ≤ g.idBound → B ≤ g'.idBound ∧
    ∀ id < B, (g'.node? id).map Node.content = (g.node? id).map Node.content

instance : Std.Refl (Retains B) := ⟨fun _ hB => ⟨hB, fun _ _ => rfl⟩⟩

instance : IsTrans Graph (Retains B) := ⟨fun _ _ _ h h' hB =>
  have ⟨hB₂, hc₂⟩ := h hB
  have ⟨hB₃, hc₃⟩ := h' hB₂
  ⟨hB₃, fun id hid => (hc₃ id hid).trans (hc₂ id hid)⟩⟩

theorem SameNodes.retains (h : g.SameNodes g') (hb : g'.idBound = g.idBound) : Retains B g g' :=
  fun hB => ⟨hb ▸ hB, fun id _ => (h id).symm⟩

theorem retains_of_table (h : g'.table = g.table) : Retains B g g' :=
  SameNodes.retains (fun id => by simp only [node?, h]) (congrArg Array.size h)

theorem retains_push (n : Node) : Retains B g (g.push n) := by
  refine fun hB => ⟨Nat.le_trans hB (by simp), fun id hid => ?_⟩
  rw [node?_push, if_neg (Nat.ne_of_lt (Nat.lt_of_lt_of_le hid hB))]

/-- Nodes from the bound on may change in any way. -/
theorem retains_modifyNode {id : NodeId} (hid : B ≤ id) (f : Node → Node) :
    Retains B g (g.modifyNode id f) := by
  refine fun hB => ⟨by simpa using hB, fun j hj => ?_⟩
  rw [node?_modifyNode, if_neg (Nat.ne_of_lt (Nat.lt_of_lt_of_le hj hid))]

theorem sameNodes_unlink (s : OutputRef) (t : InputRef) : g.SameNodes (g.unlink s t) := by
  have hin : g.SameNodes (g.modifyInput t Input.unlink) :=
    sameNodes_modifyNode t.node fun n => n.content_modifyInput t.slot fun _ => rfl
  refine hin.trans fun id => ?_
  exact sameNodes_modifyNode s.node (f := fun n => n.modifyOutput s.slot _) (fun _ => rfl) id

/-- If no node is added, all nodes have kept their contents. -/
theorem Retains.sameNodes (h : Retains g.idBound g g') (hb : g'.idBound = g.idBound) :
    g.SameNodes g' := by
  intro id
  by_cases hid : id < g.idBound
  · exact ((h (Nat.le_refl _)).2 id hid).symm
  · have hle := Nat.not_lt.mp hid
    rw [node?_of_idBound_le _ hle, node?_of_idBound_le _ (hb ▸ hle)]

theorem literalAt_eq_bind (g : Graph) (r : InputRef) :
    g.literalAt r = ((g.node? r.node).map Node.content).bind fun c => c.2.2[r.slot]? := by
  cases hn : g.node? r.node <;> simp [literalAt, input?, hn, Node.content]

theorem Retains.literalAt_of_lt (h : Retains B g g') (hB : B ≤ g.idBound) {r : InputRef}
    (hr : r.node < B) : g'.literalAt r = g.literalAt r := by
  rw [literalAt_eq_bind, literalAt_eq_bind, (h hB).2 r.node hr]

theorem Retains.literalAt_eq (h : Retains g.idBound g g') (hb : g'.idBound = g.idBound)
    (r : InputRef) : g'.literalAt r = g.literalAt r := by
  rw [literalAt_eq_bind, literalAt_eq_bind, h.sameNodes hb r.node]

theorem bump_eq_map (g : Graph) (id : NodeId) :
    (g.node? id).map (·.bump) = ((g.node? id).map Node.content).map fun c => c.2.1 := by
  cases g.node? id <;> rfl

/-- The literals that are left are the same. -/
def KeepsLiterals (g g' : Graph) : Prop :=
  ∀ r, g'.literalAt r = none ∨ g'.literalAt r = g.literalAt r

instance : Std.Refl KeepsLiterals := ⟨fun _ _ => Or.inr rfl⟩

instance : IsTrans Graph KeepsLiterals := ⟨fun _ _ _ h h' r =>
  (h' r).elim Or.inl fun heq => heq ▸ h r⟩

/-- The literal of an input that is left is the one that was there. -/
theorem KeepsLiterals.literalAt_eq (h : g.KeepsLiterals g') {r : InputRef} {d : InputDecl}
    (hd : g'.inputDecl? r = some d) : g'.literalAt r = g.literalAt r := by
  obtain ⟨i, hi, -⟩ := Option.map_eq_some_iff.mp hd
  exact (h r).resolve_left (by simp [literalAt, hi])

/-! ### Spared inputs -/

/-- Nodes may be added, and of the inputs that were there before at most those where `T` holds have
changed. -/
structure Spares (T : InputRef → Prop) (g g' : Graph) : Prop where
  evolves : g.Evolves T g'
  literalAt_eq : ∀ r, r.node < g.idBound → ¬ T r → g'.literalAt r = g.literalAt r
  bump_eq : ∀ id < g.idBound, (g'.node? id).map (·.bump) = (g.node? id).map (·.bump)

variable {T T' : InputRef → Prop}

theorem Evolves.spares (h : g.Evolves T g') (hc : Retains g.idBound g g') : g.Spares T g' := by
  obtain ⟨-, hc⟩ := hc (Nat.le_refl _)
  refine ⟨h, fun r hr _ => ?_, fun id hid => ?_⟩
  · rw [literalAt_eq_bind, literalAt_eq_bind, hc _ hr]
  · rw [bump_eq_map, bump_eq_map, hc id hid]

theorem spares_store (hg : g.WellFormed) (t : InputRef) (l : Literal) :
    g.Spares (· = t) (g.modifyInput t (Input.store l)) := by
  refine ⟨(trims_store hg t l).evolves.widen, fun r _ hr => ?_, fun id _ => ?_⟩
  · rw [literalAt_store, if_neg hr]
  · rw [modifyInput, node?_modifyNode]
    split_ifs with hid
    · rw [hid]
      cases g.node? t.node <;> rfl
    · rfl

namespace Spares

theorem refl (hg : g.WellFormed) : g.Spares T g :=
  ⟨.refl hg, fun _ _ _ => rfl, fun _ _ => rfl⟩

theorem mono (h : g.Spares T g') (hT : ∀ r, T r → T' r) : g.Spares T' g' :=
  { h with
    evolves := h.evolves.mono hT
    literalAt_eq := fun r hr hT' => h.literalAt_eq r hr fun hr' => hT' (hT r hr') }

theorem trans_fresh {g₁ g₂ g₃ : Graph} (h : g₁.Spares T g₂) (h' : g₂.Spares T' g₃)
    (hT : ∀ r, T' r → T r ∨ g₁.idBound ≤ r.node) : g₁.Spares T g₃ where
  evolves := h.evolves.trans_fresh h'.evolves hT
  literalAt_eq r hr hTr := by
    have hT'r : ¬ T' r := fun h => (hT r h).elim hTr (Nat.not_le.mpr hr)
    exact (h'.literalAt_eq r (Nat.lt_of_lt_of_le hr h.evolves.idBound_le) hT'r).trans
      (h.literalAt_eq r hr hTr)
  bump_eq id hid :=
    (h'.bump_eq id (Nat.lt_of_lt_of_le hid h.evolves.idBound_le)).trans (h.bump_eq id hid)

theorem trans {g₁ g₂ g₃ : Graph} (h : g₁.Spares T g₂) (h' : g₂.Spares T g₃) : g₁.Spares T g₃ :=
  h.trans_fresh h' fun _ => Or.inl

theorem input?_eq (h : g.Spares T g') (hg : g.WellFormed) {r : InputRef} (hr : r.node < g.idBound)
    (hT : ¬ T r) : g'.input? r = g.input? r := by
  have hdecl : g'.inputDecl? r = g.inputDecl? r :=
    hg.inputDecl?_of_kind?_eq h.evolves.wellFormed (h.evolves.kind?_eq _ hr)
  have hlink := h.evolves.linkAt_eq r hr hT
  have hliteral := h.literalAt_eq r hr hT
  unfold inputDecl? at hdecl
  unfold linkAt at hlink
  unfold literalAt at hliteral
  cases hi : g.input? r with
  | none => simpa [hi] using hdecl
  | some i =>
    cases hi' : g'.input? r with
    | none => simp [hi, hi'] at hdecl
    | some i' =>
      obtain ⟨d, l, o⟩ := i
      obtain ⟨d', l', o'⟩ := i'
      simp_all

end Spares

end Graph

namespace Edit

open Shading.Graph

variable {B : Nat} {α : Type}

theorem Ends.and_retains {g : Graph} {e : Edit α} {Q : α → Graph → Prop} (h : e.Ends g Q)
    (hr : e.Relates (Retains g.idBound)) :
    e.Ends g fun a g' => Q a g' ∧ Retains g.idBound g g' := h.and_meets (hr g)

theorem relates_modify {R : Graph → Graph → Prop} {f : Graph → Graph} (h : ∀ g, R g (f g)) :
    (modify f : Edit Unit).Relates R := fun g => meets_modify (h g)

theorem retains_link (s : OutputRef) (t : InputRef) :
    (modify (·.link s t) : Edit Unit).Relates (Retains B) :=
  relates_modify fun _ => (sameNodes_link s t).retains (idBound_link ..)

theorem retains_addKind (k : NodeKind) : (addKind k).Relates (Retains B) :=
  relates_requireMutable.bind fun _ => fun g => retains_push (g := g) _

/-- What follows after a node was added may change that node as well. -/
theorem retains_addKind_bind {k : NodeKind} {rest : NodeId → Edit α}
    (h : ∀ id, B ≤ id → (rest id).Relates (Retains B)) :
    (addKind k >>= rest).Relates (Retains B) := by
  intro g
  by_cases hB : B ≤ g.idBound
  · refine meets_bind.mpr (meets_add (fun _ => ?_) fun _ => refl g)
    have hpush : Retains B g (g.push (Node.ofKind k)) := retains_push _
    exact (h g.idBound hB _).mono (fun _ _ h' => trans_of _ hpush h')
      fun _ h' => trans_of _ hpush h'
  · unfold Meets
    cases (addKind k >>= rest).run g with
    | ok _ _ => exact fun h => absurd h hB
    | error _ _ => exact fun h => absurd h hB

theorem retains_storeNamed {id : NodeId} (hid : B ≤ id) (name : String) (l : Literal) :
    (storeNamed id name l).Relates (Retains B) :=
  (relates_ask _).bind fun _ => (relates_modify fun _ => retains_modifyNode hid _).bind fun _ =>
    relates_pure _

section

variable {attempt : OutputRef → InputRef → Edit Connection}
  (h : ∀ s t, (attempt s t).Relates (Retains B))
include h

theorem retains_connectConverted (s : OutputRef) (source : SocketType) (t : InputRef)
    (target : SocketType) : (connectConverted attempt s source t target).Relates (Retains B) :=
  (retains_addKind _).bind fun _ => (h _ _).discard.bind fun _ =>
    (h _ _).discard.bind fun _ => relates_pure _

theorem retains_connectEmitted (s : OutputRef) (source : SocketType) (t : InputRef) :
    (connectEmitted attempt s source t).Relates (Retains B) := by
  refine retains_addKind_bind fun id hid => ?_
  refine (retains_storeNamed hid _ _).discard.bind fun _ => ?_
  refine (retains_storeNamed hid _ _).discard.bind fun _ => ?_
  exact (relates_ask _).bind fun feed => (h _ _).discard.bind fun _ =>
    (relates_ask _).bind fun emission => (h _ _).discard.bind fun _ => relates_pure _

end

theorem retains_connect (s : OutputRef) (t : InputRef) : (connect s t).Relates (Retains B) := by
  have hreport : ∀ d, (report d).Relates (Retains B) := fun d g =>
    meets_modify (retains_of_table rfl)
  have hreject : ∀ d, (reject d).Relates (Retains B) := fun d =>
    (hreport d).bind fun _ => relates_pure _
  refine connect_induction (fun x => relates_throw x) (fun attempt h s t => ?_) s t
  refine relates_requireMutable.bind fun _ => (relates_ask _).bind fun output => ?_
  refine (relates_ask _).bind fun input => ?_
  split_ifs
  · exact hreject _
  · exact hreject _
  · exact (retains_link _ _).bind fun _ => relates_pure _
  · exact hreject _
  · exact (retains_connectEmitted h _ _ _).bind fun _ => relates_pure _
  · exact (retains_connectConverted h _ _ _ _).bind fun _ => relates_pure _

theorem retains_disconnectInput (t : InputRef) : (disconnectInput t).Relates (Retains B) := by
  refine relates_requireMutable.bind fun _ => (relates_ask _).bind fun input => ?_
  split
  · exact relates_throw _
  · exact relates_modify fun _ => (sameNodes_unlink _ _).retains (idBound_unlink ..)

theorem retains_disconnectIfLinked (t : InputRef) : (disconnectIfLinked t).Relates (Retains B) := by
  refine (relates_ask _).bind fun input => ?_
  split_ifs
  · exact retains_disconnectInput t
  · exact relates_pure _

theorem retains_bypass (id : NodeId) (s : OutputRef) (replacement : Option OutputRef) :
    (bypass id s replacement).Relates (Retains B) := by
  have hconnectTo : ∀ t, (connectTo replacement t).Relates (Retains B) := by
    intro t
    unfold connectTo
    split
    · exact (retains_connect _ _).discard
    · exact relates_pure _
  have hinputs : (disconnectNodeInputs id).Relates (Retains B) :=
    relates_requireMutable.bind fun _ => (relates_ask _).bind fun n =>
      .forM fun slot => retains_disconnectIfLinked _
  refine relates_requireMutable.bind fun _ => (relates_ask _).bind fun targets => ?_
  refine hinputs.bind fun _ => Relates.bind ?_ fun _ => fun g => meets_modify (retains_of_table rfl)
  exact .forM fun t => (retains_disconnectIfLinked t).bind fun _ => hconnectTo t

theorem retains_mergeInto (x t : NodeId) : (mergeInto x t).Relates (Retains B) :=
  (relates_ask _).bind fun _ => .forM fun _ => retains_bypass _ _ _

/-! ### Removed nodes -/

theorem keepsLiterals_report (d : Diagnostic) : (report d).Relates KeepsLiterals :=
  relates_modify fun _ _ => Or.inr rfl

theorem keepsLiterals_disconnectInput (t : InputRef) : (disconnectInput t).Relates KeepsLiterals := by
  refine relates_requireMutable.bind fun _ => (relates_ask _).bind fun _ => ?_
  split
  · exact relates_throw _
  · exact relates_modify fun g r => Or.inr (g.literalAt_unlink _ t r)

theorem keepsLiterals_disconnectIfLinked (t : InputRef) :
    (disconnectIfLinked t).Relates KeepsLiterals := by
  refine (relates_ask _).bind fun _ => ?_
  split_ifs
  · exact keepsLiterals_disconnectInput t
  · exact relates_pure _

theorem keepsLiterals_removeNodes (ids : NodeSet) : (removeNodes ids).Relates KeepsLiterals := by
  have hinputs : ∀ id, (disconnectNodeInputs id).Relates KeepsLiterals := fun id =>
    relates_requireMutable.bind fun _ => (relates_ask _).bind fun _ =>
      .forM fun _ => keepsLiterals_disconnectIfLinked _
  have houtputs : ∀ id, (disconnectNodeOutputs id).Relates KeepsLiterals := fun id =>
    (relates_ask _).bind fun _ => .forM fun _ => relates_requireMutable.bind fun _ =>
      (relates_ask _).bind fun ts => relates_modify fun g r => Or.inr (g.literalAt_unlinkOutput _ ts r)
  refine relates_requireMutable.bind fun _ => Relates.bind (.forM fun id g => ?_) fun _ =>
    relates_modify fun g r => ?_
  · refine meets_get_bind ?_
    split_ifs
    · exact (hinputs id).bind (fun _ => houtputs id) g
    · exact relates_pure _ g
  · rw [literalAt_drop]
    split_ifs
    · exact Or.inl rfl
    · exact Or.inr rfl

end Edit

end Shading
