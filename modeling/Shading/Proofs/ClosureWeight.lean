import Shading.Lowering.ClosureWeight
import Shading.Proofs.Origins

/-!
# Closure weights

A weight that comes down a tree of closures is split at a mix by a new node, and it is added to the
weight of a closure by another one. What such a node has gathered are the origins of the weight and
of the factor, which are then origins of the input that takes the weight. -/

namespace Shading

open Shading.Graph

theorem SocketType.closure_iff_of_linksTo {a b : SocketType} (h : a.linksTo b = true) :
    a = .closure ↔ b = .closure := by
  revert h
  cases a <;> cases b <;> decide

namespace NodeKind

/-- The input of a kind that takes the weight of a closure. -/
def weightSlot? (k : NodeKind) (volume : Bool) : Option Nat :=
  k.layout.inputSlot? (if volume then "VolumeMixWeight" else "SurfaceMixWeight")

/-- The input of a mix or a sum that takes the first or the second of its closures. -/
def branchSlot? (k : NodeKind) (second : Bool) : Option Nat :=
  if k.role = .combineClosure then
    k.layout.inputSlot? (if second then "Closure2" else "Closure1")
  else none

theorem mix_or_add {k : NodeKind} (h : k.role = .combineClosure) :
    k = .mixClosure ∨ k = .addClosure := by
  cases k with
  | mixClosure => exact Or.inl rfl
  | addClosure => exact Or.inr rfl
  | convert source target automatic =>
    simp only [role] at h
    split_ifs at h
  | _ => simp [role] at h

/-- Mixes, sums and the output have no weight. -/
theorem weightSlot?_eq_none {k : NodeKind} (h : k.role = .combineClosure ∨ k = .output)
    (volume : Bool) : k.weightSlot? volume = none := by
  rcases h with h | rfl
  · rcases mix_or_add h with rfl | rfl <;> cases volume <;> rfl
  · cases volume <;> rfl

/-- The only inputs that cannot be linked hold the value of a constant. -/
theorem linkable_or_constant (k : NodeKind) :
    k.inputDecls.all (fun d => d.linkable || d.name == "Value") = true := by
  cases k with
  | osl script => simp [inputDecls, InputDecl.ofScript]
  | _ => rfl

theorem exists_weightDecl {k : NodeKind} {volume : Bool} {i : Nat}
    (h : k.weightSlot? volume = some i) : ∃ d, k.inputDecls[i]? = some d ∧ d.linkable = true := by
  obtain ⟨hlt, hname, -⟩ := List.findIdx?_eq_some_iff_getElem.mp h
  refine ⟨_, List.getElem?_eq_getElem hlt, ?_⟩
  have hd := List.all_eq_true.mp k.linkable_or_constant _ (List.getElem_mem hlt)
  rw [beq_iff_eq] at hname
  rw [Bool.or_eq_true, beq_iff_eq] at hd
  refine hd.resolve_right fun hvalue => ?_
  rw [hvalue] at hname
  cases volume <;> exact absurd hname (by decide)

end NodeKind

namespace Graph

/-- The input takes the weight of a closure. -/
def IsWeight (g : Graph) (r : InputRef) : Prop :=
  ∃ k volume, g.kind? r.node = some k ∧ k.weightSlot? volume = some r.slot

variable {g : Graph}

theorem WellFormed.weightSlot?_eq (hg : g.WellFormed) {id : NodeId} {n : Node}
    (hn : g.node? id = some n) (volume : Bool) : n.weightSlot? volume = n.kind.weightSlot? volume := by
  rw [Node.weightSlot?, n.inputSlot?_eq_layout, hg.laidOut id n hn]
  rfl

theorem not_isWeight {k : NodeKind} {r : InputRef} (hk : g.kind? r.node = some k)
    (h : k.role = .combineClosure ∨ k = .output) : ¬ g.IsWeight r := by
  rintro ⟨k', volume, hk', hi⟩
  rw [hk, Option.some.injEq] at hk'
  rw [← hk', NodeKind.weightSlot?_eq_none h] at hi
  cases hi

end Graph

namespace Edit

variable {g : Graph} {n : Nat} {O : NodeId → Set NodeId} {A : Set NodeId}

/-- A weight that comes down the tree: a number with the origins `A`, or one. -/
def Carries (g : Graph) (O : NodeId → Set NodeId) (A : Set NodeId) : Option OutputRef → Prop
  | some w => (∃ e, g.outputDecl? w = some e ∧ e.type = .float) ∧ A = O w.node
  | none => A = ∅

theorem Carries.evolves {g' : Graph} {T : InputRef → Prop} {O' : NodeId → Set NodeId}
    {weight : Option OutputRef} (h : Carries g O A weight) (hg : g.WellFormed)
    (h' : g.Traces n O O' T g') : Carries g' O' A weight := by
  cases weight with
  | none => exact h
  | some w =>
    obtain ⟨⟨e, he, hty⟩, hA⟩ := h
    obtain ⟨k, hk⟩ := g.kind?_of_outputDecl? he
    exact ⟨⟨e, h'.evolves.outputDecl?_some hg he, hty⟩,
      hA.trans (h'.agree _ (g.lt_idBound_of_kind? hk)).symm⟩

/-! ### Gathering data in a new node -/

/-- `g'` is `g` with a new node of a kind, which has gathered data of the origins `A` and from which
nothing is taken in yet. The inputs where `P` holds are free. -/
structure Gathers (n : Nat) (O O' : NodeId → Set NodeId) (k : NodeKind) (A : Set NodeId)
    (P : Nat → Prop) (g g' : Graph) : Prop where
  traces : g.Traces n O O' (fun _ => False) g'
  kind : g'.kind? g.idBound = some k
  unused : g'.Unused g.idBound
  origins : O' g.idBound = A
  free : ∀ i, P i → g'.linkAt ⟨g.idBound, i⟩ = none

theorem gathers_push (hg : g.WellFormed) (h : g.Traced n O) (hn : n ≤ g.idBound) (k : NodeKind) :
    Gathers n O O k ∅ (fun _ => True) g (g.push (Node.ofKind k)) where
  traces := traces_push hg h k
  kind := g.kind?_push_self _
  unused := hg.unused_push _
  origins := h.eq_empty hn
  free _ _ := (g.linkAt_push _ _).trans (linkAt_of_idBound_le (Nat.le_refl _))

section

variable {g' : Graph} {O' : NodeId → Set NodeId} {k : NodeKind} {B : Set NodeId} {P : Nat → Prop}
  (h : Gathers n O O' k A P g g') (hg : g.WellFormed) (hm : g.finalized = false)
  (hn : n ≤ g.idBound) {i : Nat} (hi : P i) {d : InputDecl} (hd : k.inputDecls[i]? = some d)
  (hl : d.linkable = true) (hty : d.type = .float)
include h hg hm hn hi hd hl hty

/-- An output of the graph is linked to the new node. A closure is refused. -/
theorem ends_connect_gathers {s : OutputRef} {e : OutputDecl} (hs : g.outputDecl? s = some e) :
    (connect s ⟨g.idBound, i⟩).Ends g' fun _ g'' => ∃ O'', Gathers n O O'' k
      (A ∪ if e.type = .closure then ∅ else O s.node) (fun j => P j ∧ j ≠ i) g g'' := by
  obtain ⟨ks, hks⟩ := g.kind?_of_outputDecl? hs
  have hlt := g.lt_idBound_of_kind? hks
  have hg' := h.traces.evolves.wellFormed
  have hx := g'.lt_idBound_of_kind? h.kind
  refine (ends_connect_added hg' (h.traces.evolves.finalized.trans hm) h.traces.traced
    (Nat.le_trans hn h.traces.evolves.idBound_le) ⟨h.traces.evolves.outputDecl?_some hg hs,
      (hg'.inputDecl?_eq h.kind i).trans hd, h.free i hi, hl⟩ hty hn h.unused
        (Nat.ne_of_lt hlt)).mono ?_
  rintro _ g'' ⟨O'', h'⟩
  refine ⟨O'', h.traces.takes h' (Nat.le_refl _), h'.evolves.kind?_some h.kind, h'.unused, ?_, ?_⟩
  · rw [h'.origins, h.origins, h.traces.agree _ hlt]
  · rintro j ⟨hj, hji⟩
    rw [h'.evolves.linkAt_eq ⟨g.idBound, j⟩ hx (by simpa using hji), h.free j hj]

/-- The new node is fed by an output of the graph, or by a literal. -/
theorem ends_feed_gathers {source? : Option OutputRef}
    (hsome : ∀ s, source? = some s → ∃ e, g.outputDecl? s = some e ∧
      B = if e.type = .closure then ∅ else O s.node)
    (hnone : source? = none → B = ∅) (literal : Literal) :
    (feed source? literal ⟨g.idBound, i⟩).Ends g' fun _ g'' => ∃ O'',
      Gathers n O O'' k (A ∪ B) (fun j => P j ∧ j ≠ i) g g'' := by
  have hg' := h.traces.evolves.wellFormed
  cases source? with
  | some s =>
    obtain ⟨e, he, hB⟩ := hsome s rfl
    rw [hB]
    exact ends_discard (ends_connect_gathers h hg hm hn hi hd hl hty he)
  | none =>
    refine (ends_store hg' (h.traces.evolves.finalized.trans hm)
      ((hg'.inputDecl?_eq h.kind i).trans hd) literal).mono fun _ g'' h' => ⟨O', ?_⟩
    refine ⟨⟨h.traces.evolves.trans h'.evolves, ?_, h.traces.agree⟩, h'.evolves.kind?_some h.kind,
      fun r o ho => h.unused r o (h'.linkAt_some ho).1, ?_, fun j hj => ?_⟩
    · exact h.traces.traced.of_linkAt fun r _ => h'.kept r not_false
    · rw [h.origins, hnone rfl, Set.union_empty]
    · rw [h'.kept _ not_false, h.free j hj.1]

end

/-! ### Weights -/

/-- The parts into which a mix splits a weight have the origins of the weight and of the factor. -/
theorem ends_splitWeight (hg : g.WellFormed) (hm : g.finalized = false) (h : g.Traced n O)
    (hn : n ≤ g.idBound) {id : NodeId} {i : Nat} {d : InputDecl}
    (hd : g.inputDecl? ⟨id, i⟩ = some d) (hty : d.type = .float) {weight : Option OutputRef}
    (hw : Carries g O A weight) :
    (splitWeight id i weight).Ends g fun parts g' => ∃ O', g.Traces n O O' (fun _ => False) g' ∧
      Carries g' O' (g.inflow O ⟨id, i⟩ ∪ A) (some parts.1) ∧
      Carries g' O' (g.inflow O ⟨id, i⟩ ∪ A) (some parts.2) := by
  have h₁ := gathers_push hg h hn .mixClosureWeight
  refine ends_bind.mpr (ends_addKind hm ?_)
  have hd₁ := h₁.traces.evolves.inputDecl?_some hg hd
  refine meets_ask_input_bind (fun fac hfac => ?_) fun hnone => by simp [hnone] at hd₁
  have hl : g.linkAt ⟨id, i⟩ = fac.link := by
    rw [← g.linkAt_push (Node.ofKind .mixClosureWeight), linkAt, hfac]
    rfl
  refine ends_ask_bind (h₁.traces.evolves.wellFormed.inputRef_eq h₁.kind (i := 1) rfl) ?_
  refine Ends.bind (ends_feed_gathers (B := g.inflow O ⟨id, i⟩) h₁ hg hm hn trivial rfl rfl rfl
    ?_ ?_ _) ?_
  · intro s hs
    obtain ⟨e, he⟩ := hg.exists_output (hl.trans hs)
    refine ⟨e, he, ?_⟩
    rw [if_neg, inflow_of_linkAt (hl.trans hs)]
    rw [SocketType.closure_iff_of_linksTo (hg.typed _ _ d e (hl.trans hs) hd he).2, hty]
    decide
  · exact fun hs => inflow_of_free (hl.trans hs)
  rintro _ g₂ ⟨O₂, h₂⟩
  rw [Set.empty_union] at h₂
  refine ends_ask_bind (h₂.traces.evolves.wellFormed.inputRef_eq h₂.kind (i := 0) rfl) ?_
  have hweight : (connectTo weight ⟨g.idBound, 0⟩).Ends g₂ fun _ g₃ => ∃ O₃,
      Gathers n O O₃ .mixClosureWeight (g.inflow O ⟨id, i⟩ ∪ A) (fun _ => False) g g₃ := by
    cases weight with
    | none =>
      obtain rfl : A = ∅ := hw
      rw [Set.union_empty]
      exact ends_pure ⟨O₂, { h₂ with free := fun _ => False.elim }⟩
    | some w =>
      obtain ⟨⟨e, he, hfloat⟩, rfl⟩ := hw
      refine ends_discard ((ends_connect_gathers h₂ hg hm hn (i := 0) (by simp) rfl rfl rfl
        he).mono ?_)
      rintro _ g₃ ⟨O₃, h₃⟩
      rw [if_neg (by rw [hfloat]; decide)] at h₃
      exact ⟨O₃, { h₃ with free := fun _ => False.elim }⟩
  refine Ends.bind hweight ?_
  rintro _ g₃ ⟨O₃, h₃⟩
  have hg₃ := h₃.traces.evolves.wellFormed
  refine ends_ask_bind (hg₃.outputRef_eq h₃.kind (i := 0) rfl) ?_
  refine ends_ask_bind (hg₃.outputRef_eq h₃.kind (i := 1) rfl) (ends_pure ⟨O₃, h₃.traces, ?_, ?_⟩)
  · exact ⟨⟨_, hg₃.outputDecl?_eq h₃.kind 0, rfl⟩, h₃.origins.symm⟩
  · exact ⟨⟨_, hg₃.outputDecl?_eq h₃.kind 1, rfl⟩, h₃.origins.symm⟩

/-- A sum that takes the place of a weight has the origins of both of its terms; but a closure that
served as a weight is dropped. -/
theorem ends_addWeight (hg : g.WellFormed) (hm : g.finalized = false) (h : g.Traced n O)
    (hn : n ≤ g.idBound) {t : InputRef} (ht : t.node < n) {d : InputDecl}
    (hd : g.inputDecl? t = some d) (hl : d.linkable = true) (present : Binary32)
    {weight : Option OutputRef} (hw : Carries g O A weight) :
    (addWeight t (g.linkAt t) present weight).Ends g fun _ g' => ∃ O', g.Traces n O O' (· = t) g' ∧
      g'.inflow O' t = (if d.type = .closure then ∅ else g.inflow O t) ∪ A := by
  generalize hB : (if d.type = .closure then ∅ else g.inflow O t) = B
  have h₁ := gathers_push hg h hn (.math .add false)
  refine ends_bind.mpr (ends_addKind hm ?_)
  refine ends_ask_bind (h₁.traces.evolves.wellFormed.inputRef_eq h₁.kind (i := 0) rfl) ?_
  refine Ends.bind (ends_feed_gathers (B := B) h₁ hg hm hn trivial rfl rfl rfl ?_ ?_ _) ?_
  · intro s hs
    obtain ⟨e, he⟩ := hg.exists_output hs
    have hty := (hg.typed _ _ d e hs hd he).2
    refine ⟨e, he, ?_⟩
    rw [← hB, inflow_of_linkAt hs]
    simp only [SocketType.closure_iff_of_linksTo hty]
  · intro hs
    rw [← hB, inflow_of_free hs, ite_self]
  rintro _ g₂ ⟨O₂, h₂⟩
  rw [Set.empty_union] at h₂
  refine ends_ask_bind (h₂.traces.evolves.wellFormed.inputRef_eq h₂.kind (i := 1) rfl) ?_
  refine Ends.bind (ends_feed_gathers (B := A) h₂ hg hm hn (i := 1) (by simp) rfl rfl rfl ?_ ?_ _) ?_
  · rintro w rfl
    obtain ⟨⟨e, he, hfloat⟩, hA⟩ := hw
    exact ⟨e, he, by rw [hA, if_neg (by rw [hfloat]; decide)]⟩
  · rintro rfl
    exact hw
  rintro _ g₃ ⟨O₃, h₃⟩
  have hev := h₃.traces.evolves
  refine Ends.bind (ends_disconnectIfLinked hev.wellFormed (hev.finalized.trans hm)
    (hev.inputDecl?_some hg hd)) fun _ g₄ h₄ => ?_
  have hev₄ : g.Evolves (· = t) g₄ := hev.widen.trans h₄.evolves
  have htr₄ : g₄.Traced n O₃ := h₃.traces.traced.of_linkAt fun r hr => h₄.kept r <| by
    rintro rfl
    exact Nat.not_lt.mpr hr ht
  have hk₄ := h₄.evolves.kind?_some h₃.kind
  refine ends_ask_bind (h₄.wellFormed.outputRef_eq hk₄ (i := 0) rfl) (ends_discard ?_)
  refine (ends_connect_node h₄.wellFormed (hev₄.finalized.trans hm) htr₄
    (Nat.le_trans hn hev₄.idBound_le) ⟨h₄.wellFormed.outputDecl?_eq hk₄ 0,
      hev₄.inputDecl?_some hg hd, h₄.cut _ rfl, hl⟩ rfl ht).mono ?_
  rintro _ g₅ ⟨O₅, h₅, hin⟩
  refine ⟨O₅, Traces.trans ⟨hev₄, htr₄, h₃.traces.agree⟩ h₅ fun _ => Or.inl, ?_⟩
  rw [hin, h₃.origins]

/-- The weight of a closure gets the origins of what has come down the tree, and keeps those it had;
but a closure that served as a weight is dropped. -/
theorem ends_addLeafWeight (hg : g.WellFormed) (hm : g.finalized = false) (h : g.Traced n O)
    (hn : n ≤ g.idBound) {id : NodeId} (hid : id < n) {k : NodeKind} (hk : g.kind? id = some k)
    {volume : Bool} {i : Nat} (hi : k.weightSlot? volume = some i) {d : InputDecl}
    (hd : g.inputDecl? ⟨id, i⟩ = some d) {weight : Option OutputRef} (hw : Carries g O A weight) :
    (addLeafWeight volume id weight).Ends g fun _ g' => ∃ O', g.Traces n O O' (· = ⟨id, i⟩) g' ∧
      g'.inflow O' ⟨id, i⟩ = (if d.type = .closure then ∅ else g.inflow O ⟨id, i⟩) ∪ A := by
  have hl : d.linkable = true := by
    obtain ⟨d', hd', hl⟩ := NodeKind.exists_weightDecl hi
    rw [hg.inputDecl?_eq hk, hd', Option.some.injEq] at hd
    rwa [← hd]
  refine meets_ask_node_bind (fun node hnode => ?_) fun hnone => by simp [hnone] at hk
  have hslot : node.weightSlot? volume = some i := by
    rw [hg.weightSlot?_eq hnode]
    simp only [kind?, hnode, Option.map_some, Option.some.injEq] at hk
    rwa [hk]
  rw [hslot]
  dsimp only
  refine meets_ask_input_bind (fun input hinput => ?_) fun hnone => by simp [hnone] at hd
  have hlink : input.link = g.linkAt ⟨id, i⟩ := by simp [linkAt, hinput]
  by_cases hsum : (input.isLinked || input.literal.float?.getD 0 != 0) = true
  · rw [if_pos hsum, hlink]
    exact ends_addWeight hg hm h hn hid hd hl _ hw
  · rw [if_neg hsum]
    have hfree : g.linkAt ⟨id, i⟩ = none := by
      rw [← hlink]
      rw [Bool.or_eq_true, not_or] at hsum
      simpa [Input.isLinked] using hsum.1
    rw [inflow_of_free hfree, ite_self, Set.empty_union]
    cases weight with
    | none =>
      obtain rfl : A = ∅ := hw
      refine (ends_store hg hm hd _).mono fun _ g' h' =>
        ⟨O, ⟨h'.evolves.widen, ?_, fun _ _ => rfl⟩, ?_⟩
      · exact h.of_linkAt fun r _ => h'.kept r not_false
      · exact inflow_of_free ((h'.kept _ not_false).trans hfree)
    | some w =>
      obtain ⟨⟨e, he, hfloat⟩, rfl⟩ := hw
      exact ends_discard (ends_connect_node hg hm h hn ⟨he, hd, hfree, hl⟩ hfloat hid)

end Edit

end Shading
