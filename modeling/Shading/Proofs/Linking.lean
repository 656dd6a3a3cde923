import Shading.Graph.Link
import Shading.Proofs.Evolution
import Shading.Proofs.Outcome

/-!
# The outcome of linking

Linking two sockets ends in one of four ways: a fault if one of them is missing, a report if the
input cannot take the link, a link, or a link through nodes that are added for it (`meets_connect`).

The added nodes are linked by nested attempts. Of these only two things matter: they link fitting
types (`LinksFitting`) and convert values (`ConvertsValues`). An attempt does so as soon as the
attempts nested in it link fitting types, and so the bound on their depth is never reached
(`connect_eq`). -/

namespace Shading

theorem SocketType.linksTo_self (type : SocketType) : type.linksTo type = true := by
  simp [linksTo]

/-- The emission of full strength that turns a value into a closure. -/
def Node.emitter : Node :=
  ((Node.ofKind (.emission true)).store "Color" (.float3 (Vec3.splat 1))).store "Strength" (.float 1)

namespace Graph

/-- The graph in which an output is linked to an input through a new conversion. -/
def bridged (g : Graph) (s : OutputRef) (source : SocketType) (t : InputRef)
    (target : SocketType) : Graph :=
  ((g.push (Node.ofKind (.convert source target true))).link s ⟨g.idBound, 0⟩).link
    ⟨g.idBound, 0⟩ t

/-- The graph with a new emission of full strength. -/
def withEmission (g : Graph) : Graph :=
  ((g.push (Node.ofKind (.emission true))).modifyNode g.idBound
    (·.store "Color" (.float3 (Vec3.splat 1)))).modifyNode g.idBound
      (·.store "Strength" (.float 1))

/-- The graph in which an output is linked to the new emission. -/
def feedEmission (g : Graph) (s : OutputRef) (source : SocketType) : Graph :=
  if source = .float then g.withEmission.link s ⟨g.idBound, 1⟩
  else if source = .color then g.withEmission.link s ⟨g.idBound, 0⟩
  else g.withEmission.bridged s source ⟨g.idBound, 0⟩ .color

/-- The graph in which an output is linked to a closure through a new emission. -/
def emitted (g : Graph) (s : OutputRef) (source : SocketType) (t : InputRef) : Graph :=
  (g.feedEmission s source).link ⟨g.idBound, 0⟩ t

/-- An output and an input that are there, where the input is free to be linked. -/
structure Joinable (g : Graph) (s : OutputRef) (e : OutputDecl) (t : InputRef) (d : InputDecl) :
    Prop where
  source : g.outputDecl? s = some e
  target : g.inputDecl? t = some d
  free : g.linkAt t = none
  linkable : d.linkable = true

/-- The reasons for which a link is refused, with what is reported then. -/
inductive Refuses (g : Graph) (s : OutputRef) (e : OutputDecl) (t : InputRef) (d : InputDecl) :
    Diagnostic → Prop
  | linked (h : g.linkAt t ≠ none) : Refuses g s e t d (.inputAlreadyLinked t.node d.name)
  | unlinkable (h : g.linkAt t = none) (hl : d.linkable = false) :
    Refuses g s e t d (.notLinkable t.node d.name)
  | closure (h : g.linkAt t = none) (hl : d.linkable = true) (he : e.type = .closure)
    (hty : e.type.linksTo d.type = false) :
    Refuses g s e t d (.closureConversion s.node e.name t.node d.name d.type)

/-- Some inputs, none of them listed twice, are linked to an output. -/
structure Attached (g : Graph) (s : OutputRef) (rest : List InputRef) : Prop where
  nodup : rest.Nodup
  linked : ∀ t ∈ rest, g.linkAt t = some s

variable {g : Graph}

theorem WellFormed.attached (hg : g.WellFormed) (s : OutputRef) : g.Attached s (g.fanOut s) :=
  ⟨hg.nodup s, fun t ht => (hg.link_iff t s).mpr ht⟩

theorem Attached.tail {s : OutputRef} {t : InputRef} {rest : List InputRef}
    (h : g.Attached s (t :: rest)) : g.Attached s rest :=
  ⟨(List.nodup_cons.mp h.nodup).2, fun t' ht' => h.linked t' (List.mem_cons_of_mem t ht')⟩

/-- The inputs that remain are still linked after the first one was changed, together with inputs
that are linked to other outputs. -/
theorem Attached.next {g' : Graph} {s : OutputRef} {t : InputRef} {rest : List InputRef}
    {T : InputRef → Prop} (h : g.Attached s (t :: rest)) (h' : g.Evolves T g')
    (hT : ∀ r, T r → r = t ∨ g.linkAt r ≠ some s) : g'.Attached s rest := by
  refine ⟨h.tail.nodup, fun t' ht' => ?_⟩
  have hl := h.tail.linked t' ht'
  obtain ⟨d, hd⟩ := g.inputDecl?_of_linkAt hl
  obtain ⟨k, hk⟩ := g.kind?_of_inputDecl? hd
  rw [h'.linkAt_eq t' (g.lt_idBound_of_kind? hk)]
  · exact hl
  · intro hTt
    rcases hT t' hTt with rfl | hne
    · exact (List.nodup_cons.mp h.nodup).1 ht'
    · exact hne hl

theorem linkAt_of_idBound_le {r : InputRef} (h : g.idBound ≤ r.node) : g.linkAt r = none := by
  simp [linkAt, input?, g.node?_of_idBound_le h]

theorem kind?_push_self (n : Node) : (g.push n).kind? g.idBound = some n.kind := by
  rw [kind?_eq_layout?, layout?_push, if_pos rfl]
  rfl

theorem node_lt_of_inputDecl? {t : InputRef} {d : InputDecl} (h : g.inputDecl? t = some d) :
    t.node < g.idBound := by
  obtain ⟨k, hk⟩ := g.kind?_of_inputDecl? h
  exact g.lt_idBound_of_kind? hk

theorem withEmission_eq_push : g.withEmission = g.push .emitter := by
  rw [withEmission, modifyNode_push (f := (·.store "Color" _)) g rfl,
    modifyNode_push (f := (·.store "Strength" _)) g rfl]
  rfl

variable {s : OutputRef} {t : InputRef} {d : InputDecl} {e : OutputDecl}

theorem outputDecl?_push (hs : g.outputDecl? s = some e) (n : Node) :
    (g.push n).outputDecl? s = some e := by
  obtain ⟨k, hk⟩ := g.kind?_of_outputDecl? hs
  rw [outputDecl?_eq_layout?, layout?_push, if_neg (Nat.ne_of_lt (g.lt_idBound_of_kind? hk)),
    ← outputDecl?_eq_layout?, hs]

theorem inputDecl?_push (ht : g.inputDecl? t = some d) (n : Node) :
    (g.push n).inputDecl? t = some d := by
  rw [inputDecl?_eq_layout?, layout?_push, if_neg (Nat.ne_of_lt (node_lt_of_inputDecl? ht)),
    ← inputDecl?_eq_layout?, ht]

/-! ### Sockets that can be linked

A bridge is put between two sockets that can be linked. Each of the links that this takes is made
between two sockets that can be linked at that moment, whatever the graph. -/

/-- An output can be linked to a new node. -/
theorem joinable_push (hs : g.outputDecl? s = some e) {n : Node} {slot : Nat}
    (hin : n.layout.inputs[slot]? = some d) (hl : d.linkable = true) :
    (g.push n).Joinable s e ⟨g.idBound, slot⟩ d where
  source := outputDecl?_push hs n
  target := by
    rw [inputDecl?_eq_layout?, layout?_push, if_pos rfl]
    exact hin
  free := by rw [linkAt_push, linkAt_of_idBound_le (Nat.le_refl _)]
  linkable := hl

/-- A new emission can be fed at its strength. -/
theorem exists_joinable_strength (hs : g.outputDecl? s = some e) : ∃ d', d'.type = .float ∧
    (g.push .emitter).Joinable s e ⟨g.idBound, 1⟩ d' :=
  ⟨_, rfl, joinable_push hs rfl rfl⟩

/-- A new emission can be fed at its colour. -/
theorem exists_joinable_color (hs : g.outputDecl? s = some e) : ∃ d', d'.type = .color ∧
    (g.push .emitter).Joinable s e ⟨g.idBound, 0⟩ d' :=
  ⟨_, rfl, joinable_push hs rfl rfl⟩

/-- The place of the input at which an emission takes a value: its strength takes numbers, and its
colour all else. -/
def emissionSlot (source : SocketType) : Nat := if source = .float then 1 else 0

/-- A value is linked to a new emission if it is a number or a colour, and through a conversion if it
is not. -/
theorem exists_joinable_emission (hs : g.outputDecl? s = some e) : ∃ d', d'.type ≠ .closure ∧
    (g.push .emitter).Joinable s e ⟨g.idBound, emissionSlot e.type⟩ d' ∧
      g.feedEmission s e.type =
        if e.type.linksTo d'.type then (g.push .emitter).link s ⟨g.idBound, emissionSlot e.type⟩
        else (g.push .emitter).bridged s e.type ⟨g.idBound, emissionSlot e.type⟩ d'.type := by
  by_cases hfloat : e.type = .float
  · obtain ⟨d', hd', hj⟩ := exists_joinable_strength hs
    have hty : e.type.linksTo d'.type = true := by rw [hfloat, hd']; rfl
    refine ⟨d', by rw [hd']; decide, by rwa [emissionSlot, if_pos hfloat], ?_⟩
    rw [if_pos hty, feedEmission, if_pos hfloat, withEmission_eq_push, emissionSlot, if_pos hfloat]
  · obtain ⟨d', hd', hj⟩ := exists_joinable_color hs
    have hcolor : e.type.linksTo d'.type = true ↔ e.type = .color := by
      rw [hd']
      cases e.type <;> decide
    refine ⟨d', by rw [hd']; decide, by rwa [emissionSlot, if_neg hfloat], ?_⟩
    rw [if_congr hcolor rfl rfl, feedEmission, if_neg hfloat, withEmission_eq_push, emissionSlot,
      if_neg hfloat, hd']

namespace Joinable

theorem push (h : g.Joinable s e t d) (n : Node) : (g.push n).Joinable s e t d where
  source := outputDecl?_push h.source n
  target := inputDecl?_push h.target n
  free := by rw [linkAt_push, h.free]
  linkable := h.linkable

/-- A new node can take the place of the output. -/
theorem push_source (h : g.Joinable s e t d) {n : Node} {slot : Nat} {e' : OutputDecl}
    (hout : n.layout.outputs[slot]? = some e') : (g.push n).Joinable ⟨g.idBound, slot⟩ e' t d where
  source := by
    rw [outputDecl?_eq_layout?, layout?_push, if_pos rfl]
    exact hout
  target := inputDecl?_push h.target n
  free := by rw [linkAt_push, h.free]
  linkable := h.linkable

theorem ne_new (h : g.Joinable s e t d) (slot : Nat) : t ≠ ⟨g.idBound, slot⟩ := by
  rintro rfl
  exact Nat.lt_irrefl _ (node_lt_of_inputDecl? h.target)

variable {s' : OutputRef} {t' : InputRef} {d' : InputDecl} {e' : OutputDecl}

theorem link (h : g.Joinable s e t d) (h' : g.Joinable s' e' t' d') (hne : t ≠ t') :
    (g.link s' t').Joinable s e t d where
  source := by simpa [outputDecl?_eq_layout?] using h.source
  target := by simpa [inputDecl?_eq_layout?] using h.target
  free := by rw [g.linkAt_link (by simp [h'.target]), if_neg hne, h.free]
  linkable := h.linkable

/-- The output can be linked to a new conversion. -/
theorem to_conversion (h : g.Joinable s e t d) : ∃ d', d'.type = e.type ∧
    (g.push (Node.ofKind (.convert e.type d.type true))).Joinable s e ⟨g.idBound, 0⟩ d' :=
  ⟨_, rfl, joinable_push h.source rfl rfl⟩

/-- Once this is done, the conversion can be linked to the input. -/
theorem from_conversion (h : g.Joinable s e t d) : ∃ e', e'.type = d.type ∧
    ((g.push (Node.ofKind (.convert e.type d.type true))).link s ⟨g.idBound, 0⟩).Joinable
      ⟨g.idBound, 0⟩ e' t d := by
  obtain ⟨d', -, h'⟩ := h.to_conversion
  exact ⟨_, rfl, (h.push_source rfl).link h' (h.ne_new 0)⟩

/-- A bridge to another input is no hindrance. -/
theorem bridged (h : g.Joinable s e t d) (h' : g.Joinable s' e' t' d') (hne : t ≠ t') :
    (g.bridged s' e'.type t' d'.type).Joinable s e t d := by
  obtain ⟨d₁, -, h₁⟩ := h'.to_conversion
  obtain ⟨e₂, -, h₂⟩ := h'.from_conversion
  exact ((h.push _).link h₁ (h.ne_new 0)).link h₂ hne

/-- Once a value is linked to a new emission, the emission can be linked to the input. -/
theorem from_emission (h : g.Joinable s e t d) : ∃ e', e'.type = .closure ∧
    (g.feedEmission s e.type).Joinable ⟨g.idBound, 0⟩ e' t d := by
  obtain ⟨e', he', hout⟩ : ∃ e', e'.type = .closure ∧
      (g.push .emitter).Joinable ⟨g.idBound, 0⟩ e' t d := by
    refine ⟨_, ?_, h.push_source rfl⟩
    rfl
  obtain ⟨d', -, hj, hfeed⟩ := exists_joinable_emission h.source
  refine ⟨e', he', ?_⟩
  rw [hfeed]
  split_ifs
  · exact hout.link hj (h.ne_new _)
  · exact hout.bridged hj (h.ne_new _)

end Joinable

theorem finalized_bridged (source target : SocketType) :
    (g.bridged s source t target).finalized = g.finalized := by
  rw [bridged, finalized_link, finalized_link, finalized_push]

theorem finalized_feedEmission (source : SocketType) :
    (g.feedEmission s source).finalized = g.finalized := by
  rw [feedEmission, withEmission_eq_push]
  split_ifs
  · rw [finalized_link, finalized_push]
  · rw [finalized_link, finalized_push]
  · rw [finalized_bridged, finalized_push]

theorem layout?_bridged (source target : SocketType) (x : NodeId) :
    (g.bridged s source t target).layout? x =
      if x = g.idBound then some (NodeKind.convert source target true).layout else g.layout? x := by
  simp only [bridged, layout?_link, layout?_push, Node.layout_ofKind]

theorem kind?_bridged (source target : SocketType) (x : NodeId) :
    (g.bridged s source t target).kind? x =
      if x = g.idBound then some (.convert source target true) else g.kind? x := by
  rw [kind?_eq_layout?, layout?_bridged, kind?_eq_layout?]
  split_ifs <;> rfl

theorem linkAt_bridged (h : g.Joinable s e t d) (r : InputRef) :
    (g.bridged s e.type t d.type).linkAt r =
      if r = t then some ⟨g.idBound, 0⟩ else if r = ⟨g.idBound, 0⟩ then some s else g.linkAt r := by
  obtain ⟨d', -, hin⟩ := h.to_conversion
  obtain ⟨e', -, hout⟩ := h.from_conversion
  rw [bridged, linkAt_link _ (by simp [hout.target]), linkAt_link _ (by simp [hin.target]),
    linkAt_push]

theorem layout?_withEmission (g : Graph) :
    g.withEmission.layout? g.idBound = some (NodeKind.emission true).layout := by
  rw [withEmission_eq_push, layout?_push, if_pos rfl]
  rfl

theorem layout?_feedEmission (g : Graph) (s : OutputRef) (source : SocketType) :
    (g.feedEmission s source).layout? g.idBound = some (NodeKind.emission true).layout := by
  have hne : g.idBound ≠ g.withEmission.idBound := by simp [withEmission_eq_push]
  unfold feedEmission
  split_ifs
  · rw [layout?_link, layout?_withEmission]
  · rw [layout?_link, layout?_withEmission]
  · rw [layout?_bridged, if_neg hne, layout?_withEmission]

variable (hg : g.WellFormed)
include hg

theorem Joinable.evolves_link (h : g.Joinable s e t d) (hty : e.type.linksTo d.type = true) :
    g.Evolves (· = t) (g.link s t) :=
  Graph.evolves_link hg h.source h.target h.free h.linkable hty

theorem evolves_bridged (h : g.Joinable s e t d) :
    g.Evolves (· = t) (g.bridged s e.type t d.type) := by
  obtain ⟨d', hd', hin⟩ := h.to_conversion
  obtain ⟨e', he', hout⟩ := h.from_conversion
  have h₁ := evolves_push hg (Node.sound_ofKind (.convert e.type d.type true))
  have h₂ := hin.evolves_link h₁.wellFormed (hd' ▸ e.type.linksTo_self)
  have h₃ := hout.evolves_link h₂.wellFormed (he' ▸ d.type.linksTo_self)
  exact (h₁.trans_fresh h₂ fun r hr => Or.inr (by simp [hr])).widen.trans h₃

theorem evolves_withEmission : g.Evolves (fun _ => False) g.withEmission := by
  have h₁ := evolves_push hg (Node.sound_ofKind (.emission true))
  have h₂ := evolves_storeNamed h₁.wellFormed g.idBound "Color" (.float3 (Vec3.splat 1))
  exact (h₁.trans h₂).trans (evolves_storeNamed h₂.wellFormed g.idBound "Strength" (.float 1))

theorem evolves_feedEmission (hs : g.outputDecl? s = some e) :
    g.Evolves (fun _ => False) (g.feedEmission s e.type) := by
  obtain ⟨d', -, hj, hfeed⟩ := exists_joinable_emission hs
  have h := evolves_withEmission hg
  rw [withEmission_eq_push] at h
  rw [hfeed]
  split_ifs with hty
  · exact h.trans_fresh (hj.evolves_link h.wellFormed hty) fun r hr => Or.inr (by simp [hr])
  · exact h.trans_fresh (evolves_bridged h.wellFormed hj) fun r hr => Or.inr (by simp [hr])

theorem evolves_emitted (h : g.Joinable s e t d) (hc : d.type = .closure) :
    g.Evolves (· = t) (g.emitted s e.type t) := by
  obtain ⟨e', he', hout⟩ := h.from_emission
  have h₁ := evolves_feedEmission hg h.source
  exact h₁.widen.trans (hout.evolves_link h₁.wellFormed (by rw [he', hc]; rfl))

end Graph

namespace Edit

open Shading.Graph

variable {α : Type} {g : Graph} {Q : α → Graph → Prop} {E : Graph → Prop}

/-! ### Edits in a row -/

section

variable {g₀ : Graph} {T T' : InputRef → Prop} {e : Edit α}

/-- An edit that comes after others, and does nothing if it fails. -/
theorem Meets.evolves {P : Prop} (h : g₀.Evolves T g)
    (he : e.Meets g (fun _ => g.Evolves T') fun g' => g' = g ∧ P)
    (hT : ∀ r, T' r → T r ∨ g₀.idBound ≤ r.node) :
    e.Meets g (fun _ => g₀.Evolves T) (g₀.Evolves T) :=
  he.mono (fun _ _ h' => h.trans_fresh h' hT) fun _ h' => h'.1 ▸ h

end

/-! ### Adding and storing -/

theorem meets_add {n : Node} {Q : NodeId → Graph → Prop}
    (hok : g.finalized = false → Q g.idBound (g.push n)) (herr : g.finalized = true → E g) :
    (add n).Meets g Q E :=
  meets_requireMutable_bind hok herr

theorem ends_addKind {k : NodeKind} {Q : NodeId → Graph → Prop} (hm : g.finalized = false)
    (h : Q g.idBound (g.push (Node.ofKind k))) : (addKind k).Ends g Q :=
  meets_add (fun _ => h) fun hf => by simp [hm] at hf

theorem meets_store (hg : g.WellFormed) (t : InputRef) (l : Literal) :
    (store t l).Meets g (fun _ => g.Trims fun _ => False)
      fun g' => g' = g ∧ (g.finalized = true ∨ g.inputDecl? t = none) := by
  refine meets_requireMutable_bind (fun _ => ?_) fun hf => ⟨rfl, Or.inl hf⟩
  rw [discard_bind]
  exact meets_ask_input_bind (fun _ _ => meets_modify (trims_store hg t l))
    fun ht => ⟨rfl, Or.inr ht⟩

theorem ends_store (hg : g.WellFormed) (hm : g.finalized = false) {t : InputRef} {d : InputDecl}
    (ht : g.inputDecl? t = some d) (l : Literal) :
    (store t l).Ends g fun _ => g.Trims fun _ => False :=
  (meets_store hg t l).ends fun _ h => by simp [hm, ht] at h

theorem ends_store_eq (hm : g.finalized = false) {t : InputRef} {d : InputDecl}
    (ht : g.inputDecl? t = some d) (l : Literal) :
    (store t l).Ends g fun _ g' => g' = g.modifyInput t (Input.store l) := by
  refine meets_requireMutable_bind (fun _ => ?_) fun hf => by simp [hm] at hf
  rw [discard_bind]
  exact meets_ask_input_bind (fun _ _ => meets_modify rfl) fun hn => by simp [hn] at ht

theorem meets_storeNamed (hg : g.WellFormed) (id : NodeId) (name : String) (l : Literal) :
    (storeNamed id name l).Meets g (fun _ => g.Evolves fun _ => False)
      fun g' => g' = g ∧ g.kind? id = none :=
  meets_ask_node_bind (fun _ _ => meets_modify_bind (meets_pure (evolves_storeNamed hg id name l)))
    fun hn => ⟨rfl, hn⟩

theorem ends_storeNamed {id : NodeId} {k : NodeKind} {name : String} {l : Literal}
    {Q : Bool → Graph → Prop} (hk : g.kind? id = some k)
    (h : ∀ b, Q b (g.modifyNode id (·.store name l))) : (storeNamed id name l).Ends g Q :=
  meets_ask_node_bind (fun _ _ => meets_modify_bind (meets_pure (h _))) fun hn => by simp [hn] at hk

/-! ### Linking -/

/-- The attempt links sockets of fitting types. -/
def LinksFitting (attempt : OutputRef → InputRef → Edit Connection) : Prop :=
  ∀ ⦃g s e t d⦄, g.Joinable s e t d → e.type.linksTo d.type = true → g.finalized = false →
    (attempt s t).Ends g fun c g' => c = .linked ∧ g' = g.link s t

/-- The attempt puts a conversion between values whose types do not fit. -/
def ConvertsValues (attempt : OutputRef → InputRef → Edit Connection) : Prop :=
  ∀ ⦃g s e t d⦄, g.Joinable s e t d → e.type.linksTo d.type = false → e.type ≠ .closure →
    d.type ≠ .closure → g.finalized = false →
      (attempt s t).Ends g fun c g' => c = .converted g.idBound ∧ g' = g.bridged s e.type t d.type

section

variable {attempt : OutputRef → InputRef → Edit Connection} {s : OutputRef} {e : OutputDecl}
  {t : InputRef} {d : InputDecl}

/-- Both links of a conversion are made between fitting types. -/
theorem ends_connectConverted (ha : LinksFitting attempt) (hj : g.Joinable s e t d)
    (hm : g.finalized = false) :
    (connectConverted attempt s e.type t d.type).Ends g fun id g' =>
      id = g.idBound ∧ g' = g.bridged s e.type t d.type := by
  obtain ⟨d', hd', hin⟩ := hj.to_conversion
  obtain ⟨e', he', hout⟩ := hj.from_conversion
  have hfit : e.type.linksTo d'.type = true := hd' ▸ e.type.linksTo_self
  have hfit' : e'.type.linksTo d.type = true := he' ▸ d.type.linksTo_self
  refine ends_bind.mpr (ends_addKind hm ?_)
  rw [discard_bind]
  refine (ha hin hfit hm).bind ?_
  rintro _ _ ⟨-, rfl⟩
  rw [discard_bind]
  refine (ha hout hfit' hm).bind ?_
  rintro _ _ ⟨-, rfl⟩
  exact ends_pure ⟨rfl, rfl⟩

/-- A number is linked to the strength of a new emission and a colour to its colour. Any other value
is linked to the colour through a conversion. -/
theorem ends_attempt_emission (ha : LinksFitting attempt) (hc : ConvertsValues attempt)
    (hs : g.outputDecl? s = some e) (he : e.type ≠ .closure) (hm : g.finalized = false) :
    (attempt s ⟨g.idBound, emissionSlot e.type⟩).Ends g.withEmission
      fun c g' => (c = .linked ∨ c = .converted (g.idBound + 1)) ∧ g' = g.feedEmission s e.type := by
  obtain ⟨d', hd', hj, hfeed⟩ := exists_joinable_emission hs
  rw [withEmission_eq_push, hfeed]
  split_ifs with hty
  · exact (ha hj hty hm).mono fun _ _ h => ⟨Or.inl h.1, h.2⟩
  · refine (hc hj (by simpa using hty) he hd' hm).mono fun _ _ h => ⟨Or.inr ?_, h.2⟩
    rw [h.1, idBound_push]

theorem ends_connectEmitted (ha : LinksFitting attempt) (hc : ConvertsValues attempt)
    (hj : g.Joinable s e t d) (he : e.type ≠ .closure) (hd : d.type = .closure)
    (hm : g.finalized = false) :
    (connectEmitted attempt s e.type t).Ends g fun id g' =>
      id = g.idBound ∧ g' = g.emitted s e.type t := by
  have hfeed : g.withEmission.inputRef g.idBound
      (if e.type = .float then "Strength" else "Color") =
        .ok ⟨g.idBound, emissionSlot e.type⟩ := by
    unfold emissionSlot
    split_ifs <;> exact (inputRef_eq_ok _).mpr ⟨_, _, g.layout?_withEmission, rfl, rfl⟩
  have hemission : (g.feedEmission s e.type).outputRef g.idBound "Emission" = .ok ⟨g.idBound, 0⟩ :=
    (outputRef_eq_ok _).mpr ⟨_, _, g.layout?_feedEmission s e.type, rfl, rfl⟩
  have hm' := (finalized_feedEmission (s := s) e.type).trans hm
  obtain ⟨e', he', hout⟩ := hj.from_emission
  have hfit : e'.type.linksTo d.type = true := by
    rw [he', hd]
    rfl
  have hcolor := g.modifyNode_push (n := .ofKind (.emission true))
    (f := (·.store "Color" (.float3 (Vec3.splat 1)))) rfl
  refine ends_bind.mpr (ends_addKind hm ?_)
  rw [discard_bind]
  refine ends_bind.mpr (ends_storeNamed (g.kind?_push_self _) fun _ => ?_)
  rw [discard_bind]
  refine ends_bind.mpr (ends_storeNamed (hcolor ▸ g.kind?_push_self _) fun _ => ?_)
  refine ends_ask_bind hfeed ?_
  rw [discard_bind]
  refine (ends_attempt_emission ha hc hj.source he hm).bind ?_
  rintro _ _ ⟨-, rfl⟩
  refine ends_ask_bind hemission ?_
  rw [discard_bind]
  refine (ha hout hfit hm').bind ?_
  rintro _ _ ⟨-, rfl⟩
  exact ends_pure ⟨rfl, rfl⟩

theorem meets_reject {d : Diagnostic} {Q : Connection → Graph → Prop}
    (h : Q (.rejected d) (g.report d)) : (reject d).Meets g Q E := h

/-- The ways in which an attempt ends. -/
theorem meets_connectStep {Q : Connection → Graph → Prop}
    (missing : g.finalized = true ∨ g.outputDecl? s = none ∨ g.inputDecl? t = none → E g)
    (rejected : ∀ e d c, g.outputDecl? s = some e → g.inputDecl? t = some d → g.Refuses s e t d c →
      Q (.rejected c) (g.report c))
    (linked : ∀ e d, g.Joinable s e t d → e.type.linksTo d.type = true → Q .linked (g.link s t))
    (emitted : ∀ e d, g.finalized = false → g.Joinable s e t d → e.type.linksTo d.type = false →
      e.type ≠ .closure → d.type = .closure →
        (connectEmitted attempt s e.type t).Meets g (fun id => Q (.converted id)) E)
    (bridged : ∀ e d, g.finalized = false → g.Joinable s e t d → e.type.linksTo d.type = false →
      e.type ≠ .closure → d.type ≠ .closure →
        (connectConverted attempt s e.type t d.type).Meets g (fun id => Q (.converted id)) E) :
    (connectStep attempt s t).Meets g Q E := by
  refine meets_requireMutable_bind (fun hm => ?_) fun hf => missing (Or.inl hf)
  refine meets_ask_output_bind (fun o ho => ?_) fun hn => missing (Or.inr (Or.inl hn))
  refine meets_ask_input_bind (fun i hi => ?_) fun hn => missing (Or.inr (Or.inr hn))
  have hs : g.outputDecl? s = some o.toOutputDecl := by simp [outputDecl?, ho]
  have ht : g.inputDecl? t = some i.toInputDecl := by simp [inputDecl?, hi]
  have hl : g.linkAt t = i.link := by simp [linkAt, hi]
  have hrej := fun c => rejected _ _ c hs ht
  split_ifs with h₁ h₂ h₃ h₄ h₅
  · refine meets_reject (hrej _ (.linked ?_))
    rw [hl]
    exact Option.isSome_iff_ne_none.mp h₁
  all_goals have hfree : g.linkAt t = none := by rw [hl]; simpa [Input.isLinked] using h₁
  · exact meets_reject (hrej _ (.unlinkable hfree (by simpa using h₂)))
  all_goals
    have hj : g.Joinable s o.toOutputDecl t i.toInputDecl := ⟨hs, ht, hfree, by simpa using h₂⟩
  · exact meets_modify_bind (meets_pure (linked _ _ hj h₃))
  · exact meets_reject (hrej _ (.closure hfree hj.linkable h₄ (by simpa using h₃)))
  · exact (emitted _ _ hm hj (by simpa using h₃) h₄ h₅).bind fun _ _ h => h
  · exact (bridged _ _ hm hj (by simpa using h₃) h₄ h₅).bind fun _ _ h => h

/-- The ways in which an attempt with sockets that can be linked ends. -/
theorem ends_connectStep {Q : Connection → Graph → Prop} (hj : g.Joinable s e t d)
    (hm : g.finalized = false) (hcl : e.type = .closure → e.type.linksTo d.type = true)
    (linked : e.type.linksTo d.type = true → Q .linked (g.link s t))
    (emitted : e.type.linksTo d.type = false → d.type = .closure →
      (connectEmitted attempt s e.type t).Ends g fun id => Q (.converted id))
    (bridged : e.type.linksTo d.type = false → d.type ≠ .closure →
      (connectConverted attempt s e.type t d.type).Ends g fun id => Q (.converted id)) :
    (connectStep attempt s t).Ends g Q := by
  have hsame : ∀ {e' d'}, g.outputDecl? s = some e' → g.inputDecl? t = some d' → e' = e ∧ d' = d := by
    intro e' d' he' hd'
    rw [hj.source, Option.some.injEq] at he'
    rw [hj.target, Option.some.injEq] at hd'
    exact ⟨he'.symm, hd'.symm⟩
  refine meets_connectStep (fun hn => by simp [hm, hj.source, hj.target] at hn) ?_ ?_ ?_ ?_
  · intro e' d' c he' hd' hr
    obtain ⟨rfl, rfl⟩ := hsame he' hd'
    rcases hr with hlinked | ⟨-, hl⟩ | ⟨-, -, hclosure, hty⟩
    · exact absurd hj.free hlinked
    · simp [hj.linkable] at hl
    · simp [hcl hclosure] at hty
  · intro e' d' hj' hty
    obtain ⟨rfl, rfl⟩ := hsame hj'.source hj'.target
    exact linked hty
  · intro e' d' _ hj' hty _ hd
    obtain ⟨rfl, rfl⟩ := hsame hj'.source hj'.target
    exact emitted hty hd
  · intro e' d' _ hj' hty _ hd
    obtain ⟨rfl, rfl⟩ := hsame hj'.source hj'.target
    exact bridged hty hd

theorem linksFitting_connectStep : LinksFitting (connectStep attempt) := by
  intro g s e t d hj hty hm
  exact ends_connectStep hj hm (fun _ => hty) (fun _ => ⟨rfl, rfl⟩) (fun hno => by simp [hty] at hno)
    fun hno => by simp [hty] at hno

/-- If the nested attempts link fitting types, then values are converted. -/
theorem convertsValues_connectStep (ha : LinksFitting attempt) :
    ConvertsValues (connectStep attempt) := by
  intro g s e t d hj hty he hd hm
  refine ends_connectStep hj hm (fun hcl => absurd hcl he) (fun hfit => by simp [hty] at hfit)
    (fun _ hcl => absurd hcl hd) fun _ _ => ?_
  exact (ends_connectConverted ha hj hm).mono fun _ _ ⟨hid, hg'⟩ => ⟨hid ▸ rfl, hg'⟩

end

theorem linksFitting_connectWithin (n : Nat) : LinksFitting (connectWithin (n + 1)) :=
  linksFitting_connectStep

theorem convertsValues_connectWithin (n : Nat) : ConvertsValues (connectWithin (n + 2)) :=
  convertsValues_connectStep (linksFitting_connectWithin n)

/-- It is enough that the nested attempts link fitting types and convert values. -/
theorem connectStep_congr {attempt attempt' : OutputRef → InputRef → Edit Connection}
    (ha : LinksFitting attempt) (hc : ConvertsValues attempt) (ha' : LinksFitting attempt')
    (hc' : ConvertsValues attempt') (s : OutputRef) (t : InputRef) :
    connectStep attempt s t = connectStep attempt' s t := by
  funext g
  -- the two differ in the nested attempts only, which are made if the types do not fit
  refine run_bind_congr fun _ g₁ hrun => ?_
  obtain ⟨hm, rfl⟩ : g.finalized = false ∧ g = g₁ := by
    rw [run_requireMutable] at hrun
    split_ifs at hrun with hf
    cases hrun
    exact ⟨by simpa using hf, rfl⟩
  refine run_bind_congr fun o g₁ hrun => ?_
  obtain ⟨ho, rfl⟩ := eq_of_run_ask hrun
  refine run_bind_congr fun i g₁ hrun => ?_
  obtain ⟨hi, rfl⟩ := eq_of_run_ask hrun
  split_ifs with h₁ h₂ h₃ h₄ h₅
  · rfl
  · rfl
  · rfl
  · rfl
  all_goals
    have hj : g₁.Joinable s o.toOutputDecl t i.toInputDecl := by
      rw [output_eq_ok] at ho
      rw [input_eq_ok] at hi
      refine ⟨by simp [outputDecl?, ho], by simp [inputDecl?, hi], ?_, by simpa using h₂⟩
      simpa [linkAt, hi, Input.isLinked] using h₁
  · have hrun := (ends_connectEmitted ha hc hj h₄ h₅ hm).run_eq
    have hrun' := (ends_connectEmitted ha' hc' hj h₄ h₅ hm).run_eq
    rw [EStateM.run_bind, EStateM.run_bind, hrun, hrun']
  · have hrun := (ends_connectConverted ha hj hm).run_eq
    have hrun' := (ends_connectConverted ha' hj hm).run_eq
    rw [EStateM.run_bind, EStateM.run_bind, hrun, hrun']

/-- **Linking calls itself.** The bound on the number of nested attempts is never reached. -/
theorem connect_eq (s : OutputRef) (t : InputRef) : connect s t = connectStep connect s t :=
  connectStep_congr (linksFitting_connectWithin 1) (convertsValues_connectWithin 0)
    (linksFitting_connectWithin 2) (convertsValues_connectWithin 1) s t

/-- An attempt that is followed by something else if it is rejected. -/
def heeding (f : Diagnostic → Edit Connection) (attempt : OutputRef → InputRef → Edit Connection)
    (s : OutputRef) (t : InputRef) : Edit Connection := do
  match ← attempt s t with
  | .rejected c => f c
  | c => pure c

/-- **Nested attempts are linked or converted.** It would make no difference what is done if one of
them is rejected. -/
theorem connect_eq_heeding (f : Diagnostic → Edit Connection) (s : OutputRef) (t : InputRef) :
    connect s t = connectStep (heeding f connect) s t := by
  have ha := linksFitting_connectWithin 2
  have hc := convertsValues_connectWithin 1
  have ha' : LinksFitting (heeding f connect) := by
    intro g s e t d hj hty hm
    refine (ha hj hty hm).bind ?_
    rintro _ _ ⟨rfl, rfl⟩
    exact ends_pure ⟨rfl, rfl⟩
  have hc' : ConvertsValues (heeding f connect) := by
    intro g s e t d hj hty he hd hm
    refine (hc hj hty he hd hm).bind ?_
    rintro _ _ ⟨rfl, rfl⟩
    exact ends_pure ⟨rfl, rfl⟩
  exact (connect_eq s t).trans (connectStep_congr ha hc ha' hc' s t)

/-- What holds of all attempts if it holds of those that are nested in them holds of linking. -/
theorem connect_induction {P : Edit Connection → Prop} (fault : ∀ x : Fault, P (throw x))
    (step : ∀ attempt, (∀ s t, P (attempt s t)) → ∀ s t, P (connectStep attempt s t)) (s : OutputRef)
    (t : InputRef) : P (connect s t) := by
  have hall : ∀ n s t, P (connectWithin n s t) := by
    intro n
    induction n with
    | zero => exact fun _ _ => fault _
    | succ n ih => exact step _ ih
  exact hall 3 s t

/-- **The ways in which linking ends.** -/
theorem meets_connect_refuses {s : OutputRef} {t : InputRef} {Q : Connection → Graph → Prop}
    (missing : g.finalized = true ∨ g.outputDecl? s = none ∨ g.inputDecl? t = none → E g)
    (rejected : ∀ e d c, g.outputDecl? s = some e → g.inputDecl? t = some d → g.Refuses s e t d c →
      Q (.rejected c) (g.report c))
    (linked : ∀ e d, g.Joinable s e t d → e.type.linksTo d.type = true → Q .linked (g.link s t))
    (emitted : ∀ e d, g.Joinable s e t d → e.type.linksTo d.type = false → e.type ≠ .closure →
      d.type = .closure → Q (.converted g.idBound) (g.emitted s e.type t))
    (bridged : ∀ e d, g.Joinable s e t d → e.type.linksTo d.type = false → e.type ≠ .closure →
      d.type ≠ .closure → Q (.converted g.idBound) (g.bridged s e.type t d.type)) :
    (connect s t).Meets g Q E := by
  have ha := linksFitting_connectWithin 1
  have hc := convertsValues_connectWithin 0
  refine meets_connectStep missing rejected linked ?_ ?_
  · intro e d hm hj hty he hd
    refine Ends.meets ((ends_connectEmitted ha hc hj he hd hm).mono ?_)
    rintro _ _ ⟨rfl, rfl⟩
    exact emitted e d hj hty he hd
  · intro e d hm hj hty he hd
    refine Ends.meets ((ends_connectConverted ha hj hm).mono ?_)
    rintro _ _ ⟨rfl, rfl⟩
    exact bridged e d hj hty he hd

/-- The ways in which linking ends, for those who do not ask what is reported. -/
theorem meets_connect {s : OutputRef} {t : InputRef} {Q : Connection → Graph → Prop}
    (missing : g.finalized = true ∨ g.outputDecl? s = none ∨ g.inputDecl? t = none → E g)
    (rejected : ∀ e d c, g.outputDecl? s = some e → g.inputDecl? t = some d →
      g.linkAt t ≠ none ∨ d.linkable = false ∨
        (e.type = .closure ∧ e.type.linksTo d.type = false) → Q (.rejected c) (g.report c))
    (linked : ∀ e d, g.Joinable s e t d → e.type.linksTo d.type = true → Q .linked (g.link s t))
    (emitted : ∀ e d, g.Joinable s e t d → e.type.linksTo d.type = false → d.type = .closure →
      Q (.converted g.idBound) (g.emitted s e.type t))
    (bridged : ∀ e d, g.Joinable s e t d → e.type.linksTo d.type = false → e.type ≠ .closure →
      d.type ≠ .closure → Q (.converted g.idBound) (g.bridged s e.type t d.type)) :
    (connect s t).Meets g Q E := by
  refine meets_connect_refuses missing (fun e d c he hd hc => rejected e d c he hd ?_) linked
    (fun e d hj hty _ => emitted e d hj hty) bridged
  cases hc with
  | linked h => exact Or.inl h
  | unlinkable _ hl => exact Or.inr (Or.inl hl)
  | closure _ _ hclosure hty => exact Or.inr (Or.inr ⟨hclosure, hty⟩)

/-- Linking changes the link of no input but the target. -/
theorem meets_connect_evolves (hg : g.WellFormed) (s : OutputRef) (t : InputRef) :
    (connect s t).Meets g (fun _ => g.Evolves (· = t)) fun g' => g' = g ∧
      (g.finalized = true ∨ g.outputDecl? s = none ∨ g.inputDecl? t = none) := by
  refine meets_connect (fun h => ⟨rfl, h⟩) ?_ ?_ ?_ ?_
  · intro e d c _ _ _
    exact (evolves_report hg c).widen
  · intro e d h hty
    exact evolves_link hg h.source h.target h.free h.linkable hty
  · intro e d h _ hc
    exact evolves_emitted hg h hc
  · intro e d h _ _ _
    exact evolves_bridged hg h

/-- Sockets of fitting types are linked without a node between them, or not at all. -/
theorem ends_connect_fitting {s : OutputRef} {e : OutputDecl} {t : InputRef} {d : InputDecl}
    {Q : Connection → Graph → Prop} (hm : g.finalized = false)
    (hs : g.outputDecl? s = some e) (ht : g.inputDecl? t = some d)
    (hty : e.type.linksTo d.type = true)
    (rejected : ∀ c, g.linkAt t ≠ none ∨ d.linkable = false → Q (.rejected c) (g.report c))
    (linked : g.Joinable s e t d → Q .linked (g.link s t)) : (connect s t).Ends g Q := by
  have hsame : ∀ e' d', g.outputDecl? s = some e' → g.inputDecl? t = some d' → e' = e ∧ d' = d := by
    intro e' d' he' hd'
    rw [hs, Option.some.injEq] at he'
    rw [ht, Option.some.injEq] at hd'
    exact ⟨he'.symm, hd'.symm⟩
  refine meets_connect (fun hn => by simp [hm, hs, ht] at hn) ?_ ?_ ?_ ?_
  · rintro e' d' c he' hd' hr
    obtain ⟨rfl, rfl⟩ := hsame e' d' he' hd'
    exact rejected c (by simpa [hty] using hr)
  · intro e' d' hj _
    obtain ⟨rfl, rfl⟩ := hsame e' d' hj.source hj.target
    exact linked hj
  · intro e' d' hj hn
    obtain ⟨rfl, rfl⟩ := hsame e' d' hj.source hj.target
    simp [hty] at hn
  · intro e' d' hj hn
    obtain ⟨rfl, rfl⟩ := hsame e' d' hj.source hj.target
    simp [hty] at hn

theorem ends_connect_linked {s : OutputRef} {e : OutputDecl} {t : InputRef} {d : InputDecl}
    {Q : Connection → Graph → Prop} (hm : g.finalized = false) (hj : g.Joinable s e t d)
    (hty : e.type.linksTo d.type = true) (h : Q .linked (g.link s t)) : (connect s t).Ends g Q := by
  refine (linksFitting_connectWithin 2 hj hty hm).mono ?_
  rintro _ _ ⟨rfl, rfl⟩
  exact h

/-- A value that does not fit is linked through a conversion. -/
theorem ends_connect_bridged {s : OutputRef} {e : OutputDecl} {t : InputRef} {d : InputDecl}
    {Q : Connection → Graph → Prop} (hm : g.finalized = false) (hj : g.Joinable s e t d)
    (hty : e.type.linksTo d.type = false) (hs : e.type ≠ .closure) (ht : d.type ≠ .closure)
    (h : Q (.converted g.idBound) (g.bridged s e.type t d.type)) : (connect s t).Ends g Q := by
  refine (convertsValues_connectWithin 1 hj hty hs ht hm).mono ?_
  rintro _ _ ⟨rfl, rfl⟩
  exact h

theorem meets_connectNamed (hg : g.WellFormed) (source : NodeId) (output : String)
    (target : NodeId) (input : String) :
    (connectNamed source output target input).Meets g
      (fun _ => g.Evolves fun r => r.node = target) fun g' => g' = g := by
  refine meets_ask_bind (fun s hs => ?_) fun _ => rfl
  refine meets_ask_bind (fun t ht => ?_) fun _ => rfl
  obtain ⟨_, _, -, -, rfl⟩ := (g.inputRef_eq_ok).mp ht
  exact (meets_connect_evolves hg s _).mono
    (fun _ _ h => h.mono fun _ hr => by rw [hr]) fun _ h => h.1

/-! ### Unlinking -/

theorem meets_disconnectInput (hg : g.WellFormed) (t : InputRef) :
    (disconnectInput t).Meets g (fun _ => g.Trims (· = t))
      fun g' => g' = g ∧ (g.finalized = true ∨ g.linkAt t = none) := by
  refine meets_requireMutable_bind (fun _ => ?_) fun hf => ⟨rfl, Or.inl hf⟩
  refine meets_ask_input_bind (fun i hi => ?_) fun hn => ⟨rfl, Or.inr ?_⟩
  · have hl : g.linkAt t = i.link := by simp [linkAt, hi]
    split
    · rename_i h
      exact meets_throw ⟨rfl, Or.inr (hl.trans h)⟩
    · rename_i s h
      exact meets_modify (trims_unlink hg (hl.trans h))
  · cases hl : g.linkAt t with
    | none => rfl
    | some o =>
      obtain ⟨d, hd⟩ := g.inputDecl?_of_linkAt hl
      simp [hn] at hd

theorem ends_disconnectInput (hg : g.WellFormed) (hm : g.finalized = false) {s : OutputRef}
    {t : InputRef} (h : g.linkAt t = some s) :
    (disconnectInput t).Ends g fun _ => g.Trims (· = t) :=
  (meets_disconnectInput hg t).ends fun _ he => by simp [hm, h] at he

theorem meets_disconnectIfLinked (hg : g.WellFormed) (t : InputRef) :
    (disconnectIfLinked t).Meets g (fun _ => g.Trims (· = t))
      fun g' => g' = g ∧ (g.finalized = true ∨ g.inputDecl? t = none) := by
  refine meets_ask_input_bind (fun i hi => ?_) fun hn => ⟨rfl, Or.inr hn⟩
  have hl : g.linkAt t = i.link := by simp [linkAt, hi]
  split
  · rename_i h
    refine (meets_disconnectInput hg t).mono (fun _ _ h => h) ?_
    rintro _ ⟨rfl, hf | hn⟩
    · exact ⟨rfl, Or.inl hf⟩
    · rw [hl] at hn
      simp [Input.isLinked, hn] at h
  · rename_i h
    refine meets_pure (.refl hg ?_)
    rintro _ rfl
    rw [hl]
    simpa [Input.isLinked] using h

theorem ends_disconnectIfLinked (hg : g.WellFormed) (hm : g.finalized = false) {t : InputRef}
    {d : InputDecl} (h : g.inputDecl? t = some d) :
    (disconnectIfLinked t).Ends g fun _ => g.Trims (· = t) :=
  (meets_disconnectIfLinked hg t).ends fun _ he => by simp [hm, h] at he

theorem meets_disconnectOutput (hg : g.WellFormed) (s : OutputRef) :
    (disconnectOutput s).Meets g (fun _ => g.Trims (g.linkAt · = some s))
      fun g' => g' = g ∧ (g.finalized = true ∨ g.outputDecl? s = none) := by
  refine meets_requireMutable_bind (fun _ => ?_) fun hf => ⟨rfl, Or.inl hf⟩
  exact meets_ask_consumersOf_bind (fun _ _ => meets_modify (trims_unlinkOutput hg s))
    fun hn => ⟨rfl, Or.inr hn⟩

theorem ends_disconnectOutput (hg : g.WellFormed) (hm : g.finalized = false) {s : OutputRef}
    {e : OutputDecl} (h : g.outputDecl? s = some e) :
    (disconnectOutput s).Ends g fun _ => g.Trims (g.linkAt · = some s) :=
  (meets_disconnectOutput hg s).ends fun _ he => by simp [hm, h] at he

/-- A loop of which each step unlinks some inputs. -/
theorem ends_forM_trims {β : Type} {f : β → Edit Unit} {T : β → InputRef → Prop} {l : List β}
    (hg : g.WellFormed)
    (step : ∀ b ∈ l, ∀ T' g', g.Trims T' g' → (f b).Ends g' fun _ => g'.Trims (T b)) :
    (l.forM f).Ends g fun _ => g.Trims fun r => ∃ b ∈ l, T b r := by
  have h : (l.forM f).Ends g fun _ g' => ∃ done, l = done ++ [] ∧
      g.Trims (fun r => ∃ b ∈ done, T b r) g' := by
    refine ends_forM (fun rest g' => ∃ done, l = done ++ rest ∧
      g.Trims (fun r => ∃ b ∈ done, T b r) g') ⟨[], rfl, .refl hg (by simp)⟩ ?_
    rintro b rest g' ⟨done, rfl, h⟩
    refine (step b (by simp) _ g' h).mono fun _ g'' h' => ⟨done ++ [b], by simp, ?_⟩
    exact (h.trans h').congr fun r _ _ => by simp [or_and_right, exists_or]
  refine h.mono ?_
  rintro _ g' ⟨done, hl, h⟩
  rw [hl, List.append_nil]
  exact h

theorem meets_disconnectNodeInputs (hg : g.WellFormed) (id : NodeId) :
    (disconnectNodeInputs id).Meets g (fun _ => g.Trims (·.node = id))
      fun g' => g' = g ∧ (g.finalized = true ∨ g.kind? id = none) := by
  refine meets_requireMutable_bind (fun hm => ?_) fun hf => ⟨rfl, Or.inl hf⟩
  refine meets_ask_node_bind (fun n hn => ?_) fun hk => ⟨rfl, Or.inr hk⟩
  refine Ends.meets (Ends.mono (ends_forM_trims (T := fun slot r => r = ⟨id, slot⟩) hg ?_) ?_)
  · intro slot hslot T' g' h
    rw [List.mem_range] at hslot
    obtain ⟨d, hd⟩ := (g.exists_inputDecl?_iff hn slot).mpr hslot
    exact ends_disconnectIfLinked h.wellFormed (h.finalized.trans hm)
      (h.evolves.inputDecl?_some hg hd)
  · intro _ g' h
    refine h.congr fun r o ho => ⟨?_, ?_⟩
    · rintro ⟨slot, -, rfl⟩
      rfl
    · rintro rfl
      have hslot := (g.exists_inputDecl?_iff hn r.slot).mp (g.inputDecl?_of_linkAt ho)
      exact ⟨r.slot, List.mem_range.mpr hslot, rfl⟩

/-- All consumers of a node are unlinked. -/
theorem ends_disconnectNodeOutputs (hg : g.WellFormed) (hm : g.finalized = false) {id : NodeId}
    {k : NodeKind} (hk : g.kind? id = some k) :
    (disconnectNodeOutputs id).Ends g fun _ =>
      g.Trims fun r => ∃ o, g.linkAt r = some o ∧ o.node = id := by
  refine meets_ask_node_bind (fun n hn => ?_) fun hnk => by simp [hnk] at hk
  refine Ends.mono (ends_forM_trims (T := fun slot r => g.linkAt r = some ⟨id, slot⟩) hg ?_) ?_
  · intro slot hslot T' g' h
    rw [List.mem_range] at hslot
    obtain ⟨e, he⟩ := (g.exists_outputDecl?_iff hn slot).mpr hslot
    refine (ends_disconnectOutput h.wellFormed (h.finalized.trans hm)
      (h.evolves.outputDecl?_some hg he)).mono fun _ g'' h' => ?_
    exact h'.congr fun r o ho => by rw [ho, (h.linkAt_some ho).1]
  · intro _ g' h
    refine h.congr fun r o ho => ⟨?_, ?_⟩
    · rintro ⟨slot, -, hr⟩
      exact ⟨_, hr, rfl⟩
    · rintro ⟨o', ho', rfl⟩
      have hslot := (g.exists_outputDecl?_iff hn o'.slot).mp (hg.exists_output ho')
      exact ⟨o'.slot, List.mem_range.mpr hslot, ho'⟩

/-! ### Moving links -/

theorem meets_connectTo (hg : g.WellFormed) (source? : Option OutputRef) (t : InputRef) :
    (connectTo source? t).Meets g (fun _ => g.Evolves (· = t)) fun g' => g' = g ∧
      (g.finalized = true ∨ g.inputDecl? t = none ∨
        ∃ s, source? = some s ∧ g.outputDecl? s = none) := by
  cases source? with
  | none => exact meets_pure (.refl hg)
  | some s =>
    refine meets_discard ((meets_connect_evolves hg s t).mono (fun _ _ h => h) ?_)
    rintro _ ⟨rfl, h | h | h⟩
    · exact ⟨rfl, Or.inl h⟩
    · exact ⟨rfl, Or.inr (Or.inr ⟨s, rfl, h⟩)⟩
    · exact ⟨rfl, Or.inr (Or.inl h)⟩

theorem meets_relinkInput (hg : g.WellFormed) (s t : InputRef) :
    (relinkInput s t).Meets g (fun _ => g.Evolves fun r => r = s ∨ r = t)
      (g.Evolves fun r => r = s ∨ r = t) := by
  refine meets_requireMutable_bind (fun _ => ?_) fun _ => .refl hg
  refine meets_ask_input_bind (fun i hi => ?_) fun _ => .refl hg
  have hstore : ∀ g', g.Evolves (fun r => r = s ∨ r = t) g' →
      (store t i.literal).Meets g' (fun _ => g.Evolves fun r => r = s ∨ r = t)
        (g.Evolves fun r => r = s ∨ r = t) :=
    fun g' h => ((meets_store h.wellFormed t i.literal).mono (fun _ _ h' => h'.evolves)
      fun _ h' => h').evolves h nofun
  cases hl : i.link with
  | none => exact hstore g (.refl hg)
  | some feed =>
    refine Meets.bind (P := fun _ => g.Evolves fun r => r = s ∨ r = t) ?_ fun _ g₁ h₁ => ?_
    · exact ((meets_disconnectInput hg s).mono (fun _ _ h => h.evolves) fun _ h => h).evolves
        (.refl hg) fun _ hr => Or.inl (Or.inl hr)
    refine Meets.bind (P := fun _ => g.Evolves fun r => r = s ∨ r = t) ?_ fun _ g₂ h₂ => hstore g₂ h₂
    exact meets_discard ((meets_connect_evolves h₁.wellFormed feed t).evolves h₁
      fun _ hr => Or.inl (Or.inr hr))

/-- The consumers of an output are moved one by one. -/
theorem meets_relinkOutput (hg : g.WellFormed) (s : OutputRef) (s' : Option OutputRef) :
    (relinkOutput s s').Meets g (fun _ => g.Evolves (g.linkAt · = some s)) fun g' =>
      g.Evolves (g.linkAt · = some s) g' ∧ (g.finalized = true ∨ g.outputDecl? s = none ∨
        ∃ o, s' = some o ∧ g.outputDecl? o = none) := by
  refine meets_requireMutable_bind (fun hm => ?_) fun hf => ⟨.refl hg, Or.inl hf⟩
  refine meets_ask_consumersOf_bind (fun e he => ?_) fun hn => ⟨.refl hg, Or.inr (Or.inl hn)⟩
  refine (meets_forM (fun rest g' => g.Evolves (g.linkAt · = some s) g' ∧ g.Attached s rest ∧
    g'.Attached s rest) ⟨.refl hg, hg.attached s, hg.attached s⟩ ?_).mono
      (fun _ _ h => h.1) fun _ h => h
  rintro t rest g' ⟨h, ha, ha'⟩
  have hts := ha.linked t List.mem_cons_self
  have hts' := ha'.linked t List.mem_cons_self
  refine Meets.bind (Ends.meets (ends_disconnectInput h.wellFormed (h.finalized.trans hm) hts'))
    fun _ g₁ h₁ => ?_
  refine (meets_connectTo h₁.wellFormed s' t).mono (fun _ g₂ h₂ => ?_) fun g₂ h₂ => ?_
  · have h₁₂ := h₁.evolves.trans h₂
    exact ⟨h.trans_fresh h₁₂ fun r hr => Or.inl (hr ▸ hts), ha.tail, ha'.next h₁₂ fun _ => Or.inl⟩
  · obtain ⟨rfl, hf | hn | ⟨o, ho, hn⟩⟩ := h₂
    · simp [h₁.finalized.trans (h.finalized.trans hm)] at hf
    · obtain ⟨d, hd⟩ := g'.inputDecl?_of_linkAt hts'
      simp [h₁.evolves.inputDecl?_some h.wellFormed hd] at hn
    · have h₁' := h.trans_fresh h₁.evolves fun r hr => Or.inl (hr ▸ hts)
      exact ⟨h₁', Or.inr (Or.inr ⟨o, ho, h₁'.outputDecl?_none hg hn⟩)⟩

/-- A node is bypassed: its inputs and the consumers of an output are unlinked, and the latter may
be linked to another output. -/
theorem meets_bypass (hg : g.WellFormed) (id : NodeId) (s : OutputRef) (s' : Option OutputRef) :
    (bypass id s s').Meets g (fun _ => g.Evolves fun r => r.node = id ∨ g.linkAt r = some s)
      fun g' => g.Evolves (fun r => r.node = id ∨ g.linkAt r = some s) g' ∧
        (g.finalized = true ∨ g.outputDecl? s = none ∨ g.kind? id = none ∨
          ∃ o, s' = some o ∧ g.outputDecl? o = none) := by
  refine meets_requireMutable_bind (fun hm => ?_) fun hf => ⟨.refl hg, Or.inl hf⟩
  refine meets_ask_consumersOf_bind (fun e he => ?_) fun hn => ⟨.refl hg, Or.inr (Or.inl hn)⟩
  refine Meets.bind (P := fun _ => g.Evolves fun r => r.node = id ∨ g.linkAt r = some s) ?_
    fun _ g₁ h₁ => ?_
  · refine (meets_disconnectNodeInputs hg id).mono (fun _ _ h => h.evolves.mono fun _ => Or.inl) ?_
    rintro _ ⟨rfl, hf | hk⟩
    · exact ⟨.refl hg, Or.inl hf⟩
    · exact ⟨.refl hg, Or.inr (Or.inr (Or.inl hk))⟩
  refine Meets.bind (meets_forM_mem h₁ fun t ht g' h => ?_) fun _ g₂ h₂ => ?_
  · have hts := (hg.link_iff t s).mpr ht
    obtain ⟨d, hd⟩ := g.inputDecl?_of_linkAt hts
    refine Meets.bind (Ends.meets (ends_disconnectIfLinked h.wellFormed (h.finalized.trans hm)
      (h.inputDecl?_some hg hd))) fun _ g₃ h₃ => ?_
    have h' := h.trans_fresh h₃.evolves fun r hr => Or.inl (Or.inr (hr ▸ hts))
    refine (meets_connectTo h'.wellFormed s' t).mono
      (fun _ g₄ h₄ => h'.trans_fresh h₄ fun r hr => Or.inl (Or.inr (hr ▸ hts))) ?_
    rintro _ ⟨rfl, hf | hn | ⟨o, ho, hn⟩⟩
    · simp [h'.finalized.trans hm] at hf
    · simp [h'.inputDecl?_some hg hd] at hn
    · exact ⟨h', Or.inr (Or.inr (Or.inr ⟨o, ho, h'.outputDecl?_none hg hn⟩))⟩
  · exact meets_modify (h₂.trans (evolves_touch h₂.wellFormed).widen)

end Edit

end Shading
