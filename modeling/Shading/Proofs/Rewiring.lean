import Shading.Proofs.Folding
import Shading.Proofs.Merging
import Shading.Proofs.Primitive
import Shading.Proofs.Proxy
import Shading.Proofs.Update

/-!
# Passes that only rewire

Merging duplicates, removing proxies and folding constants move links from one output to another. In
a well-formed graph each link that is moved finds a free input of a fitting type, so that every
connection is a plain link: none is rejected, which would be reported, and none needs a node for a
conversion. A run is taken apart into steps of a few forms, where a connection counts only if it is a
plain link (`Edit.Rewires`). That there is such a way to take it apart depends on what the run does to
the graph, not on the text of the program. It follows that nothing is reported, and that hardly any
nodes are added (`Graph.Rewired`). The folding of constants adds a geometry node for each bump whose
consumers it moves to one (`Graph.FoldsBumps`). -/

namespace Shading

namespace Graph

/-- A change that makes no link, adds no node and reports nothing. -/
inductive Cuts (g : Graph) : Graph → Prop
  | unlink (s : OutputRef) (t : InputRef) : Cuts g (g.unlink s t)
  | unlinkOutput (s : OutputRef) (ts : List InputRef) : Cuts g (g.unlinkOutput s ts)
  | store (t : InputRef) (l : Literal) : Cuts g (g.modifyInput t (Input.store l))
  | drop (ids : List NodeId) : Cuts g (g.drop ids)
  | touch : Cuts g g.touch

/-- Nothing is reported, and only nodes of the kinds in `K` are added. -/
structure Rewired (K : NodeKind → Prop) (g g' : Graph) : Prop where
  diagnostics_eq : g'.diagnostics = g.diagnostics
  idBound_le : g.idBound ≤ g'.idBound
  idBound_eq : (∀ k, ¬ K k) → g'.idBound = g.idBound
  kind?_some : ∀ x k, g'.kind? x = some k → g.kind? x = some k ∨ g.idBound ≤ x ∧ K k

variable {g g' : Graph} {K : NodeKind → Prop}

namespace Rewired

instance : Std.Refl (Rewired K) :=
  ⟨fun _ => ⟨rfl, Nat.le_refl _, fun _ => rfl, fun _ _ h => Or.inl h⟩⟩

theorem trans {g₁ g₂ g₃ : Graph} (h : g₁.Rewired K g₂) (h' : g₂.Rewired K g₃) : g₁.Rewired K g₃ where
  diagnostics_eq := h'.diagnostics_eq.trans h.diagnostics_eq
  idBound_le := Nat.le_trans h.idBound_le h'.idBound_le
  idBound_eq hK := (h'.idBound_eq hK).trans (h.idBound_eq hK)
  kind?_some x k hk := by
    rcases h'.kind?_some x k hk with hk | ⟨hx, hk⟩
    · exact h.kind?_some x k hk
    · exact Or.inr ⟨Nat.le_trans h.idBound_le hx, hk⟩

theorem of_layout (hd : g'.diagnostics = g.diagnostics) (hb : g'.idBound = g.idBound)
    (hl : ∀ x, g'.layout? x = g.layout? x) : g.Rewired K g' := by
  refine ⟨hd, Nat.le_of_eq hb.symm, fun _ => hb, fun x k hk => Or.inl ?_⟩
  rwa [kind?_eq_layout?, hl, ← kind?_eq_layout?] at hk

end Rewired

theorem diagnostics_unlinkInputs (ts : List InputRef) :
    (g.unlinkInputs ts).diagnostics = g.diagnostics := by
  induction ts generalizing g with
  | nil => rfl
  | cons t ts ih =>
    rw [unlinkInputs_cons, ih]
    rfl

theorem Cuts.rewired (h : g.Cuts g') : g.Rewired K g' := by
  cases h with
  | unlink s t => exact .of_layout rfl (g.idBound_unlink s t) (g.layout?_unlink s t)
  | unlinkOutput s ts =>
    exact .of_layout (diagnostics_unlinkInputs ts) (g.idBound_unlinkOutput s ts)
      (g.layout?_unlinkOutput s ts)
  | store t l => exact .of_layout rfl (g.idBound_store t l) (g.layout?_store t l)
  | drop ids =>
    refine ⟨rfl, Nat.le_of_eq (g.idBound_drop ids).symm, fun _ => g.idBound_drop ids, ?_⟩
    intro x k hk
    rw [kind?_drop] at hk
    split_ifs at hk
    exact Or.inl hk
  | touch => exact .of_layout rfl rfl fun _ => rfl

theorem rewired_push {k : NodeKind} (hk : K k) : g.Rewired K (g.push (.ofKind k)) := by
  refine ⟨rfl, by simp, fun hK => absurd hk (hK k), fun x k' hk' => ?_⟩
  rw [kind?_eq_layout?, layout?_push] at hk'
  split_ifs at hk' with hx
  · cases hk'
    exact Or.inr ⟨Nat.le_of_eq hx.symm, hk⟩
  · exact Or.inl (by rwa [kind?_eq_layout?])

end Graph

namespace Edit

open Shading.Graph

variable {α β : Type} {K : NodeKind → Prop} {g : Graph}

/-- A run that can be taken apart into questions, cuts of links, stored literals, new nodes of the
kinds in `K`, and connections that are plain links. Two edits that are equal as functions are taken
apart in the same ways, so this does not list the calls in a program text. -/
inductive Rewires (K : NodeKind → Prop) : {α : Type} → Edit α → Graph → Prop
  | pure {α : Type} {g : Graph} (a : α) : Rewires K (pure a) g
  | throw {α : Type} {g : Graph} (x : Fault) : Rewires K (throw x : Edit α) g
  | get {g : Graph} : Rewires K (get : Edit Graph) g
  | ask {α : Type} {g : Graph} (q : Graph → Except Fault α) : Rewires K (ask q) g
  | modify {g : Graph} {f : Graph → Graph} (h : g.Cuts (f g)) : Rewires K (modify f : Edit Unit) g
  | addKind {g : Graph} {k : NodeKind} (hk : K k) : Rewires K (addKind k) g
  | connect {g : Graph} {s : OutputRef} {t : InputRef}
    (h : (connect s t).run g = .ok .linked (g.link s t)) : Rewires K (connect s t) g
  | bind {α β : Type} {g : Graph} {e : Edit β} {f : β → Edit α} (he : Rewires K e g)
    (hf : ∀ b g', e.run g = .ok b g' → Rewires K (f b) g') : Rewires K (e >>= f) g

/-- What a run reports and adds. -/
theorem Rewires.meets {e : Edit α} (h : e.Rewires K g) :
    e.Meets g (fun _ => g.Rewired K) (g.Rewired K) := by
  induction h with
  | @pure _ g a => exact relates_pure a g
  | @throw _ g x => exact relates_throw x g
  | @get g => exact refl_of (Rewired K) g
  | @ask _ g q => exact relates_ask q g
  | modify h => exact meets_modify h.rewired
  | @addKind g k hk => exact meets_add (fun _ => rewired_push hk) fun _ => refl_of (Rewired K) g
  | @connect g s t h =>
    rw [Meets, h]
    exact .of_layout rfl (g.idBound_link s t) (g.layout?_link s t)
  | @bind _ _ g e f _ _ ihe ihf =>
    rw [meets_bind]
    unfold Meets at ihe ⊢
    cases hrun : e.run g with
    | error x g' =>
      rw [hrun] at ihe
      exact ihe
    | ok b g' =>
      rw [hrun] at ihe
      exact (ihf b g' hrun).mono (fun _ _ => ihe.trans) fun _ => ihe.trans

namespace Rewires

variable {e : Edit β} {f : β → Edit α}

theorem bind_any (he : e.Rewires K g) (hf : ∀ b g', (f b).Rewires K g') : (e >>= f).Rewires K g :=
  he.bind fun b g' _ => hf b g'

/-- What is known of the first part of a run helps with the second one. -/
theorem bind_meets {P : β → Graph → Prop} {E : Graph → Prop} (he : e.Rewires K g)
    (h : e.Meets g P E) (hf : ∀ b g', P b g' → (f b).Rewires K g') : (e >>= f).Rewires K g := by
  refine he.bind fun b g' hrun => hf b g' ?_
  rwa [Meets, hrun] at h

theorem discard (h : e.Rewires K g) : (discard e).Rewires K g := by
  rw [discard_eq]
  exact h.bind_any fun _ _ => .pure _

theorem get_bind {f : Graph → Edit α} (h : (f g).Rewires K g) : (MonadState.get >>= f).Rewires K g :=
  Rewires.get.bind fun b g' hrun => by
    cases hrun
    exact h

theorem ask_bind {q : Graph → Except Fault β} (h : ∀ b, q g = .ok b → (f b).Rewires K g) :
    (Edit.ask q >>= f).Rewires K g := by
  refine (Rewires.ask q).bind fun b g' hrun => ?_
  cases hq : q g with
  | error x => simp [run_ask_error hq] at hrun
  | ok b' =>
    rw [run_ask_ok hq] at hrun
    cases hrun
    exact h b hq

theorem ask_bind_ok {q : Graph → Except Fault β} {b : β} (hq : q g = .ok b)
    (h : (f b).Rewires K g) : (Edit.ask q >>= f).Rewires K g := by
  refine .ask_bind fun b' hb' => ?_
  obtain rfl := Except.ok.inj (hq.symm.trans hb')
  exact h

theorem forM {f : β → Edit Unit} (h : ∀ b g, (f b).Rewires K g) (l : List β) :
    (l.forM f).Rewires K g := by
  induction l generalizing g with
  | nil => exact .pure _
  | cons b l ih => exact (h b g).bind_any fun _ g' => ih

theorem foldlM {f : α → β → Edit α} (h : ∀ a b g, (f a b).Rewires K g) (l : List β) (a : α) :
    (l.foldlM f a).Rewires K g := by
  induction l generalizing g a with
  | nil => exact .pure _
  | cons b l ih =>
    rw [List.foldlM_cons]
    exact (h a b g).bind_any fun a' g' => ih a'

/-- A loop with an invariant, which is told the part of the list that remains. -/
theorem forM_meets {f : β → Edit Unit} (I : List β → Graph → Prop) {l : List β} (h : I l g)
    (step : ∀ b rest g, I (b :: rest) g → (f b).Rewires K g ∧ (f b).Ends g fun _ => I rest) :
    (l.forM f).Rewires K g := by
  induction l generalizing g with
  | nil => exact .pure _
  | cons b l ih =>
    obtain ⟨hb, hI⟩ := step b l g h
    exact hb.bind_meets hI fun _ g' h' => ih h'

theorem forM_mem {f : β → Edit Unit} {I : Graph → Prop} {l : List β} (h : I g)
    (step : ∀ b ∈ l, ∀ g, I g → (f b).Rewires K g ∧ (f b).Ends g fun _ => I) :
    (l.forM f).Rewires K g := by
  refine .forM_meets (fun rest g' => I g' ∧ ∀ b ∈ rest, b ∈ l) ⟨h, fun _ hb => hb⟩ ?_
  rintro b rest g' ⟨hI, hrest⟩
  obtain ⟨hb, hends⟩ := step b (hrest b List.mem_cons_self) g' hI
  exact ⟨hb, hends.mono fun _ _ hI' => ⟨hI', fun b' hb' => hrest b' (List.mem_cons_of_mem b hb')⟩⟩

theorem foldlM_mem {f : α → β → Edit α} {I : Graph → Prop} {l : List β} (h : I g)
    (step : ∀ b ∈ l, ∀ a g, I g → (f a b).Rewires K g ∧ (f a b).Ends g fun _ => I) (a : α) :
    (l.foldlM f a).Rewires K g := by
  induction l generalizing g a with
  | nil => exact .pure _
  | cons b l ih =>
    obtain ⟨hb, hI⟩ := step b List.mem_cons_self a g h
    rw [List.foldlM_cons]
    exact hb.bind_meets hI fun a' g' h' => ih h' (fun b' hb' => step b' (List.mem_cons_of_mem b hb')) a'

end Rewires

/-! ### Cutting -/

theorem rewires_requireMutable : requireMutable.Rewires K g := by
  refine .get_bind ?_
  split_ifs
  · exact .throw _
  · exact .pure _

theorem Rewires.requireMutable_bind {f : Unit → Edit α} (h : (f ()).Rewires K g) :
    (requireMutable >>= f).Rewires K g := by
  refine rewires_requireMutable.bind_meets (relates_requireMutable (R := Eq) g) ?_
  rintro _ _ rfl
  exact h

theorem rewires_store (t : InputRef) (l : Literal) : (store t l).Rewires K g :=
  Rewires.requireMutable_bind <| (Rewires.ask _).discard.bind_any fun _ _ =>
    .modify (.store t l)

theorem rewires_disconnectInput (t : InputRef) : (disconnectInput t).Rewires K g := by
  refine .requireMutable_bind <| (Rewires.ask _).bind_any fun input _ => ?_
  split
  · exact .throw _
  · exact .modify (.unlink _ t)

theorem rewires_disconnectIfLinked (t : InputRef) : (disconnectIfLinked t).Rewires K g := by
  refine (Rewires.ask _).bind_any fun input _ => ?_
  split_ifs
  · exact rewires_disconnectInput t
  · exact .pure _

theorem rewires_disconnectOutput (s : OutputRef) : (disconnectOutput s).Rewires K g :=
  .requireMutable_bind <| (Rewires.ask _).bind_any fun ts _ =>
    .modify (.unlinkOutput s ts)

theorem rewires_disconnectNodeInputs (id : NodeId) : (disconnectNodeInputs id).Rewires K g :=
  .requireMutable_bind <| (Rewires.ask _).bind_any fun _ _ =>
    .forM (fun _ _ => rewires_disconnectIfLinked _) _

theorem rewires_disconnectNodeOutputs (id : NodeId) : (disconnectNodeOutputs id).Rewires K g :=
  (Rewires.ask _).bind_any fun _ _ => .forM (fun _ _ => rewires_disconnectOutput _) _

theorem rewires_removeNodes (ids : NodeSet) : (removeNodes ids).Rewires K g := by
  refine .requireMutable_bind <| Rewires.bind_any (.forM (fun id g' => ?_) _)
    fun _ _ => .modify (.drop ids)
  refine .get_bind ?_
  split_ifs
  · exact (rewires_disconnectNodeInputs id).bind_any fun _ _ => rewires_disconnectNodeOutputs id
  · exact .pure _

theorem rewires_makeConstant (o : OutputRef) (l : Literal) : (makeConstant o l).Rewires K g :=
  (Rewires.ask _).bind_any fun _ _ => (Rewires.forM (fun t _ => rewires_store t l) _).bind_any
    fun _ _ => rewires_disconnectOutput o

theorem rewires_dropConsumers (o : OutputRef) : (dropConsumers o).Rewires K g :=
  (Rewires.ask _).bind_any fun _ _ => rewires_disconnectOutput o

theorem rewires_makeZero (o : OutputRef) : (makeZero o).Rewires K g := by
  refine (Rewires.ask _).bind_any fun output _ => ?_
  split_ifs
  · exact rewires_makeConstant o _
  · exact .pure _

theorem rewires_makeOne (o : OutputRef) : (makeOne o).Rewires K g := by
  refine (Rewires.ask _).bind_any fun output _ => ?_
  split_ifs
  · exact rewires_makeConstant o _
  · exact rewires_makeConstant o _
  · exact .pure _

theorem rewires_keepOnlyInput (kept : InputRef) : (keepOnlyInput kept).Rewires K g := by
  refine (Rewires.ask _).bind_any fun n _ => .forM (fun slot _ => ?_) _
  split_ifs
  · exact .pure _
  · exact rewires_disconnectIfLinked _

theorem rewires_storeInConsumer (l : Literal) (t : InputRef) : (storeInConsumer l t).Rewires K g := by
  have hrelease : ∀ g, (releaseDefaults t.node).Rewires K g := fun g => by
    refine (Rewires.ask _).bind_any fun targets _ => .foldlM (fun all target g' => ?_) _ _
    refine (Rewires.ask _).bind_any fun input _ => ?_
    split_ifs
    · exact (rewires_disconnectInput target).bind_any fun _ _ => .pure _
    · exact .pure _
  have hrest : ∀ (unused : Bool) g, (do
      disconnectInput t
      store t l
      pure (if unused then [t.node] else []) : Edit NodeSet).Rewires K g := fun unused g =>
    (rewires_disconnectInput t).bind_any fun _ _ => (rewires_store t l).bind_any fun _ _ => .pure _
  refine (Rewires.ask _).bind_any fun n _ => ?_
  dsimp only
  split_ifs
  · exact (hrelease _).bind_any hrest
  · exact hrest false _

/-! ### Moving links -/

section

variable {o s : OutputRef} {e e' : OutputDecl}

/-- A free input of a fitting type is linked. -/
theorem rewires_connect {t : InputRef} {d : InputDecl} (hm : g.finalized = false)
    (hj : g.Joinable s e t d) (hty : e.type.linksTo d.type = true) : (connect s t).Rewires K g := by
  obtain ⟨c, g', hrun, rfl, rfl⟩ := ends_iff.mp (ends_connect_linked hm hj hty
    (Q := fun c g' => c = .linked ∧ g' = g.link s t) ⟨rfl, rfl⟩)
  exact .connect hrun

/-- A loop of which each step links one input. -/
theorem rewires_forM_link {f : InputRef → Edit Unit} {targets : List InputRef} (hg : g.WellFormed)
    (hnd : targets.Nodup)
    (step : ∀ t ∈ targets, ∀ g', g.Evolves (· ≠ t) g' → (f t).Rewires K g' ∧
      (f t).Ends g' fun _ => g'.Evolves (· = t)) :
    (targets.forM f).Rewires K g := by
  refine .forM_meets (fun rest g' => ∃ done, targets = done ++ rest ∧ g.Evolves (· ∈ done) g')
    ⟨[], rfl, .refl hg⟩ ?_
  rintro t rest g' ⟨done, rfl, h⟩
  have hnot : t ∉ done := fun ht => (List.nodup_append.mp hnd).2.2 t ht t List.mem_cons_self rfl
  obtain ⟨hf, hends⟩ := step t (by simp) g' (h.mono fun r hr heq => hnot (heq ▸ hr))
  refine ⟨hf, hends.mono fun _ g'' h' => ⟨done ++ [t], by simp, ?_⟩⟩
  exact (h.mono fun r hr => List.mem_append_left _ hr).trans (h'.mono fun r hr => by simp [hr])

theorem rewires_redirect (hg : g.WellFormed) (hm : g.finalized = false)
    (ho : g.outputDecl? o = some e) (hs : g.outputDecl? s = some e')
    (hty : e'.type.linksTo e.type = true) : (redirect o s).Rewires K g := by
  refine .ask_bind fun targets htargets => ?_
  obtain ⟨-, rfl⟩ := (g.consumersOf_eq_ok).mp htargets
  refine (rewires_disconnectOutput o).bind_meets (ends_disconnectOutput hg hm ho) fun _ g₁ h₁ => ?_
  refine rewires_forM_link h₁.wellFormed (hg.nodup o) fun t ht g' h => ?_
  have hl := (hg.link_iff t o).mpr ht
  have hlt : t.node < g₁.idBound := h₁.idBound_eq ▸ node_lt_of_linkAt (by simp [hl])
  have hm' := h.finalized.trans (h₁.finalized.trans hm)
  obtain ⟨d, hj, hfit⟩ := joinable_of_linkAt hg ho hs hty hl (h₁.evolves.grows.trans h.grows)
    ((h.linkAt_eq t hlt (by simp)).trans (h₁.cut t hl))
  exact ⟨(rewires_connect hm' hj hfit).discard,
    ends_discard ((ends_connect_free h.wellFormed hm' hj hfit).mono fun _ _ h' => h'.1)⟩

theorem rewires_redirect_input (hg : g.WellFormed) (hm : g.finalized = false)
    (ho : g.outputDecl? o = some e) {i : Nat} {d : InputDecl}
    (hd : g.inputDecl? ⟨o.node, i⟩ = some d) (hty : d.type.linksTo e.type = true)
    (hl : g.linkAt ⟨o.node, i⟩ = some s) : (redirect o s).Rewires K g := by
  obtain ⟨e', he'⟩ := hg.exists_output hl
  obtain ⟨-, hty'⟩ := hg.typed _ s d e' hl hd he'
  exact rewires_redirect hg hm ho he' (SocketType.linksTo_trans hty' hty)

theorem rewires_bypass (hg : g.WellFormed) (hm : g.finalized = false) (id : NodeId)
    (ho : g.outputDecl? o = some e) (hs : g.outputDecl? s = some e')
    (hty : e'.type.linksTo e.type = true) : (bypass id o (some s)).Rewires K g := by
  refine .requireMutable_bind (.ask_bind fun targets htargets => ?_)
  obtain ⟨-, rfl⟩ := (g.consumersOf_eq_ok).mp htargets
  refine (rewires_disconnectNodeInputs id).bind_meets (meets_disconnectNodeInputs hg id)
    fun _ g₁ h₁ => ?_
  have hm₁ := h₁.finalized.trans hm
  refine (rewires_forM_link h₁.wellFormed (hg.nodup o) fun t ht g' h => ?_).bind_any fun _ _ =>
    .modify .touch
  have hl := (hg.link_iff t o).mpr ht
  obtain ⟨d, hd⟩ := g.inputDecl?_of_linkAt hl
  have h' := h₁.evolves.grows.trans h.grows
  have hm' := h.finalized.trans hm₁
  have hfree := ends_disconnectIfLinked h.wellFormed hm' (h'.inputDecl?_some hg hd)
  have hconnect : ∀ g₂, g'.Trims (· = t) g₂ → ∃ d, g₂.Joinable s e' t d ∧
      e'.type.linksTo d.type = true := fun g₂ h₂ =>
    joinable_of_linkAt hg ho hs hty hl (h'.trans h₂.evolves.grows) (h₂.cut t rfl)
  refine ⟨(rewires_disconnectIfLinked t).bind_meets hfree fun _ g₂ h₂ => ?_,
    Ends.bind hfree fun _ g₂ h₂ => ?_⟩
  · obtain ⟨d, hj, hfit⟩ := hconnect g₂ h₂
    exact (rewires_connect (h₂.finalized.trans hm') hj hfit).discard
  · obtain ⟨d, hj, hfit⟩ := hconnect g₂ h₂
    exact ends_discard ((ends_connect_free h₂.wellFormed (h₂.finalized.trans hm') hj hfit).mono
      fun _ _ h₃ => h₂.evolves.trans h₃.1)

end

/-! ### Duplicates and proxies -/

theorem rewires_mergeInto (hg : g.WellFormed) (hm : g.finalized = false) {x t : NodeId} {k : NodeKind}
    (hk : g.kind? x = some k) (ht : g.kind? t = some k) : (mergeInto x t).Rewires K g := by
  refine .ask_bind fun n hn => ?_
  rw [g.node_eq_ok] at hn
  refine .forM_mem (I := g.Grows) (.refl hg) fun slot hslot g' h => ?_
  obtain ⟨e, he⟩ := (g.exists_outputDecl?_iff hn slot).mpr (List.mem_range.mp hslot)
  have het := (hg.outputDecl?_congr hg hk ht slot).trans he
  have hx := h.outputDecl?_some hg he
  have ht' := h.outputDecl?_some hg het
  have hm' := h.finalized.trans hm
  exact ⟨rewires_bypass h.wellFormed hm' x hx ht' (SocketType.linksTo_self _),
    (ends_bypass h.wellFormed hm' (h.kind?_some hk) hx ht' (SocketType.linksTo_self _)).mono
      fun _ _ h' => h.trans h'.evolves.grows⟩

theorem rewires_mergeAll {g : Graph} {w : Worklist} (hg : g.WellFormed) (hm : g.finalized = false)
    (hw : w.Within g) (candidates : List NodeId) (merged : Nat) :
    (mergeAll w candidates merged).Rewires K g := by
  rw [mergeAll.eq_def]
  split
  · exact .pure _
  · rename_i id w' hx
    have hsize := Worklist.size_next? hx
    obtain ⟨-, hw'⟩ := hw.next hx
    refine .get_bind (.ask_bind fun n hn => ?_)
    rw [g.node_eq_ok] at hn
    have hk : g.kind? id = some n.kind := by simp [kind?, hn]
    split_ifs
    · split
      · rename_i twin htwin
        obtain ⟨-, hkt, -⟩ := twin?_spec hn htwin
        refine (rewires_mergeInto hg hm hk hkt).bind_meets (ends_mergeInto hg hm hk hkt)
          fun _ g' h => ?_
        exact rewires_mergeAll h.grows.wellFormed (h.grows.finalized.trans hm)
          ((hw'.scheduleConsumers g id).mono fun _ => h.grows.ids_subset) _ _
      · exact rewires_mergeAll hg hm (hw'.scheduleConsumers g id) _ _
    · exact rewires_mergeAll hg hm hw' _ _
termination_by w.size
decreasing_by
  all_goals
    try rw [Worklist.size_scheduleConsumers]
    omega

theorem rewires_resolveProxy (hg : g.WellFormed) (hm : g.finalized = false) {id : NodeId}
    (hp : g.IsProxy id) : (resolveProxy id).Rewires K g := by
  obtain ⟨k, hk, hrole⟩ := hp
  obtain ⟨type, automatic, rfl⟩ := NodeKind.exists_eq_proxy hrole
  refine .ask_bind fun i hi => ?_
  rw [g.input_eq_ok] at hi
  split
  · rename_i s hs
    have hl : g.linkAt ⟨id, 0⟩ = some s := by simp [linkAt, hi, hs]
    obtain ⟨e, he⟩ := hg.exists_output hl
    have hfit : e.type.linksTo type = true :=
      (hg.typed _ _ _ e hl (hg.inputDecl?_eq hk 0) he).2
    exact (rewires_bypass hg hm id (hg.outputDecl?_eq hk 0) he hfit).bind_any fun _ _ => .pure _
  · refine (Rewires.ask _).bind_any fun targets _ => .foldlM (fun removed t _ => ?_) _ _
    exact (rewires_storeInConsumer i.literal t).bind_any fun _ _ => .pure _

theorem rewires_removeProxies (hg : g.WellFormed) (hm : g.finalized = false) :
    removeProxies.Rewires K g := by
  refine .get_bind (Rewires.bind_any (.foldlM_mem (I := g.Grows) (.refl hg) ?_ _) fun removed _ =>
    rewires_removeNodes _)
  intro id hid removed g' h
  obtain ⟨k, hk⟩ := (g.mem_ids_iff_kind?).mp hid
  have hk' := h.kind?_some hk
  have hm' := h.finalized.trans hm
  constructor
  · refine .ask_bind fun n hn => ?_
    rw [g'.node_eq_ok] at hn
    split_ifs with hrole
    · exact (rewires_resolveProxy h.wellFormed hm' ⟨n.kind, by simp [kind?, hn], hrole⟩).bind_any
        fun _ _ => .pure _
    · exact .pure _
  · refine meets_ask_node_bind (fun n hn => ?_) fun hnone => by simp [hnone] at hk'
    split_ifs with hrole
    · have hp : g'.IsProxy id := ⟨n.kind, by simp [kind?, hn], hrole⟩
      exact Ends.bind (ends_resolveProxy h.wellFormed hm' hp) fun _ _ h' =>
        ends_pure (h.trans (h'.shortens hp).evolves.grows)
    · exact ends_pure h

/-! ### Constants -/

section

variable {o : OutputRef} {e : OutputDecl} {k : NodeKind} {name : String} {i : Nat}
  (hg : g.WellFormed) (hm : g.finalized = false) (ho : g.outputDecl? o = some e)
include hg hm ho

theorem rewires_redirectOrDrop (hk : g.kind? o.node = some k)
    (hslot : k.layout.inputSlot? name = some i)
    (hty : ∀ d, k.inputDecls[i]? = some d → d.type.linksTo e.type = true) :
    (redirectOrDrop o name).Rewires K g := by
  obtain ⟨d, hd⟩ := hg.exists_inputDecl? hk hslot
  refine .ask_bind_ok (hg.linkOf_inputRef_eq hk hslot) ?_
  split
  · rename_i s hs
    exact rewires_redirect_input hg hm ho hd (hty d ((hg.inputDecl?_eq hk i).symm.trans hd)) hs
  · exact rewires_dropConsumers o

theorem rewires_passThrough (hk : g.kind? o.node = some k)
    (hslot : k.layout.inputSlot? name = some i) (clamped : Bool) :
    (passThrough o name clamped).Rewires K g := by
  refine .ask_bind_ok (hg.inputRef_eq hk hslot) ?_
  refine .ask_bind fun input hinput => .ask_bind fun output houtput => ?_
  rw [g.input_eq_ok] at hinput
  rw [g.output_eq_ok] at houtput
  obtain rfl : e = output.toOutputDecl := by simpa [outputDecl?, houtput] using ho.symm
  split
  · exact .pure _
  · rename_i hty
    split
    · split_ifs
      · exact (rewires_makeConstant o _).bind_any fun _ _ => .pure _
      · exact .pure _
    · rename_i s hs
      split_ifs
      · exact (rewires_keepOnlyInput _).bind_any fun _ _ => .pure _
      · have hfit : input.type.linksTo output.type = true := by
          rw [not_not.mp hty]
          exact SocketType.linksTo_self _
        have hd : g.inputDecl? ⟨o.node, i⟩ = some input.toInputDecl := by simp [inputDecl?, hinput]
        exact (rewires_redirect_input hg hm ho hd hfit (by simp [linkAt, hinput, hs])).bind_any
          fun _ _ => .pure _

theorem rewires_apply (hk : g.kind? o.node = some k) {names : List String}
    (hnames : k.hasInputs names = true) {s : Shortcut} (hs : s.Within names) (clamped : Bool) :
    (s.apply o clamped).Rewires K g := by
  cases s with
  | keep => exact .pure _
  | passThrough name =>
    obtain ⟨i, hslot⟩ := k.exists_inputSlot? hnames hs
    exact (rewires_passThrough hg hm ho hk hslot clamped).discard
  | zero => exact rewires_makeZero o
  | one => exact rewires_makeOne o

theorem rewires_ask_apply (hk : g.kind? o.node = some k) {names : List String}
    (hnames : k.hasInputs names = true) (clamped : Bool) {q : Graph → Except Fault Shortcut}
    (hq : Shortcut.Found names (q g)) : (do let s ← ask q; s.apply o clamped).Rewires K g := by
  obtain ⟨s, hs, hw⟩ := hq
  exact .ask_bind_ok hs (rewires_apply hg hm ho hk hnames hw clamped)

theorem rewires_foldMix {mode : BlendMode} {clamped : Bool}
    (hk : g.kind? o.node = some (.mix mode clamped)) : (foldMix o mode clamped).Rewires K g := by
  have hrest : ∀ facts g', g.Grows g' → (do
      let s ← ask fun g => mode.shortcut facts (.ofGraph g o.node)
      s.apply o clamped).Rewires K g' := fun facts g' h =>
    rewires_ask_apply h.wellFormed (h.finalized.trans hm) (h.outputDecl?_some hg ho)
      (h.kind?_some hk) rfl clamped
      (mode.found_shortcut (answer_ofGraph h.wellFormed (h.kind?_some hk) rfl) facts)
  refine .ask_bind fun n _ => ?_
  dsimp only
  split
  · refine (rewires_passThrough hg hm ho hk (i := 1) rfl clamped).bind_meets
      (ends_passThrough hg hm ho hk nofun (i := 1) rfl clamped) fun replaced g' h => ?_
    split_ifs
    · exact .pure _
    · exact hrest _ g' h.evolves.grows
  · exact hrest _ g (.refl hg)

theorem rewires_foldConvert {n : Node} (hn : g.node? o.node = some n) {source target : SocketType}
    {automatic : Bool} (hkind : n.kind = .convert source target automatic) :
    (foldConvert o n source target).Rewires K g := by
  unfold foldConvert
  split
  · exact .pure _
  · split
    · split_ifs
      · exact rewires_makeConstant o _
      · exact rewires_makeConstant o _
      · exact .pure _
    · rename_i feed _
      refine .ask_bind fun m hm' => ?_
      rw [g.node_eq_ok] at hm'
      split
      · rename_i first second automatic' j hkind' hj
        rw [List.head?_eq_getElem?] at hj
        split_ifs with hfit
        · split
          · rename_i origin horigin
            have hl := (g.linkAt_of_getElem? hm' hj).trans horigin
            have hfirst : first = target := by
              simp only [Bool.and_eq_true, decide_eq_true_eq] at hfit
              exact hfit.1.1.1
            have hko : g.kind? o.node = some (.convert source target automatic) := by
              simp [kind?, hn, hkind]
            have hkm : g.kind? feed.node = some (.convert first second automatic') := by
              simp [kind?, hm', hkind']
            obtain ⟨e', he', hty⟩ := hg.fits_back hko ho hkm hl hfirst
            exact rewires_redirect hg hm ho he' hty
          · exact .pure _
        · exact .pure _
      · exact .pure _

theorem rewires_foldBump (hK : K .geometry) {n : Node} (hn : g.node? o.node = some n)
    {invert objectSpace : Bool} (hkind : n.kind = .bump invert objectSpace) :
    (foldBump o n).Rewires K g := by
  have hk : g.kind? o.node = some (.bump invert objectSpace) := by simp [kind?, hn, hkind]
  have hout : e.type = .normal := by rw [List.mem_singleton.mp (hg.mem_outputDecls hk ho)]
  unfold foldBump
  split_ifs
  · split
    · rename_i s hs
      rw [hg.link?_eq hn (i := 4) (by rw [hkind]; rfl)] at hs
      exact rewires_redirect_input hg hm ho (hg.inputDecl?_eq hk 4) (by rw [hout]; rfl) hs
    · have h := evolves_push hg (Node.sound_ofKind .geometry)
      have hk' := g.kind?_push_self (Node.ofKind .geometry)
      refine (Rewires.addKind hK).bind_meets (ends_addKind hm
        (Q := fun id g' => id = g.idBound ∧ g' = g.push (.ofKind .geometry)) ⟨rfl, rfl⟩) ?_
      rintro _ _ ⟨rfl, rfl⟩
      refine .ask_bind_ok (h.wellFormed.outputRef_eq hk' (i := 1) rfl) ?_
      exact rewires_redirect h.wellFormed (h.finalized.trans hm) (h.outputDecl?_some hg ho)
        (h.wellFormed.outputDecl?_eq hk' 1) (by rw [hout]; rfl)
  · exact .pure _

theorem rewires_foldMixClosure {n : Node} (hk : g.kind? o.node = some .mixClosure) :
    (foldMixClosure o n).Rewires K g := by
  have hout : e.type = .closure := by rw [List.mem_singleton.mp (hg.mem_outputDecls hk ho)]
  unfold foldMixClosure
  dsimp only
  split_ifs
  · exact rewires_redirectOrDrop hg hm ho hk (i := 1) rfl (by rintro _ ⟨⟩; rw [hout]; rfl)
  · exact rewires_redirectOrDrop hg hm ho hk (i := 1) rfl (by rintro _ ⟨⟩; rw [hout]; rfl)
  · exact rewires_redirectOrDrop hg hm ho hk (i := 2) rfl (by rintro _ ⟨⟩; rw [hout]; rfl)
  · exact .pure _

theorem rewires_foldAddClosure {n : Node} (hk : g.kind? o.node = some .addClosure) :
    (foldAddClosure o n).Rewires K g := by
  have hout : e.type = .closure := by rw [List.mem_singleton.mp (hg.mem_outputDecls hk ho)]
  unfold foldAddClosure
  split_ifs
  · exact rewires_redirectOrDrop hg hm ho hk (i := 1) rfl (by rintro _ ⟨⟩; rw [hout]; rfl)
  · exact rewires_redirectOrDrop hg hm ho hk (i := 0) rfl (by rintro _ ⟨⟩; rw [hout]; rfl)
  · exact .pure _

/-- Only a bump may have a node added. -/
theorem rewires_foldOutput (hK : g.IsBump o.node → K .geometry) : (foldOutput o).Rewires K g := by
  refine .ask_bind fun n hn => ?_
  rw [g.node_eq_ok] at hn
  have hk : g.kind? o.node = some n.kind := by simp [kind?, hn]
  dsimp only
  cases hkind : n.kind with
  | value | color => exact rewires_makeConstant o _
  | convert source target _ => exact rewires_foldConvert hg hm ho hn hkind
  | emission _ =>
    dsimp only
    split_ifs
    · exact rewires_dropConsumers o
    · exact .pure _
  | addClosure => exact rewires_foldAddClosure hg hm ho (hkind ▸ hk)
  | mixClosure => exact rewires_foldMixClosure hg hm ho (hkind ▸ hk)
  | math op clamped =>
    dsimp only
    split_ifs
    · exact rewires_makeConstant o _
    · exact rewires_ask_apply hg hm ho (hkind ▸ hk) rfl false
        (op.found_shortcut (answer_ofGraph hg (hkind ▸ hk) rfl))
  | clamp mode =>
    dsimp only
    split_ifs
    · exact rewires_makeConstant o _
    · exact .pure _
  | vectorMath op =>
    dsimp only
    split
    · refine (Rewires.ask _).bind_any fun out _ => ?_
      split_ifs
      · exact rewires_makeConstant o _
      · exact rewires_makeConstant o _
    · exact rewires_ask_apply hg hm ho (hkind ▸ hk) rfl false
        (op.found_shortcut (answer_ofGraph hg (hkind ▸ hk) rfl))
  | mix mode clamped =>
    dsimp only
    split_ifs
    · exact rewires_makeConstant o _
    · exact rewires_foldMix hg hm ho (hkind ▸ hk)
  | bump invert objectSpace =>
    exact rewires_foldBump hg hm ho (hK ⟨invert, objectSpace, hkind ▸ hk⟩) hn hkind
  | displacement _ =>
    dsimp only
    split_ifs
    · exact rewires_makeZero o
    · exact .pure _
  | _ => exact .pure _

end

section

variable (hg : g.WellFormed) (hm : g.finalized = false)
include hg hm

theorem rewires_foldNode {id : NodeId} {k : NodeKind} (hk : g.kind? id = some k)
    (hK : g.IsBump id → K .geometry) : (foldNode id).Rewires K g := by
  have hfold : ∀ slot {g' : Graph} {e : OutputDecl}, g'.WellFormed → g'.finalized = false →
      g'.outputDecl? ⟨id, slot⟩ = some e → (g'.IsBump id → K .geometry) →
        (foldIfConsumed ⟨id, slot⟩).Rewires K g' := fun slot g' e hg' hm' he hK' => by
    refine .ask_bind fun targets _ => ?_
    split_ifs
    · exact rewires_foldOutput hg' hm' he hK'
    · exact .pure _
  refine .ask_bind fun n hn => ?_
  rw [g.node_eq_ok] at hn
  have hkind : n.kind = k := by simpa [kind?, hn] using hk
  by_cases hb : g.IsBump id
  · obtain ⟨invert, objectSpace, hk'⟩ := hb
    obtain rfl : k = .bump invert objectSpace := Option.some.inj (hk.symm.trans hk')
    have hlen : n.outputs.length = 1 := by
      rw [hg.length_outputs hn, hkind]
      rfl
    rw [hlen]
    exact (hfold 0 hg hm (hg.outputDecl?_eq hk 0) hK).bind_any fun _ _ => .pure _
  · refine .forM_mem (I := g.Folds id) (.refl hg) fun slot hslot g' h => ?_
    obtain ⟨e, he⟩ := (g.exists_outputDecl?_iff hn slot).mpr (List.mem_range.mp hslot)
    have he' := h.evolves.outputDecl?_some hg he
    have hm' := h.evolves.finalized.trans hm
    have hb' : ¬ g'.IsBump id := by
      rwa [IsBump, h.evolves.kind?_eq id (g.lt_idBound_of_kind? hk)]
    refine ⟨hfold slot h.evolves.wellFormed hm' he' fun h => absurd h hb', ?_⟩
    refine ends_consumersOf_bind he' ?_
    split_ifs
    · exact (ends_foldOutput_of_ne_bump h.evolves.wellFormed hm' he' fun invert objectSpace hk' =>
        hb' ⟨invert, objectSpace, hk'⟩).mono fun _ _ h' => h.trans h'
    · exact ends_pure h

end

theorem rewires_foldAll {g : Graph} {w : Worklist} (hg : g.WellFormed) (hm : g.finalized = false)
    (hw : w.Within g) (hK : K .geometry) : (foldAll w).Rewires K g := by
  rw [foldAll.eq_def]
  split
  · exact .pure _
  · rename_i id w' hx
    have hsize := Worklist.size_next? hx
    obtain ⟨hid, hw'⟩ := hw.next hx
    obtain ⟨k, hk⟩ := (g.mem_ids_iff_kind?).mp hid
    refine .get_bind ((rewires_foldNode hg hm hk fun _ => hK).bind_meets (ends_foldNode hg hm hk)
      fun _ g' h => ?_)
    exact rewires_foldAll h.evolves.wellFormed (h.evolves.finalized.trans hm)
      ((hw'.scheduleConsumers g id).mono fun _ => h.evolves.ids_subset) hK
termination_by w.size
decreasing_by
  rw [Worklist.size_scheduleConsumers]
  omega

end Edit

/-! ### New nodes -/

namespace Graph

variable {g g' : Graph}

/-- Links are moved up, except that the consumers of the listed bumps are given new geometry nodes,
one for each bump. These bumps have fed something, and now feed nothing. -/
structure FoldsBumps (bumps : List NodeId) (g g' : Graph) : Prop where
  shortens : g.Shortens (fun _ => True) True g'
  idBound_eq : g'.idBound = g.idBound + bumps.length
  kind?_new : ∀ x, g.idBound ≤ x → x < g'.idBound → g'.kind? x = some .geometry
  nodup : bumps.Nodup
  isBump : ∀ b ∈ bumps, g.IsBump b
  used : ∀ b ∈ bumps, ¬ g.Unused b
  unused : ∀ b ∈ bumps, g'.Unused b

namespace FoldsBumps

theorem of_idBound_eq (h : g.Shortens (fun _ => True) True g') (hb : g'.idBound = g.idBound) :
    g.FoldsBumps [] g' := by
  refine ⟨h, hb, fun x hle hlt => ?_, .nil, by simp, by simp, by simp⟩
  exact absurd (hb ▸ hlt) (Nat.not_lt.mpr hle)

/-- A bump whose consumers are given a new node feeds nothing from then on, so that it is not among
the bumps to which this happens later. -/
theorem trans {g₁ g₂ g₃ : Graph} {l l' : List NodeId} (h : g₁.FoldsBumps l g₂)
    (h' : g₂.FoldsBumps l' g₃) : g₁.FoldsBumps (l ++ l') g₃ := by
  have hold : ∀ b ∈ l', b < g₁.idBound := by
    intro b hb
    obtain ⟨invert, objectSpace, hk⟩ := h'.isBump b hb
    by_contra hle
    have hnew := h.kind?_new b (Nat.not_lt.mp hle) (g₂.lt_idBound_of_kind? hk)
    rw [hk] at hnew
    cases hnew
  refine ⟨h.shortens.trans h'.shortens, ?_, fun x hle hlt => ?_, ?_, fun b hb => ?_, fun b hb => ?_,
    fun b hb => ?_⟩
  · rw [h'.idBound_eq, h.idBound_eq, List.length_append, Nat.add_assoc]
  · by_cases hx : x < g₂.idBound
    · rw [h'.shortens.evolves.kind?_eq x hx]
      exact h.kind?_new x hle hx
    · exact h'.kind?_new x (Nat.not_lt.mp hx) hlt
  · refine List.nodup_append.mpr ⟨h.nodup, h'.nodup, ?_⟩
    rintro b hb _ hb' rfl
    exact h'.used b hb' (h.unused b hb)
  · rcases List.mem_append.mp hb with hb | hb
    · exact h.isBump b hb
    · have hk := h'.isBump b hb
      rwa [IsBump, h.shortens.evolves.kind?_eq b (hold b hb)] at hk
  · rcases List.mem_append.mp hb with hb | hb
    · exact h.used b hb
    · exact fun hu => h'.used b hb (h.shortens.unused hu (hold b hb))
  · rcases List.mem_append.mp hb with hb | hb
    · exact h'.shortens.unused (h.unused b hb)
        (Nat.lt_of_lt_of_le (h.isBump b hb).lt_idBound h.shortens.evolves.idBound_le)
    · exact h'.unused b hb

end FoldsBumps

theorem FoldsBump.foldsBumps {x : NodeId} (h : g.FoldsBump x g') (hg : g.WellFormed)
    (hk : g.IsBump x) (hused : ¬ g.Unused x) : ∃ bumps, g.FoldsBumps bumps g' := by
  have hs := (h.shortens hg hk).mono (fun _ _ => trivial) fun _ => trivial
  cases h with
  | idle _ => exact ⟨[], .of_idBound_eq hs rfl⟩
  | normal _ h => exact ⟨[], .of_idBound_eq hs h.idBound_eq⟩
  | geometry _ h =>
    have hb : g'.idBound = g.idBound + 1 := h.idBound_eq.trans (by simp)
    have hx : g.idBound ≠ x := Nat.ne_of_gt hk.lt_idBound
    refine ⟨[x], hs, hb, fun y hle hlt => ?_, by simp, by simpa using hk, by simpa using hused, ?_⟩
    · obtain rfl : y = g.idBound := by omega
      exact h.evolves.kind?_some (g.kind?_push_self (Node.ofKind .geometry))
    · simpa using hk.unused_of_redirects hg (g.linkAt_push _) h hx

end Graph

namespace Edit

open Shading.Graph

variable {g : Graph}

section

variable (hg : g.WellFormed) (hm : g.finalized = false)
include hg

theorem ends_foldNode_unused {id : NodeId} {k : NodeKind} (hk : g.kind? id = some k)
    (hu : g.Unused id) : (foldNode id).Ends g fun _ g' => g' = g := by
  obtain ⟨n, hn, -⟩ := Option.map_eq_some_iff.mp hk
  refine ends_ask_bind ((g.node_eq_ok).mpr hn) (ends_forM_mem (I := (· = g)) rfl ?_)
  intro slot hslot g' hg'
  subst g'
  obtain ⟨e, he⟩ := (g.exists_outputDecl?_iff hn slot).mpr (List.mem_range.mp hslot)
  have hnone : g.fanOut ⟨id, slot⟩ = [] := by
    refine List.eq_nil_iff_forall_not_mem.mpr fun r hr => ?_
    exact hu r _ ((hg.link_iff r _).mpr hr) rfl
  refine ends_consumersOf_bind he ?_
  rw [hnone]
  exact ends_pure rfl

include hm

theorem ends_foldNode_foldsBumps {id : NodeId} {k : NodeKind} (hk : g.kind? id = some k) :
    (foldNode id).Ends g fun _ g' => ∃ bumps, g.FoldsBumps bumps g' := by
  by_cases hb : g.IsBump id
  · by_cases hu : g.Unused id
    · refine (ends_foldNode_unused hg hk hu).mono ?_
      rintro _ _ rfl
      exact ⟨[], .of_idBound_eq (.refl hg) rfl⟩
    · obtain ⟨invert, objectSpace, hk'⟩ := hb
      exact (ends_foldNode_bump hg hm hk').mono fun _ _ h =>
        h.foldsBumps hg ⟨invert, objectSpace, hk'⟩ hu
  · have hne : ∀ invert objectSpace, k ≠ .bump invert objectSpace := fun invert objectSpace h =>
      hb ⟨invert, objectSpace, h ▸ hk⟩
    refine ((ends_foldNode_of_ne_bump hg hm hk hne).and_meets
      (rewires_foldNode (K := fun _ => False) hg hm hk fun h => absurd h hb).meets).mono ?_
    rintro _ g' ⟨h, h'⟩
    exact ⟨[], .of_idBound_eq (h.shortens.mono (fun _ _ => trivial) fun _ => trivial)
      (h'.idBound_eq fun _ => not_false)⟩

end

theorem ends_foldAll_foldsBumps {w : Worklist} (hg : g.WellFormed) (hm : g.finalized = false)
    (hw : w.Within g) : (foldAll w).Ends g fun _ g' => ∃ bumps, g.FoldsBumps bumps g' := by
  refine ends_foldAll_of_foldNode (R := fun g g' => ∃ bumps, g.FoldsBumps bumps g')
    (fun g hg => ⟨[], .of_idBound_eq (.refl hg) rfl⟩) ?_ ?_
    (fun _ _ _ hg hm hk => ends_foldNode_foldsBumps hg hm hk) hg hm hw
  · rintro g₁ g₂ g₃ ⟨l, h⟩ ⟨l', h'⟩
    exact ⟨l ++ l', h.trans h'⟩
  · rintro g g' ⟨_, h⟩
    exact h.shortens.evolves

/-- A run that is not allowed to add nodes leaves no node that has not been there. -/
theorem Rewires.ends_ids_subset {α : Type} {e : Edit α} {Q : α → Graph → Prop}
    (h : e.Rewires (fun _ => False) g) (he : e.Ends g Q) : e.Ends g fun _ g' =>
      g'.diagnostics = g.diagnostics ∧ g'.idBound = g.idBound ∧ ∀ x ∈ g'.ids, x ∈ g.ids := by
  refine (he.and_meets h.meets).mono ?_
  rintro _ g' ⟨-, h⟩
  refine ⟨h.diagnostics_eq, h.idBound_eq fun _ => not_false, fun x hx => ?_⟩
  obtain ⟨k, hk⟩ := (g'.mem_ids_iff_kind?).mp hx
  obtain hk | ⟨-, hK⟩ := h.kind?_some x k hk
  · exact (g.mem_ids_iff_kind?).mpr ⟨k, hk⟩
  · exact hK.elim

/-- **Links are kept as they are.** Whenever duplicates are merged, proxies are removed or constants
are folded, each connection that is made is a plain link. None of this reports anything. Only the
folding of constants adds nodes: a geometry node for each bump whose consumers it has moved to one,
and a colour node with a conversion if the displacement has lost its link. -/
theorem passes_make_plain_links (hg : g.WellFormed) (hm : g.finalized = false) :
    (mergeDuplicates.Rewires (fun _ => False) g ∧ mergeDuplicates.Ends g fun _ g' =>
      g'.diagnostics = g.diagnostics ∧ g'.idBound = g.idBound ∧ ∀ x ∈ g'.ids, x ∈ g.ids) ∧
    (removeProxies.Rewires (fun _ => False) g ∧ removeProxies.Ends g fun _ g' =>
      g'.diagnostics = g.diagnostics ∧ g'.idBound = g.idBound ∧ ∀ x ∈ g'.ids, x ∈ g.ids) ∧
    (foldAll (.ofGraph g)).Rewires (· = .geometry) g ∧ propagateConstants.Ends g fun _ g' =>
      g'.diagnostics = g.diagnostics ∧ ∃ g₁ bumps, (foldAll (.ofGraph g)).run g = .ok () g₁ ∧
        g.FoldsBumps bumps g₁ ∧
        if g.linkAt ⟨outputId, 2⟩ ≠ none ∧ g₁.linkAt ⟨outputId, 2⟩ = none then g₁.Redisplaces g'
        else g' = g₁ := by
  have hw := Worklist.within_ofGraph g
  have hmerge : mergeDuplicates.Rewires (fun _ => False) g :=
    .get_bind (rewires_mergeAll hg hm hw [] 0)
  have hproxy : removeProxies.Rewires (fun _ => False) g := rewires_removeProxies hg hm
  have hfold : (foldAll (.ofGraph g)).Rewires (· = .geometry) g := rewires_foldAll hg hm hw rfl
  refine ⟨⟨hmerge, hmerge.ends_ids_subset (ends_get_bind (ends_mergeAll hg hm hw [] 0))⟩,
    ⟨hproxy, hproxy.ends_ids_subset (ends_removeProxies hg hm)⟩, hfold, ?_⟩
  obtain ⟨⟨⟩, g₁, hrun, ⟨bumps, hbumps⟩, hrewired⟩ :=
    ends_iff.mp ((ends_foldAll_foldsBumps hg hm hw).and_meets hfold.meets)
  refine (ends_propagateConstants_restores (P := (· = g₁)) hg hm
    (ends_iff.mpr ⟨(), g₁, hrun, rfl⟩)).mono ?_
  rintro _ g' ⟨_, rfl, -, h⟩
  split_ifs at h with hlost
  · refine ⟨h.2.trans hrewired.diagnostics_eq, _, bumps, hrun, hbumps, ?_⟩
    rw [if_pos hlost]
    exact h.1
  · refine ⟨h ▸ hrewired.diagnostics_eq, _, bumps, hrun, hbumps, ?_⟩
    rw [if_neg hlost]
    exact h

/-- A bump without a height, next to a displacement by a constant sum. -/
def flatBump : Graph :=
  Primitive.runAll [.addKind (.bump false false), .addKind (.vectorMath .add),
    .connect ⟨1, 0⟩ ⟨0, 3⟩, .connect ⟨2, 1⟩ ⟨0, 2⟩] Graph.empty

/-- The output takes the normal of a new geometry node, and its displacement is linked anew. -/
theorem passes_make_plain_links_flatBump :
    flatBump.WellFormed ∧ flatBump.finalized = false ∧
      (foldAll (.ofGraph flatBump)).Rewires (· = .geometry) flatBump ∧
      propagateConstants.Ends flatBump fun _ g' => g'.diagnostics = flatBump.diagnostics ∧
        ∃ g₁, flatBump.FoldsBumps [1] g₁ ∧ g₁.linkAt ⟨outputId, 3⟩ = some ⟨3, 1⟩ ∧
          g₁.Redisplaces g' := by
  have hg : flatBump.WellFormed := (Primitive.follows_runAll wellFormed_empty _).wellFormed
  have hm : flatBump.finalized = false := by decide
  obtain ⟨-, -, hfold, hends⟩ := passes_make_plain_links hg hm
  refine ⟨hg, hm, hfold, hends.mono ?_⟩
  rintro _ g' ⟨hd, g₁, bumps, hrun, hbumps, h⟩
  have hfolded : (foldAll (.ofGraph flatBump)).Ends flatBump fun _ g₁ => g₁.idBound = 4 ∧
      g₁.linkAt ⟨outputId, 3⟩ = some ⟨3, 1⟩ ∧ flatBump.linkAt ⟨outputId, 2⟩ ≠ none ∧
        g₁.linkAt ⟨outputId, 2⟩ = none := by
    decide +kernel
  rw [Ends, Meets, hrun] at hfolded
  obtain ⟨hbound, hnormal, hlost⟩ := hfolded
  rw [if_pos hlost] at h
  obtain ⟨b, rfl⟩ : ∃ b, bumps = [b] := by
    have hsum : flatBump.idBound + bumps.length = 4 := hbumps.idBound_eq.symm.trans hbound
    have hthree : flatBump.idBound = 3 := by decide
    exact List.length_eq_one_iff.mp (by omega)
  have hone : ∀ x ∈ flatBump.ids, (flatBump.kind? x).any (·.role = .bump) = true → x = 1 := by
    decide +kernel
  obtain ⟨invert, objectSpace, hk⟩ := hbumps.isBump b (by simp)
  obtain rfl := hone b ((flatBump.mem_ids_iff_kind?).mpr ⟨_, hk⟩) (by simp [hk, NodeKind.role])
  exact ⟨hd, g₁, hbumps, hnormal, h⟩

end Edit

end Shading
