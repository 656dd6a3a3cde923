import Shading.Fold.Propagate
import Shading.Proofs.Redirection

/-!
# Folding

Folding asks for inputs by name, and follows links. On a well-formed graph both always succeed: a
node has the sockets of its kind, and the two ends of a link are there. All that folding does to
links is to cut them and to move them up (`Graph.Shortens`), and it concerns only the inputs of the
folded node and the inputs that are linked to it (`Graph.Around`). A node is added only for a bump
that has lost its normal (`Graph.LacksNormal`). -/

namespace Shading

open Shading.Graph Relation

/-- All triples are stored alike. -/
theorem Literal.hasShape_of_isFloat3 {l : Literal} {type type' : SocketType}
    (h : l.hasShape type = true) (hty : type.isFloat3 = true) (hty' : type'.isFloat3 = true) :
    l.hasShape type' = true := by
  cases l with
  | float3 _ => exact hty'
  | _ =>
    obtain rfl := beq_iff_eq.mp h
    cases hty

/-! ### Shortcuts -/

/-- Whether nodes of a kind have inputs of given names. -/
def NodeKind.hasInputs (names : List String) (k : NodeKind) : Bool :=
  names.all fun name => (k.layout.inputSlot? name).isSome

theorem NodeKind.exists_inputSlot? {names : List String} {k : NodeKind}
    (h : k.hasInputs names = true) {name : String} (hname : name ∈ names) :
    ∃ slot, k.layout.inputSlot? name = some slot :=
  Option.isSome_iff_exists.mp (List.all_eq_true.mp h name hname)

/-- A shortcut that passes on no other inputs than those of given names. -/
def Shortcut.Within (names : List String) : Shortcut → Prop
  | passThrough name => name ∈ names
  | _ => True

/-- The tests give an answer on inputs of given names. -/
def InputTests.Answer (names : List String) (t : InputTests) : Prop :=
  ∀ name ∈ names, (∃ b, t.isZero name = .ok b) ∧ ∃ b, t.isOne name = .ok b

namespace Shortcut

variable {names : List String} {s : Shortcut} {q : Except Fault Bool} {r : Except Fault Shortcut}

/-- A shortcut is found. -/
def Found (names : List String) (r : Except Fault Shortcut) : Prop :=
  ∃ s, r = .ok s ∧ s.Within names

theorem found_pure (hs : s.Within names) : Found names (pure s) := ⟨s, rfl, hs⟩

theorem found_test {k : Bool → Except Fault Shortcut} (hq : ∃ b, q = .ok b)
    (hk : ∀ b, Found names (k b)) : Found names (q >>= k) := by
  obtain ⟨b, rfl⟩ := hq
  exact hk b

theorem found_ite {c : Prop} [Decidable c] {r' : Except Fault Shortcut} (h : Found names r)
    (h' : Found names r') : Found names (if c then r else r') := by
  split_ifs
  · exact h
  · exact h'

end Shortcut

theorem InputTests.Answer.eitherZero {names : List String} {t : InputTests} (h : t.Answer names)
    {a b : String} (ha : a ∈ names) (hb : b ∈ names) : ∃ z, t.eitherZero a b = .ok z := by
  obtain ⟨za, hza⟩ := (h a ha).1
  obtain ⟨zb, hzb⟩ := (h b hb).1
  unfold InputTests.eitherZero
  rw [hza]
  cases za with
  | true => exact ⟨true, rfl⟩
  | false => exact ⟨zb, hzb⟩

open Shortcut

/-- Each rule makes its tests one after the other until one of them holds. -/
theorem MathOp.found_shortcut {t : InputTests} (h : t.Answer ["Value1", "Value2"]) (op : MathOp) :
    Found ["Value1", "Value2"] (op.shortcut t) := by
  have hz := h.eitherZero (a := "Value1") (b := "Value2") (by simp) (by simp)
  obtain ⟨hz₁, ho₁⟩ := h "Value1" (by simp)
  obtain ⟨hz₂, ho₂⟩ := h "Value2" (by simp)
  cases op with
  | add | subtract | multiply | divide | power =>
    unfold shortcut
    repeat first
      | exact found_pure (by simp [Within])
      | refine found_test (by assumption) fun _ => ?_
      | refine found_ite ?_ ?_
  | _ => exact found_pure trivial

theorem VectorOp.found_shortcut {t : InputTests} (h : t.Answer ["Vector1", "Vector2", "Scale"])
    (op : VectorOp) : Found ["Vector1", "Vector2", "Scale"] (op.shortcut t) := by
  have hz := h.eitherZero (a := "Vector1") (b := "Vector2") (by simp) (by simp)
  have hs := h.eitherZero (a := "Vector1") (b := "Scale") (by simp) (by simp)
  obtain ⟨hz₁, ho₁⟩ := h "Vector1" (by simp)
  obtain ⟨hz₂, ho₂⟩ := h "Vector2" (by simp)
  obtain ⟨-, ho₃⟩ := h "Scale" (by simp)
  cases op with
  | add | subtract | multiply | divide | dotProduct | crossProduct | length | absolute | scale =>
    unfold shortcut
    repeat first
      | exact found_pure (by simp [Within])
      | refine found_test (by assumption) fun _ => ?_
      | refine found_ite ?_ ?_
  | _ => exact found_pure trivial

theorem BlendMode.found_shortcut {t : InputTests} (h : t.Answer ["Color1", "Color2"])
    (facts : MixFacts) (mode : BlendMode) :
    Found ["Color1", "Color2"] (mode.shortcut facts t) := by
  obtain ⟨hz₁, ho₁⟩ := h "Color1" (by simp)
  obtain ⟨hz₂, ho₂⟩ := h "Color2" (by simp)
  cases mode with
  | blend | add | subtract | multiply =>
    unfold shortcut
    repeat first
      | exact found_pure (by simp [Within])
      | refine found_test (by assumption) fun _ => ?_
      | refine found_ite ?_ ?_
  | _ => exact found_pure trivial

namespace Graph

/-- The inputs that have to do with a node: its own, and those that are linked to it. -/
def Around (g : Graph) (x : NodeId) (r : InputRef) : Prop :=
  r.node = x ∨ ∃ o, g.linkAt r = some o ∧ o.node = x

/-- A bump whose normal is not linked. -/
def LacksNormal (g : Graph) (x : NodeId) : Prop := g.IsBump x ∧ g.linkAt ⟨x, 4⟩ = none

variable {g g' : Graph} {o s : OutputRef} {x : NodeId} {N : Prop}

theorem Redirects.around (h : g.Redirects o s g') (hs : ReflTransGen g.Relays s.node o.node) :
    g.Shortens (g.Around o.node) N g' :=
  (h.shortens hs).mono (fun _ hr => Or.inr ⟨o, hr, rfl⟩) fun h => h

/-- What has to do with a node afterwards has had to do with it before. -/
theorem Shortens.around (h : g.Shortens (g.Around x) N g') {r : InputRef} (hr : g'.Around x r) :
    g.Around x r := by
  rcases hr with hr | ⟨o, ho, hx⟩
  · exact Or.inl hr
  · by_contra hn
    rw [h.evolves.linkAt_eq r (node_lt_of_linkAt (h.linked ho)) hn] at ho
    exact hn (Or.inr ⟨o, ho, hx⟩)

/-- An input of a node is linked. -/
def Depends (g : Graph) (x : NodeId) : Prop := ∃ slot, g.linkAt ⟨x, slot⟩ ≠ none

/-- What folding does to a node that is no bump. Links are cut and moved up, but the node does not
lose the last of its own links, unless it depends on itself. -/
structure Folds (x : NodeId) (g g' : Graph) : Prop where
  shortens : g.Shortens (g.Around x) False g'
  depends : ¬ TransGen g.Feeds x x → g.Depends x → g'.Depends x

theorem Folds.evolves (h : g.Folds x g') : g.Evolves (g.Around x) g' := h.shortens.evolves

theorem Folds.refl (hg : g.WellFormed) : g.Folds x g := ⟨.refl hg, fun _ h => h⟩

theorem Folds.trans {g₁ g₂ g₃ : Graph} (h : g₁.Folds x g₂) (h' : g₂.Folds x g₃) :
    g₁.Folds x g₃ where
  shortens := h.shortens.trans_fresh h'.shortens fun _ hr => Or.inl (h.shortens.around hr)
  depends hloop hf := h'.depends (fun hx => (h.shortens.transGen hx).elim hloop fun hn => hn.1)
    (h.depends hloop hf)

/-- The own links of a node are not among those of its consumers. -/
theorem Evolves.depends (h : g.Evolves (g.linkAt · = some o) g')
    (hloop : ¬ TransGen g.Feeds o.node o.node) (hf : g.Depends o.node) : g'.Depends o.node := by
  obtain ⟨slot, hs⟩ := hf
  refine ⟨slot, ?_⟩
  rw [h.linkAt_eq _ (node_lt_of_linkAt (r := ⟨o.node, slot⟩) hs)]
  · exact hs
  · exact fun ho => hloop (.single (feeds_of_linkAt ho))

theorem Trims.folds (h : g.Trims (g.linkAt · = some o) g') : g.Folds o.node g' :=
  ⟨h.shortens.mono (fun _ hr => Or.inr ⟨o, hr, rfl⟩) fun h => h, h.evolves.depends⟩

theorem Redirects.folds (h : g.Redirects o s g') (hs : ReflTransGen g.Relays s.node o.node) :
    g.Folds o.node g' := ⟨h.around hs, h.evolves.depends⟩

/-- The consumers of an output are unlinked, and hold a literal instead. -/
structure Stores (o : OutputRef) (l : Literal) (g g' : Graph) : Prop where
  trims : g.Trims (g.linkAt · = some o) g'
  literalAt_eq : ∀ r d, g.linkAt r = some o → g.inputDecl? r = some d →
    g'.literalAt r = some (l.convert d.type false)

/-- All inputs of a node but one are unlinked. -/
structure Narrows (kept : InputRef) (g g' : Graph) : Prop where
  trims : g.Trims (fun r => r.node = kept.node ∧ r ≠ kept) g'
  literalAt_eq : ∀ r, g'.literalAt r = g.literalAt r

/-- What becomes of an output that is to pass on an input of its node, and whether it was replaced.
Without a link, the consumers hold the literal instead. A link is passed on, or else all other
inputs are unlinked. -/
inductive PassesOn (o : OutputRef) (e : OutputDecl) (i : Nat) (d : InputDecl) (clamped : Bool)
    (g : Graph) : Bool → Graph → Prop
  | kept (h : d.type = e.type → d.type.isFloating = false) : PassesOn o e i d clamped g false g
  | stored {l : Literal} {g' : Graph} (hty : d.type = e.type) (hfloat : d.type.isFloating = true)
    (hs : g.linkAt ⟨o.node, i⟩ = none) (hl : g.literalAt ⟨o.node, i⟩ = some l)
    (h : g.Stores o (if clamped then l.saturate else l) g') : PassesOn o e i d clamped g true g'
  | narrowed {s : OutputRef} {g' : Graph} (hty : d.type = e.type) (hc : clamped = true)
    (hs : g.linkAt ⟨o.node, i⟩ = some s) (h : g.Narrows ⟨o.node, i⟩ g') :
    PassesOn o e i d clamped g false g'
  | redirected {s : OutputRef} {g' : Graph} (hty : d.type = e.type) (hc : clamped = false)
    (hs : g.linkAt ⟨o.node, i⟩ = some s) (h : g.Redirects o s g') :
    PassesOn o e i d clamped g true g'

theorem Narrows.folds {kept : InputRef} (h : g.Narrows kept g') (hl : g.linkAt kept ≠ none) :
    g.Folds kept.node g' := by
  refine ⟨h.trims.shortens.mono (fun r hr => Or.inl hr.1) fun h => h, fun _ _ => ⟨kept.slot, ?_⟩⟩
  rw [h.trims.kept kept fun hr => hr.2 rfl]
  exact hl

theorem PassesOn.folds {e : OutputDecl} {i : Nat} {d : InputDecl} {clamped replaced : Bool}
    (h : g.PassesOn o e i d clamped replaced g') (hg : g.WellFormed) (hc : ¬ g.IsClamp o.node) :
    g.Folds o.node g' := by
  cases h with
  | kept => exact .refl hg
  | stored _ _ _ _ h => exact h.trims.folds
  | narrowed _ _ hs h => exact h.folds (by simp [hs])
  | redirected _ _ hs h => exact h.folds (.single (relays_of_linkAt hs hc))

/-- What feeds a conversion fits where the conversion back to its type leads. -/
theorem WellFormed.fits_back (hg : g.WellFormed) {source target : SocketType} {automatic : Bool}
    {e : OutputDecl} (hk : g.kind? o.node = some (.convert source target automatic))
    (ho : g.outputDecl? o = some e) {y : NodeId} {first second : SocketType} {automatic' : Bool}
    (hy : g.kind? y = some (.convert first second automatic')) (hl : g.linkAt ⟨y, 0⟩ = some s)
    (hfirst : first = target) : ∃ e', g.outputDecl? s = some e' ∧ e'.type.linksTo e.type = true := by
  obtain ⟨e', he'⟩ := hg.exists_output hl
  have hout : e.type = target := by rw [List.mem_singleton.mp (hg.mem_outputDecls hk ho)]
  rw [hout, ← hfirst]
  exact ⟨e', he', (hg.typed _ _ _ e' hl (hg.inputDecl?_eq hy 0) he').2⟩

/-- A bump has one output. -/
theorem IsBump.slot_eq (h : g.IsBump x) (hg : g.WellFormed) {r : InputRef}
    (hl : g.linkAt r = some o) (ho : o.node = x) : o = ⟨x, 0⟩ := by
  obtain ⟨invert, objectSpace, hk⟩ := h
  exact hg.eq_of_single_output hk rfl hl ho

theorem IsBump.unused_of_redirects (hk : g.IsBump x) (hg : g.WellFormed) {g₀ : Graph}
    (hlink : ∀ r, g₀.linkAt r = g.linkAt r) (h : g₀.Redirects ⟨x, 0⟩ s g') (hs : s.node ≠ x) :
    g'.Unused x := by
  intro r o ho hox
  rw [h.linkAt_eq, hlink] at ho
  split_ifs at ho with hr
  · cases ho
    exact hs hox
  · exact hr (ho.trans (congrArg some (hk.slot_eq hg ho hox)))

/-- What folding does to a bump. Nothing happens if it has a height or feeds nothing. Otherwise its
consumers take its normal, or else that of a new geometry node. -/
inductive FoldsBump (x : NodeId) (g : Graph) : Graph → Prop
  | idle (h : g.linkAt ⟨x, 0⟩ ≠ none ∨ g.fanOut ⟨x, 0⟩ = []) : FoldsBump x g g
  | normal {g' : Graph} {s : OutputRef} (hs : g.linkAt ⟨x, 4⟩ = some s)
    (h : g.Redirects ⟨x, 0⟩ s g') : FoldsBump x g g'
  | geometry {g' : Graph} (hs : g.linkAt ⟨x, 4⟩ = none)
    (h : (g.push (.ofKind .geometry)).Redirects ⟨x, 0⟩ ⟨g.idBound, 1⟩ g') : FoldsBump x g g'

theorem FoldsBump.shortens (h : g.FoldsBump x g') (hg : g.WellFormed) (hk : g.IsBump x) :
    g.Shortens (g.Around x) (g.LacksNormal x) g' := by
  cases h with
  | idle _ => exact .refl hg
  | normal hs h =>
    obtain ⟨_, _, hk⟩ := hk
    exact h.around (.single (relays_of_linkAt hs (not_isClamp_of_kind? hk nofun)))
  | geometry hs h =>
    have hlink := fun r => g.linkAt_push (Node.ofKind .geometry) r
    refine ⟨(evolves_push hg (Node.sound_ofKind .geometry)).widen.trans
      (h.evolves.mono fun r hr => Or.inr ⟨_, (hlink r).symm.trans hr, rfl⟩), fun r s hs' => ?_⟩
    rw [h.linkAt_eq, hlink] at hs'
    split_ifs at hs' with hr
    · cases hs'
      have hnew := h.evolves.kind?_some (g.kind?_push_self (Node.ofKind .geometry))
      exact ⟨_, hr, Or.inr ⟨⟨hk, hs⟩, Nat.le_refl _, hnew⟩⟩
    · exact ⟨s, hs', Or.inl .refl⟩

/-- An input gets linked to nodes that are new, and all other links are as before. None of the new
nodes is an operation. -/
structure Supplies (t : InputRef) (g g' : Graph) : Prop where
  evolves : g.Evolves (· = t) g'
  kind?_new : ∀ x op clamped, g.idBound ≤ x → g'.kind? x ≠ some (.math op clamped)
  linked : g'.linkAt t ≠ none
  fresh : ∀ r o, g'.linkAt r = some o → g.linkAt r = some o ∨ g.idBound ≤ o.node

/-- The displacement is fed by a new colour node, through a new conversion. -/
structure Redisplaces (g g' : Graph) : Prop where
  evolves : g.Evolves (· = ⟨outputId, 2⟩) g'
  kind?_eq : ∀ x, g'.kind? x =
    if x = g.idBound + 1 then some (.convert .color .vector true)
    else if x = g.idBound then some .color else g.kind? x
  linkAt_eq : ∀ r, g'.linkAt r =
    if r = ⟨outputId, 2⟩ then some ⟨g.idBound + 1, 0⟩
    else if r = ⟨g.idBound + 1, 0⟩ then some ⟨g.idBound, 0⟩ else g.linkAt r

theorem Redisplaces.supplies (h : g.Redisplaces g') : g.Supplies ⟨outputId, 2⟩ g' := by
  refine ⟨h.evolves, fun x op clamped hx hk => ?_, by simp [h.linkAt_eq], fun r o ho => ?_⟩
  · rw [h.kind?_eq] at hk
    split_ifs at hk
    · cases hk
    · cases hk
    · exact Nat.not_le.mpr (g.lt_idBound_of_kind? hk) hx
  · rw [h.linkAt_eq] at ho
    split_ifs at ho
    · cases ho
      exact Or.inr (Nat.le_succ _)
    · cases ho
      exact Or.inr (Nat.le_refl _)
    · exact Or.inl ho

end Graph

namespace Edit

variable {g : Graph} {o s : OutputRef} {e e' : OutputDecl}

/-! ### Replacing an output -/

theorem ends_makeConstant_stores (hg : g.WellFormed) (hm : g.finalized = false)
    (ho : g.outputDecl? o = some e) (l : Literal) :
    (makeConstant o l).Ends g fun _ => g.Stores o l := by
  refine ends_consumersOf_bind ho ?_
  refine Ends.bind (ends_forM (fun rest g' => ∃ done, g.fanOut o = done ++ rest ∧
    g.Trims (fun _ => False) g' ∧ ∀ t ∈ done, ∀ d, g.inputDecl? t = some d →
      g'.literalAt t = some (l.convert d.type false)) ⟨[], rfl, .refl hg nofun, nofun⟩ ?_) ?_
  · rintro t rest g' ⟨done, hl, h, hlit⟩
    obtain ⟨d, hd⟩ := g.inputDecl?_of_linkAt ((hg.link_iff t o).mpr (by simp [hl]))
    refine (ends_store_eq (h.finalized.trans hm) ((h.inputDecl?_eq t).trans hd) l).mono ?_
    rintro _ _ rfl
    refine ⟨done ++ [t], by simp [hl], (h.trans (trims_store h.wellFormed t l)).congr (by simp), ?_⟩
    intro t' ht' d' hd'
    rw [literalAt_store, h.inputDecl?_eq]
    split_ifs with heq
    · rw [← heq, hd']
      rfl
    · exact hlit t' (by simpa [heq] using ht') d' hd'
  · rintro _ g₁ ⟨done, hl, h, hlit⟩
    rw [List.append_nil] at hl
    refine meets_requireMutable_bind (fun _ => ?_) fun hf => by simp [h.finalized.trans hm] at hf
    refine ends_consumersOf_bind (h.evolves.outputDecl?_some hg ho) (ends_modify ⟨?_, ?_⟩)
    · exact (h.trans (trims_unlinkOutput h.wellFormed o)).congr fun r _ _ => by
        simp [h.kept r (by simp)]
    · intro r d hr hd
      rw [literalAt_unlinkOutput]
      exact hlit r (hl ▸ (hg.link_iff r o).mp hr) d hd

theorem ends_makeConstant (hg : g.WellFormed) (hm : g.finalized = false)
    (ho : g.outputDecl? o = some e) (l : Literal) :
    (makeConstant o l).Ends g fun _ => g.Trims (g.linkAt · = some o) :=
  (ends_makeConstant_stores hg hm ho l).mono fun _ _ h => h.trims

theorem ends_dropConsumers (hg : g.WellFormed) (hm : g.finalized = false)
    (ho : g.outputDecl? o = some e) :
    (dropConsumers o).Ends g fun _ => g.Trims (g.linkAt · = some o) := by
  refine meets_ask_output_bind (fun out _ => ?_) fun hn => by simp [hn] at ho
  exact ends_disconnectOutput hg hm ho

theorem ends_redirect (hg : g.WellFormed) (hm : g.finalized = false)
    (ho : g.outputDecl? o = some e) (hs : g.outputDecl? s = some e')
    (hty : e'.type.linksTo e.type = true) : (redirect o s).Ends g fun _ => g.Redirects o s := by
  refine ends_consumersOf_bind ho ?_
  refine Ends.bind (ends_disconnectOutput hg hm ho) fun _ g₁ h₁ => ?_
  refine (ends_forM_link (s := s) h₁.wellFormed (hg.nodup o) fun t ht g' h hb => ?_).mono ?_
  · have hl := (hg.link_iff t o).mpr ht
    have hlt : t.node < g₁.idBound := h₁.idBound_eq ▸ node_lt_of_linkAt (by simp [hl])
    obtain ⟨d, hj, hfit⟩ := joinable_of_linkAt hg ho hs hty hl (h₁.evolves.grows.trans h.grows)
      ((h.linkAt_eq t hlt (by simp)).trans (h₁.cut t hl))
    exact ends_discard (ends_connect_free h.wellFormed
      (h.finalized.trans (h₁.finalized.trans hm)) hj hfit)
  · rintro _ g' ⟨h, hb, hl⟩
    refine ⟨h₁.evolves.trans (h.mono fun r hr => (hg.link_iff r o).mpr hr),
      hb.trans h₁.idBound_eq, fun r hr => hl r ((hg.link_iff r o).mp hr)⟩

section

variable {k : NodeKind} {name : String} {i : Nat}

/-- The links of an output are moved to what feeds an input of the same node. -/
theorem ends_redirect_input (hg : g.WellFormed) (hm : g.finalized = false)
    (ho : g.outputDecl? o = some e) {d : InputDecl} (hd : g.inputDecl? ⟨o.node, i⟩ = some d)
    (hty : d.type.linksTo e.type = true) (hl : g.linkAt ⟨o.node, i⟩ = some s) :
    (redirect o s).Ends g fun _ => g.Redirects o s := by
  obtain ⟨e', he'⟩ := hg.exists_output hl
  obtain ⟨-, hty'⟩ := hg.typed _ s d e' hl hd he'
  exact ends_redirect hg hm ho he' (SocketType.linksTo_trans hty' hty)

theorem ends_redirectOrDrop (hg : g.WellFormed) (hm : g.finalized = false)
    (ho : g.outputDecl? o = some e) (hk : g.kind? o.node = some k) (hc : ∀ mode, k ≠ .clamp mode)
    (hslot : k.layout.inputSlot? name = some i)
    (hty : ∀ d, k.inputDecls[i]? = some d → d.type.linksTo e.type = true) :
    (redirectOrDrop o name).Ends g fun _ => g.Folds o.node := by
  refine ends_ask_bind (hg.linkOf_inputRef_eq hk hslot) ?_
  obtain ⟨d, hd⟩ := hg.exists_inputDecl? hk hslot
  split
  · rename_i s hs
    exact (ends_redirect_input hg hm ho hd (hty d ((hg.inputDecl?_eq hk i).symm.trans hd)) hs).mono
      fun _ _ h => h.folds (.single (relays_of_linkAt hs (not_isClamp_of_kind? hk hc)))
  · exact (ends_dropConsumers hg hm ho).mono fun _ _ h => h.folds

theorem meets_disconnectIfLinked_literalAt (t : InputRef) :
    (disconnectIfLinked t).Meets g (fun _ g' => ∀ r, g'.literalAt r = g.literalAt r)
      fun g' => g' = g := by
  refine meets_ask_bind (fun _ _ => ?_) fun _ => rfl
  split_ifs
  · refine meets_requireMutable_bind (fun _ => ?_) fun _ => rfl
    refine meets_ask_bind (fun _ _ => ?_) fun _ => rfl
    split
    · exact meets_throw rfl
    · exact meets_modify fun r => literalAt_unlink ..
  · exact meets_pure fun _ => rfl

theorem ends_keepOnlyInput (hg : g.WellFormed) (hm : g.finalized = false) {r : InputRef}
    (hk : g.kind? r.node = some k) : (keepOnlyInput r).Ends g fun _ => g.Narrows r := by
  refine meets_ask_node_bind (fun n hn => ?_) fun hnone => by simp [hnone] at hk
  refine ((ends_forM_trims (T := fun i r' => i ≠ r.slot ∧ r' = ⟨r.node, i⟩) hg
    fun i hi T' g' h => ?_).and_meets (meets_forM_mem (E := fun _ => True)
      (I := fun g' => ∀ r', g'.literalAt r' = g.literalAt r') (fun _ => rfl)
        fun i _ g' h => ?_)).mono fun _ g' h => ⟨h.1.congr fun r' o hr' => ⟨?_, ?_⟩, h.2⟩
  · split_ifs with hslot
    · exact ends_pure (.refl h.wellFormed fun r' hr' => absurd hslot hr'.1)
    · obtain ⟨d, hd⟩ := (g.exists_inputDecl?_iff hn i).mpr (List.mem_range.mp hi)
      exact (ends_disconnectIfLinked h.wellFormed (h.finalized.trans hm)
        (h.evolves.inputDecl?_some hg hd)).mono fun _ _ h' => h'.congr fun _ _ _ => by simp [hslot]
  · split_ifs
    · exact meets_pure h
    · exact (meets_disconnectIfLinked_literalAt _).mono
        (fun _ _ h' r' => (h' r').trans (h r')) fun _ _ => trivial
  · rintro ⟨i, -, hne, rfl⟩
    exact ⟨rfl, fun heq => hne (congrArg InputRef.slot heq)⟩
  · obtain ⟨x, i⟩ := r'
    rintro ⟨rfl, hne⟩
    have hslot := (g.exists_inputDecl?_iff hn i).mp (g.inputDecl?_of_linkAt hr')
    exact ⟨i, List.mem_range.mpr hslot, fun heq => hne (heq ▸ rfl), rfl⟩

theorem ends_passThrough_passesOn (hg : g.WellFormed) (hm : g.finalized = false)
    (ho : g.outputDecl? o = some e) (hk : g.kind? o.node = some k)
    (hslot : k.layout.inputSlot? name = some i) {d : InputDecl}
    (hd : g.inputDecl? ⟨o.node, i⟩ = some d) (clamped : Bool) :
    (passThrough o name clamped).Ends g (g.PassesOn o e i d clamped) := by
  refine ends_ask_bind (hg.inputRef_eq hk hslot) ?_
  refine meets_ask_input_bind (fun input hinput => ?_) fun hn => by simp [hn] at hd
  refine meets_ask_output_bind (fun out hout => ?_) fun hn => by simp [hn] at ho
  have hlink : g.linkAt ⟨o.node, i⟩ = input.link := by simp [linkAt, hinput]
  have hliteral : g.literalAt ⟨o.node, i⟩ = some input.literal := by simp [literalAt, hinput]
  obtain rfl : d = input.toInputDecl := by simpa [inputDecl?, hinput] using hd.symm
  obtain rfl : e = out.toOutputDecl := by simpa [outputDecl?, hout] using ho.symm
  split
  · rename_i hty
    exact ends_pure (.kept fun h => absurd h hty)
  · rename_i hty
    replace hty := not_not.mp hty
    split
    · rename_i hs
      split_ifs with hfloat
      · exact Ends.bind (ends_makeConstant_stores hg hm ho _) fun _ _ h =>
          ends_pure (.stored hty hfloat (hlink.trans hs) hliteral h)
      · exact ends_pure (.kept fun _ => by simpa using hfloat)
    · rename_i s hs
      split_ifs with hc
      · exact Ends.bind (ends_keepOnlyInput (r := ⟨o.node, i⟩) hg hm hk) fun _ _ h =>
          ends_pure (.narrowed hty hc (hlink.trans hs) h)
      · have hfit : input.type.linksTo out.type = true := by
          rw [hty]
          exact SocketType.linksTo_self _
        exact Ends.bind (ends_redirect_input hg hm ho hd hfit (hlink.trans hs)) fun _ _ h =>
          ends_pure (.redirected hty (by simpa using hc) (hlink.trans hs) h)

theorem ends_passThrough (hg : g.WellFormed) (hm : g.finalized = false)
    (ho : g.outputDecl? o = some e) (hk : g.kind? o.node = some k) (hc : ∀ mode, k ≠ .clamp mode)
    (hslot : k.layout.inputSlot? name = some i) (clamped : Bool) :
    (passThrough o name clamped).Ends g fun _ => g.Folds o.node := by
  obtain ⟨d, hd⟩ := hg.exists_inputDecl? hk hslot
  exact (ends_passThrough_passesOn hg hm ho hk hslot hd clamped).mono fun _ _ h =>
    h.folds hg (not_isClamp_of_kind? hk hc)

theorem ends_makeZero (hg : g.WellFormed) (hm : g.finalized = false)
    (ho : g.outputDecl? o = some e) :
    (makeZero o).Ends g fun _ => g.Folds o.node := by
  refine meets_ask_output_bind (fun out _ => ?_) fun hn => by simp [hn] at ho
  split_ifs
  · exact (ends_makeConstant hg hm ho _).mono fun _ _ h => h.folds
  · exact ends_pure (.refl hg)

theorem ends_makeOne (hg : g.WellFormed) (hm : g.finalized = false)
    (ho : g.outputDecl? o = some e) :
    (makeOne o).Ends g fun _ => g.Folds o.node := by
  refine meets_ask_output_bind (fun out _ => ?_) fun hn => by simp [hn] at ho
  split_ifs
  · exact (ends_makeConstant hg hm ho _).mono fun _ _ h => h.folds
  · exact (ends_makeConstant hg hm ho _).mono fun _ _ h => h.folds
  · exact ends_pure (.refl hg)

/-! ### Rules -/

theorem answer_ofGraph (hg : g.WellFormed) {id : NodeId} (hk : g.kind? id = some k)
    {names : List String} (hn : k.hasInputs names = true) : (InputTests.ofGraph g id).Answer names := by
  intro name hname
  obtain ⟨slot, hslot⟩ := k.exists_inputSlot? hn hname
  obtain ⟨d, hd⟩ := hg.exists_inputDecl? hk hslot
  obtain ⟨i, hi, -⟩ := Option.map_eq_some_iff.mp hd
  have hin : g.namedInput id name = .ok i := by
    unfold namedInput
    rw [hg.inputRef_eq hk hslot]
    exact (g.input_eq_ok).mpr hi
  constructor
  · exact ⟨Node.isZeroInput i, by simp only [InputTests.ofGraph, holdsZero, hin]; rfl⟩
  · exact ⟨Node.isOneInput i, by simp only [InputTests.ofGraph, holdsOne, hin]; rfl⟩

variable (hg : g.WellFormed) (hm : g.finalized = false) (ho : g.outputDecl? o = some e)
include hg hm ho

theorem ends_apply (hk : g.kind? o.node = some k) (hc : ∀ mode, k ≠ .clamp mode)
    {names : List String} (hn : k.hasInputs names = true) (clamped : Bool) {s : Shortcut}
    (hs : s.Within names) :
    (s.apply o clamped).Ends g fun _ => g.Folds o.node := by
  cases s with
  | keep => exact ends_pure (.refl hg)
  | passThrough name =>
    obtain ⟨slot, hslot⟩ := k.exists_inputSlot? hn hs
    exact ends_discard (ends_passThrough hg hm ho hk hc hslot clamped)
  | zero => exact ends_makeZero hg hm ho
  | one => exact ends_makeOne hg hm ho

/-- A shortcut is found and applied. -/
theorem ends_ask_apply (hk : g.kind? o.node = some k) (hc : ∀ mode, k ≠ .clamp mode)
    {names : List String} (hn : k.hasInputs names = true) (clamped : Bool)
    {q : Graph → Except Fault Shortcut} (hq : Found names (q g)) :
    (do let s ← ask q; s.apply o clamped).Ends g fun _ => g.Folds o.node := by
  obtain ⟨s, hs, hw⟩ := hq
  exact ends_ask_bind hs (ends_apply hg hm ho hk hc hn clamped hw)

theorem ends_foldMath {op : MathOp} {clamped : Bool} (hk : g.kind? o.node = some (.math op clamped)) :
    (foldMath o op).Ends g fun _ => g.Folds o.node :=
  ends_ask_apply hg hm ho hk nofun rfl false (op.found_shortcut (answer_ofGraph hg hk rfl))

theorem ends_foldVectorMath {op : VectorOp} (hk : g.kind? o.node = some (.vectorMath op)) :
    (foldVectorMath o op).Ends g fun _ => g.Folds o.node :=
  ends_ask_apply hg hm ho hk nofun rfl false (op.found_shortcut (answer_ofGraph hg hk rfl))

theorem ends_foldMix {mode : BlendMode} {clamped : Bool}
    (hk : g.kind? o.node = some (.mix mode clamped)) :
    (foldMix o mode clamped).Ends g fun _ => g.Folds o.node := by
  refine meets_ask_node_bind (fun n _ => ?_) fun hnone => by simp [hnone] at hk
  have hrest : ∀ g', g.Folds o.node g' → (do
      let s ← ask fun g => mode.shortcut (MixFacts.ofNode n) (.ofGraph g o.node)
      s.apply o clamped).Ends g' fun _ => g.Folds o.node := by
    intro g' h
    have hk' := h.evolves.kind?_some hk
    have hg' := h.evolves.wellFormed
    refine (ends_ask_apply hg' (h.evolves.finalized.trans hm) (h.evolves.outputDecl?_some hg ho) hk'
      nofun rfl clamped (mode.found_shortcut (answer_ofGraph hg' hk' rfl) _)).mono fun _ _ h' => ?_
    exact h.trans h'
  dsimp only
  split
  · refine Ends.bind (ends_passThrough hg hm ho hk nofun (i := 1) rfl clamped) fun b g' h => ?_
    split_ifs
    · exact ends_pure h
    · exact hrest g' h
  · exact hrest g (.refl hg)

omit hm in
/-- A conversion is left as it is, or a literal is stored in its consumers, or two conversions back and
forth are left out: what feeds the first one has the type of the second. -/
theorem ends_foldConvert_of {n : Node} (hn : g.node? o.node = some n) {source target : SocketType}
    {automatic : Bool} (hkind : n.kind = .convert source target automatic)
    {Q : Unit → Graph → Prop} (hidle : Q () g)
    (hconstant : ∀ l : Literal, l.hasShape e.type = true → (makeConstant o l).Ends g Q)
    (hback : ∀ s e', g.outputDecl? s = some e' → e'.type.linksTo e.type = true →
      ReflTransGen g.Relays s.node o.node → (redirect o s).Ends g Q) :
    (foldConvert o n source target).Ends g Q := by
  have hk : g.kind? o.node = some (.convert source target automatic) := by simp [kind?, hn, hkind]
  have hout : e.type = target := by rw [List.mem_singleton.mp (hg.mem_outputDecls hk ho)]
  unfold foldConvert
  split
  · exact ends_pure hidle
  · rename_i input hinput
    rw [List.head?_eq_getElem?] at hinput
    split
    · split_ifs with hliteral htriple
      · exact hconstant _ (hout ▸ Literal.hasShape_convert ..)
      · rw [Bool.and_eq_true] at htriple
        have hl : g.literalAt ⟨o.node, 0⟩ = some input.literal := by
          simp [literalAt, input?, hn, hinput]
        have hshape := hg.shaped _ _ _ (hg.inputDecl?_eq hk 0) hl
        exact hconstant _ (Literal.hasShape_of_isFloat3 hshape htriple.1 (hout ▸ htriple.2))
      · exact ends_pure hidle
    · rename_i feed hfeed
      have hl := (g.linkAt_of_getElem? hn hinput).trans hfeed
      obtain ⟨e', he'⟩ := hg.exists_output hl
      obtain ⟨k', hk'⟩ := g.kind?_of_outputDecl? he'
      refine meets_ask_node_bind (fun m hm' => ?_) fun hnone => by simp [hnone] at hk'
      split
      · rename_i first second automatic' j hkind' hj
        rw [List.head?_eq_getElem?] at hj
        split_ifs with hfit
        · split
          · rename_i origin horigin
            have hl' := (g.linkAt_of_getElem? hm' hj).trans horigin
            have hkm : g.kind? feed.node = some (.convert first second automatic') := by
              simp [kind?, hm', hkind']
            have hfirst : first = target := by
              simp only [Bool.and_eq_true, decide_eq_true_eq] at hfit
              exact hfit.1.1.1
            obtain ⟨e'', he'', hty⟩ := hg.fits_back hk ho hkm hl' hfirst
            exact hback origin e'' he'' hty
              (.head (relays_of_linkAt hl' (not_isClamp_of_kind? hkm (by simp)))
                (.single (relays_of_linkAt hl (not_isClamp_of_kind? hk (by simp)))))
          · exact ends_pure hidle
        · exact ends_pure hidle
      · exact ends_pure hidle

theorem ends_foldConvert {n : Node} (hn : g.node? o.node = some n) {source target : SocketType}
    {automatic : Bool} (hkind : n.kind = .convert source target automatic) :
    (foldConvert o n source target).Ends g fun _ => g.Folds o.node :=
  ends_foldConvert_of hg ho hn hkind (.refl hg)
    (fun l _ => (ends_makeConstant hg hm ho l).mono fun _ _ h => h.folds)
    fun _ _ he hty hs => (ends_redirect hg hm ho he hty).mono fun _ _ h => h.folds hs

theorem ends_foldBump {n : Node} (hn : g.node? o.node = some n) {invert objectSpace : Bool}
    (hkind : n.kind = .bump invert objectSpace) (hslot : o.slot = 0) :
    (foldBump o n).Ends g fun _ => g.FoldsBump o.node := by
  obtain ⟨x, slot⟩ := o
  cases hslot
  have hk : g.kind? x = some (.bump invert objectSpace) := by simp [kind?, hn, hkind]
  have hheight : n.link? "Height" = g.linkAt ⟨x, 0⟩ := hg.link?_eq hn (by rw [hkind]; rfl)
  have hnormal : n.link? "Normal" = g.linkAt ⟨x, 4⟩ := hg.link?_eq hn (by rw [hkind]; rfl)
  have hout : e.type = .normal := by rw [List.mem_singleton.mp (hg.mem_outputDecls hk ho)]
  unfold foldBump
  rw [Node.isLinked, hheight, hnormal]
  split
  · split
    · rename_i s hs
      exact (ends_redirect_input hg hm ho (hg.inputDecl?_eq hk 4) (by rw [hout]; rfl) hs).mono
        fun _ _ h => .normal hs h
    · rename_i hs
      have h₁ := evolves_push hg (Node.sound_ofKind .geometry)
      have hk₁ := g.kind?_push_self (Node.ofKind .geometry)
      refine ends_bind.mpr (ends_addKind hm ?_)
      refine ends_ask_bind (h₁.wellFormed.outputRef_eq hk₁ (i := 1) rfl) ?_
      exact (ends_redirect h₁.wellFormed (h₁.finalized.trans hm) (h₁.outputDecl?_some hg ho)
        (h₁.wellFormed.outputDecl?_eq hk₁ 1) (by rw [hout]; rfl)).mono fun _ _ h => .geometry hs h
  · rename_i hlinked
    exact ends_pure (.idle (Or.inl (by simpa [Option.isSome_iff_ne_none] using hlinked)))

theorem ends_foldMixClosure {n : Node} (hk : g.kind? o.node = some .mixClosure) :
    (foldMixClosure o n).Ends g fun _ => g.Folds o.node := by
  have hout : e.type = .closure := by rw [List.mem_singleton.mp (hg.mem_outputDecls hk ho)]
  unfold foldMixClosure
  dsimp only
  split_ifs
  · exact ends_redirectOrDrop hg hm ho hk nofun (i := 1) rfl (by rintro _ ⟨⟩; rw [hout]; rfl)
  · exact ends_redirectOrDrop hg hm ho hk nofun (i := 1) rfl (by rintro _ ⟨⟩; rw [hout]; rfl)
  · exact ends_redirectOrDrop hg hm ho hk nofun (i := 2) rfl (by rintro _ ⟨⟩; rw [hout]; rfl)
  · exact ends_pure (.refl hg)

theorem ends_foldAddClosure {n : Node} (hk : g.kind? o.node = some .addClosure) :
    (foldAddClosure o n).Ends g fun _ => g.Folds o.node := by
  have hout : e.type = .closure := by rw [List.mem_singleton.mp (hg.mem_outputDecls hk ho)]
  unfold foldAddClosure
  split_ifs
  · exact ends_redirectOrDrop hg hm ho hk nofun (i := 1) rfl (by rintro _ ⟨⟩; rw [hout]; rfl)
  · exact ends_redirectOrDrop hg hm ho hk nofun (i := 0) rfl (by rintro _ ⟨⟩; rw [hout]; rfl)
  · exact ends_pure (.refl hg)

theorem ends_foldOutput_of_ne_bump
    (hb : ∀ invert objectSpace, g.kind? o.node ≠ some (.bump invert objectSpace)) :
    (foldOutput o).Ends g fun _ => g.Folds o.node := by
  have hconstant : ∀ l, (makeConstant o l).Ends g fun _ => g.Folds o.node :=
    fun l => (ends_makeConstant hg hm ho l).mono fun _ _ h => h.folds
  refine meets_ask_node_bind (fun n hn => ?_) fun hnone => ?_
  · have hk : g.kind? o.node = some n.kind := by simp [kind?, hn]
    dsimp only
    cases hkind : n.kind with
    | value | color => exact hconstant _
    | convert source target _ => exact ends_foldConvert hg hm ho hn hkind
    | emission _ =>
      dsimp only
      split_ifs
      · exact (ends_dropConsumers hg hm ho).mono fun _ _ h => h.folds
      · exact ends_pure (.refl hg)
    | addClosure => exact ends_foldAddClosure hg hm ho (hkind ▸ hk)
    | mixClosure => exact ends_foldMixClosure hg hm ho (hkind ▸ hk)
    | math op clamped =>
      dsimp only
      split_ifs
      · exact hconstant _
      · exact ends_foldMath hg hm ho (hkind ▸ hk)
    | clamp mode =>
      dsimp only
      split_ifs
      · exact hconstant _
      · exact ends_pure (.refl hg)
    | vectorMath op =>
      dsimp only
      split
      · refine meets_ask_output_bind (fun out _ => ?_) fun hnone => by simp [hnone] at ho
        split_ifs
        · exact hconstant _
        · exact hconstant _
      · exact ends_foldVectorMath hg hm ho (hkind ▸ hk)
    | mix mode clamped =>
      dsimp only
      split_ifs
      · exact hconstant _
      · exact ends_foldMix hg hm ho (hkind ▸ hk)
    | bump invert objectSpace => exact absurd (hkind ▸ hk) (hb invert objectSpace)
    | displacement _ =>
      dsimp only
      split_ifs
      · exact ends_makeZero hg hm ho
      · exact ends_pure (.refl hg)
    | _ => exact ends_pure (.refl hg)
  · obtain ⟨k', hk'⟩ := g.kind?_of_outputDecl? ho
    simp [hnone] at hk'

omit ho

/-- A node other than a bump is folded without adding a node. -/
theorem ends_foldNode_of_ne_bump {id : NodeId} (hk : g.kind? id = some k)
    (hb : ∀ invert objectSpace, k ≠ .bump invert objectSpace) :
    (foldNode id).Ends g fun _ => g.Folds id := by
  refine meets_ask_node_bind (fun n hn => ?_) fun hnone => by simp [hnone] at hk
  refine ends_forM_mem (I := g.Folds id) (.refl hg) fun slot hslot g' h => ?_
  obtain ⟨e, he⟩ := (g.exists_outputDecl?_iff hn slot).mpr (List.mem_range.mp hslot)
  have he' := h.evolves.outputDecl?_some hg he
  refine ends_consumersOf_bind he' ?_
  split_ifs
  · refine (ends_foldOutput_of_ne_bump h.evolves.wellFormed (h.evolves.finalized.trans hm) he'
      fun invert objectSpace hbump => ?_).mono
        fun _ _ h' => h.trans h'
    rw [h.evolves.kind?_some hk] at hbump
    exact hb invert objectSpace (Option.some.inj hbump)
  · exact ends_pure h

/-- A bump has only one output to fold. -/
theorem ends_foldNode_bump {id : NodeId} {invert objectSpace : Bool}
    (hk : g.kind? id = some (.bump invert objectSpace)) :
    (foldNode id).Ends g fun _ => g.FoldsBump id := by
  refine meets_ask_node_bind (fun n hn => ?_) fun hnone => by simp [hnone] at hk
  have hkind : n.kind = .bump invert objectSpace := by simpa [kind?, hn] using hk
  have hlen : n.outputs.length = 1 := by
    rw [hg.length_outputs hn, hkind]
    rfl
  rw [hlen]
  refine Ends.bind (P := fun _ => g.FoldsBump id)
    (ends_consumersOf_bind (hg.outputDecl?_eq hk 0) ?_) fun _ _ h => ends_pure h
  split_ifs with hc
  · refine meets_ask_node_bind (fun m hm' => ?_) fun hnone => by simp [hnone] at hk
    obtain rfl : m = n := by simpa [hn] using hm'.symm
    rw [hkind]
    exact ends_foldBump (o := ⟨id, 0⟩) hg hm (hg.outputDecl?_eq hk 0) hn hkind rfl
  · exact ends_pure (.idle (Or.inr (by simpa using hc)))

/-- Folding a node adds a node only if it is a bump without a normal. -/
theorem ends_foldNode {id : NodeId} (hk : g.kind? id = some k) :
    (foldNode id).Ends g fun _ => g.Shortens (g.Around id) (g.LacksNormal id) := by
  by_cases hb : ∃ invert objectSpace, k = .bump invert objectSpace
  · obtain ⟨invert, objectSpace, rfl⟩ := hb
    exact (ends_foldNode_bump hg hm hk).mono fun _ _ h => h.shortens hg ⟨_, _, hk⟩
  · refine (ends_foldNode_of_ne_bump hg hm hk fun invert objectSpace h => hb ⟨_, _, h⟩).mono ?_
    exact fun _ _ h => h.shortens.mono (fun _ hr => hr) False.elim

end

/-! ### Propagation -/

/-- What folding a node does to the graph is done by folding all nodes, one after the other. -/
theorem ends_foldAll_of_foldNode {R : Graph → Graph → Prop} (hrefl : ∀ g, g.WellFormed → R g g)
    (htrans : ∀ g₁ g₂ g₃, R g₁ g₂ → R g₂ g₃ → R g₁ g₃)
    (hevolves : ∀ g g', R g g' → g.Evolves (fun _ => True) g')
    (hnode : ∀ g id k, g.WellFormed → g.finalized = false → g.kind? id = some k →
      (foldNode id).Ends g fun _ => R g) {g : Graph} {w : Worklist} (hg : g.WellFormed)
    (hm : g.finalized = false) (hw : w.Within g) : (foldAll w).Ends g fun _ => R g := by
  rw [foldAll.eq_def]
  split
  · exact ends_pure (hrefl g hg)
  · rename_i id w' hx
    have hsize := Worklist.size_next? hx
    obtain ⟨hid, hw'⟩ := hw.next hx
    obtain ⟨k, hk⟩ := (g.mem_ids_iff_kind?).mp hid
    refine ends_get_bind (Ends.bind (hnode g id k hg hm hk) fun _ g' h => ?_)
    have he := hevolves g g' h
    exact (ends_foldAll_of_foldNode hrefl htrans hevolves hnode he.wellFormed
      (he.finalized.trans hm) ((hw'.scheduleConsumers g id).mono fun _ => he.ids_subset)).mono
        fun _ g'' h' => htrans g g' g'' h h'
termination_by w.size
decreasing_by
  rw [Worklist.size_scheduleConsumers]
  omega

/-- Links are cut and moved up. -/
theorem ends_foldAll {w : Worklist} (hg : g.WellFormed) (hm : g.finalized = false)
    (hw : w.Within g) : (foldAll w).Ends g fun _ => g.Shortens (fun _ => True) True :=
  ends_foldAll_of_foldNode (fun _ => .refl) (fun _ _ _ => .trans) (fun _ _ h => h.evolves)
    (fun _ _ _ hg hm hk => (ends_foldNode hg hm hk).mono fun _ _ h =>
      h.mono (fun _ _ => trivial) fun _ => trivial) hg hm hw

/-- The displacement is linked again, through nodes that nothing else is linked to. -/
theorem ends_restoreDisplacement (hg : g.WellFormed) (hm : g.finalized = false)
    (hl : g.linkAt ⟨outputId, 2⟩ = none) : restoreDisplacement.Ends g fun _ g' =>
      g.Redisplaces g' ∧ g'.diagnostics = g.diagnostics := by
  have h₁ := evolves_push hg (Node.sound_ofKind .color)
  have hk₁ := g.kind?_push_self (Node.ofKind .color)
  refine meets_ask_node_bind (fun n _ => ?_) fun hn => by simp [hg.kind?_output] at hn
  refine ends_bind.mpr (ends_addKind hm ?_)
  rw [discard_bind]
  refine ends_bind.mpr (ends_storeNamed hk₁ fun _ => ?_)
  have h₂ := trims_storeNamed h₁.wellFormed g.idBound "Value" (.float3 (n.float3 "Displacement"))
  have hdiag : ((g.push (Node.ofKind .color)).modifyNode g.idBound
    (·.store "Value" (.float3 (n.float3 "Displacement")))).diagnostics = g.diagnostics := rfl
  generalize (g.push (Node.ofKind .color)).modifyNode g.idBound _ = g₂ at h₂ hdiag ⊢
  have h₁₂ := h₁.trans h₂.evolves
  have hlink : ∀ r, g₂.linkAt r = g.linkAt r := fun r => by rw [h₂.kept r id, linkAt_push]
  have hb₂ : g₂.idBound = g.idBound + 1 := h₂.idBound_eq.trans (by simp)
  have hk₂ := h₂.evolves.kind?_some hk₁
  have hk₀ := h₁₂.kind?_some hg.kind?_output
  have hj : g₂.Joinable ⟨g.idBound, 0⟩ ⟨"Color", .color⟩ ⟨outputId, 2⟩
      (.triple "Displacement" .vector 0) :=
    ⟨h₂.wellFormed.outputDecl?_eq hk₂ 0, h₂.wellFormed.inputDecl?_eq hk₀ 2, (hlink _).trans hl, rfl⟩
  refine ends_discard (ends_ask_bind (h₂.wellFormed.outputRef_eq hk₂ (i := 0) rfl) ?_)
  refine ends_ask_bind (h₂.wellFormed.inputRef_eq hk₀ (i := 2) rfl) ?_
  refine ends_connect_bridged (h₁₂.finalized.trans hm) hj rfl nofun nofun
    ⟨⟨h₁₂.widen.trans (evolves_bridged h₂.wellFormed hj), fun x => ?_, fun r => ?_⟩, hdiag⟩
  · rw [kind?_bridged, hb₂, h₂.kind?_eq, kind?_eq_layout?, layout?_push]
    split_ifs
    · rfl
    · rfl
    · exact (g.kind?_eq_layout? x).symm
  · rw [linkAt_bridged hj, hb₂, hlink]

theorem ends_displacementLinked_bind {k : Bool → Edit α} {Q : α → Graph → Prop}
    (hg : g.WellFormed) (h : (k (g.linkAt ⟨outputId, 2⟩).isSome).Ends g Q) :
    (displacementLinked >>= k).Ends g Q := by
  rw [displacementLinked, bind_assoc]
  refine meets_ask_node_bind (fun n hn => ?_) fun hn => by simp [hg.kind?_output] at hn
  have hkind : n.kind = .output := by simpa [kind?, hn] using hg.kind?_output
  have hl : n.link? "Displacement" = g.linkAt ⟨outputId, 2⟩ := hg.link?_eq hn (by rw [hkind]; rfl)
  rw [Node.isLinked, hl]
  exact h

/-- If folding has cut the link of the displacement, the displacement is restored, and `R` is what is
known of that. -/
theorem ends_propagateConstants_of {P : Graph → Prop} {R : Graph → Graph → Prop} (hg : g.WellFormed)
    (hm : g.finalized = false) (hP : (foldAll (.ofGraph g)).Ends g fun _ => P)
    (hR : ∀ g₁ : Graph, g₁.WellFormed → g₁.finalized = false → g₁.linkAt ⟨outputId, 2⟩ = none →
      restoreDisplacement.Ends g₁ fun _ => R g₁) :
    propagateConstants.Ends g fun _ g' => ∃ g₁, P g₁ ∧ g.Shortens (fun _ => True) True g₁ ∧
      if g.linkAt ⟨outputId, 2⟩ ≠ none ∧ g₁.linkAt ⟨outputId, 2⟩ = none then R g₁ g'
      else g' = g₁ := by
  refine ends_displacementLinked_bind hg (ends_get_bind ?_)
  refine Ends.bind (hP.and (ends_foldAll hg hm (Worklist.within_ofGraph g))) ?_
  rintro _ g₁ ⟨hP₁, h₁⟩
  refine ends_displacementLinked_bind h₁.evolves.wellFormed ?_
  have hlost : ((g.linkAt ⟨outputId, 2⟩).isSome && !(g₁.linkAt ⟨outputId, 2⟩).isSome) = true ↔
      g.linkAt ⟨outputId, 2⟩ ≠ none ∧ g₁.linkAt ⟨outputId, 2⟩ = none := by
    simp [Option.isSome_iff_ne_none]
  split_ifs with h
  · have h' := hlost.mp h
    refine (hR g₁ h₁.evolves.wellFormed (h₁.evolves.finalized.trans hm) h'.2).mono
      fun _ g' hg' => ⟨g₁, hP₁, h₁, ?_⟩
    rwa [if_pos h']
  · refine ends_pure ⟨g₁, hP₁, h₁, ?_⟩
    rw [if_neg (mt hlost.mpr h)]

theorem ends_propagateConstants_restores {P : Graph → Prop} (hg : g.WellFormed)
    (hm : g.finalized = false) (hP : (foldAll (.ofGraph g)).Ends g fun _ => P) :
    propagateConstants.Ends g fun _ g' => ∃ g₁, P g₁ ∧ g.Shortens (fun _ => True) True g₁ ∧
      if g.linkAt ⟨outputId, 2⟩ ≠ none ∧ g₁.linkAt ⟨outputId, 2⟩ = none then
        g₁.Redisplaces g' ∧ g'.diagnostics = g₁.diagnostics
      else g' = g₁ :=
  ends_propagateConstants_of hg hm hP fun _ => ends_restoreDisplacement

/-- **Constant propagation.** It never fails. It cuts links and moves them up, and if this has cut
the link of the displacement, it supplies another one. -/
theorem ends_propagateConstants {P : Graph → Prop} (hg : g.WellFormed) (hm : g.finalized = false)
    (hP : (foldAll (.ofGraph g)).Ends g fun _ => P) :
    propagateConstants.Ends g fun _ g' => ∃ g₁, P g₁ ∧ g.Shortens (fun _ => True) True g₁ ∧
      (g' = g₁ ∨ g₁.Redisplaces g') ∧
        (g'.linkAt ⟨outputId, 2⟩ = none ↔ g.linkAt ⟨outputId, 2⟩ = none) := by
  refine (ends_propagateConstants_restores hg hm hP).mono ?_
  rintro _ g' ⟨g₁, hP₁, h₁, h⟩
  refine ⟨g₁, hP₁, h₁, ?_⟩
  split_ifs at h with hlost
  · exact ⟨Or.inr h.1, by simp [h.1.linkAt_eq, hlost.1]⟩
  · subst h
    refine ⟨Or.inl rfl, fun hnone => ?_, h₁.linkAt_none⟩
    by_contra hsome
    exact hlost ⟨hsome, hnone⟩

end Edit

end Shading
