import Shading.Proofs.Acyclic
import Shading.Proofs.Linking

/-!
# Moving links

The consumers of an output can be moved to another output (`Redirects`), and a node can be taken out
of the flow of data on that occasion (`Bypasses`). If the types of the two outputs fit, every
consumer is linked again, and no node is added.

Most passes change links in two ways only: they cut a link, or they move it up, to an output from
which a path has led to the present one all along (`Shortens`). Such a change makes no new path
between nodes that were there before, so it makes no cycle, and what feeds nothing goes on feeding
nothing. No clamp is left out on the way (`Relays`). -/

namespace Shading

open Relation

/-- Types that fit are the same or both spatial, so this is an equivalence. -/
theorem SocketType.linksTo_trans {a b c : SocketType} (h : a.linksTo b = true)
    (h' : b.linksTo c = true) : a.linksTo c = true := by
  revert h h'
  cases a <;> cases b <;> cases c <;> decide

namespace Graph

/-- All consumers of the output `o` are moved to the output `s`. -/
structure Redirects (o s : OutputRef) (g g' : Graph) : Prop where
  evolves : g.Evolves (g.linkAt · = some o) g'
  idBound_eq : g'.idBound = g.idBound
  moved : ∀ r, g.linkAt r = some o → g'.linkAt r = some s

/-- All consumers of the output `o` are moved to the output `s`, and the other inputs of a node are
unlinked. -/
structure Bypasses (id : NodeId) (o s : OutputRef) (g g' : Graph) : Prop where
  evolves : g.Evolves (fun r => r.node = id ∨ g.linkAt r = some o) g'
  idBound_eq : g'.idBound = g.idBound
  moved : ∀ r, g.linkAt r = some o → g'.linkAt r = some s
  cut : ∀ r, r.node = id → g.linkAt r ≠ some o → g'.linkAt r = none

/-- `a` feeds `b`, which is no clamp. -/
def Relays (g : Graph) (a b : NodeId) : Prop := g.Feeds a b ∧ ¬ g.IsClamp b

/-- A geometry node that was not there before. -/
def NewGeometry (g g' : Graph) (x : NodeId) : Prop :=
  g.idBound ≤ x ∧ g'.kind? x = some .geometry

/-- Links are cut, or moved up to an output from which a path leads to the one that was linked. If
`N` holds, they may also be moved to new nodes, which nothing feeds. Inputs where `T` does not hold
are left alone. -/
structure Shortens (T : InputRef → Prop) (N : Prop) (g g' : Graph) : Prop where
  evolves : g.Evolves T g'
  moved : ∀ r s, g'.linkAt r = some s → ∃ o, g.linkAt r = some o ∧
    (ReflTransGen g.Relays s.node o.node ∨ N ∧ g.NewGeometry g' s.node)

variable {g g' : Graph} {o s : OutputRef} {T T' : InputRef → Prop} {N N' : Prop}

theorem node_lt_of_linkAt {r : InputRef} (h : g.linkAt r ≠ none) : r.node < g.idBound := by
  by_contra hle
  exact h (linkAt_of_idBound_le (Nat.not_lt.mp hle))

theorem WellFormed.source_lt (hg : g.WellFormed) {r : InputRef} (h : g.linkAt r = some o) :
    o.node < g.idBound :=
  g.lt_idBound_of_mem (hg.mem_ids_of_feeds (feeds_of_linkAt h)).1

theorem not_isClamp_of_kind? {x : NodeId} {k : NodeKind} (hk : g.kind? x = some k)
    (hc : ∀ mode, k ≠ .clamp mode) : ¬ g.IsClamp x := by
  rintro ⟨mode, hk'⟩
  exact hc mode (Option.some.inj (hk.symm.trans hk'))

theorem relays_of_linkAt {r : InputRef} (h : g.linkAt r = some o) (hr : ¬ g.IsClamp r.node) :
    g.Relays o.node r.node := ⟨feeds_of_linkAt h, hr⟩

theorem reflTransGen_feeds {a b : NodeId} (h : ReflTransGen g.Relays a b) :
    ReflTransGen g.Feeds a b := h.lift (fun x => x) fun _ _ hab => hab.1

/-- If no node is added, the links outside of `T` are all the same. -/
theorem Evolves.linkAt_same (h : g.Evolves T g') (hb : g'.idBound = g.idBound) {r : InputRef}
    (hr : ¬ T r) : g'.linkAt r = g.linkAt r := by
  by_cases hlt : r.node < g.idBound
  · exact h.linkAt_eq r hlt hr
  · have hle := Nat.not_lt.mp hlt
    rw [linkAt_of_idBound_le hle, linkAt_of_idBound_le (hb ▸ hle)]

theorem Redirects.linkAt_eq (h : g.Redirects o s g') (r : InputRef) :
    g'.linkAt r = if g.linkAt r = some o then some s else g.linkAt r := by
  split_ifs with hr
  · exact h.moved r hr
  · exact h.evolves.linkAt_same h.idBound_eq hr

theorem Bypasses.linkAt_eq {id : NodeId} (h : g.Bypasses id o s g') (r : InputRef) :
    g'.linkAt r =
      if g.linkAt r = some o then some s else if r.node = id then none else g.linkAt r := by
  split_ifs with hr hid
  · exact h.moved r hr
  · exact h.cut r hid hr
  · exact h.evolves.linkAt_same h.idBound_eq (not_or.mpr ⟨hid, hr⟩)

/-! ### Shortened links -/

theorem Redirects.shortens (h : g.Redirects o s g') (hs : ReflTransGen g.Relays s.node o.node) :
    g.Shortens (g.linkAt · = some o) N g' := by
  refine ⟨h.evolves, fun r s' hs' => ?_⟩
  rw [h.linkAt_eq] at hs'
  split_ifs at hs' with hr
  · cases hs'
    exact ⟨o, hr, Or.inl hs⟩
  · exact ⟨s', hs', Or.inl .refl⟩

/-- A node is bypassed by linking its consumers to what feeds it. -/
theorem Bypasses.shortens {id : NodeId} (h : g.Bypasses id o s g') (hs : g.Relays s.node o.node) :
    g.Shortens (fun r => r.node = id ∨ g.linkAt r = some o) False g' := by
  refine ⟨h.evolves, fun r s' hs' => ?_⟩
  rw [h.linkAt_eq] at hs'
  split_ifs at hs' with hr
  · cases hs'
    exact ⟨o, hr, Or.inl (.single hs)⟩
  · exact ⟨s', hs', Or.inl .refl⟩

theorem Trims.shortens (h : g.Trims T g') : g.Shortens T N g' :=
  ⟨h.evolves, fun _ s hs => ⟨s, (h.linkAt_some hs).1, Or.inl .refl⟩⟩

namespace Shortens

theorem refl (hg : g.WellFormed) : g.Shortens T N g :=
  ⟨.refl hg, fun _ s hs => ⟨s, hs, Or.inl .refl⟩⟩

theorem mono (h : g.Shortens T N g') (hT : ∀ r, T r → T' r) (hN : N → N') : g.Shortens T' N' g' := by
  refine ⟨h.evolves.mono hT, fun r s hs => ?_⟩
  obtain ⟨o, ho, hp⟩ := h.moved r s hs
  exact ⟨o, ho, hp.imp_right fun hr => ⟨hN hr.1, hr.2⟩⟩

theorem linked (h : g.Shortens T N g') {r : InputRef} (hs : g'.linkAt r = some s) :
    g.linkAt r ≠ none := by
  obtain ⟨o, ho, -⟩ := h.moved r s hs
  simp [ho]

theorem feeds (h : g.Shortens T N g') {a b : NodeId} (hab : g'.Feeds a b) :
    TransGen g.Feeds a b ∨ N ∧ g.idBound ≤ a := by
  obtain ⟨r, s, hs, rfl, rfl⟩ := hab
  obtain ⟨o, ho, hp⟩ := h.moved r s hs
  exact hp.imp (fun hp => .tail' (reflTransGen_feeds hp) (feeds_of_linkAt ho))
    fun hp => ⟨hp.1, hp.2.1⟩

/-- A node that is fed is not new. -/
theorem lt_idBound (h : g.Shortens T N g') {a b : NodeId} (hab : g'.Feeds a b) : b < g.idBound := by
  obtain ⟨r, s, hs, -, rfl⟩ := hab
  exact node_lt_of_linkAt (h.linked hs)

/-- Every path is an old one, unless it starts at a new node. -/
theorem transGen (h : g.Shortens T N g') {a b : NodeId} (hab : TransGen g'.Feeds a b) :
    TransGen g.Feeds a b ∨ N ∧ g.idBound ≤ a := by
  induction hab with
  | single hab => exact h.feeds hab
  | tail hac hcb ih =>
    refine ih.imp_left fun ih => ?_
    rcases h.feeds hcb with hp | ⟨-, hle⟩
    · exact ih.trans hp
    · obtain ⟨c, -, hc⟩ := TransGen.tail'_iff.mp hac
      exact absurd (h.lt_idBound hc) (Nat.not_lt.mpr hle)

/-- A path between old nodes that leads through no clamp did so before. -/
theorem relays (h : g.Shortens T N g') {a b : NodeId} (ha : ¬ (N ∧ g.NewGeometry g' a))
    (hab : ReflTransGen g'.Relays a b) : ReflTransGen g.Relays a b := by
  induction hab using ReflTransGen.head_induction_on with
  | refl => exact .refl
  | head hac _ ih =>
    obtain ⟨⟨r, s, hs, rfl, rfl⟩, hclamp⟩ := hac
    obtain ⟨o, ho, hp⟩ := h.moved r s hs
    have hclamp' : ¬ g.IsClamp r.node := fun ⟨mode, hk⟩ => hclamp ⟨mode, h.evolves.kind?_some hk⟩
    have hold : ¬ (N ∧ g.NewGeometry g' r.node) := fun hn =>
      absurd (node_lt_of_linkAt (h.linked hs)) (Nat.not_lt.mpr hn.2.1)
    exact (hp.resolve_right ha).trans (.head (relays_of_linkAt ho hclamp') (ih hold))

theorem trans_fresh {g₁ g₂ g₃ : Graph} (h : g₁.Shortens T N g₂) (h' : g₂.Shortens T' N g₃)
    (hT : ∀ r, T' r → T r ∨ g₁.idBound ≤ r.node) : g₁.Shortens T N g₃ := by
  refine ⟨h.evolves.trans_fresh h'.evolves hT, fun r s hs => ?_⟩
  obtain ⟨o', ho', hp'⟩ := h'.moved r s hs
  obtain ⟨o, ho, hp⟩ := h.moved r o' ho'
  refine ⟨o, ho, ?_⟩
  rcases hp' with hp' | ⟨hN, hle, hk⟩
  · by_cases hnew : N ∧ g₁.NewGeometry g₂ s.node
    · exact Or.inr ⟨hnew.1, hnew.2.1, h'.evolves.kind?_some hnew.2.2⟩
    refine Or.inl ((h.relays hnew hp').trans (hp.resolve_right fun hn => ?_))
    -- nothing feeds a new node, so the path to it is empty
    rcases ReflTransGen.cases_tail hp' with heq | ⟨c, -, hc⟩
    · exact hnew (heq ▸ hn)
    · exact Nat.not_lt.mpr hn.2.1 (h.lt_idBound hc.1)
  · exact Or.inr ⟨hN, Nat.le_trans h.evolves.idBound_le hle, hk⟩

theorem trans {g₁ g₂ g₃ : Graph} (h : g₁.Shortens T N g₂) (h' : g₂.Shortens T N g₃) :
    g₁.Shortens T N g₃ := h.trans_fresh h' fun _ => Or.inl

theorem linkAt_none (h : g.Shortens T N g') {r : InputRef} (hr : g.linkAt r = none) :
    g'.linkAt r = none := by
  cases ho : g'.linkAt r with
  | none => rfl
  | some o => exact absurd hr (h.linked ho)

/-- What feeds nothing goes on feeding nothing. -/
theorem unused (h : g.Shortens T N g') {x : NodeId} (hx : g.Unused x) (hlt : x < g.idBound) :
    g'.Unused x := by
  rintro r s hs rfl
  rcases h.feeds (feeds_of_linkAt hs) with hp | ⟨-, hle⟩
  · obtain ⟨_, ⟨r', o', hr', hx', -⟩, -⟩ := TransGen.head'_iff.mp hp
    exact hx r' o' hr' hx'
  · exact Nat.not_lt.mpr hle hlt

theorem acyclic (h : g.Shortens T N g') (hac : g.Acyclic) : g'.Acyclic := by
  intro id hid
  rcases h.transGen hid with hp | ⟨-, hle⟩
  · exact hac id hp
  · obtain ⟨c, -, hc⟩ := TransGen.tail'_iff.mp hid
    exact Nat.not_lt.mpr hle (h.lt_idBound hc)

/-- Where links could not be followed backwards forever, they still cannot. -/
theorem acc (h : g.Shortens T N g') {x : NodeId} (hx : Acc g.Feeds x) : Acc g'.Feeds x := by
  replace hx := hx.transGen
  induction hx with
  | intro x _ ih =>
    refine ⟨x, fun a ha => ?_⟩
    rcases h.feeds ha with hp | ⟨-, hle⟩
    · exact ih a hp
    · exact ⟨a, fun c hc => absurd (h.lt_idBound hc) (Nat.not_lt.mpr hle)⟩

/-- If links could not be followed backwards forever from an input, they still cannot. -/
theorem acc_source (h : g.Shortens T N g') {r : InputRef}
    (hr : ∀ o, g.linkAt r = some o → Acc g.Feeds o.node) {s : OutputRef}
    (hs : g'.linkAt r = some s) : Acc g'.Feeds s.node := by
  obtain ⟨o, ho, hp | ⟨-, hle, -⟩⟩ := h.moved r s hs
  · refine h.acc ?_
    rcases reflTransGen_iff_eq_or_transGen.mp (reflTransGen_feeds hp) with heq | hp
    · exact heq ▸ hr o ho
    · exact (hr o ho).inv_of_transGen hp
  · exact ⟨_, fun c hc => absurd (h.lt_idBound hc) (Nat.not_lt.mpr hle)⟩

end Shortens

end Graph

namespace Edit

open Shading.Graph

variable {g : Graph} {o s : OutputRef} {e e' : OutputDecl}

/-- A free input of a fitting type is linked. -/
theorem ends_connect_free {t : InputRef} {d : InputDecl} (hg : g.WellFormed)
    (hm : g.finalized = false) (hj : g.Joinable s e t d) (hty : e.type.linksTo d.type = true) :
    (connect s t).Ends g fun _ g' =>
      g.Evolves (· = t) g' ∧ g'.idBound = g.idBound ∧ g'.linkAt t = some s := by
  refine ends_connect_linked hm hj hty ⟨?_, g.idBound_link s t, ?_⟩
  · exact evolves_link hg hj.source hj.target hj.free hj.linkable hty
  · rw [g.linkAt_link (by simp [hj.target]), if_pos rfl]

/-- A loop of which each step links one input to an output, whether it was linked before or not. -/
theorem ends_forM_link {f : InputRef → Edit Unit} {targets : List InputRef} (hg : g.WellFormed)
    (hnd : targets.Nodup)
    (step : ∀ t ∈ targets, ∀ g', g.Evolves (· ≠ t) g' → g'.idBound = g.idBound →
      (f t).Ends g' fun _ g'' =>
        g'.Evolves (· = t) g'' ∧ g''.idBound = g'.idBound ∧ g''.linkAt t = some s) :
    (targets.forM f).Ends g fun _ g' => g.Evolves (· ∈ targets) g' ∧ g'.idBound = g.idBound ∧
      ∀ t ∈ targets, g'.linkAt t = some s := by
  refine (ends_forM (fun rest g' => ∃ done, targets = done ++ rest ∧ g.Evolves (· ∈ done) g' ∧
    g'.idBound = g.idBound ∧ ∀ t ∈ done, g'.linkAt t = some s)
      ⟨[], rfl, .refl hg, rfl, by simp⟩ ?_).mono ?_
  · rintro t rest g' ⟨done, rfl, h, hb, hl⟩
    have hnot : t ∉ done := fun ht => (List.nodup_append.mp hnd).2.2 t ht t List.mem_cons_self rfl
    refine (step t (by simp) g' (h.mono fun r hr heq => hnot (heq ▸ hr)) hb).mono ?_
    rintro _ g'' ⟨h', hb', hl'⟩
    refine ⟨done ++ [t], by simp, ?_, hb'.trans hb, fun t' ht' => ?_⟩
    · exact (h.mono fun r hr => List.mem_append_left _ hr).trans
        (h'.mono fun r hr => by simp [hr])
    · rcases List.mem_append.mp ht' with ht' | ht'
      · have hlt : t'.node < g'.idBound := node_lt_of_linkAt (by simp [hl t' ht'])
        rw [h'.linkAt_eq t' hlt fun heq => hnot (heq ▸ ht')]
        exact hl t' ht'
      · rw [List.mem_singleton.mp ht']
        exact hl'
  · rintro _ g' ⟨done, hdone, h⟩
    rw [List.append_nil] at hdone
    exact hdone ▸ h

/-- An input that was freed is linked to an output of a fitting type. `t` was linked to `o` before.
-/
theorem joinable_of_linkAt {g₁ : Graph} {t : InputRef} {T : InputRef → Prop} (hg : g.WellFormed)
    (ho : g.outputDecl? o = some e) (hs : g.outputDecl? s = some e')
    (hty : e'.type.linksTo e.type = true) (ht : g.linkAt t = some o) (h : g.Evolves T g₁)
    (hfree : g₁.linkAt t = none) :
    ∃ d, g₁.Joinable s e' t d ∧ e'.type.linksTo d.type = true := by
  obtain ⟨d, hd⟩ := g.inputDecl?_of_linkAt ht
  obtain ⟨hl, hty'⟩ := hg.typed t o d e ht hd ho
  exact ⟨d, ⟨h.outputDecl?_some hg hs, h.inputDecl?_some hg hd, hfree, hl⟩,
    SocketType.linksTo_trans hty hty'⟩

theorem ends_relinkOutput (hg : g.WellFormed) (hm : g.finalized = false)
    (ho : g.outputDecl? o = some e) (hs : g.outputDecl? s = some e')
    (hty : e'.type.linksTo e.type = true) :
    (relinkOutput o (some s)).Ends g fun _ => g.Redirects o s := by
  refine meets_requireMutable_bind (fun _ => ?_) fun hf => by simp [hm] at hf
  refine ends_consumersOf_bind ho ?_
  refine (ends_forM_link (s := s) hg (hg.nodup o) fun t ht g' h hb => ?_).mono ?_
  · have hl := (hg.link_iff t o).mpr ht
    have hl' := (h.linkAt_eq t (node_lt_of_linkAt (by simp [hl])) (by simp)).trans hl
    refine Ends.bind (ends_disconnectInput h.wellFormed (h.finalized.trans hm) hl') fun _ g₁ h₁ => ?_
    obtain ⟨d, hj, hfit⟩ := joinable_of_linkAt hg ho hs hty hl (h.grows.trans h₁.evolves.grows)
      (h₁.cut t rfl)
    refine ends_discard ((ends_connect_free h₁.wellFormed
      (h₁.finalized.trans (h.finalized.trans hm)) hj hfit).mono ?_)
    rintro _ g₂ ⟨h₂, hb₂, hl₂⟩
    exact ⟨h₁.evolves.trans h₂, hb₂.trans h₁.idBound_eq, hl₂⟩
  · rintro _ g' ⟨h, hb, hl⟩
    exact ⟨h.mono fun r hr => (hg.link_iff r o).mpr hr, hb,
      fun r hr => hl r ((hg.link_iff r o).mp hr)⟩

theorem ends_bypass (hg : g.WellFormed) (hm : g.finalized = false) {id : NodeId} {k : NodeKind}
    (hk : g.kind? id = some k) (ho : g.outputDecl? o = some e) (hs : g.outputDecl? s = some e')
    (hty : e'.type.linksTo e.type = true) :
    (bypass id o (some s)).Ends g fun _ => g.Bypasses id o s := by
  refine meets_requireMutable_bind (fun _ => ?_) fun hf => by simp [hm] at hf
  refine ends_consumersOf_bind ho ?_
  refine Ends.bind ((meets_disconnectNodeInputs hg id).ends fun _ he => by simp [hm, hk] at he)
    fun _ g₁ h₁ => ?_
  have hm₁ := h₁.finalized.trans hm
  refine Ends.bind (ends_forM_link (s := s) h₁.wellFormed (hg.nodup o) fun t ht g' h hb => ?_) ?_
  · have hl := (hg.link_iff t o).mpr ht
    obtain ⟨d, hd⟩ := g.inputDecl?_of_linkAt hl
    have h' := h₁.evolves.grows.trans h.grows
    refine Ends.bind (ends_disconnectIfLinked h.wellFormed (h.finalized.trans hm₁)
      (h'.inputDecl?_some hg hd)) fun _ g₂ h₂ => ?_
    obtain ⟨d, hj, hfit⟩ := joinable_of_linkAt hg ho hs hty hl (h'.trans h₂.evolves.grows)
      (h₂.cut t rfl)
    refine ends_discard ((ends_connect_free h₂.wellFormed
      (h₂.finalized.trans (h.finalized.trans hm₁)) hj hfit).mono ?_)
    rintro _ g₃ ⟨h₃, hb₃, hl₃⟩
    exact ⟨h₂.evolves.trans h₃, hb₃.trans h₂.idBound_eq, hl₃⟩
  · rintro _ g₂ ⟨h₂, hb₂, hl₂⟩
    have h₁₂ : g.Evolves (fun r => r.node = id ∨ g.linkAt r = some o) g₂ :=
      (h₁.evolves.mono fun _ => Or.inl).trans
        (h₂.mono fun r hr => Or.inr ((hg.link_iff r o).mpr hr))
    refine ends_modify ⟨h₁₂.trans (evolves_touch h₁₂.wellFormed).widen, ?_, fun r hr => ?_, ?_⟩
    · exact hb₂.trans h₁.idBound_eq
    · exact hl₂ r ((hg.link_iff r o).mp hr)
    · intro r hid hr
      have hnot : r ∉ g.fanOut o := fun h => hr ((hg.link_iff r o).mpr h)
      have hlt : r.node < g₁.idBound := h₁.idBound_eq ▸ hid ▸ g.lt_idBound_of_kind? hk
      exact (h₂.linkAt_eq r hlt hnot).trans (h₁.cut r hid)

end Edit

end Shading
