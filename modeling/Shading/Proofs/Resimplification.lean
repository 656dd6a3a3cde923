import Shading.Proofs.Compilation
import Shading.Proofs.Schedule

/-!
# Simplifying twice

A simplified graph that is edited is simplified once more, from the start. By then the heights of
its bumps have been replaced by samples, and constant propagation takes a bump without a height for
one that does nothing. So the bumps do not survive.

A bump is folded as soon as all nodes that lead to it have been handed out (`Graph.Collapsing`). The
exception are bumps behind which some bump has lost its normal, since what depends on the geometry
node that is added then is never handed out. Of all nodes that feed normals only conversions,
operations on vectors and displacements may be folded, and bumps, which pass their own normal on. -/

namespace Shading

open Relation

/-- Kinds of nodes that may be folded although they have a vector as an output. -/
def NodeKind.foldsVector : NodeKind → Bool
  | .convert .. | .vectorMath _ | .displacement _ => true
  | _ => false

namespace Graph

variable {g g' : Graph} {S : Set NodeId} {a b x : NodeId}

def FoldsVector (g : Graph) (x : NodeId) : Prop := ∃ k, g.kind? x = some k ∧ k.foldsVector = true

/-- The normals of all bumps that lead to a node come from nodes that are not folded, or from bumps.
-/
def FirmNormals (g : Graph) (b : NodeId) : Prop :=
  ∀ a, g.IsBump a → TransGen g.Feeds a b → ∀ o, g.linkAt ⟨a, 4⟩ = some o → ¬ g.FoldsVector o.node

/-- `S` contains all nodes that lead to `b`, which is a bump without a height. All other bumps in
`S` have a normal that comes from a node that is not folded, or from a bump. -/
structure Collapsing (S : Set NodeId) (b : NodeId) (g : Graph) : Prop where
  mem : b ∈ S
  within : ∀ a ∈ S, a ∈ g.ids
  closed : ∀ a c, g.Feeds a c → c ∈ S → a ∈ S
  isBump : g.IsBump b
  height : g.linkAt ⟨b, 0⟩ = none
  normal : ∀ a ∈ S, a ≠ b → g.IsBump a → ∃ o, g.linkAt ⟨a, 4⟩ = some o ∧ ¬ g.FoldsVector o.node

theorem isBump_congr (h : g'.kind? x = g.kind? x) : g'.IsBump x ↔ g.IsBump x := by
  rw [IsBump, IsBump, h]

theorem foldsVector_congr (h : g'.kind? x = g.kind? x) : g'.FoldsVector x ↔ g.FoldsVector x := by
  rw [FoldsVector, FoldsVector, h]

/-- What a bump takes as its normal is a vector. -/
theorem IsBump.normal_type (h : g.IsBump a) (hg : g.WellFormed) {o : OutputRef}
    (ho : g.linkAt ⟨a, 4⟩ = some o) {k : NodeKind} (hk : g.kind? o.node = some k) :
    ∃ e ∈ k.outputDecls, e.type.linksTo .normal = true := by
  obtain ⟨invert, objectSpace, hka⟩ := h
  obtain ⟨e, he⟩ := hg.exists_output ho
  exact ⟨e, hg.mem_outputDecls hk he, (hg.typed _ o _ e ho (hg.inputDecl?_eq hka 4) he).2⟩

/-- A bump without a height feeds nothing after it was folded. -/
theorem FoldsBump.unused (h : g.FoldsBump x g') (hg : g.WellFormed) (hk : g.IsBump x)
    (hheight : g.linkAt ⟨x, 0⟩ = none) (hloop : ¬ g.Feeds x x) : g'.Unused x := by
  cases h with
  | idle h =>
    intro r o ho hox
    rw [hk.slot_eq hg ho hox] at ho
    rcases h with h | h
    · exact h hheight
    · have hmem := (hg.link_iff r ⟨x, 0⟩).mp ho
      rw [h] at hmem
      cases hmem
  | normal hs h =>
    refine hk.unused_of_redirects hg (fun _ => rfl) h fun hsx => hloop ?_
    exact hsx ▸ feeds_of_linkAt hs
  | geometry hs h =>
    exact hk.unused_of_redirects hg (g.linkAt_push _) h (Nat.ne_of_gt hk.lt_idBound)

namespace Collapsing

theorem bounded (h : g.Collapsing S b) (a : NodeId) (ha : a ∈ S) : a < g.idBound :=
  g.lt_idBound_of_mem (h.within a ha)

theorem mem_of_reflTransGen (h : g.Collapsing S b) {c : NodeId} (hac : ReflTransGen g.Feeds a c)
    (hc : c ∈ S) : a ∈ S := by
  induction hac using ReflTransGen.head_induction_on with
  | refl => exact hc
  | head hab _ ih => exact h.closed _ _ hab ih

/-- A change goes on as it should if it adds no node that feeds `S`, and leaves the bumps in `S`
their normals. -/
theorem step {N : Prop} {T : InputRef → Prop} (h : g.Collapsing S b) (h' : g.Shortens T N g')
    (hN : N → ∀ r, r.node ∈ S → ¬ T r)
    (hnormal : ∀ a ∈ S, a ≠ b → g.IsBump a → ∀ o, g.linkAt ⟨a, 4⟩ = some o →
      ¬ g.FoldsVector o.node → ∃ s, g'.linkAt ⟨a, 4⟩ = some s ∧ ¬ g.FoldsVector s.node) :
    g'.Collapsing S b := by
  have hclosed : ∀ r s, g'.linkAt r = some s → r.node ∈ S → s.node ∈ S := by
    intro r s hs hr
    obtain ⟨o, ho, hp | ⟨hn, -⟩⟩ := h'.moved r s hs
    · exact h.mem_of_reflTransGen (reflTransGen_feeds hp) (h.closed _ _ (feeds_of_linkAt ho) hr)
    · rw [h'.evolves.linkAt_eq r (h.bounded _ hr) (hN hn r hr)] at hs
      exact h.closed _ _ (feeds_of_linkAt hs) hr
  have hkind : ∀ a ∈ S, g'.kind? a = g.kind? a := fun a ha =>
    h'.evolves.kind?_eq a (h.bounded a ha)
  refine ⟨h.mem, fun a ha => h'.evolves.ids_subset (h.within a ha), ?_,
    (isBump_congr (hkind b h.mem)).mpr h.isBump, h'.linkAt_none h.height, fun a ha hne hbump => ?_⟩
  · rintro _ _ ⟨r, o, ho, rfl, rfl⟩ hr
    exact hclosed r o ho hr
  · rw [isBump_congr (hkind a ha)] at hbump
    obtain ⟨o, ho, hv⟩ := h.normal a ha hne hbump
    obtain ⟨s, hs, hv'⟩ := hnormal a ha hne hbump o ho hv
    exact ⟨s, hs, (foldsVector_congr (hkind _ (hclosed _ s hs ha))).not.mpr hv'⟩

end Collapsing

/-! ### Before constants are propagated -/

/-- New nodes are the owners of default sources. -/
theorem Sourced.lt_idBound (h : g.Sourced g') {k : NodeKind} (hk : g'.kind? a = some k)
    (hne : ∀ owner : SharedNode, k ≠ owner.kind) : a < g.idBound := by
  by_contra hle
  obtain ⟨owner, ho⟩ := h.kind?_new a k (Nat.not_lt.mp hle) hk
  exact hne owner ho

theorem Sourced.isBump (h : g.Sourced g') (ha : g'.IsBump a) : g.IsBump a := by
  have ⟨invert, objectSpace, hk⟩ := ha
  have hlt := h.lt_idBound hk fun owner => by cases owner <;> nofun
  exact (isBump_congr (h.evolves.kind?_eq a hlt)).mp ha

/-- A bump without a height in a graph without cycles, behind which all normals are firm. -/
structure FlatBump (b : NodeId) (g : Graph) : Prop where
  isBump : g.IsBump b
  height : g.linkAt ⟨b, 0⟩ = none
  firm : g.FirmNormals b
  acyclic : g.Acyclic

namespace FlatBump

theorem lt_idBound (h : g.FlatBump b) : b < g.idBound := by
  obtain ⟨invert, objectSpace, hk⟩ := h.isBump
  exact g.lt_idBound_of_kind? hk

/-- A change that makes no new path to the bump and gives no bump a normal that is folded. -/
theorem transport (h : g.FlatBump b) (hkind : g'.kind? b = g.kind? b)
    (hheight : g'.linkAt ⟨b, 0⟩ = none) (hac : g'.Acyclic)
    (hpath : ∀ a, g'.IsBump a → TransGen g'.Feeds a b → g.IsBump a ∧ TransGen g.Feeds a b)
    (hnormal : ∀ a o, g.IsBump a → g'.linkAt ⟨a, 4⟩ = some o → g'.FoldsVector o.node →
      ∃ o', g.linkAt ⟨a, 4⟩ = some o' ∧ g.FoldsVector o'.node) : g'.FlatBump b := by
  refine ⟨(isBump_congr hkind).mpr h.isBump, hheight, fun a ha hab o ho hv => ?_, hac⟩
  obtain ⟨ha', hab'⟩ := hpath a ha hab
  obtain ⟨o', ho', hv'⟩ := hnormal a o ha' ho hv
  exact h.firm a ha' hab' o' ho' hv'

theorem push (h : g.FlatBump b) (hg : g.WellFormed) (k : NodeKind) :
    (g.push (.ofKind k)).FlatBump b := by
  have h' := evolves_push hg (Node.sound_ofKind k)
  have hfeeds : (g.push (.ofKind k)).Feeds = g.Feeds := by
    funext a c
    simp only [Feeds, linkAt_push]
  refine h.transport (h'.kind?_eq b h.lt_idBound) ((g.linkAt_push _ _).trans h.height)
    (fun x hx => h.acyclic x (hfeeds ▸ hx)) (fun a ha hab => ?_) fun a o ha ho hv => ?_
  · rw [hfeeds] at hab
    obtain ⟨_, hac, -⟩ := TransGen.head'_iff.mp hab
    have hlt := g.lt_idBound_of_mem (hg.mem_ids_of_feeds hac).1
    exact ⟨(isBump_congr (h'.kind?_eq a hlt)).mp ha, hab⟩
  · rw [linkAt_push] at ho
    exact ⟨o, ho, (foldsVector_congr (h'.kind?_eq _ (hg.source_lt ho))).mp hv⟩

/-- Conversions may be bypassed and removed. -/
theorem removes {g₁ : Graph} {removed : List NodeId} (h : g.FlatBump b)
    (h₁ : g.Shortens g.AtConvert False g₁) (hb₁ : g₁.idBound = g.idBound)
    (hremoved : ∀ c ∈ removed, g.IsConvert c) (h' : g₁.Removes removed g') : g'.FlatBump b := by
  have hbump : ∀ {a}, g.IsBump a → ¬ g.IsConvert a := by
    rintro a ⟨_, _, hk⟩ ⟨_, _, _, hk'⟩
    rw [hk] at hk'
    cases hk'
  have hkind : ∀ {x k}, g'.kind? x = some k → g.kind? x = some k := by
    intro x k hk
    rw [h'.kind?_eq] at hk
    split_ifs at hk
    rwa [h₁.evolves.kind?_same hb₁] at hk
  have hpath : ∀ {a c}, TransGen g'.Feeds a c → TransGen g.Feeds a c := by
    intro a c hac
    refine (h₁.transGen (hac.lift (fun x => x) ?_)).resolve_right fun hn => hn.1
    rintro _ _ ⟨r, o, ho, rfl, rfl⟩
    exact feeds_of_linkAt ((h'.linkAt_iff r o).mp ho).1
  refine h.transport ?_ ?_ (fun x hx => h.acyclic x (hpath hx)) (fun a ha hab => ⟨?_, hpath hab⟩) ?_
  · rw [h'.kind?_eq, if_neg fun hb => hbump h.isBump (hremoved b hb.2), h₁.evolves.kind?_same hb₁]
  · cases ho : g'.linkAt ⟨b, 0⟩ with
    | none => rfl
    | some o => exact absurd h.height (h₁.linked ((h'.linkAt_iff _ o).mp ho).1)
  · obtain ⟨invert, objectSpace, hk⟩ := ha
    exact ⟨invert, objectSpace, hkind hk⟩
  · rintro a o ha ho ⟨k, hk, hv⟩
    have ho₁ := ((h'.linkAt_iff _ o).mp ho).1
    obtain ⟨o', ho', -⟩ := h₁.moved _ o ho₁
    refine ⟨o', ho', ?_⟩
    by_cases hc : g.IsConvert o'.node
    · obtain ⟨source, target, automatic, hk'⟩ := hc
      exact ⟨_, hk', rfl⟩
    · have hleft : ¬ g.AtConvert ⟨a, 4⟩ := by
        rintro (hca | ⟨o'', ho'', hc'⟩)
        · exact hbump ha hca
        · exact hc (Option.some.inj (ho'.symm.trans ho'') ▸ hc')
      rw [h₁.evolves.linkAt_same hb₁ hleft, ho'] at ho₁
      exact Option.some.inj ho₁ ▸ ⟨k, hkind hk, hv⟩

/-- Clamps are no bumps, and what they are put behind are no vectors. -/
theorem expands (h : g.FlatBump b) (hg : g.WellFormed) (h' : g.Expands g') : g'.FlatBump b := by
  have hold : ∀ {a}, g'.IsBump a → a < g.idBound := by
    rintro a ⟨_, _, hk⟩
    by_contra hle
    cases h'.kind?_new a _ (Nat.not_lt.mp hle) hk
  refine h.transport (h'.grows.kind?_eq b h.lt_idBound)
    ((h'.linked_iff _ h.lt_idBound).mpr h.height) (h'.acyclic h.acyclic) (fun a ha hab => ?_) ?_
  · exact ⟨(isBump_congr (h'.grows.kind?_eq a (hold ha))).mp ha,
      h'.path a b (hold ha) h.lt_idBound hab⟩
  · intro a o ha ho hv
    have hlt : a < g.idBound := by
      obtain ⟨_, _, hk⟩ := ha
      exact g.lt_idBound_of_kind? hk
    obtain ⟨o', ho'⟩ := Option.ne_none_iff_exists'.mp
      ((h'.linked_iff ⟨a, 4⟩ hlt).not.mp (by simp [ho]))
    have hkept := h'.kept ⟨a, 4⟩ o' ho' fun op clamped hk => by
      obtain ⟨e, he, hty⟩ := ha.normal_type hg ho' hk
      obtain rfl := List.mem_singleton.mp he
      cases hty
    obtain rfl : o = o' := Option.some.inj (ho.symm.trans hkept)
    exact ⟨o, ho', (foldsVector_congr (h'.grows.kind?_eq _ (hg.source_lt ho'))).mp hv⟩

/-- Default sources are no bumps, and they are not folded. -/
theorem sourced (h : g.FlatBump b) (hg : g.WellFormed) (h' : g.Sourced g') : g'.FlatBump b := by
  refine h.transport (h'.evolves.kind?_eq b h.lt_idBound) ?_ (h'.acyclic h.acyclic)
    (fun a ha hab => ?_) ?_
  · rw [h'.evolves.linkAt_eq _ h.lt_idBound, h.height]
    rintro ⟨-, d, hd, hs⟩
    obtain ⟨invert, objectSpace, hk⟩ := h.isBump
    rw [hg.inputDecl?_eq hk] at hd
    cases hd
    cases hs
  · obtain ⟨invert, objectSpace, hk⟩ := h'.isBump ha
    exact ⟨h'.isBump ha, h'.path (g.lt_idBound_of_kind? hk) hab⟩
  · rintro a o ha ho ⟨k, hk, hv⟩
    have hlt : o.node < g.idBound := h'.lt_idBound hk fun owner => by
      rintro rfl
      cases owner <;> cases hv
    rcases h'.links _ o ho with hl | ⟨-, -, hle⟩
    · exact ⟨o, hl, (foldsVector_congr (h'.evolves.kind?_eq _ hlt)).mp ⟨k, hk, hv⟩⟩
    · exact absurd hlt (Nat.not_lt.mpr hle)

/-- Once all normals are linked, the bump is about to be folded. -/
theorem collapsing (h : g.FlatBump b) (hg : g.WellFormed)
    (hlinked : ∀ a, g.IsBump a → g.linkAt ⟨a, 4⟩ ≠ none) :
    g.Collapsing {a | ReflTransGen g.Feeds a b} b := by
  have htrans : ∀ {a}, ReflTransGen g.Feeds a b → a ≠ b → TransGen g.Feeds a b := by
    intro a hab hne
    exact (reflTransGen_iff_eq_or_transGen.mp hab).resolve_left fun heq => hne heq.symm
  refine ⟨.refl, fun a hab => ?_, fun a c hac hcb => .head hac hcb, h.isBump, h.height,
    fun a hab hne hbump => ?_⟩
  · by_cases hne : a = b
    · obtain ⟨invert, objectSpace, hk⟩ := h.isBump
      exact (g.mem_ids_iff_kind?).mpr ⟨_, hne ▸ hk⟩
    · obtain ⟨_, hac, -⟩ := TransGen.head'_iff.mp (htrans hab hne)
      exact (hg.mem_ids_of_feeds hac).1
  · obtain ⟨o, ho⟩ := Option.ne_none_iff_exists'.mp (hlinked a hbump)
    exact ⟨o, ho, h.firm a hbump (htrans hab hne) o ho⟩

end FlatBump

end Graph

namespace Edit

open Shading.Graph

variable {g : Graph} {S : Set NodeId} {b id : NodeId}

/-- A node with a vector as an output is not folded, unless its kind says so. -/
theorem ends_foldNode_idle {k : NodeKind} (hk : g.kind? id = some k)
    (hb : ∀ invert objectSpace, k ≠ .bump invert objectSpace) (hv : k.foldsVector = false)
    {e : OutputDecl} (he : e ∈ k.outputDecls) (hty : e.type.linksTo .normal = true) :
    (foldNode id).Ends g fun _ g' => g' = g := by
  refine meets_ask_node_bind (fun n hn => ?_) fun hnone => by simp [hnone] at hk
  have hkind : n.kind = k := by simpa [kind?, hn] using hk
  refine ends_forM_mem (I := (· = g)) rfl fun slot hslot g' hg' => ?_
  obtain ⟨e', he'⟩ := (g.exists_outputDecl?_iff hn slot).mpr (List.mem_range.mp hslot)
  rw [hg']
  refine ends_consumersOf_bind he' ?_
  split_ifs
  · refine meets_ask_node_bind (fun m hm => ?_) fun hnone => by simp [hnone] at hk
    obtain rfl : m = n := by simpa [hn] using hm.symm
    rw [hkind]
    cases k with
    | bump invert objectSpace => exact absurd rfl (hb invert objectSpace)
    | convert _ _ _ | vectorMath _ | displacement _ => cases hv
    | value | color | emission _ | addClosure | mixClosure | math _ _ | clamp _ | mix _ _ =>
      obtain rfl := List.mem_singleton.mp he
      cases hty
    | _ => exact ends_pure rfl
  · exact ends_pure rfl

/-- Folding another node than `b`. -/
theorem ends_foldNode_collapsing (hg : g.WellFormed) (hm : g.finalized = false)
    (h : g.Collapsing S b) {k : NodeKind} (hk : g.kind? id = some k) (hid : id ≠ b) :
    (foldNode id).Ends g fun _ g' =>
      g.Shortens (g.Around id) (g.LacksNormal id) g' ∧ g'.Collapsing S b := by
  by_cases hb : g.IsBump id
  · have ⟨invert, objectSpace, hk'⟩ := hb
    refine (ends_foldNode_bump hg hm hk').mono fun _ g' h' => ⟨h'.shortens hg hb, ?_⟩
    by_cases hS : id ∈ S
    · -- all normals that came from the bump now come from where it took its own
      obtain ⟨s, hs, hv⟩ := h.normal id hS hid hb
      refine h.step (h'.shortens hg hb) (fun hl => absurd hl.2 (by simp [hs]))
        fun a _ _ _ o ho hvo => ?_
      cases h' with
      | idle _ => exact ⟨o, ho, hvo⟩
      | normal hs' h' =>
        obtain rfl := Option.some.inj (hs.symm.trans hs')
        rw [h'.linkAt_eq]
        split_ifs
        · exact ⟨s, rfl, hv⟩
        · exact ⟨o, ho, hvo⟩
      | geometry hs' _ => simp [hs] at hs'
    · have hfar : ∀ r, r.node ∈ S → ¬ g.Around id r := by
        rintro r hr (rfl | ⟨o, ho, rfl⟩)
        · exact hS hr
        · exact hS (h.closed _ _ (feeds_of_linkAt ho) hr)
      have h' := h'.shortens hg hb
      refine h.step h' (fun _ => hfar) fun a ha _ _ o ho hvo => ⟨o, ?_, hvo⟩
      rw [h'.evolves.linkAt_eq _ (h.bounded a ha) (hfar _ ha), ho]
  · have hne : ∀ invert objectSpace, k ≠ .bump invert objectSpace := by
      rintro invert objectSpace rfl
      exact hb ⟨_, _, hk⟩
    by_cases hidle : k.foldsVector = false ∧ ∃ e ∈ k.outputDecls, e.type.linksTo .normal = true
    · obtain ⟨hv, e, he, hty⟩ := hidle
      refine (ends_foldNode_idle hk hne hv he hty).mono ?_
      rintro _ _ rfl
      exact ⟨.refl hg, h⟩
    · refine (ends_foldNode_of_ne_bump hg hm hk hne).mono fun _ g' h' =>
        ⟨h'.shortens.mono (fun _ hr => hr) False.elim,
          h.step h'.shortens False.elim fun a ha _ ha' o ho hvo => ?_⟩
      refine ⟨o, ?_, hvo⟩
      rw [h'.evolves.linkAt_eq _ (h.bounded a ha), ho]
      rintro (rfl | ⟨o', ho', rfl⟩)
      · exact hb ha'
      · obtain rfl := Option.some.inj (ho.symm.trans ho')
        refine hidle ⟨?_, ha'.normal_type hg ho hk⟩
        exact Bool.eq_false_iff.mpr fun hv => hvo ⟨k, hk, hv⟩

/-- A bump without a height is folded sooner or later. -/
theorem ends_foldAll_collapsing {g : Graph} {w : Worklist} (hg : g.WellFormed) (hm : g.finalized = false)
    (hac : g.Acyclic) (hs : w.Sound S g) (hw : w.Within g) (hdone : b ∉ w.done)
    (h : g.Collapsing S b) :
    (foldAll w).Ends g fun _ g' => b < g'.idBound ∧ g'.Unused b := by
  rw [foldAll.eq_def]
  split
  · rename_i hnone
    have hq := Worklist.queue_eq_nil_of_next? hnone
    exact absurd (hs.mem_done h.closed hq h.mem (hg.acc_of_acyclic hac b)) hdone
  · rename_i id w' hx
    have hsize := Worklist.size_next? hx
    obtain ⟨hid, hw'⟩ := hw.next hx
    obtain ⟨k, hk⟩ := (g.mem_ids_iff_kind?).mp hid
    obtain ⟨hs', hdone', hwait⟩ := hs.next hg hx
    refine ends_get_bind ?_
    by_cases hb : id = b
    · -- from now on nothing gets linked to the bump again
      rw [hb]
      obtain ⟨invert, objectSpace, hkb⟩ := h.isBump
      refine Ends.bind (ends_foldNode_bump hg hm hkb) fun _ g₁ h₁ => ?_
      have hs₁ := h₁.shortens hg h.isBump
      have hlt := Nat.lt_of_lt_of_le (h.bounded b h.mem) hs₁.evolves.idBound_le
      have hunused := h₁.unused hg h.isBump h.height fun hloop => hac b (.single hloop)
      refine (ends_foldAll hs₁.evolves.wellFormed (hs₁.evolves.finalized.trans hm)
        ((hw'.scheduleConsumers g b).mono fun _ => hs₁.evolves.ids_subset)).mono fun _ g' h' => ?_
      exact ⟨Nat.lt_of_lt_of_le hlt h'.evolves.idBound_le, h'.unused hunused hlt⟩
    · refine Ends.bind (ends_foldNode_collapsing hg hm h hk hb) ?_
      rintro _ g₁ ⟨h₁, hc₁⟩
      refine ends_foldAll_collapsing h₁.evolves.wellFormed (h₁.evolves.finalized.trans hm)
        (h₁.acyclic hac) (hs'.shortens (by simp [hdone']) hwait h₁)
        ((hw'.scheduleConsumers g id).mono fun _ => h₁.evolves.ids_subset) ?_ hc₁
      rw [hdone', List.mem_cons, not_or]
      exact ⟨fun heq => hb heq.symm, hdone⟩
termination_by w.size
decreasing_by
  rw [Worklist.size_scheduleConsumers]
  omega

/-- Simplifying a graph removes a bump without a height. -/
theorem ends_simplify_flatBump (h : g.FlatBump b) (hg : g.WellFormed) (hs : g.simplified = false)
    (hm : g.finalized = false) (scene : Scene) :
    (simplify scene).Ends g fun _ g' => g'.kind? b = none := by
  refine ends_get_bind ?_
  rw [hs, hm]
  refine Ends.bind (ends_removeProxies hg hm) ?_
  rintro _ g₁ ⟨g₀, removed, h₀, hb₀, hremoved, h₁, -⟩
  have hf₁ := h.removes h₀ hb₀ hremoved h₁
  have hg₁ := h₁.wellFormed
  have hm₁ := h₁.finalized.trans (h₀.evolves.finalized.trans hm)
  refine Ends.bind (ends_expandNodes hg₁ hm₁) fun _ g₂ h₂ => ?_
  have hf₂ := hf₁.expands hg₁ h₂
  have hg₂ := h₂.grows.wellFormed
  have hm₂ := h₂.grows.finalized.trans hm₁
  refine Ends.bind (ends_linkAllDefaults hg₂ hm₂) ?_
  rintro _ g₃ ⟨h₃, hlinked⟩
  have hf₃ := hf₂.sourced hg₂ h₃
  have hg₃ := h₃.evolves.wellFormed
  have hm₃ := h₃.evolves.finalized.trans hm₂
  have hc : g₃.Collapsing {a | ReflTransGen g₃.Feeds a b} b := by
    refine hf₃.collapsing hg₃ fun a ha => ?_
    obtain ⟨invert, objectSpace, hk⟩ := h₃.isBump ha
    exact hlinked ⟨a, 4⟩ ⟨_, hg₂.inputDecl?_eq hk 4, rfl⟩
  rw [clean_eq, bind_assoc]
  refine Ends.bind (ends_tidy hg₃ hm₃ scene (ends_foldAll_collapsing hg₃ hm₃ hf₃.acyclic
    ((Worklist.sound_ofGraph g₃).mono hc.within) (Worklist.within_ofGraph g₃)
      (by simp [Worklist.ofGraph]) hc)) ?_
  rintro _ g₄ ⟨h₄, -, -, g', ⟨hlt, hunused⟩, hkeep⟩
  have hm₄ := h₄.finalized.trans hm₃
  refine Ends.bind (ends_prune h₄.wellFormed hm₄) fun _ g₅ h₅ => ?_
  have hlt₅ : b < g₅.idBound := by
    rw [h₅.idBound_eq]
    exact Nat.lt_of_lt_of_le hf₃.lt_idBound h₄.idBound_le
  have hnone : g₅.kind? b = none := by
    refine h₅.kind?_of_unused (hkeep b hlt hunused) fun hout => ?_
    obtain ⟨invert, objectSpace, hk⟩ := hf₃.isBump
    rcases hout with rfl | ⟨name, hname⟩
    · cases hk.symm.trans hg₃.kind?_output
    · cases (h₄.kind?_some hk).symm.trans hname
  refine Ends.bind (ends_refineBumps h₅.wellFormed (h₅.finalized.trans hm₄) h₅.acyclic) ?_
  rintro _ g₆ ⟨h₆, -⟩
  exact ends_modify ((h₆.kind?_eq b hlt₅).trans hnone)

/-- **Simplifying twice.** A graph is simplified, gets a node that is not linked to anything, and is
simplified again. Then all its bumps without a height are gone, whatever they feed and however they
were sampled, as long as the normals of the bumps behind them are firm. -/
theorem resimplify_removes_bumps (g : Graph) (hg : g.WellFormed) (hs : g.simplified = false)
    (hm : g.finalized = false) (scene : Scene) (k : NodeKind) :
    ∃ g₁ g₂, (simplify scene).run g = .ok () g₁ ∧
      (do discard <| addKind k; simplify scene : Edit Unit).run g₁ = .ok () g₂ ∧
      ∀ b, g₁.IsBump b → g₁.linkAt ⟨b, 0⟩ = none → g₁.FirmNormals b → g₂.kind? b = none := by
  obtain ⟨_, g₁, hrun₁, hg₁, hm₁, hac₁⟩ := ends_iff.mp (ends_simplify ⟨hg, by simp [hs]⟩ hm scene)
  have hg' : (g₁.push (.ofKind k)).WellFormed := hg₁.push (Node.sound_ofKind k)
  obtain ⟨_, g₂, hrun₂, -⟩ := ends_iff.mp (ends_simplify (g := g₁.push (.ofKind k))
    ⟨hg', nofun⟩ hm₁ scene)
  refine ⟨g₁, g₂, hrun₁, ?_, fun b hb hheight hfirm => ?_⟩
  · have hrun : (do discard <| addKind k; simplify scene : Edit Unit).Ends g₁ fun _ g' => g' = g₂ := by
      rw [discard_bind]
      exact ends_bind.mpr (ends_addKind hm₁ (ends_iff.mpr ⟨(), g₂, hrun₂, rfl⟩))
    obtain ⟨_, g', hrun', heq⟩ := ends_iff.mp hrun
    exact heq ▸ hrun'
  · have hf := (FlatBump.mk hb hheight hfirm hac₁).push hg₁ k
    obtain ⟨_, g', hrun', hnone⟩ := ends_iff.mp (ends_simplify_flatBump hf hg' rfl hm₁ scene)
    rw [hrun₂] at hrun'
    cases hrun'
    exact hnone

/-- A bump whose height is whether the back of a face is seen. -/
def facingBump : Graph :=
  Primitive.runAll [.addKind .geometry, .addKind (.bump false false), .connect ⟨1, 6⟩ ⟨2, 0⟩,
    .connect ⟨2, 0⟩ ⟨0, 3⟩] Graph.empty

/-- The bump is there and sampled after simplifying the graph. After simplifying it again the output
takes the normal of the geometry. -/
theorem ends_simplify_facingBump :
    (simplify Scene.empty).Ends facingBump fun _ g₁ =>
      g₁.kind? 2 = some (.bump false false) ∧ g₁.linkAt ⟨outputId, 3⟩ = some ⟨2, 0⟩ ∧
      g₁.linkAt ⟨2, 0⟩ = none ∧ (∀ slot ∈ [1, 2, 3], g₁.linkAt ⟨2, slot⟩ ≠ none) ∧
      (∀ a ∈ g₁.ids, (g₁.linkAt ⟨a, 4⟩).all fun o => (g₁.kind? o.node).all (!·.foldsVector)) ∧
      (do discard <| addKind .value; simplify Scene.empty : Edit Unit).Ends g₁ fun _ g₂ =>
        g₂.linkAt ⟨outputId, 3⟩ = some ⟨1, 1⟩ ∧ g₂.kind? 2 = none := by
  decide +kernel

theorem resimplify_removes_bumps_facingBump :
    facingBump.WellFormed ∧ ∃ g₁ g₂, (simplify Scene.empty).run facingBump = .ok () g₁ ∧
      (do discard <| addKind .value; simplify Scene.empty : Edit Unit).run g₁ = .ok () g₂ ∧
      g₁.IsBump 2 ∧ g₁.linkAt ⟨2, 0⟩ = none ∧ g₁.FirmNormals 2 ∧ g₂.kind? 2 = none := by
  have hg : facingBump.WellFormed := (Primitive.follows_runAll wellFormed_empty _).wellFormed
  obtain ⟨g₁, g₂, hrun₁, hrun₂, hgone⟩ :=
    resimplify_removes_bumps facingBump hg (by decide) (by decide) Scene.empty .value
  obtain ⟨_, g', hrun', hk, -, hheight, -, hfirm, -⟩ := ends_iff.mp ends_simplify_facingBump
  rw [hrun₁] at hrun'
  cases hrun'
  have hbump : g₁.IsBump 2 := ⟨_, _, hk⟩
  have hfirm' : g₁.FirmNormals 2 := by
    rintro a ⟨_, _, hka⟩ - o ho ⟨k, hko, hv⟩
    have h := hfirm a ((g₁.mem_ids_iff_kind?).mpr ⟨_, hka⟩)
    simp [ho, hko, hv] at h
  exact ⟨hg, g₁, g₂, hrun₁, hrun₂, hbump, hheight, hfirm', hgone 2 hbump hheight hfirm'⟩

/-- A bump that is sampled and used need not survive when a node is added to the graph and the graph
is simplified again. -/
theorem resimplify_facingBump :
    facingBump.WellFormed ∧ facingBump.simplified = false ∧ facingBump.finalized = false ∧
      ∃ g₁ g₂, (simplify Scene.empty).run facingBump = .ok () g₁ ∧
        (do discard <| addKind .value; simplify Scene.empty : Edit Unit).run g₁ = .ok () g₂ ∧
        g₁.IsBump 2 ∧ g₁.linkAt ⟨outputId, 3⟩ = some ⟨2, 0⟩ ∧
        (∀ slot ∈ [1, 2, 3], g₁.linkAt ⟨2, slot⟩ ≠ none) ∧
        g₂.linkAt ⟨outputId, 3⟩ ≠ some ⟨2, 0⟩ ∧ ∀ slot, g₂.linkAt ⟨2, slot⟩ = none := by
  obtain ⟨_, g₁, hrun₁, hk, hl, -, hsamples, -, h₂⟩ := ends_iff.mp ends_simplify_facingBump
  obtain ⟨_, g₂, hrun₂, hl₂, hk₂⟩ := ends_iff.mp h₂
  refine ⟨(Primitive.follows_runAll wellFormed_empty _).wellFormed, by decide, by decide, g₁, g₂,
    hrun₁, hrun₂, ⟨_, _, hk⟩, hl, hsamples, by simp [hl₂], fun slot => ?_⟩
  cases ho : g₂.linkAt ⟨2, slot⟩ with
  | none => rfl
  | some o =>
    obtain ⟨d, hd⟩ := g₂.inputDecl?_of_linkAt ho
    obtain ⟨k, hk'⟩ := g₂.kind?_of_inputDecl? hd
    cases hk₂.symm.trans hk'

end Edit

end Shading
