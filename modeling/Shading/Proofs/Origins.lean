import Mathlib.Data.Set.Lattice
import Shading.Proofs.Acyclic
import Shading.Proofs.Linking

/-!
# Where data comes from

When nodes are added to a graph, a path through added nodes stands for a link between two nodes that
were there before. `g.Traced n O` says that, for each node `x`, `O x` are those of the first `n`
nodes whose data reaches `x` through added nodes alone. The graph has no cycle if and only if these
contracted links make none (`Traced.acyclic_iff`). -/

namespace Shading

open Relation

namespace Graph

/-- The origins of what an input takes in. -/
def inflow (g : Graph) (O : NodeId → Set NodeId) (r : InputRef) : Set NodeId :=
  {a | ∃ o, g.linkAt r = some o ∧ a ∈ O o.node}

structure Traced (g : Graph) (n : Nat) (O : NodeId → Set NodeId) : Prop where
  node : ∀ a < n, O a = {a}
  added : ∀ x, n ≤ x → ∀ a, a ∈ O x ↔ ∃ slot, a ∈ g.inflow O ⟨x, slot⟩
  /-- There is no cycle among the added nodes. -/
  ranked : ∃ rank : NodeId → Nat, ∀ r o, g.linkAt r = some o → n ≤ r.node → n ≤ o.node →
    rank o.node < rank r.node

/-- The links of the first `n` nodes, where a path through added nodes counts as a link. -/
def Contracted (g : Graph) (n : Nat) (O : NodeId → Set NodeId) (a b : NodeId) : Prop :=
  b < n ∧ ∃ slot, a ∈ g.inflow O ⟨b, slot⟩

variable {g g' : Graph} {n : Nat} {O : NodeId → Set NodeId}

theorem inflow_of_linkAt {r : InputRef} {o : OutputRef} (h : g.linkAt r = some o) :
    g.inflow O r = O o.node := by
  ext a
  simp [inflow, h]

theorem inflow_of_free {r : InputRef} (h : g.linkAt r = none) : g.inflow O r = ∅ := by
  ext a
  simp [inflow, h]

namespace Traced

/-- Each origin leads to the node. -/
theorem reaches (h : g.Traced n O) {a x : NodeId} (ha : a ∈ O x) : ReflTransGen g.Feeds a x := by
  obtain ⟨rank, hr⟩ := h.ranked
  induction hk : rank x using Nat.strong_induction_on generalizing x with
  | _ k ih =>
    by_cases hx : x < n
    · rw [h.node x hx, Set.mem_singleton_iff] at ha
      rw [ha]
    · obtain ⟨slot, o, hl, hao⟩ := (h.added x (Nat.not_lt.mp hx) a).mp ha
      refine ReflTransGen.tail ?_ ⟨_, o, hl, rfl, rfl⟩
      by_cases ho : o.node < n
      · rw [h.node _ ho, Set.mem_singleton_iff] at hao
        rw [hao]
      · exact ih _ (hk ▸ hr _ o hl (Nat.not_lt.mp hx) (Nat.not_lt.mp ho)) hao rfl

theorem transGen_of_contracted (h : g.Traced n O) {a b : NodeId} (hab : g.Contracted n O a b) :
    TransGen g.Feeds a b := by
  obtain ⟨-, slot, o, hl, ha⟩ := hab
  exact TransGen.tail' (h.reaches ha) ⟨_, o, hl, rfl, rfl⟩

/-- A path from one of the first nodes, followed up to a node `x`. What comes next is a contracted
link if `x` is one of the first nodes; if it is an added one, a contracted link is under way. -/
theorem follow (h : g.Traced n O) {a x : NodeId} (ha : a < n) (hax : TransGen g.Feeds a x) :
    (x < n → TransGen (g.Contracted n O) a x) ∧
      (n ≤ x → ∃ c ∈ O x, ReflTransGen (g.Contracted n O) a c) := by
  -- the origins of what feeds a node, whether it is an added one or not
  have hstep : ∀ c y z, c ∈ O y → ReflTransGen (g.Contracted n O) a c → g.Feeds y z →
      (z < n → TransGen (g.Contracted n O) a z) ∧
        (n ≤ z → ∃ c ∈ O z, ReflTransGen (g.Contracted n O) a c) := by
    rintro c y z hc hac ⟨r, o, hl, rfl, rfl⟩
    have hin : c ∈ g.inflow O r := ⟨o, hl, hc⟩
    exact ⟨fun hz => TransGen.tail' hac ⟨hz, r.slot, hin⟩,
      fun hz => ⟨c, (h.added _ hz c).mpr ⟨r.slot, hin⟩, hac⟩⟩
  have hself : ∀ y < n, y ∈ O y := fun y hy => by rw [h.node y hy]; rfl
  induction hax with
  | single hax => exact hstep a a _ (hself a ha) .refl hax
  | @tail y z _ hyz ih =>
    by_cases hy : y < n
    · exact hstep y y z (hself y hy) (ih.1 hy).to_reflTransGen hyz
    · obtain ⟨c, hc, hac⟩ := ih.2 (Nat.not_lt.mp hy)
      exact hstep c y z hc hac hyz

/-- A path that starts at an added node goes upwards in the numbering of the added nodes, or passes
through one of the first nodes. -/
theorem leave {rank : NodeId → Nat} (hr : ∀ r o, g.linkAt r = some o → n ≤ r.node → n ≤ o.node →
    rank o.node < rank r.node) {x y : NodeId} (hx : n ≤ x) (hxy : TransGen g.Feeds x y) :
    (∃ c < n, TransGen g.Feeds x c ∧ ReflTransGen g.Feeds c y) ∨ (n ≤ y ∧ rank x < rank y) := by
  have hstep : ∀ y z, n ≤ y → TransGen g.Feeds x z → g.Feeds y z →
      (∃ c < n, TransGen g.Feeds x c ∧ ReflTransGen g.Feeds c z) ∨ (n ≤ z ∧ rank y < rank z) := by
    rintro y z hy hxz ⟨r, o, hl, rfl, rfl⟩
    by_cases hz : r.node < n
    · exact Or.inl ⟨_, hz, hxz, .refl⟩
    · exact Or.inr ⟨Nat.not_lt.mp hz, hr r o hl (Nat.not_lt.mp hz) hy⟩
  induction hxy with
  | single hxy => exact hstep x _ hx (.single hxy) hxy
  | @tail y z hxy hyz ih =>
    rcases ih with ⟨c, hc, hxc, hcy⟩ | ⟨hy, hlt⟩
    · exact Or.inl ⟨c, hc, hxc, hcy.tail hyz⟩
    · exact (hstep y z hy (hxy.tail hyz) hyz).imp_right fun h => ⟨h.1, Nat.lt_trans hlt h.2⟩

/-- **Contraction.** A graph has no cycle if and only if its contracted links make none. -/
theorem acyclic_iff (h : g.Traced n O) :
    g.Acyclic ↔ ∀ id, ¬ TransGen (g.Contracted n O) id id := by
  constructor
  · intro hac id hid
    have hpath : ∀ b, TransGen (g.Contracted n O) id b → TransGen g.Feeds id b := by
      intro b hb
      induction hb with
      | single hab => exact h.transGen_of_contracted hab
      | tail _ hab ih => exact ih.trans (h.transGen_of_contracted hab)
    exact hac id (hpath id hid)
  · intro hac
    have hfirst : ∀ c < n, ¬ TransGen g.Feeds c c := fun c hc hcc => hac c ((h.follow hc hcc).1 hc)
    intro id hid
    by_cases hlt : id < n
    · exact hfirst id hlt hid
    · obtain ⟨rank, hr⟩ := h.ranked
      rcases leave hr (Nat.not_lt.mp hlt) hid with ⟨c, hc, hidc, hcid⟩ | ⟨-, hlt'⟩
      · exact hfirst c hc (TransGen.trans_right hcid hidc)
      · exact Nat.lt_irrefl _ hlt'

/-! ### Steps -/

/-- What the first nodes are linked to does not matter to the origins of added nodes. -/
theorem of_linkAt (h : g.Traced n O) (hl : ∀ r, n ≤ r.node → g'.linkAt r = g.linkAt r) :
    g'.Traced n O := by
  refine ⟨h.node, fun x hx a => ?_, ?_⟩
  · rw [h.added x hx a]
    simp only [inflow, hl ⟨x, _⟩ hx]
  · obtain ⟨rank, hr⟩ := h.ranked
    exact ⟨rank, fun r o ho hrn => hr r o (hl r hrn ▸ ho) hrn⟩

/-- A node that is not there has no origins. -/
theorem eq_empty (h : g.Traced n O) (hn : n ≤ g.idBound) : O g.idBound = ∅ := by
  ext a
  rw [h.added _ hn]
  simp [inflow, linkAt_of_idBound_le]

/-- The origins of an added node after one more of its inputs was linked, given that no other node
has taken in anything from it. -/
theorem link_added (h : g.Traced n O) {s : OutputRef} {t : InputRef} (ht : n ≤ t.node)
    (hun : g.Unused t.node) (hne : s.node ≠ t.node) (hd : (g.inputDecl? t).isSome)
    (hfree : g.linkAt t = none) :
    (g.link s t).Traced n (Function.update O t.node (O t.node ∪ O s.node)) := by
  set O' := Function.update O t.node (O t.node ∪ O s.node) with hO'
  have hsame : ∀ y ≠ t.node, O' y = O y := fun y hy => Function.update_of_ne hy _ _
  have hin : ∀ r ≠ t, (g.link s t).inflow O' r = g.inflow O r := by
    intro r hr
    ext a
    simp only [inflow, linkAt_link _ hd, if_neg hr]
    refine exists_congr fun o => and_congr_right fun ho => ?_
    rw [hsame _ (hun r o ho)]
  have hin' : (g.link s t).inflow O' t = O s.node := by
    rw [inflow_of_linkAt (o := s) (by rw [linkAt_link _ hd, if_pos rfl]), hsame _ hne]
  refine ⟨fun a ha => ?_, fun x hx a => ?_, ?_⟩
  · rw [hsame a (Nat.ne_of_lt (Nat.lt_of_lt_of_le ha ht)), h.node a ha]
  · by_cases hxt : x = t.node
    · have hold : a ∈ O t.node ↔ ∃ slot, a ∈ g.inflow O ⟨t.node, slot⟩ := h.added _ ht a
      rw [hxt, hO', Function.update_self, Set.mem_union, hold, ← hO']
      constructor
      · rintro (⟨slot, ha⟩ | ha)
        · have hslot : (⟨t.node, slot⟩ : InputRef) ≠ t := by
            intro heq
            rw [heq, inflow_of_free hfree] at ha
            exact ha
          exact ⟨slot, by rwa [hin _ hslot]⟩
        · exact ⟨t.slot, hin'.symm ▸ ha⟩
      · rintro ⟨slot, ha⟩
        by_cases hslot : (⟨t.node, slot⟩ : InputRef) = t
        · rw [hslot, hin'] at ha
          exact Or.inr ha
        · rw [hin _ hslot] at ha
          exact Or.inl ⟨slot, ha⟩
    · rw [hsame x hxt, h.added x hx]
      refine exists_congr fun slot => ?_
      rw [hin]
      rintro rfl
      exact hxt rfl
  · obtain ⟨rank, hr⟩ := h.ranked
    refine ⟨Function.update rank t.node (max (rank t.node) (rank s.node + 1)), ?_⟩
    intro r o ho hrn hon
    rw [linkAt_link _ hd] at ho
    split_ifs at ho with hrt
    · obtain rfl : s = o := Option.some.inj ho
      rw [hrt, Function.update_of_ne hne, Function.update_self]
      omega
    · have hlt := hr r o ho hrn hon
      rw [Function.update_of_ne (hun r o ho)]
      by_cases hrn' : r.node = t.node
      · rw [hrn', Function.update_self]
        rw [hrn'] at hlt
        omega
      · rwa [Function.update_of_ne hrn']

theorem link_node (h : g.Traced n O) {s : OutputRef} {t : InputRef} (ht : t.node < n)
    (hd : (g.inputDecl? t).isSome) : (g.link s t).Traced n O := by
  refine h.of_linkAt fun r hr => ?_
  rw [linkAt_link _ hd, if_neg]
  rintro rfl
  exact Nat.not_lt.mpr hr ht

end Traced

theorem inflow_link_self {s : OutputRef} {t : InputRef} (hd : (g.inputDecl? t).isSome) :
    (g.link s t).inflow O t = O s.node :=
  inflow_of_linkAt (by rw [linkAt_link _ hd, if_pos rfl])

theorem WellFormed.unused_idBound (hg : g.WellFormed) : g.Unused g.idBound := by
  intro r o hl
  obtain ⟨e, he⟩ := hg.exists_output hl
  obtain ⟨k, hk⟩ := g.kind?_of_outputDecl? he
  exact Nat.ne_of_lt (g.lt_idBound_of_kind? hk)

theorem Unused.link {x : NodeId} (h : g.Unused x) {s : OutputRef} {t : InputRef} (hs : s.node ≠ x)
    (hd : (g.inputDecl? t).isSome) : (g.link s t).Unused x := by
  intro r o ho
  rw [linkAt_link _ hd] at ho
  split_ifs at ho
  · rwa [← Option.some.inj ho]
  · exact h r o ho

/-- A new node takes in data from one output. -/
theorem Traced.link_new (h : g.Traced n O) (hg : g.WellFormed) (hn : n ≤ g.idBound) {g₁ : Graph}
    (hl : ∀ r, g₁.linkAt r = g.linkAt r) {s : OutputRef} (hs : s.node < g.idBound) {i : Nat}
    (hd : (g₁.inputDecl? ⟨g.idBound, i⟩).isSome) :
    (g₁.link s ⟨g.idBound, i⟩).Traced n (Function.update O g.idBound (O s.node)) := by
  have hun : g₁.Unused g.idBound := fun r o ho => hg.unused_idBound r o (hl r ▸ ho)
  have hfree : g₁.linkAt ⟨g.idBound, i⟩ = none :=
    (hl _).trans (linkAt_of_idBound_le (Nat.le_refl _))
  have h₁ := (h.of_linkAt fun r _ => hl r).link_added (t := ⟨g.idBound, i⟩) hn hun (Nat.ne_of_lt hs)
    hd hfree
  rwa [h.eq_empty hn, Set.empty_union] at h₁

/-- `g'` comes from `g`, and the origins are known in both. -/
structure Traces (n : Nat) (O O' : NodeId → Set NodeId) (T : InputRef → Prop) (g g' : Graph) :
    Prop where
  evolves : g.Evolves T g'
  traced : g'.Traced n O'
  agree : ∀ x < g.idBound, O' x = O x

namespace Traces

variable {T T' : InputRef → Prop} {O' : NodeId → Set NodeId}

theorem trans {g₁ g₂ g₃ : Graph} {O₁ O₂ O₃ : NodeId → Set NodeId} (h : g₁.Traces n O₁ O₂ T g₂)
    (h' : g₂.Traces n O₂ O₃ T' g₃) (hT : ∀ r, T' r → T r ∨ g₁.idBound ≤ r.node) :
    g₁.Traces n O₁ O₃ T g₃ where
  evolves := h.evolves.trans_fresh h'.evolves hT
  traced := h'.traced
  agree x hx :=
    (h'.agree x (Nat.lt_of_lt_of_le hx h.evolves.idBound_le)).trans (h.agree x hx)

theorem mono (h : g.Traces n O O' T g') (hT : ∀ r, T r → T' r) : g.Traces n O O' T' g' :=
  ⟨h.evolves.mono hT, h.traced, h.agree⟩

/-- What an input takes in stays the same if its link does. -/
theorem inflow_eq (h : g.Traces n O O' T g') (hg : g.WellFormed) {r : InputRef}
    (hr : r.node < g.idBound) (hT : ¬ T r) : g'.inflow O' r = g.inflow O r := by
  ext a
  simp only [inflow, h.evolves.linkAt_eq r hr hT]
  refine exists_congr fun o => and_congr_right fun ho => ?_
  obtain ⟨e, he⟩ := hg.exists_output ho
  obtain ⟨k, hk⟩ := g.kind?_of_outputDecl? he
  rw [h.agree _ (g.lt_idBound_of_kind? hk)]

end Traces

theorem traces_push (hg : g.WellFormed) (h : g.Traced n O) (k : NodeKind) :
    g.Traces n O O (fun _ => False) (g.push (Node.ofKind k)) :=
  ⟨evolves_push hg (Node.sound_ofKind k), h.of_linkAt fun r _ => g.linkAt_push _ r, fun _ _ => rfl⟩

theorem WellFormed.unused_push (hg : g.WellFormed) (n : Node) : (g.push n).Unused g.idBound :=
  fun r o ho => hg.unused_idBound r o (g.linkAt_push n r ▸ ho)

/-- `g'` comes from `g` by linking the input `t` of an added node from which nothing is taken in
yet, and the node gets the origins `A` by it. -/
structure Takes (n : Nat) (O O' : NodeId → Set NodeId) (t : InputRef) (A : Set NodeId)
    (g g' : Graph) : Prop where
  evolves : g.Evolves (· = t) g'
  traced : g'.Traced n O'
  agree : ∀ x < g.idBound, x ≠ t.node → O' x = O x
  origins : O' t.node = O t.node ∪ A
  unused : g'.Unused t.node

theorem Traces.takes {T : InputRef → Prop} {O' O'' : NodeId → Set NodeId} {g'' : Graph}
    {t : InputRef} {A : Set NodeId} (h : g.Traces n O O' T g') (h' : g'.Takes n O' O'' t A g'')
    (ht : g.idBound ≤ t.node) : g.Traces n O O'' T g'' where
  evolves := h.evolves.trans_fresh h'.evolves fun r hr => Or.inr (hr ▸ ht)
  traced := h'.traced
  agree x hx := by
    rw [h'.agree x (Nat.lt_of_lt_of_le hx h.evolves.idBound_le)
      (Nat.ne_of_lt (Nat.lt_of_lt_of_le hx ht)), h.agree x hx]

end Graph

namespace Edit

open Shading.Graph

variable {g : Graph} {n : Nat} {O : NodeId → Set NodeId} {s : OutputRef} {e : OutputDecl}
  {t : InputRef} {d : InputDecl}

theorem inputDecl?_link (s' : OutputRef) (t' r : InputRef) :
    (g.link s' t').inputDecl? r = g.inputDecl? r := by
  rw [inputDecl?_eq_layout?, layout?_link, ← inputDecl?_eq_layout?]

/-- An input of one of the first nodes is linked through a new node `g.idBound`. -/
theorem traces_link_through (h : g.Traced n O) (hg : g.WellFormed) (hn : n ≤ g.idBound)
    (hs : s.node < g.idBound) {g₁ : Graph} (h₁ : g.Evolves (fun _ => False) g₁)
    (hl : ∀ r, g₁.linkAt r = g.linkAt r) {i : Nat} (hi : (g₁.inputDecl? ⟨g.idBound, i⟩).isSome)
    (ht : t.node < n) (hd : g.inputDecl? t = some d)
    (hev : g.Evolves (· = t) ((g₁.link s ⟨g.idBound, i⟩).link ⟨g.idBound, 0⟩ t)) :
    ∃ O', g.Traces n O O' (· = t) ((g₁.link s ⟨g.idBound, i⟩).link ⟨g.idBound, 0⟩ t) ∧
      ((g₁.link s ⟨g.idBound, i⟩).link ⟨g.idBound, 0⟩ t).inflow O' t = O s.node := by
  have hd₂ : ((g₁.link s ⟨g.idBound, i⟩).inputDecl? t).isSome := by
    rw [inputDecl?_link, h₁.inputDecl?_some hg hd]
    rfl
  refine ⟨Function.update O g.idBound (O s.node), ⟨hev, ?_, fun x hx => ?_⟩, ?_⟩
  · exact (h.link_new hg hn hl hs hi).link_node ht hd₂
  · exact Function.update_of_ne (Nat.ne_of_lt hx) _ _
  · rw [inflow_link_self hd₂, Function.update_self]

/-- A number is linked to an input of one of the first nodes, directly or through added nodes. -/
theorem ends_connect_node (hg : g.WellFormed) (hm : g.finalized = false) (h : g.Traced n O)
    (hn : n ≤ g.idBound) (hj : g.Joinable s e t d) (he : e.type = .float) (ht : t.node < n) :
    (connect s t).Ends g fun _ g' => ∃ O', g.Traces n O O' (· = t) g' ∧
      g'.inflow O' t = O s.node := by
  have hs : s.node < g.idBound := by
    obtain ⟨k, hk⟩ := g.kind?_of_outputDecl? hj.source
    exact g.lt_idBound_of_kind? hk
  refine meets_connect (fun hn => by simp [hm, hj.source, hj.target] at hn) ?_ ?_ ?_ ?_
  · intro e' d' c he' hd' hr
    obtain rfl := Option.some.inj (hj.source.symm.trans he')
    obtain rfl := Option.some.inj (hj.target.symm.trans hd')
    simp [hj.free, hj.linkable, he] at hr
  · intro e' d' hj' hty
    have hd := Option.isSome_iff_exists.mpr ⟨_, hj'.target⟩
    exact ⟨O, ⟨evolves_link hg hj'.source hj'.target hj'.free hj'.linkable hty, h.link_node ht hd,
      fun _ _ => rfl⟩, inflow_link_self hd⟩
  · intro e' d' hj' _ hc
    obtain rfl := Option.some.inj (hj.source.symm.trans hj'.source)
    have hev := evolves_emitted hg hj' hc
    have h₁ := evolves_withEmission hg
    obtain ⟨d', -, hin⟩ := exists_joinable_strength hj.source
    rw [emitted, feedEmission, if_pos he] at hev ⊢
    rw [withEmission_eq_push] at h₁ hev ⊢
    exact traces_link_through h hg hn hs h₁ (g.linkAt_push _) (by simp [hin.target]) ht hj.target hev
  · intro e' d' hj' _ _ _
    have hev := evolves_bridged hg hj'
    have h₁ := evolves_push hg (Node.sound_ofKind (.convert e'.type d'.type true))
    have hk := g.kind?_push_self (Node.ofKind (.convert e'.type d'.type true))
    have hin := Option.isSome_iff_exists.mpr ⟨_, h₁.wellFormed.inputDecl?_eq hk 0⟩
    exact traces_link_through h hg hn hs h₁ (g.linkAt_push _) hin ht hj.target hev

/-- An output is linked to an input of an added node that takes numbers. Closures are refused. -/
theorem ends_connect_added (hg : g.WellFormed) (hm : g.finalized = false) (h : g.Traced n O)
    (hn : n ≤ g.idBound) (hj : g.Joinable s e t d) (hd : d.type = .float) (ht : n ≤ t.node)
    (hun : g.Unused t.node) (hne : s.node ≠ t.node) :
    (connect s t).Ends g fun _ g' => ∃ O',
      g.Takes n O O' t (if e.type = .closure then ∅ else O s.node) g' := by
  have hs : s.node < g.idBound := by
    obtain ⟨k, hk⟩ := g.kind?_of_outputDecl? hj.source
    exact g.lt_idBound_of_kind? hk
  refine meets_connect (fun hn => by simp [hm, hj.source, hj.target] at hn) ?_ ?_ ?_ ?_
  · intro e' d' c he' hd' hr
    obtain rfl := Option.some.inj (hj.source.symm.trans he')
    obtain rfl := Option.some.inj (hj.target.symm.trans hd')
    rcases hr with hl | hl | ⟨hc, -⟩
    · exact absurd hj.free hl
    · simp [hj.linkable] at hl
    rw [if_pos hc]
    exact ⟨O, (evolves_report hg c).widen, h.of_linkAt fun _ _ => rfl, fun _ _ _ => rfl,
      (Set.union_empty _).symm, hun⟩
  · intro e' d' hj' hty
    obtain rfl := Option.some.inj (hj.source.symm.trans hj'.source)
    obtain rfl := Option.some.inj (hj.target.symm.trans hj'.target)
    have hd' := Option.isSome_iff_exists.mpr ⟨_, hj'.target⟩
    have hc : e.type ≠ .closure := by
      intro hc
      rw [hc, hd] at hty
      exact absurd hty (by decide)
    rw [if_neg hc]
    exact ⟨_, evolves_link hg hj'.source hj'.target hj'.free hj'.linkable hty,
      h.link_added ht hun hne hd' hj.free, fun x _ hx => Function.update_of_ne hx _ _,
      Function.update_self _ _ _, hun.link hne hd'⟩
  · intro e' d' hj' _ hc
    obtain rfl := Option.some.inj (hj.target.symm.trans hj'.target)
    rw [hd] at hc
    cases hc
  · intro e' d' hj' _ hc _
    obtain rfl := Option.some.inj (hj.source.symm.trans hj'.source)
    rw [if_neg hc]
    have h₁ := evolves_push hg (Node.sound_ofKind (.convert e.type d'.type true))
    have hk := g.kind?_push_self (Node.ofKind (.convert e.type d'.type true))
    have hin := Option.isSome_iff_exists.mpr ⟨_, h₁.wellFormed.inputDecl?_eq hk 0⟩
    have htb := node_lt_of_inputDecl? hj.target
    have hct : g.idBound ≠ t.node := Nat.ne_of_gt htb
    have h₂ := h.link_new hg hn (g.linkAt_push _) hs hin
    have hun₂ := Unused.link (fun r o ho => hun r o (g.linkAt_push _ r ▸ ho)) hne hin
    have hd₂ := (inputDecl?_link s ⟨g.idBound, 0⟩ t).trans (h₁.inputDecl?_some hg hj.target)
    have hd₂' := Option.isSome_iff_exists.mpr ⟨_, hd₂⟩
    refine ⟨_, evolves_bridged hg hj', h₂.link_added (s := ⟨g.idBound, 0⟩) ht hun₂ hct hd₂' ?_, ?_, ?_,
      hun₂.link hct hd₂'⟩
    · rw [linkAt_link _ hin, if_neg, linkAt_push, hj.free]
      rintro rfl
      exact hct rfl
    · intro x hx hxt
      rw [Function.update_of_ne hxt, Function.update_of_ne (Nat.ne_of_lt hx)]
    · rw [Function.update_self, Function.update_of_ne hct.symm, Function.update_self]

end Edit

end Shading
