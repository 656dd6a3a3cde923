import Shading.Proofs.Bump
import Shading.Proofs.Fingerprint

/-!
# Which heights are refined

The bumps of a graph are visited one after another (`Graph.Visited`). As long as no bump with a height
stands behind the height of another one, they do not get into each other's way: the nodes behind each
height are those of the original graph, and what was tagged for one bump stays so
(`Graph.RefinedSoFar`). Otherwise it depends on the order what goes wrong (`Graph.Spoilt`). If the outer
bump comes first, then the inner one is copied with its height, and no one returns to the copies. If
the inner one comes first, then its samples beside the centre are behind the outer height by then, and
are tagged as a centre. In neither case can later steps make it good. -/

namespace Shading

open Relation

namespace Graph

open Edit (copiesOf)

variable {g g' g'' : Graph} {P : Set NodeId} {a b id x u : Nat} {source : OutputRef}

/-- The inputs of a bump that take samples of its height, with the samples that they take. -/
def sampleInputs : List (Nat × BumpSample) := [(1, .center), (2, .dx), (3, .dy)]

theorem slot_ne_zero {p : Nat × BumpSample} (hp : p ∈ sampleInputs) : p.1 ≠ 0 := by
  simp only [sampleInputs, List.mem_cons, List.not_mem_nil, or_false] at hp
  rcases hp with rfl | rfl | rfl <;> decide

/-- A bump whose height is linked. -/
def HasHeight (g : Graph) (b : NodeId) : Prop := g.IsBump b ∧ g.linkAt ⟨b, 0⟩ ≠ none

instance (g : Graph) (b : NodeId) : Decidable (g.HasHeight b) := by
  unfold HasHeight IsBump
  infer_instance

/-- A node takes part in computing the height of a bump. -/
def BehindHeight (g : Graph) (b a : NodeId) : Prop :=
  ∃ s, g.linkAt ⟨b, 0⟩ = some s ∧ ReflTransGen g.Feeds a s.node

/-- In `g'` no bump has a height, and those that had one in `g` are linked to its three samples. -/
structure HeightsSampled (g g' : Graph) : Prop where
  free : ∀ b, ¬ g'.HasHeight b
  sampled : ∀ b, g.HasHeight b → ∀ p ∈ sampleInputs,
    ∃ o, g'.linkAt ⟨b, p.1⟩ = some o ∧ g'.sample? o.node = some p.2

/-- The sample that a node computes once all heights are refined. -/
def Settles (g : Graph) (u : NodeId) (sample : BumpSample) : Prop :=
  (∃ b, g.HasHeight b ∧ g.BehindHeight b u) ∧ sample = .center ∨
    (¬ ∃ b, g.HasHeight b ∧ g.BehindHeight b u) ∧ g.sample? u = some sample

/-- No bump with a height stands behind the height of a bump, and where a bump is linked to a sample
already it is one of the right kind. -/
structure Refinable (g : Graph) : Prop where
  unnested : ∀ a b, g.HasHeight a → g.HasHeight b → ¬ g.BehindHeight b a
  samples : ∀ b, g.HasHeight b → ∀ p ∈ sampleInputs, ∀ o, g.linkAt ⟨b, p.1⟩ = some o →
    g.Settles o.node p.2

theorem HasHeight.mem_ids (h : g.HasHeight b) : b ∈ g.ids := by
  obtain ⟨⟨invert, objectSpace, hk⟩, -⟩ := h
  exact (g.mem_ids_iff_kind?).mpr ⟨_, hk⟩

theorem HasHeight.lt (h : g.HasHeight b) : b < g.idBound := node_lt_of_linkAt h.2

theorem mem_cone_iff_behindHeight (hg : g.WellFormed) (hs : g.linkAt ⟨b, 0⟩ = some source) :
    a ∈ g.cone source.node ↔ g.BehindHeight b a := by
  rw [hg.mem_cone (hg.mem_ids_of_feeds (feeds_of_linkAt hs)).1, BehindHeight, hs]
  simp

theorem BehindHeight.mem_ids (hg : g.WellFormed) (h : g.BehindHeight b a) : a ∈ g.ids := by
  obtain ⟨s, hs, hreach⟩ := h
  exact mem_ids_of_mem_cone ((mem_cone_iff_behindHeight hg hs).mpr ⟨s, hs, hreach⟩)

theorem exists_sample? (h : u ∈ g.ids) : ∃ sample, g.sample? u = some sample := by
  obtain ⟨n, hn⟩ := exists_node_of_mem h
  exact ⟨n.bump, by simp [sample?, hn]⟩

theorem Quiet.sample?_eq (h : g.Quiet g') (hu : u < g.idBound) : g'.sample? u = g.sample? u := by
  rw [sample?_eq_bare?, h.bare?_eq u hu, sample?_eq_bare?]

theorem Evolves.hasHeight_iff {T : InputRef → Prop} (h : g.Evolves T g') (hx : x < g.idBound)
    (hT : ¬ T ⟨x, 0⟩) : g'.HasHeight x ↔ g.HasHeight x := by
  rw [HasHeight, HasHeight, IsBump, IsBump, h.kind?_eq x hx, h.linkAt_eq ⟨x, 0⟩ hx hT]

/-- A copy has a height only if its original has. -/
theorem Copies.exists_hasHeight {ids : List NodeId} {copies : CopyMap} (h : g.Copies ids copies g')
    (hids : ∀ a ∈ ids, a < g.idBound) (hx : g.idBound ≤ x) (hheight : g'.HasHeight x) :
    ∃ a ∈ ids, g.HasHeight a := by
  obtain ⟨⟨invert, objectSpace, hk⟩, hl⟩ := hheight
  obtain ⟨o, ho⟩ := Option.ne_none_iff_exists'.mp hl
  obtain ⟨a, o', hp, ha, ho', -⟩ := h.exists_link hids hx ho
  refine ⟨a, ?_, ⟨invert, objectSpace, (h.kind?_eq _ hp ha).symm.trans hk⟩, by simp [ho']⟩
  rw [← CopyMap.map_fst_numbered ids g.idBound, ← h.numbered]
  exact List.mem_map_of_mem hp

/-! ### One bump -/

namespace Samples

variable {ids : List NodeId} {g₁ g₂ : Graph} (h : g.Samples id source ids g₁ g₂ g')
include h

theorem sample?_eq (u : NodeId) : g'.sample? u = (g₂.sample? u).map fun old =>
    (sampleOf ids (copiesOf (.numbered ids g.idBound)) (copiesOf (.numbered ids g₁.idBound)) u).getD
      old := by
  obtain ⟨filterWidth, g₃, hoffers, rfl⟩ := h.offered
  rw [sample?_eq_bare?, bare?_unlink, hoffers.bare?_eq, ← sample?_eq_bare?, sample?_tagAll]

/-- The nodes behind the height become the centre, and all others keep their tags. -/
theorem sample?_old (hu : u < g.idBound) :
    g'.sample? u = (g.sample? u).map fun old => if u ∈ ids then .center else old := by
  have hquiet := h.dx.quiet.trans h.dy.quiet h.dx.evolves.idBound_le
  have h₁ := h.dx.idBound_eq
  have hdx : u ∉ copiesOf (.numbered ids g.idBound) := by
    rw [CopyMap.mem_copiesOf_numbered]
    omega
  have hdy : u ∉ copiesOf (.numbered ids g₁.idBound) := by
    rw [CopyMap.mem_copiesOf_numbered]
    omega
  rw [h.sample?_eq, hquiet.sample?_eq hu]
  split_ifs with hmem
  · rw [sampleOf_of_center hdy hdx hmem]
    rfl
  · rw [sampleOf_of_not_mem hdy hdx hmem]
    rfl

theorem sample?_old_of_center (hu : g.sample? u = some .center) : g'.sample? u = some .center := by
  have hlt : u < g.idBound := by
    obtain ⟨n, hn, -⟩ := Option.map_eq_some_iff.mp hu
    exact g.lt_idBound_of_mem (mem_ids_of_node hn)
  rw [h.sample?_old hlt, hu, Option.map_some, ite_self]

theorem sample?_of_mem (hu : u ∈ ids) : g'.sample? u = some .center := by
  obtain ⟨sample, hsample⟩ := exists_sample? (mem_ids_of_mem_cone (h.cone_eq ▸ hu))
  rw [h.sample?_old (h.bounded u hu), hsample, Option.map_some, if_pos hu]

theorem sample?_dx (ha : a ∈ ids) : g'.sample? (CopyMap.copyId ids g.idBound a) = some .dx := by
  have hlt := h.dx_lt ha
  have hdx : CopyMap.copyId ids g.idBound a ∈ copiesOf (.numbered ids g.idBound) :=
    CopyMap.mem_copiesOf_numbered.mpr ⟨CopyMap.le_copyId _ _ _, CopyMap.copyId_lt ha _⟩
  have hdy : CopyMap.copyId ids g.idBound a ∉ copiesOf (.numbered ids g₁.idBound) := by
    rw [CopyMap.mem_copiesOf_numbered]
    omega
  have hmem := Edit.mem_ids_of_copies h.dx
    (fun c hc => mem_ids_of_mem_cone (h.cone_eq ▸ hc)) _ hdx
  obtain ⟨sample, hsample⟩ := exists_sample? (h.dy.evolves.ids_subset hmem)
  rw [h.sample?_eq, sampleOf_of_dx hdy hdx, hsample]
  rfl

theorem sample?_dy (ha : a ∈ ids) : g'.sample? (CopyMap.copyId ids g₁.idBound a) = some .dy := by
  have hdy : CopyMap.copyId ids g₁.idBound a ∈ copiesOf (.numbered ids g₁.idBound) :=
    CopyMap.mem_copiesOf_numbered.mpr ⟨CopyMap.le_copyId _ _ _, CopyMap.copyId_lt ha _⟩
  have hmem := Edit.mem_ids_of_copies h.dy
    (fun c hc => h.dx.evolves.ids_subset (mem_ids_of_mem_cone (h.cone_eq ▸ hc))) _ hdy
  obtain ⟨sample, hsample⟩ := exists_sample? hmem
  rw [h.sample?_eq, sampleOf_of_dy hdy, hsample]
  rfl

theorem linkAt_height : g'.linkAt ⟨id, 0⟩ = none := by rw [h.linkAt_eq, if_pos rfl]

/-- An input of the bump other than the height keeps its link. -/
theorem linkAt_of_linked {slot : Nat} (hslot : slot ≠ 0) {o : OutputRef}
    (ho : g.linkAt ⟨id, slot⟩ = some o) : g'.linkAt ⟨id, slot⟩ = some o := by
  rw [h.linkAt_eq, if_neg (by simpa using hslot), h.linkAt_copies, ho, Option.some_or]

/-- An input for a sample that is free is linked to such a sample. -/
theorem exists_sample (hg : g.WellFormed) {p : Nat × BumpSample} (hp : p ∈ sampleInputs)
    (hfree : g.linkAt ⟨id, p.1⟩ = none) :
    ∃ o, g'.linkAt ⟨id, p.1⟩ = some o ∧ g'.sample? o.node = some p.2 ∧
      (g.idBound ≤ o.node ∨ p.2 = .center) := by
  have hmem := h.source_mem hg
  simp only [sampleInputs, List.mem_cons, List.not_mem_nil, or_false] at hp
  rcases hp with rfl | rfl | rfl
  · refine ⟨source, ?_, h.sample?_of_mem hmem, Or.inr rfl⟩
    rw [h.linkAt_eq, h.linkAt_copies, hfree]
    simp [sampleLinks]
  · refine ⟨⟨CopyMap.copyId ids g.idBound source.node, source.slot⟩, ?_, h.sample?_dx hmem,
      Or.inl (CopyMap.le_copyId _ _ _)⟩
    rw [h.linkAt_eq, h.linkAt_copies, hfree]
    simp [sampleLinks]
  · refine ⟨⟨CopyMap.copyId ids g₁.idBound source.node, source.slot⟩, ?_, h.sample?_dy hmem,
      Or.inl (h.dx.evolves.idBound_le.trans (CopyMap.le_copyId _ _ _))⟩
    rw [h.linkAt_eq, h.linkAt_copies, hfree]
    simp [sampleLinks]

/-- A new bump has a height only if it is a copy of one that has. -/
theorem exists_hasHeight (hx : g.idBound ≤ x) (hheight : g'.HasHeight x) :
    ∃ a ∈ ids, g.HasHeight a := by
  have hne : x ≠ id := fun heq => Nat.not_le.mpr h.id_lt (heq ▸ hx)
  obtain ⟨o, ho⟩ := Option.ne_none_iff_exists'.mp hheight.2
  have ho₂ : g₂.linkAt ⟨x, 0⟩ = some o := (h.link_cases ho).resolve_right fun hid => hne hid.1
  have hx₂ : x < g₂.idBound := node_lt_of_linkAt (r := ⟨x, 0⟩) (by simp [ho₂])
  have hheight₂ := (h.evolves'.hasHeight_iff hx₂ hne).mp hheight
  by_cases hx₁ : x < g₁.idBound
  · exact h.dx.exists_hasHeight h.bounded hx ((h.dy.evolves.hasHeight_iff hx₁ not_false).mp hheight₂)
  · obtain ⟨a, ha, haheight⟩ := h.dy.exists_hasHeight h.bounded' (Nat.not_lt.mp hx₁) hheight₂
    exact ⟨a, ha, (h.dx.evolves.hasHeight_iff (h.bounded a ha) not_false).mp haheight⟩

/-- A bump with a height behind the height that is split has a copy with a height. -/
theorem hasHeight_copy (hg : g.WellFormed) (ha : a ∈ ids) (hheight : g.HasHeight a) :
    g'.HasHeight (CopyMap.copyId ids g.idBound a) := by
  have hlt := h.dx_lt ha
  have hne : CopyMap.copyId ids g.idBound a ≠ id := fun heq =>
    Nat.not_le.mpr h.id_lt (heq ▸ CopyMap.le_copyId ids g.idBound a)
  have hclosed : ∀ a ∈ ids, ∀ c, g.Feeds c a → c ∈ ids := h.cone_eq ▸ hg.cone_closed h.linked
  obtain ⟨⟨invert, objectSpace, hk⟩, hl⟩ := hheight
  rw [h.evolves'.hasHeight_iff (Nat.lt_of_lt_of_le hlt h.dy.evolves.idBound_le) hne,
    h.dy.evolves.hasHeight_iff hlt not_false]
  refine ⟨⟨invert, objectSpace, (h.dx.kind?_eq _ (h.mem_dx ha) (h.bounded a ha)).trans hk⟩, ?_⟩
  rw [h.dx.linkAt_copyId h.nodup h.bounded hclosed ha]
  simpa using hl

end Samples

/-! ### Bumps one after another -/

/-- The bumps in `P` have lost their heights, and all their inputs for samples are linked. -/
structure Visited (P : Set NodeId) (g g' : Graph) : Prop where
  hasHeight : ∀ b ∈ P, g.HasHeight b
  evolves : g.Evolves (·.node ∈ P) g'
  free : ∀ b ∈ P, g'.linkAt ⟨b, 0⟩ = none
  linked : ∀ b ∈ P, ∀ p ∈ sampleInputs, g'.linkAt ⟨b, p.1⟩ ≠ none

/-- The bumps in `P` are refined, and do not stand in the way of any other. -/
structure RefinedSoFar (P : Set NodeId) (g g' : Graph) : Prop extends g.Visited P g' where
  unnested : ∀ b ∈ P, ∀ a, g.HasHeight a → ¬ g.BehindHeight b a
  tagged : ∀ b ∈ P, ∀ u, g.BehindHeight b u → g'.sample? u = some .center
  untagged : ∀ u < g.idBound, (∀ b ∈ P, ¬ g.BehindHeight b u) → g'.sample? u = g.sample? u
  fresh : ∀ x, g.idBound ≤ x → ¬ g'.HasHeight x
  kept : ∀ b ∈ P, ∀ p ∈ sampleInputs, ∀ o, g.linkAt ⟨b, p.1⟩ = some o →
    g'.linkAt ⟨b, p.1⟩ = some o
  sampled : ∀ b ∈ P, ∀ p ∈ sampleInputs, g.linkAt ⟨b, p.1⟩ = none →
    ∃ o, g'.linkAt ⟨b, p.1⟩ = some o ∧ g'.sample? o.node = some p.2 ∧
      (g.idBound ≤ o.node ∨ p.2 = .center)

/-- Something went wrong with a bump that stands behind the height of another one. Either a copy of it
has a height, or its sample beside the centre was tagged as a centre. -/
def Spoilt (g g' : Graph) : Prop :=
  (∃ x, g.idBound ≤ x ∧ g'.HasHeight x) ∨
    ∃ b o, g.HasHeight b ∧ g'.linkAt ⟨b, 2⟩ = some o ∧ g'.sample? o.node = some .center

theorem Spoilt.not_heightsSampled (h : g.Spoilt g') : ¬ g.HeightsSampled g' := by
  intro hs
  rcases h with ⟨x, -, hx⟩ | ⟨b, o, hb, ho, hc⟩
  · exact hs.free x hx
  · obtain ⟨o', ho', hdx⟩ := hs.sampled b hb (2, .dx) (by simp [sampleInputs])
    rw [ho, Option.some.injEq] at ho'
    rw [← ho', hc] at hdx
    cases hdx

section

variable {ids : List NodeId} {g₁ g₂ : Graph} (hs : g'.Samples id source ids g₁ g₂ g'')
include hs

/-- What went wrong is not made good by later steps. -/
theorem Spoilt.step (h : g.Spoilt g') (hid : id < g.idBound) : g.Spoilt g'' := by
  rcases h with ⟨x, hx, hheight⟩ | ⟨b, o, hb, ho, hc⟩
  · have hne : x ≠ id := fun heq => Nat.not_le.mpr hid (heq ▸ hx)
    exact Or.inl ⟨x, hx, (hs.evolves.hasHeight_iff hheight.lt hne).mpr hheight⟩
  · refine Or.inr ⟨b, o, hb, ?_, hs.sample?_old_of_center hc⟩
    by_cases hne : b = id
    · subst hne
      exact hs.linkAt_of_linked (by decide) ho
    · have hlt : b < g'.idBound := node_lt_of_linkAt (r := ⟨b, 2⟩) (by simp [ho])
      exact (hs.evolves.linkAt_eq ⟨b, 2⟩ hlt hne).trans ho

end

namespace Visited

theorem refl (hg : g.WellFormed) : g.Visited ∅ g := ⟨nofun, .refl hg, nofun, nofun⟩

variable {ids : List NodeId} {g₁ g₂ : Graph} (h : g.Visited P g')
include h

theorem linkAt_eq (ha : a < g.idBound) (haP : a ∉ P) (slot : Nat) :
    g'.linkAt ⟨a, slot⟩ = g.linkAt ⟨a, slot⟩ := h.evolves.linkAt_eq ⟨a, slot⟩ ha haP

/-- The nodes behind a height are those of the original graph, if no visited bump is among them. -/
theorem mem_cone_iff (hg : g.WellFormed) (hl : g.linkAt ⟨b, 0⟩ = some source)
    (hP : ∀ a ∈ P, ¬ g.BehindHeight b a) : u ∈ g'.cone source.node ↔ g.BehindHeight b u := by
  have hsource := (hg.mem_ids_of_feeds (feeds_of_linkAt hl)).1
  rw [← mem_cone_iff_behindHeight hg hl, ← hg.cone_eq_of_linkAt_eq h.evolves.wellFormed hsource
    (h.evolves.ids_subset hsource) fun a ha slot => ?_]
  have hbehind := (mem_cone_iff_behindHeight hg hl).mp ha
  exact (h.linkAt_eq (lt_idBound_of_mem_cone ha) (fun haP => hP a haP hbehind) slot).symm

/-- On the way to a node, the last visited bump is still linked to it. -/
theorem exists_reflTransGen (hg : g.WellFormed) (hreach : ReflTransGen g.Feeds a x) :
    ReflTransGen g'.Feeds a x ∨ ∃ b ∈ P, ReflTransGen g'.Feeds b x := by
  induction hreach using ReflTransGen.head_induction_on with
  | refl => exact Or.inl .refl
  | @head a c hac _ ih =>
    refine ih.elim (fun hcx => ?_) Or.inr
    by_cases hcP : c ∈ P
    · exact Or.inr ⟨c, hcP, hcx⟩
    · have hlt := g.lt_idBound_of_mem (hg.mem_ids_of_feeds hac).2
      have hac' := feeds_of_linkAt_eq (fun slot => (h.linkAt_eq hlt hcP slot).symm) hac
      exact Or.inl (.head hac' hcx)

theorem not_hasHeight (hall : ∀ b, g.HasHeight b → b ∈ P) (hb : b < g.idBound) :
    ¬ g'.HasHeight b := by
  intro hheight
  by_cases hbP : b ∈ P
  · exact hheight.2 (h.free b hbP)
  · exact hbP (hall b ((h.evolves.hasHeight_iff hb hbP).mp hheight))

variable (hs : g'.Samples id source ids g₁ g₂ g'')
include hs

theorem not_mem : id ∉ P := fun hid => by simpa [h.free id hid] using hs.linked

/-- A bump whose height is linked when its turn comes has it from the start. -/
theorem linkAt_height (hid : id < g.idBound) : g.linkAt ⟨id, 0⟩ = some source :=
  (h.linkAt_eq hid (h.not_mem hs) 0).symm.trans hs.linked

/-- A visited bump is left alone. -/
theorem linkAt_step (hb : b ∈ P) (slot : Nat) : g''.linkAt ⟨b, slot⟩ = g'.linkAt ⟨b, slot⟩ :=
  hs.evolves.linkAt_eq ⟨b, slot⟩
    (Nat.lt_of_lt_of_le (h.hasHeight b hb).lt h.evolves.idBound_le)
    fun heq => h.not_mem hs (heq ▸ hb)

/-- One more bump. -/
theorem insert (hheight : g.HasHeight id) : g.Visited (insert id P) g'' where
  hasHeight := Set.forall_mem_insert.mpr ⟨hheight, h.hasHeight⟩
  evolves := (h.evolves.mono fun _ => Or.inr).trans (hs.evolves.mono fun _ => Or.inl)
  free := Set.forall_mem_insert.mpr
    ⟨hs.linkAt_height, fun b hb => (h.linkAt_step hs hb 0).trans (h.free b hb)⟩
  linked := by
    refine Set.forall_mem_insert.mpr ⟨fun p hp => ?_, fun b hb p hp => ?_⟩
    · cases hl : g'.linkAt ⟨id, p.1⟩ with
      | none =>
        obtain ⟨o, ho, -⟩ := hs.exists_sample h.evolves.wellFormed hp hl
        simp [ho]
      | some o => simp [hs.linkAt_of_linked (slot_ne_zero hp) hl]
    · rw [h.linkAt_step hs hb]
      exact h.linked b hb p hp

/-- **A bump behind the height of another one** is refined as well, but not rightly. -/
theorem spoilt (hg : g.WellFormed) (hid : id < g.idBound) (ha : g.HasHeight a)
    (hbehind : g.BehindHeight id a) : g.Spoilt g'' := by
  have hl := h.linkAt_height hs hid
  have hg' := h.evolves.wellFormed
  have hsource := (hg'.mem_ids_of_feeds (feeds_of_linkAt hs.linked)).1
  by_cases hP : ∃ b ∈ P, g.BehindHeight id b
  · -- the last visited bump on the way feeds the height, and so do its samples
    obtain ⟨b, hbP, s, hls, hreach⟩ := hP
    obtain rfl : source = s := Option.some.inj (hl.symm.trans hls)
    obtain ⟨c, hcP, hcreach⟩ : ∃ c ∈ P, ReflTransGen g'.Feeds c source.node :=
      (h.exists_reflTransGen hg hreach).elim (fun hb => ⟨b, hbP, hb⟩) fun hc => hc
    obtain ⟨o, ho⟩ := Option.ne_none_iff_exists'.mp
      (h.linked c hcP (2, .dx) (by simp [sampleInputs]))
    have hmem : o.node ∈ ids := by
      rw [hs.cone_eq, hg'.mem_cone hsource]
      exact .head (feeds_of_linkAt ho) hcreach
    exact Or.inr ⟨c, o, h.hasHeight c hcP, (h.linkAt_step hs hcP 2).trans ho,
      hs.sample?_of_mem hmem⟩
  · -- the bump still has its height, and so has its copy
    have hP' : ∀ b ∈ P, ¬ g.BehindHeight id b := fun b hbP hb => hP ⟨b, hbP, hb⟩
    have hmem : a ∈ ids := by
      rw [hs.cone_eq]
      exact (h.mem_cone_iff hg hl hP').mpr hbehind
    have haheight := (h.evolves.hasHeight_iff ha.lt fun haP => hP' a haP hbehind).mpr ha
    exact Or.inl ⟨_, h.evolves.idBound_le.trans (CopyMap.le_copyId ids g'.idBound a),
      hs.hasHeight_copy hg' hmem haheight⟩

end Visited

namespace RefinedSoFar

theorem refl (hg : g.WellFormed) : g.RefinedSoFar ∅ g where
  toVisited := .refl hg
  unnested := nofun
  tagged := nofun
  untagged _ _ _ := rfl
  fresh _ hx hheight := Nat.not_le.mpr hheight.lt hx
  kept := nofun
  sampled := nofun

variable {ids : List NodeId} {g₁ g₂ : Graph} (h : g.RefinedSoFar P g')
include h

/-- **One more bump**, behind whose height there is none with a height. -/
theorem insert (hs : g'.Samples id source ids g₁ g₂ g'') (hg : g.WellFormed)
    (hheight : g.HasHeight id) (hun : ∀ a, g.HasHeight a → ¬ g.BehindHeight id a) :
    g.RefinedSoFar (insert id P) g'' := by
  have hl := h.linkAt_height hs hheight.lt
  have hb := h.evolves.idBound_le
  have hsame := h.linkAt_eq hheight.lt (h.not_mem hs)
  have hmem : ∀ u, u ∈ ids ↔ g.BehindHeight id u := fun u => by
    rw [hs.cone_eq]
    exact h.mem_cone_iff hg hl fun a haP => hun a (h.hasHeight a haP)
  have hids : ∀ u ∈ ids, u < g.idBound := fun u hu =>
    g.lt_idBound_of_mem (((hmem u).mp hu).mem_ids hg)
  refine ⟨h.toVisited.insert hs hheight, ?_, ?_, ?_, ?_, ?_, ?_⟩
  · exact Set.forall_mem_insert.mpr ⟨hun, h.unnested⟩
  · refine Set.forall_mem_insert.mpr ⟨fun u hu => hs.sample?_of_mem ((hmem u).mpr hu), ?_⟩
    exact fun b hbP u hu => hs.sample?_old_of_center (h.tagged b hbP u hu)
  · intro u hu hnot
    obtain ⟨hnid, hnP⟩ := Set.forall_mem_insert.mp hnot
    rw [hs.sample?_old (Nat.lt_of_lt_of_le hu hb), h.untagged u hu hnP]
    simp [hmem, hnid]
  · intro x hx hxheight
    by_cases hlt : x < g'.idBound
    · have hxid : x ≠ id := fun heq => Nat.not_le.mpr hheight.lt (heq ▸ hx)
      exact h.fresh x hx ((hs.evolves.hasHeight_iff hlt hxid).mp hxheight)
    · obtain ⟨a, ha, haheight⟩ := hs.exists_hasHeight (Nat.not_lt.mp hlt) hxheight
      -- the original of a new bump with a height is not visited, so it had one from the start
      have haP : a ∉ P := fun haP => haheight.2 (h.free a haP)
      exact hun a ((h.evolves.hasHeight_iff (hids a ha) haP).mp haheight) ((hmem a).mp ha)
  · refine Set.forall_mem_insert.mpr ⟨fun p hp o ho => ?_, fun b hbP p hp o ho => ?_⟩
    · exact hs.linkAt_of_linked (slot_ne_zero hp) ((hsame p.1).trans ho)
    · exact (h.linkAt_step hs hbP p.1).trans (h.kept b hbP p hp o ho)
  · refine Set.forall_mem_insert.mpr ⟨fun p hp hfree => ?_, fun b hbP p hp hfree => ?_⟩
    · obtain ⟨o, ho, hsample, hcase⟩ := hs.exists_sample h.evolves.wellFormed hp
        ((hsame p.1).trans hfree)
      exact ⟨o, ho, hsample, hcase.imp_left hb.trans⟩
    · obtain ⟨o, ho, hsample, hcase⟩ := h.sampled b hbP p hp hfree
      refine ⟨o, (h.linkAt_step hs hbP p.1).trans ho, ?_, hcase⟩
      -- a sample beside the centre is new, so it is not among the nodes that are tagged
      rcases hcase with hge | hcenter
      · have ho' : o.node < g'.idBound := h.evolves.wellFormed.source_lt ho
        have hnot : o.node ∉ ids := fun hmem => Nat.not_le.mpr (hids _ hmem) hge
        rw [hs.sample?_old ho', hsample, Option.map_some, if_neg hnot]
      · exact hcenter ▸ hs.sample?_old_of_center (hcenter ▸ hsample)

theorem settles_iff (hall : ∀ b, g.HasHeight b → b ∈ P) (hu : u < g.idBound)
    (sample : BumpSample) : g'.sample? u = some sample ↔ g.Settles u sample := by
  by_cases hbehind : ∃ b, g.HasHeight b ∧ g.BehindHeight b u
  · have ⟨b, hb, hbu⟩ := hbehind
    rw [h.tagged b (hall b hb) u hbu, Option.some.injEq]
    simp [Settles, hbehind, eq_comm]
  · rw [h.untagged u hu fun b hbP hbu => hbehind ⟨b, h.hasHeight b hbP, hbu⟩]
    simp [Settles, hbehind]

/-- Once all bumps are refined, what counts is to what they were linked before. -/
theorem heightsSampled_iff (hg : g.WellFormed) (hall : ∀ b, g.HasHeight b → b ∈ P) :
    g.HeightsSampled g' ↔ g.Refinable := by
  constructor
  · refine fun hs => ⟨fun a b ha hb => h.unnested b (hall b hb) a ha, fun b hb p hp o ho => ?_⟩
    obtain ⟨o', ho', hsample⟩ := hs.sampled b hb p hp
    rw [h.kept b (hall b hb) p hp o ho, Option.some.injEq] at ho'
    exact (h.settles_iff hall (hg.source_lt ho) p.2).mp (ho' ▸ hsample)
  · refine fun hr => ⟨fun b hb => ?_, fun b hb p hp => ?_⟩
    · by_cases hlt : b < g.idBound
      · exact h.not_hasHeight hall hlt hb
      · exact h.fresh b (Nat.not_lt.mp hlt) hb
    · cases ho : g.linkAt ⟨b, p.1⟩ with
      | none =>
        obtain ⟨o, hl, hsample, -⟩ := h.sampled b (hall b hb) p hp ho
        exact ⟨o, hl, hsample⟩
      | some o =>
        exact ⟨o, h.kept b (hall b hb) p hp o ho,
          (h.settles_iff hall (hg.source_lt ho) p.2).mpr (hr.samples b hb p hp o ho)⟩

end RefinedSoFar

end Graph

namespace Edit

open Shading.Graph

variable {g : Graph}

/-- All bumps are visited one after another. They are refined, until one stands behind the height of
another one. -/
theorem ends_refineBumps_heights (hg : g.WellFormed) (hm : g.finalized = false) :
    refineBumps.Ends g fun _ g' => ∃ P, (∀ b, g.HasHeight b → b ∈ P) ∧ g.Visited P g' ∧
      (g.RefinedSoFar P g' ∨ ¬ g.Refinable ∧ g.Spoilt g') := by
  refine (ends_refineBumps_of (I := fun rest g' => ∃ P, (∀ b, g.HasHeight b → b ∈ P ∨ b ∈ rest) ∧
    g.Visited P g' ∧ (g.RefinedSoFar P g' ∨ ¬ g.Refinable ∧ g.Spoilt g')) hg hm ?_ ?_ ?_).mono ?_
  · exact ⟨∅, fun b hb => Or.inr hb.mem_ids, .refl hg, Or.inl (.refl hg)⟩
  · rintro id rest g' ⟨P, hall, hv, h⟩ hfree
    refine ⟨P, fun b hb => ?_, hv, h⟩
    rcases hall b hb with hbP | hmem
    · exact Or.inl hbP
    rcases List.mem_cons.mp hmem with rfl | hrest
    · by_contra hnot
      have hb' := (hv.evolves.hasHeight_iff hb.lt fun hbP => hnot (Or.inl hbP)).mpr hb
      exact hb'.2 (hfree hb'.1)
    · exact Or.inr hrest
  · rintro id rest source ids g' g₁ g₂ g'' - hbump ⟨P, hall, hv, h⟩ hs
    have hlt := IsBump.lt_idBound hbump
    have hheight : g.HasHeight id := ⟨hbump, by simp [hv.linkAt_height hs hlt]⟩
    refine ⟨insert id P, fun b hb => ?_, hv.insert hs hheight, ?_⟩
    · rcases hall b hb with hbP | hmem
      · exact Or.inl (Or.inr hbP)
      · exact (List.mem_cons.mp hmem).imp_left Or.inl
    rcases h with h | ⟨hnot, hbad⟩
    · by_cases hun : ∀ a, g.HasHeight a → ¬ g.BehindHeight id a
      · exact Or.inl (h.insert hs hg hheight hun)
      · push Not at hun
        obtain ⟨a, ha, hbehind⟩ := hun
        exact Or.inr ⟨fun hr => hr.unnested a id ha hheight hbehind, hv.spoilt hs hg hlt ha hbehind⟩
    · exact Or.inr ⟨hnot, hbad.step hs hlt⟩
  · rintro _ g' ⟨-, P, hall, h⟩
    exact ⟨P, fun b hb => (hall b hb).resolve_right (by simp), h⟩

/-- **Heights and their samples.** In any case the bumps that were there before lose their heights, and
have all three inputs for samples linked. But all heights of the graph are replaced by samples of the
right kinds if and only if no bump with a height stands behind the height of a bump, and those inputs
for samples that were linked before are linked to such samples: the one for the centre to a node behind
some height, or to one that was tagged so before, and the others to nodes that were tagged so before
and stand behind no height. -/
theorem refineBumps_heightsSampled_iff (g : Graph) (hg : g.WellFormed) (hm : g.finalized = false) :
    ∃ g', refineBumps.run g = .ok () g' ∧ (∀ b < g.idBound, ¬ g'.HasHeight b) ∧
      (∀ b, g.HasHeight b → ∀ p ∈ sampleInputs, g'.linkAt ⟨b, p.1⟩ ≠ none) ∧
      (g.HeightsSampled g' ↔ g.Refinable) := by
  obtain ⟨_, g', hrun, P, hall, hv, h⟩ := ends_iff.mp (ends_refineBumps_heights hg hm)
  refine ⟨g', hrun, fun b hb => hv.not_hasHeight hall hb, fun b hb => hv.linked b (hall b hb), ?_⟩
  rcases h with h | ⟨hnot, hbad⟩
  · exact h.heightsSampled_iff hg hall
  · exact iff_of_false hbad.not_heightsSampled hnot

/-- Two bumps over one geometry, of which the second takes its normal from the first one. The input for
the centre of its height is linked already. -/
def sharedGeometry : Graph :=
  Primitive.runAll [.addKind .geometry, .addKind (.math .add false), .addKind (.bump false false),
    .addKind (.bump false false), .connect ⟨1, 6⟩ ⟨2, 0⟩, .connect ⟨1, 6⟩ ⟨3, 0⟩,
    .connect ⟨2, 0⟩ ⟨4, 0⟩, .connect ⟨3, 0⟩ ⟨4, 4⟩, .connect ⟨1, 6⟩ ⟨4, 1⟩] Graph.empty

theorem wellFormed_sharedGeometry : sharedGeometry.WellFormed :=
  (Primitive.follows_runAll wellFormed_empty _).wellFormed

theorem refinable_sharedGeometry : sharedGeometry.Refinable := by
  have hg := wellFormed_sharedGeometry
  have hheight : ∀ b, sharedGeometry.HasHeight b → b = 3 ∨ b = 4 := by
    have hdec : ∀ b ∈ sharedGeometry.ids, sharedGeometry.HasHeight b → b = 3 ∨ b = 4 := by decide
    exact fun b hb => hdec b hb.mem_ids hb
  have hl₃ : sharedGeometry.linkAt ⟨3, 0⟩ = some ⟨1, 6⟩ := by decide
  have hl₄ : sharedGeometry.linkAt ⟨4, 0⟩ = some ⟨2, 0⟩ := by decide
  have h₃ : ∀ a, sharedGeometry.BehindHeight 3 a ↔ a ∈ sharedGeometry.cone 1 := fun a =>
    (mem_cone_iff_behindHeight hg hl₃).symm
  have h₄ : ∀ a, sharedGeometry.BehindHeight 4 a ↔ a ∈ sharedGeometry.cone 2 := fun a =>
    (mem_cone_iff_behindHeight hg hl₄).symm
  have hcone₁ : sharedGeometry.cone 1 = [1] := by decide +kernel
  have hcone₂ : sharedGeometry.cone 2 = [1, 2] := by decide +kernel
  constructor
  · intro a b ha hb
    rcases hheight a ha with rfl | rfl <;> rcases hheight b hb with rfl | rfl <;>
      simp [h₃, h₄, hcone₁, hcone₂]
  · have hlinked : ∀ b ∈ [3, 4], ∀ p ∈ sampleInputs, ∀ o ∈ sharedGeometry.linkAt ⟨b, p.1⟩,
        o.node = 1 ∧ p.2 = .center := by decide
    intro b hb p hp o ho
    obtain ⟨hnode, hcenter⟩ := hlinked b (by simpa using hheight b hb) p hp o ho
    rw [hnode]
    exact Or.inl ⟨⟨3, by decide, by simp [h₃, hcone₁]⟩, hcenter⟩

theorem refineBumps_heightsSampled_iff_sharedGeometry :
    sharedGeometry.WellFormed ∧ sharedGeometry.finalized = false ∧ sharedGeometry.HasHeight 3 ∧
      sharedGeometry.HasHeight 4 ∧ sharedGeometry.linkAt ⟨4, 1⟩ = some ⟨1, 6⟩ ∧
      ∃ g', refineBumps.run sharedGeometry = .ok () g' ∧ sharedGeometry.HeightsSampled g' := by
  refine ⟨wellFormed_sharedGeometry, by decide, by decide, by decide, by decide, ?_⟩
  obtain ⟨g', hrun, -, -, hiff⟩ :=
    refineBumps_heightsSampled_iff sharedGeometry wellFormed_sharedGeometry (by decide)
  exact ⟨g', hrun, hiff.mpr refinable_sharedGeometry⟩

/-- A bump whose height comes from the normal of another one, which is bumped by a geometry. -/
def nestedBumps (inner outer : NodeId) : Graph :=
  Primitive.runAll [.addKind .geometry, .addKind (.bump false false),
    .addKind (.vectorMath .dotProduct), .addKind (.bump false false), .connect ⟨1, 6⟩ ⟨inner, 0⟩,
    .connect ⟨inner, 0⟩ ⟨3, 0⟩, .connect ⟨3, 0⟩ ⟨outer, 0⟩, .connect ⟨outer, 0⟩ ⟨0, 3⟩] Graph.empty

/-- If the inner bump comes first, then its sample beside the centre ends up as a centre. If the outer
one does, then a copy of the inner one keeps its height. -/
theorem refineBumps_nestedBumps :
    ((nestedBumps 2 4).WellFormed ∧ (nestedBumps 2 4).Acyclic ∧
      refineBumps.Ends (nestedBumps 2 4) fun _ g' => (nestedBumps 2 4).HasHeight 2 ∧
        g'.linkAt ⟨2, 2⟩ = some ⟨5, 6⟩ ∧ g'.sample? 5 = some .center ∧
        ¬ (nestedBumps 2 4).HeightsSampled g') ∧
    ((nestedBumps 4 2).WellFormed ∧ (nestedBumps 4 2).Acyclic ∧
      refineBumps.Ends (nestedBumps 4 2) fun _ g' => (nestedBumps 4 2).HasHeight 4 ∧
        g'.HasHeight 7 ∧ ¬ (nestedBumps 4 2).HeightsSampled g') := by
  have hinner : (nestedBumps 2 4).WellFormed := (Primitive.follows_runAll wellFormed_empty _).wellFormed
  have houter : (nestedBumps 4 2).WellFormed := (Primitive.follows_runAll wellFormed_empty _).wellFormed
  have hrank : (nestedBumps 2 4).Ranked fun id => if id = 0 then 5 else id :=
    ranked_of_feeders hinner _ (by decide)
  have hrank' : (nestedBumps 4 2).Ranked fun id => if id = 1 then 0 else 6 - id :=
    ranked_of_feeders houter _ (by decide)
  have hends : refineBumps.Ends (nestedBumps 2 4) fun _ g' => (nestedBumps 2 4).HasHeight 2 ∧
      g'.linkAt ⟨2, 2⟩ = some ⟨5, 6⟩ ∧ g'.sample? 5 = some .center := by decide +kernel
  have hends' : refineBumps.Ends (nestedBumps 4 2) fun _ g' => (nestedBumps 4 2).HasHeight 4 ∧
      g'.HasHeight 7 := by decide +kernel
  refine ⟨⟨hinner, hrank.acyclic, hends.mono ?_⟩, houter, hrank'.acyclic, hends'.mono ?_⟩
  · rintro _ g' ⟨hheight, hl, hc⟩
    exact ⟨hheight, hl, hc, Spoilt.not_heightsSampled (Or.inr ⟨2, ⟨5, 6⟩, hheight, hl, hc⟩)⟩
  · rintro _ g' ⟨hheight, h₇⟩
    exact ⟨hheight, h₇, fun hs => hs.free 7 h₇⟩

end Edit

end Shading
