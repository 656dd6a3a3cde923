import Shading.Proofs.FoldingRun
import Shading.Proofs.Primitive
import Shading.Proofs.Schedule

/-!
# Which nodes are folded, and when

Folding hands out each node at most once, and only after the nodes that feed it. But the graph changes
meanwhile. A bump with neither a height nor a normal (`Graph.IsFlatBump`) gives way to a new geometry
node, which is on no worklist. If a consumer still waits for another node then, it is stranded
(`FoldState.Strands`): it waits for the geometry node from now on, and is never handed out, and neither
is anything that depends on it. All other nodes are handed out.

`FoldState.Orderly` is what each step keeps up. -/

namespace Shading

open Shading.Graph Relation

namespace Graph

/-- A bump whose height and normal are not linked. -/
def IsFlatBump (g : Graph) (x : NodeId) : Prop :=
  g.IsBump x ∧ g.linkAt ⟨x, 0⟩ = none ∧ g.linkAt ⟨x, 4⟩ = none

end Graph

namespace Edit

variable {g : Graph} {o : OutputRef} {e : OutputDecl}

/-- Links are moved to a new node only if the bump is flat. -/
theorem ends_foldBump_shortens {n : Node} (hg : g.WellFormed) (hm : g.finalized = false)
    (ho : g.outputDecl? o = some e) (hn : g.node? o.node = some n) {invert objectSpace : Bool}
    (hkind : n.kind = .bump invert objectSpace) :
    (foldBump o n).Ends g fun _ => g.Shortens (g.Around o.node) (g.IsFlatBump o.node) := by
  have hk : g.kind? o.node = some (.bump invert objectSpace) := by simp [kind?, hn, hkind]
  have hheight : n.link? "Height" = g.linkAt ⟨o.node, 0⟩ := hg.link?_eq hn (by rw [hkind]; rfl)
  by_cases hh : g.linkAt ⟨o.node, 0⟩ = none
  · refine (ends_foldBump hg hm ho hn hkind (hg.slot_eq_zero hk rfl ho)).mono fun _ _ h => ?_
    exact (h.shortens hg ⟨_, _, hk⟩).mono (fun _ hr => hr) fun hl => ⟨hl.1, hh, hl.2⟩
  · unfold foldBump
    rw [Node.isLinked, hheight, if_neg (by simpa [Option.isSome_iff_ne_none] using hh)]
    exact ends_pure (.refl hg)

theorem ends_foldIfConsumed_shortens (hg : g.WellFormed) (hm : g.finalized = false)
    (ho : g.outputDecl? o = some e) : (foldIfConsumed o).Ends g fun _ =>
      g.Shortens (g.Around o.node) (g.IsFlatBump o.node) := by
  refine ends_consumersOf_bind ho ?_
  split_ifs
  · by_cases hb : ∃ invert objectSpace, g.kind? o.node = some (.bump invert objectSpace)
    · obtain ⟨invert, objectSpace, hk⟩ := hb
      refine meets_ask_node_bind (fun n hn => ?_) fun hnone => by simp [hnone] at hk
      have hkind : n.kind = .bump invert objectSpace := by simpa [kind?, hn] using hk
      rw [hkind]
      exact ends_foldBump_shortens hg hm ho hn hkind
    · refine (ends_foldOutput_of_ne_bump hg hm ho fun invert objectSpace hk => ?_).mono ?_
      · exact hb ⟨invert, objectSpace, hk⟩
      · exact fun _ _ h => h.shortens.mono (fun _ hr => hr) False.elim
  · exact ends_pure (.refl hg)

end Edit

/-- A node that waits and is not ready is not scheduled. -/
theorem Worklist.mem_waiting_foldl_schedule {g : Graph} {c : NodeId} (cs : List NodeId) {w : Worklist}
    (hc : c ∈ w.waiting) (hready : w.isReady g c = false) :
    c ∈ (cs.foldl (schedule g) w).waiting := by
  induction cs generalizing w with
  | nil => exact hc
  | cons b cs ih =>
    refine ih ?_ ?_
    · unfold schedule
      split_ifs with hb
      · refine (List.mem_erase_of_ne ?_).mpr hc
        rintro rfl
        rw [hready] at hb
        cases hb.2
      · exact hc
    · unfold schedule
      split_ifs <;> exact hready

namespace FoldState

variable {g : Graph} {s s' : FoldState} {c x : NodeId}

/-- The state in which folding starts. -/
def ofGraph (g : Graph) : FoldState := ⟨[], .ofGraph g, g⟩

/-- The state after one step, if there is one. -/
def step? (s : FoldState) : Option FoldState :=
  match s.pending with
  | [] =>
    match s.worklist.next? with
    | none => none
    | some (x, w) => (s.graph.node? x).map fun n =>
      ⟨(List.range n.outputs.length).map (⟨x, ·⟩), w.scheduleConsumers s.graph x, s.graph⟩
  | o :: os =>
    match (Edit.foldIfConsumed o).run s.graph with
    | .ok _ g => some ⟨os, s.worklist, g⟩
    | .error .. => none

/-- The state after a number of steps. -/
def steps : Nat → FoldState → Option FoldState
  | 0, s => some s
  | n + 1, s => s.step?.bind (steps n)

/-- The states in which folding a graph can be. -/
abbrev Reached (g : Graph) (s : FoldState) : Prop := ReflTransGen Step (ofGraph g) s

theorem step_iff : Step s s' ↔ s.step? = some s' := by
  constructor
  · rintro (⟨hx, hn⟩ | h)
    · simp [step?, hx, hn]
    · simp [step?, h]
  · obtain ⟨pending, w, g⟩ := s
    intro h
    cases pending with
    | nil =>
      dsimp only [step?] at h
      split at h
      · cases h
      · rename_i x w' hx
        obtain ⟨n, hn, rfl⟩ := Option.map_eq_some_iff.mp h
        exact .handOut hx hn
    | cons o os =>
      dsimp only [step?] at h
      split at h
      · rename_i a g' hrun
        cases h
        exact .fold hrun
      · cases h

theorem reaches_of_steps {n : Nat} (h : steps n s = some s') : ReflTransGen Step s s' := by
  induction n generalizing s with
  | zero =>
    cases h
    exact .refl
  | succ n ih =>
    obtain ⟨s₁, h₁, h⟩ := Option.bind_eq_some_iff.mp h
    exact .head (step_iff.mpr h₁) (ih h)

/-- A run to the end passes through every state that can be reached. -/
theorem Reached.reaches {s₁ s₂ : FoldState} (h₁ : Reached g s₁) (h₂ : Reached g s₂)
    (hstuck : s₂.step? = none) : ReflTransGen Step s₁ s₂ := by
  have hunique : Relator.RightUnique Step := fun a b c hb hc =>
    Option.some.inj ((step_iff.mp hb).symm.trans (step_iff.mp hc))
  rcases ReflTransGen.total_of_right_unique hunique h₁ h₂ with h | h
  · exact h
  · rcases h.cases_head with rfl | ⟨s₃, h₃, -⟩
    · exact .refl
    · rw [step_iff, hstuck] at h₃
      cases h₃

/-- There is one end. -/
theorem Reached.eq_of_stuck {s₁ s₂ : FoldState} (h₁ : Reached g s₁) (h₂ : Reached g s₂)
    (hstuck₁ : s₁.step? = none) (hstuck₂ : s₂.step? = none) : s₁ = s₂ := by
  rcases (h₁.reaches h₂ hstuck₂).cases_head with h | ⟨s₃, h₃, -⟩
  · exact h
  · rw [step_iff, hstuck₁] at h₃
    cases h₃

/-- What each step keeps up, where `g` is the graph at the start. The outputs to be folded belong to a
node that was handed out. What feeds anything was there at the start, or is a new geometry node. -/
structure Orderly (g : Graph) (s : FoldState) : Prop where
  grows : g.Grows s.graph
  unfinalized : s.graph.finalized = false
  acyclic : s.graph.Acyclic
  sound : s.worklist.Sound {id | id ∈ g.ids} s.graph
  ordered : s.worklist.Ordered g.idBound s.graph
  within : s.worklist.Within g
  done : s.worklist.done.Nodup ∧ ∀ y ∈ s.worklist.done, y ∈ g.ids
  pending : ∀ o ∈ s.pending, o.node ∈ s.worklist.done ∧ o.node ∉ s.worklist.waiting ∧
    ∃ e, s.graph.outputDecl? o = some e
  sources : ∀ a b, s.graph.Feeds a b → a < g.idBound ∨ g.NewGeometry s.graph a

/-- A node waits, and a node that was added feeds it. -/
def Strands (first : NodeId) (c : NodeId) (s : FoldState) : Prop :=
  c ∈ s.worklist.waiting ∧ ∃ a, first ≤ a ∧ s.graph.Feeds a c

theorem orderly_ofGraph (hg : g.WellFormed) (hac : g.Acyclic) (hm : g.finalized = false) :
    (ofGraph g).Orderly g where
  grows := .refl hg
  unfinalized := hm
  acyclic := hac
  sound := Worklist.sound_ofGraph g
  ordered := Worklist.ordered_ofGraph g
  within := Worklist.within_ofGraph g
  done := ⟨List.nodup_nil, fun _ => False.elim ∘ List.not_mem_nil⟩
  pending _ h := by cases h
  sources a b hab := Or.inl (g.lt_idBound_of_mem (hg.mem_ids_of_feeds hab).1)

namespace Orderly

/-- The node that is folded was handed out, so it is neither waiting nor new. -/
theorem folds {o : OutputRef} {os : List OutputRef} {w : Worklist} {g₁ g₂ : Graph}
    (h : (⟨o :: os, w, g₁⟩ : FoldState).Orderly g) (hrun : (Edit.foldIfConsumed o).run g₁ = .ok () g₂) :
    g₁.Shortens (g₁.Around o.node) (g₁.IsFlatBump o.node) g₂ := by
  obtain ⟨-, -, e, he⟩ := h.pending o List.mem_cons_self
  exact (Edit.ends_foldIfConsumed_shortens h.grows.wellFormed h.unfinalized he).of_run hrun

theorem step (h : s.Orderly g) (hstep : Step s s') : s'.Orderly g := by
  cases hstep with
  | @handOut w w' g₁ x n hx hn =>
    obtain ⟨hsound, hdone, hwait⟩ := h.sound.next h.grows.wellFormed hx
    obtain ⟨hpast, -, hordered⟩ := h.ordered.next h.sound hx
    obtain ⟨hid, hwithin⟩ := h.within.next hx
    dsimp only at hdone hwait
    refine ⟨h.grows, h.unfinalized, h.acyclic, hsound, hordered, hwithin.scheduleConsumers _ _,
      ?_, fun o ho => ?_, h.sources⟩
    · dsimp only
      rw [hdone]
      refine ⟨List.nodup_cons.mpr ⟨fun hmem => hpast (Or.inl hmem), h.done.1⟩, fun y hy => ?_⟩
      rcases List.mem_cons.mp hy with rfl | hy
      · exact hid
      · exact h.done.2 y hy
    · obtain ⟨slot, hslot, rfl⟩ := List.mem_map.mp ho
      refine ⟨?_, hwait, (g₁.exists_outputDecl?_iff hn slot).mpr (List.mem_range.mp hslot)⟩
      dsimp only
      rw [hdone]
      exact List.mem_cons_self
  | @fold o os w g₁ g₂ hrun =>
    have hs := h.folds hrun
    obtain ⟨hpop, hwait, -⟩ := h.pending o List.mem_cons_self
    refine ⟨h.grows.trans hs.evolves.grows, hs.evolves.finalized.trans h.unfinalized,
      hs.acyclic h.acyclic, h.sound.shortens hpop hwait hs, h.ordered.shortens hs h.grows.idBound_le,
      h.within, h.done, fun o' ho' => ?_, ?_⟩
    · obtain ⟨hpop', hwait', e, he⟩ := h.pending o' (List.mem_cons_of_mem o ho')
      exact ⟨hpop', hwait', e, hs.evolves.outputDecl?_some h.grows.wellFormed he⟩
    · rintro _ _ ⟨r, t, ht, rfl, rfl⟩
      obtain ⟨o', ho', hpath | ⟨-, hle, hk⟩⟩ := hs.moved r t ht
      · -- the source has fed something before
        have hfeeds : ∃ b, g₁.Feeds t.node b := by
          rcases (reflTransGen_feeds hpath).cases_head with heq | ⟨b, hb, -⟩
          · exact ⟨r.node, heq ▸ feeds_of_linkAt ho'⟩
          · exact ⟨b, hb⟩
        obtain ⟨b, hb⟩ := hfeeds
        exact (h.sources t.node b hb).imp_right fun hn => ⟨hn.1, hs.evolves.kind?_some hn.2⟩
      · exact Or.inr ⟨Nat.le_trans h.grows.idBound_le hle, hk⟩

theorem of_run (h : s.Orderly g) (hrun : ReflTransGen Step s s') : s'.Orderly g := by
  induction hrun with
  | refl => exact h
  | tail _ hstep ih => exact ih.step hstep

/-- What feeds a node that is handed out was handed out before, or was added. -/
theorem feeders (h : s.Orderly g) {w : Worklist} (hx : s.worklist.next? = some (x, w)) {a : NodeId}
    (ha : s.graph.Feeds a x) : a ∈ s.worklist.done ∨ g.NewGeometry s.graph a := by
  obtain ⟨-, hfed, -⟩ := h.ordered.next h.sound hx
  rcases hfed a ha with hdone | hle
  · exact Or.inl hdone
  · exact Or.inr ((h.sources a x ha).resolve_left (Nat.not_lt.mpr hle))

/-- A stranded node stays so: its link can only change if one of the two nodes is folded. -/
theorem strands_step (h : s.Orderly g) (hc : s.Strands g.idBound c) (hstep : Step s s') :
    s'.Strands g.idBound c := by
  obtain ⟨hwait, a, hle, hfeeds⟩ := hc
  have hnot : ∀ y ∈ s.worklist.done, y ≠ a := by
    rintro y hy rfl
    exact Nat.not_lt.mpr hle (h.ordered.below y (Or.inr hy))
  cases hstep with
  | @handOut w w' g₁ x n hx hn =>
    have hxa : x ≠ a := fun heq =>
      Nat.not_lt.mpr hle (heq ▸ g.lt_idBound_of_mem (h.within.next hx).1)
    unfold Worklist.next? at hx
    split at hx
    · cases hx
    · cases hx
      refine ⟨Worklist.mem_waiting_foldl_schedule _ hwait ?_, a, hle, hfeeds⟩
      refine List.all_eq_false.mpr ⟨a, mem_feeders.mpr hfeeds, ?_⟩
      simp only [List.mem_cons, decide_eq_true_eq, not_or]
      exact ⟨hxa.symm, fun hmem => hnot a hmem rfl⟩
  | @fold o os w g₁ g₂ hrun =>
    have hs := h.folds hrun
    obtain ⟨hpop, hwait', -⟩ := h.pending o List.mem_cons_self
    obtain ⟨r, t, ht, rfl, rfl⟩ := hfeeds
    refine ⟨hwait, t.node, hle, r, t, ?_, rfl, rfl⟩
    rw [hs.evolves.linkAt_eq r (node_lt_of_linkAt (by simp [ht])), ht]
    rintro (heq | ⟨o', ho', heq⟩)
    · exact hwait' (heq ▸ hwait)
    · rw [ht, Option.some.injEq] at ho'
      exact hnot o.node hpop (ho' ▸ heq.symm)

theorem strands_run (h : s.Orderly g) (hc : s.Strands g.idBound c) (hrun : ReflTransGen Step s s') :
    s'.Strands g.idBound c := by
  induction hrun with
  | refl => exact hc
  | tail hrun hstep ih => exact (h.of_run hrun).strands_step ih hstep

/-- What depends on a node that waits was not handed out. -/
theorem not_mem_done (h : s.Orderly g) (hc : c ∈ s.worklist.waiting)
    (hcx : ReflTransGen s.graph.Feeds c x) : x ∉ s.worklist.done := by
  intro hx
  have hmem := List.mem_append_right s.worklist.queue hc
  rcases h.ordered.past hcx (Or.inl hx) with hdone | hle
  · exact h.ordered.once c hdone hmem
  · exact Nat.not_lt.mpr hle (h.ordered.below c (Or.inl hmem))

/-- When no node is left to be handed out, each of those that wait depends on a stranded one. -/
theorem exists_strands (h : s.Orderly g) (hq : s.worklist.queue = []) (hx : x ∈ g.ids)
    (hdone : x ∉ s.worklist.done) :
    ∃ c, s.Strands g.idBound c ∧ ReflTransGen s.graph.Feeds c x := by
  obtain ⟨rank, hrank⟩ := h.grows.wellFormed.acyclic_iff_ranked.mp h.acyclic
  induction hn : rank x using Nat.strongRecOn generalizing x with
  | ind n ih =>
    have hwait : x ∈ s.worklist.waiting := by
      rcases h.sound.cover x hx with hc | hc | hc
      · rw [hq] at hc
        cases hc
      · exact hc
      · exact absurd hc hdone
    obtain ⟨f, hf, hnd⟩ := List.all_eq_false.mp (h.sound.blocked x hwait)
    have hfeeds := mem_feeders.mp hf
    by_cases hlt : f < g.idBound
    · obtain ⟨k, hk⟩ := (mem_ids_iff_kind? _).mp (h.grows.wellFormed.mem_ids_of_feeds hfeeds).1
      have hfid : f ∈ g.ids := (g.mem_ids_iff_kind?).mpr ⟨k, (h.grows.kind?_eq f hlt).symm.trans hk⟩
      obtain ⟨c, hc, hcf⟩ := ih (rank f) (hn ▸ hrank f x hfeeds) hfid (by simpa using hnd) rfl
      exact ⟨c, hc, hcf.tail hfeeds⟩
    · exact ⟨x, ⟨hwait, f, Nat.not_lt.mp hlt, hfeeds⟩, .refl⟩

end Orderly

/-- If no flat bump is folded, all links lead from nodes that were there at the start. -/
theorem exists_flatBump (hg : g.WellFormed) (hac : g.Acyclic) (hm : g.finalized = false)
    (hrun : Reached g s) {a : NodeId} (ha : g.idBound ≤ a) (hc : s.graph.Feeds a c) :
    ∃ o os w g₁, Reached g ⟨o :: os, w, g₁⟩ ∧ g₁.IsFlatBump o.node := by
  induction hrun generalizing a c with
  | refl => exact absurd (g.lt_idBound_of_mem (hg.mem_ids_of_feeds hc).1) (Nat.not_lt.mpr ha)
  | tail hrun hstep ih =>
    have ho := (orderly_ofGraph hg hac hm).of_run hrun
    cases hstep with
    | handOut _ _ => exact ih ha hc
    | @fold o os w g₁ g₂ hfold =>
      obtain ⟨r, t, ht, rfl, rfl⟩ := hc
      obtain ⟨o', ho', hpath | ⟨hflat, -⟩⟩ := (ho.folds hfold).moved r t ht
      · rcases (reflTransGen_feeds hpath).cases_head with heq | ⟨b, hb, -⟩
        · exact ih (heq ▸ ha) (feeds_of_linkAt ho')
        · exact ih ha hb
      · exact ⟨o, os, w, g₁, hrun, hflat⟩

/-- At the end of a run, the nodes that were not handed out are those that depend on a stranded one. -/
theorem mem_done_iff (hg : g.WellFormed) (hac : g.Acyclic) (hm : g.finalized = false) {w : Worklist}
    {g₁ : Graph} (hrun : Reached g ⟨[], w, g₁⟩) (hend : w.next? = none) (hx : x ∈ g.ids) :
    x ∈ w.done ↔ ¬ ∃ s c, Reached g s ∧ s.Strands g.idBound c ∧ ReflTransGen g₁.Feeds c x := by
  have h := orderly_ofGraph hg hac hm
  constructor
  · rintro hdone ⟨s, c, hs, hc, hcx⟩
    have hstuck : (⟨[], w, g₁⟩ : FoldState).step? = none := by simp [step?, hend]
    obtain ⟨hwait, -⟩ := (h.of_run hs).strands_run hc (hs.reaches hrun hstuck)
    exact (h.of_run hrun).not_mem_done hwait hcx hdone
  · intro hnone
    by_contra hdone
    obtain ⟨c, hc, hcx⟩ := (h.of_run hrun).exists_strands (Worklist.queue_eq_nil_of_next? hend) hx hdone
    exact hnone ⟨_, c, hrun, hc, hcx⟩

end FoldState

namespace Edit

open FoldState

variable {g : Graph}

/-- **The order of folding.** No node is handed out twice. What feeds a node that is handed out was
handed out before, or is a geometry node that was added in place of a flat bump. A node is handed out,
unless it depends on a node that once waited while an added node fed it. -/
theorem run_propagateConstants_order (hg : g.WellFormed) (hac : g.Acyclic) (hm : g.finalized = false) :
    ∃ (w : Worklist) (g₁ g' : Graph), Reached g ⟨[], w, g₁⟩ ∧ w.next? = none ∧
      propagateConstants.run g = .ok () g' ∧ (g' = g₁ ∨ restoreDisplacement.run g₁ = .ok () g') ∧
      w.done.Nodup ∧ (∀ x ∈ w.done, x ∈ g.ids) ∧
      (∀ s x w', Reached g s → s.worklist.next? = some (x, w') →
        ∀ a, s.graph.Feeds a x → a ∈ s.worklist.done ∨ g.NewGeometry s.graph a) ∧
      (∀ x ∈ g.ids, w.done.count x = 1 ↔
        ¬ ∃ s c, Reached g s ∧ s.Strands g.idBound c ∧ ReflTransGen g₁.Feeds c x) ∧
      ∀ s c, Reached g s → s.Strands g.idBound c →
        ∃ o os w' g₂, Reached g ⟨o :: os, w', g₂⟩ ∧ g₂.IsFlatBump o.node := by
  have h := orderly_ofGraph hg hac hm
  have hfold := (ends_foldAll hg hm (Worklist.within_ofGraph g)).and_meets (meets_foldAll_steps _)
  obtain ⟨_, g', hrun, g₁, ⟨w, hsteps, hend⟩, -, hg'⟩ := ends_iff.mp
    (ends_propagateConstants_of (R := fun g₁ g' => restoreDisplacement.run g₁ = .ok () g') hg hm
      (hfold.mono fun _ _ h => h.2) fun g₁ hg₁ hm₁ hl =>
        ((ends_restoreDisplacement hg₁ hm₁ hl).and_meets (meets_run _)).mono fun _ _ h => h.2)
  obtain ⟨hnodup, hids⟩ := (h.of_run hsteps).done
  refine ⟨w, g₁, g', hsteps, hend, hrun, ?_, hnodup, hids,
    fun s x w' hs hx a ha => (h.of_run hs).feeders hx ha, fun x hx => ?_, fun s c hs hc => ?_⟩
  · split_ifs at hg'
    · exact Or.inr hg'
    · exact Or.inl hg'
  · rw [← mem_done_iff hg hac hm hsteps hend hx]
    refine ⟨fun hcount => List.count_pos_iff.mp (by rw [hcount]; exact Nat.one_pos), fun hmem => ?_⟩
    exact List.count_eq_one_of_mem hnodup hmem
  · obtain ⟨-, a, hle, hfeeds⟩ := hc
    exact exists_flatBump hg hac hm hs hle hfeeds

/-- The normal of a bump is scaled by zero. The bump comes first. -/
def scaledBump : Graph :=
  Primitive.runAll [.addKind (.bump false false), .addKind .value, .addKind (.vectorMath .scale),
    .connect ⟨1, 0⟩ ⟨3, 0⟩, .connect ⟨2, 0⟩ ⟨3, 3⟩, .connect ⟨3, 1⟩ ⟨0, 3⟩] Graph.empty

theorem wellFormed_scaledBump : scaledBump.WellFormed :=
  (Primitive.follows_runAll wellFormed_empty _).wellFormed

theorem acyclic_scaledBump : scaledBump.Acyclic :=
  (ranked_of_feeders wellFormed_scaledBump (fun x => if x = 0 then 4 else x) (by decide +kernel)).acyclic

/-- The bump and the factor are handed out, and nothing else. -/
theorem exists_run_scaledBump : ∃ w g₁, Reached scaledBump ⟨[], w, g₁⟩ ∧ w.next? = none ∧
    w.done = [2, 1] := by
  have hsteps : (steps 4 (ofGraph scaledBump)).map (fun s =>
      (s.pending, s.worklist.queue, s.worklist.done)) = some ([], [], [2, 1]) := by decide +kernel
  obtain ⟨⟨pending, ⟨queue, waiting, done⟩, g₁⟩, hs, heq⟩ := Option.map_eq_some_iff.mp hsteps
  cases heq
  exact ⟨_, g₁, reaches_of_steps hs, rfl, rfl⟩

theorem run_propagateConstants_order_scaledBump : scaledBump.WellFormed ∧ scaledBump.Acyclic ∧
    scaledBump.finalized = false ∧ (∃ s c, Reached scaledBump s ∧ s.Strands 4 c) ∧
      ∃ o os w g₂, Reached scaledBump ⟨o :: os, w, g₂⟩ ∧ g₂.IsFlatBump o.node := by
  obtain ⟨w, g₁, g', hrun, hend, -, -, -, -, -, hvisited, hflat⟩ :=
    run_propagateConstants_order wellFormed_scaledBump acyclic_scaledBump rfl
  obtain ⟨w', g₁', hrun', hend', hdone⟩ := exists_run_scaledBump
  obtain ⟨rfl, -⟩ : w' = w ∧ g₁' = g₁ := by
    simpa using hrun'.eq_of_stuck hrun (by simp [step?, hend']) (by simp [step?, hend])
  have hcount : w'.done.count 3 ≠ 1 := by simp [hdone]
  obtain ⟨s, c, hs, hc, -⟩ := not_not.mp (mt (hvisited 3 (by decide +kernel)).mpr hcount)
  exact ⟨wellFormed_scaledBump, acyclic_scaledBump, rfl, ⟨s, c, hs, hc⟩, hflat s c hs hc⟩

/-- The scaling is not handed out, since the geometry node that takes the place of the bump is not. -/
theorem scaledBump_skipped : scaledBump.WellFormed ∧ scaledBump.Acyclic ∧
    scaledBump.finalized = false ∧ 3 ∈ scaledBump.ids ∧
      ∃ w g₁, Reached scaledBump ⟨[], w, g₁⟩ ∧ w.next? = none ∧ 3 ∉ w.done := by
  obtain ⟨w, g₁, hrun, hend, hdone⟩ := exists_run_scaledBump
  exact ⟨wellFormed_scaledBump, acyclic_scaledBump, rfl, by decide +kernel, w, g₁, hrun, hend,
    by simp [hdone]⟩

end Edit

end Shading
