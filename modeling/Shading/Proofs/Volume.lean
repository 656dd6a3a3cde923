import Shading.Proofs.Cleaning

/-!
# Volume outputs

Whether there is a volume is decided while a graph may still have cycles. The volume output stays
linked if and only if a node that can be part of a volume leads to it at that point. On the way, the
nodes that lead to the output through one that is not linear are taken out of stochastic sampling, and
nothing else happens to the graph (`verifyVolume_exact`).

The verdict on the output is not changed any more if no cycle leads to it. Otherwise the only path
from the volume to its output may be cut afterwards, together with a cycle. -/

namespace Shading.Edit

open Shading.Graph Relation

/-- **Verified volumes.** A node is taken out of stochastic sampling if and only if a path leads from it
to the volume output through a node that is not linear. The volume output stays linked if and only if
there is a volume; otherwise its link is missing, and this is reported. Nothing else changes. -/
theorem verifyVolume_exact (g : Graph) (hg : g.WellFormed) (hm : g.finalized = false) (s : OutputRef)
    (hs : g.linkAt ⟨outputId, 1⟩ = some s) :
    ∃ out g', verifyVolume.run g = .ok () g' ∧
      (∀ id, out id = true ↔ g.BehindNonlinear s.node id) ∧
      (g'.linkAt ⟨outputId, 1⟩ = some s ↔ g.HasVolume) ∧
      (g.HasVolume → g' = g.unsampled out) ∧
      (¬ g.HasVolume →
        g' = ((g.unsampled out).withoutLinks [⟨outputId, 1⟩]).touch.report .volumeDisconnected) := by
  obtain ⟨_, g', hrun, hnone | ⟨s', out, hs', h⟩⟩ := ends_iff.mp (ends_verifyVolume_cases hg hm)
  · simp [hs] at hnone
  obtain rfl : s = s' := Option.some.inj (hs.symm.trans hs')
  have htrims := trims_unsampled hg out
  have hl : (g.unsampled out).linkAt ⟨outputId, 1⟩ = some s := (htrims.kept _ id).trans hs
  refine ⟨out, g', hrun, h.out_iff, ⟨fun hlinked => ?_, fun hv => ?_⟩, h.kept, fun hn => ?_⟩
  · by_contra hn
    rw [h.cut hn] at hlinked
    change ((g.unsampled out).unlink s ⟨outputId, 1⟩).linkAt _ = _ at hlinked
    simp [linkAt_unlink] at hlinked
  · rw [h.kept hv, hl]
  · rw [h.cut hn, htrims.wellFormed.unlink_eq_withoutLinks hl]

/-- A volume whose density is the square of a number. -/
def densitySquared : Graph :=
  Primitive.runAll [.addKind .scatter, .addKind (.math .power false), .addKind .value,
    .connect ⟨3, 0⟩ ⟨2, 0⟩, .connect ⟨2, 0⟩ ⟨1, 1⟩, .connect ⟨1, 0⟩ ⟨0, 1⟩] Graph.empty

theorem verifyVolume_exact_densitySquared :
    densitySquared.WellFormed ∧ densitySquared.finalized = false ∧
      densitySquared.linkAt ⟨outputId, 1⟩ = some ⟨1, 0⟩ ∧ densitySquared.BehindNonlinear 1 3 ∧
      ∃ out g', verifyVolume.run densitySquared = .ok () g' ∧ out 3 = true ∧
        g'.linkAt ⟨outputId, 1⟩ = some ⟨1, 0⟩ ∧ g' = densitySquared.unsampled out := by
  have hg : densitySquared.WellFormed := (Primitive.follows_runAll wellFormed_empty _).wellFormed
  have hs : densitySquared.linkAt ⟨outputId, 1⟩ = some ⟨1, 0⟩ := by decide
  have hpower : densitySquared.Feeds 2 1 :=
    feeds_of_linkAt (r := ⟨1, 1⟩) (o := ⟨2, 0⟩) (by decide)
  have hvalue : densitySquared.Feeds 3 2 :=
    feeds_of_linkAt (r := ⟨2, 0⟩) (o := ⟨3, 0⟩) (by decide)
  have hlinear : (densitySquared.node? 2).map (·.isLinear) = some false := by decide
  obtain ⟨n, hn, hnl⟩ := Option.map_eq_some_iff.mp hlinear
  have hbehind : densitySquared.BehindNonlinear 1 3 := ⟨2, n, hn, hnl, .single hpower, .single hvalue⟩
  have hvol : densitySquared.HasVolume := ⟨⟨1, 0⟩, hs, 1, by decide, .refl⟩
  obtain ⟨out, g', hrun, hout, hlinked, hkept, -⟩ :=
    verifyVolume_exact densitySquared hg (by decide) ⟨1, 0⟩ hs
  exact ⟨hg, by decide, hs, hbehind, out, g', hrun, (hout 3).mpr hbehind, hlinked.mpr hvol, hkept hvol⟩

/-- **Linked volume outputs.** After cleaning the volume output is linked if and only if the tidied
graph has a volume. If no cycle leads to the volume output, the cleaned graph has one, too. -/
theorem clean_volume_linked_iff (g : Graph) (hg : g.WellFormed) (hm : g.finalized = false)
    (scene : Scene) :
    ∃ b g', (tidy scene).run g = .ok () b ∧ (clean scene).run g = .ok () g' ∧
      (g'.linkAt ⟨outputId, 1⟩ ≠ none ↔ b.HasVolume) ∧
      ((∀ o, g.linkAt ⟨outputId, 1⟩ = some o →
          ∀ a, ReflTransGen g.Feeds a o.node → ¬ TransGen g.Feeds a a) →
        (g'.linkAt ⟨outputId, 1⟩ ≠ none ↔ g'.HasVolume)) := by
  obtain ⟨_, b, htidy, h, -, hacc, -⟩ := ends_iff.mp (ends_tidy (P := fun _ => True) hg hm scene
    ((ends_foldAll hg hm (Worklist.within_ofGraph g)).mono fun _ _ _ => trivial))
  obtain ⟨_, g', hprune, h'⟩ := ends_iff.mp (ends_prune h.wellFormed (h.finalized.trans hm))
  have hiff : g'.linkAt ⟨outputId, 1⟩ ≠ none ↔ b.HasVolume := by
    rw [Ne, h'.linkAt_output, not_or]
    refine ⟨fun hn => not_not.mp fun hv => hn.2 ⟨rfl, hv⟩, fun hv => ⟨?_, fun hn => hn.2 hv⟩⟩
    obtain ⟨o, ho, -⟩ := hv
    simp [ho]
  refine ⟨b, g', htidy, ?_, hiff, fun hcyc => ⟨fun hl => ?_, fun ⟨o, ho, _⟩ => by simp [ho]⟩⟩
  · rw [clean_eq, EStateM.run_bind, htidy]
    exact hprune
  · obtain ⟨s, hs⟩ := Option.ne_none_iff_exists'.mp hl
    obtain ⟨o, ho, id, hsup, hp⟩ := hiff.mp hl
    obtain rfl : o = s := Option.some.inj (ho.symm.trans (h'.linkAt_some _ s hs))
    have hend : Acc b.Feeds o.node :=
      hacc 1 (by simp) (fun o' ho' => hg.acc_of_no_cycle (hcyc o' ho')) o ho
    obtain ⟨hpath, hkind⟩ := h'.kept 1 o hs hend id hp
    refine ⟨o, hs, id, ?_, hpath⟩
    rw [supportsVolume_iff] at hsup ⊢
    rwa [hkind]

/-- A volume that scatters and glows. -/
def glow : Graph :=
  Primitive.runAll [.addKind .addClosure, .addKind .scatter, .addKind (.emission false),
    .connect ⟨2, 0⟩ ⟨1, 0⟩, .connect ⟨3, 0⟩ ⟨1, 1⟩, .connect ⟨1, 0⟩ ⟨0, 1⟩] Graph.empty

theorem clean_volume_linked_iff_glow :
    glow.linkAt ⟨outputId, 1⟩ = some ⟨1, 0⟩ ∧ glow.Acyclic ∧
      ∃ b g', (tidy Scene.empty).run glow = .ok () b ∧ (clean Scene.empty).run glow = .ok () g' ∧
        b.HasVolume ∧ g'.HasVolume := by
  have hg : glow.WellFormed := (Primitive.follows_runAll wellFormed_empty _).wellFormed
  have hac : glow.Acyclic :=
    (ranked_of_feeders hg (fun id => if id = 0 then 2 else if id = 1 then 1 else 0)
      (by decide)).acyclic
  obtain ⟨b, g', hb, hrun, hiff, hkept⟩ :=
    clean_volume_linked_iff glow hg (by decide) Scene.empty
  have hlinked : (clean Scene.empty).Ends glow fun _ g' => g'.linkAt ⟨outputId, 1⟩ ≠ none := by
    decide +kernel
  obtain ⟨_, g'', hrun', hl⟩ := ends_iff.mp hlinked
  rw [hrun, EStateM.Result.ok.injEq] at hrun'
  obtain ⟨-, rfl⟩ := hrun'
  exact ⟨by decide, hac, b, g', hb, hrun, hiff.mp hl, (hkept fun _ _ a _ => hac a).mp hl⟩

/-- Two sums of closures that feed each other. One of them is fed by a volume, the other one feeds
the volume output. -/
def entangledVolume : Graph :=
  Primitive.runAll [.addKind .addClosure, .addKind .addClosure, .addKind .scatter,
    .connect ⟨2, 0⟩ ⟨1, 0⟩, .connect ⟨3, 0⟩ ⟨1, 1⟩, .connect ⟨1, 0⟩ ⟨2, 0⟩, .connect ⟨1, 0⟩ ⟨0, 0⟩,
    .connect ⟨2, 0⟩ ⟨0, 1⟩] Graph.empty

/-- The volume output may stay linked without a volume. The surface is searched for cycles first,
and this cuts what leads from the volume to its output. -/
theorem clean_entangledVolume :
    entangledVolume.WellFormed ∧ entangledVolume.finalized = false ∧
      ∃ g', (clean Scene.empty).run entangledVolume = .ok () g' ∧
        g'.linkAt ⟨outputId, 1⟩ ≠ none ∧ ¬ g'.HasVolume := by
  have hcut : (clean Scene.empty).Ends entangledVolume fun _ g' =>
      g'.linkAt ⟨outputId, 1⟩ = some ⟨2, 0⟩ ∧ g'.feeders 2 = [] ∧ g'.supportsVolume 2 = false := by
    decide +kernel
  obtain ⟨_, g', hrun, hl, hnone, hsup⟩ := ends_iff.mp hcut
  refine ⟨(Primitive.follows_runAll wellFormed_empty _).wellFormed, by decide, g', hrun,
    by simp [hl], ?_⟩
  rintro ⟨o, ho, id, hid, hp⟩
  obtain rfl : o = ⟨2, 0⟩ := Option.some.inj (ho.symm.trans hl)
  -- nothing feeds the remaining sum, so it is the only node behind the volume output
  rcases ReflTransGen.cases_tail hp with heq | ⟨c, -, hc⟩
  · rw [← heq] at hid
    exact Bool.false_ne_true (hsup.symm.trans hid)
  · rw [← mem_feeders, hnone] at hc
    cases hc

end Shading.Edit
