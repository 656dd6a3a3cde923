import Shading.Proofs.Compilation

/-!
# Displacement

Compiling a graph keeps its displacement: folding, merging and cutting cycles leave the displacement
output linked if it is linked. Only the removal of proxies may unlink it, namely if there is nothing
behind the proxies that it is linked to (`Graph.Fed`). -/

namespace Shading

namespace Graph

variable {g : Graph}

theorem WellFormed.not_defaulted_output (hg : g.WellFormed) (slot : Nat) :
    ¬ g.Defaulted ⟨outputId, slot⟩ := by
  rintro ⟨d, hd, hs⟩
  rw [hg.inputDecl?_eq hg.kind?_output] at hd
  have hnone : ∀ d ∈ NodeKind.output.inputDecls, d.source.isSome = false := by decide
  rw [hnone d (List.mem_of_getElem? hd)] at hs
  cases hs

theorem WellFormed.not_isConvert_output (hg : g.WellFormed) : ¬ g.IsConvert outputId := by
  rintro ⟨source, target, automatic, hk⟩
  rw [hg.kind?_output] at hk
  cases hk

theorem WellFormed.not_isBump_output (hg : g.WellFormed) : ¬ g.IsBump outputId := by
  rintro ⟨invert, objectSpace, hk⟩
  rw [hg.kind?_output] at hk
  cases hk

/-- An input that is not linked to a proxy is fed if it is linked. -/
theorem fed_iff_of_not_isProxy {r : InputRef} (h : ∀ o, g.linkAt r = some o → ¬ g.IsProxy o.node) :
    g.Fed r ↔ g.linkAt r ≠ none := by
  refine ⟨Fed.linked, fun hl => ?_⟩
  obtain ⟨o, ho⟩ := Option.ne_none_iff_exists'.mp hl
  exact .direct ho (h o ho)

end Graph

namespace Edit

open Shading.Graph

variable {g : Graph}

/-! ### Stages -/

theorem ends_simplify_displacement (hg : g.WellFormed) (hs : g.simplified = false)
    (hm : g.finalized = false) (scene : Scene) :
    (simplify scene).Ends g fun _ g' =>
      (g'.linkAt ⟨outputId, 2⟩ ≠ none ↔ g.Fed ⟨outputId, 2⟩) := by
  refine ends_get_bind ?_
  rw [hs, hm]
  refine Ends.bind (ends_removeProxies hg hm) ?_
  rintro _ g₁ ⟨g₀, removed, h₀, -, -, h₁, hfed⟩
  rw [← hfed _ hg.not_isConvert_output (hg.not_defaulted_output 2)]
  have hg₁ := h₁.wellFormed
  have hm₁ := h₁.finalized.trans (h₀.evolves.finalized.trans hm)
  refine Ends.bind (ends_expandNodes hg₁ hm₁) fun _ g₂ h₂ => ?_
  rw [Ne, ← h₂.linked_iff _ (g₁.lt_idBound_of_kind? hg₁.kind?_output)]
  have hg₂ := h₂.grows.wellFormed
  have hm₂ := h₂.grows.finalized.trans hm₁
  refine Ends.bind (ends_linkAllDefaults hg₂ hm₂) ?_
  rintro _ g₃ ⟨h₃, -⟩
  have hg₃ := h₃.evolves.wellFormed
  have hm₃ := h₃.evolves.finalized.trans hm₂
  rw [← h₃.evolves.linkAt_eq _ (g₂.lt_idBound_of_kind? hg₂.kind?_output)
    fun h => hg₂.not_defaulted_output 2 h.2, clean_eq, bind_assoc]
  refine Ends.bind (ends_tidy (P := fun _ => True) hg₃ hm₃ scene
    ((ends_foldAll hg₃ hm₃ (Worklist.within_ofGraph g₃)).mono fun _ _ _ => trivial)) ?_
  rintro _ b ⟨hb, hdisp, -⟩
  refine Ends.bind (ends_prune hb.wellFormed (hb.finalized.trans hm₃)) fun _ g₄ h₄ => ?_
  have hout : g₄.linkAt ⟨outputId, 2⟩ = none ↔ b.linkAt ⟨outputId, 2⟩ = none := by
    simpa using h₄.linkAt_output 2
  rw [← hdisp, ← hout]
  refine Ends.bind (ends_refineBumps h₄.wellFormed
    (h₄.finalized.trans (hb.finalized.trans hm₃)) h₄.acyclic) ?_
  rintro _ g₅ ⟨h₅, -⟩
  rw [← h₅.linkAt_eq _ (g₄.lt_idBound_of_kind? h₄.wellFormed.kind?_output)
    h₄.wellFormed.not_isBump_output]
  exact ends_modify Iff.rfl

theorem ends_prepare_displacement (hg : g.WellFormed) (hs : g.simplified = false)
    (hm : g.finalized = false) (scene : Scene) (bump objectSpace : Bool) :
    (prepare scene bump objectSpace).Ends g fun _ g' =>
      (g'.linkAt ⟨outputId, 2⟩ ≠ none ↔ g.Fed ⟨outputId, 2⟩) := by
  have hc : g.Compilable := ⟨hg, by simp [hs]⟩
  refine Ends.bind ((ends_simplify hc hm scene).and (ends_simplify_displacement hg hs hm scene)) ?_
  rintro _ g₁ ⟨⟨hg₁, hm₁, hac₁⟩, hl₁⟩
  split_ifs
  · refine (ends_bumpFromDisplacement hg₁ hm₁ hac₁ objectSpace).mono ?_
    rintro _ g₂ ⟨h₂, -⟩
    rw [h₂.linkAt_eq _ (g₁.lt_idBound_of_kind? hg₁.kind?_output) (by simp)]
    exact hl₁
  · exact ends_pure hl₁

theorem ends_finalize_displacement (hg : g.WellFormed) (hs : g.simplified = false)
    (hm : g.finalized = false) (scene : Scene) (bump objectSpace : Bool) :
    (finalize scene bump objectSpace).Ends g fun _ g' =>
      (g'.linkAt ⟨outputId, 2⟩ ≠ none ↔ g.Fed ⟨outputId, 2⟩) := by
  have hc : g.Compilable := ⟨hg, by simp [hs]⟩
  refine ends_get_bind ?_
  rw [hm]
  refine Ends.bind ((ends_prepare hc hm scene bump objectSpace).and
    (ends_prepare_displacement hg hs hm scene bump objectSpace)) ?_
  rintro _ b ⟨⟨hb, hmb, hac⟩, hl⟩
  refine (ends_flatten hb hmb hac).mono ?_
  rintro _ g' ⟨-, -, -, hout⟩
  rw [hout]
  exact hl

/-- **Displacement survives compilation.** After compiling a graph its displacement output is
linked, and the fingerprint is not empty, if and only if a node other than a proxy has fed the
displacement output before. So unless the displacement comes out of a proxy, it is there after
compiling if and only if it was there before. -/
theorem compile_displacement_iff (g : Graph) (hg : g.WellFormed) (hs : g.simplified = false)
    (hm : g.finalized = false) (scene : Scene) (options : CompileOptions) :
    ∃ report g', (compile scene options).run g = .ok report g' ∧
      (g'.linkAt ⟨outputId, 2⟩ ≠ none ↔ g.Fed ⟨outputId, 2⟩) ∧
      (report.fingerprint ≠ "" ↔ g.Fed ⟨outputId, 2⟩) ∧
      ((∀ o, g.linkAt ⟨outputId, 2⟩ = some o → ¬ g.IsProxy o.node) →
        (g'.linkAt ⟨outputId, 2⟩ ≠ none ↔ g.linkAt ⟨outputId, 2⟩ ≠ none) ∧
          (report.fingerprint ≠ "" ↔ g.linkAt ⟨outputId, 2⟩ ≠ none)) := by
  have hc : g.Compilable := ⟨hg, by simp [hs]⟩
  have hreport : ∀ g' : Graph, g'.WellFormed →
      (g'.linkAt ⟨outputId, 2⟩ ≠ none ↔ g.Fed ⟨outputId, 2⟩) →
        (ask (·.summary)).Ends g' fun report g' =>
          (g'.linkAt ⟨outputId, 2⟩ ≠ none ↔ g.Fed ⟨outputId, 2⟩) ∧
            (report.fingerprint ≠ "" ↔ g.Fed ⟨outputId, 2⟩) := by
    intro g' hg' hl
    obtain ⟨r, hr, hf⟩ := hg'.exists_summary
    exact ends_ask hr ⟨hl, (hg'.fingerprint_ne_empty_iff hf).trans hl⟩
  have hcompile : (compile scene options).Ends g fun report g' =>
      (g'.linkAt ⟨outputId, 2⟩ ≠ none ↔ g.Fed ⟨outputId, 2⟩) ∧
        (report.fingerprint ≠ "" ↔ g.Fed ⟨outputId, 2⟩) := by
    rw [compile]
    cases options.stage with
    | simplify =>
      exact Ends.bind ((ends_simplify hc hm scene).and (ends_simplify_displacement hg hs hm scene))
        fun _ g' h => hreport g' h.1.1 h.2
    | finalize =>
      exact Ends.bind ((ends_finalize hc hm scene _ _).and
        (ends_finalize_displacement hg hs hm scene _ _)) fun _ g' h => hreport g' h.1.1 h.2
  obtain ⟨report, g', hrun, hl, hf⟩ := ends_iff.mp hcompile
  refine ⟨report, g', hrun, hl, hf, fun hp => ?_⟩
  rw [hl, hf, fed_iff_of_not_isProxy hp]
  exact ⟨Iff.rfl, Iff.rfl⟩

/-- A displacement by the position that comes out of a proxy. -/
def proxiedDisplacement : Graph :=
  Primitive.runAll [.addKind .geometry, .addKind (.convert .vector .vector false),
    .connect ⟨1, 0⟩ ⟨2, 0⟩, .connect ⟨2, 0⟩ ⟨0, 2⟩] Graph.empty

theorem compile_displacement_iff_proxied :
    proxiedDisplacement.WellFormed ∧ proxiedDisplacement.Fed ⟨outputId, 2⟩ ∧
      ∃ report g', (compile Scene.empty {}).run proxiedDisplacement = .ok report g' ∧
        g'.linkAt ⟨outputId, 2⟩ ≠ none ∧ report.fingerprint ≠ "" := by
  have hg : proxiedDisplacement.WellFormed := (Primitive.follows_runAll wellFormed_empty _).wellFormed
  have hfed : proxiedDisplacement.Fed ⟨outputId, 2⟩ := by
    have hproxy : proxiedDisplacement.kind? 2 = some (.convert .vector .vector false) := by decide
    have hgeometry : proxiedDisplacement.kind? 1 = some .geometry := by decide
    refine .through (o := ⟨2, 0⟩) (by decide) ⟨_, hproxy, rfl⟩
      (.direct (o := ⟨1, 0⟩) (by decide) ?_)
    rintro ⟨k, hk, hrole⟩
    rw [hgeometry, Option.some.injEq] at hk
    rw [← hk] at hrole
    cases hrole
  obtain ⟨report, g', hrun, hl, hf, -⟩ :=
    compile_displacement_iff proxiedDisplacement hg (by decide) (by decide) Scene.empty {}
  exact ⟨hg, hfed, report, g', hrun, hl.mpr hfed, hf.mpr hfed⟩

/-- A displacement that comes out of a proxy with nothing behind it. -/
def emptyProxy : Graph :=
  Primitive.runAll [.addKind (.convert .vector .vector false), .connect ⟨1, 0⟩ ⟨0, 2⟩] Graph.empty

/-- The displacement output does not stay linked when a proxy with nothing behind it is removed. -/
theorem compile_emptyProxy :
    emptyProxy.WellFormed ∧ emptyProxy.simplified = false ∧ emptyProxy.finalized = false ∧
      emptyProxy.linkAt ⟨outputId, 2⟩ ≠ none ∧
      ∃ report g', (compile Scene.empty {}).run emptyProxy = .ok report g' ∧
        g'.linkAt ⟨outputId, 2⟩ = none ∧ report.fingerprint = "" := by
  have hrun : (compile Scene.empty {}).Ends emptyProxy fun report g' =>
      g'.linkAt ⟨outputId, 2⟩ = none ∧ report.fingerprint = "" := by
    decide +kernel
  exact ⟨(Primitive.follows_runAll wellFormed_empty _).wellFormed, by decide, by decide, by decide,
    ends_iff.mp hrun⟩

end Edit

end Shading
