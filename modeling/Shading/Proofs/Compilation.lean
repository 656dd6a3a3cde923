import Shading.Proofs.Cleaning
import Shading.Proofs.DisplacementBump
import Shading.Proofs.Fingerprint
import Shading.Proofs.Flattening
import Shading.Proofs.Preparation

/-!
# Compilation

A graph that was written by means of the primitives can be compiled, whatever it looks like, and the
result can be shown. Two things make sure of this: a graph is well-formed at any time, and as long
as it counts as simplified it has no cycle (`Graph.Compilable`).

Finalizing may bring cycles back, since it links the factors of mixes to the closures below them. -/

namespace Shading

open Relation

namespace Graph

variable {g : Graph}

/-! ### Texts -/

theorem exists_mapM_ok {α β : Type} {f : α → Except Fault β} {l : List α}
    (h : ∀ a ∈ l, ∃ b, f a = .ok b) : ∃ bs, l.mapM f = .ok bs := by
  induction l with
  | nil => exact ⟨[], rfl⟩
  | cons a l ih =>
    obtain ⟨b, hb⟩ := h a List.mem_cons_self
    obtain ⟨bs, hbs⟩ := ih fun a' ha' => h a' (List.mem_cons_of_mem a ha')
    exact ⟨b :: bs, by rw [List.mapM_cons, hb, hbs]; rfl⟩

namespace WellFormed

/-- Both ends of a link exist. -/
theorem exists_ends (hg : g.WellFormed) {l : Link} (hl : l ∈ g.allLinks) :
    (∃ o, g.output l.source = .ok o) ∧ ∃ i, g.input l.target = .ok i := by
  rw [mem_allLinks] at hl
  obtain ⟨e, he⟩ := hg.exists_output hl
  obtain ⟨o, ho, -⟩ := Option.map_eq_some_iff.mp he
  obtain ⟨i, hi, -⟩ := Option.bind_eq_some_iff.mp hl
  exact ⟨⟨o, (g.output_eq_ok).mpr ho⟩, i, (g.input_eq_ok).mpr hi⟩

/-- A text for each link that names its two ends. -/
theorem exists_linkTexts (hg : g.WellFormed) {links : List Link} (hl : links ⊆ g.allLinks)
    (text : Link → Output → Input → String) :
    ∃ lines, (links.mapM fun link => do
      let output ← g.output link.source
      let input ← g.input link.target
      return text link output input) = .ok lines := by
  refine exists_mapM_ok fun l hlinks => ?_
  obtain ⟨⟨o, ho⟩, i, hi⟩ := hg.exists_ends (hl hlinks)
  exact ⟨text l o i, by rw [ho, hi]; rfl⟩

theorem exists_listing (hg : g.WellFormed) : ∃ s, g.listing = .ok s := by
  obtain ⟨lines, h⟩ := hg.exists_linkTexts (List.Subset.refl _) fun link output input =>
    s!"{link.source.node}.{output.name} -> {link.target.node}.{input.name}"
  exact ⟨_, by rw [listing, h]; rfl⟩

theorem exists_drawing (hg : g.WellFormed) : ∃ s, g.drawing = .ok s := by
  obtain ⟨lines, h⟩ := hg.exists_linkTexts
    (List.filter_subset_self (p := fun link : Link => g.contains link.source.node) g.allLinks)
    fun link output input =>
      s!"    {g.position link.source.node} -> {g.position link.target.node}" ++
        label s!"{output.name} -> {input.name}"
  exact ⟨_, by rw [drawing, h]; rfl⟩

theorem exists_summary (hg : g.WellFormed) :
    ∃ r, g.summary = .ok r ∧ g.fingerprint = .ok r.fingerprint := by
  have hprint : ∃ s, g.fingerprint = .ok s := by
    cases hs : g.linkAt ⟨outputId, 2⟩ with
    | none => exact ⟨_, hg.fingerprint_of_free hs⟩
    | some s => exact ⟨_, hg.fingerprint_of_linked hs⟩
  obtain ⟨s, hs⟩ := hprint
  exact ⟨_, by rw [summary, hs]; rfl, hs⟩

end WellFormed

/-- What holds of a graph at any time, so that it can be compiled. -/
structure Compilable (g : Graph) : Prop where
  wellFormed : g.WellFormed
  acyclic : g.simplified = true → g.finalized = true ∨ g.Acyclic

end Graph

namespace Edit

open Shading.Graph

variable {g : Graph}

theorem ends_flattenOutput {b : Graph} {O : NodeId → Set NodeId} {feeders : InputRef → List NodeId}
    (h : Flattening b O feeders g) (hb : b.WellFormed) (hm : b.finalized = false)
    (hac : b.Acyclic) (volume : Bool) :
    (flattenOutput (if volume then "Volume" else "Surface") volume).Ends g fun _ g' => ∃ O',
      Flattening b O' ((b.outputLeaves volume).foldl b.receive feeders) g' := by
  set i := if volume then 1 else 0 with hi
  have hg := h.evolves.wellFormed
  have hslot : NodeKind.output.layout.inputSlot? (if volume then "Volume" else "Surface") =
      some i := by
    cases volume <;> rfl
  obtain ⟨d, hd⟩ := hg.exists_inputDecl? hg.kind?_output hslot
  have hl : g.linkAt ⟨outputId, i⟩ = b.linkAt ⟨outputId, i⟩ :=
    h.evolves.linkAt_eq _ (b.lt_idBound_of_kind? hb.kind?_output)
      (not_isWeight hb.kind?_output (Or.inr rfl))
  refine ends_ask_bind (hg.inputRef_eq hg.kind?_output hslot) ?_
  refine ends_ask_bind ((g.linkOf_eq_ok).mpr ⟨by simp [hd], rfl⟩) ?_
  rw [hl, outputLeaves, ← hi]
  cases hroot : b.linkAt ⟨outputId, i⟩ with
  | none => exact ends_pure ⟨O, h⟩
  | some root =>
    have hid := (hb.mem_ids_of_feeds ⟨_, root, hroot, rfl, rfl⟩).1
    have hone : Carries g O {a | a ∈ ([] : List NodeId)} none := by simp [Carries]
    refine ends_get_bind ((spreads_spreadWeight hb hm hid (hac.untangled _)
      (fun x hx _ => h.evolves.ids_subset hx) (fun x hx _ => hx) g O feeders none h hone).mono ?_)
    rintro _ g' ⟨O', h', -⟩
    exact ⟨O', h'⟩

/-! ### Stages -/

theorem ends_simplify (h : g.Compilable) (hm : g.finalized = false) (scene : Scene) :
    (simplify scene).Ends g fun _ g' => g'.WellFormed ∧ g'.finalized = false ∧ g'.Acyclic := by
  refine ends_get_bind ?_
  rw [hm]
  cases hs : g.simplified with
  | true => exact ends_pure ⟨h.wellFormed, hm, (h.acyclic hs).resolve_left (by simp [hm])⟩
  | false =>
    refine Ends.bind (ends_removeProxies h.wellFormed hm) ?_
    rintro _ g₁ ⟨g₀, removed, h₀, -, -, h₁, -⟩
    have hm₁ := h₁.finalized.trans (h₀.evolves.finalized.trans hm)
    refine Ends.bind (ends_expandNodes h₁.wellFormed hm₁) fun _ g₂ h₂ => ?_
    have hm₂ := h₂.grows.finalized.trans hm₁
    refine Ends.bind (ends_linkAllDefaults h₂.grows.wellFormed hm₂) ?_
    rintro _ g₃ ⟨h₃, -⟩
    refine Ends.bind (ends_clean h₃.evolves.wellFormed (h₃.evolves.finalized.trans hm₂) scene) ?_
    rintro _ g₄ ⟨hg₄, hm₄, hac₄, -⟩
    refine Ends.bind (ends_refineBumps hg₄ hm₄ hac₄) ?_
    rintro _ g₅ ⟨h₅, hac₅⟩
    exact ends_modify ⟨h₅.wellFormed.of_table rfl, h₅.finalized.trans hm₄,
      hac₅.of_links fun _ _ hl => hl⟩

theorem ends_prepare (h : g.Compilable) (hm : g.finalized = false) (scene : Scene)
    (bump objectSpace : Bool) :
    (prepare scene bump objectSpace).Ends g fun _ g' =>
      g'.WellFormed ∧ g'.finalized = false ∧ g'.Acyclic := by
  refine Ends.bind (ends_simplify h hm scene) ?_
  rintro _ g₁ ⟨hg₁, hm₁, hac₁⟩
  split_ifs
  · refine (ends_bumpFromDisplacement hg₁ hm₁ hac₁ objectSpace).mono ?_
    rintro _ g₂ ⟨h₂, hac₂⟩
    exact ⟨h₂.wellFormed, h₂.finalized.trans hm₁, hac₂⟩
  · exact ends_pure ⟨hg₁, hm₁, hac₁⟩

/-- Once the closures of a graph are flattened, its links form a cycle if and only if those before
do so together with the factors of the weights. The outputs are fed as before. -/
theorem ends_flatten {b : Graph} (hb : b.WellFormed) (hm : b.finalized = false) (hac : b.Acyclic) :
    (do flattenOutput "Surface" false; flattenOutput "Volume" true; markFinalized : Edit Unit).Ends b
      fun _ g' => g'.WellFormed ∧ g'.finalized = true ∧
        (g'.Acyclic ↔ ∀ id, ¬ TransGen b.FeedsWeighted id id) ∧
        ∀ slot, g'.linkAt ⟨outputId, slot⟩ = b.linkAt ⟨outputId, slot⟩ := by
  obtain ⟨O, h₀⟩ := exists_flattening hb
  refine Ends.bind (ends_flattenOutput h₀ hb hm hac false) ?_
  rintro _ g₁ ⟨O₁, h₁⟩
  refine Ends.bind (ends_flattenOutput h₁ hb hm hac true) ?_
  rintro _ g₂ ⟨O₂, h₂⟩
  rw [← List.foldl_append] at h₂
  refine ends_modify ⟨h₂.evolves.wellFormed.of_table rfl, rfl, h₂.acyclic_iff, fun slot => ?_⟩
  exact h₂.evolves.linkAt_eq _ (b.lt_idBound_of_kind? hb.kind?_output)
    (not_isWeight hb.kind?_output (Or.inr rfl))

/-- Finalizing succeeds, and the links that it makes form a cycle if and only if those of the
prepared graph do so together with the factors of the weights. -/
theorem ends_finalize (h : g.Compilable) (hm : g.finalized = false) (scene : Scene)
    (bump objectSpace : Bool) :
    (finalize scene bump objectSpace).Ends g fun _ g' => g'.WellFormed ∧ g'.finalized = true ∧
      ∃ b, (prepare scene bump objectSpace).run g = .ok () b ∧ b.Acyclic ∧
        (g'.Acyclic ↔ ∀ id, ¬ TransGen b.FeedsWeighted id id) := by
  obtain ⟨_, b, hrun, hb, hmb, hac⟩ := ends_iff.mp (ends_prepare h hm scene bump objectSpace)
  refine ends_get_bind ?_
  rw [hm]
  refine Ends.bind (ends_iff.mpr ⟨(), b, hrun, rfl⟩ : Ends _ g fun _ g' => g' = b) ?_
  rintro _ _ rfl
  refine (ends_flatten hb hmb hac).mono ?_
  rintro _ g' ⟨hg', hm', hiff, -⟩
  exact ⟨hg', hm', _, hrun, hac, hiff⟩

/-- Nothing is done to a finalized graph. -/
theorem ends_simplify_compilable (h : g.Compilable) (scene : Scene) :
    (simplify scene).Ends g fun _ => Compilable := by
  cases hm : g.finalized with
  | true =>
    refine ends_get_bind ?_
    rw [hm, Bool.not_true, Bool.and_false]
    exact ends_pure h
  | false => exact (ends_simplify h hm scene).mono fun _ _ h' => ⟨h'.1, fun _ => Or.inr h'.2.2⟩

theorem ends_finalize_compilable (h : g.Compilable) (scene : Scene) (bump objectSpace : Bool) :
    (finalize scene bump objectSpace).Ends g fun _ => Compilable := by
  cases hm : g.finalized with
  | true =>
    refine ends_get_bind ?_
    rw [hm]
    exact ends_pure h
  | false =>
    exact (ends_finalize h hm scene bump objectSpace).mono fun _ _ h' =>
      ⟨h'.1, fun _ => Or.inl h'.2.1⟩

theorem ends_compile (h : g.Compilable) (scene : Scene) (options : CompileOptions) :
    (compile scene options).Ends g fun _ => Compilable := by
  have hreport : ∀ g', g'.Compilable → (ask (·.summary)).Ends g' fun _ => Compilable := by
    intro g' h'
    obtain ⟨r, hr, -⟩ := h'.wellFormed.exists_summary
    exact ends_ask hr h'
  rw [compile]
  cases options.stage with
  | simplify => exact Ends.bind (ends_simplify_compilable h scene) fun _ => hreport
  | finalize => exact Ends.bind (ends_finalize_compilable h scene _ _) fun _ => hreport

end Edit

/-! ### Sessions -/

/-- A step in the making of a graph. -/
inductive Step where
  | primitive (p : Primitive)
  | simplify (scene : Scene)
  | finalize (scene : Scene) (bump objectSpace : Bool)
  | compile (scene : Scene) (options : CompileOptions)

namespace Step

open Shading.Graph Edit

def run : Step → Edit Unit
  | primitive p => p.run
  | simplify scene => Edit.simplify scene
  | finalize scene bump objectSpace => Edit.finalize scene bump objectSpace
  | compile scene options => discard <| Edit.compile scene options

/-- The graph that is made by some steps, of which any may have failed. -/
def session (steps : List Step) : Graph := steps.foldl (fun g s => s.run.after g) Graph.empty

theorem compilable_after {g : Graph} (h : g.Compilable) (s : Step) : (s.run.after g).Compilable := by
  cases s with
  | primitive p =>
    have hp := p.follows h.wellFormed
    refine ⟨hp.wellFormed, fun hs => ?_⟩
    obtain ⟨hs', hl⟩ := hp.calm hs
    exact (h.acyclic hs').imp hp.finalized.trans fun hac => hac.of_links hl
  | simplify scene => exact Meets.after (ends_simplify_compilable h scene).meets
  | finalize scene bump objectSpace =>
    exact Meets.after (ends_finalize_compilable h scene bump objectSpace).meets
  | compile scene options => exact Meets.after (ends_discard (ends_compile h scene options)).meets

theorem compilable_session (steps : List Step) : (session steps).Compilable := by
  have hsteps : ∀ g : Graph, g.Compilable →
      (steps.foldl (fun g s => s.run.after g) g).Compilable := by
    induction steps with
    | nil => exact fun _ h => h
    | cons s steps ih => exact fun g h => ih _ (compilable_after h s)
  exact hsteps _ ⟨wellFormed_empty, by simp [Graph.empty]⟩

/-- **Compilation never fails.** Whatever was done to a graph before, and whether it succeeded or
not, the graph can be compiled, and the result can be listed and drawn. -/
theorem session_compiles (steps : List Step) (scene : Scene) (options : CompileOptions) :
    ∃ report g', (Edit.compile scene options).run (session steps) = .ok report g' ∧
      (∃ text, g'.listing = .ok text) ∧ ∃ text, g'.drawing = .ok text := by
  obtain ⟨report, g', hrun, h⟩ :=
    ends_iff.mp (ends_compile (compilable_session steps) scene options)
  exact ⟨report, g', hrun, h.wellFormed.exists_listing, h.wellFormed.exists_drawing⟩

/-! ### Cycles in finalized graphs -/

/-- **Cycles in a finalized graph.** They are the cycles that the factors of the mixes make together
with the links of the prepared graph. There are none if no factor depends on a closure that gets a
weight. -/
theorem finalize_acyclic_iff (steps : List Step) (hm : (session steps).finalized = false)
    (scene : Scene) (bump objectSpace : Bool) :
    ∃ b g', (prepare scene bump objectSpace).run (session steps) = .ok () b ∧
      (Edit.finalize scene bump objectSpace).run (session steps) = .ok () g' ∧
      (g'.Acyclic ↔ ∀ id, ¬ TransGen b.FeedsWeighted id id) ∧ (b.FactorsApart → g'.Acyclic) := by
  obtain ⟨_, g', hrun, -, -, b, hb, hac, hiff⟩ :=
    ends_iff.mp (ends_finalize (compilable_session steps) hm scene bump objectSpace)
  exact ⟨b, g', hb, hrun, hiff, fun h => hiff.mpr (h.not_transGen hac)⟩

/-- A mix of a diffuse closure and an emission, whose factor is a value made out of the diffuse
closure. -/
def shadedFactor : List Step :=
  [.addKind .diffuse, .addKind (.convert .closure .float false), .addKind (.emission false),
    .addKind .mixClosure, .connect ⟨1, 0⟩ ⟨2, 0⟩, .connect ⟨2, 0⟩ ⟨4, 0⟩, .connect ⟨1, 0⟩ ⟨4, 1⟩,
    .connect ⟨3, 0⟩ ⟨4, 2⟩, .connect ⟨4, 0⟩ ⟨0, 0⟩].map primitive

/-- The weight of the diffuse closure depends on the factor, and so on the closure itself. -/
theorem ends_finalize_shadedFactor :
    (Edit.finalize Scene.empty true false).Ends (session shadedFactor) fun _ g' =>
      g'.linkAt ⟨2, 0⟩ = some ⟨1, 0⟩ ∧ g'.linkAt ⟨6, 1⟩ = some ⟨2, 0⟩ ∧
        g'.linkAt ⟨1, 3⟩ = some ⟨6, 0⟩ := by
  decide +kernel

theorem exists_cycle_shadedFactor :
    ∃ g', (Edit.finalize Scene.empty true false).run (session shadedFactor) = .ok () g' ∧
      TransGen g'.Feeds 1 1 := by
  obtain ⟨_, g', hrun, hvalue, hfac, hweight⟩ := ends_iff.mp ends_finalize_shadedFactor
  have h₂ : TransGen g'.Feeds 1 2 := .single ⟨_, _, hvalue, rfl, rfl⟩
  have h₆ : TransGen g'.Feeds 1 6 := h₂.tail ⟨_, _, hfac, rfl, rfl⟩
  exact ⟨g', hrun, h₆.tail ⟨_, _, hweight, rfl, rfl⟩⟩

/-- A graph that is well-formed and without cycles may have a cycle when it is finalized. -/
theorem finalize_shadedFactor_cyclic :
    (session shadedFactor).WellFormed ∧ (session shadedFactor).finalized = false ∧
      (session shadedFactor).isAcyclic = true ∧
      ∃ g', (Edit.finalize Scene.empty true false).run (session shadedFactor) = .ok () g' ∧
        ¬ g'.Acyclic := by
  obtain ⟨g', hrun, hcycle⟩ := exists_cycle_shadedFactor
  exact ⟨(compilable_session _).wellFormed, by decide +kernel, by decide +kernel, g', hrun,
    fun hac => hac 1 hcycle⟩

theorem finalize_acyclic_iff_shadedFactor :
    (session shadedFactor).finalized = false ∧
      ∃ b g', (prepare Scene.empty true false).run (session shadedFactor) = .ok () b ∧
        (Edit.finalize Scene.empty true false).run (session shadedFactor) = .ok () g' ∧
        ¬ g'.Acyclic ∧ ∃ id, TransGen b.FeedsWeighted id id := by
  have hm : (session shadedFactor).finalized = false := by decide +kernel
  obtain ⟨b, g', hb, hrun, hiff, -⟩ := finalize_acyclic_iff shadedFactor hm Scene.empty true false
  obtain ⟨g'', hrun', hcycle⟩ := exists_cycle_shadedFactor
  rw [hrun'] at hrun
  cases hrun
  have hn : ¬ g'.Acyclic := fun hac => hac 1 hcycle
  exact ⟨hm, b, g', hb, hrun', hn, not_forall_not.mp fun h => hn (hiff.mpr h)⟩

end Step

end Shading
