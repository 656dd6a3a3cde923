import Shading.Proofs.CycleSearch
import Shading.Proofs.Deduplication
import Shading.Proofs.Meaning

/-!
# Deduplication keeps the meaning

Two nodes that compute the same have the same values under every interpretation that respects the
comparison of literals. So the values of the graph before still solve the equations of the nodes
that count in the end (`Scan.Agrees`), and these have no other solution. -/

namespace Shading

universe u

variable {V : Type u} {I : Interpretation V} {v : OutputRef → V}

namespace Graph

variable {g g' : Graph} {x y : NodeId} {m n : Node}

/-- Twins have the same values. -/
theorem Twins.received_eq (h : g.Twins x y) (hg : g.WellFormed) (hn : g.node? x = some n)
    (hm : g.node? y = some m) : m.received I v = n.received I v := by
  have hkind : n.kind = m.kind := by simpa [kind?, hn, hm] using h.kind
  refine received_congr hn hm (hg.length_inputs_congr hg hm hn hkind.symm)
    (fun slot => by rw [h.links slot]) fun slot hs => ?_
  exact I.map_literal_congr (h.literals slot hs)

/-- Nothing is linked to an output of the graph. -/
theorem WellFormed.unused_of_isOutput (hg : g.WellFormed) (hx : g.IsOutput x) : g.Unused x := by
  intro r o ho hox
  obtain ⟨e, he⟩ := hg.exists_output ho
  rcases hx with rfl | ⟨name, hk⟩
  · exact hg.ne_outputId_of_feeds (feeds_of_linkAt ho) hox
  · rw [hg.outputDecl?_eq (hox ▸ hk)] at he
    cases he

theorem SameNodes.isOutput_iff (h : g.SameNodes g') : g'.IsOutput x ↔ g.IsOutput x := by
  rw [IsOutput, IsOutput, h.kind?_eq]

end Graph

namespace Scan

open Shading.Graph

variable {g₀ : Graph} {s s' : Scan} {x : NodeId}

/-- A node counts as long as it was not handed out, and later if it is a candidate or an output of
the graph. -/
def Live (s : Scan) (x : NodeId) : Prop :=
  x ∉ s.worklist.done ∨ x ∈ s.candidates ∨ s.graph.IsOutput x

/-- With the values of the start, nodes that count receive what they received at the start. -/
structure Agrees (I : Interpretation V) (v : OutputRef → V) (g₀ : Graph) (s : Scan) : Prop where
  same : g₀.SameNodes s.graph
  idBound_eq : s.graph.idBound = g₀.idBound
  received : ∀ x n₀ n, s.Live x → g₀.node? x = some n₀ → s.graph.node? x = some n →
    n.received I v = n₀.received I v

theorem agrees_start (I : Interpretation V) (v : OutputRef → V) (g : Graph) :
    Agrees I v g ⟨.ofGraph g, [], g⟩ := by
  refine ⟨fun _ => rfl, rfl, fun x n₀ n _ hn₀ hn => ?_⟩
  obtain rfl : n₀ = n := Option.some.inj (hn₀.symm.trans hn)
  rfl

/-- The values of the start still solve the equations of nodes that count. -/
theorem Agrees.solves (h : s.Agrees I v g₀) (hv : g₀.Evaluates I v) {n : Node} (hx : s.Live x)
    (hn : s.graph.node? x = some n) (slot : Nat) : v ⟨x, slot⟩ = n.computed I v slot := by
  obtain ⟨n₀, hn₀⟩ := exists_node_of_mem (h.same.ids_eq.mp (mem_ids_of_node hn))
  obtain ⟨hkind, hbump⟩ := h.same.kind_bump_eq hn₀ hn
  rw [hv x trivial n₀ hn₀, Node.computed_congr hkind hbump (h.received x n₀ n hx hn₀ hn)]

/-- Nodes that are found to be twins have the same values from the start. -/
theorem Agrees.eq_of_twins (h : s.Agrees I v g₀) (hs : s.Valid) (hv : g₀.Evaluates I v)
    {t : NodeId} (hx : s.Live x) (ht : s.Live t) (htw : s.graph.Twins x t) (hxg : x ∈ s.graph.ids)
    (slot : Nat) : v ⟨x, slot⟩ = v ⟨t, slot⟩ := by
  obtain ⟨n, hn⟩ := exists_node_of_mem hxg
  have htg : t ∈ s.graph.ids := by
    rw [mem_ids_iff_kind?] at hxg ⊢
    rwa [← htw.kind]
  obtain ⟨m, hm⟩ := exists_node_of_mem htg
  have hkind : m.kind = n.kind := by simpa [kind?, hn, hm] using htw.kind.symm
  have hbump : m.bump = n.bump := by simpa [hn, hm] using htw.bump.symm
  rw [h.solves hv hx hn, h.solves hv ht hm,
    Node.computed_congr hkind hbump (htw.received_eq hs.wellFormed hn hm)]

/-- What counts after a step has counted before. -/
theorem Step.live (h : s.Step s') (hs : s.Valid) {y : NodeId} (hy : s'.Live y) : s.Live y := by
  cases h with
  | skip hx hunused =>
    obtain ⟨-, hdone, -⟩ := hs.sound.next hs.wellFormed hx
    exact hy.imp_left fun hy hy' => hy (hdone ▸ List.mem_cons_of_mem _ hy')
  | keep hx hnew =>
    obtain ⟨-, hdone, -⟩ := hs.sound.next hs.wellFormed hx
    obtain ⟨hpast, -, -⟩ := hs.ordered.next hs.sound hx
    rcases hy with hy | hy | hy
    · exact Or.inl fun hy' => hy (hdone ▸ List.mem_cons_of_mem _ hy')
    · rcases List.mem_append.mp hy with hy | hy
      · exact Or.inr (Or.inl hy)
      · exact Or.inl fun hy' => hpast (Or.inl (List.mem_singleton.mp hy ▸ hy'))
    · exact Or.inr (Or.inr hy)
  | merge hx hused ht htw h =>
    obtain ⟨-, hdone, -⟩ := hs.sound.next hs.wellFormed hx
    rcases hy with hy | hy | hy
    · exact Or.inl fun hy' => hy (hdone ▸ List.mem_cons_of_mem _ hy')
    · exact Or.inr (Or.inl hy)
    · exact Or.inr (Or.inr (h.same.isOutput_iff.mp hy))

/-- A node that is merged does not count any more. -/
theorem Valid.ne_of_live {w w' : Worklist} {candidates : List NodeId} {g g' : Graph} {y : NodeId}
    (hs : Valid ⟨w, candidates, g⟩) (hx : w.next? = some (x, w')) (hused : ¬ g.Unused x)
    (hsame : g.SameNodes g') (hy : Live ⟨w'.scheduleConsumers g x, candidates, g'⟩ y) : y ≠ x := by
  obtain ⟨-, hdone, -⟩ := hs.sound.next hs.wellFormed hx
  rcases hy with hy | hy | hy
  · exact fun hyx => hy (hdone ▸ hyx ▸ List.mem_cons_self)
  · exact (hs.next hx y hy).1
  · exact fun hyx => hused (hyx ▸ hs.wellFormed.unused_of_isOutput (hsame.isOutput_iff.mp hy))

theorem Step.agrees (h : s.Step s') (hs : s.Valid) (hv : g₀.Evaluates I v) (ha : s.Agrees I v g₀) :
    s'.Agrees I v g₀ := by
  have hlive : ∀ {y}, s'.Live y → s.Live y := h.live hs
  cases h with
  | skip hx hunused => exact ⟨ha.same, ha.idBound_eq, fun y n₀ n hy => ha.received y n₀ n (hlive hy)⟩
  | keep hx hnew => exact ⟨ha.same, ha.idBound_eq, fun y n₀ n hy => ha.received y n₀ n (hlive hy)⟩
  | merge hx hused ht htw h =>
    rename_i w w' candidates g g' x t
    obtain ⟨hpast, -, -⟩ := hs.ordered.next hs.sound hx
    have hval := ha.eq_of_twins hs hv (Or.inl fun hd => hpast (Or.inl hd)) (Or.inr (Or.inl ht)) htw
      (hs.within.next hx).1
    refine ⟨ha.same.trans h.same, h.idBound_eq.trans ha.idBound_eq, fun y n₀ n' hy hn₀ hn' => ?_⟩
    obtain ⟨n, hn⟩ := exists_node_of_mem (ha.same.ids_eq.mpr (mem_ids_of_node hn₀))
    obtain ⟨hkind, -⟩ := h.same.kind_bump_eq hn hn'
    rw [← ha.received y n₀ n (hlive hy) hn₀ hn]
    refine received_congr hn hn' (h.grows.wellFormed.length_inputs_congr hs.wellFormed hn' hn hkind)
      (fun slot => ?_) fun slot _ => by rw [h.same.literalAt_eq]
    rw [h.linkAt_eq, if_neg (hs.ne_of_live hx hused h.same hy)]
    cases g.linkAt ⟨y, slot⟩ with
    | none => rfl
    | some o =>
      rw [Option.map_some, Option.map_some, Option.map_some]
      split_ifs with hox
      · rw [← hval, ← hox]
      · rfl

end Scan

namespace Edit

open Shading.Graph

/-- **Deduplication keeps the meaning.** Whatever nodes compute, the outputs of the graph and all
nodes that still feed something receive the same values as before, and nodes keep their kinds and
literals. -/
theorem mergeDuplicates_meaning (I : Interpretation V) (g : Graph) (hg : g.WellFormed)
    (hm : g.finalized = false) (hac : g.Acyclic) :
    (∃ v, g.Evaluates I v) ∧ mergeDuplicates.Ends g fun _ g' =>
      (g.SameNodes g' ∧ g'.idBound = g.idBound) ∧ (∃ v', g'.Evaluates I v') ∧
        ∀ v v', g.Evaluates I v → g'.Evaluates I v' → ∀ x n n', g.node? x = some n →
          g'.node? x = some n' → n'.isConsumed = true ∨ g'.IsOutput x →
            n'.received I v' = n.received I v := by
  obtain ⟨v₀, hv₀⟩ := hac.exists_evaluates hg I
  refine ⟨⟨v₀, hv₀⟩, ?_⟩
  have hstart := Scan.valid_start hg hac
  refine ends_get_bind ((ends_mergeAll_steps hstart hm 0).mono ?_)
  rintro _ _ ⟨s, rfl, hq, hsteps⟩
  have hend : ∀ v, g.Evaluates I v → s.Valid ∧ s.Agrees I v g := fun v hv =>
    hstart.steps hsteps (Scan.agrees_start I v g) fun hstep hs => hstep.agrees hs hv
  obtain ⟨hs, ha⟩ := hend v₀ hv₀
  refine ⟨⟨ha.same, ha.idBound_eq⟩, hs.acyclic.exists_evaluates hs.wellFormed I, ?_⟩
  intro v v' hv hv' x n n' hn hn' hx
  obtain ⟨-, ha⟩ := hend v hv
  -- only nodes that count feed others, and the old values solve their equations
  have hfeeds : ∀ a b, s.graph.Feeds a b → a ∈ {y | s.Live y} := by
    intro a b hab
    refine Or.inr (Or.inl (hs.mem_candidates hq (hs.wellFormed.mem_ids_of_feeds hab).1 ?_))
    obtain ⟨r, o, ho, hoa, -⟩ := hab
    exact fun hunused => hunused r o ho hoa
  obtain ⟨rank, hr⟩ := hs.wellFormed.acyclic_iff_ranked.mp hs.acyclic
  have hlive : s.Live x := by
    refine Or.inr (hx.imp_left fun hc => ?_)
    exact hs.mem_candidates hq (mem_ids_of_node hn') ((hs.wellFormed.isConsumed_iff hn').mp hc)
  rw [← ha.received x n n' hlive hn hn']
  refine received_congr_links hn' fun slot o ho => ?_
  have hfeed := feeds_of_linkAt ho
  obtain ⟨m, hm'⟩ := exists_node_of_mem (hs.wellFormed.mem_ids_of_feeds hfeed).1
  exact EvaluatesOn.unique hr hs.wellFormed (fun a b hab _ => hfeeds a b hab)
    (fun y hy m hm' => ha.solves hv hy hm') (fun y _ => hv' y trivial) (hfeeds _ _ hfeed) hm' o.slot

/-- Counts the literals that a value is computed from. -/
def literalCount : Interpretation Nat where
  literal _ := 1
  eval _ _ values := [values.sum]
  missing := 0
  literal_congr _ _ _ := rfl

/-- The values of all outputs are known after as many rounds as there are nodes. -/
theorem evaluates_twoProducts :
    twoProducts.Evaluates literalCount
      ((twoProducts.evaluateOnce literalCount Set.univ fun _ => 0)^[8] fun _ => 0) :=
  ranked_twoProducts.rankedOn.evaluatesOn_iterate _ (by decide)

theorem received_twoProducts :
    (twoProducts.node? outputId).map (·.received literalCount
      ((twoProducts.evaluateOnce literalCount Set.univ fun _ => 0)^[8] fun _ => 0)) =
        some [1, 1, 7, 1] := by
  decide +kernel

theorem mergeDuplicates_meaning_twoProducts :
    twoProducts.WellFormed ∧ twoProducts.finalized = false ∧ twoProducts.Acyclic ∧
      mergeDuplicates.Ends twoProducts fun _ g' => ∀ v', g'.Evaluates literalCount v' →
        ∃ n', g'.node? outputId = some n' ∧ n'.received literalCount v' = [1, 1, 7, 1] := by
  have hm : twoProducts.finalized = false := by decide
  have hac : twoProducts.Acyclic := ranked_twoProducts.acyclic
  refine ⟨wellFormed_twoProducts, hm, hac,
    (mergeDuplicates_meaning literalCount twoProducts wellFormed_twoProducts hm hac).2.mono ?_⟩
  rintro _ g' ⟨⟨hsame, -⟩, -, h⟩ v' hv'
  obtain ⟨n, hn, hrec⟩ := Option.map_eq_some_iff.mp received_twoProducts
  obtain ⟨n', hn'⟩ := exists_node_of_mem (hsame.ids_eq.mpr (mem_ids_of_node hn))
  have hsame' := h _ v' evaluates_twoProducts hv' outputId n n' hn hn' (Or.inr (Or.inl rfl))
  exact ⟨n', hn', hsame'.trans hrec⟩

end Edit

end Shading
