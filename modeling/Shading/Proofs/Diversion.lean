import Shading.Proofs.Cutting
import Shading.Proofs.Removal

/-!
# What moving links leaves alone

When the consumers of an output are moved to another output, they are added at the end of its list of
consumers, in their order, and nothing else changes (`Edit.run_relinkOutput`). When a node is
bypassed, its inputs are unlinked, but the consumers of its output were listed before: an input of
the node that is among them is linked again (`Edit.run_bypass`). -/

namespace Shading

namespace Graph

variable {g g' : Graph} {o s : OutputRef}

/-- The state in which some consumers of the output `o` have been moved to the output `s`, and some
remain. -/
structure Diverts (o s : OutputRef) (moved rest : List InputRef) (g g' : Graph) : Prop where
  grows : g.Grows g'
  idBound_eq : g'.idBound = g.idBound
  diagnostics_eq : g'.diagnostics = g.diagnostics
  /-- Nodes keep all but their links. -/
  bare?_eq : ∀ id, g'.bare? id = g.bare? id
  linkAt_eq : ∀ r, g'.linkAt r = if r ∈ moved then some s else g.linkAt r
  source : g'.fanOut o = rest
  target : g'.fanOut s = g.fanOut s ++ moved
  others : ∀ o', o' ≠ o → o' ≠ s → g'.fanOut o' = g.fanOut o'

theorem Diverts.refl (hg : g.WellFormed) : g.Diverts o s [] (g.fanOut o) g where
  grows := .refl hg
  idBound_eq := rfl
  diagnostics_eq := rfl
  bare?_eq _ := rfl
  linkAt_eq r := by simp
  source := rfl
  target := by simp
  others _ _ _ := rfl

/-- One more consumer is moved: its link is cut, and it is linked to the other output. -/
theorem Diverts.next {moved rest : List InputRef} {t : InputRef} {d : InputDecl} {e : OutputDecl}
    (h : g.Diverts o s moved (t :: rest) g') (hne : o ≠ s)
    (hj : (g'.unlink o t).Joinable s e t d) (hty : e.type.linksTo d.type = true) :
    g.Diverts o s (moved ++ [t]) rest ((g'.unlink o t).link s t) := by
  have hg' := h.grows.wellFormed
  have hl : g'.linkAt t = some o := (hg'.link_iff t o).mpr (by simp [h.source])
  have hcut := trims_unlink hg' hl
  have hsome : ((g'.unlink o t).outputDecl? s).isSome := by simp [hj.source]
  refine ⟨?_, ?_, h.diagnostics_eq, fun id => ?_, fun r => ?_, ?_, ?_, fun o' ho hs => ?_⟩
  · exact (h.grows.trans hcut.evolves.grows).trans
      (evolves_link hcut.wellFormed hj.source hj.target hj.free hj.linkable hty).grows
  · rw [idBound_link, idBound_unlink, h.idBound_eq]
  · rw [bare?_link, bare?_unlink, h.bare?_eq]
  · rw [linkAt_link _ (by simp [hj.target]), linkAt_unlink, h.linkAt_eq]
    by_cases hr : r = t <;> simp [hr]
  · -- the input is listed once
    have hnd := hg'.nodup o
    rw [h.source, List.nodup_cons] at hnd
    rw [fanOut_link _ hsome, if_neg hne, fanOut_unlink, if_pos rfl, h.source, List.filter_cons]
    simp only [bne_self_eq_false, Bool.false_eq_true, if_false]
    exact List.filter_eq_self.mpr fun r hr => by
      simpa using fun heq : r = t => hnd.1 (heq ▸ hr)
  · rw [fanOut_link _ hsome, if_pos rfl, fanOut_unlink, if_neg hne.symm, h.target,
      List.append_assoc]
  · rw [fanOut_link _ hsome, if_neg hs, fanOut_unlink, if_neg ho, h.others o' ho hs]

end Graph

namespace Edit

open Shading.Graph

variable {g : Graph} {o s : OutputRef} {e e' : OutputDecl}

theorem ends_relinkOutput_diverts (hg : g.WellFormed) (hm : g.finalized = false)
    (ho : g.outputDecl? o = some e) (hs : g.outputDecl? s = some e') (hne : o ≠ s)
    (hty : e'.type.linksTo e.type = true) :
    (relinkOutput o (some s)).Ends g fun _ => g.Diverts o s (g.fanOut o) [] := by
  refine meets_requireMutable_bind (fun _ => ?_) fun hf => by simp [hm] at hf
  refine ends_consumersOf_bind ho ?_
  refine (ends_forM (fun rest g' => ∃ moved, g.fanOut o = moved ++ rest ∧
    g.Diverts o s moved rest g') ⟨[], rfl, .refl hg⟩ ?_).mono ?_
  · rintro t rest g' ⟨moved, hall, h⟩
    have hg' := h.grows.wellFormed
    have hm' := h.grows.finalized.trans hm
    have hl : g'.linkAt t = some o := (hg'.link_iff t o).mpr (by simp [h.source])
    refine Ends.bind (ends_disconnectInput_unlink hm' hl) ?_
    rintro _ _ rfl
    have hcut := trims_unlink hg' hl
    obtain ⟨d, hj, hfit⟩ := joinable_of_linkAt hg' (h.grows.outputDecl?_some hg ho)
      (h.grows.outputDecl?_some hg hs) hty hl hcut.evolves (hcut.cut t rfl)
    exact ends_discard (ends_connect_linked (hcut.finalized.trans hm') hj hfit
      ⟨moved ++ [t], by simp [hall], h.next hne hj hfit⟩)
  · rintro _ g' ⟨moved, hall, h⟩
    rw [List.append_nil] at hall
    exact hall ▸ h

/-- **The consumers of an output are moved to another output, and nothing else changes.** They come
after the consumers that the other output has already, in their order. The types of the outputs are
to fit. -/
theorem run_relinkOutput (hg : g.WellFormed) (hm : g.finalized = false)
    (ho : g.outputDecl? o = some e) (hs : g.outputDecl? s = some e') (hne : o ≠ s)
    (hty : e'.type.linksTo e.type = true) :
    ∃ g', (relinkOutput o (some s)).run g = .ok () g' ∧
      g'.fanOut o = [] ∧ g'.fanOut s = g.fanOut s ++ g.fanOut o ∧
      (∀ o', o' ≠ o → o' ≠ s → g'.fanOut o' = g.fanOut o') ∧
      (∀ r, g'.linkAt r = if r ∈ g.fanOut o then some s else g.linkAt r) ∧
      (∀ r, g'.literalAt r = g.literalAt r) ∧ g'.idBound = g.idBound ∧
      (∀ id, g'.bare? id = g.bare? id) ∧ g'.diagnostics = g.diagnostics := by
  obtain ⟨_, g', hrun, h⟩ := ends_iff.mp (ends_relinkOutput_diverts hg hm ho hs hne hty)
  refine ⟨g', hrun, h.source, h.target, h.others, h.linkAt_eq, fun r => ?_, h.idBound_eq,
    h.bare?_eq, h.diagnostics_eq⟩
  rw [literalAt_eq_bare?, h.bare?_eq, ← literalAt_eq_bare?]

/-- Two values, each of which feeds inputs of two sums. -/
def sharedSummands : Graph :=
  Primitive.runAll [.addKind .value, .addKind .value, .addKind (.math .add false),
    .addKind (.math .add false), .connect ⟨1, 0⟩ ⟨3, 0⟩, .connect ⟨2, 0⟩ ⟨4, 0⟩,
    .connect ⟨1, 0⟩ ⟨4, 1⟩, .connect ⟨2, 0⟩ ⟨3, 1⟩] Graph.empty

/-- The first value takes over the inputs that the second one feeds. -/
theorem run_relinkOutput_sharedSummands :
    sharedSummands.WellFormed ∧ sharedSummands.fanOut ⟨1, 0⟩ = [⟨3, 0⟩, ⟨4, 1⟩] ∧
      sharedSummands.fanOut ⟨2, 0⟩ = [⟨4, 0⟩, ⟨3, 1⟩] ∧
      ∃ g', (relinkOutput ⟨2, 0⟩ (some ⟨1, 0⟩)).run sharedSummands = .ok () g' ∧
        g'.fanOut ⟨2, 0⟩ = [] ∧ g'.fanOut ⟨1, 0⟩ = [⟨3, 0⟩, ⟨4, 1⟩, ⟨4, 0⟩, ⟨3, 1⟩] := by
  have hg : sharedSummands.WellFormed := (Primitive.follows_runAll wellFormed_empty _).wellFormed
  have ho : sharedSummands.outputDecl? ⟨2, 0⟩ = some ⟨"Value", .float⟩ := by decide +kernel
  have hs : sharedSummands.outputDecl? ⟨1, 0⟩ = some ⟨"Value", .float⟩ := by decide +kernel
  obtain ⟨g', hrun, hsource, htarget, -⟩ := run_relinkOutput hg rfl ho hs (by decide) rfl
  exact ⟨hg, by decide +kernel, by decide +kernel, g', hrun, hsource,
    htarget.trans (by decide +kernel)⟩

/-! ### Bypassing a node -/

/-- **A bypassed node is out of the flow of data if and only if the bypassed output did not feed
the node itself.** The output is left without consumers, since all of them are moved, and the other
inputs of the node are unlinked. -/
theorem run_bypass (hg : g.WellFormed) (hm : g.finalized = false) {id : NodeId} {i : Nat}
    (ho : g.outputDecl? ⟨id, i⟩ = some e) (hs : g.outputDecl? s = some e') (hne : s.node ≠ id)
    (hty : e'.type.linksTo e.type = true) :
    ∃ g', (bypass id ⟨id, i⟩ (some s)).run g = .ok () g' ∧ g'.fanOut ⟨id, i⟩ = [] ∧
      (∀ r, g'.linkAt r = if g.linkAt r = some ⟨id, i⟩ then some s else
        if r.node = id then none else g.linkAt r) ∧
      ((∀ slot, g'.linkAt ⟨id, slot⟩ = none) ↔ ∀ slot, g.linkAt ⟨id, slot⟩ ≠ some ⟨id, i⟩) := by
  obtain ⟨k, hk⟩ := g.kind?_of_outputDecl? ho
  obtain ⟨_, g', hrun, h⟩ := ends_iff.mp (ends_bypass hg hm hk ho hs hty)
  refine ⟨g', hrun, ?_, h.linkAt_eq, fun hnone slot hl => ?_, fun hloop slot => ?_⟩
  · refine List.eq_nil_iff_forall_not_mem.mpr fun r hr => ?_
    have hl := (h.evolves.wellFormed.link_iff r _).mpr hr
    rw [h.linkAt_eq] at hl
    split_ifs at hl with hfed
    · exact hne (congrArg OutputRef.node (Option.some.inj hl))
    · exact hfed hl
  · have hmoved := h.moved _ hl
    rw [hnone slot] at hmoved
    cases hmoved
  · exact h.cut _ rfl (hloop slot)

/-- A vector sum of which the vector output feeds its own input, and the other output a number. -/
def turningSum : Graph :=
  Primitive.runAll [.addKind .value, .addKind (.vectorMath .add), .addKind (.math .add false),
    .connect ⟨2, 1⟩ ⟨2, 0⟩, .connect ⟨2, 0⟩ ⟨3, 0⟩] Graph.empty

theorem run_bypass_turningSum :
    turningSum.WellFormed ∧ turningSum.linkAt ⟨2, 0⟩ = some ⟨2, 1⟩ ∧
      ∃ g', (bypass 2 ⟨2, 0⟩ (some ⟨1, 0⟩)).run turningSum = .ok () g' ∧
        g'.linkAt ⟨3, 0⟩ = some ⟨1, 0⟩ ∧ ∀ slot, g'.linkAt ⟨2, slot⟩ = none := by
  have hg : turningSum.WellFormed := (Primitive.follows_runAll wellFormed_empty _).wellFormed
  have ho : turningSum.outputDecl? ⟨2, 0⟩ = some ⟨"Value", .float⟩ := by decide +kernel
  have hs : turningSum.outputDecl? ⟨1, 0⟩ = some ⟨"Value", .float⟩ := by decide +kernel
  obtain ⟨g', hrun, -, hlink, hout⟩ := run_bypass hg rfl ho hs (by decide) rfl
  have hfan : turningSum.fanOut ⟨2, 0⟩ = [⟨3, 0⟩] := by decide +kernel
  refine ⟨hg, by decide +kernel, g', hrun, (hlink _).trans (by decide +kernel), hout.mpr ?_⟩
  intro slot hl
  rw [hg.link_iff, hfan] at hl
  simp at hl

/-- A sum that feeds itself and the strength of an emission, and a value. -/
def fedBack : Graph :=
  Primitive.runAll [.addKind .value, .addKind (.math .add false), .addKind (.emission false),
    .connect ⟨2, 0⟩ ⟨2, 0⟩, .connect ⟨2, 0⟩ ⟨3, 1⟩] Graph.empty

/-- The sum is bypassed, and its own input is linked to the value. -/
theorem bypass_fedBack :
    fedBack.WellFormed ∧ fedBack.finalized = false ∧
      fedBack.outputDecl? ⟨2, 0⟩ = some ⟨"Value", .float⟩ ∧
      fedBack.outputDecl? ⟨1, 0⟩ = some ⟨"Value", .float⟩ ∧
      ∃ g', (bypass 2 ⟨2, 0⟩ (some ⟨1, 0⟩)).run fedBack = .ok () g' ∧
        g'.linkAt ⟨2, 0⟩ = some ⟨1, 0⟩ := by
  have hrun : (bypass 2 ⟨2, 0⟩ (some ⟨1, 0⟩)).Ends fedBack fun _ g' =>
      g'.linkAt ⟨2, 0⟩ = some ⟨1, 0⟩ := by decide +kernel
  obtain ⟨_, g', hrun, hlink⟩ := ends_iff.mp hrun
  exact ⟨(Primitive.follows_runAll wellFormed_empty _).wellFormed, rfl, by decide +kernel,
    by decide +kernel, g', hrun, hlink⟩

end Edit

end Shading
