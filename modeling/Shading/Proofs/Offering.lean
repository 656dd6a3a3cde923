import Mathlib.Data.List.Nodup
import Shading.Listing
import Shading.Proofs.Linking

/-!
# Links that are offered

A link that fits is made unless its target is linked already; then it is turned down, and this is
reported. So after some links were offered one after another, each input has the link that it had
before, or else the first one that it was offered (`Graph.Offers`). -/

namespace Shading

namespace Graph

/-- `g'` comes from `g` by offering links one after another. -/
structure Offers (ls : List Link) (g g' : Graph) : Prop where
  evolves : g.Evolves (fun r => ∃ l ∈ ls, l.target = r) g'
  idBound_eq : g'.idBound = g.idBound
  bare?_eq : ∀ id, g'.bare? id = g.bare? id
  linkAt_eq : ∀ r, g'.linkAt r = (g.linkAt r).or ((ls.find? (·.target = r)).map (·.source))
  diagnostics_eq : (∀ l ∈ ls, g.linkAt l.target = none) → (ls.map (·.target)).Nodup →
    g'.diagnostics = g.diagnostics

namespace Offers

variable {g g' : Graph} {ls : List Link} {s : OutputRef} {t : InputRef}

theorem refl (hg : g.WellFormed) : g.Offers [] g :=
  ⟨.refl hg, rfl, fun _ => rfl, fun r => by simp, fun _ _ => rfl⟩

theorem linkAt_of_not_mem (h : g.Offers ls g') {r : InputRef} (hr : ∀ l ∈ ls, l.target ≠ r) :
    g'.linkAt r = g.linkAt r := by
  have hnone : ls.find? (·.target = r) = none := List.find?_eq_none.mpr fun l hl => by simp [hr l hl]
  rw [h.linkAt_eq, hnone, Option.map_none, Option.or_none]

/-- A link that is offered to a free input, to which no other one is offered, is made. -/
theorem linkAt_of_mem (h : g.Offers ls g') (hnd : (ls.map (·.target)).Nodup) {l : Link} (hl : l ∈ ls)
    (hfree : g.linkAt l.target = none) : g'.linkAt l.target = some l.source := by
  obtain ⟨l', hl'⟩ : ∃ l', ls.find? (·.target = l.target) = some l' :=
    Option.isSome_iff_exists.mp (List.find?_isSome.mpr ⟨l, hl, by simp⟩)
  have htarget : l'.target = l.target := by simpa using List.find?_some hl'
  have heq : l' = l := List.inj_on_of_nodup_map hnd (List.mem_of_find?_eq_some hl') hl htarget
  rw [h.linkAt_eq, hfree, hl', heq, Option.none_or, Option.map_some]

theorem link_cases (h : g.Offers ls g') {r : InputRef} {o : OutputRef} (ho : g'.linkAt r = some o) :
    g.linkAt r = some o ∨ ∃ l ∈ ls, l.target = r ∧ l.source = o := by
  rw [h.linkAt_eq, Option.or_eq_some_iff, Option.map_eq_some_iff] at ho
  refine ho.imp_right ?_
  rintro ⟨-, l, hl, rfl⟩
  exact ⟨l, List.mem_of_find?_eq_some hl, by simpa using List.find?_some hl, rfl⟩

/-- One more link is made. -/
theorem snoc_link (h : g.Offers ls g') (hd : (g'.inputDecl? t).isSome)
    (hfree : g'.linkAt t = none) (he : g'.Evolves (· = t) (g'.link s t)) :
    g.Offers (ls ++ [⟨s, t⟩]) (g'.link s t) where
  evolves := by
    refine (h.evolves.mono ?_).trans (he.mono ?_)
    · rintro r ⟨l, hl, hr⟩
      exact ⟨l, List.mem_append_left _ hl, hr⟩
    · rintro r rfl
      exact ⟨⟨s, r⟩, by simp, rfl⟩
  idBound_eq := (g'.idBound_link s t).trans h.idBound_eq
  bare?_eq id := (g'.bare?_link s t id).trans (h.bare?_eq id)
  linkAt_eq r := by
    rw [g'.linkAt_link hd, List.find?_append, Option.map_or, ← Option.or_assoc, ← h.linkAt_eq]
    by_cases hr : r = t
    · subst hr
      simp [hfree]
    · have hne : ¬ t = r := fun heq => hr heq.symm
      simp [hr, hne]
  diagnostics_eq hfree' hnd := by
    rw [List.map_append] at hnd
    exact h.diagnostics_eq (fun l hl => hfree' l (List.mem_append_left _ hl)) (List.nodup_append.mp hnd).1

/-- One more link is turned down. -/
theorem snoc_report (h : g.Offers ls g') (hlinked : g'.linkAt t ≠ none) (c : Diagnostic) :
    g.Offers (ls ++ [⟨s, t⟩]) (g'.report c) where
  evolves := by
    refine (h.evolves.mono ?_).trans (evolves_report h.evolves.wellFormed c).widen
    rintro r ⟨l, hl, hr⟩
    exact ⟨l, List.mem_append_left _ hl, hr⟩
  idBound_eq := h.idBound_eq
  bare?_eq := h.bare?_eq
  linkAt_eq r := by
    change g'.linkAt r = _
    rw [List.find?_append, Option.map_or, ← Option.or_assoc, ← h.linkAt_eq]
    by_cases hr : t = r
    · subst hr
      obtain ⟨o, ho⟩ := Option.ne_none_iff_exists'.mp hlinked
      rw [ho, Option.some_or]
    · simp [hr]
  diagnostics_eq hfree hnd := by
    refine absurd ?_ hlinked
    rw [List.map_append, List.nodup_append] at hnd
    rw [h.linkAt_of_not_mem fun l hl heq => hnd.2.2 _ (List.mem_map_of_mem hl) t (by simp) heq]
    exact hfree ⟨s, t⟩ (by simp)

end Offers

end Graph

namespace Edit

open Shading.Graph

variable {g g' : Graph} {ls : List Link}

theorem ends_connect_offers (h : g.Offers ls g') (hg : g.WellFormed) (hm : g.finalized = false)
    {s : OutputRef} {e : OutputDecl} (hs : g.outputDecl? s = some e) {t : InputRef} {d : InputDecl}
    (ht : g.inputDecl? t = some d) (hty : e.type.linksTo d.type = true) (hl : d.linkable = true) :
    (connect s t).Ends g' fun _ => g.Offers (ls ++ [⟨s, t⟩]) := by
  have hg' := h.evolves.wellFormed
  refine ends_connect_fitting (h.evolves.finalized.trans hm) (h.evolves.outputDecl?_some hg hs)
    (h.evolves.inputDecl?_some hg ht) hty (fun c hr => ?_) fun hj => ?_
  · exact h.snoc_report (hr.resolve_right (by simp [hl])) c
  · exact h.snoc_link (by simp [hj.target]) hj.free
      (evolves_link hg' hj.source hj.target hj.free hj.linkable hty)

theorem ends_connectNamed_offers (h : g.Offers ls g') (hg : g.WellFormed)
    (hm : g.finalized = false) {source target : NodeId} {k k' : NodeKind} {output input : String}
    {i j : Nat} (hs : g.kind? source = some k) (hi : k.layout.outputSlot? output = some i)
    (ht : g.kind? target = some k') (hj : k'.layout.inputSlot? input = some j) {e : OutputDecl}
    (he : k.outputDecls[i]? = some e) {d : InputDecl} (hd : k'.inputDecls[j]? = some d)
    (hty : e.type.linksTo d.type = true) (hl : d.linkable = true) :
    (connectNamed source output target input).Ends g' fun _ =>
      g.Offers (ls ++ [⟨⟨source, i⟩, ⟨target, j⟩⟩]) := by
  have hg' := h.evolves.wellFormed
  refine ends_ask_bind (hg'.outputRef_eq (h.evolves.kind?_some hs) hi) ?_
  refine ends_ask_bind (hg'.inputRef_eq (h.evolves.kind?_some ht) hj) ?_
  exact ends_connect_offers h hg hm ((hg.outputDecl?_eq hs i).trans he)
    ((hg.inputDecl?_eq ht j).trans hd) hty hl

/-- A loop that offers one link at each step. -/
theorem ends_forM_offers {β : Type} {f : β → Edit Unit} (link : β → Link) {l : List β}
    (hg : g.WellFormed)
    (step : ∀ b ∈ l, ∀ ls g', g.Offers ls g' → (f b).Ends g' fun _ => g.Offers (ls ++ [link b])) :
    (l.forM f).Ends g fun _ => g.Offers (l.map link) := by
  refine (ends_forM (fun rest g' => ∃ done, l = done ++ rest ∧ g.Offers (done.map link) g')
    ⟨[], rfl, .refl hg⟩ ?_).mono ?_
  · rintro b rest g' ⟨done, rfl, h⟩
    refine (step b (by simp) _ g' h).mono fun _ g'' h' => ⟨done ++ [b], by simp, ?_⟩
    rw [List.map_append]
    exact h'
  · rintro _ g' ⟨done, rfl, h⟩
    rw [List.append_nil]
    exact h

end Edit

end Shading
