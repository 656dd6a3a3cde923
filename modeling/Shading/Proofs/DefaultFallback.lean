import Shading.Proofs.ProxyChain

/-!
# Falling back to default sources

An input with a default source may read an automatic conversion that reads a proxy which nothing
feeds, both through chains of proxies. When the last proxy before the conversion is taken out, the
input falls back to its default source, but only if nothing stands between it and the conversion any
more. As the proxies are taken out in the order of the nodes, it stays linked to the conversion if and
only if some proxy between them comes after all proxies before the conversion
(`ResolvesAll.fallback`). -/

namespace Shading

namespace Graph

/-- Some node of the first list comes after all nodes of the second. -/
def Late (ps qs : List NodeId) : Prop := ∃ q ∈ ps, ∀ p ∈ qs, p < q

/-- An input with a default source reads an automatic conversion that nothing feeds. -/
structure ReadsUnfed (g : Graph) (r : InputRef) (ps : List NodeId) (c : NodeId)
    (qs : List NodeId) : Prop where
  defaulted : g.Defaulted r
  auto : g.IsAutoConvert c
  reads : g.ProxyChain r ps (some ⟨c, 0⟩)
  unfed : g.ProxyChain ⟨c, 0⟩ qs none

variable {g g' : Graph} {id c : NodeId} {r : InputRef} {ps qs : List NodeId}

theorem Defaulted.not_isConvert (h : g.Defaulted r) (hg : g.WellFormed) : ¬ g.IsConvert r.node :=
  fun hc => hc.not_defaulted hg r.slot h

namespace ReadsUnfed

/-- The proxies of the two chains are different ones, because their ends are. -/
theorem disjoint (h : g.ReadsUnfed r ps c qs) (hps : id ∈ ps) : id ∉ qs := by
  intro hqs
  obtain ⟨ps₁, ps₂, rfl⟩ := List.append_of_mem hps
  obtain ⟨qs₁, qs₂, rfl⟩ := List.append_of_mem hqs
  simpa using (h.reads.suffix.unique h.unfed.suffix).2

/-- A proxy makes the input fall back if it is the last one that is left. -/
theorem fallsBack_iff (h : g.ReadsUnfed r ps c qs) (hg : g.WellFormed) (hp : g.IsProxy id) :
    g.linkAt ⟨id, 0⟩ = none ∧ g.FallsBack id r ↔ ps = [] ∧ qs = [id] := by
  constructor
  · rintro ⟨hn, -, c', hc', hl⟩
    obtain ⟨rfl, heq⟩ := h.reads.unique (.source hl hc'.1.not_isProxy)
    cases heq
    exact ⟨rfl, (h.unfed.unique (.through hc'.2 hp (.dry hn))).1⟩
  · rintro ⟨rfl, rfl⟩
    cases h.unfed with
    | through hl hp hdry =>
      exact ⟨hdry.linkAt_eq, h.defaulted, c, ⟨h.auto, hp.linkAt_eq hg hl⟩, h.reads.linkAt_eq⟩

theorem eq_singleton (h : g.ReadsUnfed r ps c qs) (hne : qs ≠ []) (hall : ∀ q ∈ qs, q = id) :
    qs = [id] := by
  obtain ⟨qs, q, rfl⟩ := qs.eq_nil_or_concat'.resolve_left hne
  have hq : q = id := hall q (by simp)
  have hqs : qs = [] := by
    refine List.eq_nil_iff_forall_not_mem.mpr fun x hx => h.unfed.last_not_mem ?_
    rwa [hq, ← hall x (by simp [hx])]
  rw [hqs, hq, List.nil_append]

/-- If the last proxy before the conversion is looked at while one behind it is left, then that one
comes later than all those. -/
theorem late_of_last {g₁ : Graph} {done : List NodeId} (h : g.ReadsUnfed r ps c qs)
    (h₁ : g₁.ReadsUnfed r (ps.filter (· ∉ done)) c (qs.filter (· ∉ done)))
    (hall : ∀ q ∈ qs, q ∈ done ++ [id]) (hdone : ¬ ∀ q ∈ qs, q ∈ done)
    (hlast : ¬ (ps.filter (· ∉ done) = [] ∧ qs.filter (· ∉ done) = [id]))
    (hlt : ∀ x ∈ done, x < id) (hle : ∀ x, g.IsProxy x → x ∉ done → id ≤ x) : Late ps qs := by
  have hqs : qs.filter (· ∉ done) = [id] := by
    refine h₁.eq_singleton (fun hnil => hdone ?_) fun q hq => ?_
    · simpa using List.filter_eq_nil_iff.mp hnil
    · rw [List.mem_filter] at hq
      have hq' := List.mem_append.mp (hall q hq.1)
      exact List.mem_singleton.mp (hq'.resolve_left (by simpa using hq.2))
  obtain ⟨q, hq⟩ := List.exists_mem_of_ne_nil _ fun hnil => hlast ⟨hnil, hqs⟩
  have hne : q ≠ id := fun heq => h₁.disjoint hq (hqs ▸ List.mem_singleton.mpr heq)
  rw [List.mem_filter] at hq
  have hidq : id < q :=
    lt_of_le_of_ne' (hle q (h.reads.isProxy q hq.1) (by simpa using hq.2)) hne
  refine ⟨q, hq.1, fun p hp => ?_⟩
  rcases List.mem_append.mp (hall p hp) with hpd | hpd
  · exact Nat.lt_trans (hlt p hpd) hidq
  · exact List.mem_singleton.mp hpd ▸ hidq

end ReadsUnfed

theorem Resolves.linkAt_of_fallsBack {removed : List NodeId} (h : g.Resolves id removed g')
    (hn : g.linkAt ⟨id, 0⟩ = none) (hf : g.FallsBack id r) : g'.linkAt r = none := by
  cases h with
  | bypassed s hs _ _ _ => simp [hn] at hs
  | emptied _ _ _ h _ _ _ => exact h.cut r (Or.inr hf)

/-- Some nodes have been looked at. The input still reads the conversion, or it has fallen back to
its default source. -/
inductive Fallback (r : InputRef) (ps : List NodeId) (c : NodeId) (qs done : List NodeId)
    (g' : Graph) : Prop
  | waiting (hreads : g'.ProxyChain r (ps.filter (· ∉ done)) (some ⟨c, 0⟩))
    (hlate : (∀ q ∈ qs, q ∈ done) → Late ps qs)
  | released (hl : g'.linkAt r = none) (hlate : ¬ Late ps qs)

variable {done removed more : List NodeId} {g₁ g₂ : Graph}

/-- **One proxy.** Those that have been looked at come before it, and the others after it. -/
theorem Fallback.step (h : Fallback r ps c qs done g₁) (hg : g.WellFormed)
    (h₀ : g.ReadsUnfed r ps c qs) (hu : g.Unproxied done removed g₁) (hp : g.IsProxy id)
    (hres : g₁.Resolves id more g₂) (hlt : ∀ x ∈ done, x < id)
    (hle : ∀ x, g.IsProxy x → x ∉ done → id ≤ x) :
    Fallback r ps c qs (done ++ [id]) g₂ := by
  have hg₁ := hu.shortens.evolves.wellFormed
  have hp₁ := (hu.isProxy_iff id).mpr hp
  cases h with
  | released hl hlate => exact .released ((hres.shortens hp₁).linkAt_none hl) hlate
  | waiting hreads hlate =>
    have h₁ : g₁.ReadsUnfed r (ps.filter (· ∉ done)) c (qs.filter (· ∉ done)) :=
      ⟨(hu.defaulted_iff hg r).mpr h₀.defaulted, (hu.isAutoConvert_iff c).mpr h₀.auto, hreads,
        hu.proxyChain h₀.auto.not_isProxy (h₀.auto.isConvert.not_defaulted hg 0) h₀.unfed⟩
    by_cases hlast : ps.filter (· ∉ done) = [] ∧ qs.filter (· ∉ done) = [id]
    · obtain ⟨hn, hf⟩ := (h₁.fallsBack_iff hg₁ hp₁).mpr hlast
      refine .released (hres.linkAt_of_fallsBack hn hf) ?_
      rintro ⟨q, hq, hall⟩
      have hqd : q ∈ done := by simpa using List.filter_eq_nil_iff.mp hlast.1 q hq
      have hid : id ∈ qs.filter (· ∉ done) := hlast.2 ▸ List.mem_singleton_self id
      exact Nat.lt_asymm (hlt q hqd) (hall id (List.mem_of_mem_filter hid))
    · refine .waiting ?_ fun hall => ?_
      · rw [filter_not_mem_append]
        have hr : r.node ≠ id := fun heq => h₀.defaulted.not_isConvert hg (heq ▸ hp.isConvert)
        exact hres.proxyChain hg₁ hp₁ hr
          (fun hn hf => hlast ((h₁.fallsBack_iff hg₁ hp₁).mp ⟨hn, hf⟩)) hreads
      · by_cases hdone : ∀ q ∈ qs, q ∈ done
        · exact hlate hdone
        · exact h₀.late_of_last h₁ hall hdone hlast hlt hle

/-- **All proxies,** in the order of the nodes. -/
theorem ResolvesAll.fallback (h : g.ResolvesAll done removed g₁) (hg : g.WellFormed)
    (h₀ : g.ReadsUnfed r ps c qs) (hne : qs ≠ []) (hids : done <+: g.ids) :
    Fallback r ps c qs done g₁ := by
  induction h with
  | nil =>
    refine .waiting (by simpa using h₀.reads) fun hall => absurd ?_ hne
    exact List.eq_nil_iff_forall_not_mem.mpr (by simpa using hall)
  | @skip done removed id g₁ _ hid ih =>
    cases ih ((List.prefix_append _ _).trans hids) with
    | released hl hlate => exact .released hl hlate
    | waiting hreads hlate =>
      refine .waiting (by rwa [h₀.reads.filter_skip hid]) fun hall => hlate fun q hq => ?_
      have hne : q ≠ id := fun heq => hid (heq ▸ h₀.unfed.isProxy q hq)
      simpa [hne] using hall q hq
  | @step done removed more id g₁ g₂ h₁ hid h' ih =>
    have hbefore := ih ((List.prefix_append _ _).trans hids)
    obtain ⟨rest, hrest⟩ := hids
    have hsorted : (done ++ [id] ++ rest).Pairwise (· < ·) := hrest ▸ g.pairwise_ids
    rw [List.append_assoc, List.pairwise_append] at hsorted
    refine hbefore.step hg h₀ (h₁.unproxied hg) hid h' (fun x hx => hsorted.2.2 x hx id (by simp)) ?_
    intro x hx hdone
    have hmem := mem_ids_of_isProxy hx
    rw [← hrest, List.append_assoc, List.mem_append, or_iff_right hdone] at hmem
    rcases List.mem_append.mp hmem with hmem | hmem
    · exact Nat.le_of_eq (List.mem_singleton.mp hmem).symm
    · exact Nat.le_of_lt ((List.pairwise_append.mp hsorted.2.1).2.2 id (by simp) x hmem)

/-- When all proxies are gone, the input is linked to the conversion or unlinked. -/
theorem Deproxied.linkAt_of_readsUnfed (h : g.Deproxied removed g₁ g') (hg : g.WellFormed)
    (h₀ : g.ReadsUnfed r ps c qs) (hne : qs ≠ []) :
    (Late ps qs → g'.linkAt r = some ⟨c, 0⟩) ∧ (¬ Late ps qs → g'.linkAt r = none) := by
  have hkept : ¬ (r.node ≠ outputId ∧ r.node ∈ removed) := fun hrem =>
    h₀.defaulted.not_isConvert hg ((h.all.unproxied hg).converts hrem.2)
  cases h.all.fallback hg h₀ hne (List.prefix_refl _) with
  | released hl hlate =>
    refine ⟨fun hlate' => absurd hlate' hlate, fun _ => ?_⟩
    rw [h.linkAt_eq hg hkept (by simp [hl]), hl]
  | waiting hreads hlate =>
    rw [h₀.reads.filter_ids] at hreads
    refine ⟨fun _ => ?_, fun hnot => absurd (hlate fun q hq => ?_) hnot⟩
    · rw [h.linkAt_eq hg hkept, hreads.linkAt_eq]
      intro o ho
      cases hreads.linkAt_eq.symm.trans ho
      exact h₀.auto.not_isProxy
    · exact mem_ids_of_isProxy (h₀.unfed.isProxy q hq)

end Graph

namespace Edit

open Shading.Graph

variable {g : Graph}

/-- **Default sources behind unfed proxies.** Of the inputs with a default source that read an
automatic conversion which no output feeds, exactly those stay linked to it where a proxy between the
two comes after all proxies before the conversion. The others fall back to their default sources. -/
theorem run_removeProxies_unfed (hg : g.WellFormed) (hm : g.finalized = false) :
    ∃ g', removeProxies.run g = .ok () g' ∧ ∀ r c qs, g.Defaulted r → g.IsAutoConvert c →
      g.ProxyChain ⟨c, 0⟩ qs none → qs ≠ [] →
        (g'.linkAt r = some ⟨c, 0⟩ ↔ ∃ ps, g.ProxyChain r ps (some ⟨c, 0⟩) ∧ Late ps qs) ∧
        ∀ ps, g.ProxyChain r ps (some ⟨c, 0⟩) → ¬ Late ps qs → g'.linkAt r = none := by
  obtain ⟨_, g', hrun, g₁, removed, h⟩ := ends_iff.mp (ends_removeProxies_deproxied hg hm)
  refine ⟨g', hrun, fun r c qs hd hc hunfed hne => ?_⟩
  have hfall : ∀ ps, g.ProxyChain r ps (some ⟨c, 0⟩) →
      (Late ps qs → g'.linkAt r = some ⟨c, 0⟩) ∧ (¬ Late ps qs → g'.linkAt r = none) := fun ps hps =>
    h.linkAt_of_readsUnfed hg ⟨hd, hc, hps, hunfed⟩ hne
  refine ⟨⟨fun hl => ?_, fun ⟨ps, hps, hlate⟩ => (hfall ps hps).1 hlate⟩,
    fun ps hps => (hfall ps hps).2⟩
  have hu := h.all.unproxied hg
  have hl₁ := ((h.removes.linkAt_iff r _).mp hl).1
  have hr : ¬ g.IsProxy r.node := fun hp => hd.not_isConvert hg hp.isConvert
  obtain ⟨ps, e, hps, he⟩ := hu.exists_proxyChain hr
    (.source hl₁ ((hu.isProxy_iff c).not.mpr hc.not_isProxy))
  obtain rfl := he.resolve_left nofun
  refine ⟨ps, hps, ?_⟩
  by_contra hlate
  simp [(hfall ps hps).2 hlate] at hl

/-- A number without a source is used as the normal of a diffuse node, through a proxy on either side
of the conversion. -/
def numberAsNormal (first second : SocketType) (p q : NodeId) : Graph :=
  Primitive.runAll [.addKind (.proxy first), .addKind (.proxy second), .addKind .diffuse,
    .connect ⟨p, 0⟩ ⟨q, 0⟩, .connect ⟨q, 0⟩ ⟨3, 2⟩] Graph.empty

/-- The proxy behind the conversion comes first. -/
theorem run_removeProxies_unfed_early :
    let g := numberAsNormal .normal .float 2 1
    g.WellFormed ∧ g.finalized = false ∧ g.ReadsUnfed ⟨3, 2⟩ [1] 4 [2] ∧
      ∃ g', removeProxies.run g = .ok () g' ∧ g'.linkAt ⟨3, 2⟩ = none := by
  intro g
  have hg : g.WellFormed := (Primitive.follows_runAll wellFormed_empty _).wellFormed
  have hreads : g.ReadsUnfed ⟨3, 2⟩ [1] 4 [2] := by
    have hauto : g.IsAutoConvert 4 := ⟨_, rfl, rfl⟩
    exact ⟨⟨_, rfl, rfl⟩, hauto, .through (o := ⟨1, 0⟩) rfl ⟨_, rfl, rfl⟩ (.source rfl hauto.not_isProxy),
      .through (o := ⟨2, 0⟩) rfl ⟨_, rfl, rfl⟩ (.dry rfl)⟩
  obtain ⟨g', hrun, h⟩ := run_removeProxies_unfed hg rfl
  have hfall := (h ⟨3, 2⟩ 4 [2] hreads.defaulted hreads.auto hreads.unfed nofun).2
  exact ⟨hg, rfl, hreads, g', hrun, hfall [1] hreads.reads (by simp [Late])⟩

/-- If it comes last, the input stays linked to the conversion. -/
theorem run_removeProxies_unfed_late :
    (numberAsNormal .float .normal 1 2).WellFormed ∧
      (numberAsNormal .float .normal 1 2).finalized = false ∧
      (numberAsNormal .float .normal 1 2).ReadsUnfed ⟨3, 2⟩ [2] 4 [1] ∧
      ∃ g', removeProxies.run (numberAsNormal .float .normal 1 2) = .ok () g' ∧
        g'.linkAt ⟨3, 2⟩ = some ⟨4, 0⟩ := by
  have hauto : (numberAsNormal .float .normal 1 2).IsAutoConvert 4 := ⟨_, rfl, rfl⟩
  have hends : removeProxies.Ends (numberAsNormal .float .normal 1 2) fun _ g' =>
      g'.linkAt ⟨3, 2⟩ = some ⟨4, 0⟩ := by decide +kernel
  obtain ⟨_, g', hrun, hl⟩ := ends_iff.mp hends
  refine ⟨(Primitive.follows_runAll wellFormed_empty _).wellFormed, rfl,
    ⟨⟨_, rfl, rfl⟩, hauto, ?_, ?_⟩, g', hrun, hl⟩
  · exact .through (o := ⟨2, 0⟩) rfl ⟨_, rfl, rfl⟩ (.source rfl hauto.not_isProxy)
  · exact .through (o := ⟨1, 0⟩) rfl ⟨_, rfl, rfl⟩ (.dry rfl)

end Edit

end Shading
