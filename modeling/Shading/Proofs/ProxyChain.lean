import Mathlib.Data.Fintype.Card
import Shading.Proofs.Proxy
import Shading.Proofs.WholeNumber

/-!
# Where chains of proxies lead

A chain of proxies ends at an output or at a proxy that nothing is linked to, or it goes round in a
circle (`Graph.proxyChain_or_circles`). In the first case the input where the chain begins is linked
to the output when all proxies are gone. In the second case it takes the literal of the last proxy.
This literal moves towards the input one proxy at a time, in whatever order the proxies are taken
out, and is converted at every stop, which makes no difference in the end
(`Literal.convert_convert`).

An input that has a default source may fall back to it, but only if its chain leads to an automatic
conversion (`Graph.Steadfast`). -/

namespace Shading

open Relation

/-- A literal may stop over at a type that is linked to the last one without a conversion. -/
theorem Literal.convert_convert (l : Literal) {a b : SocketType} (h : a.linksTo b = true) :
    (l.convert a false).convert b false = l.convert b false := by
  have hcase : a = b ∨ a.isSpatial = true ∧ b.isSpatial = true := by
    simpa [SocketType.linksTo] using h
  rcases hcase with rfl | ⟨ha, hb⟩
  · cases a with
    | int => exact congrArg Literal.int (Binary32.toInt32_ofInt32_toInt32 _)
    | boolean =>
      cases hl : l.toScalar false != 0 <;> simp [convert, hl] <;> rfl
    | string => cases l <;> rfl
    | _ => rfl
  · cases a <;> cases ha <;> cases b <;> cases hb <;> rfl

namespace Graph

variable {g g' : Graph} {id p q : NodeId} {r : InputRef} {ps qs : List NodeId}
  {e : Option OutputRef}

theorem IsProxy.linkAt_eq (hg : g.WellFormed) {o : OutputRef} (h : g.IsProxy o.node)
    (hl : g.linkAt r = some o) : g.linkAt r = some ⟨o.node, 0⟩ :=
  hl.trans (congrArg some (h.isConvert.slot_eq hg hl rfl))

theorem IsProxy.exists_inputDecl? (hg : g.WellFormed) (h : g.IsProxy p) :
    ∃ c, g.inputDecl? ⟨p, 0⟩ = some c := by
  obtain ⟨source, target, automatic, hk⟩ := h.isConvert
  exact ⟨_, hg.inputDecl?_eq hk 0⟩

/-- A proxy passes on what has its own type. -/
theorem IsProxy.linksTo (hg : g.WellFormed) (h : g.IsProxy p) (hl : g.linkAt r = some ⟨p, 0⟩)
    {c d : InputDecl} (hc : g.inputDecl? ⟨p, 0⟩ = some c) (hd : g.inputDecl? r = some d) :
    c.type.linksTo d.type = true := by
  obtain ⟨k, hk, hrole⟩ := h
  obtain ⟨type, automatic, rfl⟩ := NodeKind.exists_eq_proxy hrole
  have hfit := (hg.typed _ _ _ _ hl hd (hg.outputDecl?_eq hk 0)).2
  rw [hg.inputDecl?_eq hk] at hc
  cases hc
  exact hfit

/-! ### Circles -/

/-- A proxy is linked to another one. -/
def PassesTo (g : Graph) (p q : NodeId) : Prop := g.linkAt ⟨p, 0⟩ = some ⟨q, 0⟩ ∧ g.IsProxy q

/-- The way from an input leads to a circle of proxies. -/
def Circles (g : Graph) (r : InputRef) : Prop :=
  ∃ p q, g.linkAt r = some ⟨p, 0⟩ ∧ g.IsProxy p ∧ ReflTransGen g.PassesTo p q ∧
    TransGen g.PassesTo q q

theorem ProxyChain.next (h : g.ProxyChain r ps e) (hl : g.linkAt r = some ⟨p, 0⟩)
    (hp : g.IsProxy p) : ∃ qs, ps = p :: qs ∧ g.ProxyChain ⟨p, 0⟩ qs e := by
  cases h with
  | dry hl' => simp [hl] at hl'
  | source hl' hp' =>
    cases hl.symm.trans hl'
    exact absurd hp hp'
  | through hl' _ h =>
    cases hl.symm.trans hl'
    exact ⟨_, rfl, h⟩

/-- Chains get shorter on the way. -/
theorem ProxyChain.of_transGen (h : g.ProxyChain ⟨p, 0⟩ ps e) (hpq : TransGen g.PassesTo p q) :
    ∃ qs, qs.length < ps.length ∧ g.ProxyChain ⟨q, 0⟩ qs e := by
  induction hpq with
  | single hpass =>
    obtain ⟨qs, rfl, h'⟩ := h.next hpass.1 hpass.2
    exact ⟨qs, by simp, h'⟩
  | tail _ hpass ih =>
    obtain ⟨qs, hlt, h'⟩ := ih
    obtain ⟨qs', rfl, h''⟩ := h'.next hpass.1 hpass.2
    exact ⟨qs', by simp at hlt; omega, h''⟩

theorem Circles.not_proxyChain (h : g.Circles r) (ps : List NodeId) (e : Option OutputRef) :
    ¬ g.ProxyChain r ps e := by
  obtain ⟨p, q, hl, hp, hpq, hqq⟩ := h
  intro hc
  obtain ⟨ps₁, -, h₁⟩ := hc.next hl hp
  obtain ⟨ps₂, -, h₂⟩ := h₁.of_transGen (.trans_right hpq hqq)
  obtain ⟨ps₃, hlt, h₃⟩ := h₂.of_transGen hqq
  obtain ⟨rfl, -⟩ := h₂.unique h₃
  exact Nat.lt_irrefl _ hlt

/-- If no circle can be reached from a proxy, then a chain begins there. The induction goes along
the links, among the finitely many proxies that can be reached. -/
theorem exists_proxyChain_of_acyclic (hg : g.WellFormed) (hp : g.IsProxy p)
    (hcirc : ∀ q, ReflTransGen g.PassesTo p q → ¬ TransGen g.PassesTo q q) :
    ∃ ps e, g.ProxyChain ⟨p, 0⟩ ps e := by
  let S := {q // ReflTransGen g.PassesTo p q}
  have hproxy : ∀ q : S, g.IsProxy q := by
    rintro ⟨q, hq⟩
    rcases ReflTransGen.cases_tail hq with rfl | ⟨_, _, hpass⟩
    · exact hp
    · exact hpass.2
  have hfinite : Finite S := by
    refine Finite.of_injective (fun q : S => (⟨q, ?_⟩ : Fin g.idBound)) fun q q' heq => ?_
    · obtain ⟨k, hk, -⟩ := hproxy q
      exact g.lt_idBound_of_kind? hk
    · exact Subtype.ext (congrArg Fin.val heq)
  let R : S → S → Prop := fun q q' => TransGen g.PassesTo q' q
  have : IsTrans S R := ⟨fun _ _ _ h h' => h'.trans h⟩
  have : Std.Irrefl R := ⟨fun q h => hcirc q q.2 h⟩
  have hwf : WellFounded R := Finite.wellFounded_of_trans_of_irrefl R
  have hall : ∀ q : S, ∃ ps e, g.ProxyChain ⟨q, 0⟩ ps e := by
    intro q
    induction q using hwf.induction with
    | _ q ih =>
      cases hl : g.linkAt ⟨q, 0⟩ with
      | none => exact ⟨_, _, .dry hl⟩
      | some o =>
        by_cases ho : g.IsProxy o.node
        · have hpass : g.PassesTo q o.node := ⟨ho.linkAt_eq hg hl, ho⟩
          obtain ⟨ps, e, h⟩ := ih ⟨o.node, q.2.tail hpass⟩ (.single hpass)
          exact ⟨_, _, .through hl ho h⟩
        · exact ⟨_, _, .source hl ho⟩
  exact hall ⟨p, .refl⟩

theorem proxyChain_or_circles (hg : g.WellFormed) (r : InputRef) :
    (∃ ps e, g.ProxyChain r ps e) ∨ g.Circles r := by
  refine or_iff_not_imp_right.mpr fun hcirc => ?_
  cases hl : g.linkAt r with
  | none => exact ⟨_, _, .dry hl⟩
  | some o =>
    by_cases ho : g.IsProxy o.node
    · obtain ⟨ps, e, h⟩ := exists_proxyChain_of_acyclic hg ho fun q hq hqq =>
        hcirc ⟨_, q, ho.linkAt_eq hg hl, ho, hq, hqq⟩
      exact ⟨_, _, .through hl ho h⟩
    · exact ⟨_, _, .source hl ho⟩

/-! ### The last proxy of a chain -/

namespace ProxyChain

theorem suffix (h : g.ProxyChain r (ps ++ p :: qs) e) : g.ProxyChain ⟨p, 0⟩ qs e := by
  induction ps generalizing r with
  | nil =>
    cases h with
    | through _ _ h => exact h
  | cons _ _ ih =>
    cases h with
    | through _ _ h => exact ih h

theorem linkAt_last (h : g.ProxyChain r (ps ++ [p]) e) : g.linkAt ⟨p, 0⟩ = e :=
  h.suffix.linkAt_eq

/-- A chain does not come back to its last proxy. -/
theorem last_not_mem (h : g.ProxyChain r (ps ++ [p]) e) : p ∉ ps := by
  intro hp
  obtain ⟨qs, qs', rfl⟩ := List.append_of_mem hp
  rw [List.append_assoc] at h
  have hround : g.ProxyChain ⟨p, 0⟩ (qs' ++ [p]) e := h.suffix
  simpa using (hround.unique hround.suffix).1

theorem filter_last (h : g.ProxyChain r (ps ++ [p]) e) : (ps ++ [p]).filter (· ≠ p) = ps := by
  have hps : ps.filter (· ≠ p) = ps := List.filter_eq_self.mpr fun q hq => by
    simpa using ne_of_mem_of_not_mem hq h.last_not_mem
  rw [List.filter_append, hps]
  simp

/-- The types of all proxies of a chain are linked to the type of the input without a conversion. -/
theorem linksTo (hg : g.WellFormed) (h : g.ProxyChain r (ps ++ p :: qs) e) {c d : InputDecl}
    (hc : g.inputDecl? ⟨p, 0⟩ = some c) (hd : g.inputDecl? r = some d) :
    c.type.linksTo d.type = true := by
  induction ps generalizing r d with
  | nil =>
    cases h with
    | through hl hp _ => exact hp.linksTo hg (hp.linkAt_eq hg hl) hc hd
  | cons x ps ih =>
    cases h with
    | through hl hp h =>
      obtain ⟨i, hi⟩ := hp.exists_inputDecl? hg
      exact SocketType.linksTo_trans (ih h hi) (hp.linksTo hg (hp.linkAt_eq hg hl) hi hd)

end ProxyChain

/-! ### Inputs that do not fall back -/

/-- An input that does not fall back to a default source. It has none, or its chain does not lead to
an automatic conversion. -/
def Steadfast (g : Graph) (r : InputRef) : Prop :=
  ¬ g.Defaulted r ∨ ∃ ps e, g.ProxyChain r ps e ∧ ∀ o, e = some o → ¬ g.IsAutoConvert o.node

variable {removed : List NodeId} {l : Literal}

theorem ProxyChain.steadfast (hc : g.ProxyChain r ps e)
    (he : ∀ o, e = some o → ¬ g.IsAutoConvert o.node) : g.Steadfast r := Or.inr ⟨ps, e, hc, he⟩

theorem ProxyChain.steadfast_of_unfed (hc : g.ProxyChain r ps none) : g.Steadfast r :=
  hc.steadfast fun _ ho => by cases ho

theorem Steadfast.not_fallsBack (hs : g.Steadfast r) (p : NodeId) : ¬ g.FallsBack p r := by
  rintro ⟨hd, c, ⟨hauto, -⟩, hl⟩
  rcases hs with hn | ⟨ps, e, hc, he⟩
  · exact hn hd
  · cases hc with
    | dry hl' => simp [hl] at hl'
    | source hl' _ =>
      cases hl.symm.trans hl'
      exact he _ rfl hauto
    | through hl' hp _ =>
      cases hl.symm.trans hl'
      exact hauto.not_isProxy hp

theorem Resolves.inputDecl?_eq (h : g.Resolves id removed g') (hg : g.WellFormed)
    (hp : g.IsProxy id) (r : InputRef) : g'.inputDecl? r = g.inputDecl? r := by
  have hev := (h.shortens hp).evolves
  exact hg.inputDecl?_of_kind?_eq hev.wellFormed (hev.kind?_same h.idBound_eq r.node)

/-- **One proxy.** Its end of a chain stays the same, so no automatic conversion comes in. -/
theorem Resolves.steadfast (h : g.Resolves id removed g') (hg : g.WellFormed) (hp : g.IsProxy id)
    (hr : r.node ≠ id) (hs : g.Steadfast r) : g'.Steadfast r := by
  have hkept := hs.not_fallsBack id
  rcases hs with hn | ⟨ps, e, hc, he⟩
  · refine Or.inl ?_
    rwa [Defaulted, h.inputDecl?_eq hg hp]
  · refine (h.proxyChain hg hp hr (fun _ => hkept) hc).steadfast fun o ho => ?_
    rw [IsAutoConvert, (h.shortens hp).evolves.kind?_same h.idBound_eq]
    exact he o ho

section

variable {done : List NodeId} (h : g.ResolvesAll done removed g') (hg : g.WellFormed)
  (hr : ¬ g.IsProxy r.node) (hs : g.Steadfast r)
include h hg hr hs

/-- **All proxies,** in the order of the run. -/
theorem ResolvesAll.steadfast : g'.Steadfast r := by
  induction h with
  | nil => exact hs
  | skip _ _ ih => exact ih
  | step h₁ hid h' ih =>
    have hu := h₁.unproxied hg
    exact h'.steadfast hu.shortens.evolves.wellFormed ((hu.isProxy_iff _).mpr hid)
      (fun heq => hr (heq ▸ hid)) ih

theorem ResolvesAll.proxyChain (hc : g.ProxyChain r ps e) :
    g'.ProxyChain r (ps.filter (· ∉ done)) e := by
  induction h with
  | nil => simpa using hc
  | skip _ hid ih => rwa [hc.filter_skip hid]
  | step h₁ hid h' ih =>
    have hu := h₁.unproxied hg
    rw [filter_not_mem_append]
    exact h'.proxyChain hu.shortens.evolves.wellFormed ((hu.isProxy_iff _).mpr hid)
      (fun heq => hr (heq ▸ hid)) (fun _ => (h₁.steadfast hg hr hs).not_fallsBack _) ih

end

/-! ### Literals on their way -/

/-- The literal that an input has in the end. It is that of the unfed proxy to which its chain leads,
or else its own. -/
inductive GetsLiteral (g : Graph) (r : InputRef) : Literal → Prop
  | passed {ps : List NodeId} {p : NodeId} {d : InputDecl} {v : Literal}
    (hc : g.ProxyChain r (ps ++ [p]) none) (hd : g.inputDecl? r = some d)
    (hv : g.literalAt ⟨p, 0⟩ = some v) : GetsLiteral g r (v.convert d.type false)
  | own {l : Literal} (hc : ∀ ps p, ¬ g.ProxyChain r (ps ++ [p]) none)
    (hl : g.literalAt r = some l) : GetsLiteral g r l

/-- The literal of an unfed proxy moves on to the proxy before, or to the input itself. -/
theorem Resolves.getsLiteral_last (h : g.Resolves p removed g') (hg : g.WellFormed)
    (hp : g.IsProxy p) (hr : r.node ≠ p) (hc : g.ProxyChain r (ps ++ [p]) none) {d : InputDecl}
    (hdecl : g.inputDecl? r = some d) {v : Literal} (hv : g.literalAt ⟨p, 0⟩ = some v) :
    g'.GetsLiteral r (v.convert d.type false) := by
  have hc' : g'.ProxyChain r ps none :=
    hc.filter_last ▸ h.proxyChain hg hp hr (fun _ => hc.steadfast_of_unfed.not_fallsBack p) hc
  have hdecl' := (h.inputDecl?_eq hg hp r).trans hdecl
  cases h with
  | bypassed _ hs _ _ _ => simp [hc.linkAt_last] at hs
  | emptied v' _ hv' _ hstored _ _ =>
    cases hv.symm.trans hv'
    rcases ps.eq_nil_or_concat' with rfl | ⟨qs, q, rfl⟩
    · cases hc with
      | through hl hp' _ =>
        refine .own (fun qs q hq => ?_) (hstored r d (hp'.linkAt_eq hg hl) hdecl)
        simpa using (hq.unique hc').1
    · obtain ⟨c, hcq⟩ := (hc.isProxy q (by simp)).exists_inputDecl? hg
      rw [List.append_assoc] at hc
      have hlq : g.linkAt ⟨q, 0⟩ = some ⟨p, 0⟩ := by
        cases hc.suffix with
        | through hl hp' _ => exact hp'.linkAt_eq hg hl
      rw [← v.convert_convert (hc.linksTo hg hcq hdecl)]
      exact .passed hc' hdecl' (hstored _ c hlq hcq)

/-- **One proxy.** Taking it out does not change the literal that an input has in the end. -/
theorem Resolves.getsLiteral (h : g.Resolves id removed g') (hg : g.WellFormed) (hp : g.IsProxy id)
    (hr : r.node ≠ id) (hs : g.Steadfast r) (hl : g.GetsLiteral r l) : g'.GetsLiteral r l := by
  have hchain : ∀ {ps e}, g.ProxyChain r ps e → g'.ProxyChain r (ps.filter (· ≠ id)) e :=
    h.proxyChain hg hp hr fun _ => hs.not_fallsBack id
  cases hl with
  | own hc hl =>
    refine .own (fun ps p hc' => ?_) ?_
    · obtain ⟨qs, e, hq, -⟩ := h.exists_proxyChain hg hp hr hc'
      obtain ⟨hps, rfl⟩ := hc'.unique (hchain hq)
      rcases qs.eq_nil_or_concat' with rfl | ⟨qs, q, rfl⟩
      · simp at hps
      · exact hc qs q hq
    · rw [← hl]
      cases h with
      | bypassed _ _ _ hkept _ => exact hkept r
      | emptied _ hn _ _ _ hkept _ => exact hkept r fun hid => hc [] id (.through hid hp (.dry hn))
  | @passed ps p d v hc hdecl hv =>
    by_cases hid : p = id
    · subst hid
      exact h.getsLiteral_last hg hp hr hc hdecl hv
    · have hfilter : (ps ++ [p]).filter (· ≠ id) = ps.filter (· ≠ id) ++ [p] := by simp [hid]
      refine .passed (hfilter ▸ hchain hc) ((h.inputDecl?_eq hg hp r).trans hdecl) ?_
      rw [← hv]
      cases h with
      | bypassed _ _ _ hkept _ => exact hkept _
      | emptied _ _ _ _ _ hkept _ => exact hkept _ (by simp [hc.linkAt_last])

/-- **All proxies,** in the order of the run. -/
theorem ResolvesAll.getsLiteral {done : List NodeId} (h : g.ResolvesAll done removed g')
    (hg : g.WellFormed) (hr : ¬ g.IsProxy r.node) (hs : g.Steadfast r) (hl : g.GetsLiteral r l) :
    g'.GetsLiteral r l := by
  induction h with
  | nil => exact hl
  | skip _ _ ih => exact ih
  | step h₁ hid h' ih =>
    have hu := h₁.unproxied hg
    exact h'.getsLiteral hu.shortens.evolves.wellFormed ((hu.isProxy_iff _).mpr hid)
      (fun heq => hr (heq ▸ hid)) (h₁.steadfast hg hr hs) ih

/-- What becomes of an input without a default source. One of the four cases is at hand. -/
structure Resolved (r : InputRef) (d : InputDecl) (g g' : Graph) : Prop where
  unlinked : g.linkAt r = none → g'.linkAt r = none ∧ g'.literalAt r = g.literalAt r
  fed : ∀ ps o, g.ProxyChain r ps (some o) → g'.linkAt r = some o
  unfed : ∀ ps p v, g.ProxyChain r (ps ++ [p]) none → g.literalAt ⟨p, 0⟩ = some v →
    g'.linkAt r = none ∧ g'.literalAt r = some (v.convert d.type false)
  circling : g.Circles r → g'.linkAt r = none ∧ g'.literalAt r = g.literalAt r
  total : g.linkAt r = none ∨ (∃ ps o, g.ProxyChain r ps (some o)) ∨
    (∃ ps p v, g.ProxyChain r (ps ++ [p]) none ∧ g.literalAt ⟨p, 0⟩ = some v) ∨ g.Circles r

theorem exists_literalAt {d : InputDecl} (hd : g.inputDecl? r = some d) :
    ∃ l, g.literalAt r = some l := by
  obtain ⟨i, hi, -⟩ := Option.map_eq_some_iff.mp hd
  exact ⟨i.literal, by rw [literalAt, hi, Option.map_some]⟩

theorem Deproxied.survives {g₁ : Graph} (h : g.Deproxied removed g₁ g') {x : NodeId}
    (hx : g'.kind? x ≠ none) : ¬ (x ≠ outputId ∧ x ∈ removed) := by
  intro hrem
  rw [h.removes.kind?_eq, if_pos hrem] at hx
  exact hx rfl

section

variable {g₁ : Graph} {d : InputDecl} (h : g.Deproxied removed g₁ g') (hg : g.WellFormed)
  (hr : g'.kind? r.node ≠ none)
include h hg hr

theorem Deproxied.not_isProxy_of_kind? : ¬ g.IsProxy r.node :=
  fun hp => h.survives hr (h.mem_removed hg hp)

/-- When all proxies are gone, an input that is left is linked to the end of its chain. -/
theorem Deproxied.linkAt_of_steadfast (hs : g.Steadfast r) (hc : g.ProxyChain r ps e) :
    g'.linkAt r = e := by
  have hc' := h.all.proxyChain hg (h.not_isProxy_of_kind? hg hr) hs hc
  rw [hc.filter_ids] at hc'
  exact h.linkAt_of_proxyChain_nil hg (h.survives hr) hc'

/-- It has the literal that was due to it. -/
theorem Deproxied.literalAt_eq (hd : g.inputDecl? r = some d) (hs : g.Steadfast r)
    (hl : g.GetsLiteral r l) : g'.literalAt r = some l := by
  have hp := h.not_isProxy_of_kind? hg hr
  have hk : g'.kind? r.node = g.kind? r.node := by
    rw [h.removes.kind?_eq, if_neg (h.survives hr), (h.all.unproxied hg).kind?_eq]
  obtain ⟨l', hl'⟩ := exists_literalAt ((hg.inputDecl?_of_kind?_eq h.removes.wellFormed hk).trans hd)
  rw [(h.keepsLiterals r).resolve_left (by simp [hl'])]
  cases h.all.getsLiteral hg hp hs hl with
  | own _ hl => exact hl
  | passed hc _ _ =>
    -- no chain in the last graph has proxies left
    obtain ⟨qs, e, hq, -⟩ := (h.all.unproxied hg).exists_proxyChain hp hc
    have hq' := h.all.proxyChain hg hp hs hq
    rw [hq.filter_ids] at hq'
    simpa using (hc.unique hq').1

/-- An input whose chain leads to an unfed proxy takes its literal, whether or not it has a default
source. -/
theorem Deproxied.unfed (hd : g.inputDecl? r = some d) (hc : g.ProxyChain r (ps ++ [p]) none)
    {v : Literal} (hv : g.literalAt ⟨p, 0⟩ = some v) :
    g'.linkAt r = none ∧ g'.literalAt r = some (v.convert d.type false) := by
  have hs := hc.steadfast_of_unfed
  exact ⟨h.linkAt_of_steadfast hg hr hs hc, h.literalAt_eq hg hr hd hs (.passed hc hd hv)⟩

theorem Deproxied.resolved (hd : g.inputDecl? r = some d) (hs : d.source = none) :
    g.Resolved r d g' := by
  have hdef : g.Steadfast r := Or.inl (by simp [Defaulted, hd, hs])
  have hlink : ∀ {ps e}, g.ProxyChain r ps e → g'.linkAt r = e := h.linkAt_of_steadfast hg hr hdef
  have hown : (∀ ps p, ¬ g.ProxyChain r (ps ++ [p]) none) → g'.literalAt r = g.literalAt r := by
    intro hc
    obtain ⟨l, hl⟩ := exists_literalAt hd
    rw [hl, h.literalAt_eq hg hr hd hdef (.own hc hl)]
  refine ⟨fun hl => ⟨hlink (.dry hl), hown fun ps p hc => ?_⟩, fun ps o hc => hlink hc,
    fun ps p v hc hv => h.unfed hg hr hd hc hv, fun hc => ⟨?_, hown ?_⟩, ?_⟩
  · simpa using (hc.unique (.dry hl)).1
  · exact h.linkAt_of_forall_not_proxyChain hg (h.not_isProxy_of_kind? hg hr) hc.not_proxyChain
  · exact fun ps p => hc.not_proxyChain _ _
  · rcases proxyChain_or_circles hg r with ⟨ps, _ | o, hc⟩ | hc
    · rcases ps.eq_nil_or_concat' with rfl | ⟨ps, p, rfl⟩
      · exact Or.inl hc.linkAt_eq
      · obtain ⟨c, hcp⟩ := (hc.isProxy p (by simp)).exists_inputDecl? hg
        obtain ⟨v, hv⟩ := exists_literalAt hcp
        exact Or.inr (Or.inr (Or.inl ⟨ps, p, v, hc, hv⟩))
    · exact Or.inr (Or.inl ⟨ps, o, hc⟩)
    · exact Or.inr (Or.inr (Or.inr hc))

end

/-! ### Chains to other nodes than conversions -/

variable {g₁ : Graph} {o : OutputRef}

namespace Deproxied

variable (h : g.Deproxied removed g₁ g') (hg : g.WellFormed)
include h hg

theorem survives_of_not_isConvert {x : NodeId} (hx : ¬ g.IsConvert x) :
    ¬ (x ≠ outputId ∧ x ∈ removed) := fun hrem => hx ((h.all.unproxied hg).converts hrem.2)

theorem kind?_eq_of_not_isConvert {x : NodeId} (hx : ¬ g.IsConvert x) :
    g'.kind? x = g.kind? x := by
  rw [h.removes.kind?_eq, if_neg (h.survives_of_not_isConvert hg hx),
    (h.all.unproxied hg).kind?_eq]

theorem linkAt_of_not_isConvert (hr : g'.kind? r.node ≠ none) (ho : ¬ g.IsConvert o.node)
    (hc : g.ProxyChain r ps (some o)) : g'.linkAt r = some o := by
  refine h.linkAt_of_steadfast hg hr (hc.steadfast fun o' ho' hauto => ?_) hc
  cases ho'
  exact ho hauto.isConvert

theorem linkAt_none (hl : g.linkAt r = none) : g'.linkAt r = none := by
  by_contra hne
  obtain ⟨o, ho⟩ := Option.ne_none_iff_exists'.mp hne
  exact (h.all.unproxied hg).shortens.linked ((h.removes.linkAt_iff r o).mp ho).1 hl

theorem acyclic (hac : g.Acyclic) : g'.Acyclic :=
  ((h.all.unproxied hg).shortens.acyclic hac).of_links fun r o ho =>
    ((h.removes.linkAt_iff r o).mp ho).1

end Deproxied

theorem not_isConvert_of_kind? {x : NodeId} {k : NodeKind} (hk : g.kind? x = some k)
    (hc : ∀ source target automatic, k ≠ .convert source target automatic) : ¬ g.IsConvert x := by
  rintro ⟨source, target, automatic, hk'⟩
  exact hc source target automatic (Option.some.inj (hk.symm.trans hk'))

end Graph

namespace Edit

open Shading.Graph

variable {g : Graph}

/-- **Removing proxies resolves chains.** The removal succeeds and leaves no proxies behind. Besides
proxies, only automatic conversions are removed. An input that is left and has no default source is
resolved: it is linked to the output to which its chain led, or it holds the literal to which it led;
if it was not linked or led to a circle, it is not linked and holds its own. -/
theorem run_removeProxies (hg : g.WellFormed) (hm : g.finalized = false) :
    ∃ g', removeProxies.run g = .ok () g' ∧ (∀ x, ¬ g'.IsProxy x) ∧
      (∀ x, g'.kind? x = g.kind? x ∨ g'.kind? x = none ∧ (g.IsProxy x ∨ g.IsAutoConvert x)) ∧
      ∀ r d, g.inputDecl? r = some d → g'.kind? r.node ≠ none → d.source = none →
        g.Resolved r d g' := by
  obtain ⟨_, g', hrun, g₁, removed, h⟩ := ends_iff.mp (ends_removeProxies_deproxied hg hm)
  refine ⟨g', hrun, h.not_isProxy hg, fun x => ?_, fun r d hd hr hs => h.resolved hg hr hd hs⟩
  rw [h.removes.kind?_eq, (h.all.unproxied hg).kind?_eq]
  split_ifs with hx
  · exact Or.inr ⟨rfl, (h.all.unproxied hg).roles x hx.2⟩
  · exact Or.inl rfl

/-- From the first node of vectors, one chain of two proxies leads to a position and another to a
literal. From the second, the way leads to a circle. -/
def tangle : Graph :=
  Primitive.runAll [.addKind .geometry, .addKind (.proxy .vector), .addKind (.proxy .point),
    .addKind (.proxy .normal), .addKind (.proxy .point), .addKind (.proxy .vector),
    .addKind (.proxy .vector), .addKind (.vectorMath .add), .addKind (.vectorMath .add),
    .connect ⟨1, 0⟩ ⟨3, 0⟩, .connect ⟨3, 0⟩ ⟨2, 0⟩, .connect ⟨2, 0⟩ ⟨8, 0⟩,
    .store ⟨4, 0⟩ (.float3 (Vec3.splat 2)), .connect ⟨4, 0⟩ ⟨5, 0⟩, .connect ⟨5, 0⟩ ⟨8, 1⟩,
    .connect ⟨6, 0⟩ ⟨7, 0⟩, .connect ⟨7, 0⟩ ⟨6, 0⟩, .connect ⟨6, 0⟩ ⟨9, 0⟩] Graph.empty

theorem run_removeProxies_tangle :
    tangle.WellFormed ∧ tangle.finalized = false ∧ ∃ g', removeProxies.run tangle = .ok () g' ∧
      g'.linkAt ⟨8, 0⟩ = some ⟨1, 0⟩ ∧
      (g'.linkAt ⟨8, 1⟩ = none ∧ g'.literalAt ⟨8, 1⟩ = some (.float3 (Vec3.splat 2))) ∧
      (g'.linkAt ⟨9, 0⟩ = none ∧ g'.literalAt ⟨9, 0⟩ = some (.float3 (Vec3.splat 0))) := by
  have hg : tangle.WellFormed := (Primitive.follows_runAll wellFormed_empty _).wellFormed
  have hm : tangle.finalized = false := by decide +kernel
  obtain ⟨g', hrun, -, hkind, h⟩ := run_removeProxies hg hm
  have hroles : ∀ x ∈ [2, 3, 4, 5, 6, 7], (tangle.kind? x).map NodeKind.role = some .proxy := by
    decide +kernel
  have hproxy : ∀ x ∈ [2, 3, 4, 5, 6, 7], tangle.IsProxy x := fun x hx =>
    Option.map_eq_some_iff.mp (hroles x hx)
  have hsum : ∀ x ∈ [8, 9], tangle.kind? x = some (.vectorMath .add) := by decide +kernel
  have hkept : ∀ x ∈ [8, 9], g'.kind? x ≠ none := by
    intro x hx
    rcases hkind x with heq | ⟨-, ⟨k, hk, hrole⟩ | ⟨k, hk, hrole⟩⟩
    · simp [heq, hsum x hx]
    all_goals
      cases (hsum x hx).symm.trans hk
      cases hrole
  have hposition : tangle.kind? 1 = some .geometry := by decide +kernel
  refine ⟨hg, hm, g', hrun, ?_, ?_, ?_⟩
  · refine (h ⟨8, 0⟩ _ (hg.inputDecl?_eq (hsum 8 (by simp)) 0) (hkept 8 (by simp)) rfl).fed [2, 3]
      ⟨1, 0⟩ ?_
    refine .through (o := ⟨2, 0⟩) (by decide +kernel) (hproxy 2 (by simp)) ?_
    refine .through (o := ⟨3, 0⟩) (by decide +kernel) (hproxy 3 (by simp)) ?_
    refine .source (by decide +kernel) ?_
    rintro ⟨k, hk, hrole⟩
    cases hposition.symm.trans hk
    cases hrole
  · refine (h ⟨8, 1⟩ _ (hg.inputDecl?_eq (hsum 8 (by simp)) 1) (hkept 8 (by simp)) rfl).unfed [5] 4
      (.float3 (Vec3.splat 2)) ?_ (by cbv)
    refine .through (o := ⟨5, 0⟩) (by decide +kernel) (hproxy 5 (by simp)) ?_
    exact .through (o := ⟨4, 0⟩) (by decide +kernel) (hproxy 4 (by simp)) (.dry (by decide +kernel))
  · have hround : Relation.TransGen tangle.PassesTo 6 6 := .tail
      (.single ⟨by decide +kernel, hproxy 7 (by simp)⟩) ⟨by decide +kernel, hproxy 6 (by simp)⟩
    have hself := (h ⟨9, 0⟩ _ (hg.inputDecl?_eq (hsum 9 (by simp)) 0) (hkept 9 (by simp))
      rfl).circling ⟨6, 6, by decide +kernel, hproxy 6 (by simp), .refl, hround⟩
    rwa [show tangle.literalAt ⟨9, 0⟩ = some (.float3 (Vec3.splat 0)) by cbv] at hself

end Edit

end Shading
