import Shading.Lowering.Proxy
import Shading.Proofs.Retention

/-!
# Removing proxies

From an input a chain of proxies may lead to an output of a node that is no proxy, or to a proxy that
nothing is linked to (`Graph.ProxyChain`); if it does neither, it goes round in a circle. Taking one
proxy out of the flow of data shortens the chains through it and changes the end of none, as far as
inputs without a default source are concerned (`Resolves.proxyChain`). When all proxies are gone, such
an input is linked if and only if it was *fed*: if its chain had led to an output. -/

namespace Shading

open Relation

theorem NodeKind.exists_eq_convert {k : NodeKind} (h : k.role = .proxy ∨ k.role = .autoConvert) :
    ∃ source target automatic, k = .convert source target automatic := by
  cases k with
  | convert source target automatic => exact ⟨source, target, automatic, rfl⟩
  | _ => simp [role] at h

theorem NodeKind.exists_eq_proxy {k : NodeKind} (h : k.role = .proxy) :
    ∃ type automatic, k = .convert type type automatic := by
  obtain ⟨source, target, automatic, rfl⟩ := NodeKind.exists_eq_convert (Or.inl h)
  have hsame : source = target := by
    by_contra hne
    simp [role, hne] at h
    split at h <;> cases h
  exact ⟨target, automatic, hsame ▸ rfl⟩

namespace Graph

def IsConvert (g : Graph) (x : NodeId) : Prop :=
  ∃ source target automatic, g.kind? x = some (.convert source target automatic)

def IsProxy (g : Graph) (x : NodeId) : Prop := ∃ k, g.kind? x = some k ∧ k.role = .proxy

def IsAutoConvert (g : Graph) (x : NodeId) : Prop :=
  ∃ k, g.kind? x = some k ∧ k.role = .autoConvert

/-- The inputs that have to do with a conversion. -/
def AtConvert (g : Graph) (r : InputRef) : Prop :=
  g.IsConvert r.node ∨ ∃ o, g.linkAt r = some o ∧ g.IsConvert o.node

/-- An input with a default source. -/
def Defaulted (g : Graph) (r : InputRef) : Prop :=
  ∃ d, g.inputDecl? r = some d ∧ d.source.isSome = true

/-- An input that is linked to a node other than a proxy, directly or through proxies. -/
inductive Fed (g : Graph) : InputRef → Prop
  | direct {r : InputRef} {o : OutputRef} (hl : g.linkAt r = some o) (hp : ¬ g.IsProxy o.node) : Fed g r
  | through {r : InputRef} {o : OutputRef} (hl : g.linkAt r = some o) (hp : g.IsProxy o.node)
    (hf : Fed g ⟨o.node, 0⟩) : Fed g r

variable {g g' : Graph} {id : NodeId}

theorem IsProxy.isConvert (h : g.IsProxy id) : g.IsConvert id := by
  obtain ⟨k, hk, hrole⟩ := h
  obtain ⟨source, target, automatic, rfl⟩ := NodeKind.exists_eq_convert (Or.inl hrole)
  exact ⟨source, target, automatic, hk⟩

theorem IsAutoConvert.isConvert (h : g.IsAutoConvert id) : g.IsConvert id := by
  obtain ⟨k, hk, hrole⟩ := h
  obtain ⟨source, target, automatic, rfl⟩ := NodeKind.exists_eq_convert (Or.inr hrole)
  exact ⟨source, target, automatic, hk⟩

theorem IsAutoConvert.not_isProxy (h : g.IsAutoConvert id) : ¬ g.IsProxy id := by
  obtain ⟨k, hk, hrole⟩ := h
  rintro ⟨k', hk', hrole'⟩
  cases hk.symm.trans hk'
  rw [hrole] at hrole'
  cases hrole'

theorem IsConvert.not_defaulted (h : g.IsConvert id) (hg : g.WellFormed) (slot : Nat) :
    ¬ g.Defaulted ⟨id, slot⟩ := by
  obtain ⟨source, target, automatic, hk⟩ := h
  rintro ⟨d, hd, hs⟩
  rw [hg.inputDecl?_eq hk] at hd
  have hmem := List.mem_singleton.mp (List.mem_of_getElem? hd)
  rw [hmem] at hs
  cases hs

/-- A conversion has one output. -/
theorem IsConvert.slot_eq (h : g.IsConvert id) (hg : g.WellFormed) {r : InputRef} {o : OutputRef}
    (hl : g.linkAt r = some o) (ho : o.node = id) : o = ⟨id, 0⟩ := by
  obtain ⟨source, target, automatic, hk⟩ := h
  exact hg.eq_of_single_output hk rfl hl ho

theorem Fed.linked {r : InputRef} (h : g.Fed r) : g.linkAt r ≠ none := by
  cases h with
  | direct hl _ => simp [hl]
  | through hl _ _ => simp [hl]

/-! ### Chains -/

/-- The proxies on the way from an input to the output that feeds it, or to no output if the last
input on the way is not linked. -/
inductive ProxyChain (g : Graph) : InputRef → List NodeId → Option OutputRef → Prop
  | dry {r : InputRef} (hl : g.linkAt r = none) : ProxyChain g r [] none
  | source {r : InputRef} {o : OutputRef} (hl : g.linkAt r = some o) (hp : ¬ g.IsProxy o.node) :
    ProxyChain g r [] (some o)
  | through {r : InputRef} {o : OutputRef} {ps : List NodeId} {e : Option OutputRef}
    (hl : g.linkAt r = some o) (hp : g.IsProxy o.node) (h : ProxyChain g ⟨o.node, 0⟩ ps e) :
    ProxyChain g r (o.node :: ps) e

namespace ProxyChain

variable {r : InputRef} {ps qs : List NodeId} {e e' : Option OutputRef}

theorem unique (h : g.ProxyChain r ps e) (h' : g.ProxyChain r qs e') : ps = qs ∧ e = e' := by
  induction h generalizing qs e' with
  | dry hl =>
    cases h' with
    | dry _ => exact ⟨rfl, rfl⟩
    | source hl' _ => simp [hl] at hl'
    | through hl' _ _ => simp [hl] at hl'
  | source hl hp =>
    cases h' with
    | dry hl' => simp [hl] at hl'
    | source hl' _ => exact ⟨rfl, hl.symm.trans hl'⟩
    | through hl' hp' _ =>
      cases hl.symm.trans hl'
      exact absurd hp' hp
  | through hl hp _ ih =>
    cases h' with
    | dry hl' => simp [hl] at hl'
    | source hl' hp' =>
      cases hl.symm.trans hl'
      exact absurd hp hp'
    | through hl' _ h' =>
      cases hl.symm.trans hl'
      obtain ⟨rfl, rfl⟩ := ih h'
      exact ⟨rfl, rfl⟩

theorem isProxy (h : g.ProxyChain r ps e) : ∀ p ∈ ps, g.IsProxy p := by
  induction h with
  | dry _ | source _ _ => simp
  | through _ hp _ ih => exact List.forall_mem_cons.mpr ⟨hp, ih⟩

/-- A node that is no proxy is on no chain. -/
theorem filter_skip (h : g.ProxyChain r ps e) (hid : ¬ g.IsProxy id) {done : List NodeId} :
    ps.filter (· ∉ done ++ [id]) = ps.filter (· ∉ done) := by
  refine List.filter_congr fun p hp => ?_
  have hne : p ≠ id := fun heq => hid (heq ▸ h.isProxy p hp)
  simp [hne]

theorem linkAt_eq (h : g.ProxyChain r [] e) : g.linkAt r = e := by
  cases h with
  | dry hl => exact hl
  | source hl _ => exact hl

end ProxyChain

theorem fed_iff_proxyChain {r : InputRef} : g.Fed r ↔ ∃ ps o, g.ProxyChain r ps (some o) := by
  constructor
  · intro h
    induction h with
    | direct hl hp => exact ⟨_, _, .source hl hp⟩
    | through hl hp _ ih =>
      obtain ⟨ps, o, h⟩ := ih
      exact ⟨_, o, .through hl hp h⟩
  · rintro ⟨ps, o, h⟩
    generalize he : some o = e at h
    induction h with
    | dry _ => cases he
    | source hl hp => exact .direct hl hp
    | through hl hp _ ih => exact .through hl hp (ih he)

namespace Trims

variable {T : InputRef → Prop}

theorem defaulted_iff (h : g.Trims T g') {r : InputRef} : g'.Defaulted r ↔ g.Defaulted r := by
  rw [Defaulted, Defaulted, h.inputDecl?_eq]

end Trims

/-! ### One proxy -/

/-- An automatic conversion that a proxy feeds. -/
def Converts (g : Graph) (p c : NodeId) : Prop :=
  g.IsAutoConvert c ∧ g.linkAt ⟨c, 0⟩ = some ⟨p, 0⟩

/-- An input with a default source that reads a proxy through an automatic conversion. It falls back
to its source if nothing feeds the proxy. -/
def FallsBack (g : Graph) (p : NodeId) (r : InputRef) : Prop :=
  g.Defaulted r ∧ ∃ c, g.Converts p c ∧ g.linkAt r = some ⟨c, 0⟩

/-- An automatic conversion that a proxy feeds, and that only inputs with a default source read. -/
def Idles (g : Graph) (p c : NodeId) : Prop :=
  g.Converts p c ∧ ∀ r, g.linkAt r = some ⟨c, 0⟩ → g.Defaulted r

/-- A proxy is taken out of the flow of data, and some nodes are marked for removal. If the proxy is
fed, its consumers are moved to what feeds it. If not, they are unlinked and take its literal. -/
inductive Resolves (id : NodeId) (removed : List NodeId) (g g' : Graph) : Prop
  | bypassed (s : OutputRef) (hs : g.linkAt ⟨id, 0⟩ = some s) (h : g.Bypasses id ⟨id, 0⟩ s g')
    (hkept : ∀ r, g'.literalAt r = g.literalAt r) (hrem : removed = [id])
  | emptied (l : Literal) (hn : g.linkAt ⟨id, 0⟩ = none) (hl : g.literalAt ⟨id, 0⟩ = some l)
    (h : g.Trims (fun r => g.linkAt r = some ⟨id, 0⟩ ∨ g.FallsBack id r) g')
    (hstored : ∀ r d, g.linkAt r = some ⟨id, 0⟩ → g.inputDecl? r = some d →
      g'.literalAt r = some (l.convert d.type false))
    (hkept : ∀ r, g.linkAt r ≠ some ⟨id, 0⟩ → g'.literalAt r = g.literalAt r)
    (hrem : ∀ c, c ∈ removed ↔ c = id ∨ g.Idles id c)

/-- What a bypassed proxy was fed by takes its place in every chain. The induction is on the chain;
an input of one graph stands for an input of the other whose link is the same up to the bypass. -/
theorem Bypasses.proxyChain {s : OutputRef} (h : g.Bypasses id ⟨id, 0⟩ s g') (hg : g.WellFormed)
    (hp : g.IsProxy id) (hs : g.linkAt ⟨id, 0⟩ = some s) (hproxy : ∀ x, g'.IsProxy x ↔ g.IsProxy x)
    {r r' : InputRef} {ps : List NodeId} {e : Option OutputRef} (ht : g.ProxyChain r ps e)
    (hr : g'.linkAt r' = if g.linkAt r = some ⟨id, 0⟩ then some s else g.linkAt r) :
    g'.ProxyChain r' (ps.filter (· ≠ id)) e := by
  induction ht generalizing r' with
  | dry hl =>
    rw [hl, if_neg nofun] at hr
    exact .dry hr
  | source hl hn =>
    rw [hl, if_neg fun hid => hn (by rw [Option.some.inj hid]; exact hp)] at hr
    exact .source hr (mt (hproxy _).mp hn)
  | @through r o ps e hl hn _ ih =>
    rw [hl] at hr
    by_cases hid : o.node = id
    · obtain rfl := hp.isConvert.slot_eq hg hl hid
      rw [List.filter_cons_of_neg (by simp)]
      refine ih (hr.trans ?_)
      rw [if_pos rfl, hs, ite_eq_left_iff.mpr fun _ => rfl]
    · rw [if_neg (by simpa using fun ho => hid (congrArg OutputRef.node ho))] at hr
      rw [List.filter_cons_of_pos (by simpa using hid)]
      refine .through hr ((hproxy _).mpr hn) (ih ?_)
      rw [h.linkAt_eq, if_neg hid]

theorem Bypasses.exists_proxyChain {s : OutputRef} (h : g.Bypasses id ⟨id, 0⟩ s g') (hg : g.WellFormed)
    (hp : g.IsProxy id) (hs : g.linkAt ⟨id, 0⟩ = some s) (hproxy : ∀ x, g'.IsProxy x ↔ g.IsProxy x)
    {r r' : InputRef} {ps : List NodeId} {e : Option OutputRef} (ht : g'.ProxyChain r ps e)
    (hr : g'.linkAt r = if g.linkAt r' = some ⟨id, 0⟩ then some s else g.linkAt r') :
    ∃ qs, g.ProxyChain r' qs e := by
  have hslot : ∀ {r o}, g.linkAt r = some o → o.node = id → o = ⟨id, 0⟩ :=
    fun hl ho => hp.isConvert.slot_eq hg hl ho
  have hlink : ∀ x, x ≠ id ∨ s = ⟨id, 0⟩ → g'.linkAt ⟨x, 0⟩ =
      if g.linkAt ⟨x, 0⟩ = some ⟨id, 0⟩ then some s else g.linkAt ⟨x, 0⟩ := by
    intro x hx
    rw [h.linkAt_eq]
    split_ifs with hid hself
    · rfl
    · subst hself
      obtain rfl := hx.resolve_left fun hne => hne rfl
      exact absurd hs hid
    · rfl
  induction ht generalizing r' with
  | dry hl =>
    rw [hl] at hr
    split_ifs at hr
    exact ⟨_, .dry hr.symm⟩
  | source hl hn =>
    rw [hl] at hr
    rw [hproxy] at hn
    split_ifs at hr with hid
    · cases hr
      exact ⟨_, .through hid hp (.source hs hn)⟩
    · exact ⟨_, .source hr.symm hn⟩
  | through hl hn _ ih =>
    rw [hl] at hr
    rw [hproxy] at hn
    split_ifs at hr with hid
    · cases hr
      obtain ⟨qs, h'⟩ := ih (hlink _ (or_iff_not_imp_left.mpr fun hx => hslot hs (not_not.mp hx)))
      exact ⟨_, .through hid hp (.through hs hn h')⟩
    · have ho := fun ho => hid (hr.symm.trans (congrArg some (hslot hr.symm ho)))
      obtain ⟨qs, h'⟩ := ih (hlink _ (Or.inl ho))
      exact ⟨_, .through hr.symm hn h'⟩

namespace Resolves

variable {removed : List NodeId}

theorem shortens (h : g.Resolves id removed g') (hp : g.IsProxy id) :
    g.Shortens g.AtConvert False g' := by
  cases h with
  | bypassed s hs h _ _ =>
    obtain ⟨_, _, _, hk⟩ := hp.isConvert
    refine (h.shortens (relays_of_linkAt hs (not_isClamp_of_kind? hk nofun))).mono (fun r hr => ?_)
      fun h => h
    rcases hr with hr | hr
    · exact Or.inl (hr.symm ▸ hp.isConvert)
    · exact Or.inr ⟨_, hr, hp.isConvert⟩
  | emptied l _ _ h _ _ _ =>
    refine h.shortens.mono (fun r hr => ?_) fun h => h
    rcases hr with hr | ⟨-, c, hc, hr⟩
    · exact Or.inr ⟨_, hr, hp.isConvert⟩
    · exact Or.inr ⟨_, hr, hc.1.isConvert⟩

theorem idBound_eq (h : g.Resolves id removed g') : g'.idBound = g.idBound := by
  cases h with
  | bypassed s _ h _ _ => exact h.idBound_eq
  | emptied l _ _ h _ _ _ => exact h.idBound_eq

theorem isProxy_iff (h : g.Resolves id removed g') (hp : g.IsProxy id) (x : NodeId) :
    g'.IsProxy x ↔ g.IsProxy x := by
  rw [IsProxy, IsProxy, (h.shortens hp).evolves.kind?_same h.idBound_eq]

theorem mem_removed (h : g.Resolves id removed g') : id ∈ removed := by
  cases h with
  | bypassed s _ _ _ hrem => simp [hrem]
  | emptied l _ _ _ _ _ hrem => exact (hrem id).mpr (Or.inl rfl)

/-- Besides the proxy, automatic conversions are removed that feed nothing any more. -/
theorem idle (h : g.Resolves id removed g') (hg : g.WellFormed) {c : NodeId} (hc : c ∈ removed) :
    c = id ∨ g.IsAutoConvert c ∧ g'.Unused c := by
  cases h with
  | bypassed s _ _ _ hrem => exact Or.inl (List.mem_singleton.mp (hrem ▸ hc))
  | emptied l _ _ h _ _ hrem =>
    refine ((hrem c).mp hc).imp_right fun ⟨hconv, hall⟩ => ⟨hconv.1, fun r o ho hid => ?_⟩
    obtain ⟨hl, hT⟩ := h.linkAt_some ho
    obtain rfl := hconv.1.isConvert.slot_eq hg hl hid
    exact hT (Or.inr ⟨hall r hl, c, hconv, hl⟩)

/-- **The ends of chains.** They stay the same for all inputs that do not fall back to a default
source, except for the input of the proxy itself. -/
theorem proxyChain (h : g.Resolves id removed g') (hg : g.WellFormed) (hp : g.IsProxy id)
    {r : InputRef} {ps : List NodeId} {e : Option OutputRef} (hr : r.node ≠ id)
    (hd : g.linkAt ⟨id, 0⟩ = none → ¬ g.FallsBack id r) (ht : g.ProxyChain r ps e) :
    g'.ProxyChain r (ps.filter (· ≠ id)) e := by
  have hproxy := h.isProxy_iff hp
  cases h with
  | bypassed s hs h _ _ =>
    refine h.proxyChain hg hp hs hproxy ht ?_
    rw [h.linkAt_eq, if_neg hr]
  | emptied l hn _ h _ _ _ =>
    replace hd := hd hn
    clear hr
    induction ht with
    | dry hl =>
      exact .dry ((h.shortens (N := False)).linkAt_none hl)
    | source hl hn' =>
      refine .source (hl ▸ h.kept _ (not_or.mpr ⟨fun hid => hn' ?_, hd⟩)) (mt (hproxy _).mp hn')
      rw [Option.some.inj (hl.symm.trans hid)]
      exact hp
    | @through r o ps e hl hn' ht ih =>
      by_cases hid : o.node = id
      · -- the chain ends at the proxy, and now it ends before it
        obtain rfl := hp.isConvert.slot_eq hg hl hid
        obtain ⟨rfl, rfl⟩ := ht.unique (.dry hn)
        rw [List.filter_cons_of_neg (by simp)]
        exact .dry (h.cut r (Or.inl hl))
      · have hdefault : ¬ g.FallsBack id ⟨o.node, 0⟩ := fun hf =>
          hn'.isConvert.not_defaulted hg 0 hf.1
        rw [List.filter_cons_of_pos (by simpa using hid)]
        refine .through (hl ▸ h.kept r (not_or.mpr ⟨fun hl' => hid ?_, hd⟩)) ((hproxy _).mpr hn')
          (ih hdefault)
        rw [Option.some.inj (hl.symm.trans hl')]

/-- A chain that ends now has ended before, and in the same output if it ends in one. -/
theorem exists_proxyChain (h : g.Resolves id removed g') (hg : g.WellFormed) (hp : g.IsProxy id)
    {r : InputRef} {ps : List NodeId} {e : Option OutputRef} (hr : r.node ≠ id)
    (ht : g'.ProxyChain r ps e) : ∃ qs e', g.ProxyChain r qs e' ∧ (e = none ∨ e' = e) := by
  have hproxy := h.isProxy_iff hp
  cases h with
  | bypassed s hs h _ _ =>
    obtain ⟨qs, h'⟩ : ∃ qs, g.ProxyChain r qs e :=
      h.exists_proxyChain hg hp hs hproxy ht (by rw [h.linkAt_eq, if_neg hr])
    exact ⟨qs, e, h', Or.inr rfl⟩
  | emptied l hn _ h _ _ _ =>
    clear hr
    induction ht with
    | @dry r hl =>
      cases ho : g.linkAt r with
      | none => exact ⟨_, _, .dry ho, Or.inl rfl⟩
      | some o =>
        by_cases hcut : g.linkAt r = some ⟨id, 0⟩ ∨ g.FallsBack id r
        · rcases hcut with hid | ⟨-, c, hc, hl'⟩
          · exact ⟨_, _, .through hid hp (.dry hn), Or.inl rfl⟩
          · exact ⟨_, _, .source hl' hc.1.not_isProxy, Or.inl rfl⟩
        · simp [h.kept r hcut, ho] at hl
    | source hl hn' =>
      exact ⟨_, _, .source (h.linkAt_some hl).1 (mt (hproxy _).mpr hn'), Or.inr rfl⟩
    | through hl hn' _ ih =>
      obtain ⟨qs, e', h', he⟩ := ih
      exact ⟨_, _, .through (h.linkAt_some hl).1 ((hproxy _).mp hn') h', he⟩

end Resolves

/-! ### All proxies -/

/-- Some nodes are looked at one after the other, and those of them that are proxies are taken out of
the flow of data. -/
inductive ResolvesAll (g : Graph) : List NodeId → List NodeId → Graph → Prop
  | nil : ResolvesAll g [] [] g
  | skip {done removed : List NodeId} {id : NodeId} {g₁ : Graph} (h : ResolvesAll g done removed g₁)
    (hid : ¬ g.IsProxy id) : ResolvesAll g (done ++ [id]) removed g₁
  | step {done removed more : List NodeId} {id : NodeId} {g₁ g₂ : Graph}
    (h : ResolvesAll g done removed g₁) (hid : g.IsProxy id) (h' : g₁.Resolves id more g₂) :
    ResolvesAll g (done ++ [id]) (removed ++ more) g₂

theorem filter_not_mem_append (ps done : List NodeId) (id : NodeId) :
    ps.filter (· ∉ done ++ [id]) = (ps.filter (· ∉ done)).filter (· ≠ id) := by
  simp [List.filter_filter, Bool.and_comm]

/-- What holds when some nodes have been looked at. -/
structure Unproxied (done removed : List NodeId) (g g' : Graph) : Prop where
  shortens : g.Shortens g.AtConvert False g'
  idBound_eq : g'.idBound = g.idBound
  roles : ∀ c ∈ removed, g.IsProxy c ∨ g.IsAutoConvert c
  idle : ∀ c ∈ removed, ¬ g.IsProxy c → g'.Unused c
  gone : ∀ p ∈ done, g.IsProxy p → p ∈ removed
  proxyChain : ∀ {r ps e}, ¬ g.IsProxy r.node → ¬ g.Defaulted r → g.ProxyChain r ps e →
    g'.ProxyChain r (ps.filter (· ∉ done)) e
  exists_proxyChain : ∀ {r ps e}, ¬ g.IsProxy r.node → g'.ProxyChain r ps e →
    ∃ qs e', g.ProxyChain r qs e' ∧ (e = none ∨ e' = e)

namespace Unproxied

variable {done removed : List NodeId}

theorem refl (hg : g.WellFormed) : g.Unproxied [] [] g where
  shortens := .refl hg
  idBound_eq := rfl
  roles := by simp
  idle := by simp
  gone := by simp
  proxyChain _ _ h := by simpa using h
  exists_proxyChain _ h := ⟨_, _, h, Or.inr rfl⟩

theorem kind?_eq (h : g.Unproxied done removed g') (x : NodeId) : g'.kind? x = g.kind? x :=
  h.shortens.evolves.kind?_same h.idBound_eq x

theorem isConvert_iff (h : g.Unproxied done removed g') (x : NodeId) :
    g'.IsConvert x ↔ g.IsConvert x := by
  rw [IsConvert, IsConvert, h.kind?_eq]

theorem isAutoConvert_iff (h : g.Unproxied done removed g') (x : NodeId) :
    g'.IsAutoConvert x ↔ g.IsAutoConvert x := by
  rw [IsAutoConvert, IsAutoConvert, h.kind?_eq]

theorem isProxy_iff (h : g.Unproxied done removed g') (x : NodeId) :
    g'.IsProxy x ↔ g.IsProxy x := by
  rw [IsProxy, IsProxy, h.kind?_eq]

theorem inputDecl?_eq (h : g.Unproxied done removed g') (hg : g.WellFormed) (r : InputRef) :
    g'.inputDecl? r = g.inputDecl? r :=
  hg.inputDecl?_of_kind?_eq h.shortens.evolves.wellFormed (h.kind?_eq r.node)

theorem defaulted_iff (h : g.Unproxied done removed g') (hg : g.WellFormed) (r : InputRef) :
    g'.Defaulted r ↔ g.Defaulted r := by
  rw [Defaulted, Defaulted, h.inputDecl?_eq hg]

theorem converts (h : g.Unproxied done removed g') {c : NodeId} (hc : c ∈ removed) : g.IsConvert c :=
  (h.roles c hc).elim IsProxy.isConvert IsAutoConvert.isConvert

theorem skip (h : g.Unproxied done removed g') (hid : ¬ g.IsProxy id) :
    g.Unproxied (done ++ [id]) removed g' := by
  refine { h with gone := fun p hp hproxy => ?_, proxyChain := fun hr hd ht => ?_ }
  · rcases List.mem_append.mp hp with hp | hp
    · exact h.gone p hp hproxy
    · exact absurd (List.mem_singleton.mp hp ▸ hproxy) hid
  · rw [ht.filter_skip hid]
    exact h.proxyChain hr hd ht

theorem step {g₁ g₂ : Graph} {more : List NodeId} (h : g.Unproxied done removed g₁)
    (hg : g.WellFormed) (hp : g.IsProxy id) (h' : g₁.Resolves id more g₂) :
    g.Unproxied (done ++ [id]) (removed ++ more) g₂ := by
  have hg₁ := h.shortens.evolves.wellFormed
  have hp₁ := (h.isProxy_iff id).mpr hp
  have hs := h'.shortens hp₁
  -- an input that has to do with a conversion now had to do with one before
  have hat : ∀ r, g₁.AtConvert r → g.AtConvert r := by
    rintro r (hr | ⟨o, hl, ho⟩)
    · exact Or.inl ((h.isConvert_iff _).mp hr)
    · by_contra hn
      have hlt : r.node < g.idBound := h.idBound_eq ▸ node_lt_of_linkAt (by simp [hl])
      refine hn (Or.inr ⟨o, ?_, (h.isConvert_iff _).mp ho⟩)
      rw [← h.shortens.evolves.linkAt_eq r hlt hn, hl]
  refine ⟨h.shortens.trans (hs.mono hat fun h => h), h'.idBound_eq.trans h.idBound_eq, ?_, ?_, ?_,
    fun {r ps e} hr hd ht => ?_, fun hr ht => ?_⟩
  · intro c hc
    rcases List.mem_append.mp hc with hc | hc
    · exact h.roles c hc
    · rcases h'.idle hg₁ hc with rfl | hc
      · exact Or.inl hp
      · exact Or.inr ((h.isAutoConvert_iff c).mp hc.1)
  · intro c hc hn
    rcases List.mem_append.mp hc with hc | hc
    · obtain ⟨_, _, _, hk⟩ := h.converts hc
      exact hs.unused (h.idle c hc hn) (h.idBound_eq ▸ g.lt_idBound_of_kind? hk)
    · rcases h'.idle hg₁ hc with rfl | hc
      · exact absurd hp hn
      · exact hc.2
  · intro p hpd hproxy
    rcases List.mem_append.mp hpd with hpd | hpd
    · exact List.mem_append_left _ (h.gone p hpd hproxy)
    · exact List.mem_singleton.mp hpd ▸ List.mem_append_right _ h'.mem_removed
  · rw [filter_not_mem_append]
    exact h'.proxyChain hg₁ hp₁ (fun heq => hr (heq ▸ hp))
      (fun _ hf => hd ((h.defaulted_iff hg r).mp hf.1)) (h.proxyChain hr hd ht)
  · obtain ⟨_, _, ht₁, he | rfl⟩ := h'.exists_proxyChain hg₁ hp₁ (fun heq => hr (heq ▸ hp)) ht
    · obtain ⟨qs, e', ht', -⟩ := h.exists_proxyChain hr ht₁
      exact ⟨qs, e', ht', Or.inl he⟩
    · exact h.exists_proxyChain hr ht₁

end Unproxied

theorem ResolvesAll.unproxied {done removed : List NodeId} (h : g.ResolvesAll done removed g')
    (hg : g.WellFormed) : g.Unproxied done removed g' := by
  induction h with
  | nil => exact .refl hg
  | skip _ hid ih => exact ih.skip hid
  | step _ hid h' ih => exact ih.step hg hid h'

theorem mem_ids_of_isProxy {x : NodeId} (hx : g.IsProxy x) : x ∈ g.ids := by
  obtain ⟨k, hk, -⟩ := hx
  exact (g.mem_ids_iff_kind?).mpr ⟨k, hk⟩

theorem ProxyChain.filter_ids {r : InputRef} {ps : List NodeId} {e : Option OutputRef}
    (h : g.ProxyChain r ps e) : ps.filter (· ∉ g.ids) = [] :=
  List.filter_eq_nil_iff.mpr fun p hp => by simpa using mem_ids_of_isProxy (h.isProxy p hp)

/-! ### The remaining graph -/

/-- All nodes of a graph have been looked at, and the marked ones have been removed. -/
structure Deproxied (removed : List NodeId) (g g₁ g' : Graph) : Prop where
  all : g.ResolvesAll g.ids removed g₁
  removes : g₁.Removes removed g'
  keepsLiterals : g₁.KeepsLiterals g'

theorem Removes.congr {ids ids' : List NodeId} (h : g.Removes ids g') (hids : ∀ x, x ∈ ids ↔ x ∈ ids') :
    g.Removes ids' g' :=
  { h with
    kind?_eq := fun x => by simp only [h.kind?_eq, hids]
    linkAt_iff := fun r o => by simp only [h.linkAt_iff, hids] }

namespace Deproxied

variable {g₁ : Graph} {removed : List NodeId} {r : InputRef}

theorem mem_removed (h : g.Deproxied removed g₁ g') (hg : g.WellFormed) {x : NodeId}
    (hx : g.IsProxy x) : x ≠ outputId ∧ x ∈ removed := by
  refine ⟨?_, (h.all.unproxied hg).gone x (mem_ids_of_isProxy hx) hx⟩
  rintro rfl
  obtain ⟨k, hk, hrole⟩ := hx
  rw [hg.kind?_output] at hk
  cases hk
  simp [NodeKind.role] at hrole

/-- No proxy is left in the end. -/
theorem not_isProxy (h : g.Deproxied removed g₁ g') (hg : g.WellFormed) (x : NodeId) :
    ¬ g'.IsProxy x := by
  rintro ⟨k, hk, hrole⟩
  rw [h.removes.kind?_eq, (h.all.unproxied hg).kind?_eq] at hk
  split_ifs at hk with hx
  exact hx (h.mem_removed hg ⟨k, hk, hrole⟩)

/-- Links that lead to no proxy survive. -/
theorem linkAt_eq (h : g.Deproxied removed g₁ g') (hg : g.WellFormed)
    (hkept : ¬ (r.node ≠ outputId ∧ r.node ∈ removed))
    (hl : ∀ o, g₁.linkAt r = some o → ¬ g.IsProxy o.node) : g'.linkAt r = g₁.linkAt r := by
  cases ho : g₁.linkAt r with
  | none =>
    refine Option.eq_none_iff_forall_ne_some.mpr fun o ho' => ?_
    simp [((h.removes.linkAt_iff r o).mp ho').1] at ho
  | some o =>
    refine (h.removes.linkAt_iff r o).mpr ⟨ho, hkept, fun hrem => ?_⟩
    exact (h.all.unproxied hg).idle _ hrem.2 (hl o ho) r o ho rfl

/-- No proxies are left on the way. -/
theorem proxyChain (h : g.Deproxied removed g₁ g') (hg : g.WellFormed) {ps : List NodeId}
    {e : Option OutputRef} (hr : ¬ g.IsProxy r.node) (hd : ¬ g.Defaulted r)
    (ht : g.ProxyChain r ps e) : g₁.ProxyChain r [] e :=
  ht.filter_ids ▸ (h.all.unproxied hg).proxyChain hr hd ht

theorem linkAt_of_proxyChain_nil (h : g.Deproxied removed g₁ g') (hg : g.WellFormed)
    {e : Option OutputRef} (hkept : ¬ (r.node ≠ outputId ∧ r.node ∈ removed))
    (ht : g₁.ProxyChain r [] e) : g'.linkAt r = e := by
  rw [h.linkAt_eq hg hkept, ht.linkAt_eq]
  intro o ho
  cases ht with
  | dry hl => simp [hl] at ho
  | source hl hp =>
    rw [hl, Option.some.injEq] at ho
    rwa [← ho, ← (h.all.unproxied hg).isProxy_iff]

theorem linkAt_of_proxyChain (h : g.Deproxied removed g₁ g') (hg : g.WellFormed) {ps : List NodeId}
    {e : Option OutputRef} (hr : ¬ g.IsProxy r.node) (hd : ¬ g.Defaulted r)
    (hkept : ¬ (r.node ≠ outputId ∧ r.node ∈ removed)) (ht : g.ProxyChain r ps e) :
    g'.linkAt r = e :=
  h.linkAt_of_proxyChain_nil hg hkept (h.proxyChain hg hr hd ht)

/-- A chain that goes round in a circle is cut off with the proxies. -/
theorem linkAt_of_forall_not_proxyChain (h : g.Deproxied removed g₁ g') (hg : g.WellFormed)
    (hr : ¬ g.IsProxy r.node) (ht : ∀ ps e, ¬ g.ProxyChain r ps e) : g'.linkAt r = none := by
  have hu := h.all.unproxied hg
  refine Option.eq_none_iff_forall_ne_some.mpr fun o ho => ?_
  obtain ⟨hl, -, hkept⟩ := (h.removes.linkAt_iff r o).mp ho
  have hp : ¬ g₁.IsProxy o.node := fun hp => hkept (h.mem_removed hg ((hu.isProxy_iff _).mp hp))
  obtain ⟨qs, e, ht', -⟩ := hu.exists_proxyChain hr (.source hl hp)
  exact ht qs e ht'

theorem linked_iff (h : g.Deproxied removed g₁ g') (hg : g.WellFormed)
    (hr : ¬ g.IsConvert r.node) (hd : ¬ g.Defaulted r) : g'.linkAt r ≠ none ↔ g.Fed r := by
  have hp : ¬ g.IsProxy r.node := fun hp => hr hp.isConvert
  have hkept : ¬ (r.node ≠ outputId ∧ r.node ∈ removed) := fun hrem =>
    hr ((h.all.unproxied hg).converts hrem.2)
  rw [fed_iff_proxyChain]
  constructor
  · intro hl
    by_contra hn
    refine hl ?_
    by_cases ht : ∃ ps e, g.ProxyChain r ps e
    · obtain ⟨ps, _ | o, ht⟩ := ht
      · exact h.linkAt_of_proxyChain hg hp hd hkept ht
      · exact absurd ⟨ps, o, ht⟩ hn
    · exact h.linkAt_of_forall_not_proxyChain hg hp fun ps e ht' => ht ⟨ps, e, ht'⟩
  · rintro ⟨ps, o, ht⟩
    simp [h.linkAt_of_proxyChain hg hp hd hkept ht]

end Deproxied

/-! ### Storing the literal of an unfed proxy -/

/-- One consumer takes the literal. If it belongs to an automatic conversion, the consumers of the
conversion fall back to their default sources, and the conversion is removed if it has no others. -/
structure TakesLiteral (t : InputRef) (l : Literal) (removed : List NodeId) (g g' : Graph) : Prop where
  trims : g.Trims (fun r => r = t ∨
    g.IsAutoConvert t.node ∧ g.linkAt r = some ⟨t.node, 0⟩ ∧ g.Defaulted r) g'
  literalAt_eq : ∀ r, g'.literalAt r =
    if r = t then (g.inputDecl? t).map (fun d => l.convert d.type false) else g.literalAt r
  mem_removed : ∀ c, c ∈ removed ↔ c = t.node ∧ g.IsAutoConvert c ∧
    ∀ r, g.linkAt r = some ⟨c, 0⟩ → g.Defaulted r

/-- The inputs that are unlinked when some consumers of a proxy take its literal. -/
def Freed (g : Graph) (done : List InputRef) (r : InputRef) : Prop :=
  r ∈ done ∨ g.Defaulted r ∧ ∃ c, (g.IsAutoConvert c ∧ ⟨c, 0⟩ ∈ done) ∧ g.linkAt r = some ⟨c, 0⟩

/-- Some of the consumers of a proxy have taken its literal. -/
structure Empties (id : NodeId) (l : Literal) (done : List InputRef) (removed : List NodeId)
    (g g' : Graph) : Prop where
  trims : g.Trims (g.Freed done) g'
  stored : ∀ r ∈ done, ∀ d, g.inputDecl? r = some d → g'.literalAt r = some (l.convert d.type false)
  kept : ∀ r, r ∉ done → g'.literalAt r = g.literalAt r
  mem_removed : ∀ c, c ∈ removed ↔ c = id ∨ (g.IsAutoConvert c ∧ ⟨c, 0⟩ ∈ done) ∧
    ∀ r, g.linkAt r = some ⟨c, 0⟩ → g.Defaulted r

/-- A conversion has one input. -/
theorem IsConvert.input_eq (hg : g.WellFormed) {r : InputRef} (h : g.IsConvert r.node)
    {o : OutputRef} (hl : g.linkAt r = some o) : r = ⟨r.node, 0⟩ := by
  obtain ⟨source, target, automatic, hk⟩ := h
  obtain ⟨d, hd⟩ := g.inputDecl?_of_linkAt hl
  rw [hg.inputDecl?_eq hk] at hd
  have hlt := (List.getElem?_eq_some_iff.mp hd).1
  obtain ⟨x, slot⟩ := r
  simpa [NodeKind.inputDecls] using hlt

theorem Empties.refl (hg : g.WellFormed) {l : Literal} : g.Empties id l [] [id] g where
  trims := .refl hg (by simp [Freed])
  stored := by simp
  kept _ _ := rfl
  mem_removed := by simp

theorem Empties.step {l : Literal} {done : List InputRef} {removed more : List NodeId}
    {t : InputRef} {g₁ g₂ : Graph} (h : g.Empties id l done removed g₁) (hg : g.WellFormed)
    (hp : g.IsProxy id) (hdone : ∀ r ∈ done, g.linkAt r = some ⟨id, 0⟩)
    (ht : g.linkAt t = some ⟨id, 0⟩) (h' : g₁.TakesLiteral t l more g₂) :
    g.Empties id l (done ++ [t]) (removed ++ more) g₂ := by
  have hauto : ∀ c, g₁.IsAutoConvert c ↔ g.IsAutoConvert c := fun c => by
    rw [IsAutoConvert, IsAutoConvert, h.trims.kind?_eq]
  have hslot : g.IsAutoConvert t.node → t = ⟨t.node, 0⟩ := fun hc => hc.isConvert.input_eq hg ht
  refine ⟨(h.trims.trans h'.trims).congr fun r o hl => ?_, fun r hr d hd => ?_, fun r hr => ?_,
    fun c => ?_⟩
  · rw [hauto, h.trims.defaulted_iff]
    constructor
    · rintro (hr | rfl | ⟨hc, hl', hd⟩)
      · exact hr.imp (List.mem_append_left _) fun ⟨hd, c, hc, hl'⟩ =>
          ⟨hd, c, ⟨hc.1, List.mem_append_left _ hc.2⟩, hl'⟩
      · exact Or.inl (by simp)
      · exact Or.inr ⟨hd, t.node, ⟨hc, by simp [← hslot hc]⟩, (h.trims.linkAt_some hl').1⟩
    · rintro (hr | ⟨hd, c, ⟨hc, hmem⟩, hl'⟩)
      · rcases List.mem_append.mp hr with hr | hr
        · exact Or.inl (Or.inl hr)
        · exact Or.inr (Or.inl (List.mem_singleton.mp hr))
      · by_cases hfree : g.Freed done r
        · exact Or.inl hfree
        rcases List.mem_append.mp hmem with hmem | hmem
        · exact Or.inl (Or.inr ⟨hd, c, ⟨hc, hmem⟩, hl'⟩)
        · obtain rfl := List.mem_singleton.mp hmem
          exact Or.inr (Or.inr ⟨hc, (h.trims.kept r hfree).trans hl', hd⟩)
  · rw [h'.literalAt_eq]
    split_ifs with heq
    · rw [← heq, h.trims.inputDecl?_eq, hd, Option.map_some]
    · rcases List.mem_append.mp hr with hr | hr
      · exact h.stored r hr d hd
      · exact absurd (List.mem_singleton.mp hr) heq
  · rw [List.mem_append, not_or] at hr
    rw [h'.literalAt_eq, if_neg (by simpa using hr.2)]
    exact h.kept r hr.1
  · -- a consumer that was unlinked before has a default source
    have hall : g.IsAutoConvert c → ((∀ r, g₁.linkAt r = some ⟨c, 0⟩ → g₁.Defaulted r) ↔
        ∀ r, g.linkAt r = some ⟨c, 0⟩ → g.Defaulted r) := by
      intro hc
      simp only [h.trims.defaulted_iff]
      refine ⟨fun hd r hl => ?_, fun hd r hl => hd r (h.trims.linkAt_some hl).1⟩
      by_cases hfree : g.Freed done r
      · rcases hfree with hr | hr
        · cases hl.symm.trans (hdone r hr)
          exact absurd hp hc.not_isProxy
        · exact hr.1
      · exact hd r ((h.trims.kept r hfree).trans hl)
    rw [List.mem_append, h.mem_removed, h'.mem_removed, hauto, List.mem_append, List.mem_singleton]
    constructor
    · rintro ((hc | ⟨⟨hc, hmem⟩, hd⟩) | ⟨rfl, hc, hd⟩)
      · exact Or.inl hc
      · exact Or.inr ⟨⟨hc, Or.inl hmem⟩, hd⟩
      · exact Or.inr ⟨⟨hc, Or.inr (hslot hc).symm⟩, (hall hc).mp hd⟩
    · rintro (hc | ⟨⟨hc, hmem | rfl⟩, hd⟩)
      · exact Or.inl (Or.inl hc)
      · exact Or.inl (Or.inr ⟨⟨hc, hmem⟩, hd⟩)
      · exact Or.inr ⟨rfl, hc, (hall hc).mpr hd⟩

theorem Empties.resolves {l : Literal} {removed : List NodeId}
    (h : g.Empties id l (g.fanOut ⟨id, 0⟩) removed g') (hg : g.WellFormed)
    (hn : g.linkAt ⟨id, 0⟩ = none) (hl : g.literalAt ⟨id, 0⟩ = some l) :
    g.Resolves id removed g' := by
  obtain ⟨htrims, hstored, hkept, hrem⟩ := h
  unfold Freed at htrims
  simp only [← hg.link_iff] at htrims hstored hkept hrem
  exact .emptied l hn hl htrims (fun r d hr => hstored r hr d) hkept hrem

end Graph

theorem NodeSet.mem_insert {a x : NodeId} {s : NodeSet} : x ∈ s.insert a ↔ x = a ∨ x ∈ s := by
  fun_induction NodeSet.insert a s with
  | case1 => simp
  | case2 y ys _ => simp
  | case3 ys _ => simp
  | case4 y ys _ _ ih =>
    rw [List.mem_cons, ih, List.mem_cons]
    tauto

theorem NodeSet.mem_ofList {x : NodeId} {ids : List NodeId} : x ∈ ofList ids ↔ x ∈ ids := by
  induction ids with
  | nil => simp [ofList]
  | cons a ids ih => rw [ofList, List.foldr_cons, mem_insert, ← ofList, ih, List.mem_cons]

namespace Edit

open Shading.Graph

variable {g : Graph} {id : NodeId}

/-- The consumers with a default source of their own are unlinked. -/
theorem ends_releaseDefaults (hg : g.WellFormed) (hm : g.finalized = false) {e : OutputDecl}
    (he : g.outputDecl? ⟨id, 0⟩ = some e) :
    (releaseDefaults id).Ends g fun all g' =>
      g.Trims (fun r => g.linkAt r = some ⟨id, 0⟩ ∧ g.Defaulted r) g' ∧
        (all = true ↔ ∀ r, g.linkAt r = some ⟨id, 0⟩ → g.Defaulted r) := by
  refine ends_consumersOf_bind he ?_
  refine (ends_foldlM (fun rest all g' => ∃ done, g.fanOut ⟨id, 0⟩ = done ++ rest ∧
    g.Trims (fun r => r ∈ done ∧ g.Defaulted r) g' ∧ (all = true ↔ ∀ r ∈ done, g.Defaulted r))
      ⟨[], rfl, .refl hg (by simp), by simp⟩ ?_).mono ?_
  · rintro t rest all g' ⟨done, hdone, h, hall⟩
    have hmem : t ∈ g.fanOut ⟨id, 0⟩ := by simp [hdone]
    have hnot : t ∉ done := by
      have hnd := hdone ▸ hg.nodup ⟨id, 0⟩
      exact fun ht => (List.nodup_append.mp hnd).2.2 t ht t List.mem_cons_self rfl
    have hl := (hg.link_iff t _).mpr hmem
    have hl' := (h.kept t fun ht => hnot ht.1).trans hl
    obtain ⟨d, hd⟩ := g.inputDecl?_of_linkAt hl
    have hd' := (h.inputDecl?_eq t).trans hd
    refine meets_ask_input_bind (fun i hi => ?_) fun hn => by simp [hn] at hd'
    have hsource : g.Defaulted t ↔ i.source.isSome = true := by
      rw [inputDecl?, hi, Option.map_some, Option.some.injEq] at hd'
      simp [Defaulted, hd, ← hd']
    split_ifs with hs
    · have hdef := hsource.mpr hs
      refine Ends.bind (ends_disconnectInput h.wellFormed (h.finalized.trans hm) hl')
        fun _ g₁ h₁ => ends_pure ⟨done ++ [t], by simp [hdone], ?_, ?_⟩
      · refine (h.trans h₁).congr fun r o _ => ?_
        simp only [List.mem_append, List.mem_singleton]
        constructor
        · rintro (hr | rfl)
          · exact ⟨Or.inl hr.1, hr.2⟩
          · exact ⟨Or.inr rfl, hdef⟩
        · rintro ⟨hr | hr, hr'⟩
          · exact Or.inl ⟨hr, hr'⟩
          · exact Or.inr hr
      · rw [List.forall_mem_append, List.forall_mem_singleton, hall, and_iff_left hdef]
    · have hdef := mt hsource.mp hs
      refine ends_pure ⟨done ++ [t], by simp [hdone], h.congr fun r o _ => ?_, ?_⟩
      · simp only [List.mem_append, List.mem_singleton]
        refine ⟨fun hr => ⟨Or.inl hr.1, hr.2⟩, fun hr => ⟨hr.1.resolve_right ?_, hr.2⟩⟩
        rintro rfl
        exact hdef hr.2
      · simp [hdef]
  · rintro all g' ⟨done, hdone, h, hall⟩
    rw [List.append_nil] at hdone
    simp only [hg.link_iff, hdone]
    exact ⟨h, hall⟩

theorem retains_releaseDefaults {B : Nat} : (releaseDefaults id).Relates (Retains B) := by
  refine (relates_ask _).bind fun targets => .foldlM fun all t => (relates_ask _).bind fun i => ?_
  split_ifs
  · exact (retains_disconnectInput t).bind fun _ => relates_pure _
  · exact relates_pure _

/-- An input is unlinked and takes a literal. -/
theorem ends_disconnectInput_store (hg : g.WellFormed) (hm : g.finalized = false) {s : OutputRef}
    {t : InputRef} (hl : g.linkAt t = some s) (l : Literal) {α : Type} {a : α} :
    (do disconnectInput t; store t l; pure a : Edit α).Ends g fun b g' => b = a ∧
      g.Trims (· = t) g' ∧ ∀ r, g'.literalAt r =
        if r = t then (g.inputDecl? t).map (fun d => l.convert d.type false) else g.literalAt r := by
  obtain ⟨d, hd⟩ := g.inputDecl?_of_linkAt hl
  have hcut := (ends_disconnectInput hg hm hl).and_meets (retains_disconnectInput (B := g.idBound) t g)
  refine Ends.bind hcut ?_
  rintro _ g₁ ⟨h₁, hr₁⟩
  have hd₁ := (h₁.inputDecl?_eq t).trans hd
  refine Ends.bind (P := fun _ g₂ => g₂ = g₁.modifyInput t (Input.store l)) ?_ ?_
  · refine meets_requireMutable_bind (fun _ => ?_) fun hf => by simp [h₁.finalized, hm] at hf
    rw [discard_bind]
    exact meets_ask_input_bind (fun _ _ => meets_modify rfl) fun hn => by simp [hn] at hd₁
  · rintro _ _ rfl
    refine ends_pure ⟨rfl, (h₁.trans (trims_store h₁.wellFormed t l)).congr (by simp), fun r => ?_⟩
    rw [literalAt_store, h₁.inputDecl?_eq, hr₁.literalAt_eq h₁.idBound_eq]

/-- A consumer of an unfed proxy takes a literal. -/
theorem ends_storeInConsumer (hg : g.WellFormed) (hm : g.finalized = false) {s : OutputRef}
    {t : InputRef} (hl : g.linkAt t = some s) (hs : ¬ g.IsAutoConvert s.node) (l : Literal) :
    (storeInConsumer l t).Ends g fun removed => g.TakesLiteral t l removed := by
  obtain ⟨d, hd⟩ := g.inputDecl?_of_linkAt hl
  obtain ⟨kt, hkt⟩ := g.kind?_of_inputDecl? hd
  refine meets_ask_node_bind (fun n hn => ?_) fun hnone => by simp [hnone] at hkt
  have hkn : g.kind? t.node = some n.kind := by simp [kind?, hn]
  have hiff : g.IsAutoConvert t.node ↔ n.role = .autoConvert := by simp [IsAutoConvert, hkn, Node.role]
  dsimp only
  split_ifs with hrole
  · have hauto := hiff.mpr hrole
    obtain ⟨source, target, automatic, hk⟩ := hauto.isConvert
    have hne : s ≠ ⟨t.node, 0⟩ := fun heq => hs (heq ▸ hauto)
    refine Ends.bind ((ends_releaseDefaults hg hm (hg.outputDecl?_eq hk 0)).and_meets
      (retains_releaseDefaults (B := g.idBound) g)) ?_
    rintro all g₁ ⟨⟨h₁, hall⟩, hr₁⟩
    have hl₁ : g₁.linkAt t = some s := by
      refine (h₁.kept t fun ht => hne ?_).trans hl
      rw [hl, Option.some.injEq] at ht
      exact ht.1
    refine (ends_disconnectInput_store h₁.wellFormed (h₁.finalized.trans hm) hl₁ l).mono ?_
    rintro removed g' ⟨rfl, h', hlit⟩
    refine ⟨(h₁.trans h').congr fun r o _ => by simp [hauto, or_comm], fun r => ?_, fun c => ?_⟩
    · rw [hlit, h₁.inputDecl?_eq, hr₁.literalAt_eq h₁.idBound_eq]
    · split_ifs with hu
      · rw [List.mem_singleton]
        refine ⟨?_, And.left⟩
        rintro rfl
        exact ⟨rfl, hauto, hall.mp hu⟩
      · simp only [List.not_mem_nil, false_iff]
        rintro ⟨rfl, -, hd'⟩
        exact hu (hall.mpr hd')
  · have hauto := mt hiff.mp hrole
    refine (ends_disconnectInput_store hg hm hl l).mono ?_
    rintro removed g' ⟨rfl, h', hlit⟩
    refine ⟨h'.congr fun r o _ => by simp [hauto], hlit, fun c => ?_⟩
    simp only [Bool.false_eq_true, if_false, List.not_mem_nil, false_iff]
    rintro ⟨rfl, hc, -⟩
    exact hauto hc

theorem ends_resolveProxy (hg : g.WellFormed) (hm : g.finalized = false) (hp : g.IsProxy id) :
    (resolveProxy id).Ends g fun removed => g.Resolves id removed := by
  obtain ⟨k, hk, hrole⟩ := (show g.IsProxy id from hp)
  obtain ⟨type, automatic, rfl⟩ := NodeKind.exists_eq_proxy hrole
  have hin := hg.inputDecl?_eq hk 0
  have hout := hg.outputDecl?_eq hk 0
  refine meets_ask_input_bind (fun i hi => ?_) fun hn => by simp [hn, NodeKind.inputDecls] at hin
  have hl : g.linkAt ⟨id, 0⟩ = i.link := by simp [linkAt, hi]
  split
  · rename_i s hs
    rw [hs] at hl
    obtain ⟨e, he⟩ := hg.exists_output hl
    have hfit : e.type.linksTo type = true := (hg.typed _ _ _ e hl hin he).2
    refine Ends.bind ((ends_bypass hg hm hk hout he hfit).and_meets
      (retains_bypass (B := g.idBound) id _ _ g)) fun _ g' h => ends_pure ?_
    exact .bypassed s hl h.1 (h.2.literalAt_eq h.1.idBound_eq) rfl
  · rename_i hnone
    rw [hnone] at hl
    refine ends_consumersOf_bind hout ?_
    refine (ends_foldlM (fun rest removed g' => ∃ done, g.fanOut ⟨id, 0⟩ = done ++ rest ∧
      g.Empties id i.literal done removed g') ⟨[], rfl, .refl hg⟩ ?_).mono ?_
    · rintro t rest removed g' ⟨done, hdone, h⟩
      have hlink : ∀ r ∈ done ++ t :: rest, g.linkAt r = some ⟨id, 0⟩ := fun r hr =>
        (hg.link_iff r _).mpr (hdone ▸ hr)
      have hlt := hlink t (by simp)
      have hnot : ¬ g.Freed done t := by
        rintro (ht | ⟨-, c, hc, hl'⟩)
        · have hnd := hdone ▸ hg.nodup ⟨id, 0⟩
          exact (List.nodup_append.mp hnd).2.2 t ht t List.mem_cons_self rfl
        · cases hlt.symm.trans hl'
          exact hc.1.not_isProxy hp
      have hauto : ¬ g'.IsAutoConvert id := by
        rw [IsAutoConvert, h.trims.kind?_eq]
        exact fun hc => IsAutoConvert.not_isProxy hc hp
      refine Ends.bind (ends_storeInConsumer h.trims.wellFormed (h.trims.finalized.trans hm)
        ((h.trims.kept t hnot).trans hlt) hauto i.literal) fun more g₁ h₁ => ends_pure ?_
      exact ⟨done ++ [t], by simp [hdone],
        h.step hg hp (fun r hr => hlink r (List.mem_append_left _ hr)) hlt h₁⟩
    · rintro removed g' ⟨done, hdone, h⟩
      rw [List.append_nil] at hdone
      subst hdone
      exact h.resolves hg hl (by simp [literalAt, hi])

/-- The proxies are taken out of the flow of data in the order of the nodes, and then the marked
nodes are removed. -/
theorem ends_removeProxies_deproxied (hg : g.WellFormed) (hm : g.finalized = false) :
    removeProxies.Ends g fun _ g' => ∃ g₁ removed, g.Deproxied removed g₁ g' := by
  refine ends_get_bind ?_
  refine Ends.bind (ends_foldlM (fun rest removed g' => ∃ done, g.ids = done ++ rest ∧
    g.ResolvesAll done removed g') ⟨[], rfl, .nil⟩ ?_) ?_
  · rintro id rest removed g' ⟨done, hdone, h⟩
    have hu := h.unproxied hg
    obtain ⟨k, hk⟩ := (g.mem_ids_iff_kind?).mp (show id ∈ g.ids by simp [hdone])
    have hk' := (hu.kind?_eq id).trans hk
    refine meets_ask_node_bind (fun n hn => ?_) fun hnone => by simp [hnone] at hk'
    have hkn : g'.kind? id = some n.kind := by simp [kind?, hn]
    have hiff : g'.IsProxy id ↔ n.role = .proxy := by simp [IsProxy, hkn, Node.role]
    split_ifs with hrole
    · refine Ends.bind (ends_resolveProxy hu.shortens.evolves.wellFormed
        (hu.shortens.evolves.finalized.trans hm) (hiff.mpr hrole)) fun more g'' h' => ends_pure ?_
      exact ⟨done ++ [id], by simp [hdone], .step h ((hu.isProxy_iff id).mp (hiff.mpr hrole)) h'⟩
    · exact ends_pure ⟨done ++ [id], by simp [hdone],
        .skip h fun hp => hrole (hiff.mp ((hu.isProxy_iff id).mpr hp))⟩
  · rintro removed g₁ ⟨done, hdone, h⟩
    rw [List.append_nil] at hdone
    subst hdone
    have hu := h.unproxied hg
    refine ((ends_removeNodes hu.shortens.evolves.wellFormed (hu.shortens.evolves.finalized.trans hm)
      (NodeSet.ofList removed)).and_meets (keepsLiterals_removeNodes _ g₁)).mono ?_
    rintro _ g' ⟨h', hkeep⟩
    exact ⟨g₁, removed, h, h'.congr fun _ => NodeSet.mem_ofList, hkeep⟩

/-- **Removing proxies.** It shortens links at conversions, and removes conversions only. What is
linked afterwards is what was fed before. -/
theorem ends_removeProxies (hg : g.WellFormed) (hm : g.finalized = false) :
    removeProxies.Ends g fun _ g' => ∃ g₁ removed, g.Shortens g.AtConvert False g₁ ∧
      g₁.idBound = g.idBound ∧ (∀ c ∈ removed, g.IsConvert c) ∧ g₁.Removes removed g' ∧
      ∀ r, ¬ g.IsConvert r.node → ¬ g.Defaulted r → (g'.linkAt r ≠ none ↔ g.Fed r) := by
  refine (ends_removeProxies_deproxied hg hm).mono ?_
  rintro _ g' ⟨g₁, removed, h⟩
  have hu := h.all.unproxied hg
  exact ⟨g₁, removed, hu.shortens, hu.idBound_eq, fun c hc => hu.converts hc, h.removes,
    fun r hr hd => h.linked_iff hg hr hd⟩

theorem ends_removeProxies_not_isProxy (hg : g.WellFormed) (hm : g.finalized = false) :
    removeProxies.Ends g fun _ g' => ∀ x, ¬ g'.IsProxy x := by
  refine (ends_removeProxies_deproxied hg hm).mono ?_
  rintro _ g' ⟨g₁, removed, h⟩
  exact h.not_isProxy hg

end Edit

end Shading
