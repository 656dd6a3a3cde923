import Shading.Proofs.Preparation
import Shading.Proofs.Primitive

/-!
# What linking default sources changes

Default sources are linked while one runs over the inputs of all nodes, and the geometry node and the
node of texture coordinates that they are outputs of are added on the way. `Wired` says how far this
has come: the wanting inputs that were reached are linked to the shared nodes, and everything else is
as it was at the start. It is kept by each of the two loops.

In the end there is no wanting input left, and so a second run has nothing to do. -/

namespace Shading

namespace Graph

/-- An input has a default source. -/
def DefaultsTo (g : Graph) (r : InputRef) (source : DefaultSource) : Prop :=
  ∃ d, g.inputDecl? r = some d ∧ d.source = some source

/-- An input is free and has a default source. -/
def Wants (g : Graph) (r : InputRef) (source : DefaultSource) : Prop :=
  g.linkAt r = none ∧ g.DefaultsTo r source

/-- Some free input has an output of the shared node as its default source. -/
def Needs (g : Graph) (owner : SharedNode) : Prop :=
  ∃ r source, g.Wants r source ∧ source.owner = owner

/-- The wanting inputs that were reached are linked to the shared nodes. -/
structure Wired (g : Graph) (reached : InputRef → Prop) (shared : SharedNodes) (g' : Graph) :
    Prop where
  evolves : g.Grows g'
  quiet : g.Quiet g'
  fresh : ∀ owner x, shared.lookup owner = some x → g.idBound ≤ x ∧ g.Needs owner
  kind?_new : ∀ x k, g.idBound ≤ x →
    (g'.kind? x = some k ↔ ∃ owner, shared.lookup owner = some x ∧ owner.kind = k)
  linked : ∀ r source, reached r → g.Wants r source → ∃ x i, shared.lookup source.owner = some x ∧
    source.owner.kind.layout.outputSlot? source.outputName = some i ∧ g'.linkAt r = some ⟨x, i⟩
  kept : ∀ r, (reached r → ∀ source, ¬ g.Wants r source) → g'.linkAt r = g.linkAt r
  fanOut_eq : ∀ o, o.node < g.idBound → g'.fanOut o = g.fanOut o

variable {g g' : Graph} {reached : InputRef → Prop} {shared : SharedNodes} {r t : InputRef}
  {source : DefaultSource} {owner : SharedNode} {x : NodeId}

theorem DefaultsTo.inj {source' : DefaultSource} (h : g.DefaultsTo r source)
    (h' : g.DefaultsTo r source') : source = source' := by
  obtain ⟨d, hd, hs⟩ := h
  obtain ⟨d', hd', hs'⟩ := h'
  rw [hd, Option.some.injEq] at hd'
  rwa [← hd', hs, Option.some.injEq] at hs'

namespace Wired

theorem refl (hg : g.WellFormed) : g.Wired (fun _ => False) [] g where
  evolves := .refl hg
  quiet := .refl
  fresh _ _ h := by simp at h
  kind?_new x k hx := by
    have hnone : g.kind? x ≠ some k := fun hk => Nat.not_lt.mpr hx (g.lt_idBound_of_kind? hk)
    simp [hnone]
  linked _ _ h := h.elim
  kept _ _ := rfl
  fanOut_eq _ _ := rfl

/-- What counts is which wanting inputs were reached. -/
theorem congr {reached' : InputRef → Prop} (h : g.Wired reached shared g')
    (hr : ∀ r source, g.Wants r source → (reached r ↔ reached' r)) : g.Wired reached' shared g' :=
  { h with
    linked := fun r source hr' hw => h.linked r source ((hr r source hw).mpr hr') hw
    kept := fun r hr' => h.kept r fun hreached source hw =>
      hr' ((hr r source hw).mp hreached) source hw }

theorem kind?_shared (h : g.Wired reached shared g') (hx : shared.lookup owner = some x) :
    g'.kind? x = some owner.kind :=
  (h.kind?_new x _ (h.fresh owner x hx).1).mpr ⟨owner, hx, rfl⟩

/-- The first time that a shared node is needed. -/
theorem push (h : g.Wired reached shared g') (hn : g.Needs owner)
    (hnone : shared.lookup owner = none) :
    g.Wired reached ((owner, g'.idBound) :: shared) (g'.push (.ofKind owner.kind)) := by
  have hpush := evolves_push h.evolves.wellFormed (Node.sound_ofKind owner.kind)
  have hle := h.evolves.idBound_le
  have hlookup : ∀ owner' x, ((owner, g'.idBound) :: shared).lookup owner' = some x ↔
      owner' = owner ∧ g'.idBound = x ∨ shared.lookup owner' = some x := by
    intro owner' x
    by_cases he : owner' = owner
    · simp [he, hnone]
    · simp [List.lookup_cons, he, beq_false_of_ne he]
  refine ⟨h.evolves.trans hpush.widen, h.quiet.trans (quiet_push _) hle, fun owner' x hx => ?_,
    fun x k hx => ?_, fun r source hr hw => ?_, fun r hr => ?_, fun o ho => ?_⟩
  · rcases (hlookup owner' x).mp hx with ⟨rfl, rfl⟩ | hx
    · exact ⟨hle, hn⟩
    · exact h.fresh owner' x hx
  · simp only [hlookup]
    by_cases hnew : x = g'.idBound
    · -- no shared node has this id yet
      have hother : ∀ owner', shared.lookup owner' ≠ some g'.idBound := fun owner' hx' =>
        Nat.lt_irrefl _ (g'.lt_idBound_of_kind? (h.kind?_shared hx'))
      rw [hnew, kind?_push_self]
      simp [hother, Node.ofKind]
    · rw [kind?_eq_layout?, layout?_push, if_neg hnew, ← kind?_eq_layout?, h.kind?_new x k hx]
      simp [Ne.symm hnew]
  · obtain ⟨x, i, hx, hi, hl⟩ := h.linked r source hr hw
    exact ⟨x, i, (hlookup _ _).mpr (Or.inr hx), hi, by rw [linkAt_push, hl]⟩
  · rw [linkAt_push]
    exact h.kept r hr
  · rw [fanOut_push]
    exact h.fanOut_eq o ho

/-- A wanting input is linked to its shared node. -/
theorem link (h : g.Wired reached shared g') (hg : g.WellFormed) (hw : g.Wants t source)
    (hx : shared.lookup source.owner = some x) {i : Nat}
    (hi : source.owner.kind.layout.outputSlot? source.outputName = some i)
    (hl : g'.Evolves (· = t) (g'.link ⟨x, i⟩ t)) :
    g.Wired (fun r => reached r ∨ r = t) shared (g'.link ⟨x, i⟩ t) := by
  obtain ⟨d, hd, -⟩ := hw.2
  have hd' := h.evolves.inputDecl?_some hg hd
  have hlink : ∀ r, (g'.link ⟨x, i⟩ t).linkAt r = if r = t then some ⟨x, i⟩ else g'.linkAt r :=
    g'.linkAt_link (by simp [hd'])
  obtain ⟨e, he⟩ := h.evolves.wellFormed.exists_outputDecl? (h.kind?_shared hx) hi
  refine ⟨h.evolves.trans hl.grows, h.quiet.trans (quiet_link _ _) h.evolves.idBound_le, h.fresh,
    fun y k hy => ?_, fun r source' hr hw' => ?_, fun r hr => ?_, fun o ho => ?_⟩
  · rw [kind?_eq_layout?, layout?_link, ← kind?_eq_layout?]
    exact h.kind?_new y k hy
  · rw [hlink]
    split_ifs with hrt
    · obtain rfl := (hrt ▸ hw'.2).inj hw.2
      exact ⟨x, i, hx, hi, rfl⟩
    · exact h.linked r source' (hr.resolve_right hrt) hw'
  · have hrt : r ≠ t := fun hrt => hr (Or.inr hrt) source (hrt ▸ hw)
    rw [hlink, if_neg hrt]
    exact h.kept r fun hreached => hr (Or.inl hreached)
  · have hne : o ≠ ⟨x, i⟩ := by
      rintro rfl
      exact Nat.not_le.mpr ho (h.fresh _ _ hx).1
    rw [fanOut_link _ (by simp [he]), if_neg hne]
    exact h.fanOut_eq o ho

end Wired

/-- The shared nodes have no inputs, so nothing is wanted any more once all inputs were reached. -/
theorem Wired.linkAt_ne_none (h : g.Wired (fun _ => True) shared g') (hg : g.WellFormed)
    (hd : g'.DefaultsTo r source) : g'.linkAt r ≠ none := by
  obtain ⟨d, hd, hs⟩ := hd
  obtain ⟨k, hk⟩ := g'.kind?_of_inputDecl? hd
  by_cases hlt : r.node < g.idBound
  · have hd₀ : g.inputDecl? r = some d := by
      rw [← hd]
      exact (hg.inputDecl?_congr h.evolves.wellFormed ((h.evolves.kind?_eq _ hlt).symm.trans hk) hk
        r.slot).symm
    by_cases hw : g.linkAt r = none
    · obtain ⟨x, i, -, -, hl⟩ := h.linked r source trivial ⟨hw, d, hd₀, hs⟩
      rw [hl]
      exact Option.some_ne_none _
    · rwa [h.kept r fun _ _ hw' => hw hw'.1]
  · obtain ⟨owner, -, rfl⟩ := (h.kind?_new r.node k (Nat.not_lt.mp hlt)).mp hk
    rw [h.evolves.wellFormed.inputDecl?_eq hk r.slot] at hd
    cases owner <;> simp [SharedNode.kind, NodeKind.inputDecls] at hd

/-- In the end exactly the needed nodes are there. -/
theorem Wired.exists_home (h : g.Wired (fun _ => True) shared g') :
    ∃ home : SharedNode → NodeId, (∀ owner, g.idBound ≤ home owner) ∧
      ∀ owner x, shared.lookup owner = some x ↔ g.Needs owner ∧ home owner = x := by
  refine ⟨fun owner => (shared.lookup owner).getD g.idBound, fun owner => ?_, fun owner x => ⟨?_, ?_⟩⟩
  · dsimp only
    cases hx : shared.lookup owner with
    | none => exact Nat.le_refl _
    | some x => exact (h.fresh owner x hx).1
  · intro hx
    exact ⟨(h.fresh owner x hx).2, by simp [hx]⟩
  · rintro ⟨⟨r, source, hw, rfl⟩, rfl⟩
    obtain ⟨x, -, hx, -⟩ := h.linked r source trivial hw
    simp [hx]

end Graph

namespace Edit

open Shading.Graph

variable {g g₁ : Graph} {reached : InputRef → Prop} {shared : SharedNodes} {id : NodeId}

/-- A loop over a list together with the positions in it. -/
theorem ends_foldlM_zipIdx {α β : Type} {l : List β} {f : α → β × Nat → Edit α} {a : α}
    (I : Nat → α → Graph → Prop) (h : I 0 a g)
    (step : ∀ b i a g, l[i]? = some b → I i a g → (f a (b, i)).Ends g (I (i + 1))) :
    (l.zipIdx.foldlM f a).Ends g (I l.length) := by
  refine (ends_foldlM (fun rest a g => ∃ done, l.zipIdx = done ++ rest ∧ I done.length a g)
    ⟨[], rfl, h⟩ ?_).mono ?_
  · rintro ⟨b, i⟩ rest a g ⟨done, hl, hI⟩
    have hget : l.zipIdx[done.length]? = some (b, i) := by simp [hl]
    rw [List.getElem?_zipIdx, Option.map_eq_some_iff] at hget
    obtain ⟨b', hb', heq⟩ := hget
    obtain ⟨rfl, rfl⟩ : b' = b ∧ done.length = i := by simpa using heq
    exact (step b' _ a g hb' hI).mono fun _ g' h' => ⟨done ++ [(b', done.length)], by simp [hl],
      by simpa using h'⟩
  · rintro a' g' ⟨done, hl, hI⟩
    have hlen : done.length = l.length := by simpa using (congrArg List.length hl).symm
    exact hlen ▸ hI

theorem ends_sharedNode_wired (h : g.Wired reached shared g₁) (hm : g.finalized = false)
    {owner : SharedNode} (hn : g.Needs owner) :
    (sharedNode shared owner).Ends g₁ fun p g₂ =>
      g.Wired reached p.2 g₂ ∧ p.2.lookup owner = some p.1 := by
  unfold sharedNode
  split
  · rename_i id hid
    exact ends_pure ⟨h, hid⟩
  · rename_i hnone
    exact ends_bind.mpr (ends_addKind (h.evolves.finalized.trans hm)
      (ends_pure ⟨h.push hn hnone, by simp⟩))

/-- One step of the loops. -/
theorem ends_linkDefault_wired (hg : g.WellFormed) (hm : g.finalized = false)
    (h : g.Wired reached shared g₁) {t : InputRef} {source : DefaultSource} (hw : g.Wants t source)
    (ht : ¬ reached t) :
    (linkDefault t source shared).Ends g₁ (g.Wired fun r => reached r ∨ r = t) := by
  refine Ends.bind (ends_sharedNode_wired h hm ⟨t, source, hw, rfl⟩) ?_
  rintro ⟨x, shared'⟩ g₂ ⟨h₂, hx⟩
  have hg₂ := h₂.evolves.wellFormed
  have hk := h₂.kind?_shared hx
  obtain ⟨i, hi⟩ := source.exists_outputSlot?
  obtain ⟨e, he⟩ := hg₂.exists_outputDecl? hk hi
  obtain ⟨d, hd, hs⟩ := hw.2
  obtain ⟨k, hkt⟩ := g.kind?_of_inputDecl? hd
  obtain ⟨hlinkable, hfit⟩ := NodeKind.source_fits
    (List.mem_of_getElem? ((hg.inputDecl?_eq hkt t.slot).symm.trans hd)) hs
  have hty : e.type.linksTo d.type = true := by
    rwa [DefaultSource.outputDecl_type hi ((hg₂.outputDecl?_eq hk i).symm.trans he)]
  have hd₂ := h₂.evolves.inputDecl?_some hg hd
  have hfree : g₂.linkAt t = none := (h₂.kept t fun hr => absurd hr ht).trans hw.1
  refine ends_ask_bind (hg₂.outputRef_eq hk hi) ?_
  rw [discard_bind]
  refine ends_bind.mpr (ends_connect_linked (h₂.evolves.finalized.trans hm)
    ⟨he, hd₂, hfree, hlinkable⟩ hty (ends_pure ?_))
  exact h₂.link hg hw hx hi (evolves_link hg₂ he hd₂ hfree hlinkable hty)

/-- The inner loop reaches the inputs of one node. -/
theorem ends_linkDefaults_wired (hg : g.WellFormed) (hm : g.finalized = false)
    (h : g.Wired reached shared g₁) {k : NodeKind} (hk : g.kind? id = some k)
    (hid : ∀ slot, ¬ reached ⟨id, slot⟩) :
    (linkDefaults shared id).Ends g₁ (g.Wired fun r => reached r ∨ r.node = id) := by
  have hk₁ := h.evolves.kind?_some hk
  refine meets_ask_node_bind (fun n hn => ?_) fun hnone => by simp [hnone] at hk₁
  have hlink : ∀ slot input, n.inputs[slot]? = some input → g.linkAt ⟨id, slot⟩ = input.link :=
    fun slot input hget => by
      rw [← h.kept _ fun hr => absurd hr (hid slot), g₁.linkAt_of_getElem? hn hget]
  have hdecl : ∀ slot, g.inputDecl? ⟨id, slot⟩ = n.inputs[slot]?.map (·.toInputDecl) := fun slot => by
    rw [← hg.inputDecl?_congr h.evolves.wellFormed hk hk₁ slot]
    simp [inputDecl?, input?, hn]
  refine (ends_foldlM_zipIdx (fun slot => g.Wired fun r => reached r ∨ r.node = id ∧ r.slot < slot)
    (h.congr fun r _ _ => by simp) ?_).mono ?_
  · intro input slot shared g₂ hget h₂
    have hd := hdecl slot
    rw [hget, Option.map_some] at hd
    dsimp only
    split
    · rename_i source hfree hs
      refine (ends_linkDefault_wired hg hm h₂ ⟨(hlink slot input hget).trans hfree, _, hd, hs⟩ ?_).mono
        fun _ _ h₃ => h₃.congr fun r _ _ => ?_
      · rintro (hr | ⟨-, hlt⟩)
        · exact hid slot hr
        · exact Nat.lt_irrefl _ hlt
      · obtain ⟨node, slot'⟩ := r
        simp only [InputRef.mk.injEq]
        grind
    · rename_i hother
      refine ends_pure (h₂.congr ?_)
      rintro ⟨node, slot'⟩ source ⟨hfree, d, hd', hs⟩
      -- the input at this place wants nothing
      have hne : ¬ (node = id ∧ slot' = slot) := by
        rintro ⟨rfl, rfl⟩
        rw [hd, Option.some.injEq] at hd'
        refine hother source ((hlink slot' input hget).symm.trans hfree) ?_
        rw [← hs, ← hd']
      grind
  · intro shared' g₂ h₂
    refine h₂.congr ?_
    rintro ⟨node, slot⟩ source ⟨-, d, hd, -⟩
    refine or_congr_right ⟨And.left, ?_⟩
    rintro rfl
    rw [hdecl, Option.map_eq_some_iff] at hd
    obtain ⟨input, hget, -⟩ := hd
    exact ⟨rfl, (List.getElem?_eq_some_iff.mp hget).1⟩

theorem ends_linkAllDefaults_wired (hg : g.WellFormed) (hm : g.finalized = false) :
    linkAllDefaults.Ends g fun _ g' => ∃ shared, g.Wired (fun _ => True) shared g' := by
  refine ends_get_bind (ends_discard ?_)
  refine (ends_foldlM (fun rest shared g₁ => ∃ done, g.ids = done ++ rest ∧
    g.Wired (fun r => r.node ∈ done) shared g₁) ⟨[], rfl, (Wired.refl hg).congr (by simp)⟩ ?_).mono ?_
  · rintro id rest shared g₁ ⟨done, hdone, h₁⟩
    obtain ⟨k, hk⟩ := (g.mem_ids_iff_kind?).mp (show id ∈ g.ids by simp [hdone])
    have hnew : id ∉ done := by
      have hsorted := g.pairwise_ids
      rw [hdone] at hsorted
      exact fun hid => Nat.lt_irrefl id ((List.pairwise_append.mp hsorted).2.2 id hid id (by simp))
    exact (ends_linkDefaults_wired hg hm h₁ hk fun _ => hnew).mono fun _ _ h₂ =>
      ⟨done ++ [id], by simp [hdone], h₂.congr fun _ _ _ => by simp⟩
  · rintro shared g' ⟨done, hdone, h⟩
    rw [List.append_nil] at hdone
    refine ⟨shared, h.congr ?_⟩
    rintro r source ⟨-, d, hd, -⟩
    rw [← hdone, g.mem_ids_iff_kind?, iff_true]
    exact g.kind?_of_inputDecl? hd

/-- Nothing happens to a graph in which nothing is wanted. -/
theorem run_linkAllDefaults_idle (hg : g.WellFormed) (hw : ∀ r source, ¬ g.Wants r source) :
    linkAllDefaults.run g = .ok () g := by
  have hends : linkAllDefaults.Ends g fun _ g' => g' = g := by
    refine ends_get_bind (ends_discard ?_)
    refine (ends_foldlM (fun rest _ g₁ => rest ⊆ g.ids ∧ g₁ = g) ⟨fun _ h => h, rfl⟩ ?_).mono
      fun _ _ h => h.2
    rintro id rest shared _ ⟨hids, rfl⟩
    have hrest := (List.cons_subset.mp hids).2
    obtain ⟨k, hk⟩ := (Graph.mem_ids_iff_kind? _).mp (hids List.mem_cons_self)
    refine meets_ask_node_bind (fun n hn => ?_) fun hnone => by simp [hnone] at hk
    refine (ends_foldlM_zipIdx (fun _ _ g₂ => g₂ = _) rfl ?_).mono fun _ _ h => ⟨hrest, h⟩
    rintro input slot shared _ hget rfl
    dsimp only
    split
    · rename_i source hfree hs
      refine absurd ⟨(Graph.linkAt_of_getElem? _ hn hget).trans hfree, input.toInputDecl, ?_, hs⟩
        (hw ⟨id, slot⟩ source)
      simp [inputDecl?, input?, hn, hget]
    · exact ends_pure rfl
  obtain ⟨_, g', hrun, rfl⟩ := ends_iff.mp hends
  exact hrun

/-- **Default sources are linked where they are wanted, and nothing else changes.** The wanting inputs
are linked to the outputs of at most two new nodes, which are there if something wants them. What was
linked stays so, no output that was there gets another consumer, and nothing is reported. Afterwards
all inputs with a default source are linked, and a second run leaves the graph as it is. -/
theorem run_linkAllDefaults (hg : g.WellFormed) (hm : g.finalized = false) :
    ∃ (g' : Graph) (home : SharedNode → NodeId), linkAllDefaults.run g = .ok () g' ∧ g'.WellFormed ∧
      (∀ r source, g'.DefaultsTo r source → g'.linkAt r ≠ none) ∧
      (∀ r source, g.linkAt r = none → g.DefaultsTo r source →
        ∃ i, source.owner.kind.layout.outputSlot? source.outputName = some i ∧
          g'.linkAt r = some ⟨home source.owner, i⟩) ∧
      (∀ owner, g.idBound ≤ home owner) ∧
      (∀ x k, g'.kind? x = some k ↔
        g.kind? x = some k ∨ ∃ owner, g.Needs owner ∧ home owner = x ∧ owner.kind = k) ∧
      (∀ id, id < g.idBound → g'.bare? id = g.bare? id) ∧ g'.diagnostics = g.diagnostics ∧
      (∀ r, g.linkAt r ≠ none ∨ (∀ source, ¬ g.DefaultsTo r source) → g'.linkAt r = g.linkAt r) ∧
      (∀ o, o.node < g.idBound → g'.fanOut o = g.fanOut o) ∧
      linkAllDefaults.run g' = .ok () g' := by
  obtain ⟨_, g', hrun, shared, h⟩ := ends_iff.mp (ends_linkAllDefaults_wired hg hm)
  obtain ⟨home, hnew, hhome⟩ := h.exists_home
  refine ⟨g', home, hrun, h.evolves.wellFormed, fun r source hd => h.linkAt_ne_none hg hd,
    fun r source hfree hd => ?_, hnew, fun x k => ?_, h.quiet.bare?_eq, h.quiet.diagnostics_eq,
    fun r hr => ?_, h.fanOut_eq, ?_⟩
  · obtain ⟨x, i, hx, hi, hl⟩ := h.linked r source trivial ⟨hfree, hd⟩
    exact ⟨i, hi, by rw [hl, ((hhome _ _).mp hx).2]⟩
  · by_cases hlt : x < g.idBound
    · rw [h.evolves.kind?_eq x hlt, iff_self_or]
      rintro ⟨owner, -, rfl, -⟩
      exact absurd (hnew owner) (Nat.not_le.mpr hlt)
    · have hnone : g.kind? x ≠ some k := fun hk => hlt (g.lt_idBound_of_kind? hk)
      rw [h.kind?_new x k (Nat.not_lt.mp hlt), or_iff_right hnone]
      simp only [hhome, and_assoc]
  · refine h.kept r fun _ source hw => ?_
    rcases hr with hr | hr
    · exact hr hw.1
    · exact hr source hw.2
  · exact run_linkAllDefaults_idle h.evolves.wellFormed fun r source hw =>
      h.linkAt_ne_none hg hw.2 hw.1

/-- A diffuse surface, an image texture, and a second surface whose normal is linked. -/
def twoSurfaces : Graph :=
  Primitive.runAll [.addKind .diffuse, .addKind (.imageTexture "wood"), .addKind .geometry,
    .addKind .diffuse, .connect ⟨3, 3⟩ ⟨4, 2⟩] Graph.empty

theorem run_linkAllDefaults_twoSurfaces : twoSurfaces.WellFormed ∧ twoSurfaces.finalized = false ∧
    ∃ (g' : Graph) (home : SharedNode → NodeId), linkAllDefaults.run twoSurfaces = .ok () g' ∧
      g'.linkAt ⟨1, 2⟩ = some ⟨home .geometry, 1⟩ ∧
      g'.linkAt ⟨2, 0⟩ = some ⟨home .textureCoordinate, 2⟩ ∧ g'.linkAt ⟨4, 2⟩ = some ⟨3, 3⟩ := by
  have hg : twoSurfaces.WellFormed := (Primitive.follows_runAll wellFormed_empty _).wellFormed
  have hfree : twoSurfaces.linkAt ⟨1, 2⟩ = none ∧ twoSurfaces.linkAt ⟨2, 0⟩ = none ∧
      twoSurfaces.linkAt ⟨4, 2⟩ = some ⟨3, 3⟩ := by decide +kernel
  have hnormal : twoSurfaces.DefaultsTo ⟨1, 2⟩ .normal :=
    ⟨_, hg.inputDecl?_eq (k := .diffuse) (by decide +kernel) 2, rfl⟩
  have huv : twoSurfaces.DefaultsTo ⟨2, 0⟩ .textureUv :=
    ⟨_, hg.inputDecl?_eq (k := .imageTexture "wood") (by decide +kernel) 0, rfl⟩
  obtain ⟨g', home, hrun, -, -, hlink, -, -, -, -, hkept, -⟩ := run_linkAllDefaults hg rfl
  obtain ⟨i, hi, hl⟩ := hlink _ _ hfree.1 hnormal
  obtain ⟨j, hj, hl'⟩ := hlink _ _ hfree.2.1 huv
  cases hi
  cases hj
  refine ⟨hg, rfl, g', home, hrun, hl, hl', ?_⟩
  rw [hkept _ (Or.inl (by simp [hfree.2.2])), hfree.2.2]

end Edit

end Shading
