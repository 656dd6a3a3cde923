import Shading.Proofs.Bridges
import Shading.Proofs.Connecting
import Shading.Proofs.Cutting
import Shading.Proofs.Redirection

/-!
# Moving the link of an input

The link of an input is moved in two steps: it is cut, and then its source is linked to the other
input. That the second step may be refused is not looked at. So the link arrives if and only if the
other input can take it (`Edit.run_relinkInput`), and otherwise it is lost. -/

namespace Shading

namespace Graph

variable {g g' : Graph} {n : Nat} {s : OutputRef} {t : InputRef} {e : OutputDecl} {d : InputDecl}

theorem draws_congr (h : ∀ r, g'.linkAt r = g.linkAt r) : g'.Draws n t s ↔ g.Draws n t s :=
  ⟨fun hd => hd.mono fun r _ ho => (h r).symm.trans ho,
    fun hd => hd.mono fun r _ ho => (h r).trans ho⟩

/-- As long as there are no bridges, an input draws from the output that it is linked to. -/
theorem WellFormed.draws_iff (hg : g.WellFormed) (hn : g.idBound ≤ n + 1) :
    g.Draws n t s ↔ g.linkAt t = some s := by
  have hle : ∀ o, g.linkAt t = some o → o.node ≤ n := fun o ho =>
    Nat.le_of_lt_succ (Nat.lt_of_lt_of_le (hg.source_lt ho) hn)
  constructor
  · rintro (⟨h, -⟩ | ⟨h, ho, -, -⟩)
    · exact h
    · exact absurd (hle _ h) (Nat.not_le.mpr ho)
  · intro h
    exact .direct h (hle s h)

/-- A bridge brings to its end what it takes in at its start. -/
theorem Bridge.draws {id : NodeId} {source target : SocketType} {ns : List Node} {ls : List Link}
    (hb : Bridge id s source t target ns ls) (hid : n < id) (hs : s.node ≤ n)
    (hls : ∀ l ∈ ls, g.linkAt l.target = some l.source) : g.Draws n t s := by
  cases hb with
  | conversion | strength | color =>
    have hin := hls _ List.mem_cons_self
    have hout := hls _ (List.mem_cons_of_mem _ List.mem_cons_self)
    exact .through hout hid rfl (.direct hin hs)
  | convertedColor =>
    have hin := hls _ List.mem_cons_self
    have hmid := hls _ (List.mem_cons_of_mem _ List.mem_cons_self)
    have hout := hls _ (List.mem_cons_of_mem _ (List.mem_cons_of_mem _ List.mem_cons_self))
    exact .through hout hid rfl (.through hmid (Nat.lt_succ_of_lt hid) rfl (.direct hin hs))

/-- After an input and an output were to be linked, the one draws from the other if and only if it
was linked to it before, or could take the link. -/
theorem Joins.draws_iff {c : Connection} (h : g.Joins s e t d c g') (hg : g.WellFormed)
    (hs : s.node ≤ n) (hn : g.idBound = n + 1) :
    g'.Draws n t s ↔ g.linkAt t = some s ∨
      g.linkAt t = none ∧ d.linkable = true ∧ (e.type = .closure → d.type = .closure) := by
  cases h with
  | rejected hc =>
    have hclosed : ¬ (g.linkAt t = none ∧ d.linkable = true ∧
        (e.type = .closure → d.type = .closure)) := by
      rintro ⟨hfree, hl, hcl⟩
      rcases exists_refuses_iff.mp ⟨_, hc⟩ with h | h | ⟨he, hd⟩
      · exact h hfree
      · simp [hl] at h
      · exact hd (hcl he)
    rw [or_iff_left hclosed, ← hg.draws_iff (Nat.le_of_eq hn)]
    exact draws_congr fun _ => rfl
  | linked hty hj hgains =>
    have hlink := (hgains.linkAt_iff t s).mpr (Or.inr (List.mem_singleton_self _))
    exact iff_of_true (.direct hlink hs)
      (Or.inr ⟨hj.free, hj.linkable, fun he => (linksTo_of_closure he).mp hty⟩)
  | converted _ he hj hb hgains =>
    have hdraws := hb.draws (hn ▸ Nat.lt_succ_self n) hs fun l hl =>
      (hgains.linkAt_iff l.target l.source).mpr (Or.inr hl)
    exact iff_of_true hdraws
      (Or.inr ⟨hj.free, hj.linkable, fun h => absurd h he⟩)

/-- Cutting the link of another input does not change what an input can take, and an input can take
its own link again. -/
theorem WellFormed.takes_unlink_iff (hg : g.WellFormed) {r : InputRef} (hr : g.linkAt r = some s)
    (hs : g.outputDecl? s = some e) (ht : g.inputDecl? t = some d) :
    ((g.unlink s r).linkAt t = some s ∨ (g.unlink s r).linkAt t = none ∧ d.linkable = true ∧
        (e.type = .closure → d.type = .closure)) ↔
      g.linkAt t = some s ∨
        g.linkAt t = none ∧ d.linkable = true ∧ (e.type = .closure → d.type = .closure) := by
  rw [linkAt_unlink]
  split_ifs with heq
  · subst heq
    obtain ⟨hl, hty⟩ := hg.typed t s d e hr ht hs
    exact iff_of_true (Or.inr ⟨rfl, hl, fun he => (linksTo_of_closure he).mp hty⟩) (Or.inl hr)
  · rfl

end Graph

namespace Edit

open Shading.Graph

variable {g : Graph}

/-- The link is cut, its source is linked to the other input, and the literal is stored there. -/
theorem ends_relinkInput (hg : g.WellFormed) (hm : g.finalized = false) {s t : InputRef}
    {u : OutputRef} {e : OutputDecl} {d : InputDecl} (hs : g.linkAt s = some u)
    (hu : g.outputDecl? u = some e) (ht : g.inputDecl? t = some d) :
    (relinkInput s t).Ends g fun _ g' => ∃ c g₁ l, (g.unlink u s).Joins u e t d c g₁ ∧
      g₁.inputDecl? t = some d ∧ (s ≠ t → g₁.linkAt s = none) ∧
      g.literalAt s = some l ∧ g' = g₁.modifyInput t (Input.store l) := by
  obtain ⟨i, hi, hl⟩ := Option.bind_eq_some_iff.mp hs
  have hcut := trims_unlink hg hs
  have hlt : s.node < (g.unlink u s).idBound :=
    hcut.idBound_eq ▸ node_lt_of_linkAt (by rw [hs]; exact Option.some_ne_none u)
  refine meets_requireMutable_bind (fun _ => ?_) fun hf => by simp [hm] at hf
  refine ends_ask_bind ((g.input_eq_ok).mpr hi) ?_
  rw [hl]
  refine Ends.bind (ends_disconnectInput_unlink hm hs) ?_
  rintro _ _ rfl
  dsimp only
  rw [discard_bind]
  refine Ends.bind ((ends_connect_joins (hcut.finalized.trans hm)
    (hcut.evolves.outputDecl?_some hg hu) ((hcut.inputDecl?_eq t).trans ht)).and_meets
      (meets_connect_evolves hcut.wellFormed u t)) ?_
  rintro c g₁ ⟨hjoin, hev⟩
  have ht₁ := hev.inputDecl?_some hcut.wellFormed ((hcut.inputDecl?_eq t).trans ht)
  have hm₁ := hev.finalized.trans (hcut.finalized.trans hm)
  refine (ends_store_eq hm₁ ht₁ i.literal).mono ?_
  rintro _ _ rfl
  refine ⟨c, g₁, i.literal, hjoin, ht₁, fun hne => ?_, by simp [literalAt, hi], rfl⟩
  rw [hev.linkAt_eq s hlt hne, hcut.cut s rfl]

/-- **The link of an input is moved if and only if the other input can take it.** It never fails if
both inputs are there. The other input then draws from the source of the link, directly or through
new nodes, if it was linked to it already, or if it is free and takes links, and closures if the
source gives one. In any case it gets the literal, and the link is gone from where it was. -/
theorem run_relinkInput (hg : g.WellFormed) (hm : g.finalized = false) {s t : InputRef}
    {u : OutputRef} {e : OutputDecl} {d : InputDecl} (hs : g.linkAt s = some u)
    (hu : g.outputDecl? u = some e) (ht : g.inputDecl? t = some d) :
    ∃ g', (relinkInput s t).run g = .ok () g' ∧
      (g'.Draws (g.idBound - 1) t u ↔ g.linkAt t = some u ∨
        g.linkAt t = none ∧ d.linkable = true ∧ (e.type = .closure → d.type = .closure)) ∧
      g'.literalAt t = (g.literalAt s).map (·.convert d.type false) ∧
      (s ≠ t → g'.linkAt s = none) := by
  have hcut := trims_unlink hg hs
  have hlt := hg.source_lt hs
  obtain ⟨_, _, hrun, c, g₁, l, hjoin, ht₁, hgone, hl, rfl⟩ :=
    ends_iff.mp (ends_relinkInput hg hm hs hu ht)
  refine ⟨_, hrun, ?_, ?_, fun hne => ?_⟩
  · rw [draws_congr (g₁.linkAt_store t l), ← hg.takes_unlink_iff hs hu ht]
    exact hjoin.draws_iff hcut.wellFormed (Nat.le_sub_one_of_lt hlt)
      (hcut.idBound_eq.trans (Nat.sub_add_cancel (Nat.zero_lt_of_lt hlt)).symm)
  · rw [literalAt_store, if_pos rfl, ht₁, hl]
    rfl
  · rw [linkAt_store, hgone hne]

/-- A value that is a summand. -/
def summand : Graph :=
  Primitive.runAll [.addKind .value, .addKind (.math .add false), .connect ⟨1, 0⟩ ⟨2, 0⟩] Graph.empty

/-- The link can be moved to the displacement, where a conversion is put in between. -/
theorem run_relinkInput_summand :
    summand.WellFormed ∧ summand.linkAt ⟨2, 0⟩ = some ⟨1, 0⟩ ∧
      ∃ g', (relinkInput ⟨2, 0⟩ ⟨0, 2⟩).run summand = .ok () g' ∧ g'.Draws 2 ⟨0, 2⟩ ⟨1, 0⟩ ∧
        g'.linkAt ⟨2, 0⟩ = none := by
  have hg : summand.WellFormed := (Primitive.follows_runAll wellFormed_empty _).wellFormed
  obtain ⟨g', hrun, hdraws, -, hgone⟩ :=
    run_relinkInput hg rfl (s := ⟨2, 0⟩) (t := ⟨0, 2⟩) (u := ⟨1, 0⟩) rfl rfl rfl
  exact ⟨hg, rfl, g', hrun, hdraws.mpr (Or.inr ⟨rfl, rfl, nofun⟩), hgone (by decide)⟩

/-- Two values that are the summands of a sum. -/
def twoSummands : Graph :=
  Primitive.runAll [.addKind .value, .addKind .value, .addKind (.math .add false),
    .connect ⟨1, 0⟩ ⟨3, 0⟩, .connect ⟨2, 0⟩ ⟨3, 1⟩] Graph.empty

/-- If the first summand is to be moved to the place of the second one, its link is lost. -/
theorem relinkInput_twoSummands :
    twoSummands.WellFormed ∧ twoSummands.finalized = false ∧
      twoSummands.linkAt ⟨3, 0⟩ = some ⟨1, 0⟩ ∧ (twoSummands.inputDecl? ⟨3, 1⟩).isSome = true ∧
      ∃ g', (relinkInput ⟨3, 0⟩ ⟨3, 1⟩).run twoSummands = .ok () g' ∧
        ¬ g'.Draws 3 ⟨3, 1⟩ ⟨1, 0⟩ ∧ g'.fanOut ⟨1, 0⟩ = [] := by
  have hrun : (relinkInput ⟨3, 0⟩ ⟨3, 1⟩).Ends twoSummands fun _ g' =>
      g'.linkAt ⟨3, 1⟩ = some ⟨2, 0⟩ ∧ g'.fanOut ⟨1, 0⟩ = [] := by decide +kernel
  obtain ⟨_, g', hrun, hlink, hfan⟩ := ends_iff.mp hrun
  refine ⟨(Primitive.follows_runAll wellFormed_empty _).wellFormed, rfl, rfl, rfl, g', hrun, ?_,
    hfan⟩
  rintro (⟨h, -⟩ | ⟨h, ho, -, -⟩)
  · simp [hlink] at h
  · rw [hlink, Option.some.injEq] at h
    subst h
    exact absurd ho (by decide)

end Edit

end Shading
