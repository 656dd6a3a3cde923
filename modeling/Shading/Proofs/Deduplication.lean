import Shading.Proofs.Exact
import Shading.Proofs.Retention
import Shading.Proofs.Schedule

/-!
# Deduplication

Merging goes over the nodes once, each after the nodes that feed it. A node is merged into the first
candidate that computes the same (`Graph.Twins`), or becomes a candidate itself. One step of this is
`Scan.Step`. What was handed out keeps its links from then on, so candidates stay apart, and all
other nodes that were handed out feed nothing (`Scan.Valid`). -/

namespace Shading

open Relation

theorem Node.sameInput_iff {i j : Input} (h : i.link = j.link) :
    Node.sameInput i j = true ↔ (i.link = none → (i.literal == j.literal) = true) := by
  unfold Node.sameInput
  rw [← h]
  cases i.link <;> simp

theorem Node.typeName_eq_of_interchangeable {m n : Node} (h : m.interchangeable n = true) :
    m.typeName = n.typeName := by
  simp only [Node.interchangeable, Node.agrees, Bool.and_eq_true, beq_iff_eq] at h
  exact congrArg NodeKind.typeName h.1.1.1.1

namespace Graph

variable {g g' : Graph} {a b t x : NodeId}

/-! ### Twins -/

/-- Two nodes compute the same: they are of one kind, are evaluated for the same sample, and receive
the same, be it a link or a literal. -/
structure Twins (g : Graph) (a b : NodeId) : Prop where
  kind : g.kind? a = g.kind? b
  bump : (g.node? a).map (·.bump) = (g.node? b).map (·.bump)
  links : ∀ slot, g.linkAt ⟨a, slot⟩ = g.linkAt ⟨b, slot⟩
  literals : ∀ slot, g.linkAt ⟨a, slot⟩ = none →
    (g.literalAt ⟨a, slot⟩ == g.literalAt ⟨b, slot⟩) = true

theorem Twins.symm (h : g.Twins a b) : g.Twins b a := by
  refine ⟨h.kind.symm, h.bump.symm, fun slot => (h.links slot).symm, fun slot hs => ?_⟩
  rw [Literal.option_beq_comm]
  exact h.literals slot ((h.links slot).trans hs)

theorem WellFormed.length_inputs_congr (hg : g.WellFormed) (hg' : g'.WellFormed) {m n : Node}
    (hm : g.node? a = some m) (hn : g'.node? b = some n) (hkind : m.kind = n.kind) :
    m.inputs.length = n.inputs.length := by
  have hlayout : m.layout = n.layout := by
    rw [hg.laidOut a m hm, hg'.laidOut b n hn, hkind]
  simpa [Node.layout] using congrArg (fun l : Layout => l.inputs.length) hlayout

theorem twins_iff_inputs {m n : Node} (hm : g.node? a = some m) (hn : g.node? b = some n)
    (hlen : m.inputs.length = n.inputs.length) :
    g.Twins a b ↔ m.kind = n.kind ∧ m.bump = n.bump ∧
      ∀ p ∈ m.inputs.zip n.inputs, p.1.link = p.2.link ∧
        (p.1.link = none → (p.1.literal == p.2.literal) = true) := by
  have hslot : ∀ slot (hs : slot < m.inputs.length) (hs' : slot < n.inputs.length),
      g.input? ⟨a, slot⟩ = some m.inputs[slot] ∧ g.input? ⟨b, slot⟩ = some n.inputs[slot] :=
    fun slot hs hs' => ⟨by simp [input?, hm, hs], by simp [input?, hn, hs']⟩
  constructor
  · intro h
    refine ⟨by simpa [kind?, hm, hn] using h.kind, by simpa [hm, hn] using h.bump, fun p hp => ?_⟩
    obtain ⟨slot, hs, rfl⟩ := List.mem_iff_getElem.mp hp
    simp only [List.length_zip, Nat.lt_min] at hs
    obtain ⟨ha, hb⟩ := hslot slot hs.1 hs.2
    have hl := h.links slot
    have hlit := h.literals slot
    simp only [linkAt, literalAt, ha, hb, Option.bind_some, Option.map_some] at hl hlit
    rw [List.getElem_zip]
    exact ⟨hl, hlit⟩
  · rintro ⟨hkind, hbump, hzip⟩
    have hinputs : ∀ slot, g.linkAt ⟨a, slot⟩ = g.linkAt ⟨b, slot⟩ ∧ (g.linkAt ⟨a, slot⟩ = none →
        (g.literalAt ⟨a, slot⟩ == g.literalAt ⟨b, slot⟩) = true) := by
      intro slot
      by_cases hs : slot < m.inputs.length
      · have hs' : slot < n.inputs.length := hlen ▸ hs
        obtain ⟨ha, hb⟩ := hslot slot hs hs'
        simp only [linkAt, literalAt, ha, hb, Option.bind_some, Option.map_some]
        exact hzip (m.inputs[slot], n.inputs[slot])
          (List.mem_iff_getElem.mpr ⟨slot, by simp [hs, hs'], by simp⟩)
      · have hs' : ¬ slot < n.inputs.length := hlen ▸ hs
        simp [linkAt, literalAt, input?, hm, hn, Nat.not_lt.mp hs, Nat.not_lt.mp hs']
    exact ⟨by simp [kind?, hm, hn, hkind], by simp [hm, hn, hbump], fun slot => (hinputs slot).1,
      fun slot => (hinputs slot).2⟩

theorem WellFormed.interchangeable_iff (hg : g.WellFormed) {m n : Node} (hm : g.node? a = some m)
    (hn : g.node? b = some n) : m.interchangeable n = true ↔ g.Twins a b := by
  simp only [Node.interchangeable, Node.agrees, Bool.and_eq_true, beq_iff_eq, List.all_eq_true]
  constructor
  · rintro ⟨⟨⟨⟨hkind, hbump⟩, hlen⟩, hsame⟩, hlinks⟩
    refine (twins_iff_inputs hm hn hlen).mpr ⟨hkind, hbump, fun p hp => ?_⟩
    exact ⟨hlinks p hp, (Node.sameInput_iff (hlinks p hp)).mp (hsame p hp)⟩
  · intro h
    have hkind : m.kind = n.kind := by simpa [kind?, hm, hn] using h.kind
    have hlen := hg.length_inputs_congr hg hm hn hkind
    obtain ⟨-, hbump, hzip⟩ := (twins_iff_inputs hm hn hlen).mp h
    refine ⟨⟨⟨⟨hkind, hbump⟩, hlen⟩, fun p hp => ?_⟩, fun p hp => (hzip p hp).1⟩
    exact (Node.sameInput_iff (hzip p hp).1).mpr (hzip p hp).2

/-- **Buckets.** Only candidates whose type has the name of the type of a node can be its twin, so
that the others need not be looked at. -/
theorem twin?_eq_twin?_filter (g : Graph) (n : Node) (candidates : List NodeId) :
    g.twin? n candidates =
      g.twin? n (candidates.filter fun id => (g.node? id).any (·.typeName == n.typeName)) := by
  unfold twin?
  rw [List.find?_filter]
  refine congrArg (List.find? · candidates) (funext fun id => ?_)
  cases g.node? id with
  | none => rfl
  | some m =>
    by_cases h : n.interchangeable m = true
    · simp [h, Node.typeName_eq_of_interchangeable h]
    · simp [h]

/-! ### Merging one node -/

/-- The node `x` is merged into the node `t`: what was linked to `x` is linked to `t`, the inputs of
`x` are unlinked, and that is all. -/
structure Absorbs (x t : NodeId) (g g' : Graph) : Prop where
  grows : g.Grows g'
  idBound_eq : g'.idBound = g.idBound
  same : g.SameNodes g'
  linkAt_eq : ∀ r, g'.linkAt r =
    if r.node = x then none
    else (g.linkAt r).map fun o => if o.node = x then ⟨t, o.slot⟩ else o

theorem SameNodes.bump_eq (h : g.SameNodes g') (id : NodeId) :
    (g'.node? id).map (·.bump) = (g.node? id).map (·.bump) := by
  rw [bump_eq_map, bump_eq_map, h id]

theorem SameNodes.literalAt_eq (h : g.SameNodes g') (r : InputRef) :
    g'.literalAt r = g.literalAt r := by
  rw [literalAt_eq_bind, literalAt_eq_bind, h r.node]

theorem SameNodes.kind_bump_eq (h : g.SameNodes g') {n n' : Node} (hn : g.node? x = some n)
    (hn' : g'.node? x = some n') : n'.kind = n.kind ∧ n'.bump = n.bump := by
  have hc := h x
  simp only [hn, hn', Option.map_some, Option.some.injEq, Node.content, Prod.mk.injEq] at hc
  exact ⟨hc.1.symm, hc.2.1.symm⟩

theorem SameNodes.ids_eq (h : g.SameNodes g') {id : NodeId} : id ∈ g'.ids ↔ id ∈ g.ids := by
  rw [mem_ids_iff_kind?, mem_ids_iff_kind?, h.kind?_eq]

/-- Nodes that keep their links stay apart. -/
theorem SameNodes.twins (h : g.SameNodes g')
    (ha : ∀ slot, g'.linkAt ⟨a, slot⟩ = g.linkAt ⟨a, slot⟩)
    (hb : ∀ slot, g'.linkAt ⟨b, slot⟩ = g.linkAt ⟨b, slot⟩) (htw : g'.Twins a b) : g.Twins a b := by
  refine ⟨?_, ?_, fun slot => ?_, fun slot hs => ?_⟩
  · rw [← h.kind?_eq, htw.kind, h.kind?_eq]
  · rw [← h.bump_eq, htw.bump, h.bump_eq]
  · rw [← ha, htw.links, hb]
  · have hl := htw.literals slot ((ha slot).trans hs)
    rwa [h.literalAt_eq, h.literalAt_eq] at hl

/-- Some outputs of `x` have been moved to `t`. With the first of them, the inputs of `x` are
unlinked. -/
structure Moves (x t : NodeId) (moved : List Nat) (g g' : Graph) : Prop where
  grows : g.Grows g'
  idBound_eq : g'.idBound = g.idBound
  linkAt_eq : ∀ r, g'.linkAt r =
    if r.node = x then if moved = [] then g.linkAt r else none
    else (g.linkAt r).map fun o => if o.node = x ∧ o.slot ∈ moved then ⟨t, o.slot⟩ else o

theorem Moves.refl (hg : g.WellFormed) : g.Moves x t [] g :=
  ⟨.refl hg, rfl, fun r => by simp⟩

/-- One more output is moved. -/
theorem Moves.bypass {g'' : Graph} {moved : List Nat} {slot : Nat} (h : g.Moves x t moved g')
    (hxt : x ≠ t) (hloop : ¬ g.Feeds x x) (h' : g'.Bypasses x ⟨x, slot⟩ ⟨t, slot⟩ g'') :
    g.Moves x t (moved ++ [slot]) g'' := by
  refine ⟨h.grows.trans h'.evolves.grows, h'.idBound_eq.trans h.idBound_eq, fun r => ?_⟩
  rw [h'.linkAt_eq, h.linkAt_eq]
  by_cases hr : r.node = x
  · have hne : g.linkAt r ≠ some ⟨x, slot⟩ := fun ho => hloop (hr ▸ feeds_of_linkAt ho)
    simp only [hr, if_true, List.append_eq_nil_iff, List.cons_ne_nil, and_false, if_false]
    split_ifs <;> simp_all
  · simp only [hr, if_false]
    cases ho : g.linkAt r with
    | none => simp
    | some o =>
      obtain ⟨y, i⟩ := o
      by_cases hy : y = x
      · subst hy
        by_cases hi : i ∈ moved
        · simp [hi, hxt.symm]
        · by_cases his : i = slot
          · subst his
            simp [hi]
          · simp [hi, his]
      · simp [hy]

/-- All outputs that feed something have been moved, and there is one. -/
theorem Moves.absorbs {moved : List Nat} (h : g.Moves x t moved g') (hsame : g.SameNodes g')
    (hused : ¬ g.Unused x)
    (hall : ∀ r o, g.linkAt r = some o → o.node = x → o.slot ∈ moved) : g.Absorbs x t g' := by
  refine ⟨h.grows, h.idBound_eq, hsame, fun r => ?_⟩
  simp only [Unused, not_forall, not_not] at hused
  obtain ⟨r', o', ho', hox'⟩ := hused
  rw [h.linkAt_eq, if_neg (List.ne_nil_of_mem (hall r' o' ho' hox'))]
  split_ifs
  · rfl
  · cases ho : g.linkAt r with
    | none => rfl
    | some o =>
      by_cases hox : o.node = x
      · simp [hox, hall r o ho hox]
      · simp [hox]

namespace Absorbs

variable (h : g.Absorbs x t g')
include h

theorem linkAt_some {r : InputRef} {s : OutputRef} (hs : g'.linkAt r = some s) :
    r.node ≠ x ∧ ∃ o, g.linkAt r = some o ∧
      (o.node ≠ x ∧ s = o ∨ o.node = x ∧ s = ⟨t, o.slot⟩) := by
  rw [h.linkAt_eq] at hs
  split_ifs at hs with hr
  obtain ⟨o, ho, rfl⟩ := Option.map_eq_some_iff.mp hs
  refine ⟨hr, o, ho, ?_⟩
  split_ifs with hox
  · exact Or.inr ⟨hox, rfl⟩
  · exact Or.inl ⟨hox, rfl⟩

/-- Nodes that the merged node does not feed keep their links. -/
theorem linkAt_kept {r : InputRef} (hr : r.node ≠ x) (hf : ¬ g.Feeds x r.node) :
    g'.linkAt r = g.linkAt r := by
  rw [h.linkAt_eq, if_neg hr]
  cases ho : g.linkAt r with
  | none => rfl
  | some o =>
    have hox : o.node ≠ x := fun hox => hf (hox ▸ feeds_of_linkAt ho)
    rw [Option.map_some, if_neg hox]

theorem merges : g.Merges x t g' := by
  refine ⟨h.grows, fun r s hs => ?_, fun r hr hl => ?_⟩
  · obtain ⟨-, o, ho, ⟨-, rfl⟩ | ⟨rfl, rfl⟩⟩ := h.linkAt_some hs
    · exact Or.inl ho
    · exact Or.inr ⟨ho, rfl⟩
  · rw [h.linkAt_eq, if_neg hr]
    simpa using hl

theorem unused (hxt : x ≠ t) : g'.Unused x := by
  intro r s hs hsx
  obtain ⟨-, o, -, ⟨hox, rfl⟩ | ⟨-, rfl⟩⟩ := h.linkAt_some hs
  · exact hox hsx
  · exact hxt hsx.symm

/-- No other node is fed for the first time. -/
theorem unused_of_ne {y : NodeId} (hyt : y ≠ t) (hy : g.Unused y) : g'.Unused y := by
  intro r s hs hsy
  obtain ⟨-, o, ho, ⟨-, rfl⟩ | ⟨-, rfl⟩⟩ := h.linkAt_some hs
  · exact hy r s ho hsy
  · exact hyt hsy.symm

theorem acyclic (hg : g.WellFormed) (hac : g.Acyclic) (htw : g.Twins x t) : g'.Acyclic :=
  acyclic_of_acc fun _ => h.merges.acc (fun slot => (htw.links slot).symm)
    (hg.acc_of_acyclic hac _) (Or.inl rfl)

end Absorbs

end Graph

namespace Edit

open Shading.Graph

variable {g : Graph} {x t : NodeId} {k : NodeKind}

/-- The outputs of a node are moved one after the other. -/
theorem ends_mergeInto_absorbs (hg : g.WellFormed) (hm : g.finalized = false)
    (hk : g.kind? x = some k) (ht : g.kind? t = some k) (hxt : x ≠ t) (hloop : ¬ g.Feeds x x)
    (hused : ¬ g.Unused x) : (mergeInto x t).Ends g fun _ => g.Absorbs x t := by
  have hend : (mergeInto x t).Ends g fun _ g' => ∃ moved, g.Moves x t moved g' ∧
      ∀ slot e, g.outputDecl? ⟨x, slot⟩ = some e → slot ∈ moved := by
    refine meets_ask_node_bind (fun n hn => ?_) fun hnone => by simp [hnone] at hk
    refine (ends_forM (fun rest g' => ∃ moved, List.range n.outputs.length = moved ++ rest ∧
      g.Moves x t moved g') ⟨[], rfl, .refl hg⟩ ?_).mono ?_
    · rintro slot rest g' ⟨moved, hrange, h⟩
      have hslot : slot < n.outputs.length := List.mem_range.mp (by simp [hrange])
      obtain ⟨e, he⟩ := (g.exists_outputDecl?_iff hn slot).mpr hslot
      have het := (hg.outputDecl?_congr hg hk ht slot).trans he
      refine (ends_bypass h.grows.wellFormed (h.grows.finalized.trans hm) (h.grows.kind?_some hk)
        (h.grows.outputDecl?_some hg he) (h.grows.outputDecl?_some hg het)
        (SocketType.linksTo_self _)).mono fun _ g'' h' => ?_
      exact ⟨moved ++ [slot], by simp [hrange], h.bypass hxt hloop h'⟩
    · rintro _ g' ⟨moved, hrange, h⟩
      rw [List.append_nil] at hrange
      refine ⟨moved, h, fun slot e he => ?_⟩
      rw [← hrange, List.mem_range]
      exact (g.exists_outputDecl?_iff hn slot).mp ⟨e, he⟩
  refine (hend.and_meets (retains_mergeInto (B := g.idBound) x t g)).mono ?_
  rintro _ g' ⟨⟨moved, h, hall⟩, hkeep⟩
  refine h.absorbs (hkeep.sameNodes h.idBound_eq) hused fun r o ho hox => ?_
  obtain ⟨e, he⟩ := hg.exists_output ho
  exact hall o.slot e (hox ▸ he)

end Edit

/-! ### The scan -/

/-- How far merging has come: what is left to do, the candidates, and the graph. -/
structure Scan where
  worklist : Worklist
  candidates : List NodeId
  graph : Graph

namespace Scan

open Shading.Graph

/-- One node is handed out. It feeds nothing and is passed over, or becomes a candidate, or is
merged into one. -/
inductive Step : Scan → Scan → Prop
  | skip {w w' : Worklist} {candidates : List NodeId} {g : Graph} {x : NodeId}
    (hx : w.next? = some (x, w')) (hx' : g.Unused x) :
    Step ⟨w, candidates, g⟩ ⟨w'.scheduleConsumers g x, candidates, g⟩
  | keep {w w' : Worklist} {candidates : List NodeId} {g : Graph} {x : NodeId}
    (hx : w.next? = some (x, w')) (hnew : ∀ c ∈ candidates, ¬ g.Twins x c) :
    Step ⟨w, candidates, g⟩ ⟨w'.scheduleConsumers g x, candidates ++ [x], g⟩
  | merge {w w' : Worklist} {candidates : List NodeId} {g g' : Graph} {x t : NodeId}
    (hx : w.next? = some (x, w')) (hused : ¬ g.Unused x) (ht : t ∈ candidates)
    (htw : g.Twins x t) (h : g.Absorbs x t g') :
    Step ⟨w, candidates, g⟩ ⟨w'.scheduleConsumers g x, candidates, g'⟩

/-- What holds between two nodes: nodes are handed out in order, and those that were handed out feed
nothing unless they are candidates. -/
structure Valid (s : Scan) : Prop where
  wellFormed : s.graph.WellFormed
  acyclic : s.graph.Acyclic
  within : s.worklist.Within s.graph
  sound : s.worklist.Sound {id | id ∈ s.graph.ids} s.graph
  ordered : s.worklist.Ordered s.graph.idBound s.graph
  handed : ∀ c ∈ s.candidates, c ∈ s.worklist.done
  unused : ∀ x ∈ s.worklist.done, x ∉ s.candidates → s.graph.Unused x

/-- No two candidates compute the same. -/
def Apart (s : Scan) : Prop :=
  ∀ a ∈ s.candidates, ∀ b ∈ s.candidates, a ≠ b → ¬ s.graph.Twins a b

variable {s s' : Scan}

theorem valid_start {g : Graph} (hg : g.WellFormed) (hac : g.Acyclic) :
    Valid ⟨.ofGraph g, [], g⟩ :=
  ⟨hg, hac, Worklist.within_ofGraph g, Worklist.sound_ofGraph g, Worklist.ordered_ofGraph g,
    fun _ hc => absurd hc List.not_mem_nil, fun _ hx => absurd hx List.not_mem_nil⟩

/-- What is handed out next is none of the candidates, and feeds none of them. -/
theorem Valid.next {w w' : Worklist} {candidates : List NodeId} {g : Graph} {x : NodeId}
    (h : Valid ⟨w, candidates, g⟩) (hx : w.next? = some (x, w')) :
    ∀ c ∈ candidates, c ≠ x ∧ ¬ g.Feeds x c := by
  obtain ⟨hpast, -, -⟩ := h.ordered.next h.sound hx
  intro c hc
  have hdone := h.handed c hc
  refine ⟨fun heq => hpast (Or.inl (heq ▸ hdone)), fun hf => ?_⟩
  exact hpast (h.ordered.fed x c hf (Or.inr hdone))

theorem Step.valid (h : s.Step s') (hs : s.Valid) : s'.Valid := by
  cases h with
  | skip hx hunused =>
    obtain ⟨hs', hdone, -⟩ := hs.sound.next hs.wellFormed hx
    obtain ⟨-, -, ho'⟩ := hs.ordered.next hs.sound hx
    refine ⟨hs.wellFormed, hs.acyclic, (hs.within.next hx).2.scheduleConsumers _ _, hs', ho',
      fun c hc => ?_, fun y hy hyc => ?_⟩
    · rw [hdone]
      exact List.mem_cons_of_mem _ (hs.handed c hc)
    · rw [hdone, List.mem_cons] at hy
      rcases hy with rfl | hy
      · exact hunused
      · exact hs.unused y hy hyc
  | keep hx hnew =>
    obtain ⟨hs', hdone, -⟩ := hs.sound.next hs.wellFormed hx
    obtain ⟨-, -, ho'⟩ := hs.ordered.next hs.sound hx
    refine ⟨hs.wellFormed, hs.acyclic, (hs.within.next hx).2.scheduleConsumers _ _, hs', ho',
      fun c hc => ?_, fun y hy hyc => ?_⟩
    · rw [hdone, List.mem_cons]
      exact (List.mem_append.mp hc).symm.imp List.mem_singleton.mp (hs.handed c)
    · rw [hdone, List.mem_cons] at hy
      rw [List.mem_append, List.mem_singleton, not_or] at hyc
      exact hs.unused y (hy.resolve_left hyc.2) hyc.1
  | merge hx hused ht htw h =>
    rename_i w w' candidates g g' x t
    obtain ⟨hs', hdone, hwait⟩ := hs.sound.next hs.wellFormed hx
    obtain ⟨-, -, ho'⟩ := hs.ordered.next hs.sound hx
    obtain ⟨hxt, -⟩ := hs.next hx t ht
    have hdone' : ∀ c ∈ candidates, c ∈ (w'.scheduleConsumers g x).done := fun c hc => by
      rw [hdone]
      exact List.mem_cons_of_mem _ (hs.handed c hc)
    refine ⟨h.grows.wellFormed, h.acyclic hs.wellFormed hs.acyclic htw,
      ((hs.within.next hx).2.scheduleConsumers _ _).mono fun id => h.same.ids_eq.mpr, ?_, ?_,
      hdone', fun y hy hyc => ?_⟩
    · refine (hs'.relink fun r o hr ho hl => ?_).mono fun id => h.same.ids_eq.mp
      have hrx : r.node ≠ x := fun heq => hwait (heq ▸ hr)
      have hox : o.node ≠ x := fun heq => ho (by simp [heq, hdone])
      rw [h.linkAt_eq, if_neg hrx, hl, Option.map_some, if_neg hox]
    · show Worklist.Ordered g'.idBound g' _
      rw [h.idBound_eq]
      refine ho'.relink fun r s hs' => ?_
      obtain ⟨-, o, ho, ⟨-, rfl⟩ | ⟨-, rfl⟩⟩ := h.linkAt_some hs'
      · exact ⟨_, ho, fun hp => hp⟩
      · exact ⟨o, ho, fun _ => Or.inl (hdone' t ht)⟩
    · rw [hdone, List.mem_cons] at hy
      rcases hy with rfl | hy
      · exact h.unused hxt.symm
      · exact h.unused_of_ne (fun heq => hyc (heq ▸ ht)) (hs.unused y hy hyc)

theorem Step.apart (h : s.Step s') (hs : s.Valid) (ha : s.Apart) : s'.Apart := by
  cases h with
  | skip hx hunused => exact ha
  | keep hx hnew =>
    intro a hac b hbc hab htw
    rw [List.mem_append, List.mem_singleton] at hac hbc
    rcases hac with hac | rfl
    · rcases hbc with hbc | rfl
      · exact ha a hac b hbc hab htw
      · exact hnew a hac htw.symm
    · rcases hbc with hbc | rfl
      · exact hnew b hbc htw
      · exact hab rfl
  | merge hx hused ht htw h =>
    intro a hac b hbc hab htw'
    have hkept : ∀ c ∈ _, ∀ slot, _ := fun c hc slot =>
      h.linkAt_kept (r := ⟨c, slot⟩) (hs.next hx c hc).1 (hs.next hx c hc).2
    exact ha a hac b hbc hab (h.same.twins (hkept a hac) (hkept b hbc) htw')

/-- Once the queue is empty, all nodes that feed something are candidates. -/
theorem Valid.mem_candidates (h : s.Valid) (hq : s.worklist.queue = []) {x : NodeId}
    (hx : x ∈ s.graph.ids) (hused : ¬ s.graph.Unused x) : x ∈ s.candidates := by
  by_contra hc
  refine hused (h.unused x ?_ hc)
  refine h.sound.mem_done (fun a b hab _ => ?_) hq hx (h.wellFormed.acc_of_acyclic h.acyclic x)
  exact (h.wellFormed.mem_ids_of_feeds hab).1

/-- Whatever every step keeps holds in the end. -/
theorem Valid.steps (hs : s.Valid) (h : ReflTransGen Step s s') {P : Scan → Prop} (hP : P s)
    (step : ∀ {s s' : Scan}, s.Step s' → s.Valid → P s → P s') : s'.Valid ∧ P s' := by
  induction h with
  | refl => exact ⟨hs, hP⟩
  | tail _ hstep ih => exact ⟨hstep.valid ih.1, step hstep ih.1 ih.2⟩

end Scan

namespace Edit

open Shading.Graph

/-- Merging makes one step after the other until the queue is empty. -/
theorem ends_mergeAll_steps {g : Graph} {w : Worklist} {candidates : List NodeId}
    (hs : Scan.Valid ⟨w, candidates, g⟩) (hm : g.finalized = false) (merged : Nat) :
    (mergeAll w candidates merged).Ends g fun _ g' => ∃ s : Scan, s.graph = g' ∧
      s.worklist.queue = [] ∧ ReflTransGen Scan.Step ⟨w, candidates, g⟩ s := by
  rw [mergeAll.eq_def]
  split
  · rename_i hnone
    exact ends_pure ⟨_, rfl, Worklist.queue_eq_nil_of_next? hnone, .refl⟩
  · rename_i x w' hx
    have hsize := Worklist.size_next? hx
    have hg := hs.wellFormed
    obtain ⟨k, hk⟩ := (g.mem_ids_iff_kind?).mp (hs.within.next hx).1
    -- the rest of the run starts with the step that is made now
    have hrest : ∀ {w₁ : Worklist} {candidates₁ : List NodeId} {g₁ : Graph} {merged₁ : Nat},
        Scan.Step ⟨w, candidates, g⟩ ⟨w₁, candidates₁, g₁⟩ → g₁.finalized = false →
        w₁.size = w'.size → (mergeAll w₁ candidates₁ merged₁).Ends g₁ fun _ g' => ∃ s : Scan,
          s.graph = g' ∧ s.worklist.queue = [] ∧
            ReflTransGen Scan.Step ⟨w, candidates, g⟩ s := by
      intro w₁ candidates₁ g₁ merged₁ hstep hm₁ hw₁
      refine (ends_mergeAll_steps (hstep.valid hs) hm₁ merged₁).mono ?_
      rintro _ g' ⟨s, hgraph, hq, hsteps⟩
      exact ⟨s, hgraph, hq, .head hstep hsteps⟩
    refine ends_get_bind (meets_ask_node_bind (fun n hn => ?_) fun hnone => by simp [hnone] at hk)
    split_ifs with hc
    · have hused := (hg.isConsumed_iff hn).mp hc
      split
      · rename_i twin htwin
        have hany := List.find?_some htwin
        rw [Option.any_eq_true] at hany
        obtain ⟨m, hm', hnm⟩ := hany
        have htw := (hg.interchangeable_iff hn hm').mp hnm
        have ht := List.mem_of_find?_eq_some htwin
        have hne := (hs.next hx twin ht).1
        have hloop : ¬ g.Feeds x x := fun hxx => hs.acyclic x (.single hxx)
        refine Ends.bind (ends_mergeInto_absorbs hg hm hk (htw.kind.symm.trans hk) hne.symm hloop
          hused) fun _ g₁ h₁ => ?_
        exact hrest (.merge hx hused ht htw h₁) (h₁.grows.finalized.trans hm)
          (Worklist.size_scheduleConsumers ..)
      · rename_i hnone
        refine hrest (.keep hx fun c hcand htw => ?_) hm (Worklist.size_scheduleConsumers ..)
        obtain ⟨m, hm', -⟩ := Option.map_eq_some_iff.mp (htw.kind.symm.trans hk)
        have hfind := List.find?_eq_none.mp hnone c hcand
        rw [hm', Option.any_some] at hfind
        exact hfind ((hg.interchangeable_iff hn hm').mpr htw)
    · have hunused : g.Unused x := by
        rwa [hg.isConsumed_iff hn, not_not] at hc
      have hidle : w'.scheduleConsumers g x = w' := by
        have hnil : (g.consumers x).map (·.node) = [] := by
          refine List.eq_nil_iff_forall_not_mem.mpr fun b hb => ?_
          obtain ⟨r, o, ho, hox, -⟩ := hg.mem_consumers.mp hb
          exact hunused r o ho hox
        rw [Worklist.scheduleConsumers, hnil]
        rfl
      have hstep : Scan.Step ⟨w, candidates, g⟩ _ := .skip hx hunused
      rw [hidle] at hstep
      exact hrest hstep hm rfl
termination_by w.size
decreasing_by omega

/-- **Deduplication is complete.** In a graph without cycles no two nodes are left that feed
something and compute the same. -/
theorem mergeDuplicates_complete (g : Graph) (hg : g.WellFormed) (hm : g.finalized = false)
    (hac : g.Acyclic) :
    mergeDuplicates.Ends g fun _ g' => ∀ a b m n, a ≠ b → g'.node? a = some m →
      g'.node? b = some n → m.isConsumed = true → n.isConsumed = true →
        m.interchangeable n = false := by
  have hstart := Scan.valid_start hg hac
  refine ends_get_bind ((ends_mergeAll_steps hstart hm 0).mono ?_)
  rintro _ _ ⟨s, rfl, hq, hsteps⟩ a b m n hab ha hb hma hnb
  have hnone : Scan.Apart ⟨.ofGraph g, [], g⟩ := fun _ hc => absurd hc List.not_mem_nil
  obtain ⟨hs, hapart⟩ := hstart.steps hsteps hnone Scan.Step.apart
  have hcand : ∀ c l, s.graph.node? c = some l → l.isConsumed = true → c ∈ s.candidates :=
    fun c l hc hl => hs.mem_candidates hq (mem_ids_of_node hc)
      ((hs.wellFormed.isConsumed_iff hc).mp hl)
  rw [Bool.eq_false_iff, ne_eq, hs.wellFormed.interchangeable_iff ha hb]
  exact hapart a (hcand a m ha hma) b (hcand b n hb hnb) hab

/-- Two equal values are each multiplied in the same way, and the products are added. -/
def twoProducts : Graph :=
  Primitive.runAll [.addKind .value, .addKind .value, .addKind (.math .multiply false),
    .addKind (.math .multiply false), .addKind (.math .add false), .connect ⟨1, 0⟩ ⟨3, 0⟩,
    .connect ⟨2, 0⟩ ⟨4, 0⟩, .connect ⟨3, 0⟩ ⟨5, 0⟩, .connect ⟨4, 0⟩ ⟨5, 1⟩,
    .connect ⟨5, 0⟩ ⟨0, 2⟩] Graph.empty

theorem wellFormed_twoProducts : twoProducts.WellFormed :=
  (Primitive.follows_runAll wellFormed_empty _).wellFormed

theorem ranked_twoProducts : twoProducts.Ranked fun id => if id = 0 then 7 else id :=
  ranked_of_feeders wellFormed_twoProducts _ (by decide)

/-- The values are merged, and so the products are duplicates as well. -/
theorem ends_mergeDuplicates_twoProducts :
    mergeDuplicates.Ends twoProducts fun _ g' =>
      g'.linkAt ⟨3, 0⟩ = some ⟨1, 0⟩ ∧ g'.linkAt ⟨5, 0⟩ = some ⟨3, 0⟩ ∧
        g'.linkAt ⟨5, 1⟩ = some ⟨3, 0⟩ ∧ (g'.node? 3).any (·.isConsumed) := by
  decide +kernel

theorem mergeDuplicates_complete_twoProducts :
    twoProducts.WellFormed ∧ twoProducts.finalized = false ∧ twoProducts.Acyclic ∧
      mergeDuplicates.Ends twoProducts fun _ g' => ∃ m, g'.node? 3 = some m ∧
        m.isConsumed = true ∧ ∀ b n, 3 ≠ b → g'.node? b = some n → n.isConsumed = true →
          m.interchangeable n = false := by
  have hm : twoProducts.finalized = false := by decide
  have hac : twoProducts.Acyclic := ranked_twoProducts.acyclic
  refine ⟨wellFormed_twoProducts, hm, hac,
    ((mergeDuplicates_complete twoProducts wellFormed_twoProducts hm hac).and
      ends_mergeDuplicates_twoProducts).mono ?_⟩
  rintro _ g' ⟨h, -, -, -, hused⟩
  obtain ⟨m, hm', hused⟩ := (Option.any_eq_true ..).mp hused
  exact ⟨m, hm', hused, fun b n hb hn => h 3 b m n hb hm' hn hused⟩

end Edit

end Shading
