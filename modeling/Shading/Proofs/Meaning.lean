import Mathlib.Algebra.Order.BigOperators.Group.List
import Mathlib.Algebra.Order.Group.Nat
import Shading.Proofs.Fingerprint
import Shading.Proofs.Redirection

/-!
# The meaning of a graph

An interpretation says what a node computes from what its inputs receive. Given the values of the
other outputs, this fixes those of the nodes in a set, as long as they have no cycle among
themselves (`Graph.exists_evaluatesOn`, `Graph.EvaluatesOn.unique`). -/

namespace Shading

universe u

/-- What literals stand for, and what nodes compute. Literals that compare equal stand for the same.
If a node has more outputs than there are results, the others have no proper value. -/
structure Interpretation (V : Type u) where
  literal : Literal → V
  eval : NodeKind → BumpSample → List V → List V
  missing : V
  literal_congr : ∀ a b : Literal, (a == b) = true → literal a = literal b

variable {V : Type u} (I : Interpretation V)

theorem Interpretation.map_literal_congr {a b : Option Literal} (h : (a == b) = true) :
    b.map I.literal = a.map I.literal := by
  cases a <;> cases b
  case some.some a b => exact congrArg some (I.literal_congr a b h).symm
  case none.none => rfl
  all_goals cases h

/-- What an input receives: the value of the output that is linked to it, or else its literal. -/
def Input.received (v : OutputRef → V) (i : Input) : V :=
  match i.link with
  | some o => v o
  | none => I.literal i.literal

namespace Node

/-- What the inputs of a node receive. -/
def received (v : OutputRef → V) (n : Node) : List V := n.inputs.map (·.received I v)

/-- What a node computes for one of its outputs. -/
def computed (v : OutputRef → V) (n : Node) (slot : Nat) : V :=
  (I.eval n.kind n.bump (n.received I v)).getD slot I.missing

variable {I} {v v' : OutputRef → V} {m n : Node}

theorem computed_congr (hkind : m.kind = n.kind) (hbump : m.bump = n.bump)
    (hrec : m.received I v' = n.received I v) (slot : Nat) :
    m.computed I v' slot = n.computed I v slot := by
  rw [computed, computed, hkind, hbump, hrec]

end Node

namespace Graph

variable {I} {v v' v₀ : OutputRef → V} {g g' : Graph} {x y : NodeId} {m n : Node} {L : Set NodeId}

/-- The outputs of the nodes in a set have the values that the nodes compute. -/
def EvaluatesOn (I : Interpretation V) (v : OutputRef → V) (L : Set NodeId) (g : Graph) : Prop :=
  ∀ x ∈ L, ∀ n, g.node? x = some n → ∀ slot, v ⟨x, slot⟩ = n.computed I v slot

/-- The outputs of all nodes have the values that the nodes compute. -/
def Evaluates (I : Interpretation V) (v : OutputRef → V) (g : Graph) : Prop :=
  g.EvaluatesOn I v Set.univ

/-- Nodes receive the same if their links have the same values, and their literals count as the
same. -/
theorem received_congr (hn : g.node? x = some n) (hm : g'.node? y = some m)
    (hlen : m.inputs.length = n.inputs.length)
    (hlinks : ∀ slot, (g'.linkAt ⟨y, slot⟩).map v' = (g.linkAt ⟨x, slot⟩).map v)
    (hliterals : ∀ slot, g.linkAt ⟨x, slot⟩ = none →
      (g'.literalAt ⟨y, slot⟩).map I.literal = (g.literalAt ⟨x, slot⟩).map I.literal) :
    m.received I v' = n.received I v := by
  refine List.ext_getElem (by simp [Node.received, hlen]) fun slot hs hs' => ?_
  simp only [Node.received, List.length_map] at hs hs'
  have hlink := hlinks slot
  have hliteral := hliterals slot
  rw [g.linkAt_of_getElem? hn (List.getElem?_eq_getElem hs')] at hlink hliteral
  rw [g'.linkAt_of_getElem? hm (List.getElem?_eq_getElem hs)] at hlink
  simp only [literalAt, input?, hn, hm, Option.bind_some, List.getElem?_eq_getElem hs,
    List.getElem?_eq_getElem hs', Option.map_some, Option.some.injEq] at hliteral
  simp only [Node.received, List.getElem_map, Input.received]
  cases ho : n.inputs[slot].link with
  | none =>
    rw [ho, Option.map_none, Option.map_eq_none_iff] at hlink
    rw [hlink]
    exact hliteral ho
  | some o =>
    rw [ho, Option.map_some, Option.map_eq_some_iff] at hlink
    obtain ⟨o', ho', hv⟩ := hlink
    rw [ho']
    exact hv

/-- Values of outputs matter only as far as they are linked. -/
theorem received_congr_links (hn : g.node? x = some n)
    (h : ∀ slot o, g.linkAt ⟨x, slot⟩ = some o → v' o = v o) :
    n.received I v' = n.received I v := by
  refine received_congr hn hn rfl (fun slot => ?_) fun _ _ => rfl
  cases ho : g.linkAt ⟨x, slot⟩ with
  | none => rfl
  | some o => rw [Option.map_some, Option.map_some, h slot o ho]

/-- What an input receives. -/
def receivedAt (I : Interpretation V) (v : OutputRef → V) (g : Graph) (r : InputRef) : V :=
  ((g.input? r).map (·.received I v)).getD I.missing

theorem receivedAt_of_link {r : InputRef} {o : OutputRef} (h : g.linkAt r = some o) :
    g.receivedAt I v r = v o := by
  obtain ⟨i, hi, ho⟩ := Option.bind_eq_some_iff.mp h
  simp [receivedAt, hi, Input.received, ho]

theorem receivedAt_of_literal {r : InputRef} {l : Literal} (h : g.linkAt r = none)
    (hl : g.literalAt r = some l) : g.receivedAt I v r = I.literal l := by
  obtain ⟨i, hi, rfl⟩ := Option.map_eq_some_iff.mp hl
  have ho : i.link = none := by simpa [linkAt, hi] using h
  simp [receivedAt, hi, Input.received, ho]

/-- What the input of a given name receives. -/
def receives (I : Interpretation V) (v : OutputRef → V) (g : Graph) (x : NodeId) (name : String) :
    V :=
  match g.inputRef x name with
  | .ok r => g.receivedAt I v r
  | .error _ => I.missing

theorem receives_of_inputRef {name : String} {r : InputRef} (h : g.inputRef x name = .ok r) :
    g.receives I v x name = g.receivedAt I v r := by
  rw [receives, h]

theorem WellFormed.received_eq (hg : g.WellFormed) (hn : g.node? x = some n) :
    n.received I v =
      (List.range n.kind.inputDecls.length).map fun slot => g.receivedAt I v ⟨x, slot⟩ := by
  have hlen : n.kind.inputDecls.length = n.inputs.length := by
    have hlayout : n.kind.inputDecls = n.layout.inputs := by rw [hg.laidOut x n hn]; rfl
    rw [hlayout]
    simp [Node.layout]
  refine List.ext_getElem (by simp [Node.received, hlen]) fun slot hs _ => ?_
  rw [Node.received, List.length_map] at hs
  simp [Node.received, receivedAt, input?, hn, hs]

theorem EvaluatesOn.mono {L' : Set NodeId} (hv : g.EvaluatesOn I v L) (hL : L' ⊆ L) :
    g.EvaluatesOn I v L' := fun x hx => hv x (hL hx)

/-- The value of an output in terms of what the inputs of its node receive. -/
theorem EvaluatesOn.value_eq (hv : g.EvaluatesOn I v L) (hx : x ∈ L) (hg : g.WellFormed)
    {k : NodeKind} (hk : g.kind? x = some k) : ∃ bump, ∀ slot, v ⟨x, slot⟩ =
      (I.eval k bump ((List.range k.inputDecls.length).map fun i =>
        g.receivedAt I v ⟨x, i⟩)).getD slot I.missing := by
  obtain ⟨n, hn, rfl⟩ := Option.map_eq_some_iff.mp hk
  refine ⟨n.bump, fun slot => ?_⟩
  rw [hv x hx n hn, Node.computed, hg.received_eq hn]

/-! ### Evaluation -/

/-- The nodes in a set have numbers that go up along the links between them. -/
def RankedOn (L : Set NodeId) (rank : NodeId → Nat) (g : Graph) : Prop :=
  ∀ r o, g.linkAt r = some o → r.node ∈ L → o.node ∈ L → rank o.node < rank r.node

/-- One round of evaluation: the nodes in a set take up what they compute from given values, and all
other outputs have the values `v₀`. -/
def evaluateOnce (I : Interpretation V) (g : Graph) (L : Set NodeId) [DecidablePred (· ∈ L)]
    (v₀ v : OutputRef → V) (o : OutputRef) : V :=
  if o.node ∈ L then
    match g.node? o.node with
    | some n => n.computed I v o.slot
    | none => v₀ o
  else v₀ o

section

variable [DecidablePred (· ∈ L)] {rank : NodeId → Nat} {o : OutputRef}

theorem evaluateOnce_of_node (ho : o.node ∈ L) (hn : g.node? o.node = some n) :
    g.evaluateOnce I L v₀ v o = n.computed I v o.slot := by
  rw [evaluateOnce, if_pos ho, hn]

theorem iterate_evaluateOnce_of_notMem (ho : o.node ∉ L) (i : Nat) :
    (g.evaluateOnce I L v₀)^[i] v₀ o = v₀ o := by
  cases i with
  | zero => rfl
  | succ i => rw [Function.iterate_succ_apply', evaluateOnce, if_neg ho]

/-- A node has its final value after as many rounds as its number says. -/
theorem RankedOn.iterate_stable (hr : g.RankedOn L rank) (i : Nat) (ho : rank o.node < i) :
    (g.evaluateOnce I L v₀)^[i + 1] v₀ o = (g.evaluateOnce I L v₀)^[i] v₀ o := by
  induction i generalizing o with
  | zero => exact absurd ho (Nat.not_lt_zero _)
  | succ i ih =>
    by_cases hL : o.node ∈ L
    · rw [Function.iterate_succ_apply', Function.iterate_succ_apply']
      cases hn : g.node? o.node with
      | none => simp only [evaluateOnce, hn]
      | some n =>
        rw [evaluateOnce_of_node hL hn, evaluateOnce_of_node hL hn]
        refine Node.computed_congr rfl rfl (received_congr_links hn fun slot o' ho' => ?_) o.slot
        by_cases hL' : o'.node ∈ L
        · have hlt := hr _ o' ho' hL hL'
          have hstable := ih (Nat.lt_of_lt_of_le hlt (Nat.lt_succ_iff.mp ho))
          rwa [Function.iterate_succ_apply'] at hstable
        · rw [← Function.iterate_succ_apply' (g.evaluateOnce I L v₀),
            iterate_evaluateOnce_of_notMem hL', iterate_evaluateOnce_of_notMem hL']
    · rw [iterate_evaluateOnce_of_notMem hL, iterate_evaluateOnce_of_notMem hL]

theorem RankedOn.evaluatesOn_iterate (hr : g.RankedOn L rank) (v₀ : OutputRef → V) {i : Nat}
    (hi : ∀ x ∈ g.ids, rank x < i) :
    g.EvaluatesOn I ((g.evaluateOnce I L v₀)^[i] v₀) L := by
  intro x hx n hn slot
  have hstable : (g.evaluateOnce I L v₀)^[i + 1] v₀ ⟨x, slot⟩ = _ :=
    hr.iterate_stable i (hi x (mem_ids_of_node hn))
  rw [← hstable, Function.iterate_succ_apply', evaluateOnce_of_node hx hn]

end

/-- **Evaluation.** The nodes in a set without cycles can be evaluated, whatever the other outputs
are. -/
theorem RankedOn.exists_evaluatesOn {rank : NodeId → Nat} (hr : g.RankedOn L rank)
    (I : Interpretation V) (v₀ : OutputRef → V) :
    ∃ v, (∀ o, o.node ∉ L → v o = v₀ o) ∧ g.EvaluatesOn I v L := by
  classical
  have hi : ∀ x ∈ g.ids, rank x < (g.ids.map rank).sum + 1 := fun x hx =>
    Nat.lt_succ_iff.mpr (List.le_sum_of_mem (List.mem_map_of_mem hx))
  exact ⟨_, fun o ho => iterate_evaluateOnce_of_notMem ho _, hr.evaluatesOn_iterate v₀ hi⟩

theorem Ranked.rankedOn {rank : NodeId → Nat} (hr : g.Ranked rank) : g.RankedOn L rank :=
  fun _ _ ho _ _ => hr _ _ (feeds_of_linkAt ho)

theorem Acyclic.exists_evaluates (hac : g.Acyclic) (hg : g.WellFormed) (I : Interpretation V) :
    ∃ v, g.Evaluates I v := by
  obtain ⟨rank, hr⟩ := hg.acyclic_iff_ranked.mp hac
  obtain ⟨v, -, hv⟩ := hr.rankedOn.exists_evaluatesOn I fun _ => I.missing
  exact ⟨v, hv⟩

/-- Two evaluations agree on a part of the graph that nothing else feeds. -/
theorem EvaluatesOn.unique {rank : NodeId → Nat} (hr : g.Ranked rank) (hg : g.WellFormed)
    (hL : ∀ a b, g.Feeds a b → b ∈ L → a ∈ L) (hv : g.EvaluatesOn I v L)
    (hv' : g.EvaluatesOn I v' L) (hx : x ∈ L) (hn : g.node? x = some n) (slot : Nat) :
    v' ⟨x, slot⟩ = v ⟨x, slot⟩ := by
  induction hrank : rank x using Nat.strongRecOn generalizing x n slot with
  | ind i ih =>
    rw [hv' x hx n hn, hv x hx n hn]
    refine Node.computed_congr rfl rfl (received_congr_links hn fun slot' o ho => ?_) slot
    have hfeeds : g.Feeds o.node x := feeds_of_linkAt ho
    obtain ⟨m, hm⟩ := exists_node_of_mem (hg.mem_ids_of_feeds hfeeds).1
    exact ih (rank o.node) (hrank ▸ hr _ _ hfeeds) (hL _ _ hfeeds hx) hm o.slot rfl

end Graph

end Shading
