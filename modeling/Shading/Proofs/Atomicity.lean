import Shading.Proofs.Relinking
import Shading.Proofs.Update

/-!
# What a failed primitive leaves behind

A primitive fails if it is given a node or a socket that is not there. Most of them look everything
up before they change anything. Those that move links or copy nodes do so in several steps, and a
reference may turn out to be missing only after the first one, which is not taken back.
`Primitive.Torn` tells for each of these when this is so, and `Primitive.unchanged_iff_of_error`
says that in all other cases, and only in these, a failure leaves the graph as it was. -/

namespace Shading

namespace Graph

variable {g g' : Graph}

theorem ne_of_linkAt_eq_none {r : InputRef} {o : OutputRef} (h : g.linkAt r = some o)
    (h' : g'.linkAt r = none) : g' ≠ g := by
  rintro rfl
  simp [h] at h'

theorem WellFormed.ne_of_consumer_cut (hg : g.WellFormed) {s : OutputRef}
    (h : ∃ t ∈ g.fanOut s, g'.linkAt t = none) : g' ≠ g := by
  obtain ⟨t, ht, hnone⟩ := h
  exact ne_of_linkAt_eq_none ((hg.link_iff t s).mpr ht) hnone

theorem fanOut_eq_nil {s : OutputRef} (h : g.outputDecl? s = none) : g.fanOut s = [] := by
  rw [fanOut, Option.map_eq_none_iff.mp h]
  rfl

end Graph

namespace Edit

open Shading.Graph

variable {g : Graph}

section

variable {α β : Type} {e : Edit α} {E : Graph → Prop}

/-- What always fails is followed by nothing. -/
theorem Meets.bind_of_fails (h : e.Meets g (fun _ _ => False) E) (k : α → Edit β)
    {Q : β → Graph → Prop} : (e >>= k).Meets g Q E :=
  h.bind fun _ _ => False.elim

theorem exists_error (h : e.Meets g (fun _ _ => False) E) :
    ∃ f g', e.run g = .error f g' ∧ E g' := by
  unfold Meets at h
  cases hrun : e.run g with
  | ok a g' => simp [hrun] at h
  | error f g' =>
    rw [hrun] at h
    exact ⟨f, g', rfl, h⟩

end

/-! ### Moving links -/

section

variable (hg : g.WellFormed) (hm : g.finalized = false)
include hg hm

/-- The link is cut before the other input is looked for. -/
theorem meets_relinkInput_missing {s t : InputRef} {u : OutputRef} (hs : g.linkAt s = some u)
    (ht : g.inputDecl? t = none) :
    (relinkInput s t).Meets g (fun _ _ => False) (· = g.unlink u s) := by
  have hcut := trims_unlink hg hs
  refine meets_requireMutable_bind (fun _ => ?_) fun hf => by simp [hm] at hf
  refine meets_ask_input_bind (fun i hi => ?_) fun hn => ?_
  · have hl : i.link = some u := by simpa [linkAt, hi] using hs
    rw [hl]
    refine Meets.bind (ends_disconnectInput_unlink hm hs).meets ?_
    rintro _ _ rfl
    dsimp only
    rw [discard_bind]
    refine Meets.bind_of_fails ((meets_connect_joins u t).mono ?_ fun _ h => h.1) _
    rintro c g' ⟨e, d, -, hd, -⟩
    simp [hcut.inputDecl?_eq, ht] at hd
  · obtain ⟨d, hd⟩ := g.inputDecl?_of_linkAt hs
    simp [hn] at hd

theorem meets_relinkInput_fault (s t : InputRef) :
    (relinkInput s t).Meets g (fun _ _ => True) fun g' => g' = g ↔ g.linkAt s = none := by
  cases hs : g.linkAt s with
  | none =>
    refine meets_requireMutable_bind (fun _ => ?_) fun _ => iff_of_true rfl rfl
    refine meets_ask_input_bind (fun i hi => ?_) fun _ => iff_of_true rfl rfl
    have hl : i.link = none := by simpa [linkAt, hi] using hs
    rw [hl]
    exact (meets_store hg t i.literal).mono (fun _ _ _ => trivial) fun _ h => iff_of_true h.1 rfl
  | some u =>
    cases ht : g.inputDecl? t with
    | some d =>
      obtain ⟨e, hu⟩ := hg.exists_output hs
      exact (ends_relinkInput hg hm hs hu ht).meets.mono (fun _ _ _ => trivial) fun _ h => h
    | none =>
      refine (meets_relinkInput_missing hg hm hs ht).mono (fun _ _ => False.elim) ?_
      rintro _ rfl
      have hnone := (trims_unlink hg hs).cut s rfl
      exact iff_of_false (ne_of_linkAt_eq_none hs hnone) (Option.some_ne_none u)

end

/-- If inputs are to be linked to an output that is not there, the first one has lost its link when
this is found out. -/
theorem meets_forM_connectTo_missing {cut : InputRef → Edit Unit} {l : List InputRef}
    {o : OutputRef} (hl : l ≠ []) (ho : g.outputDecl? o = none)
    (hcut : ∀ t ∈ l, (cut t).Ends g fun _ => g.Trims (· = t)) :
    (l.forM fun t => do cut t; connectTo (some o) t).Meets g (fun _ _ => False)
      fun g' => ∃ t ∈ l, g'.linkAt t = none := by
  obtain ⟨t, rest, rfl⟩ := List.exists_cons_of_ne_nil hl
  refine Meets.bind_of_fails (Meets.bind (hcut t List.mem_cons_self).meets fun _ g₁ h => ?_) _
  refine meets_discard ((meets_connect_joins o t).mono ?_ ?_)
  · rintro c g' ⟨e, d, he, -⟩
    simp [h.outputDecl?_eq, ho] at he
  · rintro _ ⟨rfl, -⟩
    exact ⟨t, List.mem_cons_self, h.cut t rfl⟩

section

variable (hg : g.WellFormed) (hm : g.finalized = false) {s : OutputRef}
include hg hm

theorem meets_relinkOutput_missing (hfan : g.fanOut s ≠ []) {o : OutputRef}
    (ho : g.outputDecl? o = none) : (relinkOutput s (some o)).Meets g (fun _ _ => False)
      fun g' => ∃ t ∈ g.fanOut s, g'.linkAt t = none := by
  refine meets_requireMutable_bind (fun _ => ?_) fun hf => by simp [hm] at hf
  refine meets_ask_consumersOf_bind (fun e _ => ?_) fun hn => absurd (fanOut_eq_nil hn) hfan
  exact meets_forM_connectTo_missing hfan ho fun t ht =>
    ends_disconnectInput hg hm ((hg.link_iff t s).mpr ht)

theorem meets_relinkOutput_fault (s' : Option OutputRef) :
    (relinkOutput s s').Meets g (fun _ _ => True) fun g' => g' = g ↔ g.fanOut s = [] := by
  by_cases hfan : g.fanOut s = []
  · refine meets_requireMutable_bind (fun _ => ?_) fun _ => iff_of_true rfl hfan
    refine meets_ask_consumersOf_bind (fun e _ => ?_) fun _ => iff_of_true rfl hfan
    rw [hfan]
    exact meets_pure trivial
  by_cases hmissing : ∃ o, s' = some o ∧ g.outputDecl? o = none
  · obtain ⟨o, rfl, ho⟩ := hmissing
    exact (meets_relinkOutput_missing hg hm hfan ho).mono (fun _ _ => False.elim)
      fun _ h => iff_of_false (hg.ne_of_consumer_cut h) hfan
  · refine ((meets_relinkOutput hg s s').ends ?_).meets.mono (fun _ _ _ => trivial) fun _ h => h
    rintro g' ⟨-, hf | hn | h⟩
    · simp [hm] at hf
    · exact hfan (fanOut_eq_nil hn)
    · exact hmissing h

variable {id : NodeId}

theorem meets_bypass_missing (hid : id ∈ g.ids) (hfan : g.fanOut s ≠ []) {o : OutputRef}
    (ho : g.outputDecl? o = none) : (bypass id s (some o)).Meets g (fun _ _ => False)
      fun g' => ∃ t ∈ g.fanOut s, g'.linkAt t = none := by
  obtain ⟨k, hk⟩ := (g.mem_ids_iff_kind?).mp hid
  refine meets_requireMutable_bind (fun _ => ?_) fun hf => by simp [hm] at hf
  refine meets_ask_consumersOf_bind (fun e _ => ?_) fun hn => absurd (fanOut_eq_nil hn) hfan
  have hends : (disconnectNodeInputs id).Ends g fun _ => g.Trims (·.node = id) := by
    refine (meets_disconnectNodeInputs hg id).ends ?_
    rintro _ ⟨-, h⟩
    simp [hm, hk] at h
  refine Meets.bind hends.meets fun _ g₁ h₁ => Meets.bind_of_fails ?_ _
  refine meets_forM_connectTo_missing hfan ((h₁.outputDecl?_eq o).trans ho) fun t ht => ?_
  obtain ⟨d, hd⟩ := g.inputDecl?_of_linkAt ((hg.link_iff t s).mpr ht)
  exact ends_disconnectIfLinked h₁.wellFormed (h₁.finalized.trans hm)
    ((h₁.inputDecl?_eq t).trans hd)

omit hm in
/-- Without the node or without consumers, nothing is missed after a change. -/
theorem meets_bypass_untorn (h : ¬ (id ∈ g.ids ∧ g.fanOut s ≠ [])) (s' : Option OutputRef) :
    (bypass id s s').Meets g (fun _ _ => True) (· = g) := by
  refine meets_requireMutable_bind (fun _ => ?_) fun _ => rfl
  refine meets_ask_consumersOf_bind (fun e _ => ?_) fun _ => rfl
  refine Meets.bind (P := fun _ _ => g.fanOut s = []) ?_ fun _ g₁ hfan => ?_
  · by_cases hid : id ∈ g.ids
    · have hfan : g.fanOut s = [] := not_not.mp fun hfan => h ⟨hid, hfan⟩
      exact (meets_disconnectNodeInputs hg id).mono (fun _ _ _ => hfan) fun _ h => h.1
    · refine meets_requireMutable_bind (fun _ => ?_) fun _ => rfl
      exact meets_ask_node_bind (fun n hn => absurd (mem_ids_of_node hn) hid) fun _ => rfl
  · rw [hfan]
    exact trivial

theorem meets_bypass_fault (s' : Option OutputRef) :
    (bypass id s s').Meets g (fun _ _ => True)
      fun g' => g' = g ↔ ¬ (id ∈ g.ids ∧ g.fanOut s ≠ []) := by
  by_cases htorn : id ∈ g.ids ∧ g.fanOut s ≠ []
  · obtain ⟨hid, hfan⟩ := htorn
    by_cases hmissing : ∃ o, s' = some o ∧ g.outputDecl? o = none
    · obtain ⟨o, rfl, ho⟩ := hmissing
      exact (meets_bypass_missing hg hm hid hfan ho).mono (fun _ _ => False.elim)
        fun _ h => iff_of_false (hg.ne_of_consumer_cut h) (not_not_intro ⟨hid, hfan⟩)
    · obtain ⟨k, hk⟩ := (g.mem_ids_iff_kind?).mp hid
      refine ((meets_bypass hg id s s').ends ?_).meets.mono (fun _ _ _ => trivial) fun _ h => h
      rintro g' ⟨-, hf | hn | hn | h⟩
      · simp [hm] at hf
      · exact hfan (fanOut_eq_nil hn)
      · simp [hk] at hn
      · exact hmissing h
  · exact (meets_bypass_untorn hg htorn s').mono (fun _ _ h => h) fun _ h => iff_of_true h htorn

end

/-! ### Copying -/

/-- Once the first node is copied, there are more ids than before. -/
theorem meets_copySubgraph_grows (hm : g.finalized = false) {id : NodeId} (hid : id ∈ g.ids)
    (ids : NodeSet) : (copySubgraph (id :: ids)).Meets g (fun _ _ => True)
      fun g' => g.idBound < g'.idBound := by
  have hkeep : ∀ g₁ g₂, Update NodeKind.NoProxy NoNote g₁ g₂ → g.idBound < g₁.idBound →
      g.idBound < g₂.idBound := fun _ _ h hlt => Nat.lt_of_lt_of_le hlt h.idBound_le
  unfold copySubgraph
  refine Meets.bind (P := fun _ g' => g.idBound < g'.idBound) ?_ fun copies g₁ h₁ => ?_
  · unfold copyNodes
    rw [List.mapM_cons, bind_assoc]
    refine meets_ask_node_bind (fun n _ => ?_) fun hn => ?_
    · rw [bind_assoc]
      refine Meets.bind (P := fun _ g' => g.idBound < g'.idBound)
        (meets_add (fun _ => by simp) fun hf => by simp [hm] at hf) fun c g₁ h₁ => ?_
      rw [pure_bind]
      exact ((updates_copyNodes ids).bind fun copies =>
        updates_pure ((id, c) :: copies)).meets hkeep h₁
    · obtain ⟨k, hk⟩ := (g.mem_ids_iff_kind?).mp hid
      simp [hn] at hk
  · refine Meets.mono (Updates.meets (.bind (.forM ?_) fun _ => updates_pure copies) hkeep h₁)
      (fun _ _ _ => trivial) fun _ h => h
    rintro ⟨id, copy⟩
    exact updates_copyLinks copies id copy

theorem meets_copySubgraph_fault (hm : g.finalized = false) (ids : NodeSet) :
    (copySubgraph ids).Meets g (fun _ _ => True)
      fun g' => g' = g ↔ ¬ ∃ id ∈ ids.head?, id ∈ g.ids := by
  cases ids with
  | nil => exact trivial
  | cons id ids =>
    by_cases hid : id ∈ g.ids
    · refine (meets_copySubgraph_grows hm hid ids).mono (fun _ _ h => h) fun g' hlt => ?_
      exact iff_of_false (fun heq => Nat.ne_of_gt hlt (congrArg idBound heq)) (by simpa using hid)
    · unfold copySubgraph copyNodes
      rw [List.mapM_cons, bind_assoc, bind_assoc]
      refine meets_ask_node_bind (fun n hn => absurd (mem_ids_of_node hn) hid) fun _ => ?_
      exact iff_of_true rfl (by simpa using hid)

end Edit

namespace Primitive

open Shading.Graph Edit

/-- If the primitive fails at all, it does so after it has changed the graph. -/
def Torn (g : Graph) : Primitive → Prop
  | relinkInput source _ => g.linkAt source ≠ none
  | relinkOutput source _ => g.fanOut source ≠ []
  | bypass id source _ => id ∈ g.ids ∧ g.fanOut source ≠ []
  | copySubgraph ids => ∃ id ∈ ids.head?, id ∈ g.ids
  | _ => False

instance (g : Graph) : (p : Primitive) → Decidable (p.Torn g)
  | relinkInput source _ => inferInstanceAs (Decidable (g.linkAt source ≠ none))
  | relinkOutput source _ => inferInstanceAs (Decidable (g.fanOut source ≠ []))
  | bypass id source _ => inferInstanceAs (Decidable (id ∈ g.ids ∧ g.fanOut source ≠ []))
  | copySubgraph ids => inferInstanceAs (Decidable (∃ id ∈ ids.head?, id ∈ g.ids))
  | addKind .. | addCopy .. | storeNamed .. | store .. | connect .. | connectNamed ..
  | disconnectInput .. | disconnectOutput .. | disconnectNodeInputs .. | removeNodes .. =>
    inferInstanceAs (Decidable False)

theorem meets_fault {g : Graph} (hg : g.WellFormed) (hm : g.finalized = false) (p : Primitive) :
    p.run.Meets g (fun _ _ => True) fun g' => g' = g ↔ ¬ p.Torn g := by
  have hsame : ∀ {P : Prop} (g' : Graph), g' = g ∧ P → (g' = g ↔ ¬ False) :=
    fun _ h => iff_of_true h.1 id
  cases p with
  | addKind kind =>
    exact meets_discard (meets_add (fun _ => trivial) fun _ => iff_of_true rfl id)
  | addCopy id =>
    refine meets_ask_node_bind (fun n _ => ?_) fun _ => iff_of_true rfl fun h => h
    exact meets_discard (meets_add (fun _ => trivial) fun _ => iff_of_true rfl fun h => h)
  | storeNamed id name literal =>
    exact meets_discard ((meets_storeNamed hg id name literal).mono (fun _ _ _ => trivial) hsame)
  | store target literal => exact (meets_store hg target literal).mono (fun _ _ _ => trivial) hsame
  | connect source target =>
    exact meets_discard ((meets_connect_evolves hg source target).mono (fun _ _ _ => trivial) hsame)
  | connectNamed source output target input =>
    exact meets_discard ((meets_connectNamed hg source output target input).mono
      (fun _ _ _ => trivial) fun _ h => iff_of_true h id)
  | disconnectInput target =>
    exact (meets_disconnectInput hg target).mono (fun _ _ _ => trivial) hsame
  | disconnectOutput source =>
    exact (meets_disconnectOutput hg source).mono (fun _ _ _ => trivial) hsame
  | disconnectNodeInputs id =>
    exact (meets_disconnectNodeInputs hg id).mono (fun _ _ _ => trivial) hsame
  | relinkInput source target =>
    exact (meets_relinkInput_fault hg hm source target).mono (fun _ _ h => h)
      fun _ h => h.trans not_not.symm
  | relinkOutput source replacement =>
    exact (meets_relinkOutput_fault hg hm replacement).mono (fun _ _ h => h)
      fun _ h => h.trans not_not.symm
  | bypass id source replacement => exact meets_bypass_fault hg hm replacement
  | copySubgraph ids => exact meets_discard (meets_copySubgraph_fault hm ids)
  | removeNodes ids => exact (meets_removeNodes hg ids).mono (fun _ _ _ => trivial) hsame

/-- **A failed primitive leaves the graph as it was, unless it is torn.** Moving the link of an
input is torn if there is a link, moving the consumers of an output if there are consumers, bypassing
a node if moreover the node is there, and copying nodes if the first of them is there. -/
theorem unchanged_iff_of_error {g : Graph} (hg : g.WellFormed) (hm : g.finalized = false)
    (p : Primitive) {f : Fault} {g' : Graph} (hf : p.run.run g = .error f g') :
    g' = g ↔ ¬ p.Torn g := by
  have h := p.meets_fault hg hm
  rwa [Meets, hf] at h

/-- Where a node is linked to itself, moving another input to a node that is not there changes
nothing, and moving the link there loses it. -/
theorem unchanged_iff_of_error_selfLoop :
    selfLoop.WellFormed ∧ selfLoop.finalized = false ∧
      (∃ f, (relinkInput ⟨1, 1⟩ ⟨2, 0⟩).run.run selfLoop = .error f selfLoop) ∧
      ∃ f g', (relinkInput ⟨1, 0⟩ ⟨2, 0⟩).run.run selfLoop = .error f g' ∧ g' ≠ selfLoop := by
  have hg : selfLoop.WellFormed := (follows_runAll wellFormed_empty _).wellFormed
  have hfail : ∀ p ∈ [relinkInput ⟨1, 1⟩ ⟨2, 0⟩, relinkInput ⟨1, 0⟩ ⟨2, 0⟩],
      p.run.Meets selfLoop (fun _ _ => False) fun _ => True := by decide
  obtain ⟨f, g', hkept, -⟩ := exists_error (hfail _ List.mem_cons_self)
  obtain ⟨f', g'', htorn, -⟩ := exists_error (hfail _ (List.mem_cons_of_mem _ List.mem_cons_self))
  obtain rfl := (unchanged_iff_of_error hg rfl _ hkept).mpr (by decide)
  exact ⟨hg, rfl, ⟨f, hkept⟩, f', g'', htorn,
    fun heq => (unchanged_iff_of_error hg rfl _ htorn).mp heq (by decide)⟩

/-- A value that gives the strength of an emission. -/
def litByValue : Graph :=
  runAll [.addKind .value, .addKind (.emission false), .connect ⟨1, 0⟩ ⟨2, 1⟩] Graph.empty

/-- Each of the primitives that take several steps may fail and change the graph. -/
theorem litByValue_torn :
    litByValue.WellFormed ∧ litByValue.finalized = false ∧
      ∀ p ∈ [relinkInput ⟨2, 1⟩ ⟨9, 0⟩, relinkOutput ⟨1, 0⟩ (some ⟨9, 0⟩),
          bypass 2 ⟨1, 0⟩ (some ⟨9, 0⟩), copySubgraph [1, 9]],
        ∃ f g', p.run.run litByValue = .error f g' ∧ g' ≠ litByValue := by
  refine ⟨(follows_runAll wellFormed_empty _).wellFormed, rfl, fun p hp => ?_⟩
  have hfail : ∀ p ∈ [relinkInput ⟨2, 1⟩ ⟨9, 0⟩, relinkOutput ⟨1, 0⟩ (some ⟨9, 0⟩),
      bypass 2 ⟨1, 0⟩ (some ⟨9, 0⟩), copySubgraph [1, 9]],
      p.run.Meets litByValue (fun _ _ => False)
        fun g' => g'.linkAt ⟨2, 1⟩ = none ∨ g'.idBound = 4 := by decide +kernel
  obtain ⟨f, g', hrun, h⟩ := exists_error (hfail p hp)
  refine ⟨f, g', hrun, ?_⟩
  rintro rfl
  exact absurd h (by decide)

end Primitive

end Shading
