import Shading.Graph.Edit
import Shading.Proofs.View

/-!
# The outcome of an edit

`e.Meets g Q E` says of the edit `e`, run on the graph `g`, that it ends with a result and a graph
that satisfy `Q`, or with a fault and a graph that satisfies `E`; `e.Ends g Q` says that it ends
without a fault. There is one rule for each way of putting edits together: a sequence
(`Meets.bind`), a question (`meets_ask_bind`), a loop over a list (`meets_forM`, `meets_foldlM`),
whose invariant is told the part of the list that remains. -/

namespace Shading

namespace Edit

variable {α β : Type} {g : Graph} {Q Q' : α → Graph → Prop} {E E' : Graph → Prop}

/-- The result of a run meets `Q`, or its fault leaves a graph that meets `E`. -/
def Meets (e : Edit α) (g : Graph) (Q : α → Graph → Prop) (E : Graph → Prop) : Prop :=
  match e.run g with
  | .ok a g' => Q a g'
  | .error _ g' => E g'

/-- The run ends without a fault, and its result meets `Q`. -/
def Ends (e : Edit α) (g : Graph) (Q : α → Graph → Prop) : Prop := e.Meets g Q fun _ => False

/-- The graph that a run leaves behind, with a fault or without. -/
def after (e : Edit α) (g : Graph) : Graph :=
  match e.run g with
  | .ok _ g' => g'
  | .error _ g' => g'

instance {e : Edit α} [∀ a g', Decidable (Q a g')] [DecidablePred E] : Decidable (e.Meets g Q E) :=
  match h : e.run g with
  | .ok a g' => decidable_of_iff (Q a g') (by rw [Meets, h])
  | .error _ g' => decidable_of_iff (E g') (by rw [Meets, h])

instance {e : Edit α} [∀ a g', Decidable (Q a g')] : Decidable (e.Ends g Q) :=
  inferInstanceAs (Decidable (e.Meets g Q fun _ => False))

theorem ends_iff {e : Edit α} : e.Ends g Q ↔ ∃ a g', e.run g = .ok a g' ∧ Q a g' := by
  unfold Ends Meets
  cases h : e.run g with
  | ok a g' => simp
  | error f g' => simp

theorem Meets.mono {e : Edit α} (h : e.Meets g Q E) (hQ : ∀ a g', Q a g' → Q' a g')
    (hE : ∀ g', E g' → E' g') : e.Meets g Q' E' := by
  unfold Meets at h ⊢
  cases he : e.run g with
  | ok a g' => rw [he] at h; exact hQ _ _ h
  | error f g' => rw [he] at h; exact hE _ h

theorem Meets.after {e : Edit α} {P : Graph → Prop} (h : e.Meets g (fun _ => P) P) :
    P (e.after g) := by
  unfold Meets at h
  unfold Edit.after
  cases he : e.run g with
  | ok a g' => rw [he] at h; exact h
  | error f g' => rw [he] at h; exact h

theorem Meets.ends {e : Edit α} (h : e.Meets g Q E) (hE : ∀ g', ¬ E g') : e.Ends g Q :=
  h.mono (fun _ _ hq => hq) hE

theorem Ends.mono {e : Edit α} (h : e.Ends g Q) (hQ : ∀ a g', Q a g' → Q' a g') : e.Ends g Q' :=
  Meets.mono h hQ fun _ hf => hf

/-- A run has one result, so what is known of it from two sides holds together. -/
theorem Ends.and_meets {e : Edit α} (h : e.Ends g Q) (h' : e.Meets g Q' E) :
    e.Ends g fun a g' => Q a g' ∧ Q' a g' := by
  obtain ⟨a, g', hrun, hq⟩ := ends_iff.mp h
  rw [Meets, hrun] at h'
  exact ends_iff.mpr ⟨a, g', hrun, hq, h'⟩

theorem Ends.and {e : Edit α} (h : e.Ends g Q) (h' : e.Ends g Q') :
    e.Ends g fun a g' => Q a g' ∧ Q' a g' := h.and_meets h'

theorem Ends.meets {e : Edit α} (h : e.Ends g Q) : e.Meets g Q E := Meets.mono h (fun _ _ hq => hq) nofun

theorem Meets.of_run {e : Edit α} {a : α} {g' : Graph} (h : e.Meets g Q E)
    (hrun : e.run g = .ok a g') : Q a g' := by
  unfold Meets at h
  rwa [hrun] at h

theorem meets_run (e : Edit α) : e.Meets g (fun a g' => e.run g = .ok a g') fun _ => True := by
  unfold Meets
  cases e.run g with
  | ok _ _ => rfl
  | error _ _ => trivial

theorem Ends.run_eq {e : Edit α} {a : α} {g₁ : Graph} (h : e.Ends g fun b g' => b = a ∧ g' = g₁) :
    e.run g = .ok a g₁ := by
  obtain ⟨_, _, hrun, rfl, rfl⟩ := ends_iff.mp h
  exact hrun

/-! ### Sequences -/

/-- What follows matters only for the results that are reached. -/
theorem run_bind_congr {e : Edit β} {f f' : β → Edit α}
    (h : ∀ b g', e.run g = .ok b g' → (f b).run g' = (f' b).run g') :
    (e >>= f).run g = (e >>= f').run g := by
  rw [EStateM.run_bind, EStateM.run_bind]
  cases he : e.run g with
  | ok b g' => exact h b g' he
  | error x g' => rfl

theorem meets_bind {e : Edit β} {f : β → Edit α} :
    (e >>= f).Meets g Q E ↔ e.Meets g (fun b g' => (f b).Meets g' Q E) E := by
  simp only [Meets, EStateM.run, bind, EStateM.bind]
  cases e g <;> rfl

theorem ends_bind {e : Edit β} {f : β → Edit α} :
    (e >>= f).Ends g Q ↔ e.Ends g fun b g' => (f b).Ends g' Q := meets_bind

theorem Meets.bind {e : Edit β} {f : β → Edit α} {P : β → Graph → Prop} (h : e.Meets g P E)
    (k : ∀ b g', P b g' → (f b).Meets g' Q E) : (e >>= f).Meets g Q E :=
  meets_bind.mpr (h.mono k fun _ he => he)

theorem Ends.bind {e : Edit β} {f : β → Edit α} {P : β → Graph → Prop} (h : e.Ends g P)
    (k : ∀ b g', P b g' → (f b).Ends g' Q) : (e >>= f).Ends g Q :=
  Meets.bind h k

theorem meets_pure {a : α} (h : Q a g) : (pure a : Edit α).Meets g Q E := h

theorem ends_pure {a : α} (h : Q a g) : (pure a : Edit α).Ends g Q := h

theorem meets_throw {f : Fault} (h : E g) : (throw f : Edit α).Meets g Q E := h

theorem meets_get_bind {f : Graph → Edit α} (h : (f g).Meets g Q E) : (get >>= f).Meets g Q E := h

theorem ends_get_bind {f : Graph → Edit α} (h : (f g).Ends g Q) : (get >>= f).Ends g Q := h

theorem meets_modify {f : Graph → Graph} {Q : Unit → Graph → Prop} (h : Q () (f g)) :
    (modify f : Edit Unit).Meets g Q E := h

theorem ends_modify {f : Graph → Graph} {Q : Unit → Graph → Prop} (h : Q () (f g)) :
    (modify f : Edit Unit).Ends g Q := h

theorem meets_modify_bind {f : Graph → Graph} {k : Unit → Edit α} (h : (k ()).Meets (f g) Q E) :
    (modify f >>= k).Meets g Q E := h

theorem ends_modify_bind {f : Graph → Graph} {k : Unit → Edit α} (h : (k ()).Ends (f g) Q) :
    (modify f >>= k).Ends g Q := h

theorem discard_eq (e : Edit β) : (discard e : Edit Unit) = e >>= fun _ => pure () := by
  rw [bind_pure_comp]
  rfl

theorem discard_bind (e : Edit β) (k : Unit → Edit α) :
    (discard e >>= k) = e >>= fun _ => k () := by
  rw [discard_eq, bind_assoc]
  rfl

theorem meets_discard {e : Edit β} {Q : Unit → Graph → Prop}
    (h : e.Meets g (fun _ => Q ()) E) : (discard e).Meets g Q E := by
  rw [discard_eq]
  exact h.bind fun _ _ hq => hq

theorem ends_discard {e : Edit β} {Q : Unit → Graph → Prop} (h : e.Ends g fun _ => Q ()) :
    (discard e).Ends g Q := meets_discard h

/-! ### Questions -/

theorem run_ask_ok {q : Graph → Except Fault α} {a : α} (h : q g = .ok a) :
    (ask q).run g = .ok a g := by
  simp [ask, h]

theorem run_ask_error {q : Graph → Except Fault α} {x : Fault} (h : q g = .error x) :
    (ask q).run g = .error x g := by
  simp only [ask, EStateM.run_bind, EStateM.run_get, h]
  rfl

theorem eq_of_run_ask {q : Graph → Except Fault α} {a : α} {g' : Graph}
    (h : (ask q).run g = .ok a g') : q g = .ok a ∧ g' = g := by
  cases hq : q g with
  | ok b =>
    rw [run_ask_ok hq] at h
    cases h
    exact ⟨rfl, rfl⟩
  | error x =>
    rw [run_ask_error hq] at h
    cases h

theorem meets_ask_bind {q : Graph → Except Fault β} {f : β → Edit α}
    (hok : ∀ b, q g = .ok b → (f b).Meets g Q E) (herr : (∀ b, q g ≠ .ok b) → E g) :
    (ask q >>= f).Meets g Q E := by
  rw [meets_bind]
  unfold Meets
  cases hq : q g with
  | ok b =>
    rw [run_ask_ok hq]
    exact hok b hq
  | error x =>
    rw [run_ask_error hq]
    exact herr (by simp [hq])

theorem ends_ask_bind {q : Graph → Except Fault β} {f : β → Edit α} {b : β} (h : q g = .ok b)
    (k : (f b).Ends g Q) : (ask q >>= f).Ends g Q := by
  refine meets_ask_bind (fun b' hb' => ?_) fun hn => absurd h (hn b)
  rw [h, Except.ok.injEq] at hb'
  exact hb' ▸ k

theorem ends_ask {q : Graph → Except Fault α} {a : α} (h : q g = .ok a) (hQ : Q a g) :
    (ask q).Ends g Q := by
  have hb : (ask q >>= pure).Ends g Q := ends_ask_bind h (ends_pure hQ)
  simpa using hb

theorem meets_ask_node_bind {id : NodeId} {f : Node → Edit α}
    (hok : ∀ n, g.node? id = some n → (f n).Meets g Q E) (herr : g.kind? id = none → E g) :
    (ask (·.node id) >>= f).Meets g Q E := by
  refine meets_ask_bind (fun n hn => hok n ((g.node_eq_ok).mp hn)) fun hn => herr ?_
  cases h : g.node? id with
  | none => simp [Graph.kind?, h]
  | some n => exact absurd ((g.node_eq_ok).mpr h) (hn n)

theorem meets_ask_input_bind {t : InputRef} {f : Input → Edit α}
    (hok : ∀ i, g.input? t = some i → (f i).Meets g Q E) (herr : g.inputDecl? t = none → E g) :
    (ask (·.input t) >>= f).Meets g Q E := by
  refine meets_ask_bind (fun i hi => hok i ((g.input_eq_ok).mp hi)) fun hn => herr ?_
  cases h : g.input? t with
  | none => simp [Graph.inputDecl?, h]
  | some i => exact absurd ((g.input_eq_ok).mpr h) (hn i)

theorem meets_ask_output_bind {s : OutputRef} {f : Output → Edit α}
    (hok : ∀ o, g.output? s = some o → (f o).Meets g Q E) (herr : g.outputDecl? s = none → E g) :
    (ask (·.output s) >>= f).Meets g Q E := by
  refine meets_ask_bind (fun o ho => hok o ((g.output_eq_ok).mp ho)) fun hn => herr ?_
  cases h : g.output? s with
  | none => simp [Graph.outputDecl?, h]
  | some o => exact absurd ((g.output_eq_ok).mpr h) (hn o)

theorem meets_ask_consumersOf_bind {s : OutputRef} {f : List InputRef → Edit α}
    (hok : ∀ e, g.outputDecl? s = some e → (f (g.fanOut s)).Meets g Q E)
    (herr : g.outputDecl? s = none → E g) : (ask (·.consumersOf s) >>= f).Meets g Q E := by
  refine meets_ask_bind (fun l hl => ?_) fun hn => herr ?_
  · obtain ⟨hs, rfl⟩ := (g.consumersOf_eq_ok).mp hl
    obtain ⟨e, he⟩ := Option.isSome_iff_exists.mp hs
    exact hok e he
  · cases h : g.outputDecl? s with
    | none => rfl
    | some e => exact absurd ((g.consumersOf_eq_ok).mpr ⟨by simp [h], rfl⟩) (hn _)

theorem ends_consumersOf_bind {s : OutputRef} {e : OutputDecl} {f : List InputRef → Edit α}
    (hs : g.outputDecl? s = some e) (h : (f (g.fanOut s)).Ends g Q) :
    (ask (·.consumersOf s) >>= f).Ends g Q :=
  ends_ask_bind ((g.consumersOf_eq_ok).mpr ⟨by simp [hs], rfl⟩) h

theorem run_requireMutable :
    requireMutable.run g = if g.finalized then .error .finalized g else .ok () g := by
  simp only [requireMutable, EStateM.run_bind, EStateM.run_get]
  split <;> rfl

theorem meets_requireMutable_bind {f : Unit → Edit α} (hok : g.finalized = false →
    (f ()).Meets g Q E) (herr : g.finalized = true → E g) :
    (requireMutable >>= f).Meets g Q E := by
  rw [meets_bind]
  unfold Meets
  rw [run_requireMutable]
  cases hf : g.finalized with
  | false => exact hok hf
  | true => exact herr hf

/-! ### Loops -/

theorem meets_forM {f : β → Edit Unit} (I : List β → Graph → Prop) {l : List β} (h : I l g)
    (step : ∀ b rest g, I (b :: rest) g → (f b).Meets g (fun _ => I rest) E) :
    (l.forM f).Meets g (fun _ => I []) E := by
  induction l generalizing g with
  | nil => exact h
  | cons b rest ih => exact (step b rest g h).bind fun _ g' h' => ih h'

theorem ends_forM {f : β → Edit Unit} (I : List β → Graph → Prop) {l : List β} (h : I l g)
    (step : ∀ b rest g, I (b :: rest) g → (f b).Ends g fun _ => I rest) :
    (l.forM f).Ends g fun _ => I [] := meets_forM I h step

/-- A loop with an invariant that does not depend on how far it has come. -/
theorem meets_forM_mem {f : β → Edit Unit} {I : Graph → Prop} {l : List β} (h : I g)
    (step : ∀ b ∈ l, ∀ g, I g → (f b).Meets g (fun _ => I) E) :
    (l.forM f).Meets g (fun _ => I) E := by
  refine (meets_forM (fun rest g => I g ∧ ∀ b ∈ rest, b ∈ l) ⟨h, fun _ hb => hb⟩ ?_).mono
    (fun _ _ h => h.1) fun _ h => h
  rintro b rest g ⟨hI, hrest⟩
  refine (step b (hrest b List.mem_cons_self) g hI).mono (fun _ _ hI' => ⟨hI', ?_⟩) fun _ h => h
  exact fun b' hb' => hrest b' (List.mem_cons_of_mem b hb')

theorem ends_forM_mem {f : β → Edit Unit} {I : Graph → Prop} {l : List β} (h : I g)
    (step : ∀ b ∈ l, ∀ g, I g → (f b).Ends g fun _ => I) :
    (l.forM f).Ends g fun _ => I := meets_forM_mem h step

/-- A loop over a list together with the positions in it. -/
theorem ends_forM_zipIdx {l : List β} {f : β × Nat → Edit Unit} (I : Nat → Graph → Prop) (h : I 0 g)
    (step : ∀ b i g, l[i]? = some b → I i g → (f (b, i)).Ends g fun _ => I (i + 1)) :
    (l.zipIdx.forM f).Ends g fun _ => I l.length := by
  refine (ends_forM (fun rest g => ∃ done, l.zipIdx = done ++ rest ∧ I done.length g)
    ⟨[], rfl, h⟩ ?_).mono ?_
  · rintro ⟨b, i⟩ rest g ⟨done, hl, hI⟩
    have hget : l.zipIdx[done.length]? = some (b, i) := by simp [hl]
    rw [List.getElem?_zipIdx, Option.map_eq_some_iff] at hget
    obtain ⟨b', hb', heq⟩ := hget
    obtain ⟨rfl, rfl⟩ : b' = b ∧ done.length = i := by simpa using heq
    exact (step b' _ g hb' hI).mono fun _ g' h' => ⟨done ++ [(b', done.length)], by simp [hl],
      by simpa using h'⟩
  · rintro _ g' ⟨done, hl, hI⟩
    have hlen : done.length = l.length := by simpa using (congrArg List.length hl).symm
    exact hlen ▸ hI

theorem meets_foldlM {f : α → β → Edit α} (I : List β → α → Graph → Prop) {l : List β} {a : α}
    (h : I l a g) (step : ∀ b rest a g, I (b :: rest) a g → (f a b).Meets g (I rest) E) :
    (l.foldlM f a).Meets g (I []) E := by
  induction l generalizing g a with
  | nil => exact h
  | cons b rest ih =>
    rw [List.foldlM_cons]
    exact (step b rest a g h).bind fun a' g' h' => ih h'

theorem ends_foldlM {f : α → β → Edit α} (I : List β → α → Graph → Prop) {l : List β} {a : α}
    (h : I l a g) (step : ∀ b rest a g, I (b :: rest) a g → (f a b).Ends g (I rest)) :
    (l.foldlM f a).Ends g (I []) := meets_foldlM I h step

end Edit

end Shading
