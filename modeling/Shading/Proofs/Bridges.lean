import Shading.Proofs.Patch

/-!
# What bridges pass on

The first `n + 1` nodes of a graph are those that were there before any link was made, and all later
ones are bridges. An input draws from an output of one of the first nodes if it is linked to it,
directly or through bridges. As long as links are only made from the first nodes, every linked input
draws from one of them (`anchored_joined`), and a new naming of the bridges does not change from which
one (`Renamed.draws_iff`). -/

namespace Shading.Graph

open Equiv (Perm)

/-- The input takes in what the output gives, directly or through added nodes. -/
inductive Draws (g : Graph) (n : Nat) : InputRef → OutputRef → Prop
  | direct {r : InputRef} {s : OutputRef} (h : g.linkAt r = some s) (hs : s.node ≤ n) : Draws g n r s
  | through {r r' : InputRef} {o s : OutputRef} (h : g.linkAt r = some o) (ho : n < o.node)
      (hr : r'.node = o.node) (hd : Draws g n r' s) : Draws g n r s

/-- Every linked input draws from one of the first nodes. -/
def Anchored (g : Graph) (n : Nat) : Prop := ∀ r o, g.linkAt r = some o → ∃ s, g.Draws n r s

variable {g g' : Graph} {n : Nat}

theorem Draws.mono {r : InputRef} {s : OutputRef} (h : g.Draws n r s)
    (hl : ∀ r o, g.linkAt r = some o → g'.linkAt r = some o) : g'.Draws n r s := by
  induction h with
  | direct h hs => exact .direct (hl _ _ h) hs
  | through h ho hr _ ih => exact .through (hl _ _ h) ho hr ih

theorem Draws.source_le {r : InputRef} {s : OutputRef} (h : g.Draws n r s) : s.node ≤ n := by
  induction h with
  | direct _ hs => exact hs
  | through _ _ _ _ ih => exact ih

/-! ### Renaming -/

section

variable {σ : Perm NodeId}

theorem Draws.rename (hσ : ∀ id, id ≤ n → σ id = id) (hg : g.Renamed σ g') {r : InputRef}
    {s : OutputRef} (h : g.Draws n r s) : g'.Draws n (r.rename σ) (s.rename σ) := by
  induction h with
  | direct h hs =>
    refine .direct ((hg.linkAt _).trans (by rw [h, Option.map_some])) ?_
    rwa [OutputRef.rename, hσ _ hs]
  | @through r r' o s h ho hr _ ih =>
    refine .through ((hg.linkAt _).trans (by rw [h, Option.map_some])) ?_ (congrArg σ hr) ih
    -- a later node cannot get the name of one of the first nodes
    by_contra hle
    have hfix : σ o.node = o.node := σ.injective (hσ _ (Nat.not_lt.mp hle))
    rw [OutputRef.rename, hfix] at hle
    exact hle ho

section

variable (hσ : ∀ id, id ≤ n → σ id = id) (hg : g.Renamed σ g') {r : InputRef} (hr : r.node ≤ n)
include hσ

theorem symm_apply_of_le {id : NodeId} (hid : id ≤ n) : σ.symm id = id :=
  σ.symm_apply_eq.mpr (hσ id hid).symm

include hg hr

theorem Renamed.linkAt_of_le {s : OutputRef} (hs : s.node ≤ n) (h : g.linkAt r = some s) :
    g'.linkAt r = some s := by
  have h' := hg.linkAt r
  rwa [h, InputRef.rename_eq_self (hσ _ hr), Option.map_some,
    OutputRef.rename_eq_self (hσ _ hs)] at h'

theorem Renamed.draws_of_le {s : OutputRef} (h : g.Draws n r s) : g'.Draws n r s := by
  have h' := h.rename hσ hg
  rwa [InputRef.rename_eq_self (hσ _ hr), OutputRef.rename_eq_self (hσ _ h.source_le)] at h'

theorem Renamed.linkAt_iff {s : OutputRef} (hs : s.node ≤ n) :
    g.linkAt r = some s ↔ g'.linkAt r = some s :=
  ⟨hg.linkAt_of_le hσ hr hs, hg.symm.linkAt_of_le (fun _ => symm_apply_of_le hσ) hr hs⟩

theorem Renamed.draws_iff (s : OutputRef) : g.Draws n r s ↔ g'.Draws n r s :=
  ⟨hg.draws_of_le hσ hr, hg.symm.draws_of_le (fun _ => symm_apply_of_le hσ) hr⟩

end

end

/-! ### Linking -/

theorem Anchored.of_linkAt (h : g.Anchored n) (hl : ∀ r, g'.linkAt r = g.linkAt r) :
    g'.Anchored n := by
  intro r o ho
  rw [hl] at ho
  obtain ⟨s, hs⟩ := h r o ho
  exact ⟨s, hs.mono fun r o hr => (hl r).trans hr⟩

/-- A link from one of the first nodes, or from an added node that is fed already. -/
theorem Anchored.link (h : g.Anchored n) {s : OutputRef} {t : InputRef}
    (ht : (g.inputDecl? t).isSome) (hfree : g.linkAt t = none)
    (hs : s.node ≤ n ∨ n < s.node ∧ ∃ r, r.node = s.node ∧ g.linkAt r ≠ none) :
    (g.link s t).Anchored n := by
  have hmono : ∀ r o, g.linkAt r = some o → (g.link s t).linkAt r = some o := by
    intro r o ho
    have hne : r ≠ t := by
      rintro rfl
      rw [hfree] at ho
      cases ho
    rw [g.linkAt_link ht, if_neg hne, ho]
  have hself : (g.link s t).linkAt t = some s := by rw [g.linkAt_link ht, if_pos rfl]
  intro r o ho
  by_cases hrt : r = t
  · subst hrt
    rcases hs with hs | ⟨hn, r', hr', hfed⟩
    · exact ⟨s, .direct hself hs⟩
    · obtain ⟨o', ho'⟩ := Option.ne_none_iff_exists'.mp hfed
      obtain ⟨s', hs'⟩ := h r' o' ho'
      exact ⟨s', .through hself hn hr' (hs'.mono hmono)⟩
  · rw [g.linkAt_link ht, if_neg hrt] at ho
    obtain ⟨s', hs'⟩ := h r o ho
    exact ⟨s', hs'.mono hmono⟩

section

variable {s : OutputRef} {t : InputRef} {e : OutputDecl} {d : InputDecl} (h : g.Anchored n)
  (hs : s.node ≤ n) (hn : n < g.idBound)
include h hs hn

theorem Anchored.bridged (hj : g.Joinable s e t d) : (g.bridged s e.type t d.type).Anchored n := by
  obtain ⟨d', -, hin⟩ := hj.to_conversion
  obtain ⟨e', -, hout⟩ := hj.from_conversion
  refine ((h.of_linkAt (g.linkAt_push _)).link (by simp [hin.target]) hin.free (Or.inl hs)).link
    (by simp [hout.target]) hout.free (Or.inr ⟨hn, ⟨g.idBound, 0⟩, rfl, ?_⟩)
  rw [linkAt_link _ (by simp [hin.target]), if_pos rfl]
  exact Option.some_ne_none s

/-- The emission is fed, in one way or another. -/
theorem Anchored.feedEmission (he : g.outputDecl? s = some e) :
    (g.feedEmission s e.type).Anchored n ∧
      ∃ slot, (g.feedEmission s e.type).linkAt ⟨g.idBound, slot⟩ ≠ none := by
  obtain ⟨d', -, hj, hfeed⟩ := exists_joinable_emission he
  have hanchored := h.of_linkAt (g.linkAt_push .emitter)
  rw [hfeed]
  split_ifs
  · refine ⟨hanchored.link (by simp [hj.target]) hj.free (Or.inl hs), emissionSlot e.type, ?_⟩
    rw [linkAt_link _ (by simp [hj.target]), if_pos rfl]
    exact Option.some_ne_none s
  · refine ⟨hanchored.bridged hs (by simpa using Nat.lt_succ_of_lt hn) hj, emissionSlot e.type, ?_⟩
    rw [linkAt_bridged hj, if_pos rfl]
    exact Option.some_ne_none _

theorem Anchored.emitted (hj : g.Joinable s e t d) : (g.emitted s e.type t).Anchored n := by
  obtain ⟨hanchored, slot, hfed⟩ := h.feedEmission hs hn hj.source
  obtain ⟨e', -, hout⟩ := hj.from_emission
  exact hanchored.link (by simp [hout.target]) hout.free
    (Or.inr ⟨hn, ⟨g.idBound, slot⟩, rfl, hfed⟩)

end

/-- **Linking from one of the first nodes keeps all inputs anchored.** -/
theorem anchored_joined (hm : g.finalized = false) (h : g.Anchored n) {l : Link} (hl : g.HasEnds l)
    (hs : l.source.node ≤ n) (hn : n < g.idBound) : (g.joined l).Anchored n := by
  obtain ⟨⟨e, he⟩, d, hd⟩ := hl
  have hmeets : (Edit.connect l.source l.target).Meets g (fun _ g' => g'.Anchored n) fun _ => True := by
    refine Edit.meets_connect (fun _ => trivial) ?_ ?_ ?_ ?_
    · intro e d c _ _ _
      exact h.of_linkAt fun _ => rfl
    · intro e d hj _
      exact h.link (by rw [hj.target]; rfl) hj.free (Or.inl hs)
    · intro e d hj _ _
      exact h.emitted hs hn hj
    · intro e d hj _ _ _
      exact h.bridged hs hn hj
  obtain ⟨_, g', -, rfl, h'⟩ := Edit.ends_iff.mp
    ((Edit.ends_connect_joined hm he hd).and_meets hmeets)
  exact h'

theorem anchored_foldl_joined (hg : g.WellFormed) (hm : g.finalized = false) (h : g.Anchored n)
    {ls : List Link} (hls : ∀ l ∈ ls, g.HasEnds l ∧ l.source.node ≤ n) (hn : n < g.idBound) :
    (ls.foldl joined g).Anchored n := by
  induction ls generalizing g with
  | nil => exact h
  | cons l ls ih =>
    obtain ⟨hl, hs⟩ := hls l List.mem_cons_self
    have hev := evolves_joined hg hm hl
    refine ih hev.wellFormed (hev.finalized.trans hm) (anchored_joined hm h hl hs hn) ?_
      (Nat.lt_of_lt_of_le hn hev.idBound_le)
    intro l' hl'
    obtain ⟨hends, hs'⟩ := hls l' (List.mem_cons_of_mem l hl')
    exact ⟨hev.hasEnds hg hends, hs'⟩

end Shading.Graph
