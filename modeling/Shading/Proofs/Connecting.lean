import Shading.Proofs.Patch
import Shading.Proofs.Primitive

/-!
# What linking changes

Linking two sockets ends in one of four ways. There is a fault if one of them is missing. Something
is reported, and nothing else changes, if the input cannot take the link. Otherwise the graph gains
links: the one between the sockets if their types fit, and else those of a bridge, a conversion or
an emission whose nodes are put at the end of the graph. `Gains` says that nothing else changes
then, and `run_connect` puts the four ways together. -/

namespace Shading

/-- A bridging emission of white light of strength one. -/
structure Node.IsWhiteEmission (n : Node) : Prop where
  kind : n.kind = .emission true
  literals : n.inputs.map (fun i => (i.name, i.literal)) = [("Color", .float3 (Vec3.splat 1)),
    ("Strength", .float 1), ("SurfaceMixWeight", .float 0), ("VolumeMixWeight", .float 0)]

theorem Node.isWhiteEmission_emitter : Node.emitter.IsWhiteEmission := ⟨rfl, rfl⟩

namespace Graph

/-- The second graph has some more nodes at its end and some more links. All other nodes, with their
literals, all other links and all reports are those of the first graph. -/
structure Gains (g : Graph) (nodes : List Node) (links : List Link) (g' : Graph) : Prop where
  idBound_eq : g'.idBound = g.idBound + nodes.length
  kept : ∀ id, id < g.idBound → g'.bare? id = g.bare? id
  added : ∀ i, g'.bare? (g.idBound + i) = nodes[i]?.map Node.unlinked
  linkAt_iff : ∀ r o, g'.linkAt r = some o ↔ g.linkAt r = some o ∨ ⟨o, r⟩ ∈ links
  fanOut_eq : ∀ o, g'.fanOut o = g.fanOut o ++ (links.filter (·.source = o)).map (·.target)
  diagnostics_eq : g'.diagnostics = g.diagnostics
  finalized_eq : g'.finalized = g.finalized
  touched : g'.simplified = false

/-- The nodes and the links that bring a value to an input of another type, where `id` is the id of
the first of these nodes. A closure is fed by an emission, which takes the value at its strength
(slot 1) or at its colour (slot 0). -/
inductive Bridge (id : NodeId) (s : OutputRef) (source : SocketType) (t : InputRef)
    (target : SocketType) : List Node → List Link → Prop
  | conversion (h : target ≠ .closure) :
    Bridge id s source t target [.ofKind (.convert source target true)]
      [⟨s, ⟨id, 0⟩⟩, ⟨⟨id, 0⟩, t⟩]
  | strength {n : Node} (h : target = .closure) (hs : source = .float) (hn : n.IsWhiteEmission) :
    Bridge id s source t target [n] [⟨s, ⟨id, 1⟩⟩, ⟨⟨id, 0⟩, t⟩]
  | color {n : Node} (h : target = .closure) (hs : source = .color) (hn : n.IsWhiteEmission) :
    Bridge id s source t target [n] [⟨s, ⟨id, 0⟩⟩, ⟨⟨id, 0⟩, t⟩]
  | convertedColor {n : Node} (h : target = .closure) (hf : source ≠ .float) (hc : source ≠ .color)
    (hn : n.IsWhiteEmission) :
    Bridge id s source t target [n, .ofKind (.convert source .color true)]
      [⟨s, ⟨id + 1, 0⟩⟩, ⟨⟨id + 1, 0⟩, ⟨id, 0⟩⟩, ⟨⟨id, 0⟩, t⟩]

/-! ### Several nodes and links -/

section

variable (g : Graph)

theorem layout?_pushAll (ns : List Node) (id : NodeId) : (g.pushAll ns).layout? id =
    if id < g.idBound then g.layout? id else ns[id - g.idBound]?.map Node.layout := by
  rw [layout?, node?_pushAll]
  split_ifs with h
  · rfl
  · simp [Function.comp_def, Node.layout_unlinked]

theorem bare?_pushAll (ns : List Node) (id : NodeId) : (g.pushAll ns).bare? id =
    if id < g.idBound then g.bare? id else ns[id - g.idBound]?.map Node.unlinked := by
  rw [bare?, node?_pushAll]
  split_ifs with h
  · rfl
  · simp [Function.comp_def, Node.unlinked_unlinked]

@[simp] theorem linkAt_pushAll (ns : List Node) (r : InputRef) :
    (g.pushAll ns).linkAt r = g.linkAt r := by
  induction ns generalizing g with
  | nil => rfl
  | cons n ns ih => exact (ih (g.push n)).trans (g.linkAt_push n r)

@[simp] theorem fanOut_pushAll (ns : List Node) (o : OutputRef) :
    (g.pushAll ns).fanOut o = g.fanOut o := by
  induction ns generalizing g with
  | nil => rfl
  | cons n ns ih => exact (ih (g.push n)).trans (g.fanOut_push n o)

@[simp] theorem bare?_linkAll (ls : List Link) (id : NodeId) :
    (g.linkAll ls).bare? id = g.bare? id := by
  induction ls generalizing g with
  | nil => rfl
  | cons l ls ih => exact (ih _).trans (g.bare?_link _ _ id)

@[simp] theorem diagnostics_linkAll (ls : List Link) : (g.linkAll ls).diagnostics = g.diagnostics := by
  induction ls generalizing g with
  | nil => rfl
  | cons l ls ih => exact ih _

@[simp] theorem finalized_linkAll (ls : List Link) : (g.linkAll ls).finalized = g.finalized := by
  induction ls generalizing g with
  | nil => rfl
  | cons l ls ih => exact ih _

theorem simplified_linkAll {ls : List Link} (h : ls ≠ []) : (g.linkAll ls).simplified = false := by
  obtain ⟨l, rest, rfl⟩ := List.exists_cons_of_ne_nil h
  clear h
  induction rest generalizing g l with
  | nil => rfl
  | cons l' rest ih => exact ih (g.link l.source l.target) l'

end

variable {g : Graph}

theorem HasEnds.link {l : Link} (h : g.HasEnds l) (s : OutputRef) (t : InputRef) :
    (g.link s t).HasEnds l where
  source := by simpa [outputDecl?_eq_layout?] using h.source
  target := by simpa [inputDecl?_eq_layout?] using h.target

/-- Links between free inputs and outputs are made besides those that are there. -/
theorem linkAt_linkAll_iff {ls : List Link} (hends : ∀ l ∈ ls, g.HasEnds l)
    (hfree : ∀ l ∈ ls, g.linkAt l.target = none) (hnodup : (ls.map (·.target)).Nodup) (r : InputRef)
    (o : OutputRef) : (g.linkAll ls).linkAt r = some o ↔ g.linkAt r = some o ∨ ⟨o, r⟩ ∈ ls := by
  induction ls generalizing g with
  | nil => simp [linkAll]
  | cons l ls ih =>
    obtain ⟨hl, hrest⟩ := List.forall_mem_cons.mp hends
    obtain ⟨hfl, hfrest⟩ := List.forall_mem_cons.mp hfree
    rw [List.map_cons, List.nodup_cons] at hnodup
    have hlink := g.linkAt_link (s := l.source) (Option.isSome_iff_exists.mpr hl.target)
    have hfree' : ∀ l' ∈ ls, (g.link l.source l.target).linkAt l'.target = none := by
      intro l' hl'
      rw [hlink, if_neg]
      · exact hfrest l' hl'
      · exact fun he => hnodup.1 (he ▸ List.mem_map_of_mem hl')
    rw [linkAll_cons, ih (fun l' hl' => (hrest l' hl').link _ _) hfree' hnodup.2, hlink,
      List.mem_cons]
    obtain ⟨s, t⟩ := l
    by_cases hr : r = t
    · subst hr
      simp [hfl, eq_comm]
    · simp [hr]

theorem fanOut_linkAll {ls : List Link} (hends : ∀ l ∈ ls, g.HasEnds l) (o : OutputRef) :
    (g.linkAll ls).fanOut o = g.fanOut o ++ (ls.filter (·.source = o)).map (·.target) := by
  induction ls generalizing g with
  | nil => simp [linkAll]
  | cons l ls ih =>
    obtain ⟨hl, hrest⟩ := List.forall_mem_cons.mp hends
    rw [linkAll_cons, ih fun l' hl' => (hrest l' hl').link _ _,
      fanOut_link _ (Option.isSome_iff_exists.mpr hl.source)]
    by_cases ho : l.source = o
    · subst ho
      simp
    · simp [ho, Ne.symm ho]

/-- Nodes and links that are added leave the rest of the graph alone. -/
theorem gains_extend {ns : List Node} {ls : List Link} (hne : ls ≠ [])
    (hends : ∀ l ∈ ls, (g.pushAll ns).HasEnds l) (hfree : ∀ l ∈ ls, g.linkAt l.target = none)
    (hnodup : (ls.map (·.target)).Nodup) : g.Gains ns ls (g.extend ns ls []) where
  idBound_eq := g.idBound_extend ns ls []
  kept id hid := by
    change ((g.pushAll ns).linkAll ls).bare? id = _
    rw [bare?_linkAll, bare?_pushAll, if_pos hid]
  added i := by
    change ((g.pushAll ns).linkAll ls).bare? _ = _
    rw [bare?_linkAll, bare?_pushAll, if_neg (Nat.not_lt.mpr (Nat.le_add_right _ i)),
      Nat.add_sub_cancel_left]
  linkAt_iff r o := by
    rw [← g.linkAt_pushAll ns]
    exact linkAt_linkAll_iff hends (fun l hl => (g.linkAt_pushAll ns _).trans (hfree l hl)) hnodup r o
  fanOut_eq o := by
    rw [← g.fanOut_pushAll ns]
    exact fanOut_linkAll hends o
  diagnostics_eq := (diagnostics_linkAll _ ls).trans (g.diagnostics_pushAll ns)
  finalized_eq := (finalized_linkAll _ ls).trans (g.finalized_pushAll ns)
  touched := simplified_linkAll _ hne

/-! ### Bridges -/

theorem outputDecl?_pushAll {s : OutputRef} {e : OutputDecl} (h : g.outputDecl? s = some e)
    (ns : List Node) : (g.pushAll ns).outputDecl? s = some e := by
  obtain ⟨k, hk⟩ := g.kind?_of_outputDecl? h
  rw [outputDecl?_eq_layout?, layout?_pushAll, if_pos (g.lt_idBound_of_kind? hk),
    ← outputDecl?_eq_layout?, h]

theorem inputDecl?_pushAll {t : InputRef} {d : InputDecl} (h : g.inputDecl? t = some d)
    (ns : List Node) : (g.pushAll ns).inputDecl? t = some d := by
  rw [inputDecl?_eq_layout?, layout?_pushAll, if_pos (node_lt_of_inputDecl? h),
    ← inputDecl?_eq_layout?, h]

theorem layout?_pushAll_add {ns : List Node} {i : Nat} {n : Node} (h : ns[i]? = some n) :
    (g.pushAll ns).layout? (g.idBound + i) = some n.layout := by
  rw [layout?_pushAll, if_neg (Nat.not_lt.mpr (Nat.le_add_right _ i)), Nat.add_sub_cancel_left, h]
  rfl

variable {s : OutputRef} {t : InputRef} {e : OutputDecl} {d : InputDecl}

/-- A node between two sockets. -/
theorem Joinable.gains_through (hj : g.Joinable s e t d) {n : Node} (hn : n.kind.IsBridge) {slot : Nat}
    (hin : ∃ d', n.layout.inputs[slot]? = some d') (hout : ∃ e', n.layout.outputs[0]? = some e') :
    g.Gains [n] [⟨s, ⟨g.idBound, slot⟩⟩, ⟨⟨g.idBound, 0⟩, t⟩] (g.apply (.through n slot s t)) := by
  have hnew : (g.pushAll [n]).layout? g.idBound = some n.layout := layout?_pushAll_add (i := 0) rfl
  refine gains_extend (by simp) ?_ ?_
    ((Patch.local_through hn slot s t).nodup _ (node_lt_of_inputDecl? hj.target))
  · have h₁ : (g.pushAll [n]).HasEnds ⟨s, ⟨g.idBound, slot⟩⟩ :=
      ⟨⟨e, outputDecl?_pushAll hj.source _⟩, by simpa [inputDecl?_eq_layout?, hnew] using hin⟩
    have h₂ : (g.pushAll [n]).HasEnds ⟨⟨g.idBound, 0⟩, t⟩ :=
      ⟨by simpa [outputDecl?_eq_layout?, hnew] using hout, ⟨d, inputDecl?_pushAll hj.target _⟩⟩
    simpa using ⟨h₁, h₂⟩
  · simp [linkAt_of_idBound_le, hj.free]

/-- Two nodes in a row between two sockets. -/
theorem Joinable.gains_throughBoth (hj : g.Joinable s e t d) {m n : Node} (hm : m.kind.IsBridge)
    (hn : n.kind.IsBridge) (hmin : ∃ d', m.layout.inputs[0]? = some d')
    (hmout : ∃ e', m.layout.outputs[0]? = some e') (hnin : ∃ d', n.layout.inputs[0]? = some d')
    (hnout : ∃ e', n.layout.outputs[0]? = some e') :
    g.Gains [m, n] [⟨s, ⟨g.idBound + 1, 0⟩⟩, ⟨⟨g.idBound + 1, 0⟩, ⟨g.idBound, 0⟩⟩,
      ⟨⟨g.idBound, 0⟩, t⟩] (g.apply (.throughBoth m n s t)) := by
  have hm' : (g.pushAll [m, n]).layout? g.idBound = some m.layout := layout?_pushAll_add (i := 0) rfl
  have hn' : (g.pushAll [m, n]).layout? (g.idBound + 1) = some n.layout :=
    layout?_pushAll_add (i := 1) rfl
  refine gains_extend (by simp) ?_ ?_
    ((Patch.local_throughBoth hm hn s t).nodup _ (node_lt_of_inputDecl? hj.target))
  · have h₁ : (g.pushAll [m, n]).HasEnds ⟨s, ⟨g.idBound + 1, 0⟩⟩ :=
      ⟨⟨e, outputDecl?_pushAll hj.source _⟩, by simpa [inputDecl?_eq_layout?, hn'] using hnin⟩
    have h₂ : (g.pushAll [m, n]).HasEnds ⟨⟨g.idBound + 1, 0⟩, ⟨g.idBound, 0⟩⟩ :=
      ⟨by simpa [outputDecl?_eq_layout?, hn'] using hnout,
        by simpa [inputDecl?_eq_layout?, hm'] using hmin⟩
    have h₃ : (g.pushAll [m, n]).HasEnds ⟨⟨g.idBound, 0⟩, t⟩ :=
      ⟨by simpa [outputDecl?_eq_layout?, hm'] using hmout, ⟨d, inputDecl?_pushAll hj.target _⟩⟩
    simpa using ⟨h₁, h₂, h₃⟩
  · simp [linkAt_of_idBound_le, hj.free]

theorem Joinable.gains_link (hj : g.Joinable s e t d) : g.Gains [] [⟨s, t⟩] (g.link s t) := by
  refine @gains_extend g [] [⟨s, t⟩] (by simp) ?_ ?_ (by simp)
  · simpa using HasEnds.mk ⟨e, hj.source⟩ ⟨d, hj.target⟩
  · simpa using hj.free

theorem Joinable.gains_bridged (hj : g.Joinable s e t d) :
    g.Gains [.ofKind (.convert e.type d.type true)] [⟨s, ⟨g.idBound, 0⟩⟩, ⟨⟨g.idBound, 0⟩, t⟩]
      (g.bridged s e.type t d.type) :=
  hj.gains_through (n := .ofKind (.convert e.type d.type true)) rfl ⟨_, rfl⟩ ⟨_, rfl⟩

/-- A value becomes a closure over an emission, in one of three ways. -/
theorem Joinable.exists_gains_emitted (hj : g.Joinable s e t d) (hd : d.type = .closure) :
    ∃ ns ls, Bridge g.idBound s e.type t d.type ns ls ∧ g.Gains ns ls (g.emitted s e.type t) := by
  have hw := Node.isWhiteEmission_emitter
  have hemitter : Node.emitter.kind.IsBridge := rfl
  rw [emitted_eq_apply, Patch.emitting]
  split_ifs with hf hc
  · exact ⟨_, _, .strength hd hf hw, hj.gains_through hemitter ⟨_, rfl⟩ ⟨_, rfl⟩⟩
  · exact ⟨_, _, .color hd hc hw, hj.gains_through hemitter ⟨_, rfl⟩ ⟨_, rfl⟩⟩
  · exact ⟨_, _, .convertedColor hd hf hc hw, hj.gains_throughBoth hemitter
      (n := .ofKind (.convert e.type .color true)) rfl ⟨_, rfl⟩ ⟨_, rfl⟩ ⟨_, rfl⟩ ⟨_, rfl⟩⟩

theorem linksTo_of_closure (h : e.type = .closure) :
    e.type.linksTo d.type = true ↔ d.type = .closure := by
  rw [h]
  cases d.type <;> decide

theorem exists_refuses_iff : (∃ c, g.Refuses s e t d c) ↔
    g.linkAt t ≠ none ∨ d.linkable = false ∨ e.type = .closure ∧ d.type ≠ .closure := by
  constructor
  · rintro ⟨c, h | ⟨-, hl⟩ | ⟨-, -, he, hty⟩⟩
    · exact Or.inl h
    · exact Or.inr (Or.inl hl)
    · exact Or.inr (Or.inr ⟨he, fun hd => by simp [(linksTo_of_closure he).mpr hd] at hty⟩)
  · intro h
    by_cases hfree : g.linkAt t = none
    · cases hl : d.linkable with
      | false => exact ⟨_, .unlinkable hfree hl⟩
      | true =>
        obtain ⟨he, hd⟩ : e.type = .closure ∧ d.type ≠ .closure := by simpa [hfree, hl] using h
        exact ⟨_, .closure hfree hl he (Bool.eq_false_iff.mpr (mt (linksTo_of_closure he).mp hd))⟩
    · exact ⟨_, .linked hfree⟩

theorem Joinable.not_refuses (hj : g.Joinable s e t d)
    (hty : e.type.linksTo d.type = true ∨ e.type ≠ .closure) (c : Diagnostic) :
    ¬ g.Refuses s e t d c := by
  rintro (h | ⟨-, hl⟩ | ⟨-, -, he, hfalse⟩)
  · exact h hj.free
  · simp [hj.linkable] at hl
  · exact hty.elim (fun h => by simp [h] at hfalse) fun h => h he

/-- What linking does with two sockets that are there. -/
inductive Joins (g : Graph) (s : OutputRef) (e : OutputDecl) (t : InputRef) (d : InputDecl) :
    Connection → Graph → Prop
  | rejected {c : Diagnostic} (h : g.Refuses s e t d c) : Joins g s e t d (.rejected c) (g.report c)
  | linked {g' : Graph} (hty : e.type.linksTo d.type = true) (hj : g.Joinable s e t d)
    (h : g.Gains [] [⟨s, t⟩] g') : Joins g s e t d .linked g'
  | converted {g' : Graph} {ns : List Node} {ls : List Link} (hty : e.type.linksTo d.type = false)
    (he : e.type ≠ .closure) (hj : g.Joinable s e t d)
    (hb : Bridge g.idBound s e.type t d.type ns ls) (h : g.Gains ns ls g') :
    Joins g s e t d (.converted g.idBound) g'

end Graph

namespace Edit

open Shading.Graph

variable {g : Graph}

theorem meets_connect_joins (s : OutputRef) (t : InputRef) :
    (connect s t).Meets g
      (fun c g' => ∃ e d, g.outputDecl? s = some e ∧ g.inputDecl? t = some d ∧ g.Joins s e t d c g')
      fun g' => g' = g ∧ (g.finalized = true ∨ g.outputDecl? s = none ∨ g.inputDecl? t = none) := by
  refine meets_connect_refuses (fun h => ⟨rfl, h⟩) ?_ ?_ ?_ ?_
  · intro e d c he hd hc
    exact ⟨e, d, he, hd, .rejected hc⟩
  · intro e d hj hty
    exact ⟨e, d, hj.source, hj.target, .linked hty hj hj.gains_link⟩
  · intro e d hj hty he hd
    obtain ⟨ns, ls, hb, h⟩ := hj.exists_gains_emitted hd
    exact ⟨e, d, hj.source, hj.target, .converted hty he hj hb h⟩
  · intro e d hj hty he hd
    exact ⟨e, d, hj.source, hj.target, .converted hty he hj (.conversion hd) hj.gains_bridged⟩

theorem ends_connect_joins (hm : g.finalized = false) {s : OutputRef} {e : OutputDecl} {t : InputRef}
    {d : InputDecl} (hs : g.outputDecl? s = some e) (ht : g.inputDecl? t = some d) :
    (connect s t).Ends g (g.Joins s e t d) := by
  refine ((meets_connect_joins s t).ends ?_).mono ?_
  · rintro g' ⟨-, h⟩
    simp [hm, hs, ht] at h
  · rintro c g' ⟨e', d', he', hd', h⟩
    rw [hs, Option.some.injEq] at he'
    rw [ht, Option.some.injEq] at hd'
    exact he' ▸ hd' ▸ h

/-- **Linking does one of four things.** It calls itself to link the nodes that it adds, without a
bound and without a look at what becomes of these attempts, but none of them is rejected: whatever
would be done then makes no difference. It fails and leaves the graph alone if and only if one of the
sockets is missing. If the input is linked or takes no links, or a closure is to go where none is
expected, it only reports this. If the types fit, it only makes the link. Otherwise it answers with
the next free id, and only puts a bridge between the sockets that starts with this id. -/
theorem run_connect (hm : g.finalized = false) (s : OutputRef) (t : InputRef) :
    connect s t = connectStep connect s t ∧
    (∀ f, connect s t = connectStep (heeding f connect) s t) ∧
    ((∃ f, (connect s t).run g = .error f g) ↔ g.outputDecl? s = none ∨ g.inputDecl? t = none) ∧
    ∀ e d, g.outputDecl? s = some e → g.inputDecl? t = some d →
      (g.linkAt t ≠ none ∨ d.linkable = false ∨ e.type = .closure ∧ d.type ≠ .closure →
        ∃ c, g.Refuses s e t d c ∧ (connect s t).run g = .ok (.rejected c) (g.report c)) ∧
      (g.linkAt t = none → d.linkable = true → (e.type = .closure → d.type = .closure) →
        (e.type.linksTo d.type = true →
          ∃ g', (connect s t).run g = .ok .linked g' ∧ g.Gains [] [⟨s, t⟩] g') ∧
        (e.type.linksTo d.type = false →
          ∃ g' ns ls, (connect s t).run g = .ok (.converted g.idBound) g' ∧
            Bridge g.idBound s e.type t d.type ns ls ∧ g.Gains ns ls g')) := by
  refine ⟨connect_eq s t, fun f => connect_eq_heeding f s t, ⟨?_, fun hmissing => ?_⟩,
    fun e d hs ht => ?_⟩
  · rintro ⟨f, hf⟩
    have h := meets_connect_joins (g := g) s t
    rw [Meets, hf] at h
    exact h.2.resolve_left (by simp [hm])
  · have h := meets_connect_joins (g := g) s t
    unfold Meets at h
    cases hrun : (connect s t).run g with
    | error f g' =>
      rw [hrun] at h
      exact ⟨f, h.1 ▸ rfl⟩
    | ok c g' =>
      rw [hrun] at h
      obtain ⟨e, d, he, hd, -⟩ := h
      simp [he, hd] at hmissing
  · obtain ⟨c, g', hrun, h⟩ := ends_iff.mp (ends_connect_joins hm hs ht)
    rw [hrun]
    refine ⟨fun hblocked => ?_, fun hfree hl hcl => ?_⟩
    · obtain ⟨c', hc'⟩ := exists_refuses_iff.mpr hblocked
      cases h with
      | rejected hc => exact ⟨_, hc, rfl⟩
      | linked hty hj _ => exact absurd hc' (hj.not_refuses (Or.inl hty) c')
      | converted _ he hj _ _ => exact absurd hc' (hj.not_refuses (Or.inr he) c')
    · have hopen : ¬ ∃ c, g.Refuses s e t d c := by
        rw [exists_refuses_iff]
        simpa [hfree, hl] using hcl
      cases h with
      | rejected hc => exact absurd ⟨_, hc⟩ hopen
      | linked hty _ h => exact ⟨fun _ => ⟨_, rfl, h⟩, fun hty' => by simp [hty] at hty'⟩
      | converted hty _ _ hb h =>
        exact ⟨fun hty' => by simp [hty] at hty', fun _ => ⟨_, _, _, rfl, hb, h⟩⟩

/-- A point becomes a surface over an emission and a conversion. -/
theorem run_connect_position :
    let g := Primitive.runAll [.addKind .geometry] Graph.empty
    g.finalized = false ∧
      ∃ g' ns ls, (connect ⟨1, 0⟩ ⟨0, 0⟩).run g = .ok (.converted 2) g' ∧
        Bridge 2 ⟨1, 0⟩ .point ⟨0, 0⟩ .closure ns ls ∧ g.Gains ns ls g' := by
  intro g
  obtain ⟨-, -, -, h⟩ := run_connect (g := g) rfl ⟨1, 0⟩ ⟨0, 0⟩
  exact ⟨rfl, ((h _ _ rfl rfl).2 rfl rfl nofun).2 rfl⟩

end Edit

end Shading
