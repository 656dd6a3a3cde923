import Shading.Compile
import Shading.Proofs.Folding
import Shading.Proofs.Identities

/-!
# Replaced outputs

If an output is replaced, its consumers hold a literal or are linked to another output. What they
receive then is compared with what the node has computed, for all values that the outputs upstream
may have (`Graph.Assigns`). A shortcut that is applied to the result of an operation leaves the value
that it gives (`Graph.Supplants`). Since scalar math is never clamped on this occasion, unclamped
operations keep their values, and clamped ones only within the unit interval. -/

namespace Shading

namespace Graph

variable {V : Type*} {I : Interpretation V} {v : OutputRef → V} {g g' : Graph} {x : NodeId}
  {r : InputRef} {s o : OutputRef}

/-- What an input receives, where the outputs of one node are what it computes, and all others have
given values. -/
def delivered (I : Interpretation V) (v : OutputRef → V) (x : NodeId) (g : Graph) (r : InputRef) : V :=
  g.receivedAt I (g.evaluateOnce I {x} v v) r

theorem delivered_of_literal {l : Literal} (hs : g.linkAt r = none) (hl : g.literalAt r = some l) :
    g.delivered I v x r = I.literal l := receivedAt_of_literal hs hl

theorem delivered_of_link (hs : g.linkAt r = some s) (hx : s.node ≠ x) :
    g.delivered I v x r = v s := by
  rw [delivered, receivedAt_of_link hs, evaluateOnce, if_neg (by simpa using hx)]

theorem delivered_of_node (ho : g.linkAt r = some o) {n : Node} (hn : g.node? o.node = some n) :
    g.delivered I v o.node r = n.computed I v o.slot := by
  rw [delivered, receivedAt_of_link ho, evaluateOnce_of_node (by simp) hn]

/-! ### Tests -/

/-- Unlinked inputs receive their literals. -/
def ReadsLiterals (g : Graph) (x : NodeId) (val : String → Quantity) : Prop :=
  ∀ name r l, g.inputRef x name = .ok r → g.linkAt r = none → g.literalAt r = some l →
    val name = l.quantity

theorem readsLiterals_receives [Elementary] (g : Graph) (x : NodeId) (v : OutputRef → Quantity) :
    g.ReadsLiterals x (g.receives exactArithmetic v x) := by
  intro name r l hr hs hl
  rw [receives_of_inputRef hr, receivedAt_of_literal hs hl]
  rfl

/-- An input that passes a test is there. -/
theorem exists_of_test {p : Input → Bool} {name : String}
    (h : (do return p (← g.namedInput x name) : Except Fault Bool) = .ok true) :
    ∃ r i, g.inputRef x name = .ok r ∧ g.input? r = some i ∧ p i = true := by
  unfold namedInput at h
  cases hr : g.inputRef x name with
  | error f => simp [hr, bind, Except.bind] at h
  | ok r =>
    cases hi : g.input r with
    | error f => simp [hr, hi, bind, Except.bind] at h
    | ok i =>
      refine ⟨r, i, rfl, (g.input_eq_ok).mp hi, ?_⟩
      simpa [hr, hi, bind, Except.bind, pure, Except.pure] using h

/-- An unlinked input that passes a test receives a literal that does so. -/
theorem ReadsLiterals.of_test {val : String → Quantity} (h : g.ReadsLiterals x val)
    {p : Input → Bool} {p' : Literal → Bool}
    (hp : ∀ i, p i = true → i.link = none ∧ p' i.literal = true) {name : String}
    (hname : (do return p (← g.namedInput x name) : Except Fault Bool) = .ok true) :
    ∃ l, val name = l.quantity ∧ p' l = true := by
  obtain ⟨r, i, hr, hi, htest⟩ := exists_of_test hname
  obtain ⟨hlink, hliteral⟩ := hp i htest
  exact ⟨i.literal, h name r i.literal hr (by simp [linkAt, hi, hlink]) (by simp [literalAt, hi]),
    hliteral⟩

theorem ReadsLiterals.tells {val : String → Quantity} (h : g.ReadsLiterals x val) :
    (InputTests.ofGraph g x).Tells val := by
  constructor
  · intro name hname
    have htest : ∀ i, Node.isZeroInput i = true → i.link = none ∧ i.literal.isZero = true := by
      intro i hi
      simp_all [Node.isZeroInput, Input.isLinked]
    obtain ⟨l, hl, hzero⟩ := h.of_test htest hname
    rw [hl]
    exact Literal.isConst_quantity_of_isZero hzero
  · intro name hname
    have htest : ∀ i, Node.isOneInput i = true → i.link = none ∧ i.literal.isOne = true := by
      intro i hi
      simp_all [Node.isOneInput, Input.isLinked]
    obtain ⟨l, hl, hone⟩ := h.of_test htest hname
    rw [hl]
    exact Literal.isConst_quantity_of_isOne hone

section

variable {n : Node} (hg : g.WellFormed) (hn : g.node? x = some n) {name : String} {i : Nat}
  (hslot : n.kind.layout.inputSlot? name = some i) {d : InputDecl}
  (hd : n.kind.inputDecls[i]? = some d)
include hg hn hslot hd

theorem WellFormed.exists_literal :
    ∃ l, n.literal? name = some l ∧ g.literalAt ⟨x, i⟩ = some l ∧ l.hasShape d.type = true := by
  have hk : g.kind? x = some n.kind := by simp [kind?, hn]
  have hd' := (hg.inputDecl?_eq hk i).trans hd
  obtain ⟨input, hinput, -⟩ := Option.map_eq_some_iff.mp hd'
  have hl : g.literalAt ⟨x, i⟩ = some input.literal := by simp [literalAt, hinput]
  exact ⟨input.literal, (hg.literal?_eq hn hslot).trans hl, hl, hg.shaped _ _ _ hd' hl⟩

theorem WellFormed.literalAt_float (hty : d.type = .float) :
    g.literalAt ⟨x, i⟩ = some (.float (n.float name)) := by
  obtain ⟨l, hname, hl, hshape⟩ := hg.exists_literal hn hslot hd
  obtain ⟨a, rfl, -⟩ | ⟨_, -, h3⟩ := Literal.float_or_float3 hshape (by rw [hty]; rfl)
  · rw [hl, Node.float, hname]
    rfl
  · rw [hty] at h3
    cases h3

theorem WellFormed.literalAt_float3 (hty : d.type.isFloat3 = true) :
    g.literalAt ⟨x, i⟩ = some (.float3 (n.float3 name)) := by
  obtain ⟨l, hname, hl, hshape⟩ := hg.exists_literal hn hslot hd
  obtain ⟨_, -, hf⟩ | ⟨a, rfl, -⟩ := Literal.float_or_float3 hshape (by
    simp [SocketType.isFloating, hty])
  · rw [hf] at hty
    cases hty
  · rw [hl, Node.float3, hname]
    rfl

variable {val : String → Quantity} (h : g.ReadsLiterals x val) (hs : n.link? name = none)
include h hs

theorem ReadsLiterals.eq_number (hty : d.type = .float) :
    val name = .number (n.float name).toRat := by
  have hk : g.kind? x = some n.kind := by simp [kind?, hn]
  exact h name ⟨x, i⟩ _ (hg.inputRef_eq hk hslot) ((hg.link?_eq hn hslot).symm.trans hs)
    (hg.literalAt_float hn hslot hd hty)

theorem ReadsLiterals.eq_triple (hty : d.type.isFloat3 = true) :
    val name = (Literal.float3 (n.float3 name)).quantity := by
  have hk : g.kind? x = some n.kind := by simp [kind?, hn]
  exact h name ⟨x, i⟩ _ (hg.inputRef_eq hk hslot) ((hg.link?_eq hn hslot).symm.trans hs)
    (hg.literalAt_float3 hn hslot hd hty)

end

/-- What is known of a mix, except that its colours may no longer be linked to one output. -/
theorem ReadsLiterals.tell [Elementary] {val : String → Quantity} (h : g.ReadsLiterals x val)
    (hg : g.WellFormed) {n : Node} (hn : g.node? x = some n) {mode : BlendMode} {clamped : Bool}
    (hkind : n.kind = .mix mode clamped) {b : Bool} (hb : b = true → val "Color1" = val "Color2") :
    MixFacts.Tell { MixFacts.ofNode n with sameLink := b } val := by
  have hfac : n.isLinked "Fac" = false → val "Fac" = .number (n.float "Fac").toRat := fun hs =>
    h.eq_number hg hn (i := 0) (by rw [hkind]; rfl) (by rw [hkind]; rfl)
      (by simpa [Node.isLinked] using hs) rfl
  refine ⟨fun hf => ?_, fun hf => ?_, hb, fun hf => ?_⟩
  · simp only [MixFacts.ofNode, Bool.and_eq_true, Bool.not_eq_true'] at hf
    rw [hfac hf.1, Quantity.toNumber, ← Binary32.toRat_saturate, Binary32.toRat_congr hf.2,
      Binary32.toRat_zero]
  · simp only [MixFacts.ofNode, Bool.and_eq_true, Bool.not_eq_true'] at hf
    rw [hfac hf.1, Quantity.toNumber, ← Binary32.toRat_saturate, Binary32.toRat_congr hf.2,
      Binary32.toRat_one]
  · simp only [MixFacts.ofNode, Bool.and_eq_true, Option.isNone_iff_eq_none] at hf
    rw [h.eq_triple hg hn (i := 1) (by rw [hkind]; rfl) (by rw [hkind]; rfl) hf.1.1 rfl,
      h.eq_triple hg hn (i := 2) (by rw [hkind]; rfl) (by rw [hkind]; rfl) hf.1.2 rfl]
    exact exactArithmetic.literal_congr (.float3 _) (.float3 _) hf.2

theorem WellFormed.tell_receives [Elementary] (hg : g.WellFormed) {n : Node}
    (hn : g.node? x = some n) {mode : BlendMode} {clamped : Bool}
    (hkind : n.kind = .mix mode clamped) {v : OutputRef → Quantity} :
    (MixFacts.ofNode n).Tell (g.receives exactArithmetic v x) := by
  refine (g.readsLiterals_receives x v).tell hg hn hkind fun hsame => ?_
  have hk : g.kind? x = some (.mix mode clamped) := by simp [kind?, hn, hkind]
  simp only [Bool.and_eq_true, Option.isSome_iff_exists, beq_iff_eq] at hsame
  obtain ⟨⟨s, hs₁⟩, hs₂⟩ := hsame
  rw [hs₁, hg.link?_eq hn (i := 2) (by rw [hkind]; rfl)] at hs₂
  rw [hg.link?_eq hn (i := 1) (by rw [hkind]; rfl)] at hs₁
  rw [receives_of_inputRef (hg.inputRef_eq hk (i := 1) rfl),
    receives_of_inputRef (hg.inputRef_eq hk (i := 2) rfl), receivedAt_of_link hs₁,
    receivedAt_of_link hs₂.symm]

/-! ### Consumers -/

section

variable [Elementary] {e : OutputDecl} {l : Literal} {q : (OutputRef → Quantity) → Quantity}

/-- The consumers of an output are unlinked from it, and receive other values instead. -/
def Supplants (o : OutputRef) (q : (OutputRef → Quantity) → Quantity) (g g' : Graph) : Prop :=
  ∀ r, g.linkAt r = some o → g'.linkAt r ≠ some o ∧
    ∀ v, g.Assigns o.node v → g'.delivered exactArithmetic v o.node r = q v

/-- A literal of the type of an output arrives at the consumers as it is. -/
theorem Stores.supplants (h : g.Stores o l g') (hg : g.WellFormed) (ho : g.outputDecl? o = some e)
    (hshape : l.hasShape e.type = true) (hfloat : e.type.isFloating = true)
    (hq : ∀ v, g.Assigns o.node v → q v = l.quantity) : g.Supplants o q g' := by
  intro r hr
  obtain ⟨d, hd⟩ := g.inputDecl?_of_linkAt hr
  have hnone : g'.linkAt r = none := h.trims.cut r hr
  have hl := h.literalAt_eq r d hr hd
  rw [Literal.convert_of_linksTo hshape hfloat (hg.typed r o d e hr hd ho).2] at hl
  exact ⟨by simp [hnone], fun v hv => (delivered_of_literal hnone hl).trans (hq v hv).symm⟩

theorem Redirects.supplants (h : g.Redirects o s g') (hs : s.node ≠ o.node)
    (hq : ∀ v, g.Assigns o.node v → q v = v s) : g.Supplants o q g' := by
  intro r hr
  have hl := h.moved r hr
  refine ⟨fun hne => hs ?_, fun v hv => (delivered_of_link hl hs).trans (hq v hv).symm⟩
  rw [Option.some.inj (hl.symm.trans hne)]

end

end Graph

namespace Edit

variable [Elementary] {g : Graph} {o : OutputRef} {e : OutputDecl} {k : NodeKind}
  {q : (OutputRef → Quantity) → Quantity} (hg : g.WellFormed) (hm : g.finalized = false)
  (ho : g.outputDecl? o = some e)
include hg hm ho

/-- The consumers hold a constant that the output is known to be. -/
theorem ends_makeConstant_supplants {l : Literal} {c : ℚ} (hshape : l.hasShape e.type = true)
    (hfloat : e.type.isFloating = true) (hl : l.quantity.IsConst c)
    (hq : ∀ v, g.Assigns o.node v → (q v).HasType e.type ∧ (q v).IsConst c) :
    (makeConstant o l).Ends g fun _ g' => g' = g ∨ g.Supplants o q g' := by
  refine (ends_makeConstant_stores hg hm ho l).mono fun _ _ h => Or.inr ?_
  exact h.supplants hg ho hshape hfloat fun v hv =>
    (hq v hv).1.eq_of_isConst (Literal.hasType_quantity hshape hfloat) (hq v hv).2 hl

theorem ends_makeZero_supplants
    (hq : ∀ v, g.Assigns o.node v → (q v).HasType e.type ∧ (q v).IsConst 0) :
    (makeZero o).Ends g fun _ g' => g' = g ∨ g.Supplants o q g' := by
  refine meets_ask_output_bind (fun out hout => ?_) fun hn => by simp [hn] at ho
  obtain rfl : e = out.toOutputDecl := by simpa [Graph.outputDecl?, hout] using ho.symm
  split_ifs with hfloat
  · exact ends_makeConstant_supplants hg hm ho (Literal.hasShape_zero _) hfloat
      (Literal.isConst_quantity_zero _) hq
  · exact ends_pure (Or.inl rfl)

theorem ends_makeOne_supplants
    (hq : ∀ v, g.Assigns o.node v → (q v).HasType e.type ∧ (q v).IsConst 1) :
    (makeOne o).Ends g fun _ g' => g' = g ∨ g.Supplants o q g' := by
  refine meets_ask_output_bind (fun out hout => ?_) fun hn => by simp [hn] at ho
  obtain rfl : e = out.toOutputDecl := by simpa [Graph.outputDecl?, hout] using ho.symm
  split_ifs with hfloat hfloat3
  · exact ends_makeConstant_supplants hg hm ho (by rw [hfloat]; rfl) (by rw [hfloat]; rfl)
      (Literal.isConst_quantity_of_isOne (by decide +kernel)) hq
  · exact ends_makeConstant_supplants hg hm ho hfloat3 (by simp [SocketType.isFloating, hfloat3])
      (Literal.isConst_quantity_of_isOne (by decide +kernel)) hq
  · exact ends_pure (Or.inl rfl)

section

variable (hk : g.kind? o.node = some k) (hself : ¬ g.Feeds o.node o.node)
include hk hself

/-- An input is passed on without being clamped. -/
theorem ends_passThrough_supplants {name : String} {i : Nat}
    (hslot : k.layout.inputSlot? name = some i)
    (hq : ∀ v, g.Assigns o.node v → (q v).HasType e.type ∧
      (Shortcut.passThrough name).Gives (g.receives exactArithmetic v o.node) (q v)) :
    (passThrough o name false).Ends g fun replaced g' =>
      if replaced then g.Supplants o q g' else g' = g := by
  obtain ⟨d, hd⟩ := hg.exists_inputDecl? hk hslot
  have hname : ∀ v, g.receives exactArithmetic v o.node name =
      g.receivedAt exactArithmetic v ⟨o.node, i⟩ := fun v =>
    Graph.receives_of_inputRef (hg.inputRef_eq hk hslot)
  refine (ends_passThrough_passesOn hg hm ho hk hslot hd false).mono fun replaced g' h => ?_
  cases h with
  | kept => rfl
  | stored hty hfloat hs hl h =>
    have hshape := hg.shaped _ _ _ hd hl
    rw [hty] at hshape hfloat
    refine h.supplants hg ho hshape hfloat fun v hv => ?_
    have hreceived : g.receives exactArithmetic v o.node name = _ :=
      (hname v).trans (Graph.receivedAt_of_literal hs hl)
    rw [(hq v hv).2 e.type (hq v hv).1 (hreceived ▸ Literal.hasType_quantity hshape hfloat),
      hreceived]
    rfl
  | narrowed _ hc => cases hc
  | redirected hty _ hs h =>
    have hfeeds := Graph.feeds_of_linkAt hs
    refine h.supplants (fun hx => hself (hx ▸ hfeeds)) fun v hv => ?_
    have hreceived : g.receives exactArithmetic v o.node name = _ :=
      (hname v).trans (Graph.receivedAt_of_link hs)
    obtain ⟨e', he'⟩ := hg.exists_output hs
    have htype := (hv i _ e' hs he').linksTo (hg.typed _ _ d e' hs hd he').2
    rw [hty] at htype
    rw [(hq v hv).2 e.type (hq v hv).1 (hreceived ▸ htype), hreceived]

theorem ends_apply_supplants {names : List String} (hnames : k.hasInputs names = true)
    {s : Shortcut} (hs : s.Within names)
    (hq : ∀ v, g.Assigns o.node v → (q v).HasType e.type ∧
      s.Gives (g.receives exactArithmetic v o.node) (q v)) :
    (s.apply o false).Ends g fun _ g' => g' = g ∨ g.Supplants o q g' := by
  cases s with
  | keep => exact ends_pure (Or.inl rfl)
  | zero => exact ends_makeZero_supplants hg hm ho hq
  | one => exact ends_makeOne_supplants hg hm ho hq
  | passThrough name =>
    obtain ⟨i, hslot⟩ := k.exists_inputSlot? hnames hs
    refine ends_discard ((ends_passThrough_supplants hg hm ho hk hself hslot hq).mono ?_)
    rintro (_ | _) g' h
    · exact Or.inl h
    · exact Or.inr h

/-- What an operation computes is put in its place without being clamped. -/
theorem ends_foldMath_supplants {op : MathOp} {clamped : Bool} (hkind : k = .math op clamped) :
    (foldMath o op).Ends g fun _ g' => g' = g ∨ g.Supplants o (g.mathResult o.node op) g' := by
  subst hkind
  have htype : e.type = .float := by rw [List.mem_singleton.mp (hg.mem_outputDecls hk ho)]
  obtain ⟨s, hs, hw⟩ := op.found_shortcut (answer_ofGraph hg hk rfl)
  refine ends_ask_bind hs (ends_apply_supplants hg hm ho hk hself rfl hw fun v _ => ⟨htype, ?_⟩)
  exact op.gives_shortcut (g.readsLiterals_receives o.node v).tells s hs

theorem ends_foldVectorMath_supplants {op : VectorOp} (hkind : k = .vectorMath op) {n : Node}
    (hn : g.node? o.node = some n) :
    (foldVectorMath o op).Ends g fun _ g' => g' = g ∨
      g.Supplants o (fun v => n.computed exactArithmetic v o.slot) g' := by
  subst hkind
  have hkind' : n.kind = .vectorMath op := by simpa [Graph.kind?, hn] using hk
  obtain ⟨s, hs, hw⟩ := op.found_shortcut (answer_ofGraph hg hk rfl)
  refine ends_ask_bind hs (ends_apply_supplants hg hm ho hk hself rfl hw fun v hv => ?_)
  obtain ⟨hvalue, hvector⟩ := hg.computed_vectorMath (v := v) hn hkind'
  obtain ⟨hgives₀, hgives₁⟩ := op.gives_shortcut (g.readsLiterals_receives o.node v).tells
    (hg.hasType_receives hv hk (i := 0) rfl rfl rfl)
    (hg.hasType_receives hv hk (i := 1) rfl rfl rfl) s hs
  have hdecl := (hg.outputDecl?_eq hk o.slot).symm.trans ho
  rcases hslot : o.slot with _ | _ | i
  · rw [hslot] at hdecl
    cases hdecl
    rw [hvalue]
    exact ⟨rfl, hgives₀⟩
  · rw [hslot] at hdecl
    cases hdecl
    rw [hvector]
    exact ⟨rfl, hgives₁⟩
  · rw [hslot] at hdecl
    cases hdecl

theorem ends_foldMix_supplants {mode : BlendMode} (hkind : k = .mix mode false) {n : Node}
    (hn : g.node? o.node = some n) :
    (foldMix o mode false).Ends g fun _ g' => g' = g ∨
      g.Supplants o (g.mixResult o.node mode) g' := by
  subst hkind
  have hkind' : n.kind = .mix mode false := by simpa [Graph.kind?, hn] using hk
  have htype : ∀ v, (g.mixResult o.node mode v).HasType e.type := fun v => by
    rw [List.mem_singleton.mp (hg.mem_outputDecls hk ho)]
    rfl
  have htell := fun v => hg.tell_receives (v := v) hn hkind'
  have hrest : (do
      let s ← ask fun g => mode.shortcut (MixFacts.ofNode n) (.ofGraph g o.node)
      s.apply o false).Ends g fun _ g' => g' = g ∨ g.Supplants o (g.mixResult o.node mode) g' := by
    obtain ⟨s, hs, hw⟩ := mode.found_shortcut (answer_ofGraph hg hk rfl) (MixFacts.ofNode n)
    refine ends_ask_bind hs (ends_apply_supplants hg hm ho hk hself rfl hw fun v _ => ⟨htype v, ?_⟩)
    exact mode.gives_shortcut (g.readsLiterals_receives o.node v).tells (htell v) s hs
  refine meets_ask_node_bind (fun m hm' => ?_) fun hnone => by simp [hnone] at hk
  obtain rfl : m = n := by simpa [hn] using hm'.symm
  dsimp only
  split
  · rename_i hzero
    refine Ends.bind (ends_passThrough_supplants (q := g.mixResult o.node mode) hg hm ho hk hself
      (i := 1) rfl fun v _ => ⟨htype v, ?_⟩) fun replaced g' h => ?_
    · exact Shortcut.gives_triple (mode.eval_facZero ((htell v).facZero hzero) _ _)
    · cases replaced with
      | true => exact ends_pure (Or.inr h)
      | false =>
        rw [if_neg Bool.false_ne_true] at h
        rw [h]
        exact hrest
  · exact hrest

end

end Edit

/-! ### Results -/

/-- Arithmetic whose results are not clamped. -/
def NodeKind.isUnclamped : NodeKind → Bool
  | math _ clamped => !clamped
  | vectorMath _ => true
  | mix _ clamped => !clamped
  | _ => false

namespace Edit

section

variable [Elementary] {g : Graph} {o : OutputRef} {n : Node}

/-- The rule for a node that is not evaluated from its literals. -/
theorem ends_foldOutput_unclamped {e : OutputDecl} (hg : g.WellFormed) (hm : g.finalized = false)
    (hn : g.node? o.node = some n) (ho : g.outputDecl? o = some e)
    (hkind : n.kind.isUnclamped = true) (hlinked : n.hasLinkedInput = true)
    (hself : ¬ g.Feeds o.node o.node) :
    (foldOutput o).Ends g fun _ g' => g' = g ∨
      g.Supplants o (fun v => n.computed exactArithmetic v o.slot) g' := by
  have hk : g.kind? o.node = some n.kind := by simp [Graph.kind?, hn]
  have hsingle : n.kind.outputDecls.length = 1 → o.slot = 0 := fun hlen => by
    have hdecl := (hg.outputDecl?_eq hk o.slot).symm.trans ho
    have hlt := (List.getElem?_eq_some_iff.mp hdecl).1
    omega
  refine meets_ask_node_bind (fun m hm' => ?_) fun hnone => by simp [hnone] at hk
  obtain rfl : m = n := by simpa [hn] using hm'.symm
  dsimp only
  rw [hlinked]
  cases hkind' : m.kind with
  | math op clamped =>
    obtain rfl : clamped = false := by simpa [hkind', NodeKind.isUnclamped] using hkind
    have hresult : (fun v => m.computed exactArithmetic v o.slot) = g.mathResult o.node op := by
      funext v
      rw [hsingle (by rw [hkind']; rfl), hg.computed_math hn hkind', Quantity.clampIf_false]
    rw [hresult]
    exact ends_foldMath_supplants hg hm ho hk hself hkind'
  | vectorMath op => exact ends_foldVectorMath_supplants hg hm ho hk hself hkind' hn
  | mix mode clamped =>
    obtain rfl : clamped = false := by simpa [hkind', NodeKind.isUnclamped] using hkind
    have hresult : (fun v => m.computed exactArithmetic v o.slot) = g.mixResult o.node mode := by
      funext v
      rw [hsingle (by rw [hkind']; rfl), hg.computed_mix hn hkind', Quantity.clampIf_false]
    rw [hresult]
    exact ends_foldMix_supplants hg hm ho hk hself hkind' hn
  | _ => simp [hkind', NodeKind.isUnclamped] at hkind

/-- **Folding is exact.** Whatever the fold rule does to an output of unclamped arithmetic, its
consumers receive what the node has computed, for all values upstream. -/
theorem foldOutput_delivers_result (hg : g.WellFormed) (hm : g.finalized = false)
    (hn : g.node? o.node = some n) (hkind : n.kind.isUnclamped = true)
    (hlinked : n.hasLinkedInput = true) (hself : ¬ g.Feeds o.node o.node)
    (hslot : o.slot < n.outputs.length) :
    (foldOutput o).Ends g fun _ g' => ∀ v, g.Assigns o.node v → ∀ r ∈ g.fanOut o,
      g'.delivered exactArithmetic v o.node r = n.computed exactArithmetic v o.slot := by
  obtain ⟨e, ho⟩ := (g.exists_outputDecl?_iff hn o.slot).mpr hslot
  refine (ends_foldOutput_unclamped hg hm hn ho hkind hlinked hself).mono fun _ g' h v hv r hr => ?_
  have hl := (hg.link_iff r o).mpr hr
  rcases h with rfl | h
  · exact Graph.delivered_of_node hl hn
  · exact (h r hl).2 v hv

end

/-- A number to the power of zero as the strength of an emission. -/
def zerothPower : Graph :=
  Primitive.runAll [.addKind .geometry, .addKind (.math .power false), .addKind (.emission false),
    .storeNamed 2 "Value2" (.float 0), .connect ⟨1, 6⟩ ⟨2, 0⟩, .connect ⟨2, 0⟩ ⟨3, 1⟩] Graph.empty

theorem foldOutput_delivers_result_zerothPower :
    zerothPower.WellFormed ∧ ∃ n, zerothPower.node? 2 = some n ∧ n.hasLinkedInput = true ∧
      (foldOutput ⟨2, 0⟩).Ends zerothPower fun _ g' => (g'.literalAt ⟨3, 1⟩).any (·.isOne) = true ∧
        g'.delivered (@exactArithmetic .simplest) (fun _ => .number 3) 2 ⟨3, 1⟩ =
          n.computed (@exactArithmetic .simplest) (fun _ => .number 3) 0 := by
  have hg : zerothPower.WellFormed := (Primitive.follows_runAll Graph.wellFormed_empty _).wellFormed
  have hnode : (zerothPower.node? 2).any (fun n => n.kind.isUnclamped && n.hasLinkedInput &&
    decide (0 < n.outputs.length)) = true := by decide +kernel
  obtain ⟨n, hn, hp⟩ := (Option.any_eq_true ..).mp hnode
  simp only [Bool.and_eq_true, decide_eq_true_eq] at hp
  have hself : ¬ zerothPower.Feeds 2 2 := by
    rw [← Graph.mem_feeders]
    decide +kernel
  have hends : (foldOutput ⟨2, 0⟩).Ends zerothPower fun _ g' =>
    (g'.literalAt ⟨3, 1⟩).any (·.isOne) = true := by decide +kernel
  refine ⟨hg, n, hn, hp.1.2, (hends.and (@foldOutput_delivers_result .simplest _ ⟨2, 0⟩ n hg
    (by decide +kernel) hn hp.1.1 hp.1.2 hself hp.2)).mono fun _ g' h => ⟨h.1, h.2 _ ?_ _ ?_⟩⟩
  · have hk : zerothPower.kind? 2 = some (.math .power false) := by decide +kernel
    exact hg.assigns_math hk fun _ => 3
  · decide +kernel

/-! ### Clamped operations -/

section

variable [Elementary] {g : Graph} {n : Node}

/-- **Clamping is forgotten.** If all inputs of a clamped operation are literals, its consumers hold
the clamped result. If the rule replaces the result otherwise, the consumers receive it as it is, so
that the clamp is missing unless the result lies in the unit interval anyway. -/
theorem foldOutput_clamped_math {x : NodeId} {op : MathOp} (hg : g.WellFormed)
    (hm : g.finalized = false) (hn : g.node? x = some n) (hkind : n.kind = .math op true)
    (hself : ¬ g.Feeds x x) :
    (n.hasLinkedInput = false → (foldOutput ⟨x, 0⟩).Ends g fun _ g' => ∀ r ∈ g.fanOut ⟨x, 0⟩,
      g'.linkAt r = none ∧ g'.literalAt r = some (.float (Scalar.saturate (mathValue n op)))) ∧
    (n.hasLinkedInput = true → (foldOutput ⟨x, 0⟩).Ends g fun _ g' => g' = g ∨
      ∀ r ∈ g.fanOut ⟨x, 0⟩, g'.linkAt r ≠ some ⟨x, 0⟩ ∧ ∀ v, g.Assigns x v →
        g'.delivered exactArithmetic v x r = g.mathResult x op v ∧
        (g'.delivered exactArithmetic v x r = (g.mathResult x op v).clampIf true ↔
          0 ≤ (g.mathResult x op v).toNumber ∧ (g.mathResult x op v).toNumber ≤ 1)) := by
  have hk : g.kind? x = some (.math op true) := by simp [Graph.kind?, hn, hkind]
  have ho : g.outputDecl? ⟨x, 0⟩ = some ⟨"Value", .float⟩ := hg.outputDecl?_eq hk 0
  refine ⟨fun hlinked => ?_, fun hlinked => ?_⟩
  · refine meets_ask_node_bind (fun m hm' => ?_) fun hnone => by simp [hnone] at hk
    obtain rfl : m = n := by simpa [hn] using hm'.symm
    dsimp only
    rw [hkind, hlinked]
    refine (ends_makeConstant_stores hg hm ho _).mono fun _ g' h r hr => ?_
    have hl := (hg.link_iff r _).mpr hr
    obtain ⟨d, hd⟩ := g.inputDecl?_of_linkAt hl
    refine ⟨h.trims.cut r hl, (h.literalAt_eq r d hl hd).trans (congrArg some ?_)⟩
    have hshape : (Literal.float (Scalar.saturate (mathValue m op))).hasShape .float = true := rfl
    exact Literal.convert_of_linksTo hshape rfl (hg.typed r _ d _ hl hd ho).2
  · refine meets_ask_node_bind (fun m hm' => ?_) fun hnone => by simp [hnone] at hk
    obtain rfl : m = n := by simpa [hn] using hm'.symm
    dsimp only
    rw [hkind, hlinked]
    refine (ends_foldMath_supplants (o := ⟨x, 0⟩) hg hm ho hk hself rfl).mono fun _ g' h => ?_
    refine h.imp_right fun h r hr => ?_
    obtain ⟨hne, hvalue⟩ := h r ((hg.link_iff r _).mpr hr)
    refine ⟨hne, fun v hv => ⟨hvalue v hv, ?_⟩⟩
    rw [hvalue v hv, eq_comm]
    exact (Quantity.number.injEq ..).to_iff.trans Scalar.saturate_eq_self_iff

end

/-- A clamped sum of zero and two as the strength of an emission. -/
def clampedSum : Graph :=
  Primitive.runAll [.addKind .value, .addKind (.math .add true), .addKind (.emission false),
    .storeNamed 1 "Value" (.float 2), .storeNamed 2 "Value1" (.float 0), .connect ⟨1, 0⟩ ⟨2, 1⟩,
    .connect ⟨2, 0⟩ ⟨3, 1⟩, .connect ⟨3, 0⟩ ⟨0, 0⟩] Graph.empty

theorem wellFormed_clampedSum : clampedSum.WellFormed :=
  (Primitive.follows_runAll Graph.wellFormed_empty _).wellFormed

theorem kind?_clampedSum : clampedSum.kind? 2 = some (.math .add true) := by decide +kernel

theorem mathResult_clampedSum [Elementary] (q : ℚ) :
    clampedSum.mathResult 2 .add (fun _ => .number q) = .number q := by
  have htest : (InputTests.ofGraph clampedSum 2).isZero "Value1" = .ok true := by decide +kernel
  have hzero := (clampedSum.readsLiterals_receives 2 fun _ => .number q).tells.zero htest
  have hlink : clampedSum.linkAt ⟨2, 1⟩ = some ⟨1, 0⟩ := by decide +kernel
  rw [Graph.mathResult, hzero.toNumber_eq,
    Graph.receives_of_inputRef (wellFormed_clampedSum.inputRef_eq kind?_clampedSum (i := 1) rfl),
    Graph.receivedAt_of_link hlink]
  exact congrArg Quantity.number (zero_add q)

/-- Within the unit interval the sum is the same without the clamp. -/
theorem foldOutput_clamped_math_clampedSum :
    letI : Elementary := .simplest
    (foldOutput ⟨2, 0⟩).Ends clampedSum fun _ g' => g'.linkAt ⟨3, 1⟩ = some ⟨1, 0⟩ ∧
      g'.delivered exactArithmetic (fun _ => .number (1 / 2)) 2 ⟨3, 1⟩ =
        (clampedSum.mathResult 2 .add fun _ => .number (1 / 2)).clampIf true := by
  let _ : Elementary := .simplest
  have hnode : (clampedSum.node? 2).any (·.hasLinkedInput) = true := by decide +kernel
  obtain ⟨n, hn, hlinked⟩ := (Option.any_eq_true ..).mp hnode
  have hkind : n.kind = .math .add true := by simpa [Graph.kind?, hn] using kind?_clampedSum
  have hself : ¬ clampedSum.Feeds 2 2 := by
    rw [← Graph.mem_feeders]
    decide +kernel
  have hends : (foldOutput ⟨2, 0⟩).Ends clampedSum fun _ g' =>
    g'.linkAt ⟨3, 1⟩ = some ⟨1, 0⟩ ∧ clampedSum.linkAt ⟨3, 1⟩ ≠ some ⟨1, 0⟩ := by decide +kernel
  refine (hends.and ((foldOutput_clamped_math wellFormed_clampedSum (by decide +kernel) hn hkind
    hself).2 hlinked)).mono ?_
  rintro _ g' ⟨⟨hl, hne⟩, rfl | h⟩
  · exact absurd hl hne
  · refine ⟨hl, (((h ⟨3, 1⟩ (by decide +kernel)).2 _
      (wellFormed_clampedSum.assigns_math kind?_clampedSum fun _ => 1 / 2)).2.mpr ?_)⟩
    rw [mathResult_clampedSum]
    norm_num [Quantity.toNumber]

/-- The clamped sum is one, and so is the strength if all constants are propagated. But if the sum is
folded first, the strength is two. -/
theorem foldOutput_clampedSum_unclamped :
    letI : Elementary := .simplest
    ((clean Scene.empty).Ends clampedSum fun _ _ => True) ∧
      (clampedSum.mathResult 2 .add fun _ => .number 2).clampIf true = .number 1 ∧
      ((foldOutput ⟨2, 0⟩).Ends clampedSum fun _ g' => g'.linkAt ⟨3, 1⟩ = some ⟨1, 0⟩ ∧
        g'.delivered exactArithmetic (fun _ => .number 2) 2 ⟨3, 1⟩ = .number 2) ∧
      (propagateConstants.Ends clampedSum fun _ g' =>
        (g'.literalAt ⟨3, 1⟩).any (· == Literal.float 1) = true) ∧
      (do foldOutput ⟨2, 0⟩; propagateConstants : Edit Unit).Ends clampedSum fun _ g' =>
        (g'.literalAt ⟨3, 1⟩).any (· == Literal.float 2) = true := by
  let _ : Elementary := .simplest
  refine ⟨by decide +kernel, ?_, ?_, by decide +kernel, by decide +kernel⟩
  · rw [mathResult_clampedSum]
    have hone : Scalar.saturate (2 : ℚ) = 1 := Scalar.saturate_eq_one_iff.mpr (by norm_num)
    exact congrArg Quantity.number hone
  · have hends : (foldOutput ⟨2, 0⟩).Ends clampedSum fun _ g' =>
      g'.linkAt ⟨3, 1⟩ = some ⟨1, 0⟩ := by decide +kernel
    exact hends.mono fun _ g' hl => ⟨hl, Graph.delivered_of_link hl (by decide)⟩

end Edit

end Shading
