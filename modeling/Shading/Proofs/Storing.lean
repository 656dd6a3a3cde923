import Shading.Proofs.Folding
import Shading.Proofs.ProxyChain
import Shading.Proofs.Quantity
import Shading.Proofs.Update

/-!
# Literals that are stored as they are

An input converts a literal to its type when it stores it, also a literal that is of this type
already. A truth value, a number, a triple, a text and a closure stay as they are then. An integer
goes to a binary32 number and back on the way, and stays as it is if and only if it survives this
(`Literal.convert_eq_self_iff`). All edits that copy literals into inputs lose the same integers.

What an input holds was stored in it, and has lost all that it can lose. So in a graph that was
written by means of the primitives every literal can be copied without loss (`Graph.HoldsExact`). -/

namespace Shading

namespace Literal

/-- Whether a literal comes through a conversion to its own type: an integer does if a binary32
number keeps it, all else does anyway. -/
def isExact : Literal → Bool
  | int n => Binary32.keeps n
  | _ => true

variable {l : Literal} {type type' : SocketType}

theorem isExact_zero (type : SocketType) : (zero type).isExact = true := by
  cases type <;> rfl

/-- What has been stored once can be stored again without loss. -/
theorem isExact_convert (l : Literal) (type : SocketType) (fromColor : Bool) :
    (l.convert type fromColor).isExact = true := by
  cases type with
  | int => exact Binary32.keeps_toInt32 _
  | string => cases l <;> rfl
  | _ => rfl

theorem convert_eq_self_iff (h : l.hasShape type = true) (fromColor : Bool) :
    l.convert type fromColor = l ↔ l.isExact = true := by
  cases l with
  | float3 v => exact iff_of_true (convert_float3 h v fromColor) rfl
  | int n =>
    obtain rfl := beq_iff_eq.mp h
    rw [isExact, ← Binary32.toInt32_ofInt32_eq_iff]
    exact ⟨Literal.int.inj, congrArg Literal.int⟩
  | boolean b =>
    -- A truth value is tested as the number one or zero.
    have htest : ∀ b : Bool, ((if b then 1 else 0 : Binary32) != 0) = b := by decide +kernel
    obtain rfl := beq_iff_eq.mp h
    exact iff_of_true (congrArg boolean (htest b)) rfl
  | float _ | string _ | closure =>
    obtain rfl := beq_iff_eq.mp h
    exact iff_of_true rfl rfl

/-- The integer $2^{24} + 1$ is lost. -/
theorem convert_two_pow_24_succ : (int 16777217).hasShape .int = true ∧
    (int 16777217).convert .int false = int 16777216 ∧ int 16777216 ≠ int 16777217 := by
  have hlost : (Binary32.ofInt32 16777217).toInt32 = 16777216 := by decide +kernel
  exact ⟨rfl, congrArg int hlost, fun h => absurd (int.inj h) (by decide)⟩

theorem hasShape_of_linksTo (h : l.hasShape type = true) (hfit : type.linksTo type' = true) :
    l.hasShape type' = true := by
  have hcase : type = type' ∨ type.isFloat3 = true ∧ type'.isFloat3 = true := by
    revert hfit
    cases type <;> cases type' <;> decide
  rcases hcase with rfl | ⟨htriple, htriple'⟩
  · exact h
  · exact hasShape_of_isFloat3 h htriple htriple'

end Literal

/-- All initial literals of the catalog can be stored without loss. -/
theorem NodeKind.isExact_initial (k : NodeKind) : ∀ d ∈ k.inputDecls, d.initial.isExact = true := by
  cases k with
  | convert source _ _ => simp [NodeKind.inputDecls, Literal.isExact_zero]
  | osl script =>
    intro d hd
    obtain ⟨s, -, rfl⟩ := List.mem_map.mp hd
    exact Literal.isExact_zero s.type
  | _ =>
    simp [NodeKind.inputDecls, InputDecl.closure, InputDecl.triple, InputDecl.scalar,
      InputDecl.constant, InputDecl.shadingNormal, Literal.isExact, Literal.zero]

namespace Graph

variable {g g' : Graph} {r : InputRef} {d : InputDecl} {l : Literal}

theorem literalAt_eq_iff_isExact (hl : g.literalAt r = some (l.convert d.type false))
    (h : l.hasShape d.type = true) : g.literalAt r = some l ↔ l.isExact = true := by
  rw [hl, Option.some.injEq, Literal.convert_eq_self_iff h]

theorem literalAt_store_eq_iff (hd : g.inputDecl? r = some d) (h : l.hasShape d.type = true) :
    (g.modifyInput r (Input.store l)).literalAt r = some l ↔ l.isExact = true :=
  literalAt_eq_iff_isExact (by simp [literalAt_store, hd]) h

theorem ProxyChain.exists_inputDecl? {ps : List NodeId} {p : NodeId} {e : Option OutputRef}
    (h : g.ProxyChain r (ps ++ [p]) e) : ∃ d, g.inputDecl? r = some d := by
  generalize hqs : ps ++ [p] = qs at h
  cases h with
  | dry _ => simp at hqs
  | source hl _ | through hl _ _ => exact g.inputDecl?_of_linkAt hl

/-- The literals of all inputs can be stored in inputs of their types without loss. -/
def HoldsExact (g : Graph) : Prop := ∀ r l, g.literalAt r = some l → l.isExact = true

theorem HoldsExact.push (hg : g.HoldsExact) {n : Node}
    (hn : ∀ i ∈ n.inputs, i.literal.isExact = true) : (g.push n).HoldsExact := by
  intro r l hl
  rw [literalAt_push] at hl
  split_ifs at hl
  · obtain ⟨i, hi, rfl⟩ := Option.map_eq_some_iff.mp hl
    exact hn i (List.mem_of_getElem? hi)
  · exact hg r l hl

theorem HoldsExact.push_ofKind (hg : g.HoldsExact) (k : NodeKind) :
    (g.push (.ofKind k)).HoldsExact := by
  refine hg.push fun i hi => ?_
  obtain ⟨d, hd, rfl⟩ := List.mem_map.mp hi
  exact k.isExact_initial d hd

theorem HoldsExact.of_node? (hg : g.HoldsExact) {id : NodeId} {n : Node}
    (hn : g.node? id = some n) : ∀ i ∈ n.inputs, i.literal.isExact = true := by
  intro i hi
  obtain ⟨slot, hslot, rfl⟩ := List.getElem_of_mem hi
  exact hg ⟨id, slot⟩ _ (by simp [literalAt, input?, hn, hslot])

/-- **One update.** A literal comes into a graph from the catalog, from another node or by being
stored. -/
theorem HoldsExact.update {K : NodeKind → Prop} (hg : g.HoldsExact) (h : Update K NoNote g g') :
    g'.HoldsExact := by
  cases h with
  | add _ => exact hg.push_ofKind _
  | copy hn hm =>
    rcases hm with rfl | rfl
    · exact hg.push (hg.of_node? hn)
    · refine hg.push fun i hi => ?_
      obtain ⟨j, hj, rfl⟩ := List.mem_map.mp hi
      exact hg.of_node? hn j hj
  | link s t => exact fun r l hl => hg r l (by simpa using hl)
  | unlink s t => exact fun r l hl => hg r l (by simpa using hl)
  | unlinkOutput s ts => exact fun r l hl => hg r l (by simpa using hl)
  | store t l =>
    intro r l' hl
    rw [literalAt_store] at hl
    split_ifs at hl
    · obtain ⟨d, -, rfl⟩ := Option.map_eq_some_iff.mp hl
      exact l.isExact_convert d.type false
    · exact hg r l' hl
  | note id hf => exact hf.elim
  | drop ids =>
    intro r l hl
    rw [literalAt_drop] at hl
    split_ifs at hl
    exact hg r l hl
  | touch | report => exact hg

theorem holdsExact_runAll (ps : List Primitive) : (Primitive.runAll ps Graph.empty).HoldsExact := by
  have hall : ∀ g : Graph, g.HoldsExact → (Primitive.runAll ps g).HoldsExact := by
    induction ps with
    | nil => exact fun _ hg => hg
    | cons p ps ih =>
      exact fun g hg => ih _ (Edit.Meets.after (p.updates.meets (fun _ _ hu hg => hg.update hu) hg))
  refine hall _ ?_
  rw [empty_eq_push]
  exact HoldsExact.push_ofKind (fun r l hl => by cases hl) .output

end Graph

namespace Edit

variable {g : Graph} {r : InputRef} {d : InputDecl} {o : OutputRef} {e : OutputDecl} {l : Literal}

theorem ends_storeNamed_eq {id : NodeId} {name : String} (hr : g.inputRef id name = .ok r)
    (l : Literal) : (storeNamed id name l).Ends g fun found g' =>
      found = true ∧ g' = g.modifyInput r (Input.store l) := by
  obtain ⟨_, slot, hlayout, hslot, rfl⟩ := (g.inputRef_eq_ok).mp hr
  obtain ⟨n, hn, rfl⟩ := Option.map_eq_some_iff.mp hlayout
  rw [← n.inputSlot?_eq_layout] at hslot
  refine ends_ask_bind ((g.node_eq_ok).mpr hn) (ends_modify_bind (ends_pure ⟨?_, ?_⟩))
  · simp [hslot]
  · exact g.modifyNode_store_of_inputSlot? hn hslot l

/-- What replaces an output reaches all its consumers in the same way: their types have its
shape. -/
theorem ends_makeConstant_isExact (hg : g.WellFormed) (hm : g.finalized = false)
    (ho : g.outputDecl? o = some e) (h : l.hasShape e.type = true) :
    (makeConstant o l).Ends g fun _ g' => ∀ r, g.linkAt r = some o →
      g'.linkAt r = none ∧ (g'.literalAt r = some l ↔ l.isExact = true) := by
  refine (ends_makeConstant_stores hg hm ho l).mono fun _ g' hs r hr => ⟨hs.trims.cut r hr, ?_⟩
  obtain ⟨d, hd⟩ := g.inputDecl?_of_linkAt hr
  have hshape := Literal.hasShape_of_linksTo h (hg.typed r o d e hr hd ho).2
  exact Graph.literalAt_eq_iff_isExact (hs.literalAt_eq r d hr hd) hshape

/-- An input takes over the literal to which its chain of proxies leads. -/
theorem ends_removeProxies_isExact (hg : g.WellFormed) (hm : g.finalized = false) :
    removeProxies.Ends g fun _ g' => ∀ r ps p l, g.ProxyChain r (ps ++ [p]) none →
      g.literalAt ⟨p, 0⟩ = some l → g'.kind? r.node ≠ none →
        g'.linkAt r = none ∧ (g'.literalAt r = some l ↔ l.isExact = true) := by
  refine (ends_removeProxies_deproxied hg hm).mono ?_
  rintro _ g' ⟨g₁, removed, h⟩ r ps p l hc hl hr
  obtain ⟨c, hcdecl⟩ := (hc.isProxy p (by simp)).exists_inputDecl? hg
  obtain ⟨d, hd⟩ := hc.exists_inputDecl?
  obtain ⟨hlink, hliteral⟩ := h.unfed hg hr hd hc hl
  refine ⟨hlink, Graph.literalAt_eq_iff_isExact hliteral ?_⟩
  exact Literal.hasShape_of_linksTo (hg.shaped _ c l hcdecl hl) (hc.linksTo hg hcdecl hd)

/-- **Copying loses exactly the integers that come back from binary32 as other ones.** A literal of
the shape of an input is stored as it is if and only if it is exact, be it stored in a place, under
a name, instead of an output or instead of a chain of proxies. In a graph that was written by means
of the primitives all literals are exact. -/
theorem copies_exactly_iff (l : Literal) :
    (∀ type fromColor, l.hasShape type = true →
      (l.convert type fromColor = l ↔ l.isExact = true)) ∧
    (∀ g : Graph, g.WellFormed →
      (∀ r d, g.finalized = false → g.inputDecl? r = some d → l.hasShape d.type = true →
        (store r l).Ends g fun _ g' => g'.literalAt r = some l ↔ l.isExact = true) ∧
      (∀ id name r d, g.inputRef id name = .ok r → g.inputDecl? r = some d →
        l.hasShape d.type = true → (storeNamed id name l).Ends g fun found g' =>
          found = true ∧ (g'.literalAt r = some l ↔ l.isExact = true)) ∧
      (∀ o e, g.finalized = false → g.outputDecl? o = some e → l.hasShape e.type = true →
        (makeConstant o l).Ends g fun _ g' => ∀ r, g.linkAt r = some o →
          g'.linkAt r = none ∧ (g'.literalAt r = some l ↔ l.isExact = true)) ∧
      (g.finalized = false → removeProxies.Ends g fun _ g' => ∀ r ps p,
        g.ProxyChain r (ps ++ [p]) none → g.literalAt ⟨p, 0⟩ = some l → g'.kind? r.node ≠ none →
          g'.linkAt r = none ∧ (g'.literalAt r = some l ↔ l.isExact = true))) ∧
    ∀ ps r, (Primitive.runAll ps Graph.empty).literalAt r = some l → l.isExact = true := by
  refine ⟨fun _ fromColor h => Literal.convert_eq_self_iff h fromColor,
    fun g hg => ⟨?_, ?_, ?_, ?_⟩, fun ps r hl => Graph.holdsExact_runAll ps r l hl⟩
  · intro r d hm hd h
    refine (ends_store_eq hm hd l).mono ?_
    rintro _ _ rfl
    exact Graph.literalAt_store_eq_iff hd h
  · intro id name r d hr hd h
    refine (ends_storeNamed_eq hr l).mono ?_
    rintro _ _ ⟨rfl, rfl⟩
    exact ⟨rfl, Graph.literalAt_store_eq_iff hd h⟩
  · exact fun o e hm ho h => ends_makeConstant_isExact hg hm ho h
  · exact fun hm => (ends_removeProxies_isExact hg hm).mono fun _ _ h r ps p => h r ps p l

/-- An integer reaches a conversion through a proxy. -/
def counted : Graph :=
  Primitive.runAll [.addKind (.proxy .int), .addKind (.convert .int .float false),
    .store ⟨1, 0⟩ (.int 33554436), .connect ⟨1, 0⟩ ⟨2, 0⟩] Graph.empty

theorem copies_exactly_iff_counted :
    counted.WellFormed ∧ counted.finalized = false ∧
      ((store ⟨2, 0⟩ (.int 16777217)).Ends counted fun _ g' =>
        g'.literalAt ⟨2, 0⟩ ≠ some (.int 16777217)) ∧
      ((storeNamed 2 "value_int" (.int 33554436)).Ends counted fun _ g' =>
        g'.literalAt ⟨2, 0⟩ = some (.int 33554436)) ∧
      ((makeConstant ⟨1, 0⟩ (.int 33554436)).Ends counted fun _ g' =>
        g'.linkAt ⟨2, 0⟩ = none ∧ g'.literalAt ⟨2, 0⟩ = some (.int 33554436)) ∧
      removeProxies.Ends counted fun _ g' =>
        g'.linkAt ⟨2, 0⟩ = none ∧ g'.literalAt ⟨2, 0⟩ = some (.int 33554436) := by
  have hg : counted.WellFormed := (Primitive.follows_runAll Graph.wellFormed_empty _).wellFormed
  have hm : counted.finalized = false := by decide +kernel
  have hk : counted.kind? 2 = some (.convert .int .float false) := by decide +kernel
  have hd := hg.inputDecl?_eq hk 0
  have hlink : counted.linkAt ⟨2, 0⟩ = some ⟨1, 0⟩ := by decide +kernel
  have hp : counted.kind? 1 = some (.proxy .int) := by decide +kernel
  have hkeeps : (Literal.int 33554436).isExact = true := by decide +kernel
  have hshape : (Literal.int 33554436).hasShape .int = true := rfl
  have hheld : counted.literalAt ⟨1, 0⟩ = some (.int 33554436) :=
    congrArg some ((Literal.convert_eq_self_iff hshape false).mpr hkeeps)
  obtain ⟨-, hlost, -⟩ := copies_exactly_iff (.int 16777217)
  obtain ⟨-, hkept, -⟩ := copies_exactly_iff (.int 33554436)
  obtain ⟨-, hnamed, hconstant, hproxy⟩ := hkept counted hg
  refine ⟨hg, hm, ?_, ?_, ?_, ?_⟩
  · refine ((hlost counted hg).1 _ _ hm hd rfl).mono fun _ g' h hl => ?_
    exact absurd (h.mp hl) (by decide +kernel)
  · exact (hnamed 2 "value_int" ⟨2, 0⟩ _ (hg.inputRef_eq hk rfl) hd rfl).mono
      fun _ g' h => h.2.mpr hkeeps
  · exact (hconstant ⟨1, 0⟩ _ hm (hg.outputDecl?_eq hp 0) rfl).mono fun _ g' h =>
      (h ⟨2, 0⟩ hlink).imp_right (·.mpr hkeeps)
  · have hstays : removeProxies.Meets counted (fun _ g' => g'.kind? 2 ≠ none) fun _ => True := by
      decide +kernel
    refine ((hproxy hm).and_meets hstays).mono fun _ g' h => ?_
    refine (h.1 ⟨2, 0⟩ [] 1 ?_ hheld h.2).imp_right (·.mpr hkeeps)
    exact .through hlink ⟨_, hp, rfl⟩ (.dry (by decide +kernel))

end Edit

end Shading
