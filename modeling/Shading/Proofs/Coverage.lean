import Shading.Proofs.Fingerprint

/-!
# What a fingerprint covers

A fingerprint depends on the nodes behind the displacement and on nothing else in the graph
(`Graph.fingerprint_congr`). Of these nodes it takes in all that they hold: a literal can be read back
from its bytes, so that two graphs which are linked in the same way and differ in one literal behind
the displacement have different fingerprints (`Graph.fingerprint_ne_of_content_ne`). -/

namespace Shading

namespace Literal

/-! ### Reading literals back -/

/-- The length of a text fits into the eight bytes that it is written in. -/
def Fits : Literal → Prop
  | string s => s.utf8ByteSize < 2 ^ 64
  | _ => True

instance : DecidablePred Fits
  | string s => inferInstanceAs (Decidable (s.utf8ByteSize < 2 ^ 64))
  | boolean _ | float _ | int _ | float3 _ | closure => inferInstanceAs (Decidable True)

theorem length_utf8 (s : String) : (utf8 s).length = s.utf8ByteSize := by
  rw [utf8_eq]
  rfl

theorem floatBytes_injective : Function.Injective floatBytes := by
  rintro ⟨x⟩ ⟨y⟩ h
  exact congrArg Binary32.mk (UInt32.toNat_inj.mp (littleEndian_inj x.toNat_lt y.toNat_lt h))

theorem length_floatBytes (x : Binary32) : (floatBytes x).length = 4 := length_littleEndian 4 _

/-- A literal is known from its bytes, whatever follows them. -/
theorem bytes_append_inj {l l' : Literal} {r r' : List UInt8} (hl : l.Fits) (hl' : l'.Fits)
    (h : l.bytes ++ r = l'.bytes ++ r') : l = l' ∧ r = r' := by
  cases l with
  | boolean b =>
    cases l' with
    | boolean c => cases b <;> cases c <;> simp_all [bytes]
    | _ => simp [bytes] at h
  | float x =>
    cases l' with
    | float y =>
      obtain ⟨hxy, hr⟩ := List.append_inj (List.cons.inj h).2 (by simp [length_floatBytes])
      exact ⟨congrArg float (floatBytes_injective hxy), hr⟩
    | _ => simp [bytes] at h
  | int m =>
    cases l' with
    | int n =>
      obtain ⟨hmn, hr⟩ := List.append_inj (List.cons.inj h).2 (by simp)
      have hbits := littleEndian_inj m.toUInt32.toNat_lt n.toUInt32.toNat_lt hmn
      exact ⟨congrArg (fun x => int (.ofUInt32 x)) (UInt32.toNat_inj.mp hbits), hr⟩
    | _ => simp [bytes] at h
  | float3 v =>
    cases l' with
    | float3 w =>
      obtain ⟨hvw, hr⟩ := List.append_inj (List.cons.inj h).2 (by
        simp [Vec3.toList, length_floatBytes])
      simp only [Vec3.toList, List.map_cons, List.map_nil, List.flatten_cons, List.flatten_nil,
        List.append_nil] at hvw
      obtain ⟨hx, hyz⟩ := List.append_inj hvw (by simp [length_floatBytes])
      obtain ⟨hy, hz⟩ := List.append_inj hyz (by simp [length_floatBytes])
      obtain ⟨x, y, z⟩ := v
      obtain ⟨x', y', z'⟩ := w
      cases floatBytes_injective hx
      cases floatBytes_injective hy
      cases floatBytes_injective hz
      exact ⟨rfl, hr⟩
    | _ => simp [bytes] at h
  | string s =>
    cases l' with
    | string t =>
      simp only [bytes, List.cons_append, List.append_assoc, List.cons.injEq, true_and] at h
      obtain ⟨hlen, htext⟩ := List.append_inj h (by simp)
      -- the length comes first, so it is known where the text ends
      have hsize : s.utf8ByteSize = t.utf8ByteSize := littleEndian_inj hl hl' hlen
      obtain ⟨hst, hr⟩ := List.append_inj htext (by rw [length_utf8, length_utf8, hsize])
      exact ⟨congrArg string (utf8_injective hst), hr⟩
    | _ => simp [bytes] at h
  | closure => cases l' <;> simp_all [bytes]

/-- Literals are known from their bytes if the names that stand between them are. -/
theorem flatMap_bytes_inj {names : List String} {ls ls' : List Literal}
    (hlen : ls.length = names.length) (hlen' : ls'.length = names.length)
    (hls : ∀ l ∈ ls, l.Fits) (hls' : ∀ l ∈ ls', l.Fits)
    (h : (names.zip ls).flatMap (fun p => utf8 p.1 ++ p.2.bytes) =
      (names.zip ls').flatMap fun p => utf8 p.1 ++ p.2.bytes) : ls = ls' := by
  induction names generalizing ls ls' with
  | nil => rw [List.length_eq_zero_iff.mp hlen, List.length_eq_zero_iff.mp hlen']
  | cons name names ih =>
    obtain ⟨l, ls, rfl⟩ := List.exists_cons_of_length_eq_add_one hlen
    obtain ⟨l', ls', rfl⟩ := List.exists_cons_of_length_eq_add_one hlen'
    rw [List.forall_mem_cons] at hls hls'
    simp only [List.zip_cons_cons, List.flatMap_cons, List.append_assoc,
      List.append_cancel_left_eq] at h
    obtain ⟨rfl, hrest⟩ := bytes_append_inj hls.1 hls'.1 h
    rw [ih (Nat.succ.inj hlen) (Nat.succ.inj hlen') hls.2 hls'.2 hrest]

end Literal

theorem BumpSample.code_injective : Function.Injective code := by
  intro a b h
  cases a <;> cases b <;> simp_all [code]

namespace Node

variable {m n : Node}

/-- The sample and the literals of a node of a known kind are known from the bytes of its content. -/
theorem content_eq_of_contentBytes (hm : m.layout = m.kind.layout) (hn : n.layout = n.kind.layout)
    (hkind : m.kind = n.kind) (hfits : ∀ i ∈ m.inputs, i.literal.Fits)
    (hfits' : ∀ i ∈ n.inputs, i.literal.Fits) (h : m.contentBytes = n.contentBytes) :
    m.content = n.content := by
  have hnames : m.inputs.map (·.name) = n.inputs.map (·.name) := by
    rw [map_name_inputs hm, map_name_inputs hn, hkind]
  have hlen : n.inputs.length = m.inputs.length := by
    simpa using (congrArg List.length hnames).symm
  simp only [contentBytes_eq, typeName, hkind, hnames, List.append_assoc,
    List.append_cancel_left_eq, List.cons_append, List.nil_append, List.cons.injEq] at h
  have hlits := Literal.flatMap_bytes_inj (by simp [hlen]) (by simp) (by simpa using hfits)
    (by simpa using hfits') h.2
  rw [content, content, hkind, BumpSample.code_injective h.1, hlits]

end Node

namespace Graph

variable {g g' : Graph} {id : NodeId} {ids : NodeSet} {s : OutputRef}

/-! ### Only the nodes behind the displacement count -/

/-- What enters a fingerprint of a node besides its content depends on its kind and its links. -/
theorem WellFormed.wiring_congr (hg : g.WellFormed) (hg' : g'.WellFormed) {m n : Node}
    (hm : g.node? id = some m) (hn : g'.node? id = some n) (hkind : n.kind = m.kind)
    (hl : ∀ slot, g.linkAt ⟨id, slot⟩ = g'.linkAt ⟨id, slot⟩)
    (hfeeds : ∀ c, g.Feeds c id → g'.kind? c = g.kind? c) :
    m.bytecodeBytes ++ m.inputs.flatMap g.linkBytes =
      n.bytecodeBytes ++ n.inputs.flatMap g'.linkBytes := by
  obtain ⟨hnames, hlinks⟩ := hg.map_inputs_eq hg' hm hn hkind hl
  rw [Node.bytecodeBytes, Node.bytecodeBytes, hkind,
    hg.linkBytes_congr hg' hm hnames hlinks hfeeds]

theorem WellFormed.nodeBytes_congr (hg : g.WellFormed) (hg' : g'.WellFormed) (hid : id ∈ g.ids)
    (hc : (g.node? id).map Node.content = (g'.node? id).map Node.content)
    (hl : ∀ slot, g.linkAt ⟨id, slot⟩ = g'.linkAt ⟨id, slot⟩)
    (hfeeds : ∀ c, g.Feeds c id → g'.kind? c = g.kind? c) : g.nodeBytes id = g'.nodeBytes id := by
  obtain ⟨m, hm⟩ := exists_node_of_mem hid
  obtain ⟨n, hn, hkind, hbytes⟩ := hg.exists_node_of_content hg' hc hm
  simp only [nodeBytes, hm, hn, Node.contentHash, hbytes, List.append_assoc]
  rw [hg.wiring_congr hg' hm hn hkind hl hfeeds]

/-- The fingerprint depends on the displacement and on the nodes behind it: their kinds, samples,
literals and links. All else may differ, as other nodes and their links, the order in which outputs
list their consumers, what was noted on nodes and on the graph, and what was reported. -/
theorem fingerprint_congr (hg : g.WellFormed) (hg' : g'.WellFormed)
    (hlink : g.linkAt ⟨outputId, 2⟩ = g'.linkAt ⟨outputId, 2⟩)
    (hids : g.dependencies ⟨outputId, 2⟩ = .ok ids)
    (hnodes : ∀ id ∈ ids, (g.node? id).map Node.content = (g'.node? id).map Node.content)
    (hlinks : ∀ id ∈ ids, ∀ slot, g.linkAt ⟨id, slot⟩ = g'.linkAt ⟨id, slot⟩) :
    ∃ d, g.fingerprint = .ok d ∧ g'.fingerprint = .ok d := by
  cases hs : g.linkAt ⟨outputId, 2⟩ with
  | none => exact ⟨"", hg.fingerprint_of_free hs, hg'.fingerprint_of_free (hlink ▸ hs)⟩
  | some s =>
    have hs' : g'.linkAt ⟨outputId, 2⟩ = some s := hlink ▸ hs
    have hx := (hg.mem_ids_of_feeds ⟨_, s, hs, rfl, rfl⟩).1
    have hx' := (hg'.mem_ids_of_feeds ⟨_, s, hs', rfl, rfl⟩).1
    obtain rfl : g.cone s.node = ids := Except.ok.inj ((dependencies_eq hs).symm.trans hids)
    refine ⟨_, hg.fingerprint_of_linked hs, ?_⟩
    rw [hg'.fingerprint_of_linked hs', ← hg.cone_eq_of_linkAt_eq hg' hx hx' hlinks]
    have hbytes : ∀ id ∈ g.cone s.node, g.nodeBytes id = g'.nodeBytes id := fun id hid =>
      hg.nodeBytes_congr hg' (mem_ids_of_mem_cone hid) (hnodes id hid) (hlinks id hid) fun c hc =>
        kind?_eq_of_content (hnodes c (hg.mem_cone_of_feeds hx hid hc))
    rw [displacementBytes, displacementBytes, List.flatMap_congr hbytes]

theorem linkAt_eq_of_map
    (h : (g.node? id).map (·.inputs.map (·.link)) = (g'.node? id).map (·.inputs.map (·.link)))
    (slot : Nat) : g.linkAt ⟨id, slot⟩ = g'.linkAt ⟨id, slot⟩ := by
  have hlist : ∀ g : Graph, g.linkAt ⟨id, slot⟩ =
      ((g.node? id).map (·.inputs.map (·.link))).bind fun links => links[slot]?.join := by
    intro g
    cases hn : g.node? id with
    | none => simp [linkAt, input?, hn]
    | some n => rw [linkAt_eq_join hn]; rfl
  rw [hlist, hlist, h]

/-- A displacement along a normal, and a surface that the same geometry shades. -/
def normalAndSurface : Graph :=
  Primitive.runAll [.addKind .geometry, .addKind .setNormal, .addKind .diffuse,
    .connect ⟨1, 1⟩ ⟨3, 2⟩, .connect ⟨3, 0⟩ ⟨0, 0⟩, .connect ⟨2, 0⟩ ⟨0, 2⟩,
    .connect ⟨1, 0⟩ ⟨2, 0⟩] Graph.empty

theorem fingerprint_congr_normalAndSurface :
    (alongNormal 0).kind? 3 = none ∧ normalAndSurface.kind? 3 = some .diffuse ∧
      (alongNormal 0).fanOut ⟨1, 1⟩ = [] ∧ normalAndSurface.fanOut ⟨1, 1⟩ = [⟨3, 2⟩] ∧
      ∃ d, (alongNormal 0).fingerprint = .ok d ∧ normalAndSurface.fingerprint = .ok d := by
  have hids : (alongNormal 0).dependencies ⟨outputId, 2⟩ = .ok [1, 2] := by decide +kernel
  have hnodes : ∀ id ∈ [1, 2], ((alongNormal 0).node? id).map Node.content =
      (normalAndSurface.node? id).map Node.content :=
    List.forall_mem_cons.mpr ⟨rfl, List.forall_mem_cons.mpr ⟨rfl, by simp⟩⟩
  have hlists : ∀ id ∈ [1, 2], ((alongNormal 0).node? id).map (·.inputs.map (·.link)) =
      (normalAndSurface.node? id).map (·.inputs.map (·.link)) := by decide
  refine ⟨by decide, by decide, by decide, by decide, ?_⟩
  exact fingerprint_congr wellFormed_alongNormal.1
    (Primitive.follows_runAll wellFormed_empty _).wellFormed (by decide) hids hnodes
    fun id hid slot => linkAt_eq_of_map (hlists id hid) slot

/-! ### All that these nodes hold counts -/

/-- The hashes of contents can be read back if the nodes are of the same kinds and linked in the
same way. -/
theorem WellFormed.contentHash_eq_of_displacementBytes (hg : g.WellFormed) (hg' : g'.WellFormed)
    (hkinds : ∀ id, g'.kind? id = g.kind? id) (hlinks : ∀ r, g.linkAt r = g'.linkAt r)
    (h : g.displacementBytes ids = g'.displacementBytes ids) :
    ∀ id ∈ ids, ∀ m n, g.node? id = some m → g'.node? id = some n →
      m.contentHash = n.contentHash := by
  induction ids with
  | nil => simp
  | cons a ids ih =>
    rw [displacementBytes, displacementBytes, List.flatMap_cons, List.flatMap_cons] at h
    cases hm : g.node? a with
    | none =>
      have hn : g'.node? a = none := by
        simpa [kind?, hm] using hkinds a
      simp only [nodeBytes, hm, hn, List.nil_append] at h
      refine List.forall_mem_cons.mpr ⟨by simp [hm], ih h⟩
    | some m =>
      obtain ⟨n, hn, hkind⟩ : ∃ n, g'.node? a = some n ∧ n.kind = m.kind := by
        simpa [kind?, hm] using hkinds a
      simp only [nodeBytes, hm, hn, List.append_assoc] at h
      obtain ⟨hhash, hrest⟩ := List.append_inj h (by simp [Node.contentHash, Blake3.length_hash])
      rw [← List.append_assoc, ← List.append_assoc,
        hg.wiring_congr hg' hm hn hkind (fun slot => hlinks _) fun c _ => hkinds c,
        List.append_cancel_left_eq] at hrest
      refine List.forall_mem_cons.mpr ⟨?_, ih hrest⟩
      rintro _ _ hm' hn'
      cases hm.symm.trans hm'
      cases hn.symm.trans hn'
      exact hhash

theorem literalAt_eq_content {n : Node} (hn : g.node? id = some n) (slot : Nat) :
    g.literalAt ⟨id, slot⟩ = n.content.2.2[slot]? := by
  simp [literalAt, input?, hn, Node.content]

/-- Where no two texts that are hashed collide, the fingerprints of graphs that are linked in the
same way differ as soon as a node behind the displacement is evaluated for another sample or holds
another literal. Literals are compared by their bits, also those that a link makes idle. -/
theorem fingerprint_ne_of_content_ne (hg : g.WellFormed) (hg' : g'.WellFormed)
    (hkinds : ∀ id, g'.kind? id = g.kind? id) (hlinks : ∀ r, g.linkAt r = g'.linkAt r)
    (hfits : ∀ p ∈ g.nodes ++ g'.nodes, ∀ i ∈ p.2.inputs, i.literal.Fits)
    (hs : g.linkAt ⟨outputId, 2⟩ = some s) (hids : g.dependencies ⟨outputId, 2⟩ = .ok ids)
    (hinj : Set.InjOn Blake3.hash {x | x ∈ g.hashed ids ++ g'.hashed ids}) (hid : id ∈ ids)
    (hne : (g.node? id).map (·.bump) ≠ (g'.node? id).map (·.bump) ∨
      ∃ slot, g.literalAt ⟨id, slot⟩ ≠ g'.literalAt ⟨id, slot⟩) :
    ∃ d d', g.fingerprint = .ok d ∧ g'.fingerprint = .ok d' ∧ d ≠ d' := by
  have hs' : g'.linkAt ⟨outputId, 2⟩ = some s := hlinks _ ▸ hs
  have hx := (hg.mem_ids_of_feeds ⟨_, s, hs, rfl, rfl⟩).1
  have hx' := (hg'.mem_ids_of_feeds ⟨_, s, hs', rfl, rfl⟩).1
  obtain rfl : g.cone s.node = ids := Except.ok.inj ((dependencies_eq hs).symm.trans hids)
  have hcone := hg.cone_eq_of_linkAt_eq hg' hx hx' fun id _ slot => hlinks _
  refine ⟨_, _, hg.fingerprint_of_linked hs, hg'.fingerprint_of_linked hs', fun heq => ?_⟩
  rw [← hcone] at heq
  -- equal digests come from equal bytes, in which the content of each node has its place
  have hbytes := hinj (List.mem_append_left _ List.mem_cons_self)
    (List.mem_append_right _ List.mem_cons_self) (Blake3.hex_injective heq)
  obtain ⟨m, hm⟩ := exists_node_of_mem (mem_ids_of_mem_cone hid)
  obtain ⟨n, hn, hkind⟩ : ∃ n, g'.node? id = some n ∧ n.kind = m.kind := by
    simpa [kind?, hm] using hkinds id
  have hhash := hg.contentHash_eq_of_displacementBytes hg' hkinds hlinks hbytes id hid m n hm hn
  have hc := hinj (List.mem_append_left _ (contentBytes_mem_hashed hid hm))
    (List.mem_append_right _ (contentBytes_mem_hashed hid hn)) hhash
  have hcontent : m.content = n.content :=
    Node.content_eq_of_contentBytes (hg.laidOut _ m hm) (hg'.laidOut _ n hn) hkind.symm
      (hfits _ (List.mem_append_left _ ((g.mem_nodes).mpr hm)))
      (hfits _ (List.mem_append_right _ ((g'.mem_nodes).mpr hn))) hc
  rcases hne with hbump | ⟨slot, hlit⟩
  · have heq : m.bump = n.bump := congrArg (·.2.1) hcontent
    exact hbump (by rw [hm, hn, Option.map_some, Option.map_some, heq])
  · exact hlit (by rw [literalAt_eq_content hm, literalAt_eq_content hn, hcontent])

/-- The direction of the normal as a literal is the negative zero, in place of the zero. -/
def alongNegativeZero : Graph :=
  (alongNormal 0).modifyInput ⟨2, 0⟩ (Input.store (.float3 (.splat ⟨0x80000000⟩)))

theorem fingerprint_ne_of_content_ne_alongNegativeZero :
    (alongNormal 0).literalAt ⟨2, 0⟩ = some (.float3 (.splat ⟨0⟩)) ∧
      alongNegativeZero.literalAt ⟨2, 0⟩ = some (.float3 (.splat ⟨0x80000000⟩)) ∧
      ∃ d d', (alongNormal 0).fingerprint = .ok d ∧ alongNegativeZero.fingerprint = .ok d' ∧
        d ≠ d' := by
  have hg := wellFormed_alongNormal.1
  have hids : (alongNormal 0).dependencies ⟨outputId, 2⟩ = .ok [1, 2] := by decide +kernel
  have hdistinct : (((alongNormal 0).hashed [1, 2] ++ alongNegativeZero.hashed [1, 2]).dedup.map
      Blake3.hash).Nodup := by
    decide +kernel
  have hinj : Set.InjOn Blake3.hash
      {x | x ∈ (alongNormal 0).hashed [1, 2] ++ alongNegativeZero.hashed [1, 2]} := fun x hx y hy =>
    List.inj_on_of_nodup_map hdistinct (List.mem_dedup.mpr hx) (List.mem_dedup.mpr hy)
  have hlit : (alongNormal 0).literalAt ⟨2, 0⟩ = some (.float3 (.splat ⟨0⟩)) := rfl
  have hlit' : alongNegativeZero.literalAt ⟨2, 0⟩ = some (.float3 (.splat ⟨0x80000000⟩)) := rfl
  refine ⟨hlit, hlit', fingerprint_ne_of_content_ne hg (hg.store _ _) (fun id => ?_) (fun r => ?_)
    (by decide) (by decide : _ = some ⟨2, 0⟩) hids hinj (by decide : 2 ∈ _) (Or.inr ⟨0, ?_⟩)⟩
  · rw [alongNegativeZero, kind?_eq_layout?, layout?_store, kind?_eq_layout?]
  · rw [alongNegativeZero, linkAt_store]
  · rw [hlit, hlit']
    simp [Vec3.splat]

end Graph

end Shading
