import Shading.Catalog.Encoding
import Shading.Proofs.Digest
import Shading.Proofs.Spelling

/-!
# The text of a kind

A kind is written as a record with all its settings in order, and its text is read back in three
steps: the text as a JSON value, the value as a tagged record, and the record as the settings of the
kind that the tag names. So a kind is known from its text, and from the bytes that this text adds to
the hash of a node. -/

namespace Shading

open Json

/-! ### Names of enumerated settings -/

@[simp] theorem SocketType.ofName?_name (t : SocketType) : ofName? t.name = some t := by
  cases t <;> rfl

@[simp] theorem MathOp.ofName?_name (op : MathOp) : ofName? op.name = some op := by
  cases op <;> rfl

@[simp] theorem VectorOp.ofName?_name (op : VectorOp) : ofName? op.name = some op := by
  cases op <;> rfl

@[simp] theorem BlendMode.ofName?_name (mode : BlendMode) : ofName? mode.name = some mode := by
  cases mode <;> rfl

@[simp] theorem ClampMode.ofName?_name (mode : ClampMode) : ofName? mode.name = some mode := by
  cases mode <;> rfl

@[simp] theorem DisplacementSpace.ofName?_name (space : DisplacementSpace) :
    ofName? space.name = some space := by
  cases space <;> rfl

namespace Json

@[simp] theorem setting_str {α : Type} (ofName? : String → Option α) (s : String) :
    setting ofName? (.str s) = ofName? s := rfl

/-! ### Records -/

theorem valuesOf_of_ne {key : String} {members : List (String × Json)}
    (h : ∀ m ∈ members, m.1 ≠ key) : valuesOf key members = [] := by
  rw [valuesOf, List.filterMap_eq_nil_iff]
  intro m hm
  simp [h m hm]

theorem valuesOf_cons_self (key : String) (v : Json) (members : List (String × Json)) :
    valuesOf key ((key, v) :: members) = v :: valuesOf key members := by
  simp [valuesOf]

theorem valuesOf_append (key : String) (members members' : List (String × Json)) :
    valuesOf key (members ++ members') = valuesOf key members ++ valuesOf key members' :=
  List.filterMap_append

/-- The tag is read from the front of a record, if no other field has its name. -/
theorem tagged?_cons {tag name : String} {members : List (String × Json)}
    (h : ∀ m ∈ members, m.1 ≠ tag) :
    (obj ((tag, str name) :: members)).tagged? tag = some (name, obj members) := by
  have hrest : members.filter (·.1 != tag) = members :=
    List.filter_eq_self.mpr fun m hm => by simpa using h m hm
  simp [tagged?, valuesOf_cons_self, valuesOf_of_ne h, hrest]

/-- A field that is written once is read. -/
theorem field?_of_mem {members : List (String × Json)} (h : (members.map (·.1)).Nodup)
    {m : String × Json} (hm : m ∈ members) : field? members m.1 = some (some m.2) := by
  have hvalues : valuesOf m.1 members = [m.2] := by
    obtain ⟨before, after, rfl⟩ := List.append_of_mem hm
    simp only [List.map_append, List.map_cons, List.nodup_append, List.nodup_cons, List.mem_cons,
      List.mem_map] at h
    obtain ⟨-, ⟨hafter, -⟩, hbefore⟩ := h
    rw [valuesOf_append, valuesOf_cons_self,
      valuesOf_of_ne fun n hn heq => hbefore n.1 ⟨n, hn, rfl⟩ m.1 (Or.inl rfl) heq,
      valuesOf_of_ne fun n hn heq => hafter ⟨n, hn, heq⟩]
    rfl
  simp [field?, hvalues]

theorem mapM_eq_some_map {α β : Type} {f : α → Option β} {g : α → β} {l : List α}
    (h : ∀ a ∈ l, f a = some (g a)) : l.mapM f = some (l.map g) := by
  induction l with
  | nil => rfl
  | cons a l ih =>
    rw [List.mapM_cons, h a List.mem_cons_self, ih fun b hb => h b (List.mem_cons_of_mem a hb)]
    rfl

/-- A record is read from an object that has all its fields. -/
theorem record?_members (members : List (String × Json)) (h : (members.map (·.1)).Nodup) :
    (obj members).record? (members.map (·.1)) = some (members.map fun m => some m.2) := by
  rw [record?, List.mapM_map]
  exact mapM_eq_some_map fun m hm => field?_of_mem h hm

end Json

/-! ### Scripts -/

theorem ScriptSocket.ofJson?_toJson (s : ScriptSocket) : ofJson? s.toJson = some s := by
  have h : s.toJson.record? ["name", "type"] = some [some (.str s.name), some (.str s.type.name)] :=
    record?_members [("name", .str s.name), ("type", .str s.type.name)] (by simp)
  simp [ofJson?, h, required, str?]

theorem Script.sockets?_map_toJson (sockets : List ScriptSocket) :
    sockets? (.arr (sockets.map ScriptSocket.toJson)) = some sockets := by
  rw [sockets?, items?, Option.bind_some, List.mapM_map]
  exact (mapM_eq_some_map fun s _ => s.ofJson?_toJson).trans (by simp)

theorem Script.ofJson?_members (s : Script) : ofJson? (.obj s.members) = some s := by
  have h := record?_members s.members (by simp [members])
  simp only [members, List.map_cons, List.map_nil] at h
  simp [ofJson?, members, h, required, Json.optional, str?, sockets?_map_toJson]

namespace NodeKind

variable (k : NodeKind)

theorem ne_type_of_mem_settings : ∀ m ∈ k.settings, m.1 ≠ "type" := by
  cases k <;> simp [settings, Script.members]

theorem nodup_settings : (k.settings.map (·.1)).Nodup := by
  cases k <;> simp [settings, Script.members]

theorem ofSettings?_settings : ofSettings? k.tag (.obj k.settings) = some k := by
  have h := record?_members k.settings k.nodup_settings
  cases k with
  | osl script =>
    simp only [tag, settings, ofSettings?, script.ofJson?_members]
    rfl
  | convert | math | clamp | vectorMath | mix | displacement =>
    simp only [settings, List.map_cons, List.map_nil] at h
    simp [tag, settings, ofSettings?, h, required, Json.optional, bool?]
  | _ => rfl

/-! ### The text -/

theorem readable_toJson : k.toJson.readable maxDepth = true := by
  have hsockets : ∀ sockets : List ScriptSocket,
      readableItems 125 (sockets.map ScriptSocket.toJson) = true := by
    intro sockets
    induction sockets with
    | nil => rfl
    | cons s sockets ih =>
      rw [List.map_cons, readableItems, ih]
      rfl
  cases k with
  | osl script =>
    simp [toJson, settings, Script.members, readable, readableMembers, maxDepth, hsockets]
  | _ => rfl

theorem spelled_toJson : k.toJson.Spelled := by
  have hsockets : ∀ sockets : List ScriptSocket,
      (Json.arr (sockets.map ScriptSocket.toJson)).Spelled := by
    intro sockets
    refine spelled_arr fun v hv => ?_
    obtain ⟨s, -, rfl⟩ := List.mem_map.mp hv
    exact spelled_obj (by simp [spelled_str])
  refine spelled_obj ?_
  cases k <;> simp [settings, Script.members, spelled_str, spelled_bool, hsockets]

theorem ofJson?_toJson : ofJson? k.toJson = some k := by
  have htag : k.toJson.tagged? "type" = some (k.tag, .obj k.settings) :=
    tagged?_cons k.ne_type_of_mem_settings
  simp [ofJson?, ofJsonWithin?, k.readable_toJson, htag, k.ofSettings?_settings]

theorem parse?_text : parse? k.text = some k := by
  rw [parse?, text, k.spelled_toJson.parse?_compact, Option.bind_some, k.ofJson?_toJson]

/-- **A kind is read back from its text**, so the bytes that the text adds to the hash of a node
belong to one kind only. -/
theorem text_read_back :
    (∀ k : NodeKind, parse? k.text = some k) ∧
      ∀ k l : NodeKind, utf8 k.text = utf8 l.text → k = l := by
  refine ⟨parse?_text, fun k l h => Option.some.inj ?_⟩
  rw [← k.parse?_text, ← l.parse?_text, utf8_injective h]

end NodeKind

end Shading
