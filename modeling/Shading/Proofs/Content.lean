import Shading.Fingerprint
import Shading.Proofs.Digest
import Shading.Proofs.WellFormed

/-!
# The contents of nodes

The content of a node starts with the name of its type, which ends where its settings begin. For all
kinds but scripts the type fixes the names of the inputs. The names of their outputs can be told
apart from the start. -/

namespace Shading

/-- The byte of an opening brace. -/
def brace : UInt8 := 123

theorem eq_of_append_brace {xs ys r r' : List UInt8} (hx : brace ∉ xs) (hy : brace ∉ ys)
    (h : xs ++ brace :: r = ys ++ brace :: r') : xs = ys := by
  have htake : ∀ {xs r : List UInt8}, brace ∉ xs →
      (xs ++ brace :: r).takeWhile (· ≠ brace) = xs := by
    intro xs r hxs
    have hne : ∀ b ∈ xs, decide (b ≠ brace) = true := fun b hb =>
      decide_eq_true fun (heq : b = brace) => hxs (heq ▸ hb)
    rw [List.takeWhile_append_of_pos hne, List.takeWhile_cons_of_neg (by simp),
      List.append_nil]
  rw [← htake hx, h, htake hy]

namespace SocketType

theorem mem_all (t : SocketType) : t ∈ all := by cases t <;> decide

theorem prefixFree_names : PrefixFree (all.map name) := by decide +kernel

theorem brace_not_mem_name (t : SocketType) : brace ∉ utf8 t.name := by
  cases t <;> decide +kernel

end SocketType

namespace NodeKind

def inputNames (k : NodeKind) : List String := k.inputDecls.map (·.name)

def outputNames (k : NodeKind) : List String := k.outputDecls.map (·.name)

theorem prefixFree_outputNames {k : NodeKind} (hk : k.role ≠ .script) : PrefixFree k.outputNames := by
  cases k with
  | osl script => exact absurd rfl hk
  | convert source target automatic => simp [outputNames, outputDecls, PrefixFree]
  | _ =>
    simp only [outputNames, outputDecls]
    decide +kernel

/-! ### Types -/

/-- One kind for each type other than conversions and scripts. -/
def types : List NodeKind :=
  [output, aovOutput "", value, color, emission false, diffuse, principled, subsurface, absorption,
    scatter, mixClosure, addClosure, mixClosureWeight, math .add false, clamp .minMax,
    vectorMath .add, mix .blend false, geometry, textureCoordinate, namedAttribute "",
    imageTexture "", bump false false, setNormal, displacement .object]

theorem find?_types {k : NodeKind} (hk : k.role ≠ .script) :
    (∃ source target automatic, k = convert source target automatic) ∨
      (types.find? (·.typeName == k.typeName)).map inputNames = some k.inputNames := by
  cases k with
  | osl script => exact absurd rfl hk
  | convert source target automatic => exact Or.inl ⟨_, _, _, rfl⟩
  | _ => exact Or.inr rfl

theorem utf8_typeName_convert (source target : SocketType) (automatic : Bool) :
    utf8 (convert source target automatic).typeName =
      utf8 "convert_" ++ (utf8 source.name ++ (utf8 "_to_" ++ utf8 target.name)) := by
  simp only [typeName, utf8_append, List.append_assoc]

theorem exists_type {k : NodeKind}
    (hk : (types.find? (·.typeName == k.typeName)).map inputNames = some k.inputNames) :
    ∃ l ∈ types, l.typeName = k.typeName := by
  obtain ⟨l, hl, -⟩ := Option.map_eq_some_iff.mp hk
  exact ⟨l, List.mem_of_find?_eq_some hl, by simpa using List.find?_some hl⟩

/-- No other type is called like a conversion. -/
theorem typeName_ne_convert {k : NodeKind}
    (hk : (types.find? (·.typeName == k.typeName)).map inputNames = some k.inputNames)
    (source target : SocketType) (automatic : Bool) :
    k.typeName ≠ (convert source target automatic).typeName := by
  have htypes : ∀ l ∈ types, ¬ utf8 "convert_" <+: utf8 l.typeName := by decide +kernel
  obtain ⟨l, hl, hname⟩ := exists_type hk
  intro h
  refine htypes l hl ?_
  rw [hname, h, utf8_typeName_convert]
  exact List.prefix_append _ _

theorem inputNames_eq_of_typeName {k l : NodeKind} (hk : k.role ≠ .script) (hl : l.role ≠ .script)
    (h : k.typeName = l.typeName) : k.inputNames = l.inputNames := by
  rcases find?_types hk with ⟨source, target, automatic, rfl⟩ | hk'
  · rcases find?_types hl with ⟨source', target', automatic', rfl⟩ | hl'
    · have hutf8 := congrArg utf8 h
      rw [utf8_typeName_convert, utf8_typeName_convert, List.append_cancel_left_eq] at hutf8
      have hname := SocketType.prefixFree_names.append_inj_of_mem
        (List.mem_map_of_mem source.mem_all) (List.mem_map_of_mem source'.mem_all) hutf8
      simp [inputNames, inputDecls, hname]
    · exact absurd h.symm (typeName_ne_convert hl' _ _ _)
  · rcases find?_types hl with ⟨source', target', automatic', rfl⟩ | hl'
    · exact absurd h (typeName_ne_convert hk' _ _ _)
    · rw [← Option.some.injEq, ← hk', ← hl', h]

theorem brace_not_mem_typeName {k : NodeKind} (hk : k.role ≠ .script) : brace ∉ utf8 k.typeName := by
  rcases find?_types hk with ⟨source, target, automatic, rfl⟩ | hk'
  · have hfixed : brace ∉ utf8 "convert_" ∧ brace ∉ utf8 "_to_" := by decide +kernel
    simp [utf8_typeName_convert, hfixed, SocketType.brace_not_mem_name]
  · have htypes : ∀ l ∈ types, brace ∉ utf8 l.typeName := by decide +kernel
    obtain ⟨l, hl, hname⟩ := exists_type hk'
    exact hname ▸ htypes l hl

/-- The settings begin with a brace. -/
theorem utf8_text (k : NodeKind) : ∃ rest, utf8 k.text = brace :: rest := by
  have hbrace : utf8 (String.ofList ['\x7b']) = [brace] := by decide +kernel
  refine ⟨utf8 (String.ofList (Json.compactMembers (("type", .str k.tag) :: k.settings) ++ ['\x7d'])),
    ?_⟩
  rw [text, toJson, Json.compact, Json.compactChars, ← List.singleton_append, String.ofList_append,
    utf8_append, hbrace]
  rfl

end NodeKind

namespace Node

variable {m n : Node}

/-- Nodes other than scripts have the same inputs if they have the same content. -/
theorem inputNames_eq_of_contentBytes (hm : m.role ≠ .script) (hn : n.role ≠ .script)
    (h : m.contentBytes = n.contentBytes) : m.kind.inputNames = n.kind.inputNames := by
  refine NodeKind.inputNames_eq_of_typeName hm hn (utf8_injective ?_)
  obtain ⟨r, hr⟩ := m.kind.utf8_text
  obtain ⟨r', hr'⟩ := n.kind.utf8_text
  simp only [contentBytes, hr, hr', List.append_assoc, List.cons_append] at h
  exact eq_of_append_brace (NodeKind.brace_not_mem_typeName hm)
    (NodeKind.brace_not_mem_typeName hn) h

end Node

end Shading
