import Mathlib.Tactic.Common
import Shading.Json.Parser
import Shading.Json.Printer

/-!
# Reading back what was written

A JSON value is read in two steps, and for each of them there is a notion that can be put together
from parts. A piece of text spells some tokens if the lexer finds these tokens in front of whatever
the rest of the text is made of (`Token.Spells`). Some tokens build a value if the reading machine,
when a value must come, takes them in and has this value complete, whatever is still open around it
(`Builds`). A value has a spelling if the tokens of its compact text build it (`Spelled`), and then
it is what its text is parsed as (`Spelled.parse?_compact`). Strings, truth values, and lists and
objects of values that have a spelling have one. -/

namespace Shading.Json

namespace Token

/-! ### Strings -/

theorem hexValue?_hexDigit : ∀ n < 16, hexValue? (hexDigit n) = some n := by decide

/-- A control character is read from the two digits of its code. -/
theorem hex4?_hexDigit {n : Nat} (h : n < 256) :
    hex4? '0' '0' (hexDigit (n / 16)) (hexDigit (n % 16)) = some n := by
  have h₁ := hexValue?_hexDigit (n / 16) (by omega)
  have h₂ := hexValue?_hexDigit (n % 16) (by omega)
  have h₀ : hexValue? '0' = some 0 := by decide
  simp only [hex4?, h₀, h₁, h₂, Option.pure_def, Option.bind_eq_bind, Option.bind_some,
    Option.some.injEq]
  omega

theorem readString_escape (c : Char) (cs : List Char) :
    readString (escape c ++ cs) = (readString cs).map (consPiece (.char c)) := by
  unfold escape
  split
  any_goals rfl
  rename_i hquote hbackslash _ _ _ _ _
  split_ifs with hc
  · have hcode : Piece.ofCode c.toNat = .char c := by
      have hhalf : isHighSurrogate c.toNat = false ∧ isLowSurrogate c.toNat = false := by
        simp only [isHighSurrogate, isLowSurrogate, Bool.and_eq_false_iff, decide_eq_false_iff_not]
        omega
      simp [Piece.ofCode, hhalf, Char.ofNat_toNat]
    simp only [List.cons_append, List.nil_append]
    rw [readString, hex4?_hexDigit (by omega), Option.bind_some, hcode]
  · have hplain : ¬ (c.toNat < 0x20 ∨ c = '\\') := not_or.mpr ⟨hc, hbackslash⟩
    rw [List.singleton_append, readString]
    · rw [if_neg hplain]
    · exact hquote
    · exact fun _ _ _ _ _ h => absurd h hbackslash
    · exact fun _ _ h => absurd h hbackslash

/-- A quoted text is read back character by character, up to its closing quote. -/
theorem readString_quoted (cs rest : List Char) :
    readString (cs.flatMap escape ++ '"' :: rest) = some (cs.map .char, rest) := by
  induction cs with
  | nil => rfl
  | cons c cs ih =>
    rw [List.flatMap_cons, List.append_assoc, readString_escape, ih]
    rfl

theorem joinPieces_map_char (cs : List Char) : joinPieces (cs.map .char) = some cs := by
  induction cs with
  | nil => rfl
  | cons c cs ih => rw [List.map_cons, joinPieces, ih, Option.map_some]

/-! ### Tokens in front of a text -/

/-- The lexer finds the tokens `ts` in the text `cs`, whatever follows it. -/
def Spells (cs : List Char) (ts : List Token) : Prop :=
  ∀ rest, ofText? (cs ++ rest) = (ofText? rest).map (ts ++ ·)

theorem spells_of_read {c : Char} {cs : List Char} {t : Token} (hc : isBlank c = false)
    (h : ∀ rest, read (c :: (cs ++ rest)) = some (t, rest)) : Spells (c :: cs) [t] := by
  intro rest
  rw [List.cons_append, ofText?, if_neg (by simp [hc])]
  split
  · rename_i hnone
    rw [h] at hnone
    cases hnone
  · rename_i t' rest' hsome
    rw [h] at hsome
    cases hsome
    rfl

theorem Spells.append {cs ds : List Char} {ts us : List Token} (h : Spells cs ts)
    (h' : Spells ds us) : Spells (cs ++ ds) (ts ++ us) := by
  intro rest
  rw [List.append_assoc, h, h', Option.map_map]
  simp only [Function.comp_def, List.append_assoc]

theorem spells_quoted (s : String) : Spells (quoted s) [.str (some s.toList)] := by
  refine spells_of_read (by decide) fun rest => ?_
  rw [List.append_assoc, List.singleton_append, read, readString_quoted, Option.map_some]
  simp only [joinPieces_map_char]

theorem spells_bool (b : Bool) : Spells (atomChars (.bool b)) [.bool b] := by
  cases b <;> exact spells_of_read (by decide) fun rest => rfl

theorem spells_punctuation {c : Char} {t : Token} (h : punctuation? c = some t) :
    Spells [c] [t] := by
  unfold punctuation? at h
  split at h <;> cases h <;> exact spells_of_read (by decide) fun rest => rfl

end Token

/-! ### Tokens that build a value -/

open Token

/-- The reading machine takes in the tokens `ts` as the value `v`. -/
def Builds (ts : List Token) (v : Json) : Prop :=
  ∀ outer, ts.foldlM ReadState.step (.value outer) = some (.after v outer)

theorem builds_atom {t : Token} {v : Json} (h : ReadState.atom? t = some v) : Builds [t] v := by
  intro outer
  cases t with
  | openList | closeList | openObject | closeObject | comma | colon => cases h
  | _ => simp [ReadState.step, ReadState.startValue, h]

/-- The first value of a list is read as a later one: no value begins with a closing bracket. -/
theorem Builds.listStart {ts : List Token} {v : Json} (h : Builds ts v) (outer : List Frame) :
    ts.foldlM ReadState.step (.listStart outer) = some (.after v (.list [] :: outer)) := by
  rw [← h (.list [] :: outer)]
  cases ts with
  | nil => cases h outer
  | cons t ts =>
    cases t with
    | closeList => cases h outer
    | _ => rfl

/-- A value has a spelling: the tokens of its compact text build it. -/
def Spelled (v : Json) : Prop := ∃ ts, Spells (compactChars v) ts ∧ Builds ts v

/-- **A value that has a spelling is read back from its compact text.** -/
theorem Spelled.parse?_compact {v : Json} (h : v.Spelled) : parse? v.compact = some v := by
  obtain ⟨ts, hs, hb⟩ := h
  have hlex : ofText? (compactChars v) = some ts := by
    have := hs []
    rwa [List.append_nil, ofText?, Option.map_some, List.append_nil] at this
  simp only [parse?, compact, String.toList_ofList, hlex, Option.bind_some, ofTokens?, hb []]
  rfl

theorem spelled_str (s : String) : (str s).Spelled :=
  ⟨_, spells_quoted s, builds_atom (by simp [ReadState.atom?])⟩

theorem spelled_bool (b : Bool) : (bool b).Spelled := ⟨_, spells_bool b, builds_atom rfl⟩

/-! ### Lists and objects

The parts of a list are read one after the other. What is built is stated from the point where one
of them must come, with the parts before it in the frame. -/

/-- The tokens of the rest of a list, from one of its values up to its end, complete the list. -/
theorem exists_tokens_items {v : Json} {vs : List Json} (h : ∀ w ∈ v :: vs, w.Spelled) :
    ∃ ts us, Spells (compactItems (v :: vs) ++ [']']) (ts ++ us) ∧ Builds ts v ∧
      ∀ done outer, us.foldlM ReadState.step (.after v (.list done :: outer)) =
        some (.after (.arr (done.reverse ++ v :: vs)) outer) := by
  obtain ⟨ts, hs, hb⟩ := h v List.mem_cons_self
  induction vs generalizing v ts with
  | nil =>
    refine ⟨ts, [.closeList], hs.append (spells_punctuation rfl), hb, fun done outer => ?_⟩
    simp [ReadState.step]
  | cons w vs ih =>
    have hrest : ∀ x ∈ w :: vs, x.Spelled := fun x hx => h x (List.mem_cons_of_mem v hx)
    obtain ⟨ts', hs', hb'⟩ := hrest w List.mem_cons_self
    obtain ⟨us, us', hsu, hbu, hfold⟩ := ih hrest ts' hs' hb'
    refine ⟨ts, .comma :: (us ++ us'), ?_, hb, fun done outer => ?_⟩
    · have hcomma : Spells [','] [.comma] := spells_punctuation rfl
      have := hs.append (hcomma.append hsu)
      simpa [compactItems] using this
    · rw [List.foldlM_cons]
      simp only [ReadState.step, Option.bind_eq_bind, Option.bind_some, List.foldlM_append,
        hbu (.list (v :: done) :: outer), hfold]
      simp

theorem spelled_arr {items : List Json} (h : ∀ v ∈ items, v.Spelled) : (arr items).Spelled := by
  have hopen : Spells ['['] [.openList] := spells_punctuation rfl
  cases items with
  | nil =>
    exact ⟨_, hopen.append (spells_punctuation (c := ']') rfl), fun outer => rfl⟩
  | cons v vs =>
    obtain ⟨ts, us, hs, hb, hfold⟩ := exists_tokens_items h
    refine ⟨_, hopen.append hs, fun outer => ?_⟩
    have hstart : ReadState.step (.value outer) .openList = some (.listStart outer) := rfl
    rw [List.singleton_append, List.foldlM_cons, hstart]
    simp only [Option.bind_eq_bind, Option.bind_some, List.foldlM_append, hb.listStart, hfold]
    rfl

/-- The tokens of the rest of an object, from one of its keys up to its end, complete the object. -/
theorem exists_tokens_members {m : String × Json} {ms : List (String × Json)}
    (h : ∀ n ∈ m :: ms, n.2.Spelled) :
    ∃ ts, Spells (compactMembers (m :: ms) ++ ['\x7d']) (.str (some m.1.toList) :: ts) ∧
      ∀ done outer, ts.foldlM ReadState.step (.colon done true m.1 outer) =
        some (.after (.obj (done.reverse ++ m :: ms)) outer) := by
  obtain ⟨k, v⟩ := m
  obtain ⟨ts, hs, hb⟩ := h (k, v) List.mem_cons_self
  have hcolon : Spells [':'] [.colon] := spells_punctuation rfl
  have hkey := (spells_quoted k).append (hcolon.append hs)
  induction ms generalizing k v ts with
  | nil =>
    refine ⟨.colon :: (ts ++ [.closeObject]), ?_, fun done outer => ?_⟩
    · have := hkey.append (spells_punctuation (c := '\x7d') rfl)
      simpa [compactMembers] using this
    · rw [List.foldlM_cons]
      simp [ReadState.step, List.foldlM_append, hb (.object done true k :: outer), ReadState.object]
  | cons n ms ih =>
    obtain ⟨k', v'⟩ := n
    have hrest : ∀ x ∈ (k', v') :: ms, x.2.Spelled := fun x hx => h x (List.mem_cons_of_mem _ hx)
    obtain ⟨ts', hs', hb'⟩ := hrest (k', v') List.mem_cons_self
    obtain ⟨us, hsu, hfold⟩ := ih k' v' hrest ts' hs' hb'
      ((spells_quoted k').append (hcolon.append hs'))
    refine ⟨.colon :: (ts ++ .comma :: .str (some k'.toList) :: us), ?_, fun done outer => ?_⟩
    · have hcomma : Spells [','] [.comma] := spells_punctuation rfl
      have := hkey.append (hcomma.append hsu)
      simpa [compactMembers] using this
    · rw [List.foldlM_cons]
      simp [ReadState.step, ReadState.startMember, List.foldlM_append,
        hb (.object done true k :: outer), hfold]

theorem spelled_obj {members : List (String × Json)} (h : ∀ m ∈ members, m.2.Spelled) :
    (obj members).Spelled := by
  have hopen : Spells ['\x7b'] [.openObject] := spells_punctuation rfl
  cases members with
  | nil =>
    exact ⟨_, hopen.append (spells_punctuation (c := '\x7d') rfl), fun outer => rfl⟩
  | cons m ms =>
    obtain ⟨ts, hs, hfold⟩ := exists_tokens_members h
    refine ⟨_, hopen.append hs, fun outer => ?_⟩
    simp [ReadState.step, ReadState.startValue, ReadState.startMember, hfold]

end Shading.Json
