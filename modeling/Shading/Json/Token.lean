import Shading.Json.Basic

/-!
# JSON tokens

The lexer turns a text into punctuation, words, numbers and strings, and drops the blanks between
them. It fails on what is none of these. Each reader of a token returns the text that follows it,
which is shorter (`readString_length`, `readNumber_length`). -/

namespace Shading.Json

inductive Token where
  | openList | closeList | openObject | closeObject | comma | colon
  | null
  | bool (b : Bool)
  | num (n : Number)
  /-- A string; none if a surrogate escape in it has no partner. -/
  | str (s : Option (List Char))

namespace Token

def isBlank (c : Char) : Bool := c == ' ' || c == '\n' || c == '\t' || c == '\r'

def punctuation? (c : Char) : Option Token :=
  match c with
  | '[' => some openList
  | ']' => some closeList
  | '\x7b' => some openObject
  | '\x7d' => some closeObject
  | ',' => some comma
  | ':' => some colon
  | _ => none

/-! ### Strings -/

def hexValue? (c : Char) : Option Nat :=
  if c.isDigit then some (c.toNat - '0'.toNat)
  else if 'a' ≤ c ∧ c ≤ 'f' then some (c.toNat - 'a'.toNat + 10)
  else if 'A' ≤ c ∧ c ≤ 'F' then some (c.toNat - 'A'.toNat + 10)
  else none

/-- The number that four hexadecimal digits denote. -/
def hex4? (a b c d : Char) : Option Nat := do
  let a ← hexValue? a
  let b ← hexValue? b
  let c ← hexValue? c
  let d ← hexValue? d
  pure (((a * 16 + b) * 16 + c) * 16 + d)

def isHighSurrogate (n : Nat) : Bool := 0xD800 ≤ n && n < 0xDC00

def isLowSurrogate (n : Nat) : Bool := 0xDC00 ≤ n && n < 0xE000

/-- The character that a pair of surrogates encodes. -/
def ofSurrogates (hi lo : Nat) : Char := Char.ofNat (0x10000 + (hi - 0xD800) * 0x400 + (lo - 0xDC00))

/-- The character written by a backslash and one more character. -/
def simpleEscape? (c : Char) : Option Char :=
  match c with
  | '"' => some '"'
  | '\\' => some '\\'
  | '/' => some '/'
  | 'b' => some '\x08'
  | 'f' => some '\x0c'
  | 'n' => some '\n'
  | 'r' => some '\r'
  | 't' => some '\t'
  | _ => none

/-- A piece of a string: a character, or one half of a surrogate pair written as an escape. -/
inductive Piece where
  | char (c : Char)
  | half (n : Nat)

/-- The piece that an escape of four hexadecimal digits stands for. -/
def Piece.ofCode (n : Nat) : Piece :=
  if isHighSurrogate n || isLowSurrogate n then half n else char (Char.ofNat n)

/-- Puts the halves of surrogate pairs together. A half without its partner spoils the string. -/
def joinPieces : List Piece → Option (List Char)
  | [] => some []
  | .char c :: ps => (joinPieces ps).map (c :: ·)
  | .half hi :: .half lo :: ps =>
    if isHighSurrogate hi && isLowSurrogate lo then (joinPieces ps).map (ofSurrogates hi lo :: ·)
    else none
  | .half _ :: _ => none

/-- Puts a piece in front of a string that is read up to its end. -/
def consPiece (p : Piece) (r : List Piece × List Char) : List Piece × List Char := (p :: r.1, r.2)

/-- Reads a string from behind its opening quote: its pieces, and the text behind its closing
quote. -/
def readString : List Char → Option (List Piece × List Char)
  | [] => none
  | '"' :: rest => some ([], rest)
  | '\\' :: 'u' :: a :: b :: c :: d :: rest =>
    (hex4? a b c d).bind fun n => (readString rest).map (consPiece (.ofCode n))
  | '\\' :: c :: rest =>
    (simpleEscape? c).bind fun x => (readString rest).map (consPiece (.char x))
  | c :: rest =>
    if c.toNat < 0x20 ∨ c = '\\' then none else (readString rest).map (consPiece (.char c))

theorem readString_length {cs : List Char} {ps : List Piece} {rest : List Char}
    (h : readString cs = some (ps, rest)) : rest.length < cs.length := by
  have step : ∀ {cs rest : List Char} {p : Piece} {ps : List Piece},
      (∀ {qs rest}, readString cs = some (qs, rest) → rest.length < cs.length) →
      (readString cs).map (consPiece p) = some (ps, rest) → rest.length < cs.length := by
    intro cs rest p ps ih h
    simp only [Option.map_eq_some_iff, Prod.exists, consPiece, Prod.mk.injEq] at h
    obtain ⟨qs, r, hr, -, rfl⟩ := h
    exact ih hr
  fun_induction readString cs generalizing ps rest with
  | case1 => cases h
  | case2 r => simp_all
  | case3 a b c d r ih =>
    obtain ⟨n, -, hn⟩ := Option.bind_eq_some_iff.mp h
    have := step ih hn
    simp only [List.length_cons]
    omega
  | case4 c r _ ih =>
    obtain ⟨x, -, hx⟩ := Option.bind_eq_some_iff.mp h
    have := step ih hx
    simp only [List.length_cons]
    omega
  | case5 => cases h
  | case6 c r _ _ _ _ ih =>
    have := step ih h
    simp only [List.length_cons]
    omega

/-! ### Numbers -/

/-- Splits off the leading digits of a text. -/
def digits (cs : List Char) : List Char × List Char := (cs.takeWhile Char.isDigit, cs.dropWhile Char.isDigit)

/-- Reads the fraction of a number, if there is one. A point without a digit behind it is an error.
-/
def readFraction (cs : List Char) : Option (List Char × List Char) :=
  match cs with
  | '.' :: rest => if (digits rest).1.isEmpty then none else some (digits rest)
  | _ => some ([], cs)

/-- Splits off the sign of an exponent; true means minus. -/
def readSign : List Char → Bool × List Char
  | '-' :: rest => (true, rest)
  | '+' :: rest => (false, rest)
  | cs => (false, cs)

/-- Reads an exponent from behind its mark. -/
def readExponentDigits (cs : List Char) : Option (Option (Bool × List Char) × List Char) :=
  let (minus, rest) := readSign cs
  if (digits rest).1.isEmpty then none else some (some (minus, (digits rest).1), (digits rest).2)

/-- Reads the exponent of a number, if there is one. -/
def readExponent (cs : List Char) : Option (Option (Bool × List Char) × List Char) :=
  match cs with
  | 'e' :: rest => readExponentDigits rest
  | 'E' :: rest => readExponentDigits rest
  | _ => some (none, cs)

/-- Reads a number without its sign. A leading zero stands alone. -/
def readUnsigned (negative : Bool) (cs : List Char) : Option (Number × List Char) := do
  let (whole, rest) := digits cs
  if whole.isEmpty || (whole.head? == some '0' && whole.length != 1) then none
  let (fraction, rest) ← readFraction rest
  let (exponent, rest) ← readExponent rest
  pure (⟨negative, whole, fraction, exponent⟩, rest)

def readNumber (cs : List Char) : Option (Number × List Char) :=
  match cs with
  | '-' :: rest => readUnsigned true rest
  | _ => readUnsigned false cs

theorem digits_length (cs : List Char) : (digits cs).1.length + (digits cs).2.length = cs.length := by
  rw [← List.length_append, digits, List.takeWhile_append_dropWhile]

theorem readFraction_length {cs f rest : List Char} (h : readFraction cs = some (f, rest)) :
    rest.length ≤ cs.length := by
  unfold readFraction at h
  split at h
  · rename_i r
    have hr := digits_length r
    split at h
    · cases h
    · rw [Option.some.inj h] at hr
      simp only [List.length_cons] at hr ⊢
      omega
  · cases h
    exact Nat.le_refl _

theorem readSign_length (cs : List Char) : (readSign cs).2.length ≤ cs.length := by
  unfold readSign
  split <;> simp

theorem readExponentDigits_length {cs rest : List Char} {e : Option (Bool × List Char)}
    (h : readExponentDigits cs = some (e, rest)) : rest.length ≤ cs.length := by
  have h₁ := readSign_length cs
  have h₂ := digits_length (readSign cs).2
  unfold readExponentDigits at h
  dsimp only at h
  split at h
  · cases h
  · cases h
    omega

theorem readExponent_length {cs rest : List Char} {e : Option (Bool × List Char)}
    (h : readExponent cs = some (e, rest)) : rest.length ≤ cs.length := by
  unfold readExponent at h
  split at h
  · exact Nat.le_succ_of_le (readExponentDigits_length h)
  · exact Nat.le_succ_of_le (readExponentDigits_length h)
  · cases h
    exact Nat.le_refl _

theorem readUnsigned_length {negative : Bool} {cs rest : List Char} {n : Number}
    (h : readUnsigned negative cs = some (n, rest)) : rest.length < cs.length := by
  unfold readUnsigned at h
  have hd := digits_length cs
  simp only [Option.bind_eq_bind] at h
  split at h
  · simp at h
  · rename_i hw
    simp only [Option.pure_def, Option.bind_eq_some_iff, Prod.exists,
      Option.some.injEq, Prod.mk.injEq] at h
    obtain ⟨f, r, hf, e, r', he, -, rfl⟩ := h
    have h₁ := readFraction_length hf
    have h₂ := readExponent_length he
    have h₃ : (digits cs).1.length ≠ 0 := by
      intro h0
      simp [List.length_eq_zero_iff.mp h0] at hw
    omega

theorem readNumber_length {cs rest : List Char} {n : Number}
    (h : readNumber cs = some (n, rest)) : rest.length < cs.length := by
  unfold readNumber at h
  split at h
  · have := readUnsigned_length h
    simp only [List.length_cons]
    omega
  · exact readUnsigned_length h

/-! ### Texts -/

/-- Reads one of the words of the language. -/
def readWord (cs : List Char) : Option (Token × List Char) :=
  match cs with
  | 'n' :: 'u' :: 'l' :: 'l' :: rest => some (null, rest)
  | 't' :: 'r' :: 'u' :: 'e' :: rest => some (bool true, rest)
  | 'f' :: 'a' :: 'l' :: 's' :: 'e' :: rest => some (bool false, rest)
  | _ => none

theorem readWord_length {cs rest : List Char} {t : Token} (h : readWord cs = some (t, rest)) :
    rest.length < cs.length := by
  unfold readWord at h
  split at h <;> grind

/-- Reads the token at the front of a text that does not begin with a blank. -/
def read (cs : List Char) : Option (Token × List Char) :=
  match cs with
  | [] => none
  | '"' :: rest => (readString rest).map fun (ps, rest) => (str (joinPieces ps), rest)
  | c :: rest =>
    match punctuation? c with
    | some t => some (t, rest)
    | none =>
      if c.isDigit || c == '-' then (readNumber (c :: rest)).map fun (n, rest) => (num n, rest)
      else readWord (c :: rest)

theorem read_length {cs rest : List Char} {t : Token} (h : read cs = some (t, rest)) :
    rest.length < cs.length := by
  unfold read at h
  split at h
  · cases h
  · simp only [Option.map_eq_some_iff, Prod.exists, Prod.mk.injEq] at h
    obtain ⟨s, r, hs, -, rfl⟩ := h
    have := readString_length hs
    simp only [List.length_cons]
    omega
  · split at h
    · simp only [Option.some.injEq, Prod.mk.injEq] at h
      simp [← h.2]
    · split at h
      · simp only [Option.map_eq_some_iff, Prod.exists, Prod.mk.injEq] at h
        obtain ⟨n, r, hn, -, rfl⟩ := h
        exact readNumber_length hn
      · exact readWord_length h

/-- The tokens of a text. -/
def ofText? (cs : List Char) : Option (List Token) :=
  match cs with
  | [] => some []
  | c :: rest =>
    if isBlank c then ofText? rest
    else
      match h : read (c :: rest) with
      | none => none
      | some (t, rest') =>
        have := read_length h
        (ofText? rest').map (t :: ·)
termination_by cs.length
decreasing_by
  · exact Nat.lt_succ_self _
  · exact this

end Token

end Shading.Json
