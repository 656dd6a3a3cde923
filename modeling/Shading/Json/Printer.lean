import Shading.Json.Basic

/-!
# Writing JSON

Two layouts: compact, without any blank, and indented by two blanks with one item to a line. Strings
escape quotes, backslashes and control characters, and nothing else. -/

namespace Shading.Json

def hexDigit (n : Nat) : Char := if n < 10 then Char.ofNat (48 + n) else Char.ofNat (87 + n)

/-- A character as it is written inside a string. -/
def escape (c : Char) : List Char :=
  match c with
  | '"' => ['\\', '"']
  | '\\' => ['\\', '\\']
  | '\x08' => ['\\', 'b']
  | '\x0c' => ['\\', 'f']
  | '\n' => ['\\', 'n']
  | '\r' => ['\\', 'r']
  | '\t' => ['\\', 't']
  | c =>
    if c.toNat < 0x20 then ['\\', 'u', '0', '0', hexDigit (c.toNat / 16), hexDigit (c.toNat % 16)]
    else [c]

def quoted (s : String) : List Char := '"' :: (s.toList.flatMap escape ++ ['"'])

/-- A number as it was read. -/
def Number.chars (n : Number) : List Char :=
  (if n.negative then ['-'] else []) ++ n.whole ++
    (if n.fraction.isEmpty then [] else '.' :: n.fraction) ++
    match n.exponent with
    | none => []
    | some (minus, ds) => 'e' :: (if minus then '-' :: ds else ds)

/-- The text of a value without parts. A value that could not be read has no text of its own and is
written as null. -/
def atomChars : Json → List Char
  | bool true => "true".toList
  | bool false => "false".toList
  | num n => n.chars
  | str s => quoted s
  | _ => "null".toList

mutual

/-- The value without any blank. -/
def compactChars : Json → List Char
  | arr items => '[' :: (compactItems items ++ [']'])
  | obj members => '\x7b' :: (compactMembers members ++ ['\x7d'])
  | v => atomChars v

def compactItems : List Json → List Char
  | [] => []
  | [v] => compactChars v
  | v :: vs => compactChars v ++ ',' :: compactItems vs

def compactMembers : List (String × Json) → List Char
  | [] => []
  | [(k, v)] => quoted k ++ ':' :: compactChars v
  | (k, v) :: ms => quoted k ++ ':' :: (compactChars v ++ ',' :: compactMembers ms)

end

def compact (v : Json) : String := String.ofList (compactChars v)

/-- The start of a new line at a given depth. -/
def newline (depth : Nat) : List Char := '\n' :: List.replicate (2 * depth) ' '

mutual

/-- The value with one item to a line. -/
def prettyChars (depth : Nat) : Json → List Char
  | arr [] => "[]".toList
  | arr items => '[' :: (prettyItems (depth + 1) items ++ newline depth ++ [']'])
  | obj [] => "\x7b\x7d".toList
  | obj members => '\x7b' :: (prettyMembers (depth + 1) members ++ newline depth ++ ['\x7d'])
  | v => atomChars v

def prettyItems (depth : Nat) : List Json → List Char
  | [] => []
  | [v] => newline depth ++ prettyChars depth v
  | v :: vs => newline depth ++ prettyChars depth v ++ ',' :: prettyItems depth vs

def prettyMembers (depth : Nat) : List (String × Json) → List Char
  | [] => []
  | [(k, v)] => newline depth ++ quoted k ++ ": ".toList ++ prettyChars depth v
  | (k, v) :: ms =>
    newline depth ++ quoted k ++ ": ".toList ++ prettyChars depth v ++ ',' :: prettyMembers depth ms

end

def pretty (v : Json) : String := String.ofList (prettyChars 0 v)

end Shading.Json
