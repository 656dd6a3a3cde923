import Shading.Json.Number

/-!
# JSON values

Objects keep their members in the order in which they are written, repeated keys included, since
readers of objects differ in what a repetition means to them. -/

namespace Shading

/-- A JSON value. `unreadable` stands for a string with a surrogate escape that has no partner, and
for an object with such a key: their spelling is correct, but they have no value, so they may stand
only where nothing reads them. -/
inductive Json where
  | null
  | bool (b : Bool)
  | num (n : Json.Number)
  | str (s : String)
  | arr (items : List Json)
  | obj (members : List (String × Json))
  | unreadable

namespace Json

def nat (n : Nat) : Json := num (Number.ofNat n)

def int (n : Int) : Json := num (Number.ofInt n)

mutual

/-- Whether the value can be read as a whole: every string and number in it has a value, and at most
`depth` lists and objects are nested. -/
def readable (depth : Nat) : Json → Bool
  | unreadable => false
  | num n => n.value?.isSome
  | arr items => 0 < depth && readableItems (depth - 1) items
  | obj members => 0 < depth && readableMembers (depth - 1) members
  | _ => true

def readableItems (depth : Nat) : List Json → Bool
  | [] => true
  | v :: vs => readable depth v && readableItems depth vs

def readableMembers (depth : Nat) : List (String × Json) → Bool
  | [] => true
  | (_, v) :: ms => readable depth v && readableMembers depth ms

end

end Json

end Shading
