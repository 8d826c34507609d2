import Inquiry.Json.Numeral
set_option autoImplicit false

/-!
JSON that can be held as data: every text exists, every number is finite, and containers are not
nested too deeply. Parts that a reader skips need not satisfy this.
-/

namespace Inquiry.Json

def maxDepth : Nat := 127

mutual

def holds (depth : Nat) : Json → Bool
  | .null | .bool _ => true
  | .number spelling => (Numeral.ofChars? spelling.toList).any Numeral.fitsDouble
  | .string spelling => (unescape? spelling).isSome
  | .array items => depth != 0 && holdsItems (depth - 1) items
  | .object members => depth != 0 && holdsMembers (depth - 1) members
  termination_by structural j => j

def holdsItems (depth : Nat) : List Json → Bool
  | [] => true
  | item :: items => item.holds depth && holdsItems depth items
  termination_by structural items => items

def holdsMembers (depth : Nat) : List (String × Json) → Bool
  | [] => true
  | (key, value) :: members =>
    (unescape? key).isSome && value.holds depth && holdsMembers depth members
  termination_by structural members => members

end

def plainMembers? (members : List (String × Json)) : Option (List (String × Json)) :=
  members.mapM fun m => (unescape? m.1).map fun key => (key, m.2)

end Inquiry.Json
