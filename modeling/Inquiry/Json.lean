import Inquiry.Json.Escape
set_option autoImplicit false

/-!
JSON as it is written: numbers and strings keep their spelling, objects keep the order of their
members and repeated keys.
-/

namespace Inquiry

inductive Json where
  | null
  | bool (b : Bool)
  | number (spelling : String)
  | string (spelling : String)
  | array (items : List Json)
  | object (members : List (String × Json))

instance : Inhabited Json := ⟨.null⟩

namespace Json

def ofText (s : String) : Json := .string (escape s)

def ofInt (i : Int) : Json := .number (toString i)

def ofNat (n : Nat) : Json := .number (toString n)

def ofMembers (members : List (String × Json)) : Json :=
  .object (members.map fun m => (escape m.1, m.2))

/-- The text of a string; none also if the string stands for no text. -/
def text? : Json → Option String
  | .string spelling => unescape? spelling
  | _ => none

def bool? : Json → Option Bool
  | .bool b => some b
  | _ => none

def items? : Json → Option (List Json)
  | .array items => some items
  | _ => none

def member? (key : String) : Json → Option Json
  | .object members => (members.reverse.find? fun m => unescape? m.1 == some key).map Prod.snd
  | _ => none

end Json

end Inquiry
