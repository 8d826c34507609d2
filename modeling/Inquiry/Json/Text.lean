import Inquiry.Json
set_option autoImplicit false

namespace Inquiry.Json

mutual

def write (out : String) : Json → String
  | .null => out ++ "null"
  | .bool true => out ++ "true"
  | .bool false => out ++ "false"
  | .number spelling => out ++ spelling
  | .string spelling => out ++ "\"" ++ spelling ++ "\""
  | .array [] => out ++ "[]"
  | .array (item :: items) => writeItems (item.write (out ++ "[")) items ++ "]"
  | .object [] => out ++ "\x7b\x7d"
  | .object ((key, value) :: members) =>
    writeMembers (value.write (out ++ "\x7b\"" ++ key ++ "\":")) members ++ "\x7d"
  termination_by structural j => j

def writeItems (out : String) : List Json → String
  | [] => out
  | item :: items => writeItems (item.write (out ++ ",")) items
  termination_by structural items => items

def writeMembers (out : String) : List (String × Json) → String
  | [] => out
  | (key, value) :: members =>
    writeMembers (value.write (out ++ ",\"" ++ key ++ "\":")) members
  termination_by structural members => members

end

def compact (j : Json) : String := j.write ""

def newline (level : Nat) : String := "\n".pushn ' ' (2 * level)

mutual

def writePretty (level : Nat) (out : String) : Json → String
  | .null => out ++ "null"
  | .bool true => out ++ "true"
  | .bool false => out ++ "false"
  | .number spelling => out ++ spelling
  | .string spelling => out ++ "\"" ++ spelling ++ "\""
  | .array [] => out ++ "[]"
  | .array (item :: items) =>
    writePrettyItems (level + 1) (item.writePretty (level + 1) (out ++ "[" ++ newline (level + 1)))
      items ++ newline level ++ "]"
  | .object [] => out ++ "\x7b\x7d"
  | .object ((key, value) :: members) =>
    writePrettyMembers (level + 1)
      (value.writePretty (level + 1)
        (out ++ "\x7b" ++ newline (level + 1) ++ "\"" ++ key ++ "\": "))
      members ++ newline level ++ "\x7d"
  termination_by structural j => j

def writePrettyItems (level : Nat) (out : String) : List Json → String
  | [] => out
  | item :: items =>
    writePrettyItems level (item.writePretty level (out ++ "," ++ newline level)) items
  termination_by structural items => items

def writePrettyMembers (level : Nat) (out : String) : List (String × Json) → String
  | [] => out
  | (key, value) :: members =>
    writePrettyMembers level
      (value.writePretty level (out ++ "," ++ newline level ++ "\"" ++ key ++ "\": ")) members
  termination_by structural members => members

end

def pretty (j : Json) : String := j.writePretty 0 ""

end Inquiry.Json
