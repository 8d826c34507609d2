import Inquiry.Value
import Inquiry.Json.Content
import Inquiry.Json.Reader
set_option autoImplicit false

namespace Inquiry

mutual

def Value.json : Value → Json
  | .number n => .ofMembers [("type", .ofText "number"), ("value", .ofInt n.toInt)]
  | .boolean b => .ofMembers [("type", .ofText "boolean"), ("value", .bool b)]
  | .record fields => .ofMembers [("type", .ofText "record"), ("value", .object fields.members)]
  | .function (some name) => .ofMembers [("type", .ofText "function"), ("value", .ofText name)]
  | .function none => .ofMembers [("type", .ofText "function"), ("value", .null)]
  | .undefined => .ofMembers [("type", .ofText "undefined")]

def Fields.members : Fields → List (String × Json)
  | .nil => []
  | .cons name value rest => (Json.escape name, value.json) :: rest.members

end

def Category.ofName? (name : String) : Option Category :=
  all.find? fun c => c.name == name

/-- The category as an item of an array: its name. In content that was read ahead its place in
the list of all categories may stand for the name. -/
def Category.ofItem? (ahead : Bool) : Json → Option Category
  | .string spelling => (Json.unescape? spelling).bind ofName?
  | j => if ahead then j.nat?.bind (all[·]?) else none

/-- The category under `type`: its name, or an object with the name as its only key and null
under it. In content that was read ahead an empty object may stand for the null. -/
def Category.ofJson? (ahead : Bool) (depth : Nat) : Json → Option Category
  | .string spelling => (Json.unescape? spelling).bind ofName?
  | .object [(key, .null)] => if depth = 0 then none else (Json.unescape? key).bind ofName?
  | .object [(key, .object [])] => if ahead then (Json.unescape? key).bind ofName? else none
  | _ => none

namespace Value

def contentOfJson? (read : List (String × Json) → Option Fields) :
    Category → Json → Option Value
  | .number, j => j.int64?.map .number
  | .boolean, j => j.bool?.map .boolean
  | .record, .object members => (read members).map .record
  | .record, _ => none
  | .function, .null => some (.function none)
  | .function, j => j.text?.map fun name => .function (some name)
  | .undefined, .null => some .undefined
  | .undefined, _ => none

def withoutContent? : Category → Option Value
  | .function => some (.function none)
  | .undefined => some .undefined
  | _ => none

/-- Reads a value with `depth` containers left to open. The category and the content may come in
either order, and an array of just these two may stand for the object; other members are skipped.
Content in front of its category is read `ahead`: it has to hold as data, whatever it is. -/
def ofJsonWithin? : Nat → Bool → Json → Option Value
  | 0, _, _ => none
  | depth + 1, ahead, j =>
    let fields (ahead : Bool) (members : List (String × Json)) : Option Fields :=
      match depth with
      | 0 => none
      | depth + 1 => do
        let members ← Json.plainMembers? members
        let fields ← members.mapM fun m =>
          (ofJsonWithin? depth ahead m.2).map fun value => (m.1, value)
        return Fields.ofList fields
    match j with
    | .array [type, content] =>
      match Category.ofItem? ahead type with
      | some category => contentOfJson? (fields ahead) category content
      | none => none
    | .object members =>
      let relevant (m : String × Json) : Bool := m.1 == "type" || m.1 == "value"
      match (Json.plainMembers? members).map (List.filter relevant) with
      | some [("type", type)] => (Category.ofJson? ahead depth type).bind withoutContent?
      | some [("type", type), ("value", content)] =>
        match Category.ofJson? ahead depth type with
        | some category => contentOfJson? (fields ahead) category content
        | none => none
      | some [("value", content), ("type", type)] =>
        if content.holds depth then
          match Category.ofJson? ahead depth type with
          | some category => contentOfJson? (fields true) category content
          | none => none
        else none
      | _ => none
    | _ => none
  termination_by structural depth => depth

def ofJson? (j : Json) : Option Value := ofJsonWithin? Json.maxDepth false j

def ofText? (text : String) : Option Value := (Json.parse? text).bind ofJson?

end Value

end Inquiry
