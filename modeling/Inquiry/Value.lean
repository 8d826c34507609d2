set_option autoImplicit false

/-!
Values as the host of a program sees them: answers going in, results coming out.
Records are sorted by field name and hold each name once.
-/

namespace Inquiry

inductive Kind where
  | number
  | boolean
  deriving DecidableEq, Repr

def Kind.name : Kind → String
  | .number => "number"
  | .boolean => "boolean"

inductive Category where
  | number
  | boolean
  | record
  | function
  | undefined
  deriving DecidableEq, Repr

def Category.name : Category → String
  | .number => "number"
  | .boolean => "boolean"
  | .record => "record"
  | .function => "function"
  | .undefined => "undefined"

/-- Every category, in the order in which they are numbered. -/
def Category.all : List Category := [.number, .boolean, .record, .function, .undefined]

mutual

inductive Value where
  | number (n : Int64)
  | boolean (b : Bool)
  | record (fields : Fields)
  | function (name : Option String)
  | undefined

inductive Fields where
  | nil
  | cons (name : String) (value : Value) (rest : Fields)

end

deriving instance DecidableEq, Repr for Value, Fields

namespace Fields

def toList : Fields → List (String × Value)
  | .nil => []
  | .cons name value rest => (name, value) :: rest.toList

def get? (name : String) : Fields → Option Value
  | .nil => none
  | .cons other value rest => if name = other then some value else rest.get? name

/-- Puts a field in its place by name; a field of the same name is replaced. -/
def insert (name : String) (value : Value) : Fields → Fields
  | .nil => .cons name value .nil
  | .cons other old rest =>
    if name = other then .cons name value rest
    else if name < other then .cons name value (.cons other old rest)
    else .cons other old (rest.insert name value)

def ofList (fields : List (String × Value)) : Fields :=
  fields.foldl (fun acc field => acc.insert field.1 field.2) .nil

theorem get?_insert (name other : String) (value : Value) (fields : Fields) :
    (fields.insert name value).get? other =
      if other = name then some value else fields.get? other :=
  match fields with
  | .nil => by simp [insert, get?]
  | .cons key old rest => by
    have ih := get?_insert name other value rest
    unfold insert
    split
    · grind [get?]
    · split <;> grind [get?]

end Fields

def functionText : Option String → String
  | some name => "<fn " ++ name ++ ">"
  | none => "<fn>"

mutual

def Value.text : Value → String
  | .number n => toString n.toInt
  | .boolean b => toString b
  | .record fields => "\x7b" ++ fields.text ++ "\x7d"
  | .function name => functionText name
  | .undefined => "undefined"

def Fields.text : Fields → String
  | .nil => ""
  | .cons name value .nil => name ++ ": " ++ value.text
  | .cons name value (.cons name' value' rest) =>
    name ++ ": " ++ value.text ++ ", " ++ (Fields.cons name' value' rest).text

end

namespace Value

def category : Value → Category
  | .number _ => .number
  | .boolean _ => .boolean
  | .record _ => .record
  | .function _ => .function
  | .undefined => .undefined

def kind? : Value → Option Kind
  | .number _ => some .number
  | .boolean _ => some .boolean
  | _ => none

def number? : Value → Option Int64
  | .number n => some n
  | _ => none

def boolean? : Value → Option Bool
  | .boolean b => some b
  | _ => none

def field? (name : String) : Value → Option Value
  | .record fields => fields.get? name
  | _ => none

end Value

inductive Answer where
  | number (n : Int64)
  | boolean (b : Bool)
  deriving DecidableEq, Repr

def Answer.kind : Answer → Kind
  | .number _ => .number
  | .boolean _ => .boolean

def Answer.value : Answer → Value
  | .number n => .number n
  | .boolean b => .boolean b

def Value.answer? : Value → Option Answer
  | .number n => some (.number n)
  | .boolean b => some (.boolean b)
  | _ => none

theorem Value.answer?_value (a : Answer) : a.value.answer? = some a := by cases a <;> rfl

theorem Value.kind?_eq (v : Value) : v.kind? = v.answer?.map Answer.kind := by cases v <;> rfl

end Inquiry
