import Inquiry.Expr
set_option autoImplicit false

namespace Inquiry

inductive BuildError where
  | conflictingQuestion (question : String) (first second : Kind)
  | duplicateField (name : String)
  | duplicateParam (name : String)
  deriving DecidableEq, Repr

def BuildError.message : BuildError → String
  | .conflictingQuestion question first second =>
    "question '" ++ question ++ "' declared as " ++ first.name ++ " and as " ++ second.name
  | .duplicateField name => "duplicate field '" ++ name ++ "' in record literal"
  | .duplicateParam name => "duplicate parameter '" ++ name ++ "' in function literal"

/-- What has been handed out so far: slots by number, questions by text. -/
structure Builder where
  nextSlot : Nat
  questions : List Question
  deriving DecidableEq, Repr

namespace Builder

def empty : Builder := ⟨0, []⟩

def slot (b : Builder) (name : String) : Slot × Builder :=
  (⟨b.nextSlot, name⟩, ⟨b.nextSlot + 1, b.questions⟩)

/-- Asks a question. A repeated question keeps its first prompt. -/
def input (b : Builder) (text : String) (kind : Kind) (prompt : String) :
    Except BuildError (Expr × Builder) :=
  match b.questions.find? (fun q => q.text == text) with
  | some known =>
    if known.kind = kind then .ok (.input known, b)
    else .error (.conflictingQuestion text known.kind kind)
  | none =>
    let question : Question := ⟨text, kind, prompt⟩
    .ok (.input question, ⟨b.nextSlot, question :: b.questions⟩)

def firstRepeat (seen : List String) : List String → Option String
  | [] => none
  | name :: names => if name ∈ seen then some name else firstRepeat (name :: seen) names

def record (fields : List (Slot × Expr)) : Except BuildError Expr :=
  match firstRepeat [] (fields.map fun field => field.1.name) with
  | some name => .error (.duplicateField name)
  | none => .ok (.record (fields.map fun field => .mk field.1.name field.1 field.2))

def function (name : Option String) (params : List Slot) (body : Expr) :
    Except BuildError Expr :=
  match firstRepeat [] (params.map Slot.name) with
  | some repeated => .error (.duplicateParam repeated)
  | none => .ok (.function name params body)

end Builder

end Inquiry
