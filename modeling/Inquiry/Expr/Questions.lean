import Inquiry.Distinct
import Inquiry.Expr
set_option autoImplicit false

namespace Inquiry

mutual

def Expr.mentions : Expr → List Question
  | .number _ | .boolean _ | .name _ => []
  | .input question => [question]
  | .record fields => Field.mentionsAll fields
  | .function _ _ body => body.mentions
  | .binary _ left right | .logical _ left right => left.mentions ++ right.mentions
  | .unary _ operand => operand.mentions
  | .conditional predicate consequent alternate =>
    predicate.mentions ++ consequent.mentions ++ alternate.mentions
  | .access base _ => base.mentions
  | .block body => Stmt.mentionsAll body
  | .call callee args => callee.mentions ++ Expr.mentionsAll args
  termination_by structural e => e

def Field.mentions : Field → List Question
  | .mk _ _ value => value.mentions
  termination_by structural f => f

def Stmt.mentions : Stmt → List Question
  | .bind _ value => value.mentions
  | .expr value => value.mentions
  termination_by structural s => s

def Expr.mentionsAll : List Expr → List Question
  | [] => []
  | e :: es => e.mentions ++ Expr.mentionsAll es
  termination_by structural es => es

def Field.mentionsAll : List Field → List Question
  | [] => []
  | f :: fs => f.mentions ++ Field.mentionsAll fs
  termination_by structural fs => fs

def Stmt.mentionsAll : List Stmt → List Question
  | [] => []
  | s :: ss => s.mentions ++ Stmt.mentionsAll ss
  termination_by structural ss => ss

end

/-- Each question once, as its first mention declares it. -/
def Program.questions (p : Program) : List Question :=
  distinctBy Question.text (Stmt.mentionsAll p.body)

def Program.question? (p : Program) (text : String) : Option Question :=
  p.questions.find? (fun q => q.text == text)

end Inquiry
