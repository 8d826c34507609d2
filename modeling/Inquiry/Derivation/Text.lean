import Inquiry.Derivation.Trace
set_option autoImplicit false

namespace Inquiry

def Rule.fieldTexts : List String → List String
  | [] => [" \x7b\x7d"]
  | field :: fields =>
    (" \x7b" ++ field ++ ": ") :: fields.map (fun next => ", " ++ next ++ ": ") ++ ["\x7d"]

/-- The texts in front of, between and after the premises. -/
def Rule.texts : Rule → List String
  | .literal value => [value.text]
  | .input question value => ["[" ++ question ++ ": " ++ value.text ++ "]"]
  | .name text false (.function _) => [text]
  | .name text false value => [text ++ "=" ++ value.text]
  | .name text true _ => [text ++ ":", ""]
  | .binary op value => ["(", " " ++ op.symbol ++ " ", " => " ++ value.text ++ ")"]
  | .unary op value => ["(" ++ op.symbol, " => " ++ value.text ++ ")"]
  | .logical op true value => ["(", " " ++ op.symbol ++ " ", " => " ++ value.text ++ ")"]
  | .logical op false value => ["(", " " ++ op.symbol ++ " _ => " ++ value.text ++ ")"]
  | .conditional true value => ["(if ", " then ", " => " ++ value.text ++ ")"]
  | .conditional false value => ["(if ", " else ", " => " ++ value.text ++ ")"]
  | .access field true _ => ["", "." ++ field ++ ":", ""]
  | .access field false value => ["", "." ++ field ++ "=" ++ value.text]
  | .block true _ => ["\x7b ", " \x7d"]
  | .block false _ => ["\x7b \x7d"]
  | .call _ => ["", "(", ")"]
  | .record fields _ => "" :: Rule.fieldTexts fields

theorem Rule.length_fieldTexts (fields : List String) :
    (Rule.fieldTexts fields).length = fields.length + 1 := by
  cases fields <;> simp [Rule.fieldTexts]

theorem Rule.length_texts (r : Rule) : r.texts.length = r.arity + 1 := by
  unfold Rule.texts
  split <;> simp [Rule.arity, Rule.length_fieldTexts]
  omega

inductive Piece where
  | text (s : String)
  | node (i : Nat)
  deriving DecidableEq, Repr

/-- Texts and nodes in turn, a text first. -/
def Piece.interleave : List String → List Nat → List Piece
  | [], _ => []
  | s :: texts, [] => .text s :: interleave texts []
  | s :: texts, i :: nodes => .text s :: .node i :: interleave texts nodes

def Node.pieces (node : Node) : List Piece := Piece.interleave node.rule.texts node.children

namespace Trace

/-- Writes the pieces of the work list after `out`; at most `fuel` pieces. -/
def write (t : Trace) : Nat → List Piece → String → String
  | _, [], out => out
  | 0, _, out => out
  | fuel + 1, .text s :: work, out => t.write fuel work (out ++ s)
  | fuel + 1, .node i :: work, out =>
    match t.nodes[i]? with
    | some node => t.write fuel (node.pieces ++ work) out
    | none => t.write fuel work out

def pieceCount (t : Trace) : Nat :=
  t.nodes.foldl (fun n node => n + node.rule.texts.length + 1) 0

def text (t : Trace) : String := t.write t.pieceCount (t.root.toList.map .node) ""

end Trace

end Inquiry
