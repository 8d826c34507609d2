import Inquiry.Json.Numeral
set_option autoImplicit false

/-!
Reading JSON in two passes: characters to lexemes, lexemes to a value. Open brackets are kept in
a list, so that depth costs no recursion.
-/

namespace Inquiry.Json

inductive Lexeme where
  | openArray | closeArray | openObject | closeObject | comma | colon
  | null
  | bool (b : Bool)
  | number (spelling : String)
  | string (spelling : String)
  deriving DecidableEq, Repr

def isSpace (c : Char) : Bool := c == ' ' || c == '\t' || c == '\n' || c == '\r'

def punctuation? (c : Char) : Option Lexeme :=
  if c = '[' then some .openArray
  else if c = ']' then some .closeArray
  else if c = '\x7b' then some .openObject
  else if c = '\x7d' then some .closeObject
  else if c = ',' then some .comma
  else if c = ':' then some .colon
  else none

def Lexeme.ofWord? (cs : List Char) : Option Lexeme :=
  if cs = ['n', 'u', 'l', 'l'] then some .null
  else if cs = ['t', 'r', 'u', 'e'] then some (.bool true)
  else if cs = ['f', 'a', 'l', 's', 'e'] then some (.bool false)
  else (Numeral.ofChars? cs).map fun _ => .number (String.ofList cs)

/-- Where the scanner stands. Characters of an unfinished lexeme are held last one first. -/
inductive Scan where
  | between
  | word (read : List Char)
  | string (read : List Char)
  | escape (read : List Char)
  | digits (due : Nat) (read : List Char)

def Scan.next (c : Char) (out : List Lexeme) : Scan → Option (Scan × List Lexeme)
  | .between => some (begin out)
  | .word read =>
    if isSpace c || (punctuation? c).isSome || c == '"' then
      (Lexeme.ofWord? read.reverse).map fun word => begin (word :: out)
    else some (.word (c :: read), out)
  | .string read =>
    if c = '"' then some (.between, .string (String.ofList read.reverse) :: out)
    else if c = '\\' then some (.escape (c :: read), out)
    else if c.toNat < 0x20 then none
    else some (.string (c :: read), out)
  | .escape read =>
    if c = 'u' then some (.digits 4 (c :: read), out)
    else if (shortEscape? c).isSome then some (.string (c :: read), out)
    else none
  | .digits due read =>
    if (hexDigit? c).isNone then none
    else if due ≤ 1 then some (.string (c :: read), out)
    else some (.digits (due - 1) (c :: read), out)
where
  begin (out : List Lexeme) : Scan × List Lexeme :=
    if isSpace c then (.between, out)
    else if c = '"' then (.string [], out)
    else match punctuation? c with
      | some lexeme => (.between, lexeme :: out)
      | none => (.word [c], out)

def Scan.run (out : List Lexeme) : Scan → List Char → Option (List Lexeme)
  | .between, [] => some out.reverse
  | .word read, [] => (Lexeme.ofWord? read.reverse).map fun word => (word :: out).reverse
  | _, [] => none
  | scan, c :: cs =>
    match scan.next c out with
    | some (scan, out) => scan.run out cs
    | none => none

def lexemes? (text : String) : Option (List Lexeme) := Scan.run [] .between text.toList

/-- A container part way through, with what it holds so far, last one first. An object waits for
the value of a key. -/
inductive Open where
  | array (items : List Json)
  | object (members : List (String × Json)) (key : String)

/-- Builds a value from lexemes. `done` is the value just finished, if any; otherwise one is due. -/
def assemble : Option Json → List Open → List Lexeme → Option Json
  | some j, [], [] => some j
  | some j, .array items :: stack, .comma :: rest =>
    assemble none (.array (j :: items) :: stack) rest
  | some j, .array items :: stack, .closeArray :: rest =>
    assemble (some (.array (j :: items).reverse)) stack rest
  | some j, .object members key :: stack, .comma :: .string next :: .colon :: rest =>
    assemble none (.object ((key, j) :: members) next :: stack) rest
  | some j, .object members key :: stack, .closeObject :: rest =>
    assemble (some (.object ((key, j) :: members).reverse)) stack rest
  | none, stack, .openArray :: .closeArray :: rest => assemble (some (.array [])) stack rest
  | none, stack, .openArray :: rest => assemble none (.array [] :: stack) rest
  | none, stack, .openObject :: .closeObject :: rest => assemble (some (.object [])) stack rest
  | none, stack, .openObject :: .string key :: .colon :: rest =>
    assemble none (.object [] key :: stack) rest
  | none, stack, .null :: rest => assemble (some .null) stack rest
  | none, stack, .bool b :: rest => assemble (some (.bool b)) stack rest
  | none, stack, .number spelling :: rest => assemble (some (.number spelling)) stack rest
  | none, stack, .string spelling :: rest => assemble (some (.string spelling)) stack rest
  | _, _, _ => none

def parse? (text : String) : Option Json := (lexemes? text).bind (assemble none [])

end Inquiry.Json
