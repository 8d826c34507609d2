import Inquiry.Json
import Inquiry.Json.Double
set_option autoImplicit false

namespace Inquiry

structure Numeral where
  negative : Bool
  whole : List Char
  fraction : Option (List Char)
  exponent : Option (Bool × List Char)
  deriving DecidableEq, Repr

namespace Numeral

def isDigit (c : Char) : Bool := '0' ≤ c && c ≤ '9'

def value (digits : List Char) : Nat :=
  digits.foldl (fun n c => 10 * n + (c.toNat - '0'.toNat)) 0

def digits? (cs : List Char) : Option (List Char × List Char) :=
  match cs.takeWhile isDigit with
  | [] => none
  | digits => some (digits, cs.dropWhile isDigit)

def whole? (cs : List Char) : Option (List Char × List Char) :=
  match digits? cs with
  | some ('0' :: _ :: _, _) => none
  | other => other

def fraction? : List Char → Option (Option (List Char) × List Char)
  | '.' :: cs => (digits? cs).map fun (digits, rest) => (some digits, rest)
  | cs => some (none, cs)

def exponent? : List Char → Option (Option (Bool × List Char))
  | [] => some none
  | e :: cs =>
    if e = 'e' ∨ e = 'E' then
      let (negative, cs) := match cs with
        | '-' :: cs => (true, cs)
        | '+' :: cs => (false, cs)
        | cs => (false, cs)
      match digits? cs with
      | some (digits, []) => some (some (negative, digits))
      | _ => none
    else none

def ofChars? (cs : List Char) : Option Numeral := do
  let (negative, cs) := match cs with
    | '-' :: cs => (true, cs)
    | cs => (false, cs)
  let (whole, cs) ← whole? cs
  let (fraction, cs) ← fraction? cs
  let exponent ← exponent? cs
  return ⟨negative, whole, fraction, exponent⟩

def int? : Numeral → Option Int
  | ⟨false, whole, none, none⟩ => some (value whole)
  | ⟨true, whole, none, none⟩ => if value whole = 0 then none else some (-(value whole : Int))
  | _ => none

/-- Appends digits to `n` for as long as the result is a word of 64 bits; also how many digits
are left over. -/
def gather (n : Nat) : List Char → Nat × Nat
  | [] => (n, 0)
  | c :: cs =>
    let next := 10 * n + (c.toNat - '0'.toNat)
    if next < Nat.pow 2 64 then gather next cs else (n, cs.length + 1)

/-- A word and the power of ten to multiply it by. Digits that the word has no room for count as
zeros; the fraction goes on after the digits in front that were kept. -/
def scaled (n : Numeral) : Nat × Int :=
  let fraction := n.fraction.getD []
  let (front, skipped) := gather 0 n.whole
  let (word, dropped) := gather front fraction
  let written : Int := match n.exponent with
    | none => 0
    | some (false, digits) => value digits
    | some (true, digits) => -(value digits : Int)
  (word, written + skipped + dropped - fraction.length)

/-- Whether the number stays finite when its word and its power of ten are taken as doubles and
multiplied as doubles. A negative power only makes the word smaller; a power that is no finite
double itself suits no word but zero. -/
def fitsDouble (n : Numeral) : Bool :=
  match n.scaled with
  | (0, _) | (_, .negSucc _) => true
  | (word, .ofNat power) =>
    power ≤ 308 &&
      Double.round (Double.round word * Double.round (Nat.pow 10 power)) < Double.bound

end Numeral

namespace Json

def int? : Json → Option Int
  | .number spelling => (Numeral.ofChars? spelling.toList).bind Numeral.int?
  | _ => none

def nat? (j : Json) : Option Nat :=
  match j.int? with
  | some (.ofNat n) => some n
  | _ => none

def int64? (j : Json) : Option Int64 :=
  match j.int? with
  | some i =>
    if (Int64.ofInt i).toInt = i then some (Int64.ofInt i) else none
  | none => none

end Json

end Inquiry
