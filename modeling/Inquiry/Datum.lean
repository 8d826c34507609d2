import Inquiry.Value
set_option autoImplicit false

/-!
Values inside a pass. Records and closures live in the heap of the pass and are known by number.
-/

namespace Inquiry

structure FrameId where
  index : Nat
  deriving DecidableEq, Repr

structure ThunkId where
  index : Nat
  deriving DecidableEq, Repr

structure RecordId where
  index : Nat
  deriving DecidableEq, Repr

structure ClosureId where
  index : Nat
  deriving DecidableEq, Repr

inductive Datum where
  | number (n : Int64)
  | boolean (b : Bool)
  | record (id : RecordId)
  | closure (id : ClosureId)
  | undefined
  deriving DecidableEq, Repr

def Datum.category : Datum → Category
  | .number _ => .number
  | .boolean _ => .boolean
  | .record _ => .record
  | .closure _ => .function
  | .undefined => .undefined

def Answer.datum : Answer → Datum
  | .number n => .number n
  | .boolean b => .boolean b

/-- What a derivation records of a value. A record is known by its field names, since its
fields may not have values yet. -/
inductive Summary where
  | number (n : Int64)
  | boolean (b : Bool)
  | record (fields : List String)
  | function (name : Option String)
  | undefined
  deriving DecidableEq, Repr

def Summary.text : Summary → String
  | .number n => toString n.toInt
  | .boolean b => toString b
  | .record fields => "\x7b" ++ ", ".intercalate fields ++ "\x7d"
  | .function name => functionText name
  | .undefined => "undefined"

def Answer.summary : Answer → Summary
  | .number n => .number n
  | .boolean b => .boolean b

end Inquiry
