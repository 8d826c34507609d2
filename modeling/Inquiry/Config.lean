import Inquiry.Json.Content
import Inquiry.Json.Reader
set_option autoImplicit false

namespace Inquiry

structure Config where
  /-- The most turns a pass may take, all its resumptions together. -/
  gasLimit : Nat
  captureTrace : Bool
  requireHandlers : Bool
  deriving DecidableEq, Repr

namespace Config

def standard : Config := ⟨1000000, true, false⟩

def withGasLimit (c : Config) (gasLimit : Nat) : Config := { c with gasLimit }

def withoutTrace (c : Config) : Config := { c with captureTrace := false }

def json (c : Config) : Json :=
  .ofMembers [("gas_limit", .ofNat c.gasLimit), ("capture_trace", .bool c.captureTrace),
    ("require_handlers", .bool c.requireHandlers)]

def gasLimit? (j : Json) : Option Nat := j.nat?.filter fun n => n < Nat.pow 2 64

def setting? {α : Type} (read : Json → Option α) (d : α) : List Json → Option α
  | [] => some d
  | [j] => read j
  | _ => none

/-- The settings under their names, or in a row. What is missing is as in `standard`; a setting
may not be repeated; other members are skipped. -/
def ofJson? : Json → Option Config
  | .object members => do
    let members ← Json.plainMembers? members
    let under (key : String) := members.filterMap fun m => if m.1 = key then some m.2 else none
    let gasLimit ← setting? gasLimit? standard.gasLimit (under "gas_limit")
    let captureTrace ← setting? Json.bool? standard.captureTrace (under "capture_trace")
    let requireHandlers ← setting? Json.bool? standard.requireHandlers (under "require_handlers")
    return ⟨gasLimit, captureTrace, requireHandlers⟩
  | .array items => do
    if 3 < items.length then none
    let gasLimit ← setting? gasLimit? standard.gasLimit (items.take 1)
    let captureTrace ← setting? Json.bool? standard.captureTrace ((items.drop 1).take 1)
    let requireHandlers ← setting? Json.bool? standard.requireHandlers (items.drop 2)
    return ⟨gasLimit, captureTrace, requireHandlers⟩
  | _ => none

def ofText? (text : String) : Option Config := (Json.parse? text).bind ofJson?

end Config

end Inquiry
