/-
  ByteLisp: values and what can go wrong with them.

  * `Value` is a number, a truth value, or the handle of an object on the heap;
  * `Tag` is the kind of a value as programs see it;
  * `Fault` is the reason why a run stops without a value.
-/
import ByteLisp.Text.Field

namespace ByteLisp

/-- The number of an object on the heap, in the order of allocation. -/
abbrev Handle := Nat

/-- A value. -/
inductive Value where
  | number (x : Float)
  | boolean (b : Bool)
  | object (h : Handle)
deriving Inhabited

/-- The handle, if a value is an object. -/
def Value.handle? : Value → Option Handle
  | object h => some h
  | _ => none

/-- The kind of a value. -/
inductive Tag where
  | number
  | boolean
  | string
  | code
  | native
  | function
  | cell
deriving Repr, DecidableEq

/-- The name of a kind of value. -/
def Tag.name : Tag → String
  | number => "NUMBER"
  | boolean => "BOOLEAN"
  | string => "STRING"
  | code => "CODE"
  | native => "NATIVE"
  | function => "FUNCTION"
  | cell => "CELL"

/-- Why a run stops without a value. -/
inductive Fault where
  /-- An operation was given a value of the wrong kind. -/
  | type (op : String) (expected found : Tag)
  /-- A global variable was read before it was assigned. -/
  | reference (name : String)
  | stackOverflow
  | stackUnderflow
  | unknownOpcode (byte : UInt8) (pos : Nat)
  | notCallable (found : Tag)
  | arity (name : String) (expected found : Nat)
  | badComparison
  /-- The code refers to something that is not there. -/
  | corrupted
  /-- A native function refused. -/
  | native (name reason : String)
  /-- A handle that is no object of the heap was looked at. -/
  | dangling (h : Handle)
deriving Repr, DecidableEq

/-- The message of a fault. -/
def Fault.message : Fault → String
  | type op expected found =>
    s!"type error: {op} expected {expected.name}, found {found.name}"
  | reference name => s!"reference error: `{name}` is not defined"
  | stackOverflow => "stack overflow"
  | stackUnderflow => "stack underflow"
  | unknownOpcode byte pos =>
    "unknown opcode 0x" ++ Text.hex 2 byte.toNat ++ " at 0x" ++ Text.hex 4 pos
  | notCallable found => s!"{found.name} is not callable"
  | arity name expected found => s!"`{name}` takes {expected} argument(s), given {found}"
  | badComparison => "bad compare operator"
  | corrupted => "corrupted bytecode"
  | native name reason => s!"native function `{name}` failed: {reason}"
  | dangling h => s!"no object {h}"

end ByteLisp
