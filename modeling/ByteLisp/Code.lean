/-
  ByteLisp: code objects.

  A code object is the compiled body of a function: its bytes, its constants and
  the names of its variables.

  * `Code` and the operations that write and read it;
  * `Code.instrs` decodes the bytes into instructions with their places, and
    `DecodeError` says where that fails.
-/
import ByteLisp.Instr
import ByteLisp.Value

namespace ByteLisp

/-- A variable on the stack, kept for the listing. -/
structure LocalName where
  name : String
  /-- The place above the base. -/
  slot : Nat
deriving Repr, DecidableEq

/-- The compiled body of a function. -/
structure Code where
  name : String
  arity : Nat
  bytes : Array UInt8
  constants : Array Value
  locals : Array LocalName
  /-- The names of the cells captured from outside. -/
  free : Array String
  /-- The names of the cells that each activation allocates. -/
  own : Array String
deriving Inhabited

namespace Code

/-- A code object without code. -/
def empty (name : String) (arity : Nat) : Code := ⟨name, arity, #[], #[], #[], #[], #[]⟩

/-! ## Reading -/

/-- The number of bytes, which is where the next instruction goes. -/
def offset (c : Code) : Nat := c.bytes.size

/-- The byte at a place. -/
def byte? (c : Code) (pos : Nat) : Option UInt8 := c.bytes[pos]?

/-- The two bytes at a place as a number, the high byte first. -/
def word? (c : Code) (pos : Nat) : Option UInt16 :=
  match c.bytes[pos]?, c.bytes[pos + 1]? with
  | some hi, some lo => some (wordOf hi lo)
  | _, _ => none

/-- A constant. -/
def constant? (c : Code) (ix : Nat) : Option Value := c.constants[ix]?

/-- The name of the latest variable declared in a slot. -/
def localName? (c : Code) (slot : Nat) : Option String :=
  (c.locals.toList.reverse.find? (·.slot = slot)).map (·.name)

/-- The names of all cells, the captured ones first. -/
def cellNames (c : Code) : Array String := c.free ++ c.own

/-- The name of a cell. -/
def cellName? (c : Code) (ix : Nat) : Option String :=
  if ix < c.free.size then c.free[ix]? else c.own[ix - c.free.size]?

/-! ## Writing -/

/-- Appends a byte. -/
def writeByte (c : Code) (b : UInt8) : Code := { c with bytes := c.bytes.push b }

/-- Appends the code of an operation. -/
def writeOp (c : Code) (op : Op) : Code := c.writeByte op.code

/-- Appends a number of two bytes, the high byte first. -/
def writeWord (c : Code) (w : UInt16) : Code :=
  { c with bytes := c.bytes ++ (bytesOf w).toArray }

/-- Overwrites two bytes. -/
def patchWord (c : Code) (pos : Nat) (w : UInt16) : Code :=
  let high := c.bytes.setIfInBounds pos (w >>> 8).toUInt8
  { c with bytes := high.setIfInBounds (pos + 1) w.toUInt8 }

/-- Appends a constant. -/
def addConstant (c : Code) (v : Value) : Code := { c with constants := c.constants.push v }

/-- Records a variable on the stack. -/
def addLocal (c : Code) (name : String) (slot : Nat) : Code :=
  { c with locals := c.locals.push ⟨name, slot⟩ }

/-- Appends captured cells; all cells named so far count as captured. -/
def addFree (c : Code) (names : List String) : Code :=
  { c with free := c.cellNames ++ names.toArray, own := #[] }

/-- Appends a cell that each activation allocates. -/
def addOwn (c : Code) (name : String) : Code := { c with own := c.own.push name }

/-! ## Decoding -/

/-- Where and why bytes are no instructions. -/
inductive DecodeError where
  | unknownOpcode (byte : UInt8) (pos : Nat)
  /-- The code ends within the operand that starts at `pos`. -/
  | truncated (pos : Nat)
deriving Repr, DecidableEq

/-- The message of a failed decoding. -/
def DecodeError.message : DecodeError → String
  | unknownOpcode byte pos =>
    "unknown opcode 0x" ++ Text.hex 2 byte.toNat ++ " at 0x" ++ Text.hex 4 pos
  | truncated pos => "truncated operand at 0x" ++ Text.hex 4 pos

/-- The instructions from a place on, each with its place. -/
def instrsFrom (bytes : Array UInt8) (pos : Nat) : Except DecodeError (List (Nat × Instr)) :=
  if pos < bytes.size then
    match Instr.fetch bytes pos with
    | .ok i => do
      let rest ← instrsFrom bytes (pos + i.size)
      pure ((pos, i) :: rest)
    | .error (.unknown b) => .error (.unknownOpcode b pos)
    | .error _ => .error (.truncated (pos + 1))
  else .ok []
termination_by bytes.size - pos
decreasing_by have := i.size_pos; omega

/-- The instructions of a code object, each with its place. -/
def instrs (c : Code) : Except DecodeError (List (Nat × Instr)) := instrsFrom c.bytes 0

end Code

end ByteLisp
