/-
  ByteLisp: instructions and their bytes.

  An instruction is one byte for the operation, followed by no operand, one byte,
  or a two-byte address with the high byte first.

  * `Op` is an operation with its code and its mnemonic, `Instr` an operation
    with its operand;
  * `Instr.encode` gives the bytes of an instruction;
  * `Instr.fetch` reads the instruction at a place of a row of bytes; the listing
    reads code with it.
-/
namespace ByteLisp

/-- An operation of the machine. -/
inductive Op where
  | halt
  | const
  | add
  | sub
  | mul
  | div
  | cmp
  | jump
  | jumpIfFalse
  | getGlobal
  | setGlobal
  | pop
  | getLocal
  | setLocal
  | scopeExit
  | call
  | ret
  | getCell
  | setCell
  | loadCell
  | makeFunction
deriving Repr, DecidableEq

/-- An operation with its operand. -/
inductive Instr where
  /-- Ends the run with the value on top. -/
  | halt
  /-- Pushes a constant. -/
  | const (ix : UInt8)
  | add
  | sub
  | mul
  | div
  /-- Compares by the comparison with the given code. -/
  | cmp (code : UInt8)
  | jump (target : UInt16)
  | jumpIfFalse (target : UInt16)
  | getGlobal (ix : UInt8)
  | setGlobal (ix : UInt8)
  | pop
  /-- Pushes the value in a slot above the base. -/
  | getLocal (slot : UInt8)
  | setLocal (slot : UInt8)
  /-- Drops `n` values under the top. -/
  | scopeExit (n : UInt8)
  | call (argc : UInt8)
  | ret
  /-- Pushes the value of a cell. -/
  | getCell (ix : UInt8)
  | setCell (ix : UInt8)
  /-- Pushes a cell itself. -/
  | loadCell (ix : UInt8)
  /-- Makes a closure of the code on top and the `n` cells under it. -/
  | makeFunction (n : UInt8)
deriving Repr, DecidableEq

/-- An instruction that lacks its operand. -/
inductive Template where
  | plain (i : Instr)
  | byte (make : UInt8 → Instr)
  | word (make : UInt16 → Instr)

namespace Op

/-- The operations in the order of their codes. -/
def all : List Op :=
  [halt, const, add, sub, mul, div, cmp, jump, jumpIfFalse, getGlobal, setGlobal, pop, getLocal,
    setLocal, scopeExit, call, ret, getCell, setCell, loadCell, makeFunction]

/-- The code of an operation. -/
def code : Op → UInt8
  | halt => 0x00
  | const => 0x01
  | add => 0x02
  | sub => 0x03
  | mul => 0x04
  | div => 0x05
  | cmp => 0x06
  | jump => 0x07
  | jumpIfFalse => 0x08
  | getGlobal => 0x09
  | setGlobal => 0x0A
  | pop => 0x0B
  | getLocal => 0x0C
  | setLocal => 0x0D
  | scopeExit => 0x0E
  | call => 0x0F
  | ret => 0x10
  | getCell => 0x11
  | setCell => 0x12
  | loadCell => 0x13
  | makeFunction => 0x14

/-- The operation with a code. -/
def ofCode? (b : UInt8) : Option Op := all[b.toNat]?

/-- The mnemonic of an operation. -/
def name : Op → String
  | halt => "HALT"
  | const => "CONST"
  | add => "ADD"
  | sub => "SUB"
  | mul => "MUL"
  | div => "DIV"
  | cmp => "CMP"
  | jump => "JMP"
  | jumpIfFalse => "JMP_IF_FALSE"
  | getGlobal => "GET_GLOBAL"
  | setGlobal => "SET_GLOBAL"
  | pop => "POP"
  | getLocal => "GET_LOCAL"
  | setLocal => "SET_LOCAL"
  | scopeExit => "SCOPE_EXIT"
  | call => "CALL"
  | ret => "RETURN"
  | getCell => "GET_CELL"
  | setCell => "SET_CELL"
  | loadCell => "LOAD_CELL"
  | makeFunction => "MAKE_FUNCTION"

/-- The instructions with an operation, by their operand. -/
def template : Op → Template
  | halt => .plain .halt
  | const => .byte .const
  | add => .plain .add
  | sub => .plain .sub
  | mul => .plain .mul
  | div => .plain .div
  | cmp => .byte .cmp
  | jump => .word .jump
  | jumpIfFalse => .word .jumpIfFalse
  | getGlobal => .byte .getGlobal
  | setGlobal => .byte .setGlobal
  | pop => .plain .pop
  | getLocal => .byte .getLocal
  | setLocal => .byte .setLocal
  | scopeExit => .byte .scopeExit
  | call => .byte .call
  | ret => .plain .ret
  | getCell => .byte .getCell
  | setCell => .byte .setCell
  | loadCell => .byte .loadCell
  | makeFunction => .byte .makeFunction

/-- The number of bytes of the operand. -/
def width (op : Op) : Nat :=
  match op.template with
  | .plain _ => 0
  | .byte _ => 1
  | .word _ => 2

theorem ofCode?_code (op : Op) : ofCode? op.code = some op := by
  cases op <;> rfl

end Op

/-- The number with a high and a low byte. -/
def wordOf (hi lo : UInt8) : UInt16 := hi.toUInt16 <<< 8 ||| lo.toUInt16

/-- The high and the low byte of a number. -/
def bytesOf (w : UInt16) : List UInt8 := [(w >>> 8).toUInt8, w.toUInt8]

namespace Instr

/-- The operation of an instruction. -/
def op : Instr → Op
  | halt => .halt
  | const _ => .const
  | add => .add
  | sub => .sub
  | mul => .mul
  | div => .div
  | cmp _ => .cmp
  | jump _ => .jump
  | jumpIfFalse _ => .jumpIfFalse
  | getGlobal _ => .getGlobal
  | setGlobal _ => .setGlobal
  | pop => .pop
  | getLocal _ => .getLocal
  | setLocal _ => .setLocal
  | scopeExit _ => .scopeExit
  | call _ => .call
  | ret => .ret
  | getCell _ => .getCell
  | setCell _ => .setCell
  | loadCell _ => .loadCell
  | makeFunction _ => .makeFunction

/-- The one-byte operand of an instruction. -/
def arg? : Instr → Option UInt8
  | const x | cmp x | getGlobal x | setGlobal x | getLocal x | setLocal x | scopeExit x | call x
  | getCell x | setCell x | loadCell x | makeFunction x => some x
  | _ => none

/-- The address in an instruction. -/
def address? : Instr → Option UInt16
  | jump w | jumpIfFalse w => some w
  | _ => none

/-- The bytes of the operand. -/
def operands (i : Instr) : List UInt8 :=
  match i.arg?, i.address? with
  | some x, _ => [x]
  | _, some w => bytesOf w
  | _, _ => []

/-- The bytes of an instruction. -/
def encode (i : Instr) : List UInt8 := i.op.code :: i.operands

/-- The number of bytes of an instruction. -/
def size (i : Instr) : Nat := 1 + i.op.width

/-- Why no instruction is found at a place. -/
inductive FetchError where
  /-- The code ends before the place. -/
  | pastEnd
  | unknown (byte : UInt8)
  /-- The code ends within the operand. -/
  | truncated
deriving Repr, DecidableEq

/-- The operation at a place of the code. -/
def fetchOp (bytes : Array UInt8) (pos : Nat) : Except FetchError Op :=
  match bytes[pos]? with
  | none => .error .pastEnd
  | some b =>
    match Op.ofCode? b with
    | none => .error (.unknown b)
    | some op => .ok op

/-- The instruction at a place of the code. -/
def fetch (bytes : Array UInt8) (pos : Nat) : Except FetchError Instr := do
  match (← fetchOp bytes pos).template with
  | .plain i => pure i
  | .byte make =>
    match bytes[pos + 1]? with
    | some x => pure (make x)
    | none => .error .truncated
  | .word make =>
    match bytes[pos + 1]?, bytes[pos + 2]? with
    | some hi, some lo => pure (make (wordOf hi lo))
    | _, _ => .error .truncated

theorem op_width (i : Instr) : i.operands.length = i.op.width := by
  cases i <;> rfl

theorem length_encode (i : Instr) : i.encode.length = i.size := by
  simp [encode, size, op_width, Nat.add_comm]

theorem size_pos (i : Instr) : 0 < i.size := by
  rw [size]; omega

end Instr

end ByteLisp
