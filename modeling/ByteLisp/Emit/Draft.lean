/-
  ByteLisp: a function while its code is generated.

  A draft is what is known of a code object before its end: its constants and
  names, and, at the current point, the offset in the code, the number of values
  that an activation has on the stack, and the variables in view.

  * `Draft.addLocal`, `Draft.slot?` and `Draft.dropLatest` deal with variables on
    the stack, `Draft.addBlockCell` and `Draft.cell?` with cells; the latest
    declaration of a name is the one in view;
  * `Draft.enterBlock` and `Draft.exitBlock` bracket a block;
  * `Draft.finish` is the code object.
-/
import ByteLisp.Code

namespace ByteLisp

/-- A variable in view: its place, and the nesting of the block that declares it. -/
structure InView where
  name : String
  place : Nat
  level : Nat
deriving Repr, DecidableEq

/-- A code object whose code is being generated. -/
structure Draft where
  name : String
  arity : Nat
  /-- The number of bytes generated so far. -/
  offset : Nat
  /-- The number of values above the base, with the function and its arguments. -/
  depth : Nat
  /-- The nesting of blocks at the current point; the function itself is at zero. -/
  level : Nat
  /-- The variables in view that have a slot, the latest first. -/
  slots : List InView
  /-- The variables in view that have a cell, the latest first. -/
  cells : List InView
  constants : Array Value
  locals : Array LocalName
  free : Array String
  own : Array String

namespace Draft

/-- The draft of a function at its start: all its cells are in view. -/
def start (name : String) (arity depth : Nat) (free own : Array String) : Draft where
  name
  arity
  offset := 0
  depth
  level := 0
  slots := []
  cells := ((free ++ own).toList.zipIdx.map fun c => ⟨c.1, c.2, 0⟩).reverse
  constants := #[]
  locals := #[]
  free
  own

/-- Declares a variable in a slot. -/
def addLocal (d : Draft) (name : String) (slot : Nat) : Draft :=
  { d with
    locals := d.locals.push ⟨name, slot⟩
    slots := ⟨name, slot, d.level⟩ :: d.slots }

/-- Declares variables in a row of slots. -/
def addLocals (d : Draft) (slot : Nat) : List String → Draft
  | [] => d
  | name :: names => (d.addLocal name slot).addLocals (slot + 1) names

/-- The slot of a variable. -/
def slot? (d : Draft) (name : String) : Option Nat :=
  (d.slots.find? (·.name = name)).map (·.place)

/-- Takes the latest variable with a slot out of view. -/
def dropLatest (d : Draft) : Draft := { d with slots := d.slots.tail }

/-- Declares a variable of the current block that has a cell. -/
def addBlockCell (d : Draft) (name : String) : Draft :=
  { d with
    own := d.own.push name
    cells := ⟨name, d.free.size + d.own.size, d.level⟩ :: d.cells }

/-- Declares several variables of the current block that have cells. -/
def addBlockCells (d : Draft) (names : List String) : Draft := names.foldl addBlockCell d

/-- The cell of a variable. -/
def cell? (d : Draft) (name : String) : Option Nat :=
  (d.cells.find? (·.name = name)).map (·.place)

/-- Enters a block. -/
def enterBlock (d : Draft) : Draft := { d with level := d.level + 1 }

/-- The number of variables with a slot that the current block declares. -/
def blockLocals (d : Draft) : Nat := d.slots.countP (·.level = d.level)

/-- Leaves the current block and takes its variables out of view. -/
def exitBlock (d : Draft) : Draft :=
  { d with
    slots := d.slots.filter (·.level < d.level)
    cells := d.cells.filter (·.level < d.level)
    level := d.level - 1 }

/-- One more instruction. -/
def advance (d : Draft) (n : Nat) : Draft := { d with offset := d.offset + n }

/-- `n` more values on the stack. -/
def grow (d : Draft) (n : Nat) : Draft := { d with depth := d.depth + n }

/-- `n` values fewer on the stack. -/
def shrink (d : Draft) (n : Nat) : Draft := { d with depth := d.depth - n }

/-- The code object with the given instructions. -/
def finish (d : Draft) (instrs : List Instr) : Code where
  name := d.name
  arity := d.arity
  bytes := (instrs.flatMap Instr.encode).toArray
  constants := d.constants
  locals := d.locals
  free := d.free
  own := d.own

end Draft

end ByteLisp
