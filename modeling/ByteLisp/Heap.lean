/-
  ByteLisp: the heap.

  Objects are allocated one after the other and never removed; the only change
  to an object is a new value in a cell.

  * `Object` is a string, a code object, a native function, a function with its
    captured cells, or a cell;
  * `Heap` is the table of objects;
  * `Heap.tag?` is the kind of a value, `Heap.display` its text.
-/
import ByteLisp.Code
import ByteLisp.Stack
import ByteLisp.Decimal.Numeral

namespace ByteLisp

/-- A function of the host. It reads its arguments from the stack without taking
    them, the last on top, and pushes one result. -/
structure Native where
  name : String
  arity : Nat
  run : StackOp Unit

/-- A function of a program, with the cells that it captured. -/
structure Closure where
  code : Handle
  cells : Array Handle
deriving Repr, DecidableEq

/-- An object on the heap. -/
inductive Object where
  | string (text : String)
  | code (c : Code)
  | native (n : Native)
  | function (f : Closure)
  | cell (v : Value)

/-- The kind of an object. -/
def Object.tag : Object → Tag
  | string _ => .string
  | code _ => .code
  | native _ => .native
  | function _ => .function
  | cell _ => .cell

/-- The objects allocated so far. -/
structure Heap where
  objects : Array Object

namespace Heap

/-- The heap without objects. -/
def empty : Heap := ⟨#[]⟩

/-- The number of objects. -/
def size (h : Heap) : Nat := h.objects.size

/-- The object with a handle. -/
def get? (h : Heap) (i : Handle) : Option Object := h.objects[i]?

/-- Adds an object; its handle is the number of objects before. -/
def alloc (h : Heap) (o : Object) : Heap := ⟨h.objects.push o⟩

/-- The text of a string object. -/
def string? (h : Heap) (i : Handle) : Option String :=
  match h.get? i with
  | some (.string text) => some text
  | _ => none

/-- The code object with a handle. -/
def code? (h : Heap) (i : Handle) : Option Code :=
  match h.get? i with
  | some (.code c) => some c
  | _ => none

/-- The value in a cell. -/
def cell? (h : Heap) (i : Handle) : Option Value :=
  match h.get? i with
  | some (.cell v) => some v
  | _ => none

/-- The text of a value that is a string. -/
def text? (h : Heap) (v : Value) : Option String := v.handle?.bind h.string?

/-- Puts a value into a cell. -/
def setCell (h : Heap) (i : Handle) (v : Value) : Heap := ⟨h.objects.setIfInBounds i (.cell v)⟩

/-- The kind of a value, if its handle is that of an object. -/
def tag? (h : Heap) : Value → Option Tag
  | .number _ => some .number
  | .boolean _ => some .boolean
  | .object i => (h.get? i).map Object.tag

/-- The text of a value, looking through at most `depth` cells. -/
def displayWithin (h : Heap) : Nat → Value → String
  | _, .number x => Numeral.write x
  | _, .boolean b => if b then "true" else "false"
  | depth, .object i =>
    match h.get? i with
    | some (.string text) => "\"" ++ text ++ "\""
    | some (.code c) => "<code " ++ c.name ++ ">"
    | some (.native n) => s!"<native {n.name}/{n.arity}>"
    | some (.function f) =>
      match h.code? f.code with
      | some c => s!"<fn {c.name}/{c.arity}>"
      | none => "<fn ?>"
    | some (.cell v) =>
      match depth with
      | 0 => "<cell ?>"
      | depth + 1 => "<cell " ++ displayWithin h depth v ++ ">"
    | none => "<?>"

/-- The text of a value. No row of cells, each in the one before, is longer than
    the heap unless it is a circle. -/
def display (h : Heap) (v : Value) : String := h.displayWithin h.size v

/-- The text of a value as output: a string without quotes. -/
def displayPlain (h : Heap) (v : Value) : String := (h.text? v).getD (h.display v)

/-- The text of a value with its kind. -/
def describe (h : Heap) (v : Value) : String :=
  let kind := ((h.tag? v).map Tag.name).getD "?"
  s!"EvaValue ({kind}): " ++ h.display v

/-- The code objects with their handles, in the order of allocation. -/
def codes (h : Heap) : List (Handle × Code) :=
  (List.range h.size).filterMap fun i => (h.code? i).map (i, ·)

end Heap

end ByteLisp
