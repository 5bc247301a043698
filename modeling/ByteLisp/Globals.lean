/-
  ByteLisp: global variables.

  * `Globals` is the table of global variables in the order in which they were
    defined; a variable may have no value yet;
  * `Globals.define` finds or adds a variable, `Globals.truncate` forgets the
    latest ones;
  * `Globals.addConstant` and `Globals.addNative` add a variable with its value,
    unless the name is taken.
-/
import ByteLisp.Heap

namespace ByteLisp

/-- A global variable, with its value once it is assigned. -/
structure Global where
  name : String
  value : Option Value

/-- The global variables in order. -/
structure Globals where
  entries : Array Global

namespace Globals

/-- The table without variables. -/
def empty : Globals := ⟨#[]⟩

/-- The number of variables. -/
def size (g : Globals) : Nat := g.entries.size

/-- The place of a variable in the table. -/
def indexOf? (g : Globals) (name : String) : Option Nat := g.entries.findIdx? (·.name = name)

/-- The variable at a place. -/
def get? (g : Globals) (ix : Nat) : Option Global := g.entries[ix]?

/-- The name of the variable at a place. -/
def name? (g : Globals) (ix : Nat) : Option String := (g.get? ix).map (·.name)

/-- The value of a variable, if it is defined and assigned. -/
def value? (g : Globals) (name : String) : Option Value :=
  (g.indexOf? name).bind fun ix => (g.get? ix).bind (·.value)

/-- Assigns the variable at a place. -/
def set (g : Globals) (ix : Nat) (v : Value) : Globals :=
  ⟨g.entries.modify ix fun x => { x with value := some v }⟩

/-- The place of a variable, which is added at the end with the given value if
    the name is new. -/
def insertNew (g : Globals) (name : String) (value : Option Value) : Nat × Globals :=
  match g.indexOf? name with
  | some ix => (ix, g)
  | none => (g.size, ⟨g.entries.push ⟨name, value⟩⟩)

/-- The place of a variable, which is added without a value if the name is new. -/
def define (g : Globals) (name : String) : Nat × Globals := g.insertNew name none

/-- The first `n` variables. -/
def truncate (g : Globals) (n : Nat) : Globals := ⟨g.entries.take n⟩

/-- The place of a variable, which is added with a number if the name is new. -/
def addConstant (g : Globals) (name : String) (x : Float) : Nat × Globals :=
  g.insertNew name (some (.number x))

/-- The place of a variable, which is added with a newly allocated native function
    if the name is new. -/
def addNative (g : Globals) (heap : Heap) (n : Native) : Nat × Globals × Heap :=
  match g.indexOf? n.name with
  | some ix => (ix, g, heap)
  | none =>
    (g.size, ⟨g.entries.push ⟨n.name, some (.object heap.size)⟩⟩, heap.alloc (.native n))

end Globals

end ByteLisp
