/-
  ByteLisp: the built-in functions.

  * `Native.square`, `Native.abs`, `Native.max` and `Native.min` work on numbers;
  * `Globals.installBuiltins` defines them, and the constant `VERSION`.
-/
import ByteLisp.Globals

namespace ByteLisp

namespace Native

/-- The argument `n` places before the last one, which must be a number. -/
def numberArg (name : String) (n : Nat) : StackOp Float := do
  match ← Stack.peek n with
  | .number x => pure x
  | .boolean _ => throw (.type name .number .boolean)
  | .object _ => throw (.native name "expected a number")

/-- A function of one number. -/
def unary (name : String) (f : Float → Float) : Native where
  name
  arity := 1
  run := do
    let x ← numberArg name 0
    Stack.push (.number (f x))

/-- A function of two numbers. -/
def binary (name : String) (f : Float → Float → Float) : Native where
  name
  arity := 2
  run := do
    let x ← numberArg name 1
    let y ← numberArg name 0
    Stack.push (.number (f x y))

/-- The greater of two numbers; a NaN yields to the other one. -/
def greater (x y : Float) : Float :=
  if x.isNaN then y else if y.isNaN then x else if x < y then y else x

/-- The lesser of two numbers; a NaN yields to the other one. -/
def lesser (x y : Float) : Float :=
  if x.isNaN then y else if y.isNaN then x else if y < x then y else x

/-- The square of a number. -/
def square : Native := unary "square" fun x => x * x

/-- The absolute value of a number. -/
def abs : Native := unary "abs" Float.abs

/-- The greater of two numbers. -/
def max : Native := binary "max" greater

/-- The lesser of two numbers. -/
def min : Native := binary "min" lesser

/-- The built-in functions in the order in which they are installed. -/
def builtins : List Native := [square, abs, max, min]

end Native

namespace Globals

/-- Adds native functions in order, each unless its name is taken. -/
def addNatives (g : Globals) (heap : Heap) : List Native → Globals × Heap
  | [] => (g, heap)
  | n :: ns =>
    let added := g.addNative heap n
    addNatives added.2.1 added.2.2 ns

/-- Defines the constant `VERSION` and the built-in functions. -/
def installBuiltins (g : Globals) (heap : Heap) : Globals × Heap :=
  (g.addConstant "VERSION" 1).2.addNatives heap Native.builtins

end Globals

end ByteLisp
