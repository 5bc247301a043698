/-
  ByteLisp: the stack.

  * `Stack` is a bounded stack of values that knows its height;
  * an operation (`StackOp`) gives a result or a fault, and the stack as it then
    is; an operation of this module that fails leaves the stack as it was;
  * `push`, `pop`, `drop` work on the top, `peek` counts from the top, `get` and
    `set` from the bottom.
-/
import ByteLisp.Value

namespace ByteLisp

/-- A stack of at most `limit` values. -/
structure Stack where
  /-- The values, the top first. -/
  values : List Value
  height : Nat
  limit : Nat
  height_eq : height = values.length

/-- An operation on the stack. -/
abbrev StackOp := EStateM Fault Stack

namespace Stack

/-- The empty stack with a limit. -/
def empty (limit : Nat) : Stack := ⟨[], 0, limit, rfl⟩

/-- The values from the bottom to the top. -/
def toList (s : Stack) : List Value := s.values.reverse

/-- Pushes a value, if there is room. -/
def push (v : Value) : StackOp Unit := fun s =>
  if s.limit ≤ s.height then .error .stackOverflow s
  else .ok () ⟨v :: s.values, s.height + 1, s.limit, by simp [s.height_eq]⟩

/-- Takes the top value. -/
def pop : StackOp Value := fun s =>
  match h : s.values with
  | [] => .error .stackUnderflow s
  | v :: vs => .ok v ⟨vs, s.height - 1, s.limit, by simp [s.height_eq, h]⟩

/-- The value `n` places below the top. -/
def peek (n : Nat) : StackOp Value := fun s =>
  match s.values[n]? with
  | some v => .ok v s
  | none => .error .stackUnderflow s

/-- Takes the top `n` values away. -/
def drop (n : Nat) : StackOp Unit := fun s =>
  if n ≤ s.height then
    .ok () ⟨s.values.drop n, s.height - n, s.limit, by simp [s.height_eq]⟩
  else .error .stackUnderflow s

/-- The value `ix` places above the bottom. -/
def get (ix : Nat) : StackOp Value := fun s =>
  if ix < s.height then
    match s.values[s.height - 1 - ix]? with
    | some v => .ok v s
    | none => .error .stackUnderflow s
  else .error .stackUnderflow s

/-- Overwrites the value `ix` places above the bottom. -/
def set (ix : Nat) (v : Value) : StackOp Unit := fun s =>
  if ix < s.height then
    .ok () ⟨s.values.set (s.height - 1 - ix) v, s.height, s.limit, by simp [s.height_eq]⟩
  else .error .stackUnderflow s

end Stack

end ByteLisp
