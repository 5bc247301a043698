/-
  ByteLisp: the machine.

  The machine runs code objects on a stack. An activation has a base: the slot of
  the function that is called, above which its arguments, its variables and
  intermediate values lie. Its cells are those that the function captured,
  followed by its own, which are allocated at the call.

  * `Frame` is an activation, `Machine` the state, `Run` an action on it; an
    action that fails leaves the state as it is at that point;
  * `Machine.load` prepares a run of a main code object; the stack keeps what
    earlier runs left on it;
  * `Machine.execute` is the meaning of one instruction, `Machine.step` fetches
    and executes the next one.
-/
import ByteLisp.Comparison
import ByteLisp.Globals

namespace ByteLisp

/-- The limits of a machine. -/
structure Limits where
  /-- The greatest number of values on the stack. -/
  stack : Nat
  /-- The greatest number of calls within one another. -/
  frames : Nat
deriving Repr, DecidableEq

/-- The usual limits. -/
def Limits.usual : Limits := ⟨1024, 1024⟩

/-- An activation of a function. -/
structure Frame where
  /-- The place of the next instruction in the code. -/
  ip : Nat
  /-- The slot of the function itself. -/
  base : Nat
  code : Handle
  cells : Array Handle
deriving Repr, DecidableEq

/-- The state of the machine. -/
structure Machine where
  heap : Heap
  globals : Globals
  stack : Stack
  current : Frame
  /-- The activations that wait for a call to return, the latest last. -/
  callers : Array Frame
  frameLimit : Nat

/-- An action of the machine. -/
abbrev Run := EStateM Fault Machine

namespace Machine

/-- A machine that has not run yet. -/
def start (heap : Heap) (globals : Globals) (limits : Limits) : Machine :=
  ⟨heap, globals, .empty limits.stack, ⟨0, 0, 0, #[]⟩, #[], limits.frames⟩

/-! ## Parts of the state -/

/-- An operation on the stack. -/
def onStack {α : Type} (op : StackOp α) : Run α := fun m =>
  match op m.stack with
  | .ok a s => .ok a { m with stack := s }
  | .error f s => .error f { m with stack := s }

/-- Pushes a value. -/
def push (v : Value) : Run Unit := onStack (Stack.push v)

/-- Takes the top value. -/
def pop : Run Value := onStack Stack.pop

/-- The value `n` places below the top. -/
def peek (n : Nat) : Run Value := onStack (Stack.peek n)

/-- The number of values on the stack. -/
def height : Run Nat := fun m => .ok m.stack.height m

/-- Allocates an object. -/
def alloc (o : Object) : Run Handle := fun m =>
  .ok m.heap.size { m with heap := m.heap.alloc o }

/-- Allocates `n` cells that hold `false`, and adds them to some cells. -/
def allocCells (cells : Array Handle) : Nat → Run (Array Handle)
  | 0 => pure cells
  | n + 1 => do
    let c ← alloc (.cell (.boolean false))
    allocCells (cells.push c) n

/-- What is there, or else the code is corrupted. -/
def expect {α : Type} : Option α → Run α
  | some a => pure a
  | none => throw .corrupted

/-- The code object with a handle. -/
def codeAt (h : Handle) : Run Code := fun m =>
  match m.heap.code? h with
  | some c => .ok c m
  | none => .error .corrupted m

/-- A cell of the current activation. -/
def cellAt (ix : UInt8) : Run Handle := fun m =>
  match m.current.cells[ix.toNat]? with
  | some c => .ok c m
  | none => .error .corrupted m

/-- The kind of a value. -/
def tagOf (v : Value) : Run Tag := fun m =>
  match m.heap.tag? v, v with
  | some t, _ => .ok t m
  | none, .object h => .error (.dangling h) m
  | none, _ => .error .corrupted m

/-- Fails because a value is of the wrong kind. -/
def typeFault {α : Type} (op : Op) (expected : Tag) (v : Value) : Run α := do
  let found ← tagOf v
  throw (.type op.name expected found)

/-- The text of a value that is a string. -/
def textOf (v : Value) : Run (Option String) := fun m => .ok (m.heap.text? v) m

/-- Continues at an address of the current code. -/
def goto (target : Nat) : Run Unit :=
  modify fun m => { m with current := { m.current with ip := target } }

/-! ## Operators -/

/-- Adds two numbers or joins two strings. -/
def add : Run Unit := do
  let y ← pop
  let x ← pop
  match x, y with
  | .number a, .number b => push (.number (a + b))
  | _, _ =>
    match ← textOf x, ← textOf y with
    | some s, some t => push (.object (← alloc (.string (s ++ t))))
    | some _, none => typeFault .add .string y
    | none, _ =>
      match x with
      | .number _ => typeFault .add .number y
      | _ => typeFault .add .number x

/-- Computes with two numbers. -/
def arithmetic (op : Op) (f : Float → Float → Float) : Run Unit := do
  let y ← pop
  let x ← pop
  match x, y with
  | .number a, .number b => push (.number (f a b))
  | .number _, _ => typeFault op .number y
  | _, _ => typeFault op .number x

/-- Compares two numbers or two strings, or two truth values for being the same. -/
def compare (c : Comparison) : Run Unit := do
  let y ← pop
  let x ← pop
  match x, y with
  | .number a, .number b => push (.boolean (c.numbers a b))
  | .boolean a, .boolean b =>
    if c = .eq ∨ c = .ne then push (.boolean (c.booleans a b)) else typeFault .cmp .number x
  | .boolean _, _ => typeFault .cmp .number x
  | _, _ =>
    match ← textOf x, ← textOf y with
    | some s, some t => push (.boolean (c.strings s t))
    | some _, none => typeFault .cmp .string y
    | none, _ =>
      match x with
      | .number _ => typeFault .cmp .number y
      | _ => typeFault .cmp .number x

/-! ## Calls -/

/-- Calls a native function: it must leave one value more than there were, which
    replaces the function and its arguments. -/
def callNative (n : Native) (argc : Nat) : Run Unit := do
  if n.arity ≠ argc then throw (.arity n.name n.arity argc)
  let before ← height
  onStack n.run
  if (← height) ≠ before + 1 then throw (.native n.name "must push exactly one value")
  let result ← pop
  onStack (Stack.drop (argc + 1))
  push result

/-- Enters an activation; the current one waits. -/
def enter (f : Frame) : Run Unit := fun m =>
  .ok () { m with current := f, callers := m.callers.push m.current }

/-- Calls a function of the program. -/
def callFunction (f : Closure) (argc : Nat) : Run Unit := do
  let c ← codeAt f.code
  if c.arity ≠ argc then throw (.arity c.name c.arity argc)
  let m ← get
  if m.frameLimit ≤ m.callers.size then throw .stackOverflow
  let cells ← allocCells f.cells c.own.size
  enter ⟨0, (← height) - argc - 1, f.code, cells⟩

/-- Calls the value that lies below `argc` arguments. -/
def call (argc : Nat) : Run Unit := do
  let callee ← peek argc
  let m ← get
  match callee.handle?.bind m.heap.get? with
  | some (.native n) => callNative n argc
  | some (.function f) => callFunction f argc
  | _ => throw (.notCallable (← tagOf callee))

/-- Goes back to the latest activation that waits. -/
def ret : Run Unit := fun m =>
  match m.callers.back? with
  | some f => .ok () { m with current := f, callers := m.callers.pop }
  | none => .error .corrupted m

/-- Makes a closure of the code on top and the `n` cells under it. -/
def makeFunction (n : Nat) : Run Unit := do
  let top ← pop
  let m ← get
  let code ← expect (top.handle?.filter fun h => (m.heap.code? h).isSome)
  if m.stack.height < n then throw .stackUnderflow
  let cells ← expect ((m.stack.values.take n).reverse.mapM Value.handle?)
  onStack (Stack.drop n)
  push (.object (← alloc (.function ⟨code, cells.toArray⟩)))

/-! ## Instructions -/

/-- Pops the result of a run. Below it lies the main function; if nothing else is
    there, the result is `false`. -/
def finish : Run Value := do
  if 1 < (← height) then pop else pure (.boolean false)

/-- Executes an instruction, which has been fetched. The result is the value of the
    run, if this ends it. -/
def execute : Instr → Run (Option Value)
  | .halt => some <$> finish
  | .const ix => do
    let c ← codeAt (← get).current.code
    push (← expect (c.constant? ix.toNat))
    pure none
  | .add => do add; pure none
  | .sub => do arithmetic .sub (· - ·); pure none
  | .mul => do arithmetic .mul (· * ·); pure none
  | .div => do arithmetic .div (· / ·); pure none
  | .cmp code => do
    match Comparison.ofCode? code with
    | some c => compare c
    | none => throw .badComparison
    pure none
  | .jump target => do goto target.toNat; pure none
  | .jumpIfFalse target => do
    match ← pop with
    | .boolean true => pure ()
    | .boolean false => goto target.toNat
    | test => typeFault .jumpIfFalse .boolean test
    pure none
  | .getGlobal ix => do
    let x ← expect ((← get).globals.get? ix.toNat)
    match x.value with
    | some v => push v
    | none => throw (.reference x.name)
    pure none
  | .setGlobal ix => do
    let v ← peek 0
    if (← get).globals.size ≤ ix.toNat then throw .corrupted
    modify fun m => { m with globals := m.globals.set ix.toNat v }
    pure none
  | .pop => do
    let _ ← pop
    pure none
  | .getLocal slot => do
    push (← onStack (Stack.get ((← get).current.base + slot.toNat)))
    pure none
  | .setLocal slot => do
    let v ← peek 0
    onStack (Stack.set ((← get).current.base + slot.toNat) v)
    pure none
  | .scopeExit n => do
    if n ≠ 0 then
      let result ← pop
      onStack (Stack.drop n.toNat)
      push result
    pure none
  | .call argc => do call argc.toNat; pure none
  | .ret => do ret; pure none
  | .getCell ix => do
    let h ← cellAt ix
    push (← expect ((← get).heap.cell? h))
    pure none
  | .setCell ix => do
    let h ← cellAt ix
    let v ← peek 0
    let _ ← expect ((← get).heap.cell? h)
    modify fun m => { m with heap := m.heap.setCell h v }
    pure none
  | .loadCell ix => do
    push (.object (← cellAt ix))
    pure none
  | .makeFunction n => do makeFunction n.toNat; pure none

/-! ## Reading code -/

/-- Reads the next byte of the current code. -/
def readByte : Run UInt8 := do
  let m ← get
  let c ← codeAt m.current.code
  let b ← expect (c.byte? m.current.ip)
  goto (m.current.ip + 1)
  pure b

/-- Reads the next two bytes of the current code as a number. -/
def readWord : Run UInt16 := do
  let m ← get
  let c ← codeAt m.current.code
  let w ← expect (c.word? m.current.ip)
  goto (m.current.ip + 2)
  pure w

/-- Reads the next operation. -/
def readOp : Run Op := do
  let place := (← get).current.ip
  let b ← readByte
  match Op.ofCode? b with
  | some op => pure op
  | none => throw (.unknownOpcode b place)

/-- Reads the operand that an operation has. -/
def readOperand : Op → Run Instr
  | .halt => pure .halt
  | .const => .const <$> readByte
  | .add => pure .add
  | .sub => pure .sub
  | .mul => pure .mul
  | .div => pure .div
  | .cmp => .cmp <$> readByte
  | .jump => .jump <$> readWord
  | .jumpIfFalse => .jumpIfFalse <$> readWord
  | .getGlobal => .getGlobal <$> readByte
  | .setGlobal => .setGlobal <$> readByte
  | .pop => pure .pop
  | .getLocal => .getLocal <$> readByte
  | .setLocal => .setLocal <$> readByte
  | .scopeExit => .scopeExit <$> readByte
  | .call => .call <$> readByte
  | .ret => pure .ret
  | .getCell => .getCell <$> readByte
  | .setCell => .setCell <$> readByte
  | .loadCell => .loadCell <$> readByte
  | .makeFunction => .makeFunction <$> readByte

/-- Reads the next instruction. -/
def fetch : Run Instr := do readOperand (← readOp)

/-- Fetches and executes the next instruction. -/
def step : Run (Option Value) := do
  let i ← fetch
  execute i

/-- Prepares a run of a main code object: its function is pushed and its own cells
    are allocated. -/
def load (main : Handle) : Run Unit := do
  let c ← codeAt main
  push (.object (← alloc (.function ⟨main, #[]⟩)))
  let cells ← allocCells #[] c.own.size
  modify fun m => { m with current := ⟨0, 0, main, cells⟩, callers := #[] }

end Machine

end ByteLisp
