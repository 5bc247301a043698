/-
  ByteLisp: a code generator that writes bytes.

  `Emit` gives the instructions of a form when all addresses in them are known. This
  generator keeps a stack of the functions that are being compiled, writes the bytes
  of one instruction after the other, and patches the addresses of jumps forward into
  the bytes that are there. It checks what the steps rely on:

  * `Write.Breach.noFrame`: a function is being compiled when one is used or ended;
  * `Write.Breach.patch`: a patched address has been written before;
  * `Write.Breach.depth`: no more values are taken off the stack than there are, and a
    variable that gets the value on top has one.

  Actions that write no code are those of `Emit`, done on the innermost function
  (`Write.lift`). `Expr.write` compiles a program; the result is a compilation, or
  a breach.
-/
import ByteLisp.Emit

namespace ByteLisp

/-! ## The functions that are being compiled -/

/-- A function that is being compiled. -/
structure Write.Frame where
  draft : Draft
  /-- The code that has been written. -/
  bytes : List UInt8

namespace Write.Frame

/-- Writes an instruction. -/
def write (f : Frame) (i : Instr) : Frame :=
  ⟨f.draft.advance i.size, f.bytes ++ i.encode⟩

/-- Puts an address into the two bytes at a place. -/
def patch (f : Frame) (place : Nat) (target : UInt16) : Frame :=
  { f with bytes := f.bytes.take place ++ bytesOf target ++ f.bytes.drop (place + 2) }

/-- The code object. -/
def finish (f : Frame) : Code := { f.draft.finish [] with bytes := f.bytes.toArray }

end Write.Frame

/-- What the generator works on. -/
structure Writing where
  heap : Heap
  globals : Globals
  notes : Array String
  /-- The functions that are being compiled, the innermost first. -/
  frames : List Write.Frame

/-- A step was taken where it is impossible. -/
inductive Write.Breach where
  /-- No function is being compiled. -/
  | noFrame
  /-- An address is patched where nothing has been written. -/
  | patch
  /-- A value is taken that the stack does not have. -/
  | depth
deriving Repr, DecidableEq

/-- Why the generator stops. -/
inductive Write.Stop where
  | error (e : CompileError)
  | breach (b : Breach)

/-- An action of the generator. -/
abbrev Write := EStateM Write.Stop Writing

namespace Write

/-! ## Frames, bytes and the stack -/

/-- The innermost function. -/
def frame : Write Frame := do
  match (← get).frames with
  | f :: _ => return f
  | [] => throw (.breach .noFrame)

/-- Changes the innermost function. -/
def update (g : Frame → Frame) : Write Unit := do
  let f ← frame
  modify fun w => { w with frames := g f :: w.frames.tail }

/-- Starts a function. -/
def pushFrame (f : Frame) : Write Unit := modify fun w => { w with frames := f :: w.frames }

/-- Ends the innermost function. -/
def popFrame : Write Frame := do
  let f ← frame
  modify fun w => { w with frames := w.frames.tail }
  return f

/-- The end of an action that writes no code. -/
def ending {α : Type} (f : Frame) (rest : List Frame) :
    EStateM.Result CompileError Emission α → EStateM.Result Stop Writing α
  | .ok a e => .ok a ⟨e.heap, e.globals, e.notes, { f with draft := e.draft } :: rest⟩
  | .error err e =>
    .error (.error err) ⟨e.heap, e.globals, e.notes, { f with draft := e.draft } :: rest⟩

/-- An action that writes no code, on the innermost function. -/
def lift {α : Type} (x : Emit α) : Write α := do
  let f ← frame
  fun w => ending f w.frames.tail (x ⟨w.heap, w.globals, w.notes, f.draft⟩)

/-- Writes an instruction. -/
def instr (i : Instr) : Write Unit := update (·.write i)

/-- Writes a jump whose address is not known yet; the result is the place of the address. -/
def jump (i : UInt16 → Instr) : Write Nat := do
  let place := (← frame).bytes.length + 1
  instr (i 0)
  return place

/-- An offset as an address. -/
def address (offset : Nat) : Write UInt16 := do
  if offset < 65536 then return offset.toUInt16
  else throw (.error (.jumpTooFar (← frame).draft.name))

/-- Lets the jump with its address at a place lead to the current end of the code. -/
def patch (place : Nat) : Write Unit := do
  let f ← frame
  let target ← address f.bytes.length
  if place + 2 ≤ f.bytes.length then update (·.patch place target) else throw (.breach .patch)

/-- `n` values are taken off the stack. -/
def take (n : Nat) : Write Unit := do
  if n ≤ (← frame).draft.depth then update fun f => { f with draft := f.draft.shrink n }
  else throw (.breach .depth)

/-- A value is put on the stack. -/
def put : Write Unit := update fun f => { f with draft := f.draft.grow 1 }

/-- Allocates an object. -/
def alloc (o : Object) : Write Handle :=
  modifyGet fun w => (w.heap.size, { w with heap := w.heap.alloc o })

/-- A note for the log. -/
def note (text : String) : Write Unit := modify fun w => { w with notes := w.notes.push text }

/-! ## Constants and variables -/

/-- Pushes a constant. -/
def constant (v : Value) : Write Unit := do
  let ix ← lift (Emit.constantIndex v)
  instr (.const ix)
  put

/-- Pushes the value of a variable. -/
def read (T : Scopes) (s : ScopeId) (name : String) (binding : Binding) : Write Unit := do
  match T.storageOf s name binding with
  | .global => instr (.getGlobal (← lift (Emit.globalIndex T name)))
  | .slot => instr (.getLocal (← lift (Emit.slotIndex name)))
  | .cell => instr (.getCell (← lift (Emit.cellIndex name)))
  put

/-- Stores the value on top in a variable and leaves it there. -/
def store (T : Scopes) (s : ScopeId) (name : String) (binding : Binding) : Write Unit := do
  match T.storageOf s name binding with
  | .global => instr (.setGlobal (← lift (Emit.globalIndex T name)))
  | .slot => instr (.setLocal (← lift (Emit.slotIndex name)))
  | .cell => instr (.setCell (← lift (Emit.cellIndex name)))

/-- Defines a global variable and gives its place. -/
def define (name : String) : Emit UInt8 := do
  let e ← get
  let defined := e.globals.define name
  set { e with globals := defined.2 }
  Emit.globalIndex.check defined.1

/-- Makes the value on top a new variable of the scope `s`. -/
def declare (T : Scopes) (s : ScopeId) (whole : Form) (name : String) (direct : Bool) :
    Write Effect := do
  match T.storageOf s name .unbound with
  | .global =>
    instr (.setGlobal (← lift (define name)))
    return .value
  | .cell =>
    let ix ← lift (Emit.cellIndex name)
    instr (.setCell ix)
    instr .pop
    take 1
    if direct then return .stored ix
    else
      instr (.getCell ix)
      put
      return .value
  | .slot =>
    if direct then
      let depth := (← frame).draft.depth
      if depth = 0 then throw (.breach .depth)
      else
        update fun f => { f with draft := f.draft.addLocal name (depth - 1) }
        let ix ← lift (Emit.placeOperand (depth - 1))
        instr (.setLocal ix)
        return .slot ix
    else throw (.error (.malformed whole.toExpr .nestedDeclaration))

/-! ## Operators, choices and loops -/

/-- Drops the value on top. -/
def discard : Write Unit := do
  instr .pop
  take 1

/-- Writes an operation. -/
def operation (op : Operator) (x y : Write Unit) : Write Unit := do
  x
  y
  instr (Emit.operator op)
  take 1

/-- Writes a choice. -/
def branch (test thn els : Write Unit) : Write Unit := do
  test
  let otherwise ← jump .jumpIfFalse
  take 1
  let depth := (← frame).draft.depth
  thn
  let done ← jump .jump
  patch otherwise
  update fun f => { f with draft := { f.draft with depth } }
  els
  patch done

/-- Writes the modifier of a loop, if there is one. -/
def modify? : Option (Write Unit) → Write Unit
  | some modifier => do
    modifier
    discard
  | none => return ()

/-- Writes a loop. -/
def loop (test body : Write Unit) (modifier : Option (Write Unit)) : Write Unit := do
  let start := (← frame).bytes.length
  test
  let done ← jump .jumpIfFalse
  take 1
  body
  discard
  modify? modifier
  instr (.jump (← address start))
  patch done
  constant (.boolean false)

/-- Writes a loop with a start. -/
def forLoop (init : Write Effect) (looped : Write Unit) : Write Unit := do
  match ← init with
  | .value =>
    discard
    looped
  | .stored _ => looped
  | .slot _ =>
    looped
    instr (.scopeExit 1)
    take 1
    update fun f => { f with draft := f.draft.dropLatest }

/-! ## Blocks -/

/-- Ends a form in the middle of a block. -/
def separate (form : Write Effect) : Write Unit := do
  match ← form with
  | .value => discard
  | _ => return ()

/-- Ends the last form of a block. -/
def conclude (form : Write Effect) : Write Unit := do
  match ← form with
  | .value => return ()
  | .slot ix =>
    instr (.getLocal ix)
    put
  | .stored ix =>
    instr (.getCell ix)
    put

/-- Drops `n` values under the top, if there are any to drop. -/
def exit (n : Nat) (whole : Form) : Write Unit := do
  if n = 0 then return ()
  else
    instr (.scopeExit (← lift (Emit.countOperand n whole .tooManyLocals)))
    take n

/-- Writes a block. -/
def block (T : Scopes) (whole : Form) (scope : ScopeId) (extra : Nat) (body : Write Unit) :
    Write Unit := do
  update fun f => { f with draft := f.draft.enterBlock }
  let sc := T.scope scope
  if sc.kind = .block then update fun f => { f with draft := f.draft.addBlockCells sc.cells }
  body
  let n := (← frame).draft.blockLocals + extra
  update fun f => { f with draft := f.draft.exitBlock }
  exit n whole

/-! ## Functions and calls -/

/-- Moves captured parameters from their slots, which start at `slot`, to their cells. -/
def moveCaptured (sc : Scope) (slot : Nat) : List String → Write Unit
  | [] => return ()
  | name :: names => do
    if sc.declares name && sc.cells.contains name then
      let ix ← lift (Emit.placeOperand slot)
      let cell ← lift (Emit.cellIndex name)
      instr (.getLocal ix)
      instr (.setCell cell)
      instr .pop
      moveCaptured sc (slot + 1) names
    else moveCaptured sc (slot + 1) names

/-- Pushes the cells of variables. -/
def loadCells : List String → Write Unit
  | [] => return ()
  | name :: names => do
    instr (.loadCell (← lift (Emit.cellIndex name)))
    put
    loadCells names

/-- Writes the body of a function. -/
def functionBody (T : Scopes) (whole : Form) (params : List String) (body : Form)
    (inside plain : Write Unit) : Write Unit := do
  match body with
  | .block b _ => block T body b (params.length + 1) inside
  | _ => do
    plain
    instr (.scopeExit (← lift (Emit.countOperand (params.length + 1) whole .tooManyParameters)))

/-- Ends the innermost function and allocates its code object. -/
def finishFunction : Write (Handle × Code) := do
  let c := (← popFrame).finish
  note (s!"compiled `{c.name}/{c.arity}`: {c.bytes.size} bytes, " ++
    s!"{c.cellNames.size} cells ({c.free.size} free)")
  return (← alloc (.code c), c)

/-- Writes a function and allocates its code object. -/
def functionCode (T : Scopes) (name : String) (scope : ScopeId) (params : List String)
    (body : Write Unit) : Write (Handle × Code) := do
  let sc := T.scope scope
  pushFrame ⟨Emit.draftOf name params sc, []⟩
  moveCaptured sc 0 (name :: params)
  body
  instr .ret
  finishFunction

/-- Writes a function and pushes it. -/
def function (T : Scopes) (whole : Form) (name : String) (scope : ScopeId)
    (params : List String) (body : Write Unit) : Write Unit := do
  let (handle, c) ← functionCode T name scope params body
  if c.free.isEmpty then
    constant (.object (← alloc (.function ⟨handle, #[]⟩)))
  else
    loadCells c.free.toList
    constant (.object handle)
    instr (.makeFunction (← lift (Emit.countOperand c.free.size whole .tooManyCaptured)))
    take c.free.size

/-- Writes a call with `argc` arguments. -/
def call (whole : Form) (argc : Nat) (callee args : Write Unit) : Write Unit := do
  callee
  args
  instr (.call (← lift (Emit.countOperand argc whole .tooManyArguments)))
  take argc

/-- Writes a form of which only the value is wanted. -/
def only (form : Write Effect) : Write Unit := do
  let _ ← form
  return ()

/-- A form that leaves its value. -/
def valued (code : Write Unit) : Write Effect := do
  code
  return .value

end Write

/-! ## Forms -/

namespace Form

mutual

/-- Writes a form in the scope `s`; `direct` tells whether it stands directly in a block. -/
def write (T : Scopes) (s : ScopeId) (direct : Bool) : Form → Write Effect
  | .number x => Write.valued (Write.constant (.number x))
  | .string text => do
    let h ← Write.alloc (.string text)
    Write.valued (Write.constant (.object h))
  | .boolean b => Write.valued (Write.constant (.boolean b))
  | .reference name binding => Write.valued (Write.read T s name binding)
  | whole@(.block b body) => Write.valued (Write.block T whole b 0 (writeBody T b body))
  | whole@(.declare name init) => do
    Write.only (write T s false init)
    Write.declare T s whole name direct
  | .assign name binding value => do
    Write.only (write T s false value)
    Write.valued (Write.store T s name binding)
  | .ifThen test thn =>
    Write.valued (Write.branch (Write.only (write T s false test))
      (Write.only (write T s false thn)) (Write.constant (.boolean false)))
  | .ifElse test thn els =>
    Write.valued (Write.branch (Write.only (write T s false test))
      (Write.only (write T s false thn)) (Write.only (write T s false els)))
  | .whileLoop test body =>
    Write.valued (Write.loop (Write.only (write T s false test))
      (Write.only (write T s false body)) none)
  | .forLoop init test modifier body =>
    Write.valued (Write.forLoop (write T s true init)
      (Write.loop (Write.only (write T s false test)) (Write.only (write T s false body))
        (some (Write.only (write T s false modifier)))))
  | whole@(.define name f params body) => do
    Write.function T whole name f params (Write.functionBody T whole params body
      (writeInside T body) (Write.only (write T f false body)))
    Write.declare T s whole name direct
  | whole@(.lambda label f params body) =>
    Write.valued (Write.function T whole label f params (Write.functionBody T whole params body
      (writeInside T body) (Write.only (write T f false body))))
  | .operation op x y =>
    Write.valued (Write.operation op (Write.only (write T s false x))
      (Write.only (write T s false y)))
  | whole@(.call callee args) =>
    Write.valued (Write.call whole args.length (Write.only (write T s false callee))
      (writeAll T s args))
  | .malformed e why => throw (.error (.malformed e why))

/-- Writes what is between the brackets of a block, and nothing of other forms. -/
def writeInside (T : Scopes) : Form → Write Unit
  | .block b forms => writeBody T b forms
  | _ => return ()

/-- Writes the forms of a block. -/
def writeBody (T : Scopes) (s : ScopeId) : List Form → Write Unit
  | [] => Write.constant (.boolean false)
  | [form] => Write.conclude (write T s true form)
  | form :: next :: rest => do
    Write.separate (write T s true form)
    writeBody T s (next :: rest)

/-- Writes some forms, each of which leaves its value. -/
def writeAll (T : Scopes) (s : ScopeId) : List Form → Write Unit
  | [] => return ()
  | form :: rest => do
    Write.only (write T s false form)
    writeAll T s rest

end

end Form

/-! ## Programs -/

/-- Ends the main function and allocates its code object. -/
def Write.finishMain : Write Handle := do
  let c := (← popFrame).finish
  note s!"compiled `main`: {c.bytes.size} bytes, {c.constants.size} constants"
  alloc (.code c)

/-- Writes the main function of a program. -/
def Write.main (T : Scopes) (program : Form) : Write Handle := do
  pushFrame ⟨.start "main" 0 1 #[] #[], []⟩
  only (program.write T Scopes.root false)
  instr .halt
  finishMain

/-- Compiles a program with the generator that writes bytes. -/
def Expr.write (e : Expr) (heap : Heap) (globals : Globals) : Except Write.Breach Compilation :=
  let (resolved, T) := e.resolveProgram
  let main := Write.main T (Form.ofResolved "lambda" resolved)
  match main ⟨heap, globals, #[s!"analyzed {T.size} scopes"], []⟩ with
  | .ok h w => .ok ⟨.ok h, w.heap, w.globals, w.notes⟩
  | .error (.error err) w => .ok ⟨.error err, w.heap, w.globals, w.notes⟩
  | .error (.breach b) _ => .error b

end ByteLisp
