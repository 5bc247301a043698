/-
  ByteLisp: from forms to code.

  Code is generated in the order of the text: the instructions of a form are
  those of its parts and a few between them. Code objects, functions and strings
  are allocated on the heap on the way, and global variables are added to the
  table.

  * `Emit` is an action of code generation; it works on an `Emission`, the heap,
    the globals, the notes for the log, and the draft of the current function;
  * the first sections hold the code of one kind of form each, given the code of
    its parts; `Form.emit` puts them together;
  * an address is fixed when the code up to it is generated; for a jump forward
    `Emit.reserve` leaves room;
  * `Expr.compile` compiles a program.
-/
import ByteLisp.CompileError
import ByteLisp.Emit.Draft
import ByteLisp.Globals
import ByteLisp.Scope.Survey

namespace ByteLisp

/-- What code generation works on. -/
structure Emission where
  heap : Heap
  globals : Globals
  /-- Notes for the log, in order. -/
  notes : Array String
  draft : Draft

/-- An action of code generation. -/
abbrev Emit := EStateM CompileError Emission

/-- What the code of a form leaves on the stack. -/
inductive Effect where
  /-- Its value. -/
  | value
  /-- Its value, which is a variable in that slot from now on. -/
  | slot (ix : UInt8)
  /-- Nothing; the value is in that cell. -/
  | stored (ix : UInt8)
deriving Repr, DecidableEq

/-- Whether two constants are the same: equal numbers, equal truth values, the same
    object, or two strings with the same text. -/
def Heap.sameConstant (h : Heap) : Value → Value → Bool
  | .number x, .number y => x == y
  | .boolean x, .boolean y => x == y
  | .object i, .object j =>
    decide (i = j) ||
      match h.string? i, h.string? j with
      | some s, some t => decide (s = t)
      | _, _ => false
  | _, _ => false

namespace Emit

/-! ## The draft and its limits -/

/-- The draft of the current function. -/
def draft : Emit Draft := do return (← get).draft

/-- Changes the draft. -/
def update (f : Draft → Draft) : Emit Unit := modify fun e => { e with draft := f e.draft }

/-- A note for the log. -/
def note (text : String) : Emit Unit := modify fun e => { e with notes := e.notes.push text }

/-- One instruction. -/
def instr (i : Instr) : Emit (List Instr) := do
  update (·.advance i.size)
  return [i]

/-- Room for a jump whose address is not known yet. -/
def reserve : Emit Unit := update (·.advance 3)

/-- The current address. -/
def address : Emit UInt16 := do
  let d ← draft
  if d.offset < 65536 then return d.offset.toUInt16 else throw (.jumpTooFar d.name)

/-- An address passed earlier. -/
def addressOf (offset : Nat) : Emit UInt16 := do
  if offset < 65536 then return offset.toUInt16 else throw (.jumpTooFar (← draft).name)

/-- A place on the stack or among the cells as an operand. -/
def placeOperand (n : Nat) : Emit UInt8 := do
  if n < 256 then return n.toUInt8 else throw (.tooManyLocals (← draft).name)

/-- A count as an operand. -/
def countOperand (n : Nat) (whole : Form) (why : Malformation) : Emit UInt8 :=
  if n < 256 then return n.toUInt8 else throw (.malformed whole.toExpr why)

/-! ## Constants -/

/-- The place of a constant, which is added unless there is one that is the same. -/
def constantIndex (v : Value) : Emit UInt8 := do
  let e ← get
  let d := e.draft
  match d.constants.findIdx? (e.heap.sameConstant · v) with
  | some ix => check d.name ix
  | none => do
    set { e with draft := { d with constants := d.constants.push v } }
    check d.name d.constants.size
where
  /-- The place as an operand. -/
  check (name : String) (ix : Nat) : Emit UInt8 :=
    if ix < 256 then return ix.toUInt8 else throw (.tooManyConstants name)

/-- Pushes a constant. -/
def constant (v : Value) : Emit (List Instr) := do
  let ix ← constantIndex v
  update (·.grow 1)
  instr (.const ix)

/-- Allocates an object. -/
def alloc (o : Object) : Emit Handle :=
  modifyGet fun e => (e.heap.size, { e with heap := e.heap.alloc o })

/-! ## Variables -/

/-- The place of a global variable. A name declared at the top of the program is
    defined when it is first used, so that functions can refer to variables that
    are declared later. -/
def globalIndex (T : Scopes) (name : String) : Emit UInt8 := do
  let e ← get
  match e.globals.indexOf? name with
  | some ix => check ix
  | none =>
    if T.isGlobal name then
      let defined := e.globals.define name
      set { e with globals := defined.2 }
      check defined.1
    else throw (.reference name)
where
  /-- The place as an operand. -/
  check (ix : Nat) : Emit UInt8 := if ix < 256 then return ix.toUInt8 else throw .tooManyGlobals

/-- The slot of a variable. -/
def slotIndex (name : String) : Emit UInt8 := do
  match (← draft).slot? name with
  | some ix => placeOperand ix
  | none => throw (.reference name)

/-- The cell of a variable. -/
def cellIndex (name : String) : Emit UInt8 := do
  match (← draft).cell? name with
  | some ix => placeOperand ix
  | none => throw (.unresolvedCell name)

/-- Pushes the value of a variable. -/
def read (T : Scopes) (s : ScopeId) (name : String) (binding : Binding) : Emit (List Instr) := do
  let i ← match T.storageOf s name binding with
    | .global => Instr.getGlobal <$> globalIndex T name
    | .slot => Instr.getLocal <$> slotIndex name
    | .cell => Instr.getCell <$> cellIndex name
  update (·.grow 1)
  instr i

/-- Stores the value on top in a variable and leaves it there. -/
def write (T : Scopes) (s : ScopeId) (name : String) (binding : Binding) : Emit (List Instr) := do
  let i ← match T.storageOf s name binding with
    | .global => Instr.setGlobal <$> globalIndex T name
    | .slot => Instr.setLocal <$> slotIndex name
    | .cell => Instr.setCell <$> cellIndex name
  instr i

/-- Makes the value on top a new variable of the scope `s`. A variable on the
    stack can only be declared directly in a block (`direct`), where the stack
    holds nothing but variables. -/
def declare (T : Scopes) (s : ScopeId) (whole : Form) (name : String) (direct : Bool) :
    Emit (Effect × List Instr) := do
  match T.storageOf s name .unbound with
  | .global =>
    let e ← get
    let defined := e.globals.define name
    set { e with globals := defined.2 }
    let ix ← globalIndex.check defined.1
    return (.value, ← instr (.setGlobal ix))
  | .cell =>
    let ix ← cellIndex name
    let store ← instr (.setCell ix)
    let pop ← instr .pop
    update (·.shrink 1)
    if direct then return (.stored ix, store ++ pop)
    else
      update (·.grow 1)
      return (.value, store ++ pop ++ (← instr (.getCell ix)))
  | .slot =>
    if direct then
      let slot := (← draft).depth - 1
      update (·.addLocal name slot)
      let ix ← placeOperand slot
      return (.slot ix, ← instr (.setLocal ix))
    else throw (.malformed whole.toExpr .nestedDeclaration)

/-! ## Operators, choices and loops -/

/-- The instruction of an operator. -/
def operator : Operator → Instr
  | .add => .add
  | .sub => .sub
  | .mul => .mul
  | .div => .div
  | .compare c => .cmp c.code

/-- The code of an operation. -/
def operation (op : Operator) (x y : Emit (List Instr)) : Emit (List Instr) := do
  let first ← x
  let second ← y
  update (·.shrink 1)
  return first ++ second ++ (← instr (operator op))

/-- The code of a choice. -/
def branch (test thn els : Emit (List Instr)) : Emit (List Instr) := do
  let asked ← test
  reserve
  update (·.shrink 1)
  let depth := (← draft).depth
  let consequent ← thn
  reserve
  let otherwise ← address
  update fun d => { d with depth }
  let alternate ← els
  let done ← address
  return asked ++ .jumpIfFalse otherwise :: consequent ++ .jump done :: alternate

/-- Drops the value on top. -/
def discard : Emit (List Instr) := do
  update (·.shrink 1)
  instr .pop

/-- The code of the modifier of a loop, if there is one. -/
def modify? : Option (Emit (List Instr)) → Emit (List Instr)
  | some modifier => do
    let code ← modifier
    return code ++ (← discard)
  | none => return []

/-- The code of a loop: the modifier comes after the body, if there is one; the
    value is `false`. -/
def loop (test body : Emit (List Instr)) (modifier : Option (Emit (List Instr))) :
    Emit (List Instr) := do
  let start := (← draft).offset
  let asked ← test
  reserve
  update (·.shrink 1)
  let body ← body
  let dropped ← discard
  let modified ← modify? modifier
  let back ← instr (.jump (← addressOf start))
  let done ← address
  let result ← constant (.boolean false)
  return asked ++ .jumpIfFalse done :: body ++ dropped ++ modified ++ back ++ result

/-- The code of a loop with a start: a variable that the start declares on the
    stack lives until the end of the loop. -/
def forLoop (init : Emit (Effect × List Instr)) (looped : Emit (List Instr)) :
    Emit (List Instr) := do
  let (effect, first) ← init
  match effect with
  | .value =>
    let dropped ← discard
    return first ++ dropped ++ (← looped)
  | .stored _ => return first ++ (← looped)
  | .slot _ =>
    let code ← looped
    let exit ← instr (.scopeExit 1)
    update fun d => (d.shrink 1).dropLatest
    return first ++ code ++ exit

/-! ## Blocks -/

/-- Ends a form in the middle of a block: its value is dropped, unless it is a
    variable. -/
def separate (form : Emit (Effect × List Instr)) : Emit (List Instr) := do
  let (effect, code) ← form
  match effect with
  | .value => return code ++ (← discard)
  | _ => return code

/-- Ends the last form of a block: its value is left on top. -/
def conclude (form : Emit (Effect × List Instr)) : Emit (List Instr) := do
  let (effect, code) ← form
  match effect with
  | .value => return code
  | .slot ix =>
    update (·.grow 1)
    return code ++ (← instr (.getLocal ix))
  | .stored ix =>
    update (·.grow 1)
    return code ++ (← instr (.getCell ix))

/-- Drops `n` values under the top, if there are any to drop. -/
def exit (n : Nat) (whole : Form) : Emit (List Instr) := do
  if n = 0 then return []
  else
    let arg ← countOperand n whole .tooManyLocals
    update (·.shrink n)
    instr (.scopeExit arg)

/-- The code of a block: its variables are dropped at the end, and `extra` values
    below them. -/
def block (T : Scopes) (whole : Form) (scope : ScopeId) (extra : Nat)
    (body : Emit (List Instr)) : Emit (List Instr) := do
  update (·.enterBlock)
  let sc := T.scope scope
  if sc.kind = .block then update (·.addBlockCells sc.cells)
  let code ← body
  let n := (← draft).blockLocals + extra
  update (·.exitBlock)
  return code ++ (← exit n whole)

/-! ## Functions and calls -/

/-- The draft of a function: slot 0 holds the function itself, the next ones its
    arguments. -/
def draftOf (name : String) (params : List String) (sc : Scope) : Draft :=
  (Draft.start name params.length (params.length + 1) sc.free.toArray sc.cells.toArray).addLocals 0
    (name :: params)

/-- Moves captured parameters from their slots, which start at `slot`, to their
    cells. -/
def moveCaptured (sc : Scope) (slot : Nat) : List String → Emit (List Instr)
  | [] => return []
  | name :: names => do
    if sc.declares name && sc.cells.contains name then
      let ix ← placeOperand slot
      let cell ← cellIndex name
      let get ← instr (.getLocal ix)
      let set ← instr (.setCell cell)
      let pop ← instr .pop
      return get ++ set ++ pop ++ (← moveCaptured sc (slot + 1) names)
    else moveCaptured sc (slot + 1) names

/-- Pushes the cells of variables. -/
def loadCells : List String → Emit (List Instr)
  | [] => return []
  | name :: names => do
    let ix ← cellIndex name
    update (·.grow 1)
    let load ← instr (.loadCell ix)
    return load ++ (← loadCells names)

/-- The code of a function body, given its code as a block and as a plain form. At
    the end the function and its arguments are dropped; a block drops them together
    with its own variables. -/
def functionBody (T : Scopes) (whole : Form) (params : List String) (body : Form)
    (inside plain : Emit (List Instr)) : Emit (List Instr) := do
  match body with
  | .block b _ => block T body b (params.length + 1) inside
  | _ => do
    let code ← plain
    let n ← countOperand (params.length + 1) whole .tooManyParameters
    return code ++ (← instr (.scopeExit n))

/-- Generates a code object for a function and allocates it. -/
def functionCode (T : Scopes) (name : String) (scope : ScopeId) (params : List String)
    (body : Emit (List Instr)) : Emit (Handle × Code) := do
  let sc := T.scope scope
  let outer ← draft
  update fun _ => draftOf name params sc
  let moved ← moveCaptured sc 0 (name :: params)
  let code ← body
  let ret ← instr .ret
  let c := (← draft).finish (moved ++ code ++ ret)
  update fun _ => outer
  note (s!"compiled `{c.name}/{c.arity}`: {c.bytes.size} bytes, " ++
    s!"{c.cellNames.size} cells ({c.free.size} free)")
  return (← alloc (.code c), c)

/-- The code that pushes a function. A function that captures nothing is a constant;
    any other one is made from its code and its cells each time. -/
def function (T : Scopes) (whole : Form) (name : String) (scope : ScopeId)
    (params : List String) (body : Emit (List Instr)) : Emit (List Instr) := do
  let (handle, c) ← functionCode T name scope params body
  if c.free.isEmpty then
    constant (.object (← alloc (.function ⟨handle, #[]⟩)))
  else
    let cells ← loadCells c.free.toList
    let code ← constant (.object handle)
    let n ← countOperand c.free.size whole .tooManyCaptured
    update (·.shrink c.free.size)
    return cells ++ code ++ (← instr (.makeFunction n))

/-- The code of a call with `argc` arguments. -/
def call (whole : Form) (argc : Nat) (callee args : Emit (List Instr)) : Emit (List Instr) := do
  let function ← callee
  let arguments ← args
  let n ← countOperand argc whole .tooManyArguments
  update (·.shrink argc)
  return function ++ arguments ++ (← instr (.call n))

/-- The instructions of a form of which only the value is wanted. -/
def only (form : Emit (Effect × List Instr)) : Emit (List Instr) := do return (← form).2

/-- A form that leaves its value. -/
def valued (code : Emit (List Instr)) : Emit (Effect × List Instr) := do
  return (.value, ← code)

end Emit

/-! ## Forms -/

namespace Form

mutual

/-- The code of a form in the scope `s`; `direct` tells whether it stands directly
    in a block, where it may declare a variable on the stack. -/
def emit (T : Scopes) (s : ScopeId) (direct : Bool) : Form → Emit (Effect × List Instr)
  | .number x => Emit.valued (Emit.constant (.number x))
  | .string text => do
    let h ← Emit.alloc (.string text)
    Emit.valued (Emit.constant (.object h))
  | .boolean b => Emit.valued (Emit.constant (.boolean b))
  | .reference name binding => Emit.valued (Emit.read T s name binding)
  | whole@(.block b body) => Emit.valued (Emit.block T whole b 0 (emitBody T b body))
  | whole@(.declare name init) => do
    let code ← Emit.only (emit T s false init)
    let (effect, store) ← Emit.declare T s whole name direct
    return (effect, code ++ store)
  | .assign name binding value => do
    let code ← Emit.only (emit T s false value)
    return (.value, code ++ (← Emit.write T s name binding))
  | .ifThen test thn =>
    Emit.valued (Emit.branch (Emit.only (emit T s false test)) (Emit.only (emit T s false thn))
      (Emit.constant (.boolean false)))
  | .ifElse test thn els =>
    Emit.valued (Emit.branch (Emit.only (emit T s false test)) (Emit.only (emit T s false thn))
      (Emit.only (emit T s false els)))
  | .whileLoop test body =>
    Emit.valued (Emit.loop (Emit.only (emit T s false test)) (Emit.only (emit T s false body)) none)
  | .forLoop init test modifier body =>
    Emit.valued (Emit.forLoop (emit T s true init)
      (Emit.loop (Emit.only (emit T s false test)) (Emit.only (emit T s false body))
        (some (Emit.only (emit T s false modifier)))))
  | whole@(.define name f params body) => do
    let code ← Emit.function T whole name f params
      (Emit.functionBody T whole params body (emitInside T body) (Emit.only (emit T f false body)))
    let (effect, store) ← Emit.declare T s whole name direct
    return (effect, code ++ store)
  | whole@(.lambda label f params body) =>
    Emit.valued (Emit.function T whole label f params
      (Emit.functionBody T whole params body (emitInside T body) (Emit.only (emit T f false body))))
  | .operation op x y =>
    Emit.valued (Emit.operation op (Emit.only (emit T s false x)) (Emit.only (emit T s false y)))
  | whole@(.call callee args) =>
    Emit.valued (Emit.call whole args.length (Emit.only (emit T s false callee)) (emitAll T s args))
  | .malformed e why => throw (.malformed e why)

/-- The code of what is between the brackets of a block; none for other forms. -/
def emitInside (T : Scopes) : Form → Emit (List Instr)
  | .block b forms => emitBody T b forms
  | _ => return []

/-- The code of the forms of a block: all leave nothing but the last, which leaves
    its value; an empty block has the value `false`. -/
def emitBody (T : Scopes) (s : ScopeId) : List Form → Emit (List Instr)
  | [] => Emit.constant (.boolean false)
  | [form] => Emit.conclude (emit T s true form)
  | form :: next :: rest => do
    let code ← Emit.separate (emit T s true form)
    return code ++ (← emitBody T s (next :: rest))

/-- The code of some forms, each of which leaves its value. -/
def emitAll (T : Scopes) (s : ScopeId) : List Form → Emit (List Instr)
  | [] => return []
  | form :: rest => do
    let code ← Emit.only (emit T s false form)
    return code ++ (← emitAll T s rest)

end

end Form

/-- Generates the main code object of a program and allocates it. Slot 0 of its
    activation holds the main function. -/
def Emit.main (T : Scopes) (program : Form) : Emit Handle := do
  let code ← Emit.only (program.emit T Scopes.root false)
  let halt ← Emit.instr .halt
  let c := (← Emit.draft).finish (code ++ halt)
  Emit.note s!"compiled `main`: {c.bytes.size} bytes, {c.constants.size} constants"
  Emit.alloc (.code c)

/-- What a compilation gives: the main code object or an error, the heap and the
    globals as they then are, and notes for the log. -/
structure Compilation where
  result : Except CompileError Handle
  heap : Heap
  globals : Globals
  notes : Array String

/-- Compiles a program. -/
def Expr.compile (e : Expr) (heap : Heap) (globals : Globals) : Compilation :=
  let (resolved, T) := e.resolveProgram
  let main := Emit.main T (Form.ofResolved "lambda" resolved)
  let start : Emission :=
    ⟨heap, globals, #[s!"analyzed {T.size} scopes"], .start "main" 0 1 #[] #[]⟩
  match main.run start with
  | .ok h e => ⟨.ok h, e.heap, e.globals, e.notes⟩
  | .error err e => ⟨.error err, e.heap, e.globals, e.notes⟩

end ByteLisp
