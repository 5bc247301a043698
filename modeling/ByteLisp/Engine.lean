/-
  ByteLisp: the engine.

  An engine keeps the heap and the global variables over the programs that it
  compiles and runs.

  * `Engine` is its state, `Session` an action on it; a failure keeps what has
    changed so far;
  * `Engine.compile` reads and compiles a program; if that fails, the global
    variables are as before;
  * `Engine.execute` runs a main code object and `Engine.eval` reads, compiles and
    runs a program, both within a budget of steps; the result is none if the
    budget is used up;
  * `Engine.log` tells what happened, as far as `Engine.verbosity` asks for it.
-/
import ByteLisp.Emit
import ByteLisp.Expr.Parser
import ByteLisp.Listing
import ByteLisp.Machine.Run
import ByteLisp.Native
import ByteLisp.Report

namespace ByteLisp

/-- What can go wrong with a program. -/
inductive ProgramError where
  | parse (e : ParseError)
  | compile (e : CompileError)
  | fault (f : Fault)
  | decode (e : Code.DecodeError)

namespace ProgramError

/-- The message of an error. -/
def message : ProgramError → String
  | parse e => e.message
  | compile e => e.message
  | fault f => f.message
  | decode e => e.message

/-- The code of an error in reports. -/
def code : ProgramError → String
  | parse (.lex _) => "lex"
  | parse _ => "parse"
  | compile (.reference _) => "reference"
  | compile _ => "compile"
  | fault (.reference _) => "reference"
  | fault (.type _ _ _) => "type"
  | fault _ => "runtime"
  | decode _ => "disasm"

/-- The place of an error, which is known of syntax errors only. -/
def span : ProgramError → Option Span
  | parse e => some e.span
  | _ => none

/-- The report of an error in a source text. -/
def report (file : String) (src : List Char) (e : ProgramError) : Report where
  header := ⟨.error, e.code, e.message⟩
  window := e.span.map (Window.ofSpan .error file src)

end ProgramError

/-- How much is logged. -/
inductive Verbosity where
  | quiet
  /-- Stages of the compilation, and listings. -/
  | debug
  /-- Also every instruction of a run. -/
  | trace
deriving Repr, DecidableEq

/-- An entry of the log. -/
inductive LogEntry where
  | debug (text : String)
  | trace (text : String)
deriving Repr, DecidableEq

/-- The state of an engine. -/
structure Engine where
  heap : Heap
  globals : Globals
  limits : Limits
  verbosity : Verbosity
  /-- The entries of the log in order. -/
  log : Array LogEntry

/-- An action of an engine. -/
abbrev Session := EStateM ProgramError Engine

namespace Engine

/-- An engine with the built-in functions. -/
def start (limits : Limits) (verbosity : Verbosity) : Engine :=
  let (globals, heap) := Globals.empty.installBuiltins .empty
  ⟨heap, globals, limits, verbosity, #[]⟩

/-! ## The log -/

/-- Logs a message of a stage. -/
def debug (text : String) : Session Unit := modify fun e =>
  if e.verbosity = .quiet then e else { e with log := e.log.push (.debug text) }

/-- Logs messages of a stage. -/
def debugAll : List String → Session Unit
  | [] => pure ()
  | text :: texts => do debug text; debugAll texts

/-- Logs instructions of a run. -/
def traceAll (texts : List String) : Session Unit := modify fun e =>
  { e with log := e.log ++ (texts.map .trace).toArray }

/-! ## Programs -/

/-- Adds a native function, unless the name is taken; gives the place of the global
    variable. -/
def addNative (n : Native) : Session Nat := modifyGet fun e =>
  let (ix, globals, heap) := e.globals.addNative e.heap n
  (ix, { e with globals, heap })

/-- Reads a program. -/
def parse (src : List Char) : Session Expr := do
  match Expr.parseProgram src with
  | .error err =>
    debug (err.detail src)
    throw (.parse err)
  | .ok program =>
    debug s!"parsed program into {program.size} expressions"
    debug s!"parsed {program.size} expressions"
    return program

/-- Compiles a program to a main code object. -/
def compileProgram (program : Expr) : Session Handle := do
  let e ← get
  let c := program.compile e.heap e.globals
  set { e with heap := c.heap }
  debugAll c.notes.toList
  match c.result with
  | .ok main =>
    modify fun e => { e with globals := c.globals }
    return main
  | .error err =>
    modify fun e => { e with globals := c.globals.truncate e.globals.size }
    throw (.compile err)

/-- Reads and compiles a program. -/
def compile (src : List Char) : Session Handle := do compileProgram (← parse src)

/-- The listing of a code object and those that can be reached from it. -/
def list (h : Handle) : Session String := fun e =>
  match Listing.all e.heap e.globals h with
  | .ok text => .ok text e
  | .error err => .error (.decode err) e

/-- A machine that works on the heap and the global variables of an engine. -/
def machine (e : Engine) : Machine := .start e.heap e.globals e.limits

/-- The run of a main code object on the heap and the global variables. -/
def runMain (budget : Nat) (main : Handle) : Session (Option Value) := fun e =>
  match e.machine.runMain budget main with
  | none => .ok none e
  | some (.ok v m) => .ok (some v) { e with heap := m.heap, globals := m.globals }
  | some (.error f m) => .error (.fault f) { e with heap := m.heap, globals := m.globals }

/-- Runs a main code object. -/
def execute (budget : Nat) (main : Handle) : Session (Option Value) := do
  if (← get).verbosity = .trace then traceAll ((← get).machine.traceMain budget main)
  runMain budget main

/-- Runs a main code object that was just compiled; its listing goes to the log. -/
def launch (budget : Nat) (main : Handle) : Session (Option Value) := do
  if (← get).verbosity ≠ .quiet then debug ("\n" ++ (← list main))
  execute budget main

/-- Compiles and runs a program. -/
def evalProgram (budget : Nat) (program : Expr) : Session (Option Value) := do
  launch budget (← compileProgram program)

/-- Reads, compiles and runs a program. -/
def eval (budget : Nat) (src : List Char) : Session (Option Value) := do
  evalProgram budget (← parse src)

end Engine

end ByteLisp
