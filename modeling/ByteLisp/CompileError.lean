/-
  ByteLisp: why a program cannot be compiled.

  * `CompileError` is the reason, `CompileError.message` its text.
-/
import ByteLisp.Form

namespace ByteLisp

/-- Why a program cannot be compiled. Operands of instructions are one byte, and
    addresses two, so most limits are limits of these. -/
inductive CompileError where
  /-- A name is neither declared at the top of the program nor a global variable. -/
  | reference (name : String)
  | tooManyConstants (function : String)
  | tooManyLocals (function : String)
  | tooManyGlobals
  | jumpTooFar (function : String)
  | malformed (form : Expr) (why : Malformation)
  /-- A captured variable has no cell in the function that refers to it. -/
  | unresolvedCell (name : String)

/-- The message of a failed compilation. -/
def CompileError.message : CompileError → String
  | reference name => s!"reference error: `{name}` is not defined"
  | tooManyConstants function => s!"too many constants in `{function}`"
  | tooManyLocals function => s!"too many local variables in `{function}`"
  | tooManyGlobals => "too many global variables"
  | jumpTooFar function => s!"jump target too far in `{function}`"
  | malformed form why => s!"malformed `{form.pretty}`: {why.reason}"
  | unresolvedCell name => s!"captured variable `{name}` is not in scope"

end ByteLisp
