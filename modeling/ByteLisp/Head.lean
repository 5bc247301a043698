/-
  ByteLisp: heads of forms.

  A list that starts with one of the reserved symbols is a special form or the
  use of an operator; any other list is a call.

  * `Operator` is a binary operator, `Head` a reserved symbol;
  * `Head.ofSymbol?` recognises the reserved symbols and only these
    (`Head.ofSymbol?_symbol`, `Head.symbol_of_ofSymbol?`).
-/
import ByteLisp.Comparison
import ByteLisp.Expr

namespace ByteLisp

/-- A binary operator. -/
inductive Operator where
  | add
  | sub
  | mul
  | div
  | compare (c : Comparison)
deriving Repr, DecidableEq

/-- The symbol of an operator. -/
def Operator.symbol : Operator → String
  | add => "+"
  | sub => "-"
  | mul => "*"
  | div => "/"
  | compare c => c.symbol

/-- A reserved symbol at the head of a list. -/
inductive Head where
  /-- `begin`: a block -/
  | block
  /-- `var`: a declaration -/
  | declare
  /-- `set`: an assignment -/
  | assign
  /-- `if`: a choice -/
  | branch
  /-- `while`: a loop -/
  | whileLoop
  /-- `for`: a loop with a start and a modifier -/
  | forLoop
  /-- `def`: a named function -/
  | define
  /-- `lambda`: a function -/
  | lambda
  /-- The use of an operator. -/
  | operator (op : Operator)
deriving Repr, DecidableEq

namespace Head

/-- The reserved symbol. -/
def symbol : Head → String
  | block => "begin"
  | declare => "var"
  | assign => "set"
  | branch => "if"
  | whileLoop => "while"
  | forLoop => "for"
  | define => "def"
  | lambda => "lambda"
  | operator op => op.symbol

/-- The heads. -/
def all : List Head :=
  [block, declare, assign, branch, whileLoop, forLoop, define, lambda, operator .add,
    operator .sub, operator .mul, operator .div] ++
    Comparison.all.map fun c => operator (.compare c)

/-- The head that a symbol stands for, if it is reserved. -/
def ofSymbol? (name : String) : Option Head := all.find? (·.symbol = name)

/-- The head of a list that starts with a reserved symbol. -/
def ofItems? : List Expr → Option Head
  | .symbol name :: _ => ofSymbol? name
  | _ => none

theorem ofSymbol?_symbol (h : Head) : ofSymbol? h.symbol = some h := by
  cases h with
  | operator op =>
    cases op with
    | compare c => cases c <;> decide
    | _ => decide
  | _ => decide

theorem symbol_of_ofSymbol? {name : String} {h : Head} (hn : ofSymbol? name = some h) :
    h.symbol = name := by
  simpa using List.find?_some hn

end Head

end ByteLisp
