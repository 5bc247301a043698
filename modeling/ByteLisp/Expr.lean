/-
  ByteLisp: expressions.

  A program is a tree of numbers, strings, symbols and lists.

  * `Expr` is the tree, `Expr.pretty` writes it with single spaces;
  * `Expr.headSymbol?` is the symbol that a list starts with, which decides what
    kind of form the list is.
-/
import ByteLisp.Decimal.Numeral

namespace ByteLisp

/-- An expression. -/
inductive Expr where
  | number (x : Float)
  /-- A string, without its quotes. -/
  | string (text : String)
  | symbol (name : String)
  | list (items : List Expr)
deriving Inhabited

namespace Expr

/-- The name of a symbol. -/
def symbol? : Expr → Option String
  | symbol name => some name
  | _ => none

/-- The entries of a list. -/
def list? : Expr → Option (List Expr)
  | list items => some items
  | _ => none

/-- The symbol at the head of a list. -/
def headSymbol? : Expr → Option String
  | list (symbol name :: _) => some name
  | _ => none

mutual

/-- The text of an expression: entries of a list are separated by single spaces,
    strings are quoted as they are. -/
def pretty : Expr → String
  | number x => Numeral.write x
  | string text => "\"" ++ text ++ "\""
  | symbol name => name
  | list items => "(" ++ prettyEntries items ++ ")"

/-- The texts of the entries of a list, separated by single spaces. -/
def prettyEntries : List Expr → String
  | [] => ""
  | [e] => pretty e
  | e :: es => pretty e ++ " " ++ prettyEntries es

end

mutual

/-- The number of nodes of an expression. -/
def size : Expr → Nat
  | list items => sizeEntries items + 1
  | _ => 1

/-- The number of nodes of the entries of a list. -/
def sizeEntries : List Expr → Nat
  | [] => 0
  | e :: es => size e + sizeEntries es

end

end Expr

end ByteLisp
