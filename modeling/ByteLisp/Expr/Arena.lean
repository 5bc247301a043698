/-
  ByteLisp: the nodes of an expression as a table.

  * `Node` is a node whose entries are given by their numbers;
  * `Expr.nodes` lists the nodes of an expression in post-order, a list after
    its entries; the number of a node is its place in that order;
  * `Expr.length_nodesFrom`: the table has as many rows as the tree has nodes.
-/
import ByteLisp.Expr

namespace ByteLisp

/-- A row of a table of nodes. -/
inductive Node where
  | number (x : Float)
  | string (text : String)
  | symbol (name : String)
  | list (items : List Nat)

namespace Expr

mutual

/-- The nodes of an expression in post-order, numbered from `base`. -/
def nodesFrom (base : Nat) : Expr → List Node
  | number x => [.number x]
  | string text => [.string text]
  | symbol name => [.symbol name]
  | list items =>
    let rows := entryNodes base items
    rows.1 ++ [.list rows.2]

/-- The nodes of the entries of a list, and the numbers of the entries. -/
def entryNodes (base : Nat) : List Expr → List Node × List Nat
  | [] => ([], [])
  | e :: es =>
    let rows := nodesFrom base e
    let rest := entryNodes (base + rows.length) es
    (rows ++ rest.1, (base + rows.length - 1) :: rest.2)

end

/-- The nodes of an expression in post-order. -/
def nodes (e : Expr) : List Node := nodesFrom 0 e

mutual

theorem length_nodesFrom (base : Nat) (e : Expr) : (nodesFrom base e).length = e.size := by
  cases e with
  | list items => simp [nodesFrom, size, length_entryNodes base items]
  | _ => simp [nodesFrom, size]

theorem length_entryNodes (base : Nat) (es : List Expr) :
    (entryNodes base es).1.length = sizeEntries es := by
  cases es with
  | nil => simp [entryNodes, sizeEntries]
  | cons e es =>
    simp [entryNodes, sizeEntries, length_nodesFrom base e, length_entryNodes _ es]

end

end Expr

end ByteLisp
