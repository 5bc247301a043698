/-
  ByteLisp: what the walk found, by node.

  Nodes are numbered in post-order, as in the table of nodes.

  * `Resolved.openings` pairs each scope with the node that opens it;
  * `Resolved.mentions` lists the symbols from left to right, each with the
    innermost scope opened around it;
  * `Mention.storage` tells where the variable lives that a symbol names: by the
    binding of the walk, or else by name.
-/
import ByteLisp.Scope.Resolve

namespace ByteLisp

/-- Where the variable lives that a symbol in the scope `s` names. -/
def Scopes.storageOf (T : Scopes) (s : ScopeId) (name : String) : Binding → Storage
  | .reference owner => T.storage owner name
  | .unbound => T.storage (T.lookup s name) name

/-- A symbol of a program. -/
structure Mention where
  node : Nat
  name : String
  binding : Binding
  /-- The innermost scope opened around the symbol. -/
  scope : ScopeId
deriving Repr, DecidableEq

/-- Where the variable lives that a symbol names. -/
def Mention.storage (T : Scopes) (m : Mention) : Storage := T.storageOf m.scope m.name m.binding

namespace Resolved

mutual

/-- The scopes opened by an expression whose nodes are numbered from `base`, each
    with the node that opens it; and the number of nodes. -/
def openingsFrom (base : Nat) : Resolved → List (ScopeId × Nat) × Nat
  | .list scope items =>
    let inner := entryOpenings base items
    let node := base + inner.2
    (inner.1 ++ scope.toList.map (·, node), inner.2 + 1)
  | _ => ([], 1)

/-- The scopes opened by the entries of a list. -/
def entryOpenings (base : Nat) : List Resolved → List (ScopeId × Nat) × Nat
  | [] => ([], 0)
  | r :: rs =>
    let first := openingsFrom base r
    let rest := entryOpenings (base + first.2) rs
    (first.1 ++ rest.1, first.2 + rest.2)

end

mutual

/-- The symbols of an expression in the scope `s` whose nodes are numbered from
    `base`; and the number of nodes. -/
def mentionsFrom (s : ScopeId) (base : Nat) : Resolved → List Mention × Nat
  | .symbol name binding => ([⟨base, name, binding, s⟩], 1)
  | .list scope items =>
    let inner := entryMentions (scope.getD s) base items
    (inner.1, inner.2 + 1)
  | _ => ([], 1)

/-- The symbols of the entries of a list. -/
def entryMentions (s : ScopeId) (base : Nat) : List Resolved → List Mention × Nat
  | [] => ([], 0)
  | r :: rs =>
    let first := mentionsFrom s base r
    let rest := entryMentions s (base + first.2) rs
    (first.1 ++ rest.1, first.2 + rest.2)

end

/-- The scopes that a program opens, each with the node that opens it. -/
def openings (r : Resolved) : List (ScopeId × Nat) := (openingsFrom 0 r).1

/-- The symbols of a program from left to right. -/
def mentions (r : Resolved) : List Mention := (mentionsFrom Scopes.root 0 r).1

end Resolved

end ByteLisp
