/-
  ByteLisp: scopes.

  Every block, every function and the program as a whole has a scope. A variable
  declared in the global scope is an entry of the global table; any other one is
  a slot of the stack, unless a function inside its scope captures it: then it
  is a cell.

  * `Scope` holds the declared names, the names captured from outside (`free`)
    and the own names that are captured by functions inside (`cells`);
  * `Scopes` is the table of scopes, `Scopes.chain` a scope and those around it;
  * `Scopes.lookup` finds the innermost scope that declares a name,
    `Scopes.storage` tells where a variable lives;
  * `Scopes.capture` records what a reference captures on its way to the
    declaration.
-/
namespace ByteLisp

/-- The number of a scope, in the order in which scopes are opened. -/
abbrev ScopeId := Nat

/-- What a scope belongs to. -/
inductive Scope.Kind where
  | global
  | function
  | block
deriving Repr, DecidableEq

/-- The name of a kind of scope. -/
def Scope.Kind.name : Scope.Kind → String
  | global => "Global"
  | function => "Function"
  | block => "Block"

/-- A scope. -/
structure Scope where
  kind : Scope.Kind
  /-- The scopes around it, innermost first. -/
  outer : List ScopeId
  /-- The names declared in it. -/
  declared : List String
  /-- The names captured from scopes around it, in the order of discovery. -/
  free : List String
  /-- Its own names captured by functions inside it, in the order of discovery. -/
  cells : List String
deriving Repr, DecidableEq

namespace Scope

/-- A scope without names. -/
def empty (kind : Kind) (outer : List ScopeId) : Scope := ⟨kind, outer, [], [], []⟩

instance : Inhabited Scope := ⟨empty .global []⟩

/-- Whether a scope declares a name. -/
def declares (sc : Scope) (name : String) : Bool := sc.declared.contains name

/-- The scope with one more declared name. -/
def declare (sc : Scope) (name : String) : Scope :=
  { sc with declared := name :: sc.declared }

/-- A list of names with one more at its end, unless it has it. -/
def addName (names : List String) (name : String) : List String :=
  if names.contains name then names else names ++ [name]

/-- The scope with one more name captured from outside. -/
def addFree (sc : Scope) (name : String) : Scope := { sc with free := addName sc.free name }

/-- The scope with one more own name captured by a function inside. -/
def addCell (sc : Scope) (name : String) : Scope := { sc with cells := addName sc.cells name }

end Scope

/-- Where a variable lives. -/
inductive Storage where
  | global
  /-- A slot of the stack. -/
  | slot
  /-- A cell shared by the functions that capture it. -/
  | cell
deriving Repr, DecidableEq

/-- The name of a kind of storage. -/
def Storage.name : Storage → String
  | global => "Global"
  | slot => "Local"
  | cell => "Cell"

/-- The scopes of a program. The global scope is the first. -/
structure Scopes where
  table : Array Scope
deriving Repr, DecidableEq

namespace Scopes

/-- The number of the global scope. -/
def root : ScopeId := 0

/-- The global scope alone. -/
def initial : Scopes := ⟨#[.empty .global []]⟩

/-- The number of scopes. -/
def size (T : Scopes) : Nat := T.table.size

/-- The scope with a number. -/
def scope (T : Scopes) (s : ScopeId) : Scope := T.table[s]?.getD default

/-- A scope and the scopes around it, innermost first. -/
def chain (T : Scopes) (s : ScopeId) : List ScopeId := s :: (T.scope s).outer

/-- Adds a scope inside `s`. -/
def push (T : Scopes) (kind : Scope.Kind) (s : ScopeId) : Scopes :=
  ⟨T.table.push (.empty kind (T.chain s))⟩

/-- Changes one scope. -/
def modify (T : Scopes) (s : ScopeId) (f : Scope → Scope) : Scopes :=
  ⟨T.table.modify s f⟩

/-- The innermost scope around `s`, itself included, that declares a name. -/
def lookup (T : Scopes) (s : ScopeId) (name : String) : Option ScopeId :=
  (T.chain s).find? fun t => (T.scope t).declares name

/-- Where a variable lives that is declared in `owner`; a name that no scope
    declares is global. -/
def storage (T : Scopes) (owner : Option ScopeId) (name : String) : Storage :=
  match owner with
  | none => .global
  | some o =>
    let sc := T.scope o
    match sc.kind with
    | .global => .global
    | _ => if sc.cells.contains name then .cell else .slot

/-- The scopes from `s` out to but without `owner`. -/
def pathTo (T : Scopes) (s owner : ScopeId) : List ScopeId :=
  (T.chain s).takeWhile (· ≠ owner)

/-- Whether a name that is referred to in `s` and declared in `owner` is captured:
    it is not global, and a function lies between. -/
def captures (T : Scopes) (s owner : ScopeId) : Bool :=
  decide ((T.scope owner).kind ≠ .global) &&
    (T.pathTo s owner).any fun t => decide ((T.scope t).kind = .function)

/-- Records a reference in `s` to a name declared in `owner`: if it is captured,
    it becomes a cell of its scope, and free in all scopes on the way. -/
def capture (T : Scopes) (s owner : ScopeId) (name : String) : Scopes :=
  if T.captures s owner then
    (T.pathTo s owner).foldl (fun T t => T.modify t (·.addFree name))
      (T.modify owner (·.addCell name))
  else T

/-- Whether a name is declared in the global scope. -/
def isGlobal (T : Scopes) (name : String) : Bool := (T.scope root).declares name

end Scopes

end ByteLisp
