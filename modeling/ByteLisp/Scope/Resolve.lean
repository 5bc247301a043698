/-
  ByteLisp: which declaration a name refers to.

  One walk over the program opens the scopes, declares the names and binds each
  reference to the declaration that is visible at that point of the walk. So a
  reference before a `var` of the same block that shadows an outer variable
  still means the outer one.

  * `Resolved` is an expression with the scopes of its blocks and functions and
    the bindings of its symbols;
  * `Expr.resolve` is the walk, `Expr.resolveProgram` starts it: a program headed
    by `begin` has the global scope;
  * `Resolved.erase` forgets what the walk found (`erase_resolveProgram`: nothing
    else changes).
-/
import ByteLisp.Head
import ByteLisp.Scope

namespace ByteLisp

/-- What the walk found about a symbol. -/
inductive Binding where
  /-- The walk did not take the symbol for a reference. -/
  | unbound
  /-- A reference, with the scope that declares it, if there is one. -/
  | reference (owner : Option ScopeId)
deriving Repr, DecidableEq

/-- An expression whose names have been resolved. -/
inductive Resolved where
  | number (x : Float)
  | string (text : String)
  | symbol (name : String) (binding : Binding)
  /-- A list, with the scope that it opens. -/
  | list (scope : Option ScopeId) (items : List Resolved)
deriving Inhabited

namespace Resolved

mutual

/-- An expression that the walk does not enter. -/
def plain : Expr → Resolved
  | .number x => .number x
  | .string text => .string text
  | .symbol name => .symbol name .unbound
  | .list items => .list none (plainEntries items)

/-- The entries of a list that the walk does not enter. -/
def plainEntries : List Expr → List Resolved
  | [] => []
  | e :: es => plain e :: plainEntries es

end

mutual

/-- The expression without what the walk found. -/
def erase : Resolved → Expr
  | .number x => .number x
  | .string text => .string text
  | .symbol name _ => .symbol name
  | .list _ items => .list (eraseEntries items)

/-- The entries of a list without what the walk found. -/
def eraseEntries : List Resolved → List Expr
  | [] => []
  | r :: rs => erase r :: eraseEntries rs

end

end Resolved

/-- A step of the walk: it changes the scopes. -/
abbrev Walk := StateM Scopes

namespace Walk

@[simp] theorem pure_apply {α : Type} (a : α) (T : Scopes) : (pure a : Walk α) T = (a, T) := rfl

@[simp] theorem bind_apply {α β : Type} (x : Walk α) (f : α → Walk β) (T : Scopes) :
    (x >>= f) T = f (x T).1 (x T).2 := rfl

@[simp] theorem map_apply {α β : Type} (f : α → β) (x : Walk α) (T : Scopes) :
    (f <$> x) T = (f (x T).1, (x T).2) := rfl

/-- Opens a scope inside `s`. -/
def enter (kind : Scope.Kind) (s : ScopeId) : Walk ScopeId :=
  fun T => (T.size, T.push kind s)

/-- Declares a name in `s`. -/
def declare (s : ScopeId) (name : String) : Walk Unit :=
  fun T => ((), T.modify s (·.declare name))

/-- Binds a reference in `s` to the visible declaration. -/
def refer (s : ScopeId) (name : String) : Walk Binding := fun T =>
  match T.lookup s name with
  | some owner => (.reference (some owner), T.capture s owner name)
  | none => (.reference none, T)

/-- Declares names in `s`, in order. -/
def declareAll (s : ScopeId) : List String → Walk Unit
  | [] => pure ()
  | name :: names => do declare s name; declareAll s names

end Walk

/-- The truth values, which are never references. -/
def isTruth (name : String) : Bool := name = "true" || name = "false"

/-- The symbol at a place of a list, if there is one. -/
def Expr.symbolAt (items : List Expr) (i : Nat) : List String :=
  (items[i]?.bind Expr.symbol?).toList

/-- The symbols of the list at a place of a list. -/
def Expr.symbolsAt (items : List Expr) (i : Nat) : List String :=
  ((items[i]?.bind Expr.list?).getD []).filterMap Expr.symbol?

namespace Expr

mutual

/-- The walk over an expression in the scope `s`. -/
def resolve (s : ScopeId) : Expr → Walk Resolved
  | .number x => pure (.number x)
  | .string text => pure (.string text)
  | .symbol name => do
    if isTruth name then pure (.symbol name .unbound)
    else pure (.symbol name (← Walk.refer s name))
  | .list items =>
    match Head.ofItems? items with
    | some .block => do
      let b ← Walk.enter .block s
      pure (.list (some b) (← resolveEntries b 1 items))
    | some .declare => do
      Walk.declareAll s (symbolAt items 1)
      pure (.list none (← resolveEntries s 2 items))
    | some .define => do
      Walk.declareAll s (symbolAt items 1)
      let f ← Walk.enter .function s
      Walk.declareAll f (symbolAt items 1)
      Walk.declareAll f (symbolsAt items 2)
      pure (.list (some f) (← resolveEntries f 3 items))
    | some .lambda => do
      let f ← Walk.enter .function s
      Walk.declareAll f (symbolsAt items 1)
      pure (.list (some f) (← resolveEntries f 2 items))
    | some _ => do pure (.list none (← resolveEntries s 1 items))
    | none => do pure (.list none (← resolveEntries s 0 items))

/-- The walk over the entries of a list but for the first few. -/
def resolveEntries (s : ScopeId) : Nat → List Expr → Walk (List Resolved)
  | _, [] => pure []
  | 0, e :: es => do
    let r ← resolve s e
    pure (r :: (← resolveEntries s 0 es))
  | skip + 1, e :: es => do pure (Resolved.plain e :: (← resolveEntries s skip es))

end

/-- The walk over a program: a list headed by `begin` has the global scope. -/
def resolveRoot (e : Expr) : Walk Resolved :=
  match e with
  | .list items =>
    match Head.ofItems? items with
    | some .block => do pure (.list (some Scopes.root) (← resolveEntries Scopes.root 1 items))
    | _ => resolve Scopes.root e
  | _ => resolve Scopes.root e

/-- The resolved program and its scopes. -/
def resolveProgram (e : Expr) : Resolved × Scopes := (resolveRoot e).run Scopes.initial

end Expr

namespace Resolved

mutual

theorem erase_plain (e : Expr) : (plain e).erase = e := by
  cases e with
  | list items => simp [plain, erase, eraseEntries_plainEntries items]
  | _ => simp [plain, erase]

theorem eraseEntries_plainEntries (es : List Expr) : eraseEntries (plainEntries es) = es := by
  cases es with
  | nil => simp [plainEntries, eraseEntries]
  | cons e es =>
    simp [plainEntries, eraseEntries, erase_plain e, eraseEntries_plainEntries es]

end

mutual

theorem erase_resolve (s : ScopeId) (e : Expr) (T : Scopes) : (Expr.resolve s e T).1.erase = e := by
  cases e with
  | number x => rfl
  | string text => rfl
  | symbol name =>
    rw [Expr.resolve]
    split <;> simp [erase]
  | list items =>
    have entries := fun b skip => eraseEntries_resolveEntries b skip items
    rw [Expr.resolve]
    cases Head.ofItems? items with
    | none => simp [erase, entries]
    | some head => cases head <;> simp [erase, entries]

theorem eraseEntries_resolveEntries (s : ScopeId) (skip : Nat) (es : List Expr) (T : Scopes) :
    eraseEntries (Expr.resolveEntries s skip es T).1 = es := by
  cases es with
  | nil => cases skip <;> rfl
  | cons e es =>
    cases skip with
    | zero =>
      simp [Expr.resolveEntries, eraseEntries, erase_resolve s e,
        eraseEntries_resolveEntries s 0 es]
    | succ skip =>
      simp [Expr.resolveEntries, eraseEntries, erase_plain, eraseEntries_resolveEntries s skip es]

end

theorem erase_resolveProgram (e : Expr) : e.resolveProgram.1.erase = e := by
  unfold Expr.resolveProgram StateT.run
  cases e with
  | list items =>
    rw [Expr.resolveRoot]
    cases Head.ofItems? items with
    | none => exact erase_resolve ..
    | some head =>
      cases head with
      | block => simp [erase, eraseEntries_resolveEntries]
      | _ => exact erase_resolve ..
  | _ => exact erase_resolve ..

end Resolved

end ByteLisp
