/-
  ByteLisp: forms.

  A form is a resolved expression with its special forms recognised.

  * `Form` has one constructor for each kind of form; a list that is headed by a
    reserved symbol and has the wrong shape is `Form.malformed`, with the reason;
  * `Form.ofResolved` recognises the forms; a `lambda` is labelled `lambda`, or
    by the variable that it initialises;
  * `Form.toExpr` writes a form as an expression again
    (`toExpr_ofResolved`: this is the inverse).
-/
import ByteLisp.Scope.Resolve

namespace ByteLisp

/-- Why a list headed by a reserved symbol is no form. -/
inductive Malformation where
  | emptyApplication
  | declareShape
  | declareName
  | assignShape
  | assignTarget
  | branchShape
  | whileShape
  | forShape
  | defineShape
  | defineName
  | functionShape
  | parameterList
  | parameterName
  | operandCount
  /-- A variable on the stack is declared within an expression. -/
  | nestedDeclaration
  | tooManyLocals
  | tooManyParameters
  | tooManyCaptured
  | tooManyArguments
  /-- The walk gave a block no scope. -/
  | blockWithoutScope
  /-- The walk gave a function no scope. -/
  | functionWithoutScope
deriving Repr, DecidableEq

/-- The text of a reason. -/
def Malformation.reason : Malformation → String
  | emptyApplication => "empty application"
  | declareShape => "expected `(var name value)`"
  | declareName => "variable name must be a symbol"
  | assignShape => "expected `(set name value)`"
  | assignTarget => "assignment target must be a symbol"
  | branchShape => "expected `(if test consequent [alternate])`"
  | whileShape => "expected `(while test body)`"
  | forShape => "expected `(for init test modifier body)`"
  | defineShape => "expected `(def name (params..) body)`"
  | defineName => "function name must be a symbol"
  | functionShape => "expected parameters and a body"
  | parameterList => "parameters must be a list"
  | parameterName => "parameter must be a symbol"
  | operandCount => "binary operator takes two operands"
  | nestedDeclaration => "local declaration must appear directly in a block"
  | tooManyLocals => "too many locals in a block"
  | tooManyParameters => "too many parameters"
  | tooManyCaptured => "too many captured variables"
  | tooManyArguments => "too many arguments"
  | blockWithoutScope => "block without scope"
  | functionWithoutScope => "function without scope"

/-- A form. -/
inductive Form where
  | number (x : Float)
  | string (text : String)
  | boolean (b : Bool)
  | reference (name : String) (binding : Binding)
  | block (scope : ScopeId) (body : List Form)
  | declare (name : String) (init : Form)
  | assign (name : String) (binding : Binding) (value : Form)
  /-- A choice without an alternate. -/
  | ifThen (test consequent : Form)
  | ifElse (test consequent alternate : Form)
  | whileLoop (test body : Form)
  | forLoop (init test modifier body : Form)
  | define (name : String) (scope : ScopeId) (params : List String) (body : Form)
  /-- A function without a name of its own. -/
  | lambda (label : String) (scope : ScopeId) (params : List String) (body : Form)
  | operation (op : Operator) (x y : Form)
  | call (callee : Form) (args : List Form)
  | malformed (e : Expr) (why : Malformation)
deriving Inhabited

namespace Form

/-- The list headed by a reserved symbol. -/
def headed (h : Head) (items : List Expr) : Expr := .list (.symbol h.symbol :: items)

mutual

/-- The expression that a form stands for. -/
def toExpr : Form → Expr
  | .number x => .number x
  | .string text => .string text
  | .boolean b => .symbol (if b then "true" else "false")
  | .reference n _ => .symbol n
  | .block _ body => headed .block (toExprs body)
  | .declare n init => headed .declare [.symbol n, toExpr init]
  | .assign n _ value => headed .assign [.symbol n, toExpr value]
  | .ifThen test thn => headed .branch [toExpr test, toExpr thn]
  | .ifElse test thn els => headed .branch [toExpr test, toExpr thn, toExpr els]
  | .whileLoop test body => headed .whileLoop [toExpr test, toExpr body]
  | .forLoop init test modifier body =>
    headed .forLoop [toExpr init, toExpr test, toExpr modifier, toExpr body]
  | .define n _ params body =>
    headed .define [.symbol n, .list (params.map .symbol), toExpr body]
  | .lambda _ _ params body => headed .lambda [.list (params.map .symbol), toExpr body]
  | .operation op x y => headed (.operator op) [toExpr x, toExpr y]
  | .call callee args => .list (toExpr callee :: toExprs args)
  | .malformed e _ => e

/-- The expressions that some forms stand for. -/
def toExprs : List Form → List Expr
  | [] => []
  | f :: fs => toExpr f :: toExprs fs

end

/-- The symbol, if a resolved expression is one, with its binding. -/
def symbol? : Resolved → Option (String × Binding)
  | .symbol name binding => some (name, binding)
  | _ => none

/-- The entries, if a resolved expression is a list. -/
def list? : Resolved → Option (List Resolved)
  | .list _ items => some items
  | _ => none

/-- The names of parameters, if all are symbols. -/
def params? (ps : List Resolved) : Option (List String) :=
  ps.mapM fun p => (symbol? p).map (·.1)

/-- The head of a list, if it starts with a reserved symbol. -/
def head? : List Resolved → Option Head
  | .symbol name _ :: _ => Head.ofSymbol? name
  | _ => none

/-- A function with given parameters, where the list, the scope and the names are
    checked in this order. -/
def function (wrong : Malformation → Form) (scope : Option ScopeId) (ps : Resolved)
    (make : ScopeId → List String → Form) : Form :=
  match list? ps, scope with
  | none, _ => wrong .parameterList
  | some _, none => wrong .functionWithoutScope
  | some ps, some s =>
    match params? ps with
    | none => wrong .parameterName
    | some names => make s names

mutual

/-- The form that a resolved expression stands for; a `lambda` gets the label. -/
def ofResolved (label : String) : Resolved → Form
  | .number x => .number x
  | .string text => .string text
  | .symbol name binding =>
    if name = "true" then .boolean true
    else if name = "false" then .boolean false
    else .reference name binding
  | .list scope items => ofList label scope (head? items) items

/-- The form that a list with the given head stands for. -/
def ofList (label : String) (scope : Option ScopeId) (head : Option Head)
    (items : List Resolved) : Form :=
  let wrong := malformed (.list (Resolved.eraseEntries items))
  match head, items with
  | _, [] => wrong .emptyApplication
  | none, callee :: args => .call (ofResolved "lambda" callee) (ofEntries args)
  | some .block, _ :: entries =>
    match scope with
    | some s => .block s (ofEntries entries)
    | none => wrong .blockWithoutScope
  | some .declare, [_, target, init] =>
    match symbol? target with
    | some (name, _) => .declare name (ofResolved name init)
    | none => wrong .declareName
  | some .declare, _ => wrong .declareShape
  | some .assign, [_, target, value] =>
    match symbol? target with
    | some (name, binding) => .assign name binding (ofResolved "lambda" value)
    | none => wrong .assignTarget
  | some .assign, _ => wrong .assignShape
  | some .branch, [_, test, thn] => .ifThen (ofResolved "lambda" test) (ofResolved "lambda" thn)
  | some .branch, [_, test, thn, els] =>
    .ifElse (ofResolved "lambda" test) (ofResolved "lambda" thn) (ofResolved "lambda" els)
  | some .branch, _ => wrong .branchShape
  | some .whileLoop, [_, test, body] =>
    .whileLoop (ofResolved "lambda" test) (ofResolved "lambda" body)
  | some .whileLoop, _ => wrong .whileShape
  | some .forLoop, [_, init, test, modifier, body] =>
    .forLoop (ofResolved "lambda" init) (ofResolved "lambda" test)
      (ofResolved "lambda" modifier) (ofResolved "lambda" body)
  | some .forLoop, _ => wrong .forShape
  | some .define, [_, target, ps, body] =>
    match symbol? target with
    | some (name, _) =>
      function wrong scope ps fun s names => .define name s names (ofResolved "lambda" body)
    | none => wrong .defineName
  | some .define, _ => wrong .defineShape
  | some .lambda, [_, ps, body] =>
    function wrong scope ps fun s names => .lambda label s names (ofResolved "lambda" body)
  | some .lambda, _ => wrong .functionShape
  | some (.operator op), [_, x, y] =>
    .operation op (ofResolved "lambda" x) (ofResolved "lambda" y)
  | some (.operator _), _ => wrong .operandCount

/-- The forms that the entries of a list stand for. -/
def ofEntries : List Resolved → List Form
  | [] => []
  | r :: rs => ofResolved "lambda" r :: ofEntries rs

end

theorem params?_eq_some {ps : List Resolved} {names : List String} (h : params? ps = some names) :
    Resolved.eraseEntries ps = names.map Expr.symbol := by
  induction ps generalizing names with
  | nil => simp [params?] at h; subst h; rfl
  | cons p ps ih =>
    simp only [params?, List.mapM_cons, Option.bind_eq_bind, Option.bind_eq_some_iff,
      Option.map_eq_some_iff, Option.pure_def, Option.some.injEq] at h
    obtain ⟨name, ⟨x, hx, rfl⟩, rest, hr, rfl⟩ := h
    cases p with
    | symbol n b => cases hx; simp [Resolved.eraseEntries, Resolved.erase, ih hr]
    | _ => cases hx

theorem erase_of_symbol? {r : Resolved} {name : String} {binding : Binding}
    (h : symbol? r = some (name, binding)) : r.erase = .symbol name := by
  cases r with
  | symbol n b => cases h; rfl
  | _ => cases h

theorem erase_of_head? {callee : Resolved} {args : List Resolved} {h : Head}
    (hc : head? (callee :: args) = some h) : callee.erase = .symbol h.symbol := by
  cases callee with
  | symbol n b => rw [Head.symbol_of_ofSymbol? hc]; rfl
  | _ => cases hc

theorem toExpr_function {e : Expr} {scope : Option ScopeId} {ps : Resolved}
    {make : ScopeId → List String → Form}
    (h : ∀ s names, ps.erase = .list (names.map .symbol) → (make s names).toExpr = e) :
    (function (malformed e) scope ps make).toExpr = e := by
  unfold function
  split
  · rfl
  · rfl
  · next hl =>
    split
    · rfl
    · next hp =>
      refine h _ _ ?_
      cases ps with
      | list _ items => cases hl; simp [Resolved.erase, params?_eq_some hp]
      | _ => cases hl

mutual

theorem toExpr_ofResolved (label : String) (r : Resolved) :
    (ofResolved label r).toExpr = r.erase := by
  cases r with
  | number x => rfl
  | string text => rfl
  | symbol name binding =>
    rw [ofResolved]
    split
    · next h => subst h; rfl
    · split
      · next h => subst h; rfl
      · rfl
  | list scope items => rw [ofResolved, toExpr_ofList label scope items, Resolved.erase]

theorem toExpr_ofList (label : String) (scope : Option ScopeId) (items : List Resolved) :
    (ofList label scope (head? items) items).toExpr = .list (Resolved.eraseEntries items) := by
  unfold ofList
  split
  · rfl
  · next callee args hc =>
    simp [toExpr, Resolved.eraseEntries, toExpr_ofResolved "lambda" callee, toExprs_ofEntries args]
  · next b entries hh =>
    have hb := erase_of_head? hh
    split
    · simp [toExpr, headed, Resolved.eraseEntries, hb, toExprs_ofEntries entries]
    · rfl
  · next b target init hh =>
    have hb := erase_of_head? hh
    split
    · next name _ hs =>
      simp [toExpr, headed, Resolved.eraseEntries, hb, erase_of_symbol? hs,
        toExpr_ofResolved name init]
    · rfl
  · rfl
  · next b target value hh =>
    have hb := erase_of_head? hh
    split
    · next name _ hs =>
      simp [toExpr, headed, Resolved.eraseEntries, hb, erase_of_symbol? hs,
        toExpr_ofResolved "lambda" value]
    · rfl
  · rfl
  · next b test thn hh =>
    have hb := erase_of_head? hh
    simp [toExpr, headed, Resolved.eraseEntries, hb, toExpr_ofResolved "lambda" test,
      toExpr_ofResolved "lambda" thn]
  · next b test thn els hh =>
    have hb := erase_of_head? hh
    simp [toExpr, headed, Resolved.eraseEntries, hb, toExpr_ofResolved "lambda" test,
      toExpr_ofResolved "lambda" thn, toExpr_ofResolved "lambda" els]
  · rfl
  · next b test body hh =>
    have hb := erase_of_head? hh
    simp [toExpr, headed, Resolved.eraseEntries, hb, toExpr_ofResolved "lambda" test,
      toExpr_ofResolved "lambda" body]
  · rfl
  · next b init test modifier body hh =>
    have hb := erase_of_head? hh
    simp [toExpr, headed, Resolved.eraseEntries, hb, toExpr_ofResolved "lambda" init,
      toExpr_ofResolved "lambda" test, toExpr_ofResolved "lambda" modifier,
      toExpr_ofResolved "lambda" body]
  · rfl
  · next b target ps body hh =>
    have hb := erase_of_head? hh
    split
    · next name _ hs =>
      exact toExpr_function fun s names hp => by
        simp [toExpr, headed, Resolved.eraseEntries, hb, erase_of_symbol? hs, hp,
          toExpr_ofResolved "lambda" body]
    · rfl
  · rfl
  · next b ps body hh =>
    have hb := erase_of_head? hh
    exact toExpr_function fun s names hp => by
      simp [toExpr, headed, Resolved.eraseEntries, hb, hp, toExpr_ofResolved "lambda" body]
  · rfl
  · next op b x y hh =>
    have hb := erase_of_head? hh
    simp [toExpr, headed, Resolved.eraseEntries, hb, toExpr_ofResolved "lambda" x,
      toExpr_ofResolved "lambda" y]
  · rfl

theorem toExprs_ofEntries (rs : List Resolved) :
    toExprs (ofEntries rs) = Resolved.eraseEntries rs := by
  cases rs with
  | nil => rfl
  | cons r rs =>
    simp [ofEntries, toExprs, Resolved.eraseEntries, toExpr_ofResolved "lambda" r,
      toExprs_ofEntries rs]

end

end Form

end ByteLisp
