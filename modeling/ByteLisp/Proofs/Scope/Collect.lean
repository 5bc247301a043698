/-
  ByteLisp: what the forms of a program mention and declare.

  * `Form.collect` goes through the forms of a program in the order of the code, with
    the scope that each stands in;
  * `Form.references` are the references and the targets of assignments,
    `Form.named` the functions with a name of their own, `Form.declares` the
    declared names, `Form.numbers` the numbers; `Form.declaration?` is a declaration
    with its scope.
-/
import ByteLisp.Form

namespace ByteLisp

namespace Form

section

variable {α : Type} (find : ScopeId → Form → List α)

mutual

/-- What is found at the forms within a form, which stands in the scope `s`, and at itself. -/
def collect (s : ScopeId) : Form → List α
  | .block b fs => collectAll b fs ++ find s (.block b fs)
  | .declare name init => collect s init ++ find s (.declare name init)
  | .assign name binding value => collect s value ++ find s (.assign name binding value)
  | .ifThen test thn => collect s test ++ collect s thn ++ find s (.ifThen test thn)
  | .ifElse test thn els =>
    collect s test ++ collect s thn ++ collect s els ++ find s (.ifElse test thn els)
  | .whileLoop test body => collect s test ++ collect s body ++ find s (.whileLoop test body)
  | .forLoop init test modifier body =>
    collect s init ++ (collect s test ++ (collect s body ++ collect s modifier)) ++
      find s (.forLoop init test modifier body)
  | .define name f params body => collect f body ++ find s (.define name f params body)
  | .lambda label f params body => collect f body ++ find s (.lambda label f params body)
  | .operation op x y => collect s x ++ collect s y ++ find s (.operation op x y)
  | .call callee args => collect s callee ++ collectAll s args ++ find s (.call callee args)
  | f => find s f

/-- What is found at some forms and within them. -/
def collectAll (s : ScopeId) : List Form → List α
  | [] => []
  | f :: fs => collect s f ++ collectAll s fs

end

end

/-- A reference or the target of an assignment, which is written to, with its scope. -/
structure Reference where
  scope : ScopeId
  name : String
  write : Bool
  binding : Binding
deriving Repr, DecidableEq

/-- The reference that a form is or makes itself. -/
def reference? (s : ScopeId) : Form → List Reference
  | .reference name binding => [⟨s, name, false, binding⟩]
  | .assign name binding _ => [⟨s, name, true, binding⟩]
  | _ => []

/-- The references and the targets of assignments in a program, in the order of the code. -/
def references (program : Form) : List Reference := program.collect reference? Scopes.root

/-- The function that a form defines by its name. -/
def named? (_ : ScopeId) : Form → List (ScopeId × String)
  | .define name f _ _ => [(f, name)]
  | _ => []

/-- The functions of a program that have a name of their own. -/
def named (program : Form) : List (ScopeId × String) := program.collect named? Scopes.root

/-- The variable that a form declares in the scope in which it stands. -/
def declaration? (s : ScopeId) : Form → List (ScopeId × String)
  | .declare name _ | .define name _ _ _ => [(s, name)]
  | _ => []

/-- The names that a form declares itself; a function declares its own name inside and outside. -/
def declares? (_ : ScopeId) : Form → List String
  | .declare name _ => [name]
  | .define name _ params _ => name :: params
  | .lambda _ _ params _ => params
  | _ => []

/-- The names that a program declares. -/
def declares (program : Form) : List String := program.collect declares? Scopes.root

/-- The number that a form is. -/
def number? (_ : ScopeId) : Form → List Float
  | .number x => [x]
  | _ => []

/-- The numbers in a program. -/
def numbers (program : Form) : List Float := program.collect number? Scopes.root

end Form

end ByteLisp
