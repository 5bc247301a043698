/-
  ByteLisp: what code belongs to a form.

  The relation `Coded` says which instructions at which place of a code object
  belong to a form, given the variables in view there. It has one rule for each
  kind of form and for each part of the code that is no form: the forms of a
  block, arguments, a loop, a function.

  * `Place` is where a variable is found; `Located` and `Declares` are the rules
    for variables, `Holds` the one for constants;
  * `Access` records that a variable is found: `Coded` lists the accesses of the
    code, those in functions inside it included.
-/
import ByteLisp.Proofs.Code.Layout
import ByteLisp.Proofs.Generation.Growth
import ByteLisp.Proofs.Generation.View

namespace ByteLisp

/-! ## Constants and variables -/

/-- The constant at a place is the given value, or the same as it. -/
def Holds (W : World) (c : Code) (ix : UInt8) (v : Value) : Prop :=
  ∃ u, c.constants[ix.toNat]? = some u ∧ (u = v ∨ W.heap.sameConstant u v = true)

/-- Where a variable is found. -/
inductive Place where
  | global (ix : UInt8)
  | slot (ix : UInt8)
  | cell (ix : UInt8)
deriving Repr, DecidableEq

namespace Place

/-- The instruction that pushes the value of a variable. -/
def get : Place → Instr
  | global ix => .getGlobal ix
  | slot ix => .getLocal ix
  | cell ix => .getCell ix

/-- The instruction that stores the value on top in a variable. -/
def set : Place → Instr
  | global ix => .setGlobal ix
  | slot ix => .setLocal ix
  | cell ix => .setCell ix

/-- The instruction that pushes what a function captures: a cell, not its value. -/
def load : Place → Instr
  | cell ix => .loadCell ix
  | place => place.get

end Place

/-- A variable is found by its name where the storage of its declaration says. -/
inductive Located (T : Scopes) (W : World) (s : ScopeId) (v : View) (name : String)
    (binding : Binding) : Place → Prop
  | global {ix : UInt8} : T.storageOf s name binding = .global →
      W.globals.name? ix.toNat = some name → Located T W s v name binding (.global ix)
  | slot {ix : UInt8} : T.storageOf s name binding = .slot → v.slot? name = some ix.toNat →
      Located T W s v name binding (.slot ix)
  | cell {ix : UInt8} : T.storageOf s name binding = .cell → v.cell? name = some ix.toNat →
      Located T W s v name binding (.cell ix)

/-- What a form leaves: its value, or a variable that it declares. -/
inductive Outcome where
  | value
  | slot (name : String) (ix : UInt8)
  | cell (name : String) (ix : UInt8)
deriving Repr, DecidableEq

namespace Outcome

/-- The outcome as code generation reports it. -/
def effect : Outcome → Effect
  | value => .value
  | slot _ ix => .slot ix
  | cell _ ix => .stored ix

/-- The number of variables that are declared on the stack. -/
def locals : Outcome → Nat
  | slot _ _ => 1
  | _ => 0

/-- What drops the value, unless it is a variable. -/
def drop : Outcome → List Instr
  | value => [.pop]
  | _ => []

/-- What leaves the value on top. -/
def leave : Outcome → List Instr
  | value => []
  | slot _ ix => [.getLocal ix]
  | cell _ ix => [.getCell ix]

end Outcome

namespace View

/-- The view after a form. -/
def after (v : View) : Outcome → View
  | .value => v.push 1
  | .slot name _ => v.bind name
  | .cell _ _ => v

/-- The view after a form whose value is dropped, unless it is a variable. -/
def kept (v : View) : Outcome → View
  | .slot name _ => v.bind name
  | _ => v

theorem binds_kept (v : View) (o : Outcome) : v.Binds o.locals (v.kept o) := by
  cases o with
  | slot name ix => exact .bind v name
  | _ => exact .refl v

end View

/-- What makes the value on top a variable that `s` declares. -/
inductive Declares (T : Scopes) (W : World) (s : ScopeId) (v : View) (name : String) :
    Bool → Outcome → List Instr → Prop
  | global {direct : Bool} {ix : UInt8} : T.storageOf s name .unbound = .global →
      W.globals.name? ix.toNat = some name →
      Declares T W s v name direct .value [.setGlobal ix]
  | cell {ix : UInt8} : T.storageOf s name .unbound = .cell → v.cell? name = some ix.toNat →
      Declares T W s v name true (.cell name ix) [.setCell ix, .pop]
  | inside {ix : UInt8} : T.storageOf s name .unbound = .cell → v.cell? name = some ix.toNat →
      Declares T W s v name false .value [.setCell ix, .pop, .getCell ix]
  | slot {ix : UInt8} : T.storageOf s name .unbound = .slot → ix.toNat = v.depth →
      Declares T W s v name true (.slot name ix) [.setLocal ix]

/-- What moves captured parameters from their slots to their cells. -/
inductive Moves (sc : Scope) (v : View) : Nat → List String → List Instr → Prop
  | nil {slot : Nat} : Moves sc v slot [] []
  | stay {slot : Nat} {name : String} {names : List String} {code : List Instr} :
      (sc.declares name && sc.cells.contains name) = false → Moves sc v (slot + 1) names code →
      Moves sc v slot (name :: names) code
  | move {slot : Nat} {name : String} {names : List String} {code : List Instr} {ix cell : UInt8} :
      (sc.declares name && sc.cells.contains name) = true → ix.toNat = slot →
      v.cell? name = some cell.toNat → Moves sc v (slot + 1) names code →
      Moves sc v slot (name :: names) (.getLocal ix :: .setCell cell :: .pop :: code)

/-- What drops `n` values under the top. -/
inductive Exits : Nat → List Instr → Prop
  | none : Exits 0 []
  | some {n : UInt8} : n ≠ 0 → Exits n.toNat [.scopeExit n]

/-- The names of the cells that a block adds. -/
def Scopes.blockCells (T : Scopes) (b : ScopeId) : List String :=
  if (T.scope b).kind = .block then (T.scope b).cells else []

/-- The view at the start of a block. Its cells are own cells of the code object, and other
    ones than those in view before. -/
inductive Enters (T : Scopes) (c : Code) (b : ScopeId) (v : View) : View → Prop
  | mk {k : Nat} : (∀ x ∈ v.cells, x.place < c.free.size + k) →
      (∀ (i : Nat) name, (T.blockCells b)[i]? = some name → c.own[k + i]? = some name) →
      Enters T c b v (v.enter (c.free.size + k) (T.blockCells b))

/-! ## Accesses -/

/-- Why a variable is looked up. -/
inductive Purpose where
  /-- A reference, or the target of an assignment, which writes. -/
  | refer (write : Bool) (binding : Binding)
  /-- The function with that scope captures the variable. -/
  | capture (f : ScopeId)
deriving Repr, DecidableEq

/-- The look-up of a variable in a scope of a code object, for the instruction at `pos`. -/
structure Access where
  code : Code
  scope : ScopeId
  view : View
  pos : Nat
  name : String
  purpose : Purpose
  place : Place

/-- The instruction of an access. -/
def Access.instr (a : Access) : Instr :=
  match a.purpose with
  | .refer false _ => a.place.get
  | .refer true _ => a.place.set
  | .capture _ => a.place.load

/-- What pushes the cells of variables, with its accesses. -/
inductive Loads (c : Code) (s : ScopeId) (v : View) (f : ScopeId) :
    Nat → List String → List Instr → List Access → Prop
  | nil {pos : Nat} : Loads c s v f pos [] [] []
  | cons {pos : Nat} {name : String} {names : List String} {ix : UInt8} {code : List Instr}
      {as : List Access} : v.cell? name = some ix.toNat → Loads c s v f (pos + 2) names code as →
      Loads c s v f pos (name :: names) (.loadCell ix :: code)
        (⟨c, s, v, pos, name, .capture f, .cell ix⟩ :: as)

/-! ## Forms -/

/-- A part of a program that code belongs to. -/
inductive Task where
  /-- A form and what it leaves; it stands directly in a block or not. -/
  | form (direct : Bool) (f : Form) (o : Outcome)
  /-- The forms of a block, which declare some variables on the stack. -/
  | body (fs : List Form) (locals : Nat)
  /-- Forms that leave their values. -/
  | args (fs : List Form)
  /-- Forms whose values are dropped. -/
  | drops (fs : List Form)
  /-- A loop with its test; the values of the other forms are dropped. -/
  | loop (test : Form) (fs : List Form)
  /-- Pushes a function. -/
  | closure (name : String) (f : ScopeId) (params : List String) (body : Form)
  /-- The body of a function, after which the function and its arguments are dropped. -/
  | finish (params : Nat) (body : Form)
  /-- A whole function. -/
  | code (name : String) (params : List String) (body : Form)

/-- The code at a place belongs to a part of a program. -/
inductive Coded (T : Scopes) (W : World) :
    Code → ScopeId → Task → View → Nat → List Instr → List Access → Prop
  | number {c s direct x v pos ix} : Holds W c ix (.number x) →
      Coded T W c s (.form direct (.number x) .value) v pos [.const ix] []
  | string {c s direct text h v pos ix} : W.heap.string? h = some text →
      Holds W c ix (.object h) →
      Coded T W c s (.form direct (.string text) .value) v pos [.const ix] []
  | boolean {c s direct b v pos ix} : Holds W c ix (.boolean b) →
      Coded T W c s (.form direct (.boolean b) .value) v pos [.const ix] []
  | reference {c s direct name binding v pos place} : Located T W s v name binding place →
      Coded T W c s (.form direct (.reference name binding) .value) v pos [place.get]
        [⟨c, s, v, pos, name, .refer false binding, place⟩]
  | block {c s direct b body v u pos k code exit as} : Enters T c b v u →
      Coded T W c b (.body body k) u pos code as → Exits k exit →
      Coded T W c s (.form direct (.block b body) .value) v pos (code ++ exit) as
  | declare {c s direct name init o v pos code store as} :
      Coded T W c s (.form false init .value) v pos code as →
      Declares T W s v name direct o store →
      Coded T W c s (.form direct (.declare name init) o) v pos (code ++ store) as
  | assign {c s direct name binding value v pos code place as} :
      Coded T W c s (.form false value .value) v pos code as →
      Located T W s (v.push 1) name binding place →
      Coded T W c s (.form direct (.assign name binding value) .value) v pos (code ++ [place.set])
        (as ++ [⟨c, s, v.push 1, pos + Instr.total code, name, .refer true binding, place⟩])
  | ifThen {c s direct test thn v pos code as} :
      Coded T W c s (.form direct (.ifElse test thn (.boolean false)) .value) v pos code as →
      Coded T W c s (.form direct (.ifThen test thn) .value) v pos code as
  | ifElse {c s direct test thn els v pos asked consequent alternate as bs cs}
      {otherwise done : UInt16} :
      Coded T W c s (.form false test .value) v pos asked as →
      Coded T W c s (.form false thn .value) v (pos + Instr.total asked + 3) consequent bs →
      otherwise.toNat = pos + Instr.total asked + 3 + Instr.total consequent + 3 →
      Coded T W c s (.form false els .value) v otherwise.toNat alternate cs →
      done.toNat = otherwise.toNat + Instr.total alternate →
      Coded T W c s (.form direct (.ifElse test thn els) .value) v pos
        (asked ++ .jumpIfFalse otherwise :: consequent ++ .jump done :: alternate) (as ++ bs ++ cs)
  | whileLoop {c s direct test body v pos code as} :
      Coded T W c s (.loop test [body]) v pos code as →
      Coded T W c s (.form direct (.whileLoop test body) .value) v pos code as
  | forLoop {c s direct init test modifier body o v pos first code as bs} :
      Coded T W c s (.form true init o) v pos first as →
      Coded T W c s (.loop test [body, modifier]) (v.kept o)
        (pos + Instr.total (first ++ o.drop)) code bs →
      Coded T W c s (.form direct (.forLoop init test modifier body) .value) v pos
        (first ++ o.drop ++ code ++ if o.locals = 0 then [] else [.scopeExit 1]) (as ++ bs)
  | define {c s direct name f params body o v pos code store as} :
      Coded T W c s (.closure name f params body) v pos code as →
      Declares T W s v name direct o store →
      Coded T W c s (.form direct (.define name f params body) o) v pos (code ++ store) as
  | lambda {c s direct label f params body v pos code as} :
      Coded T W c s (.closure label f params body) v pos code as →
      Coded T W c s (.form direct (.lambda label f params body) .value) v pos code as
  | operation {c s direct op x y v pos first second as bs} :
      Coded T W c s (.form false x .value) v pos first as →
      Coded T W c s (.form false y .value) (v.push 1) (pos + Instr.total first) second bs →
      Coded T W c s (.form direct (.operation op x y) .value) v pos
        (first ++ second ++ [Emit.operator op]) (as ++ bs)
  | call {c s direct callee args v pos function arguments as bs} {n : UInt8} :
      Coded T W c s (.form false callee .value) v pos function as →
      Coded T W c s (.args args) (v.push 1) (pos + Instr.total function) arguments bs →
      n.toNat = args.length →
      Coded T W c s (.form direct (.call callee args) .value) v pos
        (function ++ arguments ++ [.call n]) (as ++ bs)
  | empty {c s v pos code as} :
      Coded T W c s (.form false (.boolean false) .value) v pos code as →
      Coded T W c s (.body [] 0) v pos code as
  | last {c s f o v pos code as} : Coded T W c s (.form true f o) v pos code as →
      Coded T W c s (.body [f] o.locals) v pos (code ++ o.leave) as
  | next {c s f g fs o k v pos code rest as bs} : Coded T W c s (.form true f o) v pos code as →
      Coded T W c s (.body (g :: fs) k) (v.kept o) (pos + Instr.total (code ++ o.drop)) rest bs →
      Coded T W c s (.body (f :: g :: fs) (o.locals + k)) v pos (code ++ o.drop ++ rest) (as ++ bs)
  | noArgs {c s v pos} : Coded T W c s (.args []) v pos [] []
  | args {c s f fs v pos code rest as bs} : Coded T W c s (.form false f .value) v pos code as →
      Coded T W c s (.args fs) (v.push 1) (pos + Instr.total code) rest bs →
      Coded T W c s (.args (f :: fs)) v pos (code ++ rest) (as ++ bs)
  | noDrops {c s v pos} : Coded T W c s (.drops []) v pos [] []
  | drops {c s f fs v pos code rest as bs} : Coded T W c s (.form false f .value) v pos code as →
      Coded T W c s (.drops fs) v (pos + Instr.total code + 1) rest bs →
      Coded T W c s (.drops (f :: fs)) v pos (code ++ .pop :: rest) (as ++ bs)
  | loop {c s test fs v pos asked dropped result as bs cs} {start done : UInt16} :
      Coded T W c s (.form false test .value) v pos asked as →
      Coded T W c s (.drops fs) v (pos + Instr.total asked + 3) dropped bs →
      start.toNat = pos →
      done.toNat = pos + Instr.total asked + 3 + Instr.total dropped + 3 →
      Coded T W c s (.form false (.boolean false) .value) v done.toNat result cs →
      Coded T W c s (.loop test fs) v pos
        (asked ++ .jumpIfFalse done :: dropped ++ .jump start :: result) (as ++ bs ++ cs)
  | constant {c s name f params body v pos c' code' h g ix as} : c'.free.size = 0 →
      Coded T W c' f (.code name params body) (Emit.draftOf name params (T.scope f)).view 0
        code' as →
      W.heap.code? h = some c' → W.heap.get? g = some (.function ⟨h, #[]⟩) →
      Holds W c ix (.object g) →
      Coded T W c s (.closure name f params body) v pos [.const ix] as
  | made {c s name f params body v pos c' code' h ix cells as bs} {n : UInt8} :
      Coded T W c' f (.code name params body) (Emit.draftOf name params (T.scope f)).view 0
        code' as →
      W.heap.code? h = some c' → Loads c s v f pos c'.free.toList cells bs →
      Holds W c ix (.object h) → n.toNat = c'.free.size → n ≠ 0 →
      Coded T W c s (.closure name f params body) v pos (cells ++ [.const ix, .makeFunction n])
        (as ++ bs)
  | finishBlock {c s n b body v u pos k code exit as} : Enters T c b v u →
      Coded T W c b (.body body k) u pos code as → Exits (k + (n + 1)) exit →
      Coded T W c s (.finish n (.block b body)) v pos (code ++ exit) as
  | finish {c s n f v pos code as} {m : UInt8} : Coded T W c s (.form false f .value) v pos code as →
      m.toNat = n + 1 →
      Coded T W c s (.finish n f) v pos (code ++ [.scopeExit m]) as
  | code {c f name params body v moved code as} : c.name = name → c.arity = params.length →
      c.free = (T.scope f).free.toArray →
      (∀ (i : Nat) x, (T.scope f).cells[i]? = some x → c.own[i]? = some x) →
      v = (Emit.draftOf name params (T.scope f)).view →
      Moves (T.scope f) v 0 (name :: params) moved →
      Coded T W c f (.finish params.length body) v (Instr.total moved) code as →
      c.bytes = Instr.bytes (moved ++ code ++ [.ret]) →
      Coded T W c f (.code name params body) v 0 (moved ++ code ++ [.ret]) as

/-- A function of the program with its code object. -/
def Compiled (T : Scopes) (W : World) (c : Code) : Prop :=
  ∃ f name params body v code as, Coded T W c f (.code name params body) v 0 code as

end ByteLisp
