/-
  ByteLisp: what programs mean.

  The meaning of a program is what a walk over its forms gives: each declaration
  has a location of its own in each activation of the function that it stands in,
  and a symbol denotes the location of the declaration to which it is bound, in the
  activation in which the current function was made.

  * `Meaning.Val` are the values, `Meaning.Memory` holds the values of locations and
    of global variables;
  * `Meaning.eval` evaluates a form, given what calls do; `Meaning.call` calls a
    function, with at most some number of calls within one another, and as many
    rounds of each loop;
  * `Expr.meaning` is the result of a program; a greater number of calls and rounds
    does not change it once there is one (`Expr.meaning_mono`), so a program has at
    most one (`Expr.Means.unique`).
-/
import ByteLisp.Form
import ByteLisp.Native

namespace ByteLisp

/-- The scope of the function around a scope; that of the program is the global one. -/
def Scopes.home (T : Scopes) (s : ScopeId) : ScopeId :=
  ((T.chain s).find? fun t => decide ((T.scope t).kind = .function)).getD root

/-- The declaration to which a symbol is bound. -/
def Binding.owner : Binding → Option ScopeId
  | unbound => none
  | reference owner => owner

namespace Meaning

/-! ## Values and locations -/

/-- A built-in function. -/
inductive Builtin where
  | unary (name : String) (f : Float → Float)
  | binary (name : String) (f : Float → Float → Float)

/-- The declaration of a name in an activation. -/
structure Location where
  activation : Nat
  scope : ScopeId
  name : String
deriving Repr, DecidableEq

/-- The activation of each function around a point of the program. -/
abbrev Env := ScopeId → Nat

/-- A function of a program. -/
structure Function where
  name : String
  /-- Whether the function is a variable of its own activations, by its name. -/
  own : Bool
  scope : ScopeId
  params : List String
  body : Form

/-- A value. -/
inductive Val where
  | number (x : Float)
  | boolean (b : Bool)
  | string (text : String)
  | builtin (f : Builtin)
  /-- A function with the activations in which it was made. -/
  | closure (f : Function) (env : Env)

/-- The kind of a value. -/
def Val.tag : Val → Tag
  | number _ => .number
  | boolean _ => .boolean
  | string _ => .string
  | builtin _ => .native
  | closure _ _ => .function

/-- The values of locations and of global variables. -/
structure Memory where
  store : Location → Val
  /-- The number of activations so far. -/
  next : Nat
  /-- The global variables that have a value. -/
  globals : String → Option Val

/-- Why an evaluation has no value. -/
inductive Stop where
  | fault (f : Fault)
  /-- There were too many calls within one another or rounds of a loop. -/
  | exhausted
  /-- A list headed by a reserved symbol has the wrong shape. -/
  | malformed (why : Malformation)

/-- An evaluation. -/
abbrev Eval := EStateM Stop Memory

/-- Fails. -/
def fail {α : Type} (f : Fault) : Eval α := throw (.fault f)

/-- Fails because a value is of the wrong kind. -/
def refuse {α : Type} (op : Op) (expected : Tag) (v : Val) : Eval α :=
  fail (.type op.name expected v.tag)

/-! ## Variables -/

/-- What a symbol denotes. -/
inductive Variable where
  | global (name : String)
  | location (ℓ : Location)

/-- The variable that a scope declares, if one does; otherwise it is global. -/
def variableOf (T : Scopes) (env : Env) (owner : Option ScopeId) (name : String) : Variable :=
  match owner with
  | none => .global name
  | some o =>
    match (T.scope o).kind with
    | .global => .global name
    | _ => .location ⟨env (T.home o), o, name⟩

/-- The value of a variable. -/
def read : Variable → Eval Val
  | .global name => do
    match (← get).globals name with
    | some v => pure v
    | none => fail (.reference name)
  | .location ℓ => do return (← get).store ℓ

/-- The memory with a new value of a location. -/
def Memory.put (σ : Memory) (ℓ : Location) (v : Val) : Memory :=
  { σ with store := fun ℓ' => if ℓ' = ℓ then v else σ.store ℓ' }

/-- The memory with a new value of a global variable. -/
def Memory.putGlobal (σ : Memory) (name : String) (v : Val) : Memory :=
  { σ with globals := fun n => if n = name then some v else σ.globals n }

/-- Gives a variable a value. -/
def write (x : Variable) (v : Val) : Eval Unit :=
  match x with
  | .global name => modify (·.putGlobal name v)
  | .location ℓ => modify (·.put ℓ v)

/-! ## Operators -/

/-- Adds two numbers or joins two strings. -/
def add : Val → Val → Eval Val
  | .number a, .number b => pure (.number (a + b))
  | .string s, .string t => pure (.string (s ++ t))
  | .string _, y => refuse .add .string y
  | .number _, y => refuse .add .number y
  | x, _ => refuse .add .number x

/-- Computes with two numbers. -/
def arithmetic (op : Op) (f : Float → Float → Float) : Val → Val → Eval Val
  | .number a, .number b => pure (.number (f a b))
  | .number _, y => refuse op .number y
  | x, _ => refuse op .number x

/-- Compares two numbers or two strings, or two truth values for being the same. -/
def compare (c : Comparison) : Val → Val → Eval Val
  | .number a, .number b => pure (.boolean (c.numbers a b))
  | .string s, .string t => pure (.boolean (c.strings s t))
  | .boolean a, .boolean b =>
    if c = .eq ∨ c = .ne then pure (.boolean (c.booleans a b))
    else refuse .cmp .number (.boolean a)
  | .string _, y => refuse .cmp .string y
  | .number _, y => refuse .cmp .number y
  | x, _ => refuse .cmp .number x

/-- The value of an operation. -/
def operate : Operator → Val → Val → Eval Val
  | .add => add
  | .sub => arithmetic .sub (· - ·)
  | .mul => arithmetic .mul (· * ·)
  | .div => arithmetic .div (· / ·)
  | .compare c => compare c

/-- The truth value of a test. -/
def truth : Val → Eval Bool
  | .boolean b => pure b
  | v => refuse .jumpIfFalse .boolean v

/-! ## Built-in functions -/

namespace Builtin

/-- The name of a built-in function. -/
def name : Builtin → String
  | unary name _ => name
  | binary name _ => name

/-- The function of the host that a built-in function is. -/
def native : Builtin → Native
  | unary name f => .unary name f
  | binary name f => .binary name f

/-- An argument, which must be a number. -/
def argument (name : String) : Val → Eval Float
  | .number x => pure x
  | .boolean _ => fail (.type name .number .boolean)
  | _ => fail (.native name "expected a number")

/-- The value of a built-in function. -/
def apply : Builtin → List Val → Eval Val
  | unary name f, [x] => do return .number (f (← argument name x))
  | binary name f, [x, y] => do
    let a ← argument name x
    let b ← argument name y
    return .number (f a b)
  | g, args => fail (.arity g.name g.native.arity args.length)

/-- The built-in functions. -/
def all : List Builtin :=
  [unary "square" fun x => x * x, unary "abs" Float.abs, binary "max" Native.greater,
    binary "min" Native.lesser]

end Builtin

/-! ## Forms -/

/-- Goes round a loop as long as the test holds; the value is `false`. -/
def loop (test : Eval Bool) (round : Eval Unit) : Nat → Eval Val
  | 0 => throw .exhausted
  | n + 1 => do
    if ← test then
      round
      loop test round n
    else pure (.boolean false)

section

variable (T : Scopes) (call : Val → List Val → Eval Val) (rounds : Nat)

mutual

/-- The value of a form in the scope `s`. -/
def eval (env : Env) (s : ScopeId) : Form → Eval Val
  | .number x => pure (.number x)
  | .string text => pure (.string text)
  | .boolean b => pure (.boolean b)
  | .reference name binding => read (variableOf T env binding.owner name)
  | .block b forms => evalBody env b forms
  | .declare name init => do
    let v ← eval env s init
    write (variableOf T env (some s) name) v
    return v
  | .assign name binding value => do
    let v ← eval env s value
    write (variableOf T env binding.owner name) v
    return v
  | .ifThen test thn => do
    if ← truth (← eval env s test) then eval env s thn else return .boolean false
  | .ifElse test thn els => do
    if ← truth (← eval env s test) then eval env s thn else eval env s els
  | .whileLoop test body =>
    loop (do truth (← eval env s test)) (do let _ ← eval env s body) rounds
  | .forLoop init test modifier body => do
    let _ ← eval env s init
    loop (do truth (← eval env s test))
      (do let _ ← eval env s body; let _ ← eval env s modifier) rounds
  | .define name f params body => do
    let v := .closure ⟨name, true, f, params, body⟩ env
    write (variableOf T env (some s) name) v
    return v
  | .lambda label f params body => return .closure ⟨label, false, f, params, body⟩ env
  | .operation op x y => do
    let a ← eval env s x
    let b ← eval env s y
    operate op a b
  | .call callee args => do
    let f ← eval env s callee
    let vs ← evalArgs env s args
    call f vs
  | .malformed _ why => throw (.malformed why)

/-- The values of arguments, from left to right. -/
def evalArgs (env : Env) (s : ScopeId) : List Form → Eval (List Val)
  | [] => return []
  | form :: rest => do
    let v ← eval env s form
    return v :: (← evalArgs env s rest)

/-- The value of the last form of a block; that of an empty one is `false`. -/
def evalBody (env : Env) (s : ScopeId) : List Form → Eval Val
  | [] => return .boolean false
  | [form] => eval env s form
  | form :: next :: rest => do
    let _ ← eval env s form
    evalBody env s (next :: rest)

end

end

/-! ## Calls -/

/-- What the variables of an activation hold at its start, when the callee is called: the function's
    own name, and the parameters. -/
def Function.starts (f : Function) (callee : Val) (args : List Val) : List (String × Val) :=
  (if f.own then [(f.name, callee)] else []) ++ f.params.zip args

/-- The memory at the start of a new activation. -/
def Memory.enter (σ : Memory) (s : ScopeId) (starts : List (String × Val)) : Memory where
  store ℓ :=
    if ℓ.activation = σ.next ∧ ℓ.scope = s then (starts.lookup ℓ.name).getD (σ.store ℓ)
    else σ.store ℓ
  next := σ.next + 1
  globals := σ.globals

/-- The activations at the start of a new one. -/
def Env.enter (env : Env) (f : ScopeId) (a : Nat) : Env := fun s => if s = f then a else env s

/-- Calls a value, with at most so many calls within one another. -/
def call (T : Scopes) : Nat → Val → List Val → Eval Val
  | 0, _, _ => throw .exhausted
  | n + 1, callee, args =>
    match callee with
    | .closure f env => do
      if f.params.length ≠ args.length then
        fail (.arity f.name f.params.length args.length)
      let a := (← get).next
      modify (·.enter f.scope (f.starts callee args))
      eval T (call T n) n (env.enter f.scope a) f.scope f.body
    | .builtin g => g.apply args
    | v => fail (.notCallable v.tag)

/-! ## Programs -/

/-- The memory at the start of a program, which is the first activation. -/
def Memory.initial : Memory where
  store _ := .boolean false
  next := 1
  globals name :=
    if name = "VERSION" then some (.number 1)
    else (Builtin.all.find? (·.name = name)).map .builtin

/-- The value of a program. -/
def evalProgram (T : Scopes) (program : Form) (n : Nat) : Eval Val :=
  eval T (call T n) n (fun _ => 0) Scopes.root program

/-! ## Greater bounds -/

/-- The second evaluation gives what the first one does, unless this exceeds its bound. -/
def Sharpens {α : Type} (x y : Eval α) : Prop := ∀ σ, y σ = x σ ∨ ∃ σ', x σ = .error .exhausted σ'

section

variable {α β : Type} {x y : Eval α} {f g : α → Eval β}

theorem Sharpens.refl (x : Eval α) : Sharpens x x := fun _ => Or.inl rfl

theorem sharpens_exhausted (y : Eval α) : Sharpens (throw .exhausted) y := fun σ => Or.inr ⟨σ, rfl⟩

theorem Sharpens.bind (h : Sharpens x y) (hf : ∀ a, Sharpens (f a) (g a)) : Sharpens (x >>= f) (y >>= g) := by
  intro σ
  change EStateM.bind y g σ = EStateM.bind x f σ ∨ ∃ σ', EStateM.bind x f σ = _
  simp only [EStateM.bind]
  rcases h σ with h | ⟨σ', h⟩
  · rw [h]
    cases x σ with
    | ok a σ₁ => exact hf a σ₁
    | error e σ₁ => exact Or.inl rfl
  · rw [h]
    exact Or.inr ⟨σ', rfl⟩

theorem sharpens_ite {p : Prop} [Decidable p] {x' y' : Eval α} (h : Sharpens x y) (h' : Sharpens x' y') :
    Sharpens (if p then x else x') (if p then y else y') := by
  split
  · exact h
  · exact h'

theorem sharpens_loop {test test' : Eval Bool} {round round' : Eval Unit} (ht : Sharpens test test')
    (hr : Sharpens round round') {n k : Nat} (hk : n ≤ k) :
    Sharpens (loop test round n) (loop test' round' k) := by
  induction n generalizing k with
  | zero => exact sharpens_exhausted _
  | succ n ih =>
    obtain _ | k := k
    · cases hk
    · exact ht.bind fun b => sharpens_ite (hr.bind fun _ => ih (Nat.le_of_succ_le_succ hk)) (.refl _)

end

section

variable {T : Scopes} {call call' : Val → List Val → Eval Val} {n k : Nat}

mutual

/-- More rounds and calls do not change the result of a form, if there is one. -/
theorem sharpens_eval (hcall : ∀ f vs, Sharpens (call f vs) (call' f vs)) (hk : n ≤ k) (env : Env)
    (s : ScopeId) (f : Form) :
    Sharpens (eval T call n env s f) (eval T call' k env s f) := by
  cases f with
  | number x | string text | boolean b | reference name binding | define name f params body
  | lambda label f params body | malformed e why =>
    simp only [eval]
    exact .refl _
  | block b fs =>
    simp only [eval]
    exact sharpens_evalBody hcall hk env b fs
  | declare name init =>
    simp only [eval]
    exact (sharpens_eval hcall hk env s init).bind fun v => .refl _
  | assign name binding value =>
    simp only [eval]
    exact (sharpens_eval hcall hk env s value).bind fun v => .refl _
  | ifThen test thn =>
    simp only [eval]
    exact (sharpens_eval hcall hk env s test).bind fun v => (Sharpens.refl _).bind fun b =>
      sharpens_ite (sharpens_eval hcall hk env s thn) (.refl _)
  | ifElse test thn els =>
    simp only [eval]
    exact (sharpens_eval hcall hk env s test).bind fun v => (Sharpens.refl _).bind fun b =>
      sharpens_ite (sharpens_eval hcall hk env s thn) (sharpens_eval hcall hk env s els)
  | whileLoop test body =>
    simp only [eval]
    exact sharpens_loop ((sharpens_eval hcall hk env s test).bind fun v => .refl _)
      ((sharpens_eval hcall hk env s body).bind fun v => .refl _) hk
  | forLoop init test modifier body =>
    simp only [eval]
    exact (sharpens_eval hcall hk env s init).bind fun v =>
      sharpens_loop ((sharpens_eval hcall hk env s test).bind fun v => .refl _)
        ((sharpens_eval hcall hk env s body).bind fun v =>
          (sharpens_eval hcall hk env s modifier).bind fun v => .refl _) hk
  | operation op x y =>
    simp only [eval]
    exact (sharpens_eval hcall hk env s x).bind fun a =>
      (sharpens_eval hcall hk env s y).bind fun b => .refl _
  | call callee args =>
    simp only [eval]
    exact (sharpens_eval hcall hk env s callee).bind fun f =>
      (sharpens_evalArgs hcall hk env s args).bind fun vs => hcall f vs

theorem sharpens_evalArgs (hcall : ∀ f vs, Sharpens (call f vs) (call' f vs)) (hk : n ≤ k) (env : Env)
    (s : ScopeId) (fs : List Form) :
    Sharpens (evalArgs T call n env s fs) (evalArgs T call' k env s fs) := by
  cases fs with
  | nil => exact .refl _
  | cons f fs =>
    simp only [evalArgs]
    exact (sharpens_eval hcall hk env s f).bind fun v =>
      (sharpens_evalArgs hcall hk env s fs).bind fun vs => .refl _

theorem sharpens_evalBody (hcall : ∀ f vs, Sharpens (call f vs) (call' f vs)) (hk : n ≤ k) (env : Env)
    (s : ScopeId) (fs : List Form) :
    Sharpens (evalBody T call n env s fs) (evalBody T call' k env s fs) := by
  cases fs with
  | nil => exact .refl _
  | cons f fs =>
    cases fs with
    | nil => exact sharpens_eval hcall hk env s f
    | cons f' fs =>
      simp only [evalBody]
      exact (sharpens_eval hcall hk env s f).bind fun v => sharpens_evalBody hcall hk env s (f' :: fs)

end

/-- More calls within one another do not change the result of a call, if there is one. -/
theorem sharpens_call {n k : Nat} (hk : n ≤ k) (f : Val) (vs : List Val) :
    Sharpens (Meaning.call T n f vs) (Meaning.call T k f vs) := by
  induction n generalizing k f vs with
  | zero => exact sharpens_exhausted _
  | succ n ih =>
    obtain _ | k := k
    · cases hk
    have hle := Nat.le_of_succ_le_succ hk
    cases f with
    | closure f env =>
      simp only [Meaning.call]
      have entered : Sharpens
          (do let a := (← get).next
              modify (·.enter f.scope (f.starts (.closure f env) vs))
              eval T (Meaning.call T n) n (env.enter f.scope a) f.scope f.body)
          (do let a := (← get).next
              modify (·.enter f.scope (f.starts (.closure f env) vs))
              eval T (Meaning.call T k) k (env.enter f.scope a) f.scope f.body) :=
        (Sharpens.refl _).bind fun σ => (Sharpens.refl _).bind fun _ =>
          sharpens_eval (ih hle) hle (env.enter f.scope σ.next) f.scope f.body
      exact sharpens_ite ((Sharpens.refl _).bind fun _ => entered) entered
    | _ => exact .refl _

end

end Meaning

/-! ## Results -/

/-- The result of a program, with at most `n` calls within one another and rounds of a loop. -/
def Expr.meaning (e : Expr) (n : Nat) : EStateM.Result Meaning.Stop Meaning.Memory Meaning.Val :=
  (Meaning.evalProgram e.resolveProgram.2 (Form.ofResolved "lambda" e.resolveProgram.1) n).run
    .initial

/-- A greater number of calls and rounds does not change the result of a program, once there is one. -/
theorem Expr.meaning_mono (e : Expr) {n k : Nat} (hk : n ≤ k) :
    e.meaning k = e.meaning n ∨ ∃ σ, e.meaning n = .error .exhausted σ :=
  Meaning.sharpens_eval (Meaning.sharpens_call hk) hk _ _ _ _

/-- A program has that result, with some number of calls and rounds. -/
def Expr.Means (e : Expr) (r : EStateM.Result Meaning.Stop Meaning.Memory Meaning.Val) : Prop :=
  (∀ σ, r ≠ .error .exhausted σ) ∧ ∃ n, e.meaning n = r

theorem Expr.Means.unique {e : Expr} {r r' : EStateM.Result Meaning.Stop Meaning.Memory Meaning.Val}
    (h : e.Means r) (h' : e.Means r') : r = r' := by
  obtain ⟨hr, n, rfl⟩ := h
  obtain ⟨hr', k, rfl⟩ := h'
  rcases Nat.le_total n k with hle | hle
  · exact ((e.meaning_mono hle).resolve_right fun ⟨σ, h⟩ => hr σ h).symm
  · exact (e.meaning_mono hle).resolve_right fun ⟨σ, h⟩ => hr' σ h

end ByteLisp
