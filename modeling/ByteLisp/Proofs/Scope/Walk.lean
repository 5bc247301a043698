/-
  ByteLisp: the walk over forms.

  The walk that binds names is a function on expressions. `Walks` says the same of
  forms, so that code generation can be compared with it.

  * `Scopes.Extends`: the table grows and stays nested;
  * `Walks T s fs T'`: the walk over the forms `fs` in the scope `s` turns the table
    `T` into `T'`, with one rule for each kind of form;
  * `resolve_walks`: the forms of a resolved expression have been walked over.
-/
import ByteLisp.Form
import ByteLisp.Proofs.Scope.Later

namespace ByteLisp

section

variable {T T' T₁ T₂ : Scopes} {s : ScopeId} {name : String}

/-! ## Growth of the table -/

/-- Scopes stay where they are, names are only added, and new scopes lie inside those before. -/
structure Scopes.Extends (T T' : Scopes) : Prop where
  later : T.Later T'
  nested : T.Nested → T'.Nested

namespace Scopes

theorem Extends.refl (T : Scopes) : T.Extends T := ⟨.refl T, fun h => h⟩

theorem Extends.trans (h : T.Extends T₁) (h' : T₁.Extends T₂) : T.Extends T₂ :=
  ⟨h.later.trans h'.later, fun hn => h'.nested (h.nested hn)⟩

theorem Extends.lt (h : T.Extends T') (hs : s < T.size) : s < T'.size :=
  Nat.lt_of_lt_of_le hs h.later.size

theorem extends_push (hs : s < T.size) (k : Scope.Kind) : T.Extends (T.push k s) :=
  ⟨later_push T k s, fun hn => hn.push hs k⟩

theorem extends_declare : T.Extends (T.modify s (·.declare name)) :=
  ⟨later_modify s (adds_declare name), fun hn => hn.modify (adds_declare name)⟩

/-- The table with names declared in one scope. -/
def declareAll (T : Scopes) (s : ScopeId) (names : List String) : Scopes :=
  (Walk.declareAll s names T).2

theorem extends_declareAll {names : List String} : T.Extends (T.declareAll s names) := by
  induction names generalizing T with
  | nil => exact .refl T
  | cons name names ih => exact extends_declare.trans ih

theorem declareAll_append {names more : List String} :
    T.declareAll s (names ++ more) = (T.declareAll s names).declareAll s more := by
  induction names generalizing T with
  | nil => rfl
  | cons name names ih => exact ih

@[simp] theorem size_declareAll {names : List String} : (T.declareAll s names).size = T.size := by
  induction names generalizing T with
  | nil => rfl
  | cons name names ih => exact ih.trans size_modify

/-- The table with a new function in `s` that declares names. -/
def openFunction (T : Scopes) (s : ScopeId) (names : List String) : Scopes :=
  (T.push .function s).declareAll T.size names

theorem extends_openFunction {names : List String} (hs : s < T.size) :
    T.Extends (T.openFunction s names) := (extends_push hs _).trans extends_declareAll

theorem lt_size_push {k : Scope.Kind} : T.size < (T.push k s).size := by
  rw [size_push]
  exact Nat.lt_succ_self _

theorem lt_size_openFunction {names : List String} : T.size < (T.openFunction s names).size := by
  rw [openFunction, size_declareAll]
  exact lt_size_push

theorem mem_declareAll {names : List String} (hs : s < T.size) (h : name ∈ names) :
    name ∈ ((T.declareAll s names).scope s).declared := by
  induction names generalizing T with
  | nil => cases h
  | cons n names ih =>
    have hs' : s < (T.modify s (·.declare n)).size := Nat.lt_of_lt_of_eq hs size_modify.symm
    rcases List.mem_cons.1 h with rfl | h
    · have rest : (T.modify s (·.declare name)).Extends
          ((T.modify s (·.declare name)).declareAll s names) := extends_declareAll
      refine rest.later.declared s name hs' ?_
      rw [scope_modify hs, if_pos rfl]
      exact List.mem_cons_self
    · exact ih hs' h

theorem mem_openFunction {names : List String} (h : name ∈ names) :
    name ∈ ((T.openFunction s names).scope T.size).declared := mem_declareAll lt_size_push h

/-- The scope of a new function lies in `s`. -/
theorem openFunction_scope {names : List String} (hs : s < T.size) :
    ((T.openFunction s names).scope T.size).kind = .function ∧
      (T.openFunction s names).chain T.size = T.size :: (T.openFunction s names).chain s := by
  have pushed : T.Later (T.push .function s) := later_push T _ s
  have rest : (T.push .function s).Extends (T.openFunction s names) := extends_declareAll
  rw [rest.later.kind _ lt_size_push, rest.later.chain lt_size_push,
    rest.later.chain (Nat.lt_of_lt_of_le hs pushed.size), pushed.chain hs, chain, scope_push_size]
  exact ⟨rfl, rfl⟩

theorem extends_refer : T.Extends (Walk.refer s name T).2 := by
  unfold Walk.refer
  split
  · exact ⟨later_capture, fun hn => hn.capture⟩
  · exact .refl T

end Scopes

/-! ## The walk over expressions -/

namespace Expr

mutual

theorem resolve_extends (s : ScopeId) (e : Expr) (T : Scopes) (hs : s < T.size) :
    T.Extends (resolve s e T).2 := by
  cases e with
  | number x => exact .refl T
  | string text => exact .refl T
  | symbol name =>
    rw [resolve]
    split
    · exact .refl T
    · exact Scopes.extends_refer
  | list items =>
    rw [resolve]
    cases Head.ofItems? items with
    | none => exact resolveEntries_extends s 0 items T hs
    | some head =>
      cases head with
      | block =>
        exact (Scopes.extends_push hs _).trans (resolveEntries_extends _ 1 items _ Scopes.lt_size_push)
      | declare =>
        refine Scopes.extends_declareAll.trans (resolveEntries_extends s 2 items _ ?_)
        exact Scopes.size_declareAll.symm ▸ hs
      | define =>
        have opened : (T.declareAll s (symbolAt items 1)).Extends
            ((T.declareAll s (symbolAt items 1)).openFunction s (symbolAt items 1)) :=
          Scopes.extends_openFunction (Scopes.size_declareAll.symm ▸ hs)
        refine Scopes.extends_declareAll.trans ((opened.trans Scopes.extends_declareAll).trans
          (resolveEntries_extends _ 3 items _ ?_))
        exact Nat.lt_of_lt_of_eq Scopes.lt_size_openFunction Scopes.size_declareAll.symm
      | lambda =>
        exact (Scopes.extends_openFunction hs).trans
          (resolveEntries_extends _ 2 items _ Scopes.lt_size_openFunction)
      | _ => exact resolveEntries_extends s 1 items T hs

theorem resolveEntries_extends (s : ScopeId) (skip : Nat) (es : List Expr) (T : Scopes)
    (hs : s < T.size) : T.Extends (resolveEntries s skip es T).2 := by
  cases es with
  | nil => cases skip <;> exact .refl T
  | cons e es =>
    cases skip with
    | zero =>
      have first := resolve_extends s e T hs
      exact first.trans (resolveEntries_extends s 0 es _ (first.lt hs))
    | succ skip => exact resolveEntries_extends s skip es T hs

end

end Expr

end

/-! ## The walk over forms -/

/-- Whether the walk is to blame that a list is no form, and not the list. -/
def Malformation.isFault : Malformation → Bool
  | blockWithoutScope | functionWithoutScope => true
  | _ => false

/-- A function without a name of its own is labelled `lambda`, or by a variable of `s`. -/
def Scopes.Labels (T : Scopes) (s : ScopeId) (label : String) : Prop :=
  label = "lambda" ∨ label ∈ (T.scope s).declared

/-- The walk over the target of an assignment: `true` and `false` are no references. -/
def Walk.target (s : ScopeId) (name : String) : Walk Binding :=
  if isTruth name then pure .unbound else Walk.refer s name

/-- The walk over some forms in a scope turns one table into another; at references and at
    functions without a name of their own the table satisfies `P`. -/
inductive Walks (P : Scopes → Prop) : Scopes → ScopeId → List Form → Scopes → Prop
  | nil {T s} : Walks P T s [] T
  | cons {T s f g fs T₁ T'} : Walks P T s [f] T₁ → Walks P T₁ s (g :: fs) T' →
      Walks P T s (f :: g :: fs) T'
  | number {T s x} : Walks P T s [.number x] T
  | string {T s text} : Walks P T s [.string text] T
  | boolean {T s b} : Walks P T s [.boolean b] T
  | reference {T s name binding T'} : P T → isTruth name = false →
      Walk.target s name T = (binding, T') → Walks P T s [.reference name binding] T'
  | block {T s fs T'} : Walks P (T.push .block s) T.size fs T' → Walks P T s [.block T.size fs] T'
  | declare {T s name init T'} : Walks P (T.modify s (·.declare name)) s [init] T' →
      Walks P T s [.declare name init] T'
  | assign {T s name binding value T₁ T'} : P T → Walk.target s name T = (binding, T₁) →
      Walks P T₁ s [value] T' → Walks P T s [.assign name binding value] T'
  | ifThen {T s test thn T'} : Walks P T s [test, thn] T' → Walks P T s [.ifThen test thn] T'
  | ifElse {T s test thn els T'} : Walks P T s [test, thn, els] T' →
      Walks P T s [.ifElse test thn els] T'
  | whileLoop {T s test body T'} : Walks P T s [test, body] T' →
      Walks P T s [.whileLoop test body] T'
  | forLoop {T s init test modifier body T'} : Walks P T s [init, test, modifier, body] T' →
      Walks P T s [.forLoop init test modifier body] T'
  | define {T s name params body U T'} : U = T.modify s (·.declare name) →
      Walks P (U.openFunction s (name :: params)) U.size [body] T' →
      Walks P T s [.define name U.size params body] T'
  | lambda {T s label params body T'} : P T → T.Labels s label →
      Walks P (T.openFunction s params) T.size [body] T' →
      Walks P T s [.lambda label T.size params body] T'
  | operation {T s op x y T'} : Walks P T s [x, y] T' → Walks P T s [.operation op x y] T'
  | call {T s callee args T'} : Walks P T s (callee :: args) T' → Walks P T s [.call callee args] T'
  | malformed {T s e why T'} : why.isFault = false → T.Extends T' →
      Walks P T s [.malformed e why] T'

section

variable {P Q : Scopes → Prop} {T T' : Scopes} {s : ScopeId} {fs : List Form}

theorem extends_target {name : String} :
    T.Extends (Walk.target s name T).2 := by
  unfold Walk.target
  split
  · exact .refl T
  · exact Scopes.extends_refer

theorem Walks.extends (h : Walks P T s fs T') (hs : s < T.size) : T.Extends T' := by
  induction h with
  | nil | number | string | boolean => exact .refl _
  | cons _ _ ih ih' => exact (ih hs).trans (ih' ((ih hs).lt hs))
  | @reference T s name binding T' _ _ ht =>
    have h : T.Extends (Walk.target s name T).2 := extends_target
    rwa [ht] at h
  | block _ ih => exact (Scopes.extends_push hs _).trans (ih Scopes.lt_size_push)
  | declare _ ih => exact Scopes.extends_declare.trans (ih (Scopes.size_modify.symm ▸ hs))
  | @assign T s name binding value T₁ T' _ ht _ ih =>
    have h : T.Extends (Walk.target s name T).2 := extends_target
    rw [ht] at h
    exact h.trans (ih (h.lt hs))
  | ifThen _ ih | ifElse _ ih | whileLoop _ ih | forLoop _ ih | operation _ ih | call _ ih =>
    exact ih hs
  | define hU _ ih =>
    subst hU
    refine Scopes.extends_declare.trans ((Scopes.extends_openFunction ?_).trans
      (ih Scopes.lt_size_openFunction))
    rwa [Scopes.size_modify]
  | lambda _ _ _ ih => exact (Scopes.extends_openFunction hs).trans (ih Scopes.lt_size_openFunction)
  | malformed _ h => exact h

end

section

variable {P : Scopes → Prop} {T T' : Scopes} {s : ScopeId} {f : Form} {fs : List Form} {name : String}

/-- Forms are walked over one after the other. -/
theorem Walks.uncons (h : Walks P T s (f :: fs) T') :
    ∃ T₁, Walks P T s [f] T₁ ∧ Walks P T₁ s fs T' := by
  cases fs with
  | nil => exact ⟨T', h, .nil⟩
  | cons g fs =>
    cases h with
    | cons h₁ h₂ => exact ⟨_, h₁, h₂⟩

/-- Each of some forms is walked over on the way. -/
theorem Walks.of_mem (h : Walks P T s fs T') (hs : s < T.size) (hf : f ∈ fs) :
    ∃ T₀ T₁, T.Extends T₀ ∧ Walks P T₀ s [f] T₁ ∧ T₁.Extends T' := by
  induction fs generalizing T with
  | nil => cases hf
  | cons g fs ih =>
    obtain ⟨T₁, h₁, h₂⟩ := h.uncons
    have hx := h₁.extends hs
    rcases List.mem_cons.1 hf with rfl | hf
    · exact ⟨T, T₁, .refl T, h₁, h₂.extends (hx.lt hs)⟩
    · obtain ⟨T₂, T₃, hx₂, h₃, hx₃⟩ := ih h₂ (hx.lt hs) hf
      exact ⟨T₂, T₃, hx.trans hx₂, h₃, hx₃⟩

end

/-! ## Forms of resolved expressions -/

namespace Expr

variable {T : Scopes} {s : ScopeId}

theorem head?_plain (e : Expr) (es : List Expr) (rs : List Resolved) :
    Form.head? (Resolved.plain e :: rs) = Head.ofItems? (e :: es) := by
  cases e <;> rfl

theorem head?_resolve (e : Expr) (es : List Expr) (rs : List Resolved) :
    Form.head? ((resolve s e T).1 :: rs) = Head.ofItems? (e :: es) := by
  cases e with
  | symbol name =>
    rw [resolve]
    split <;> rfl
  | list items =>
    rw [resolve]
    cases Head.ofItems? items with
    | none => rfl
    | some head => cases head <;> rfl
  | _ => rfl

theorem head?_resolveEntries (skip : Nat) (es : List Expr) :
    Form.head? (resolveEntries s skip es T).1 = Head.ofItems? es := by
  cases es with
  | nil => cases skip <;> rfl
  | cons e es =>
    cases skip with
    | zero => exact head?_resolve e es _
    | succ skip => exact head?_plain e es _

/-- The names of parameters that have not been walked over. -/
theorem params?_plain {es : List Expr} {names : List String}
    (h : Form.params? (Resolved.plainEntries es) = some names) : es.filterMap symbol? = names := by
  have := Form.params?_eq_some h
  rw [Resolved.eraseEntries_plainEntries] at this
  rw [this]
  induction names with
  | nil => rfl
  | cons name names ih => simp [symbol?, List.filterMap_map, Function.comp_def]

theorem function_cases (wrong : Malformation → Form) (f : ScopeId) (ps : Expr)
    (make : ScopeId → List String → Form) :
    (∃ why, why.isFault = false ∧ Form.function wrong (some f) (Resolved.plain ps) make = wrong why) ∨
      ∃ es, ps = .list es ∧
        Form.function wrong (some f) (Resolved.plain ps) make = make f (es.filterMap symbol?) := by
  cases ps with
  | list es =>
    simp only [Resolved.plain, Form.function, Form.list?]
    cases hp : Form.params? (Resolved.plainEntries es) with
    | none => exact Or.inl ⟨_, rfl, rfl⟩
    | some names => exact Or.inr ⟨es, rfl, by rw [params?_plain hp]⟩
  | _ => exact Or.inl ⟨_, rfl, rfl⟩

theorem resolve_symbol (name : String) :
    resolve s (.symbol name) T =
      (.symbol name (Walk.target s name T).1, (Walk.target s name T).2) := by
  rw [resolve, Walk.target]
  split <;> rfl

theorem target_of_symbol? {e : Expr} {name : String} {binding : Binding}
    (h : Form.symbol? (resolve s e T).1 = some (name, binding)) :
    Walk.target s name T = (binding, (resolve s e T).2) := by
  cases e with
  | symbol n =>
    rw [resolve_symbol] at h ⊢
    cases h
    rfl
  | list items =>
    rw [resolve] at h
    cases hd : Head.ofItems? items with
    | none => rw [hd] at h; cases h
    | some head => rw [hd] at h; cases head <;> cases h
  | _ => cases h

/-- The form of an expression has been walked over. -/
def Walked (e : Expr) : Prop :=
  ∀ (s : ScopeId) (T : Scopes) (label : String), s < T.size → T.Labels s label →
    Walks (fun _ => True) T s [Form.ofResolved label (resolve s e T).1] (resolve s e T).2

section

variable {items : List Expr} {label : String}

theorem walks_entries (h : ∀ e ∈ items, Walked e) (hs : s < T.size) :
    Walks (fun _ => True) T s (Form.ofEntries (resolveEntries s 0 items T).1)
      (resolveEntries s 0 items T).2 := by
  induction items generalizing T with
  | nil => exact .nil
  | cons e es ih =>
    have first := h e List.mem_cons_self s T "lambda" hs (Or.inl rfl)
    have rest := ih (fun e' he => h e' (List.mem_cons_of_mem e he)) ((first.extends hs).lt hs)
    cases es with
    | nil => exact first
    | cons e' es => exact .cons first rest

theorem walks_call (h : ∀ e ∈ items, Walked e) (hs : s < T.size) (hh : Head.ofItems? items = none) :
    Walks (fun _ => True) T s [Form.ofResolved label (resolve s (.list items) T).1]
      (resolve s (.list items) T).2 := by
  have hx := resolve_extends s (.list items) T hs
  have hhead := head?_resolveEntries (T := T) (s := s) 0 items
  rw [hh] at hhead
  rw [resolve, hh] at hx ⊢
  simp only [Walk.bind_apply, Walk.pure_apply, Form.ofResolved, hhead] at hx ⊢
  cases items with
  | nil => exact .malformed rfl hx
  | cons e es => exact .call (walks_entries h hs)

theorem walks_block (h : ∀ e ∈ items, Walked e) (hs : s < T.size)
    (hh : Head.ofItems? items = some .block) :
    Walks (fun _ => True) T s [Form.ofResolved label (resolve s (.list items) T).1]
      (resolve s (.list items) T).2 := by
  have hx := resolve_extends s (.list items) T hs
  have hhead := head?_resolveEntries (T := T.push .block s) (s := T.size) 1 items
  rw [hh] at hhead
  rw [resolve, hh] at hx ⊢
  simp only [Walk.bind_apply, Walk.pure_apply, Walk.enter, Form.ofResolved, hhead] at hx ⊢
  cases items with
  | nil => exact .malformed rfl hx
  | cons e es =>
    exact .block (walks_entries (fun e' he => h e' (List.mem_cons_of_mem e he)) Scopes.lt_size_push)

theorem walks_declare (h : ∀ e ∈ items, Walked e) (hs : s < T.size)
    (hh : Head.ofItems? items = some .declare) :
    Walks (fun _ => True) T s [Form.ofResolved label (resolve s (.list items) T).1]
      (resolve s (.list items) T).2 := by
  have hx := resolve_extends s (.list items) T hs
  have hhead := head?_resolveEntries (T := T.declareAll s (symbolAt items 1)) (s := s) 2 items
  rw [hh] at hhead
  rw [resolve, hh] at hx ⊢
  simp only [Walk.bind_apply, Walk.pure_apply, Form.ofResolved] at hx ⊢
  change Form.head? (resolveEntries s 2 items (Walk.declareAll s (symbolAt items 1) T).2).1 = _ at hhead
  rw [hhead]
  match items with
  | [] | [_] | [_, _] | _ :: _ :: _ :: _ :: _ => exact .malformed rfl hx
  | [_, target, init] =>
    simp only [resolveEntries, Walk.bind_apply, Walk.pure_apply, Form.ofList] at hx ⊢
    cases target with
    | symbol name =>
      refine .declare (h init (by simp) s _ name (Scopes.size_modify.symm ▸ hs) (Or.inr ?_))
      rw [Scopes.scope_modify hs, if_pos rfl]
      exact List.mem_cons_self
    | _ => exact .malformed rfl hx

theorem walks_assign (h : ∀ e ∈ items, Walked e) (hs : s < T.size)
    (hh : Head.ofItems? items = some .assign) :
    Walks (fun _ => True) T s [Form.ofResolved label (resolve s (.list items) T).1]
      (resolve s (.list items) T).2 := by
  have hx := resolve_extends s (.list items) T hs
  have hhead := head?_resolveEntries (T := T) (s := s) 1 items
  rw [hh] at hhead
  rw [resolve, hh] at hx ⊢
  simp only [Walk.bind_apply, Walk.pure_apply, Form.ofResolved, hhead] at hx ⊢
  match items with
  | [] | [_] | [_, _] | _ :: _ :: _ :: _ :: _ => exact .malformed rfl hx
  | [_, target, value] =>
    simp only [resolveEntries, Walk.bind_apply, Walk.pure_apply, Form.ofList] at hx ⊢
    cases ht : Form.symbol? (resolve s target T).1 with
    | none => exact .malformed rfl hx
    | some x =>
      have first := resolve_extends s target T hs
      exact .assign trivial (target_of_symbol? ht)
        (h value (by simp) s _ "lambda" (first.lt hs) (Or.inl rfl))

theorem walks_parts {head : Head} (h : ∀ e ∈ items, Walked e) (hs : s < T.size)
    (hh : Head.ofItems? items = some head)
    (hp : head = .branch ∨ head = .whileLoop ∨ head = .forLoop ∨ ∃ op, head = .operator op) :
    Walks (fun _ => True) T s [Form.ofResolved label (resolve s (.list items) T).1]
      (resolve s (.list items) T).2 := by
  have hx := resolve_extends s (.list items) T hs
  have hhead := head?_resolveEntries (T := T) (s := s) 1 items
  rw [hh] at hhead
  have walked : ∀ e es, items = e :: es →
      Walks (fun _ => True) T s (Form.ofEntries (resolveEntries s 0 es T).1)
        (resolveEntries s 0 es T).2 := by
    rintro e es rfl
    exact walks_entries (fun e' he => h e' (List.mem_cons_of_mem e he)) hs
  rcases hp with rfl | rfl | rfl | ⟨op, rfl⟩
  · rw [resolve, hh] at hx ⊢
    simp only [Walk.bind_apply, Walk.pure_apply, Form.ofResolved, hhead] at hx ⊢
    match items with
    | [] | [_] | [_, _] | _ :: _ :: _ :: _ :: _ :: _ => exact .malformed rfl hx
    | [_, test, thn] => exact .ifThen (walked _ _ rfl)
    | [_, test, thn, els] => exact .ifElse (walked _ _ rfl)
  · rw [resolve, hh] at hx ⊢
    simp only [Walk.bind_apply, Walk.pure_apply, Form.ofResolved, hhead] at hx ⊢
    match items with
    | [] | [_] | [_, _] | _ :: _ :: _ :: _ :: _ => exact .malformed rfl hx
    | [_, test, body] => exact .whileLoop (walked _ _ rfl)
  · rw [resolve, hh] at hx ⊢
    simp only [Walk.bind_apply, Walk.pure_apply, Form.ofResolved, hhead] at hx ⊢
    match items with
    | [] | [_] | [_, _] | [_, _, _] | [_, _, _, _] | _ :: _ :: _ :: _ :: _ :: _ :: _ =>
      exact .malformed rfl hx
    | [_, init, test, modifier, body] => exact .forLoop (walked _ _ rfl)
  · rw [resolve, hh] at hx ⊢
    simp only [Walk.bind_apply, Walk.pure_apply, Form.ofResolved, hhead] at hx ⊢
    match items with
    | [] | [_] | [_, _] | _ :: _ :: _ :: _ :: _ => exact .malformed rfl hx
    | [_, x, y] => exact .operation (walked _ _ rfl)

theorem walks_lambda (h : ∀ e ∈ items, Walked e) (hs : s < T.size) (hl : T.Labels s label)
    (hh : Head.ofItems? items = some .lambda) :
    Walks (fun _ => True) T s [Form.ofResolved label (resolve s (.list items) T).1]
      (resolve s (.list items) T).2 := by
  have hx := resolve_extends s (.list items) T hs
  have hhead := head?_resolveEntries
    (T := T.openFunction s (symbolsAt items 1)) (s := T.size) 2 items
  rw [hh] at hhead
  rw [resolve, hh] at hx ⊢
  simp only [Walk.bind_apply, Walk.pure_apply, Walk.enter, Form.ofResolved] at hx ⊢
  change Form.head? (resolveEntries T.size 2 items
    (Walk.declareAll T.size (symbolsAt items 1) (T.push .function s)).2).1 = _ at hhead
  rw [hhead]
  match items with
  | [] | [_] | [_, _] | _ :: _ :: _ :: _ :: _ => exact .malformed rfl hx
  | [_, ps, body] =>
    simp only [resolveEntries, Walk.bind_apply, Walk.pure_apply, Form.ofList] at hx ⊢
    rcases function_cases (Form.malformed _) T.size ps
      (fun s names => .lambda label s names (Form.ofResolved "lambda" _)) with
      ⟨why, hwhy, hw⟩ | ⟨es, rfl, hw⟩
    · rw [hw]
      exact .malformed hwhy hx
    · rw [hw]
      exact .lambda trivial hl
        (h body (by simp) T.size _ "lambda" Scopes.lt_size_openFunction (Or.inl rfl))

theorem walks_define (h : ∀ e ∈ items, Walked e) (hs : s < T.size)
    (hh : Head.ofItems? items = some .define) :
    Walks (fun _ => True) T s [Form.ofResolved label (resolve s (.list items) T).1]
      (resolve s (.list items) T).2 := by
  have hx := resolve_extends s (.list items) T hs
  rw [resolve, hh] at hx ⊢
  simp only [Walk.bind_apply, Walk.pure_apply, Walk.enter, Form.ofResolved] at hx ⊢
  rw [head?_resolveEntries, hh]
  match items with
  | [] | [_] | [_, _] | [_, _, _] | _ :: _ :: _ :: _ :: _ :: _ => exact .malformed rfl hx
  | [_, target, ps, body] =>
    simp only [resolveEntries, Walk.bind_apply, Walk.pure_apply, Form.ofList] at hx ⊢
    cases target with
    | symbol name =>
      change Walks _ T s [Form.function (Form.malformed _) (some (T.modify s (·.declare name)).size)
        (Resolved.plain ps) (fun f names => .define name f names (Form.ofResolved "lambda" _))] _
      rcases function_cases (Form.malformed _) (T.modify s (·.declare name)).size ps
        (fun f names => .define name f names (Form.ofResolved "lambda" _)) with
        ⟨why, hwhy, hw⟩ | ⟨es, rfl, hw⟩
      · rw [hw]
        exact .malformed hwhy hx
      · rw [hw]
        exact .define rfl (h body (by simp) _ _ "lambda" Scopes.lt_size_openFunction (Or.inl rfl))
    | _ => exact .malformed rfl hx

end

mutual

theorem walked (e : Expr) : Walked e := by
  intro s T label hs hl
  cases e with
  | number x => exact .number
  | string text => exact .string
  | symbol name =>
    rw [resolve_symbol]
    by_cases ht : name = "true"
    · subst ht
      exact .boolean
    by_cases hf : name = "false"
    · subst hf
      exact .boolean
    rw [Form.ofResolved, if_neg ht, if_neg hf]
    exact .reference trivial (by simp [isTruth, ht, hf]) rfl
  | list items =>
    have inside := walkedEntries items
    cases hh : Head.ofItems? items with
    | none => exact walks_call inside hs hh
    | some head =>
      cases head with
      | block => exact walks_block inside hs hh
      | declare => exact walks_declare inside hs hh
      | assign => exact walks_assign inside hs hh
      | branch => exact walks_parts inside hs hh (Or.inl rfl)
      | whileLoop => exact walks_parts inside hs hh (Or.inr (Or.inl rfl))
      | forLoop => exact walks_parts inside hs hh (Or.inr (Or.inr (Or.inl rfl)))
      | define => exact walks_define inside hs hh
      | lambda => exact walks_lambda inside hs hl hh
      | operator op => exact walks_parts inside hs hh (Or.inr (Or.inr (Or.inr ⟨op, rfl⟩)))

theorem walkedEntries (es : List Expr) : ∀ e ∈ es, Walked e := by
  intro e he
  cases es with
  | nil => cases he
  | cons e' es =>
    rcases List.mem_cons.1 he with rfl | he
    · exact walked e
    · exact walkedEntries es e he

end

end Expr

/-! ## Programs -/

/-- The forms at the top of a program: the entries of its block, which has the global scope,
    or the program itself. -/
def Form.top : Form → List Form
  | .block 0 fs => fs
  | f => [f]

theorem Form.top_cases (f : Form) : (∃ fs, f = .block Scopes.root fs ∧ f.top = fs) ∨ f.top = [f] := by
  cases f with
  | block b fs =>
    cases b with
    | zero => exact Or.inl ⟨fs, rfl, rfl⟩
    | succ b => exact Or.inr rfl
  | _ => exact Or.inr rfl

theorem Walks.top_eq {P : Scopes → Prop} {T T' : Scopes} {s : ScopeId} {f : Form}
    (h : Walks P T s [f] T') (hT : 0 < T.size) : f.top = [f] := by
  cases h with
  | block _ =>
    obtain ⟨n, hn⟩ := Nat.exists_eq_succ_of_ne_zero (Nat.pos_iff_ne_zero.1 hT)
    rw [hn]
    rfl
  | _ => rfl

/-- The forms of a program have been walked over. -/
theorem Expr.resolveProgram_walks (e : Expr) :
    Walks (fun _ => True) .initial Scopes.root (Form.ofResolved "lambda" e.resolveProgram.1).top
      e.resolveProgram.2 := by
  have hs : Scopes.root < Scopes.initial.size := Nat.zero_lt_one
  have other : Walks (fun _ => True) .initial Scopes.root
      (Form.ofResolved "lambda" (resolve Scopes.root e .initial).1).top
      (resolve Scopes.root e .initial).2 := by
    have h := walked e Scopes.root .initial "lambda" hs (Or.inl rfl)
    rwa [h.top_eq hs]
  unfold resolveProgram StateT.run
  cases e with
  | list items =>
    rw [resolveRoot]
    cases hh : Head.ofItems? items with
    | none => exact other
    | some head =>
      cases head with
      | block =>
        have hhead := head?_resolveEntries (T := .initial) (s := Scopes.root) 1 items
        rw [hh] at hhead
        simp only [Walk.bind_apply, Walk.pure_apply, Form.ofResolved, hhead]
        cases items with
        | nil => cases hh
        | cons e es =>
          exact walks_entries (fun e' he => walkedEntries es e' he) hs
      | _ => exact other
  | _ => exact other

end ByteLisp
